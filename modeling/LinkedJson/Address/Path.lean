import LinkedJson.Address.Percent
import LinkedJson.Address.Scheme
import LinkedJson.Text.Parts

/-!
# Paths of addresses

A path is a list of segments. Reading one resolves the segments `.` and `..` as it goes, also where
their dots are percent-encoded. A Windows drive letter is never removed by `..`, and as the first
segment of a file path it is written with a colon. Tabs and line ends in a path are breaks. They
count for nothing, except that a break after a drive letter at the root of a file path ends its
segment.
-/

namespace LinkedJson

def isSlash (c : Char) : Bool :=
  c == '/' || c == '\\'

def endsPath (c : Char) : Bool :=
  c == '?' || c == '#'

def isBreak (c : Char) : Bool :=
  c == '\t' || c == '\n' || c == '\r'

def unbroken (text : List Char) : List Char :=
  text.filter (!isBreak ·)

namespace Segment

/-- A segment as it is kept: encoded and without breaks. -/
def encode (segment : List Char) : List Char :=
  Percent.encode Percent.pathSet (unbroken segment)

/-- Whether a segment is a Windows drive letter: a letter with a colon or a bar. -/
def isDrive : List Char → Bool
  | [letter, mark] => letter.isAlpha && (mark == ':' || mark == '|')
  | _ => false

def isNormalDrive (segment : List Char) : Bool :=
  isDrive segment && segment.getLast? == some ':'

def normalizeDrive : List Char → List Char
  | letter :: _ => [letter, ':']
  | [] => []

/-- Whether a text starts with a drive letter that is a whole segment. -/
def startsWithDrive : List Char → Bool
  | [letter, mark] => isDrive [letter, mark]
  | letter :: mark :: next :: _ => isDrive [letter, mark] && (isSlash next || endsPath next)
  | _ => false

/-- A drive letter with a colon and what stands behind it in the same segment, after a break. -/
def splitDrive? (segment : List Char) : Option (List Char × List Char) :=
  match segment.dropWhile isBreak with
  | letter :: rest =>
    match rest.dropWhile isBreak with
    | ':' :: c :: behind =>
      if letter.isAlpha ∧ isBreak c ∧ unbroken behind ≠ [] then some ([letter, ':'], behind)
      else none
    | _ => none
  | [] => none

/-- A segment with its encoded dots written plainly. -/
def plainDots : List Char → List Char
  | '%' :: '2' :: 'e' :: rest => '.' :: plainDots rest
  | '%' :: '2' :: 'E' :: rest => '.' :: plainDots rest
  | c :: rest => c :: plainDots rest
  | [] => []

def isSingleDot (segment : List Char) : Bool :=
  plainDots (encode segment) == ['.']

def isDoubleDot (segment : List Char) : Bool :=
  plainDots (encode segment) == ['.', '.']

end Segment

namespace Segments

/-- The directory above. A drive letter has none, also where a backslash follows it. -/
def parent (segments : List String) : List String :=
  match segments.getLast? with
  | some last => if Segment.startsWithDrive last.toList then segments else segments.dropLast
  | none => []

/-- What a segment adds behind others. At the root of a file path a drive letter is written with a
colon, and a break after it divides the segment. -/
def place (kind : SchemeClass) (before : List String) (segment : List Char) : List String :=
  if kind = .file ∧ before = [] then
    match Segment.splitDrive? segment with
    | some (drive, behind) => [String.ofList drive, String.ofList (Segment.encode behind)]
    | none =>
      let kept := Segment.encode segment
      [String.ofList (if Segment.isDrive kept then Segment.normalizeDrive kept else kept)]
  else
    [String.ofList (Segment.encode segment)]

def enter (kind : SchemeClass) (before : List String) (segment : List Char) : List String :=
  if Segment.isDoubleDot segment then parent before
  else if Segment.isSingleDot segment then before
  else before ++ place kind before segment

/-- The segments of a path behind others that are all directories. -/
def resolve (kind : SchemeClass) (before : List String) (segments : List (List Char)) :
    List String :=
  let found := segments.foldl (enter kind) before
  -- A dot segment at the end leaves a directory, which ends with an empty segment.
  if segments.getLast?.any fun last ↦ Segment.isDoubleDot last || Segment.isSingleDot last then
    found ++ [""]
  else
    found

/-- Whether a file path comes to a drive letter at its root, as a segment of its own. -/
def hasDrive (before : List String) : List (List Char) → Bool
  | [] => false
  | segment :: rest =>
    (before.isEmpty && Segment.isDrive (Segment.encode segment)) ||
      hasDrive (enter .file before segment) rest

def split (kind : SchemeClass) (text : List Char) : List (List Char) :=
  Text.splitOn kind.isSeparator text

/-- The segments of a path text behind others that are all directories. -/
def read (kind : SchemeClass) (before : List String) (text : List Char) : List String :=
  resolve kind before (split kind text)

/-- The segments of a relative path behind a drive letter that ends another path. The drive letter
stays: dots leave it as a directory, and any other segment is written on to it. -/
def readOnto (before : List String) (drive : String) (text : List Char) : List String :=
  match split .file text with
  | [] => before ++ [drive]
  | first :: rest =>
    if Segment.isDoubleDot first then resolve .file (before ++ [drive]) rest
    else if Segment.isSingleDot first then
      if rest = [] then before ++ [drive, ""] else resolve .file (before ++ [drive]) rest
    else resolve .file before ((drive.toList ++ first) :: rest)

/-- The segments of a relative path, which takes the place of the last segment of another path. -/
def readRelative (kind : SchemeClass) (base : List String) (text : List Char) : List String :=
  match base.getLast? with
  | none => read kind [] text
  | some last =>
    if kind = .file ∧ Segment.isNormalDrive last.toList then
      -- A file path that is only a drive letter is a directory.
      if base.length = 1 then read kind base text else readOnto base.dropLast last text
    else
      read kind base.dropLast text

/-- A path without the empty segments at its start; the last segment stays. -/
def dropEmpty : List String → List String
  | first :: second :: rest =>
    if first = "" then dropEmpty (second :: rest) else first :: second :: rest
  | segments => segments

def render (segments : List String) : String :=
  String.join (segments.map ("/" ++ ·))

end Segments

end LinkedJson
