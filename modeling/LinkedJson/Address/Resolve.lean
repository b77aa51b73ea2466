import LinkedJson.Address.Basic

/-!
# Reading addresses

A text is read as an address on its own or relative to a base. Blanks around it count for nothing,
nor do breaks inside it outside the path of a file. A text with a scheme is absolute, except that
after the base's own special scheme a path may be relative. Any other text takes from the base what
it does not give itself: the authority, the directory of the path, the query.
-/

namespace LinkedJson.Address

def tidy (text : List Char) : List Char :=
  Text.trim (·.toNat ≤ 0x20) text

def isSchemeChar (c : Char) : Bool :=
  c.isAlphanum || c == '+' || c == '-' || c == '.'

/-- The scheme of a text, in lower case, and what follows its colon. -/
def splitScheme? (text : List Char) : Option (String × List Char) :=
  let isInside := fun c ↦ isSchemeChar c || isBreak c
  let scheme := unbroken (text.takeWhile isInside)
  match scheme, text.dropWhile isInside with
  | letter :: _, ':' :: rest =>
    if letter.isAlpha then some (String.ofList (scheme.map Char.toLower), rest) else none
  | _, _ => none

/-! ## Query and fragment -/

def readFragment (text : List Char) : String :=
  String.ofList (Percent.encode Percent.fragmentSet text)

def readQuery (kind : SchemeClass) (text : List Char) : String :=
  let set := if kind.isSpecial then Percent.specialQuerySet else Percent.querySet
  String.ofList (Percent.encode set text)

/-- An address with the query and the fragment that a text gives it. -/
def withSuffix (address : Address) (suffix : List Char) : Address :=
  match suffix with
  | '?' :: rest =>
    let query := some (readQuery address.schemeClass (rest.takeWhile (· != '#')))
    match rest.dropWhile (· != '#') with
    | _ :: fragment => { address with query, fragment := some (readFragment fragment) }
    | [] => { address with query, fragment := none }
  | '#' :: fragment => { address with query := none, fragment := some (readFragment fragment) }
  | _ => { address with query := none, fragment := none }

def pathText (text : List Char) : List Char :=
  text.takeWhile (!endsPath ·)

def suffixText (text : List Char) : List Char :=
  text.dropWhile (!endsPath ·)

/-- The address with a path given by segments and with the query and fragment of a text. -/
def assemble (scheme : String) (authority : Option Authority) (segments : List String)
    (text : List Char) : Address :=
  withSuffix ⟨scheme, authority, .segments segments, none, none⟩ (suffixText text)

/-! ## Authorities -/

/-- Reads a user name and a password; empty ones are left out. -/
def readCredentials (text : List Char) : Option Credentials :=
  let encode := fun part ↦ String.ofList (Percent.encode Percent.credentialSet part)
  let username := text.takeWhile (· != ':')
  let password := (text.dropWhile (· != ':')).drop 1
  if password ≠ [] then some ⟨encode username, some (encode password)⟩
  else if username ≠ [] then some ⟨encode username, none⟩
  else none

def splitLastAt? : List Char → Option (List Char × List Char)
  | [] => none
  | c :: rest =>
    match splitLastAt? rest with
    | some (before, after) => some (c :: before, after)
    | none => if c = '@' then some ([], rest) else none

/-- The host that a text starts with: all up to a colon outside brackets. -/
def hostText (inBrackets : Bool) : List Char → List Char
  | [] => []
  | c :: rest =>
    if c = ':' ∧ inBrackets = false then []
    else c :: hostText (if c = '[' then true else if c = ']' then false else inBrackets) rest

/-- Reads a port, and returns what follows it, which is nothing or starts with a backslash. -/
def readPort (scheme : String) (text : List Char) :
    Except AddressError (Option Nat × List Char) :=
  let digits := text.takeWhile Char.isDigit
  let rest := text.dropWhile Char.isDigit
  let port := (Host.numberValue 10 digits).getD 0
  if 65535 < port ∨ (rest ≠ [] ∧ rest.head? ≠ some '\\') then .error .invalidPort
  -- The port of the scheme goes without saying.
  else if digits = [] ∨ some port = Scheme.defaultPort scheme then .ok (none, rest)
  else .ok (some port, rest)

def readHostAndPort (scheme : String) (text : List Char) :
    Except AddressError (Host × Option Nat × List Char) := do
  let isSpecial := (SchemeClass.ofScheme scheme).isSpecial
  let name := hostText false text
  let rest := text.drop name.length
  if name = [] ∧ (isSpecial ∨ rest ≠ []) then
    throw .emptyHost
  let host ← if isSpecial then Host.parse name else Host.parseOther name
  match rest with
  | ':' :: rest =>
    let (port, rest) ← readPort scheme rest
    return (host, port, rest)
  | _ => return (host, none, rest)

/-- Reads the authority after two slashes, and returns what follows it. -/
def readAuthority (scheme : String) (text : List Char) :
    Except AddressError (Authority × List Char) := do
  let kind := SchemeClass.ofScheme scheme
  let isInside := fun c ↦ !kind.isSeparator c && !endsPath c
  let inside := text.takeWhile isInside
  let rest := text.dropWhile isInside
  let (credentials, place) ←
    match splitLastAt? inside with
    | none => pure (none, inside)
    | some ([], place) =>
      if place = [] ∧ rest ≠ [] then throw .emptyHost else pure (none, place)
    | some (user, place) => pure (readCredentials user, place)
  let (host, port, unread) ← readHostAndPort scheme place
  if host = .empty ∧ credentials.isSome then
    throw .emptyHost
  return (⟨credentials, host, port⟩, unread ++ rest)

def dropSlash (kind : SchemeClass) : List Char → List Char
  | [] => []
  | c :: rest => if kind.isSeparator c then rest else c :: rest

/-- The address with a scheme and with what a text gives after two slashes. -/
def afterSlashes (scheme : String) (text : List Char) : Except AddressError Address := do
  let kind := SchemeClass.ofScheme scheme
  let (authority, rest) ← readAuthority scheme text
  let path := pathText rest
  -- With a special scheme the path is never empty.
  let segments :=
    if kind.isSpecial = false ∧ path = [] then []
    else Segments.read kind [] (dropSlash kind path)
  return assemble scheme (some authority) segments rest

/-! ## Relative addresses -/

def withFragment (base : Address) (text : List Char) : Address :=
  { base with fragment := some (readFragment text) }

/-- The address that a text gives relative to a base that is no file. -/
def relativeTo (base : Address) (text : List Char) : Except AddressError Address :=
  let kind := base.schemeClass
  match text with
  | [] => .ok { base with fragment := none }
  | c :: rest =>
    if c = '?' then
      .ok (base.withSuffix text)
    else if c = '#' then
      .ok (base.withFragment rest)
    else if isSlash c then
      if "//".toList.isPrefixOf text then
        afterSlashes base.scheme (text.drop 2)
      else if 2 ≤ (text.takeWhile isSlash).length then
        afterSlashes base.scheme (text.dropWhile isSlash)
      else
        .ok (assemble base.scheme base.authority (Segments.read kind [] (pathText rest)) rest)
    else
      let segments := Segments.readRelative kind base.segments (pathText text)
      .ok (assemble base.scheme base.authority segments text)

/-! ## Files -/

/-- The address of a file on a host. Empty segments at the start of its path count for nothing. -/
def fileAddress (host : Host) (segments : List String) (text : List Char) : Address :=
  assemble "file" (some (.ofHost host)) (Segments.dropEmpty segments) (unbroken text)

/-- The address of a file on a host, with a path behind some directories. -/
def fileBehind (host : Host) (before : List String) (text : List Char) : Address :=
  fileAddress host (Segments.read .file before (pathText text)) text

/-- The address of a file that a text gives after two slashes. The local host has no name, and a
drive letter is no host and has none. -/
def fileAfterSlashes (text : List Char) : Except AddressError Address :=
  let isInside := fun c ↦ !isSlash c && !endsPath c
  let name := unbroken (text.takeWhile isInside)
  let rest := text.dropWhile isInside
  if Segment.isDrive name then
    .ok (fileBehind .empty [] text)
  else if name = [] then
    .ok (fileBehind .empty [] rest)
  else
    match Host.parse name with
    | .error cause => .error cause
    | .ok host =>
      if host = .domain "localhost" then
        .ok (fileBehind .empty [] rest)
      else
        let path := dropSlash .file rest
        if Segments.hasDrive [] (Segments.split .file (pathText path)) then
          .ok (fileBehind .empty [] path)
        else
          .ok (fileBehind host [] path)

/-- The address of a file that a text gives after one slash. The drive letter or the host of the
base stays, unless the text has a drive letter of its own. -/
def fileFromRoot (base : Option Address) (text : List Char) : Address :=
  match base with
  | none => fileBehind .empty [] text
  | some base =>
    if Segment.startsWithDrive (unbroken text) then
      fileBehind .empty [] text
    else
      match base.segments.head? with
      | some first =>
        if Segment.isNormalDrive first.toList then fileBehind .empty [first] text
        else fileBehind base.host [] text
      | none => fileBehind base.host [] text

/-- The address of a file that a text gives without a slash. -/
def fileFromHere (base : Option Address) (text : List Char) : Address :=
  match base with
  | none => fileBehind .empty [] text
  | some base =>
    match unbroken text with
    | [] => { base with fragment := none }
    | '?' :: _ => base.withSuffix (unbroken text)
    | '#' :: rest => base.withFragment rest
    | _ =>
      if Segment.startsWithDrive (unbroken text) then fileBehind .empty [] text
      else fileAddress base.host (Segments.readRelative .file base.segments (pathText text)) text

/-- The address of a file that a text gives, perhaps relative to that of another file. -/
def readFile (base : Option Address) (text : List Char) : Except AddressError Address :=
  match text.dropWhile isBreak with
  | a :: rest =>
    if isSlash a then
      match rest.dropWhile isBreak with
      | b :: rest =>
        if isSlash b then fileAfterSlashes rest else .ok (fileFromRoot base (b :: rest))
      | [] => .ok (fileFromRoot base [])
    else
      .ok (fileFromHere base text)
  | [] => .ok (fileFromHere base text)

/-! ## All addresses -/

/-- The address with a scheme of its own that is not special. -/
def readOther (scheme : String) (text : List Char) : Except AddressError Address :=
  match text with
  | '/' :: '/' :: rest => afterSlashes scheme rest
  | '/' :: rest => .ok (assemble scheme none (Segments.read .other [] (pathText rest)) rest)
  | _ =>
    let path := String.ofList (Percent.encode Percent.controls (pathText text))
    .ok (withSuffix ⟨scheme, none, .rootless path, none, none⟩ (suffixText text))

def readAbsolute (base : Option Address) (scheme : String) (text : List Char) :
    Except AddressError Address :=
  match SchemeClass.ofScheme scheme with
  | .file => readFile (base.filter (·.scheme = "file")) text
  | .special =>
    let text := unbroken text
    match base.filter (·.scheme = scheme) with
    | some base =>
      if (text.takeWhile isSlash).length < 2 then base.relativeTo text
      else afterSlashes scheme (text.dropWhile isSlash)
    | none => afterSlashes scheme (text.dropWhile isSlash)
  | .other => readOther scheme (unbroken text)

/-- The address without a scheme of its own. -/
def readRelative (base : Address) (text : List Char) : Except AddressError Address :=
  match unbroken text with
  | '#' :: rest => .ok (base.withFragment rest)
  | _ =>
    if base.isBase = false then .error .relativeToOpaque
    else if base.schemeClass = .file then readFile (some base) text
    else base.relativeTo (unbroken text)

/-- The address that a text gives, perhaps relative to a base. -/
def read (base : Option Address) (text : String) : Except AddressError Address :=
  let text := tidy text.toList
  match splitScheme? text, base with
  | some (scheme, rest), base => readAbsolute base scheme rest
  | none, some base => readRelative base text
  | none, none => .error .relativeWithoutBase

def parse (text : String) : Except AddressError Address :=
  read none text

def join (base : Address) (text : String) : Except AddressError Address :=
  read (some base) text

end LinkedJson.Address
