import LinkedJson.Address.Error
import LinkedJson.Address.Percent
import LinkedJson.Text.Parts

/-!
# Hosts

The host of an address is a domain, an IPv4 address or an IPv6 address. A host whose last label is a
number is an IPv4 address or nothing: its parts may be octal or hexadecimal, and a short form
spreads its last part over the remaining bytes. An IPv6 address stands in brackets and may leave out
one run of zero groups. In an address whose scheme is not special the host is only checked, not
interpreted.
-/

namespace LinkedJson

/-- Where the document of an address is kept. -/
inductive Host where
  | domain (name : String)
  | ipv4 (value : Nat)
  | ipv6 (groups : List Nat)
deriving DecidableEq, Repr

namespace Host

def empty : Host := .domain ""

def digitValue (base : Nat) (c : Char) : Option Nat :=
  (Text.hexValue c).filter (· < base)

/-- The value of some digits in a base; no digits are zero. -/
def numberValue (base : Nat) (digits : List Char) : Option Nat :=
  digits.foldlM (fun value c ↦ (digitValue base c).map (value * base + ·)) 0

/-! ## IPv4 -/

/-- The value of a part of an IPv4 address: hexadecimal after `0x`, octal after another zero. -/
def ipv4Number : List Char → Option Nat
  | [] => none
  | '0' :: 'x' :: digits => numberValue 16 digits
  | '0' :: 'X' :: digits => numberValue 16 digits
  | ['0'] => some 0
  | '0' :: digits => numberValue 8 digits
  | digits => numberValue 10 digits

/-- The labels of a domain without the empty one after a dot at its end. -/
def labels (name : List Char) : List (List Char) :=
  let parts := Text.splitOn (· == '.') name
  if parts.length > 1 && parts.getLast? == some [] then parts.dropLast else parts

/-- Whether the last label of a domain is a number. -/
def endsInNumber (name : List Char) : Bool :=
  match (labels name).getLast? with
  | some label => (label != [] && label.all Char.isDigit) || (ipv4Number label).isSome
  | none => false

/-- The value of the parts of an IPv4 address that has `left` bytes to fill: each part fills one
byte, and the last one all that are left. -/
def ipv4Value (left : Nat) : List Nat → Option Nat
  | [] => none
  | [last] => if last < Nat.pow 256 left then some last else none
  | part :: rest =>
    if part < 256 ∧ 1 < left then
      (ipv4Value (left - 1) rest).map (part * Nat.pow 256 (left - 1) + ·)
    else
      none

def parseIPv4 (name : List Char) : Option Nat :=
  ((labels name).mapM ipv4Number).bind (ipv4Value 4)

def renderIPv4 (value : Nat) : String :=
  ".".intercalate ([3, 2, 1, 0].map fun place ↦ toString (value / Nat.pow 256 place % 256))

/-! ## IPv6 -/

/-- The value of a group: one to four hexadecimal digits. -/
def ipv6Group (digits : List Char) : Option Nat :=
  if digits ≠ [] ∧ digits.length ≤ 4 then numberValue 16 digits else none

/-- The value of a byte of an embedded IPv4 address: decimal, without leading zeros. -/
def ipv4Byte (digits : List Char) : Option Nat :=
  if digits = [] ∨ (digits.head? = some '0' ∧ digits.length > 1) then none
  else (numberValue 10 digits).filter (· < 256)

/-- The two groups of an embedded IPv4 address. -/
def embeddedIPv4 (digits : List Char) : Option (List Nat) :=
  match (Text.splitOn (· == '.') digits).mapM ipv4Byte with
  | some [a, b, c, d] => some [a * 256 + b, c * 256 + d]
  | _ => none

/-- The groups of a text with colons between them. The last one may be an IPv4 address where the
address ends. -/
def ipv6Groups (atEnd : Bool) : List (List Char) → Option (List Nat)
  | [] => some []
  | [last] =>
    if atEnd && last.contains '.' then embeddedIPv4 last else (ipv6Group last).map ([·])
  | group :: rest => do
    return (← ipv6Group group) :: (← ipv6Groups atEnd rest)

/-- The groups of a text with colons between them; an empty text has none. -/
def ipv6Side (atEnd : Bool) (text : List Char) : Option (List Nat) :=
  if text = [] then some [] else ipv6Groups atEnd (Text.splitOn (· == ':') text)

def splitDoubleColon : List Char → Option (List Char × List Char)
  | ':' :: ':' :: rest => some ([], rest)
  | c :: rest => (splitDoubleColon rest).map fun (before, after) ↦ (c :: before, after)
  | [] => none

/-- Reads an IPv6 address: eight groups, or fewer around a double colon. -/
def parseIPv6 (text : List Char) : Option (List Nat) :=
  match splitDoubleColon text with
  | none => (ipv6Groups true (Text.splitOn (· == ':') text)).filter (·.length = 8)
  | some (before, after) => do
    let left ← ipv6Side false before
    let right ← ipv6Side true after
    if left.length + right.length < 8 then
      some (left ++ List.replicate (8 - left.length - right.length) 0 ++ right)
    else
      none

def zeroRun (groups : List Nat) : Nat :=
  (groups.takeWhile (· == 0)).length

def longestZeroRun : List Nat → Nat
  | [] => 0
  | group :: groups => max (zeroRun (group :: groups)) (longestZeroRun groups)

def renderGroup (group : Nat) : String :=
  String.ofList (Nat.toDigits 16 group)

def renderGroups (groups : List Nat) : String :=
  ":".intercalate (groups.map renderGroup)

/-- An IPv6 address, in which the first of the longest runs of two or more zeros is left out. -/
def renderIPv6 (groups : List Nat) : String :=
  let length := longestZeroRun groups
  let start := (List.range groups.length).find? fun index ↦ zeroRun (groups.drop index) == length
  match start with
  | some index =>
    if 2 ≤ length then
      renderGroups (groups.take index) ++ "::" ++ renderGroups (groups.drop (index + length))
    else
      renderGroups groups
  | none => renderGroups groups

/-! ## Reading and writing hosts -/

def parseBracketed (text : List Char) : Except AddressError Host :=
  match text.getLast?, parseIPv6 text.dropLast with
  | some ']', some groups => .ok (.ipv6 groups)
  | _, _ => .error .invalidIPv6

def isForbiddenInDomain (c : Char) : Bool :=
  Percent.controls c || 0x80 ≤ c.toNat ||
    c ∈ [' ', '#', '%', '/', ':', '<', '>', '?', '@', '[', '\\', ']', '^', '|']

/-- Reads the host of an address with a special scheme. Domains are written in lower case. One with
characters outside ASCII is refused, and a label in punycode is taken as it is. -/
def parse : List Char → Except AddressError Host
  | '[' :: rest => parseBracketed rest
  | text =>
    match Percent.decodeText? text with
    | none => .error .invalidDomain
    | some decoded =>
      let name := decoded.toList.map Char.toLower
      if name.any isForbiddenInDomain then .error .invalidDomain
      else if name = [] then .error .emptyHost
      else if endsInNumber name then
        match parseIPv4 name with
        | some value => .ok (.ipv4 value)
        | none => .error .invalidIPv4
      else
        .ok (.domain (String.ofList name))

def isForbiddenInOther (c : Char) : Bool :=
  c ∈ ['\x00', '\t', '\n', '\r', ' ', '#', '/', ':', '<', '>', '?', '@', '[', '\\', ']', '^', '|']

/-- Reads the host of an address whose scheme is not special. -/
def parseOther : List Char → Except AddressError Host
  | '[' :: rest => parseBracketed rest
  | text =>
    if text.any isForbiddenInOther then .error .invalidDomainCharacter
    else .ok (.domain (String.ofList (Percent.encode Percent.controls text)))

def render : Host → String
  | domain name => name
  | ipv4 value => renderIPv4 value
  | ipv6 groups => "[" ++ renderIPv6 groups ++ "]"

end Host

end LinkedJson
