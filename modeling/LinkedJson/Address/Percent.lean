import LinkedJson.Text.Hex

/-!
# Percent encoding

The parts of an address are ASCII: any other character, and each character that would be mistaken
for punctuation of its part, is written as the bytes of its UTF-8 form, each as a percent sign and
two hexadecimal digits. Decoding reads such triples back as bytes and keeps all else, also a percent
sign that starts no triple.
-/

namespace LinkedJson.Percent

def encodeByte (byte : UInt8) : List Char :=
  ['%', Text.hexDigit (byte.toNat / 16), Text.hexDigit (byte.toNat % 16)]

/-- A character as the bytes of its UTF-8 form, each encoded. -/
def encodeChar (c : Char) : List Char :=
  (String.utf8EncodeChar c).flatMap encodeByte

/-- A text with the characters of a set encoded, and with all that is not ASCII encoded. -/
def encode (set : Char → Bool) (text : List Char) : List Char :=
  text.flatMap fun c ↦ if c.toNat < 0x80 && !set c then [c] else encodeChar c

/-- The bytes of a text, in which each percent sign with two digits stands for one byte. -/
def decode : List Char → List UInt8
  | [] => []
  | '%' :: a :: b :: rest =>
    match Text.hexValue a, Text.hexValue b with
    | some high, some low => UInt8.ofNat (high * 16 + low) :: decode rest
    | _, _ => String.utf8EncodeChar '%' ++ decode (a :: b :: rest)
  | c :: rest => String.utf8EncodeChar c ++ decode rest

/-- The text that an encoded text stands for, if its bytes are UTF-8. -/
def decodeText? (text : List Char) : Option String :=
  String.fromUTF8? (decode text).toByteArray

/-! ## What each part of an address encodes -/

def controls (c : Char) : Bool :=
  c.toNat < 0x20 || c.toNat == 0x7F

def fragmentSet (c : Char) : Bool :=
  controls c || c ∈ [' ', '"', '<', '>', '\x60']

def querySet (c : Char) : Bool :=
  controls c || c ∈ [' ', '"', '#', '<', '>']

def specialQuerySet (c : Char) : Bool :=
  querySet c || c == '\x27'

def pathSet (c : Char) : Bool :=
  fragmentSet c || c ∈ ['#', '?', '\x7b', '\x7d']

def credentialSet (c : Char) : Bool :=
  pathSet c || c ∈ ['/', ':', ';', '=', '@', '[', '\\', ']', '^', '|']

end LinkedJson.Percent
