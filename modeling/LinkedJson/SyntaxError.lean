import LinkedJson.Span

/-!
# Syntax errors

A syntax error is a numbered cause together with the span at which it is reported. Sixteen causes
have a name and a message of their own; any other number is an unknown cause.
-/

namespace LinkedJson

/-- What is wrong at a place of a text. -/
inductive ErrorCode where
  | invalidSymbol
  | invalidNumberFormat
  | propertyNameExpected
  | valueExpected
  | colonExpected
  | commaExpected
  | closeBraceExpected
  | closeBracketExpected
  | endOfFileExpected
  | invalidCommentToken
  | unexpectedEndOfComment
  | unexpectedEndOfString
  | unexpectedEndOfNumber
  | invalidUnicode
  | invalidEscapeCharacter
  | invalidCharacter
  | unknown (code : UInt32)
deriving DecidableEq, Repr, Inhabited

namespace ErrorCode

def code : ErrorCode → UInt32
  | invalidSymbol => 1
  | invalidNumberFormat => 2
  | propertyNameExpected => 3
  | valueExpected => 4
  | colonExpected => 5
  | commaExpected => 6
  | closeBraceExpected => 7
  | closeBracketExpected => 8
  | endOfFileExpected => 9
  | invalidCommentToken => 10
  | unexpectedEndOfComment => 11
  | unexpectedEndOfString => 12
  | unexpectedEndOfNumber => 13
  | invalidUnicode => 14
  | invalidEscapeCharacter => 15
  | invalidCharacter => 16
  | unknown code => code

/-- The causes with a name of their own, by number. -/
def named : List ErrorCode :=
  [invalidSymbol, invalidNumberFormat, propertyNameExpected, valueExpected, colonExpected,
    commaExpected, closeBraceExpected, closeBracketExpected, endOfFileExpected,
    invalidCommentToken, unexpectedEndOfComment, unexpectedEndOfString, unexpectedEndOfNumber,
    invalidUnicode, invalidEscapeCharacter, invalidCharacter]

def ofCode (code : UInt32) : ErrorCode :=
  (named.find? (·.code == code)).getD (unknown code)

theorem code_ofCode (code : UInt32) : (ofCode code).code = code := by
  unfold ofCode
  cases hcause : named.find? (·.code == code) with
  | none => rfl
  | some cause => simpa using List.find?_some hcause

def name : ErrorCode → String
  | invalidSymbol => "InvalidSymbol"
  | invalidNumberFormat => "InvalidNumberFormat"
  | propertyNameExpected => "PropertyNameExpected"
  | valueExpected => "ValueExpected"
  | colonExpected => "ColonExpected"
  | commaExpected => "CommaExpected"
  | closeBraceExpected => "CloseBraceExpected"
  | closeBracketExpected => "CloseBracketExpected"
  | endOfFileExpected => "EndOfFileExpected"
  | invalidCommentToken => "InvalidCommentToken"
  | unexpectedEndOfComment => "UnexpectedEndOfComment"
  | unexpectedEndOfString => "UnexpectedEndOfString"
  | unexpectedEndOfNumber => "UnexpectedEndOfNumber"
  | invalidUnicode => "InvalidUnicode"
  | invalidEscapeCharacter => "InvalidEscapeCharacter"
  | invalidCharacter => "InvalidCharacter"
  | unknown code => "Unknown(" ++ toString code.toNat ++ ")"

/-- The sentence that tells a reader what is wrong. -/
def message : ErrorCode → String
  | invalidSymbol => "Invalid symbol found"
  | invalidNumberFormat => "Invalid number format"
  | propertyNameExpected => "Property name expected"
  | valueExpected => "Value expected"
  | colonExpected => "Colon expected"
  | commaExpected => "Comma expected"
  | closeBraceExpected => "Closing brace \"\x7d\" expected"
  | closeBracketExpected => "Closing bracket \"]\" expected"
  | endOfFileExpected => "End of file expected"
  | invalidCommentToken => "Invalid comment token"
  | unexpectedEndOfComment => "Unexpected end of comment"
  | unexpectedEndOfString => "Unexpected end of string"
  | unexpectedEndOfNumber => "Unexpected end of number"
  | invalidUnicode => "Invalid unicode sequence"
  | invalidEscapeCharacter => "Invalid escape character"
  | invalidCharacter => "Invalid character found"
  | unknown _ => "Unknown syntax error"

end ErrorCode

structure SyntaxError where
  code : ErrorCode
  span : Span
deriving DecidableEq, Repr

end LinkedJson
