import LinkedJson.Document
import LinkedJson.SyntaxError

/-!
# Diagnostics

A diagnostic shows a syntax error in an editor: where it is, in positions, and what it says.
-/

namespace LinkedJson

/-- A syntax error as an editor shows it. The code is a signed number in 32 bits. -/
structure Diagnostic where
  range : Range
  code : Int32
  message : String
deriving DecidableEq, Repr

namespace Diagnostic

/-- All diagnostics are errors. -/
def severity : Nat := 1

def source : String := "jref-language-server"

def ofError (document : Document) (error : SyntaxError) : Diagnostic :=
  { range := document.range error.span
    code := error.code.code.toInt32
    message := error.code.message }

end Diagnostic

end LinkedJson
