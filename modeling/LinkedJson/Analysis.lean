import LinkedJson.Diagnostic
import LinkedJson.Reading
import LinkedJson.Symbol.Declared

/-!
# Analysis of a document

A document is analysed by reading its text: the value gives the symbols and the errors give the
diagnostics. A text that cannot be read gives neither.
-/

namespace LinkedJson

structure Analysis where
  symbols : SymbolTable
  diagnostics : List Diagnostic
deriving DecidableEq, Repr

namespace Analysis

/-- What a reading of a document's text shows. -/
def ofReading (document : Document) (reading : Reading) : Analysis :=
  ⟨.ofRoot reading.root, reading.errors.map (.ofError document)⟩

def ofDocument (reader : Reader) (document : Document) : Analysis :=
  ofReading document ((reader document.text).getD .empty)

end Analysis

end LinkedJson
