import LinkedJson.Span

/-!
# Symbol tables

A symbol is a property of a document, named by the pointer that leads to it from the root. A table
holds one symbol for each pointer, in the order in which the pointers first came up; a later symbol
with the same pointer takes the place of the earlier one.
-/

namespace LinkedJson

/-- A property of a document: its pointer, its span and that of its value, and the text of the
reference if it is one. -/
structure Symbol where
  pointer : String
  span : Span
  valueSpan : Span
  refersTo : Option String
deriving DecidableEq, Repr

/-- Symbols by pointer, in the order of first insertion. -/
structure SymbolTable where
  symbols : List Symbol
deriving DecidableEq, Repr

namespace SymbolTable

def empty : SymbolTable := ⟨[]⟩

/-- A list of symbols with one more: in the place of the first with the same pointer, else at the
end. -/
def put (symbol : Symbol) : List Symbol → List Symbol
  | [] => [symbol]
  | first :: rest =>
    if first.pointer = symbol.pointer then symbol :: rest else first :: put symbol rest

def insert (table : SymbolTable) (symbol : Symbol) : SymbolTable :=
  ⟨put symbol table.symbols⟩

def ofList (symbols : List Symbol) : SymbolTable :=
  symbols.foldl insert empty

def get? (table : SymbolTable) (pointer : String) : Option Symbol :=
  table.symbols.find? (·.pointer = pointer)

def size (table : SymbolTable) : Nat :=
  table.symbols.length

def isEmpty (table : SymbolTable) : Bool :=
  table.symbols.isEmpty

def pointers (table : SymbolTable) : List String :=
  table.symbols.map (·.pointer)

def references (table : SymbolTable) : List Symbol :=
  table.symbols.filter (·.refersTo.isSome)

/-- The first reference whose value holds an offset. -/
def referenceAt (table : SymbolTable) (offset : Nat) : Option Symbol :=
  table.references.find? (·.valueSpan.contains offset)

theorem get?_insert_self (table : SymbolTable) (symbol : Symbol) :
    (table.insert symbol).get? symbol.pointer = some symbol := by
  obtain ⟨symbols⟩ := table
  simp only [insert, get?]
  induction symbols with
  | nil => simp [put]
  | cons first rest ih =>
    by_cases hsame : first.pointer = symbol.pointer
    · simp [put, hsame]
    · simp [put, hsame, ih]

theorem get?_insert_of_ne (table : SymbolTable) (symbol : Symbol) {pointer : String}
    (hother : symbol.pointer ≠ pointer) :
    (table.insert symbol).get? pointer = table.get? pointer := by
  obtain ⟨symbols⟩ := table
  simp only [insert, get?]
  induction symbols with
  | nil => simp [put, hother]
  | cons first rest ih =>
    by_cases hsame : first.pointer = symbol.pointer
    · simp [put, hsame, hother]
    · by_cases hpointer : first.pointer = pointer
      · subst hpointer
        simp [put, hsame]
      · simp [put, hsame, hpointer, ih]

end SymbolTable

end LinkedJson
