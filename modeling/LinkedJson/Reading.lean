import LinkedJson.Grammar.Document
import LinkedJson.Tree.Nodes

/-!
# Reading a text

Reading a text gives its value, if it has one, and its syntax errors. A text of the grammar is read
through the tree that the grammar gives it. A text outside the grammar is read through the tree of a
recovering front end, which is a parameter here: it gives trees for the texts that it knows.
-/

namespace LinkedJson

structure Reading where
  root : Option Node
  errors : List SyntaxError
deriving Repr

namespace Reading

def empty : Reading := ⟨none, []⟩

def ofTree (text : List Char) (tree : Tree) : Reading :=
  ⟨tree.rootNode text, tree.allErrors text⟩

end Reading

/-- A way to read texts, which may fail on some. -/
abbrev Reader := String → Option Reading

/-- The syntax trees that a recovering front end gives. -/
abbrev Recovery := String → Option Tree

/-- Reads a text through the tree that the front end gives for it, else through the grammar. -/
def Recovery.reader (recovery : Recovery) : Reader := fun text ↦
  ((recovery text).or (Grammar.tree? text.toList)).map (Reading.ofTree text.toList)

end LinkedJson
