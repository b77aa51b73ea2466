import LinkedJson.Address.Resolve

/-!
# References

A reference names a document by an address relative to the document that it stands in, and a place
in it by the address's fragment, which is a pointer in percent encoding.
-/

namespace LinkedJson

/-- What a reference leads to: a document, and a pointer into it if the reference has one. -/
structure Target where
  document : Address
  pointer : Option String
deriving DecidableEq, Repr

namespace Target

/-- The pointer that a fragment stands for. A fragment whose bytes are no text is kept as it is. -/
def pointerOf (fragment : String) : String :=
  (Percent.decodeText? fragment.toList).getD fragment

def ofAddress (address : Address) : Target :=
  ⟨address.withoutFragment, address.fragment.map pointerOf⟩

/-- The target of a reference that stands in the document at an address. -/
def resolve (base : Address) (reference : String) : Option Target :=
  (base.join reference).toOption.map ofAddress

end Target

end LinkedJson
