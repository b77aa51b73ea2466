/-!
# Spans

A span is the part of a text that starts at a byte offset and takes a number of bytes. Offsets and
lengths are machine words, so the end of a span that does not fit in a word starts again from zero.
Spans of a text never come to that, but a span that is given from outside may.
-/

namespace LinkedJson

/-- The sum of two words of 64 bits. -/
def wordSum (first second : Nat) : Nat :=
  (first + second) % UInt64.size

/-- A stretch of bytes in a text. -/
structure Span where
  offset : Nat
  length : Nat
deriving DecidableEq, Repr, Inhabited

namespace Span

/-- The offset just after a span, as a word. -/
def stop (span : Span) : Nat :=
  wordSum span.offset span.length

def between (start stop : Nat) : Span :=
  ⟨start, stop - start⟩

/-- Whether an offset lies in a span; the offset just after it does not. -/
def contains (span : Span) (offset : Nat) : Bool :=
  span.offset ≤ offset && offset < span.stop

theorem contains_iff {span : Span} {offset : Nat} :
    span.contains offset = true ↔ span.offset ≤ offset ∧ offset < span.stop := by
  simp only [contains, Bool.and_eq_true, decide_eq_true_eq]

end Span

end LinkedJson
