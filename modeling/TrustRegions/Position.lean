import TrustRegions.Bytes

/-!
Positions and spans of a text. A position is a line and a column, both counted from one, the column
in bytes; a span runs from its start up to, and not including, its end.
-/

namespace TrustRegions

structure Position where
  line : Nat
  column : Nat
deriving DecidableEq, Repr

namespace Position

instance : LT Position where
  lt p q := p.line < q.line ∨ (p.line = q.line ∧ p.column < q.column)

instance : LE Position where
  le p q := p.line < q.line ∨ (p.line = q.line ∧ p.column ≤ q.column)

instance (p q : Position) : Decidable (p < q) :=
  inferInstanceAs (Decidable (p.line < q.line ∨ (p.line = q.line ∧ p.column < q.column)))

instance (p q : Position) : Decidable (p ≤ q) :=
  inferInstanceAs (Decidable (p.line < q.line ∨ (p.line = q.line ∧ p.column ≤ q.column)))

theorem lt_iff {p q : Position} :
    p < q ↔ p.line < q.line ∨ (p.line = q.line ∧ p.column < q.column) := Iff.rfl

theorem le_iff {p q : Position} :
    p ≤ q ↔ p.line < q.line ∨ (p.line = q.line ∧ p.column ≤ q.column) := Iff.rfl

def first : Position := ⟨1, 1⟩

def advance (p : Position) (c : UInt8) : Position :=
  if c = newline then ⟨p.line + 1, 1⟩ else ⟨p.line, p.column + 1⟩

def text (p : Position) : Bytes := decimal p.line ++ ascii ":" ++ decimal p.column

end Position

structure Span where
  start : Position
  stop : Position
deriving DecidableEq, Repr

namespace Span

abbrev Empty (s : Span) : Prop := ¬s.start < s.stop

instance : Membership Position Span where
  mem s p := s.start ≤ p ∧ p < s.stop

instance (p : Position) (s : Span) : Decidable (p ∈ s) :=
  inferInstanceAs (Decidable (s.start ≤ p ∧ p < s.stop))

abbrev Covers (s t : Span) : Prop := s.start ≤ t.start ∧ t.stop ≤ s.stop

abbrev Overlaps (s t : Span) : Prop := s.start < t.stop ∧ t.start < s.stop

/-- The last line with a byte of the span: an end in the first column leaves its own line out.
Line numbers are 64 bits wide, and the line before line 0 is the greatest of them. -/
def lastLine (s : Span) : Nat :=
  if 1 < s.stop.column then s.stop.line
  else if s.stop.line = 0 then UInt64.size - 1
  else s.stop.line - 1

abbrev TouchesLines (s : Span) (first last : Nat) : Prop :=
  ¬s.Empty ∧ first ≤ s.lastLine ∧ s.start.line ≤ last

def text (s : Span) : Bytes := ascii "[" ++ s.start.text ++ ascii ", " ++ s.stop.text ++ ascii ")"

end Span

end TrustRegions
