import Mathlib.Order.Defs.LinearOrder
import Mathlib.Tactic.Order
import Mathlib.Tactic.Lemma
import TrustRegions.Position

/-! Positions are in a linear order, and two spans with text in them are disjoint, nested or cross. -/

namespace TrustRegions

namespace Position

@[ext] lemma ext {p q : Position} (hl : p.line = q.line) (hc : p.column = q.column) : p = q := by
  cases p
  cases q
  simp_all

instance : LinearOrder Position where
  le_refl p := Or.inr ⟨rfl, Nat.le_refl _⟩
  le_trans p q r hpq hqr := by
    simp only [le_iff] at *
    omega
  lt_iff_le_not_ge p q := by
    simp only [lt_iff, le_iff]
    omega
  le_antisymm p q hpq hqp := by
    simp only [le_iff] at *
    exact ext (by omega) (by omega)
  le_total p q := by
    simp only [le_iff]
    omega
  toDecidableLE := inferInstance
  toDecidableLT := inferInstance

end Position

namespace Span

variable {a b c : Span} {p : Position}

lemma Covers.trans (hab : a.Covers b) (hbc : b.Covers c) : a.Covers c :=
  ⟨hab.1.trans hbc.1, hbc.2.trans hab.2⟩

lemma Covers.antisymm (hab : a.Covers b) (hba : b.Covers a) : a = b := by
  obtain ⟨as, ae⟩ := a
  obtain ⟨bs, be⟩ := b
  congr
  · exact le_antisymm hab.1 hba.1
  · exact le_antisymm hba.2 hab.2

lemma Covers.mem (h : a.Covers b) (hp : p ∈ b) : p ∈ a :=
  ⟨h.1.trans hp.1, lt_of_lt_of_le hp.2 h.2⟩

def Leads (a b : Span) : Prop := a.Covers b ∨ a.stop ≤ b.start

lemma Leads.start_le (h : a.Leads b) (ha : ¬a.Empty) : a.start ≤ b.start := by
  rcases h with h | h
  · exact h.1
  · exact (not_not.mp ha).le.trans h

lemma Leads.covers_of_mem (h : a.Leads b) (ha : p ∈ a) (hb : p ∈ b) : a.Covers b := by
  rcases h with h | h
  · exact h
  · exact absurd (lt_of_lt_of_le ha.2 (h.trans hb.1)) (lt_irrefl p)

lemma start_mem (ha : ¬a.Empty) : a.start ∈ a := ⟨le_rfl, not_not.mp ha⟩

lemma Leads.covers_of_covers (h : a.Leads b) (hbc : b.start ≤ c.start) (hc : ¬c.Empty)
    (hac : a.Covers c) : a.Covers b := by
  rcases h with h | h
  · exact h
  · have hstart : c.start < a.stop := lt_of_lt_of_le (not_not.mp hc) hac.2
    exact absurd (h.trans hbc) hstart.not_ge

lemma Leads.nested_or_disjoint (h : a.Leads b) : a.Covers b ∨ ¬a.Overlaps b := by
  rcases h with h | h
  · exact Or.inl h
  · exact Or.inr fun ho => absurd ho.2 h.not_gt

end Span

end TrustRegions
