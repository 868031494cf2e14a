import Mathlib.Order.Interval.Set.LinearOrder
import TrustRegions.Proofs.Span

/-! A span is the set of the positions in it: which lines it touches, what it overlaps and what it covers
is told by these. -/

namespace TrustRegions.Span

variable {s t : Span} {p : Position} {first last : Nat}

lemma line_le_lastLine (hp : p ∈ s) (hcolumn : 1 ≤ p.column) : p.line ≤ s.lastLine := by
  have hstop := Position.lt_iff.mp hp.2
  rw [lastLine]
  split
  · omega
  · split <;> omega

lemma touchesLines_of_mem (hp : p ∈ s) (hlines : (first ≤ p.line ∧ p.line ≤ last) ∧ 1 ≤ p.column) :
    s.TouchesLines first last := by
  obtain ⟨⟨hfirst, hlast⟩, hcolumn⟩ := hlines
  have hstart : s.start.line ≤ p.line := by
    have := Position.le_iff.mp hp.1
    omega
  exact ⟨not_not.mpr (lt_of_le_of_lt hp.1 hp.2), hfirst.trans (line_le_lastLine hp hcolumn),
    hstart.trans hlast⟩

lemma lineStart_lt_stop {n : Nat} (hs : ¬s.Empty) (hcolumn : 1 ≤ s.start.column)
    (hn : n ≤ s.lastLine) : (⟨n, 1⟩ : Position) < s.stop := by
  -- An end in the first column comes after the start, so there is a line before its own.
  have hne := Position.lt_iff.mp (not_not.mp hs)
  rw [Position.lt_iff]
  rw [lastLine] at hn
  dsimp only
  split at hn
  · omega
  · split at hn <;> omega

lemma exists_mem_of_touchesLines (h : s.TouchesLines first last) (hle : first ≤ last)
    (hcolumn : 1 ≤ s.start.column) :
    ∃ p ∈ s, (first ≤ p.line ∧ p.line ≤ last) ∧ 1 ≤ p.column := by
  obtain ⟨hs, hfirst, hlast⟩ := h
  rcases le_or_gt first s.start.line with hstart | hstart
  · exact ⟨s.start, start_mem hs, ⟨hstart, hlast⟩, hcolumn⟩
  · exact ⟨⟨first, 1⟩, ⟨Position.le_iff.mpr (Or.inl hstart), lineStart_lt_stop hs hcolumn hfirst⟩,
      ⟨le_rfl, hle⟩, le_rfl⟩

lemma overlaps_iff (hs : ¬s.Empty) (ht : ¬t.Empty) : s.Overlaps t ↔ ∃ p, p ∈ s ∧ p ∈ t := by
  constructor
  · rintro ⟨hst, hts⟩
    exact ⟨max s.start t.start, ⟨le_max_left _ _, max_lt (not_not.mp hs) hts⟩,
      le_max_right _ _, max_lt hst (not_not.mp ht)⟩
  · rintro ⟨p, hs, ht⟩
    exact ⟨lt_of_le_of_lt hs.1 ht.2, lt_of_le_of_lt ht.1 hs.2⟩

lemma covers_iff (ht : ¬t.Empty) : s.Covers t ↔ ∀ p ∈ t, p ∈ s :=
  (Set.Ico_subset_Ico_iff (not_not.mp ht)).symm

/-- A span touches some lines, overlaps a span and covers one just as its positions tell: one of them is
on these lines, one of them is in the other span too, and all those of the other span are among them. -/
theorem told_by_positions (s t : Span) :
    (1 ≤ s.start.column → ∀ first last, first ≤ last →
      (s.TouchesLines first last ↔ ∃ p ∈ s, (first ≤ p.line ∧ p.line ≤ last) ∧ 1 ≤ p.column)) ∧
    (¬s.Empty → ¬t.Empty → (s.Overlaps t ↔ ∃ p, p ∈ s ∧ p ∈ t)) ∧
    (¬t.Empty → (s.Covers t ↔ ∀ p ∈ t, p ∈ s)) := by
  refine ⟨fun hcolumn first last hle => ⟨fun h => ?_, ?_⟩, overlaps_iff, covers_iff⟩
  · exact exists_mem_of_touchesLines h hle hcolumn
  · rintro ⟨p, hp, hlines⟩
    exact touchesLines_of_mem hp hlines

theorem told_by_positions_lineEnd :
    let s : Span := ⟨⟨1, 4⟩, ⟨3, 1⟩⟩
    let t : Span := ⟨⟨2, 1⟩, ⟨2, 7⟩⟩
    (1 ≤ s.start.column ∧ 3 ≤ 4 ∧ ¬s.Empty ∧ ¬t.Empty) ∧
    (¬∃ p ∈ s, (3 ≤ p.line ∧ p.line ≤ 4) ∧ 1 ≤ p.column) ∧ (∃ p, p ∈ s ∧ p ∈ t) ∧ ∀ p ∈ t, p ∈ s := by
  intro s t
  have hcolumn : 1 ≤ s.start.column := by decide
  have hs : ¬s.Empty := by decide
  have ht : ¬t.Empty := by decide
  obtain ⟨htouches, hoverlaps, hcovers⟩ := told_by_positions s t
  refine ⟨⟨hcolumn, by decide, hs, ht⟩, fun h => ?_, (hoverlaps hs ht).mp (by decide),
    (hcovers ht).mp (by decide)⟩
  exact absurd ((htouches hcolumn 3 4 (by decide)).mpr h) (by decide)

end TrustRegions.Span
