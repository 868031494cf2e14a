import Mathlib.Data.List.Sym
import TrustRegions.Proofs.Span
import TrustRegions.Region.Nesting

/-! The search among the scopes in order finds each pair that crosses once. Of the scopes that are in
no such pair, each lies within those before it or comes after them. -/

namespace TrustRegions

lemma takeWhile_eq_filter {α : Type} {q : α → Bool} {l : List α}
    (h : l.Pairwise fun a b => q b = true → q a = true) : l.takeWhile q = l.filter q := by
  induction l with
  | nil => rfl
  | cons a l ih =>
    obtain ⟨ha, hl⟩ := List.pairwise_cons.mp h
    cases hq : q a with
    | true => rw [List.takeWhile_cons_of_pos hq, List.filter_cons_of_pos hq, ih hl]
    | false =>
      rw [List.takeWhile_cons_of_neg (by simp [hq]), List.filter_cons_of_neg (by simp [hq])]
      refine (List.filter_eq_nil_iff.mpr fun b hb hqb => ?_).symm
      simpa [hq] using ha b hb hqb

namespace Placement

variable {a b c : Placement} {l placements : List Placement}

instance crosses_symm : Std.Symm Crosses := ⟨fun _ _ h => ⟨⟨h.1.2, h.1.1⟩, h.2.2, h.2.1⟩⟩

lemma not_before_trans (hba : ¬b.Before a) (hcb : ¬c.Before b) : ¬c.Before a := by
  grind

lemma not_before_total (a b : Placement) : ¬b.Before a ∨ ¬a.Before b := by
  grind

lemma start_le_of_not_before (h : ¬b.Before a) : a.scope.start ≤ b.scope.start := by
  grind

structure OutsideIn (l : List Placement) : Prop where
  nonempty : ∀ a ∈ l, ¬a.scope.Empty
  sorted : l.Pairwise fun a b => ¬b.Before a

lemma OutsideIn.tail (h : OutsideIn (a :: l)) : OutsideIn l :=
  ⟨fun b hb => h.nonempty b (List.mem_cons_of_mem a hb), (List.pairwise_cons.mp h.sorted).2⟩

/-- What a sort from the outside in can leave, one that need not keep ties in their order included. -/
structure Arranges (l placements : List Placement) : Prop where
  perm : l.Perm (placements.filter fun s => ¬s.scope.Empty)
  sorted : l.Pairwise fun a b => ¬b.Before a

lemma arranges_ordered (placements : List Placement) : Arranges (ordered placements) placements where
  perm := by
    simp only [ordered, decide_not]
    exact List.mergeSort_perm _ _
  sorted := by
    have hb (a b : Placement) : (!decide (b.Before a)) = true ↔ ¬b.Before a := by
      simp only [Bool.not_eq_true', decide_eq_false_iff_not]
    refine (List.pairwise_mergeSort (fun a b c => ?_) (fun a b => ?_) _).imp fun h => (hb _ _).mp h
    · simp only [hb]
      exact not_before_trans
    · simp only [Bool.or_eq_true, hb]
      exact not_before_total a b

lemma Arranges.mem_iff (h : Arranges l placements) : a ∈ l ↔ a ∈ placements ∧ ¬a.scope.Empty := by
  rw [h.perm.mem_iff, List.mem_filter, decide_eq_true_eq]

lemma Arranges.outsideIn (h : Arranges l placements) : OutsideIn l where
  nonempty _ ha := (h.mem_iff.mp ha).2
  sorted := h.sorted

lemma outsideIn_ordered (placements : List Placement) : OutsideIn (ordered placements) :=
  (arranges_ordered placements).outsideIn

lemma crossings_cons (h : OutsideIn (a :: l)) :
    crossings (a :: l) = (l.filter fun b => a.Crosses b).map (a, ·) ++ crossings l := by
  obtain ⟨ha, hl⟩ := List.pairwise_cons.mp h.sorted
  have hstarted : (l.takeWhile fun b => b.scope.start < a.scope.stop) =
      l.filter fun b => b.scope.start < a.scope.stop := by
    refine takeWhile_eq_filter (hl.imp fun hbc hc => ?_)
    simp only [decide_eq_true_eq] at hc ⊢
    exact lt_of_le_of_lt (start_le_of_not_before hbc) hc
  simp only [crossings, hstarted, List.filter_filter]
  congr 2
  refine List.filter_congr fun b hb => ?_
  have hab : a.scope.start < b.scope.stop :=
    lt_of_le_of_lt (start_le_of_not_before (ha b hb)) (not_not.mp (h.tail.nonempty b hb))
  simp only [← Bool.decide_and, ← decide_not, decide_eq_decide, not_or]
  exact ⟨fun hc => ⟨⟨hab, hc.2⟩, hc.1⟩, fun hc => ⟨hc.2, hc.1.2⟩⟩

lemma crossings_eq (h : OutsideIn l) :
    (crossings l).map (fun p => s(p.1, p.2)) = l.sym2.filter (· ∈ Sym2.fromRel crosses_symm) := by
  induction l with
  | nil => rfl
  | cons a l ih =>
    rw [crossings_cons h, List.map_append, ih h.tail, List.sym2, List.filter_append, List.filter_map,
      List.filter_cons_of_neg (by simp), List.map_map]
    rfl

lemma exists_mem_crossings_iff (h : OutsideIn l) (b c : Placement) :
    (∃ p ∈ crossings l, s(p.1, p.2) = s(b, c)) ↔ (b ∈ l ∧ c ∈ l) ∧ b.Crosses c := by
  rw [← List.mem_map, crossings_eq h, List.mem_filter, List.mk_mem_sym2_iff]
  simp only [decide_eq_true_eq, Sym2.fromRel_prop]

lemma Arranges.crosses_of_mem_crossings (h : Arranges l placements) {p : Placement × Placement}
    (hp : p ∈ crossings l) : p.1 ∈ placements ∧ p.2 ∈ placements ∧ p.1.Crosses p.2 := by
  obtain ⟨⟨h₁, h₂⟩, hc⟩ := (exists_mem_crossings_iff h.outsideIn p.1 p.2).mp ⟨p, hp, rfl⟩
  exact ⟨(h.mem_iff.mp h₁).1, (h.mem_iff.mp h₂).1, hc⟩

lemma mem_refused (h : OutsideIn l) :
    a ∈ (crossings l).flatMap (fun p => [p.1, p.2]) ↔ a ∈ l ∧ ∃ b ∈ l, a.Crosses b := by
  have hp := exists_mem_crossings_iff h
  simp only [List.mem_flatMap, List.mem_cons, List.not_mem_nil, or_false]
  constructor
  · rintro ⟨p, hpl, rfl | rfl⟩
    · obtain ⟨⟨h₁, h₂⟩, hc⟩ := (hp p.1 p.2).mp ⟨p, hpl, rfl⟩
      exact ⟨h₁, p.2, h₂, hc⟩
    · obtain ⟨⟨h₂, h₁⟩, hc⟩ := (hp p.2 p.1).mp ⟨p, hpl, Sym2.eq_swap⟩
      exact ⟨h₂, p.1, h₁, hc⟩
  · rintro ⟨ha, b, hb, hc⟩
    obtain ⟨p, hpl, he⟩ := (hp a b).mpr ⟨⟨ha, hb⟩, hc⟩
    refine ⟨p, hpl, ?_⟩
    rcases Sym2.eq_iff.mp he with ⟨h₁, -⟩ | ⟨-, h₂⟩
    · exact Or.inl h₁.symm
    · exact Or.inr h₂.symm

lemma nestable_eq (h : OutsideIn l) :
    nestable l = l.filter fun a => ∀ b ∈ l, ¬a.Crosses b := by
  refine List.filter_congr fun a ha => ?_
  rw [decide_eq_decide, mem_refused h]
  simp [ha]

lemma leads_of_not_crosses (hba : ¬b.Before a) (hb : ¬b.scope.Empty)
    (hc : ¬a.Crosses b) : a.scope.Leads b.scope := by
  simp only [Span.Leads]
  grind

lemma outsideIn_nestable (h : OutsideIn l) : OutsideIn (nestable l) where
  nonempty a ha := h.nonempty a (List.mem_of_mem_filter ha)
  sorted := h.sorted.filter _

lemma leads_nestable (h : OutsideIn l) :
    (nestable l).Pairwise fun a b => a.scope.Leads b.scope := by
  refine (List.Pairwise.imp_of_mem ?_ (outsideIn_nestable h).sorted)
  intro a b ha hb hba
  rw [nestable_eq h, List.mem_filter, decide_eq_true_eq] at ha
  rw [nestable_eq h, List.mem_filter] at hb
  exact leads_of_not_crosses hba (h.nonempty b hb.1) (ha.2 b hb.1)

abbrev Uncrossed (placements : List Placement) (a : Placement) : Prop :=
  ¬a.scope.Empty ∧ ∀ b ∈ placements, ¬b.scope.Empty → ¬a.Crosses b

lemma Arranges.nestable_perm (h : Arranges l placements) :
    (nestable l).Perm (placements.filter (Uncrossed placements ·)) := by
  rw [nestable_eq h.outsideIn]
  refine (h.perm.filter _).trans (List.Perm.of_eq ?_)
  rw [List.filter_filter]
  refine List.filter_congr fun a _ => ?_
  simp only [← Bool.decide_and, decide_eq_decide, h.mem_iff]
  grind

end Placement

end TrustRegions
