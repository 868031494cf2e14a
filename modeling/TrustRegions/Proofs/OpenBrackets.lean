import TrustRegions.Proofs.OffsideRows

/-! Brackets that a text leaves open. The counter of a block forgets closers that close nothing; so it
comes to the most that some end of the text opens beyond what it closes. -/

namespace TrustRegions

variable {b : UInt8 × Layer} {l : List (UInt8 × Layer)} {n : Nat}

def opensBracket (b : UInt8 × Layer) : Bool :=
  b.2 == .code && (b.1 = byte '(' ∨ b.1 = byte '[' ∨ b.1 = openBrace)

def closesBracket (b : UInt8 × Layer) : Bool :=
  b.2 == .code && (b.1 = byte ')' ∨ b.1 = byte ']' ∨ b.1 = closeBrace)

def LeavesOpen (l : List (UInt8 × Layer)) : Prop :=
  ∃ p b q, l = p ++ b :: q ∧ opensBracket b ∧
    ∀ t, t <+: q → t.countP closesBracket ≤ t.countP opensBracket

lemma depthAfter_concat (d : Nat) (l : List (UInt8 × Layer)) (b : UInt8 × Layer) :
    depthAfter d (l ++ [b]) = if opensBracket b then depthAfter d l + 1
      else if closesBracket b then depthAfter d l - 1 else depthAfter d l := by
  rw [depthAfter_append]
  obtain ⟨c, layer⟩ := b
  cases layer with
  | code => simp [depthAfter, bracketDepth, opensBracket, closesBracket]
  | string | comment => simp [depthAfter, opensBracket, closesBracket]

lemma not_closesBracket (h : opensBracket b = true) : closesBracket b = false := by
  simp only [opensBracket, closesBracket, Bool.and_eq_true, decide_eq_true_eq] at h ⊢
  rcases h.2 with h | h | h <;> rw [h] <;> exact Bool.and_eq_false_imp.mpr fun _ => by decide

lemma lt_depthAfter_iff : n < depthAfter 0 l ↔
    ∃ t, t <:+ l ∧ t.countP closesBracket + n < t.countP opensBracket := by
  induction l using List.reverseRecOn generalizing n with
  | nil =>
    constructor
    · intro h
      cases h
    · rintro ⟨t, ht, hlt⟩
      rw [List.suffix_nil.mp ht] at hlt
      cases hlt
  | append_singleton l b ih =>
    have hconcat : (∃ t, t <:+ l ++ [b] ∧ t.countP closesBracket + n < t.countP opensBracket) ↔
        ∃ t, t <:+ l ∧ (t ++ [b]).countP closesBracket + n < (t ++ [b]).countP opensBracket := by
      constructor
      · rintro ⟨t, ht, hlt⟩
        rcases List.suffix_concat_iff.mp ht with rfl | ⟨u, rfl, hu⟩
        · cases hlt
        · exact ⟨u, hu, hlt⟩
      · rintro ⟨t, ht, hlt⟩
        exact ⟨t ++ [b], List.suffix_concat_iff.mpr (Or.inr ⟨t, rfl, ht⟩), hlt⟩
    rw [hconcat, depthAfter_concat]
    simp only [List.countP_append, List.countP_singleton]
    by_cases ho : opensBracket b
    · rw [if_pos ho, if_pos ho, if_neg (by simp [not_closesBracket ho])]
      cases n with
      | zero => exact iff_of_true (Nat.succ_pos _) ⟨[], List.nil_suffix, Nat.one_pos⟩
      | succ n =>
        rw [Nat.add_lt_add_iff_right, ih]
        exact exists_congr fun t => and_congr_right' (by omega)
    by_cases hc : closesBracket b
    · rw [if_neg ho, if_neg ho, if_pos hc, if_pos hc,
        show n < depthAfter 0 l - 1 ↔ n + 1 < depthAfter 0 l by omega, ih]
      exact exists_congr fun t => and_congr_right' (by omega)
    · rw [if_neg ho, if_neg ho, if_neg hc, if_neg hc, ih]
      rfl

lemma LeavesOpen.cons (h : LeavesOpen l) (b : UInt8 × Layer) : LeavesOpen (b :: l) := by
  obtain ⟨p, c, q, rfl, hc⟩ := h
  exact ⟨b :: p, c, q, rfl, hc⟩

lemma leavesOpen_of_suffix {t : List (UInt8 × Layer)} (ht : t <:+ l)
    (hlt : t.countP closesBracket < t.countP opensBracket) : LeavesOpen l := by
  induction l generalizing t with
  | nil =>
    rw [List.suffix_nil.mp ht] at hlt
    cases hlt
  | cons b q ih =>
    by_cases hq : ∃ u, u <:+ q ∧ u.countP closesBracket < u.countP opensBracket
    · obtain ⟨u, hu, hlt⟩ := hq
      exact (ih hu hlt).cons b
    obtain rfl : t = b :: q := (List.suffix_cons_iff.mp ht).resolve_right fun h => hq ⟨t, h, hlt⟩
    have hle {u : List (UInt8 × Layer)} (hu : u <:+ q) :
        u.countP opensBracket ≤ u.countP closesBracket := Nat.le_of_not_lt fun h => hq ⟨u, hu, h⟩
    rw [List.countP_cons, List.countP_cons] at hlt
    have hb : opensBracket b := by
      by_contra hb
      have := hle List.suffix_rfl
      rw [if_neg hb] at hlt
      omega
    refine ⟨[], b, q, rfl, hb, ?_⟩
    rintro p ⟨u, rfl⟩
    have := hle (List.suffix_append p u)
    rw [if_pos hb, if_neg (by simp [not_closesBracket hb]), List.countP_append, List.countP_append] at hlt
    omega

lemma depthAfter_pos_iff : 0 < depthAfter 0 l ↔ LeavesOpen l := by
  rw [lt_depthAfter_iff]
  constructor
  · rintro ⟨t, ht, hlt⟩
    exact leavesOpen_of_suffix ht hlt
  · rintro ⟨p, b, q, rfl, hb, hq⟩
    refine ⟨b :: q, List.suffix_append p _, ?_⟩
    rw [List.countP_cons_of_pos hb, List.countP_cons_of_neg (by simp [not_closesBracket hb])]
    exact Nat.lt_succ_of_le (hq q List.prefix_rfl)

end TrustRegions
