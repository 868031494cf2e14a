import TrustRegions.Proofs.Encoding

/-! What is repaired needs no further repair, since it is one sequence after another, and sequences are
passed on as they are, whatever comes behind them. -/

namespace TrustRegions.Utf8

inductive Sequences : Bytes → Prop
  | nil : Sequences []
  | append {q s : Bytes} : Sequence q → Sequences s → Sequences (q ++ s)

variable {q s : Bytes}

lemma repair_cons_of_following? {c : UInt8} {rest : Bytes} {n : Nat} (h : following? c rest = some n) :
    repair (c :: rest) = c :: (rest.take n ++ repair (rest.drop n)) := by
  rw [repair, h]

lemma Sequence.repair_append (hq : Sequence q) (t : Bytes) : repair (q ++ t) = q ++ repair t := by
  obtain ⟨ha, hbs⟩ := hq
  have hfollowing := (Sequence.intro ha hbs).following? t
  rw [List.cons_append, repair_cons_of_following? hfollowing, List.take_left, List.drop_left,
    List.cons_append]

lemma Sequences.repair_append (h : Sequences s) (t : Bytes) : repair (s ++ t) = s ++ repair t := by
  induction h with
  | nil => rfl
  | append hq _ ih => rw [List.append_assoc, hq.repair_append, ih, List.append_assoc]

lemma Sequences.repair_eq (h : Sequences s) : repair s = s := by
  have happend := h.repair_append []
  rwa [List.append_nil, repair, List.append_nil] at happend

lemma sequence_replacement : Sequence replacement := by
  rw [replacement_eq]
  exact sequence_utf8EncodeChar _

lemma sequences_repair (s : Bytes) : Sequences (repair s) := by
  fun_induction repair s with
  | case1 => exact .nil
  | case2 c rest n hn ih =>
    have hq := (exists_sequence hn).1
    exact .append hq ih
  | case3 c rest _ ih => exact .append sequence_replacement ih

lemma Strict.sequences (h : Strict s) : Sequences s := by
  obtain ⟨text, rfl⟩ := h
  induction text with
  | nil => exact .nil
  | cons c text ih =>
    rw [List.flatMap_cons]
    exact .append (sequence_utf8EncodeChar c) ih

/-- To repair twice is to repair once. UTF-8 is left as it is, also in front of other bytes, whose repair it
has no part in. -/
theorem repair_idempotent (s : Bytes) :
    repair (repair s) = repair s ∧
    (Strict s → repair s = s ∧ ∀ t, repair (s ++ t) = s ++ repair t) := by
  refine ⟨(sequences_repair s).repair_eq, fun h => ⟨h.sequences.repair_eq, fun t => ?_⟩⟩
  exact h.sequences.repair_append t

theorem repair_idempotent_brokenOff :
    Strict [0xE2, 0x82, 0xAC] ∧
    repair ([0xE2, 0x82, 0xAC] ++ [0xE2, 0x82, 0x41]) =
      [0xE2, 0x82, 0xAC] ++ (replacement ++ replacement ++ [0x41]) := by
  have hstrict : Strict [0xE2, 0x82, 0xAC] := ⟨['\u20AC'], by decide⟩
  refine ⟨hstrict, ?_⟩
  exact (((repair_idempotent _).2 hstrict).2 _).trans (by decide +kernel)

end TrustRegions.Utf8
