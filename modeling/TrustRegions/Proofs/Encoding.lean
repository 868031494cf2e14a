import Mathlib.Tactic.Lemma
import TrustRegions.Utf8

/-! Repaired byte strings are sequences of a first byte and as many continuation bytes as go with it.
They are UTF-8 exactly if all such sequences of the given bytes are characters: an overlong form, a
surrogate or a number beyond the last character is passed on as it is. -/

namespace TrustRegions.Utf8

def Strict (s : Bytes) : Prop := ∃ text : List Char, s = text.flatMap String.utf8EncodeChar

def Continues (b : UInt8) : Prop := 0x80 ≤ b ∧ b < 0xC0

def Leads (a : UInt8) (n : Nat) : Prop :=
  (a < 0x80 ∧ n = 0) ∨ ((0xC0 ≤ a ∧ a < 0xE0) ∧ n = 1) ∨ ((0xE0 ≤ a ∧ a < 0xF0) ∧ n = 2) ∨
    ((0xF0 ≤ a ∧ a < 0xF8) ∧ n = 3)

inductive Sequence : Bytes → Prop where
  | intro {a : UInt8} {bs : Bytes} (ha : Leads a bs.length) (hbs : ∀ b ∈ bs, Continues b) :
    Sequence (a :: bs)

instance (a : UInt8) (n : Nat) : Decidable (Leads a n) := inferInstanceAs (Decidable (_ ∨ _))

instance (b : UInt8) : Decidable (Continues b) := inferInstanceAs (Decidable (_ ∧ _))

variable {a b : UInt8} {n : Nat} {q q' s t t' bs : Bytes}

lemma forall_byte {p : UInt8 → Prop} (h : ∀ n : Fin 256, p (.ofFin n)) (a : UInt8) : p a :=
  h a.toFin

lemma isContinuation_iff : isContinuation b = true ↔ Continues b :=
  forall_byte (p := fun b => isContinuation b = true ↔ Continues b) (by decide +kernel) b

lemma announced?_eq (a : UInt8) : announced? a =
    if a < 0x80 then some 1 else if 0xC0 ≤ a ∧ a < 0xE0 then some 2
    else if 0xE0 ≤ a ∧ a < 0xF0 then some 3 else if 0xF0 ≤ a ∧ a < 0xF8 then some 4 else none := by
  revert a
  exact forall_byte (by decide +kernel)

lemma map_announced?_eq_some_iff : (announced? a).map (· - 1) = some n ↔ Leads a n := by
  rw [announced?_eq, Leads]
  grind

lemma following?_eq_some_iff : following? a s = some n ↔
    Leads a n ∧ (s.take n).length = n ∧ ∀ b ∈ s.take n, Continues b := by
  rw [following?, Option.filter_eq_some_iff, map_announced?_eq_some_iff]
  simp only [Bool.and_eq_true, beq_iff_eq, List.all_eq_true, isContinuation_iff]

lemma Sequence.following? (h : Sequence (a :: bs)) (t : Bytes) :
    following? a (bs ++ t) = some bs.length := by
  obtain ⟨ha, hbs⟩ := h
  refine following?_eq_some_iff.mpr ⟨ha, ?_, ?_⟩
  · rw [List.take_left]
  · rwa [List.take_left]

lemma exists_sequence (h : following? a s = some n) :
    Sequence (a :: s.take n) ∧ (s.take n).length = n := by
  obtain ⟨ha, hlength, hs⟩ := following?_eq_some_iff.mp h
  exact ⟨.intro (hlength.symm ▸ ha) hs, hlength⟩

lemma not_continues_of_leads (h : Leads a n) : ¬Continues a := by
  rintro ⟨hlo, hhi⟩
  rw [Leads] at h
  grind

lemma Leads.unique {k : Nat} (h : Leads a n) (h' : Leads a k) : n = k := by
  rw [Leads] at h h'
  grind

lemma Sequence.eq_of_append_eq (hq : Sequence q) (hq' : Sequence q') (h : q ++ t = q' ++ t') :
    q = q' ∧ t = t' := by
  obtain ⟨ha, -⟩ := hq
  obtain ⟨ha', -⟩ := hq'
  rw [List.cons_append, List.cons_append, List.cons.injEq] at h
  obtain ⟨rfl, h⟩ := h
  obtain ⟨rfl, rfl⟩ := List.append_inj h (ha.unique ha')
  exact ⟨rfl, rfl⟩

lemma Sequence.infix_of_continues (hq : Sequence q) (hbs : ∀ b ∈ bs, Continues b)
    (h : q <:+: bs ++ t) : q <:+: t := by
  induction bs with
  | nil => exact h
  | cons b bs ih =>
    rcases List.infix_cons_iff.mp h with ⟨u, hu⟩ | h
    · obtain ⟨ha, -⟩ := hq
      obtain rfl := (List.cons.inj hu).1
      exact absurd (hbs _ List.mem_cons_self) (not_continues_of_leads ha)
    · exact ih (fun c hc => hbs c (List.mem_cons_of_mem b hc)) h

lemma Sequence.infix_append_iff (hq : Sequence q) (hq' : Sequence q') :
    q' <:+: q ++ t ↔ q' = q ∨ q' <:+: t := by
  constructor
  · intro h
    obtain ⟨ha, hbs⟩ := hq
    rcases List.infix_cons_iff.mp h with ⟨u, hu⟩ | h
    · exact Or.inl (hq'.eq_of_append_eq (.intro ha hbs) hu).1
    · exact Or.inr (hq'.infix_of_continues hbs h)
  · rintro (rfl | h)
    · exact List.infix_append' [] q' t
    · exact h.trans (List.suffix_append q t).isInfix

lemma toNat_ofNat {k : Nat} (hk : k < 256) : (UInt8.ofNat k).toNat = k := UInt8.toNat_ofNat_of_lt' hk

lemma ofNat_bounds {lo hi : UInt8} {m k : Nat} (hlo : lo.toNat = k) (hhi : hi.toNat = m + k)
    (hm : 0 < m) (v : Nat) : lo ≤ UInt8.ofNat (v % m + k) ∧ UInt8.ofNat (v % m + k) < hi := by
  have hdigits := Nat.mod_lt v hm
  have hbyte := hi.toNat_lt
  rw [UInt8.le_iff_toNat_le, UInt8.lt_iff_toNat_lt, toNat_ofNat (by omega)]
  omega

lemma continues_ofNat (v : Nat) : Continues (.ofNat (v % 64 + 128)) :=
  ofNat_bounds rfl rfl (by omega) v

lemma sequence_utf8EncodeChar (c : Char) : Sequence (String.utf8EncodeChar c) := by
  rw [String.utf8EncodeChar]
  split
  · next h =>
    refine .intro (Or.inl ⟨?_, rfl⟩) (by simp)
    rw [UInt8.lt_iff_toNat_lt, toNat_ofNat (by omega)]
    exact Nat.lt_succ_of_le h
  · split
    · refine .intro (Or.inr (Or.inl ⟨ofNat_bounds rfl rfl (by omega) _, rfl⟩)) ?_
      simp only [List.forall_mem_singleton, continues_ofNat]
    · split
      · refine .intro (Or.inr (Or.inr (Or.inl ⟨ofNat_bounds rfl rfl (by omega) _, rfl⟩))) ?_
        simp only [List.forall_mem_cons, continues_ofNat, List.not_mem_nil, false_implies, implies_true,
          and_self]
      · refine .intro (Or.inr (Or.inr (Or.inr ⟨ofNat_bounds rfl rfl (by omega) _, rfl⟩))) ?_
        simp only [List.forall_mem_cons, continues_ofNat, List.not_mem_nil, false_implies, implies_true,
          and_self]

lemma strict_append_iff (hq : Sequence q) :
    Strict (q ++ t) ↔ (∃ c : Char, q = String.utf8EncodeChar c) ∧ Strict t := by
  constructor
  · rintro ⟨text, h⟩
    cases text with
    | nil =>
      obtain ⟨ha, -⟩ := hq
      simp at h
    | cons c text =>
      obtain ⟨rfl, rfl⟩ := hq.eq_of_append_eq (sequence_utf8EncodeChar c) h
      exact ⟨⟨c, rfl⟩, text, rfl⟩
  · rintro ⟨⟨c, rfl⟩, text, rfl⟩
    exact ⟨c :: text, rfl⟩

lemma infix_of_following?_eq_none (h : following? a s = none) (hq : Sequence q) :
    q <:+: a :: s ↔ q <:+: s := by
  refine ⟨fun hqs => ?_, fun hqs => hqs.trans (List.suffix_cons a s).isInfix⟩
  rcases List.infix_cons_iff.mp hqs with ⟨u, hu⟩ | hqs
  · obtain ⟨ha, hbs⟩ := hq
    rw [List.cons_append, List.cons.injEq] at hu
    obtain ⟨rfl, rfl⟩ := hu
    cases h.symm.trans ((Sequence.intro ha hbs).following? u)
  · exact hqs

lemma replacement_eq : replacement = String.utf8EncodeChar '\uFFFD' := by decide

/-- A repaired byte string has no continuation byte out of place and breaks off in no sequence; it is
UTF-8 exactly if each sequence of the given bytes is a character. -/
theorem strict_repair_iff (s : Bytes) :
    (∃ qs : List Bytes, (∀ q ∈ qs, Sequence q) ∧ repair s = qs.flatten) ∧
    (Strict (repair s) ↔ ∀ q, Sequence q → q <:+: s → ∃ c : Char, q = String.utf8EncodeChar c) := by
  fun_induction repair s with
  | case1 =>
    refine ⟨⟨[], by simp⟩, ⟨fun _ q hq h => ?_, fun _ => ⟨[], rfl⟩⟩⟩
    obtain ⟨ha, -⟩ := hq
    simp at h
  | case2 c rest n hn ih =>
    obtain ⟨hq, -⟩ := exists_sequence hn
    obtain ⟨⟨qs, hqs, hflat⟩, hstrict⟩ := ih
    have hsplit : c :: rest = (c :: rest.take n) ++ rest.drop n := by simp
    refine ⟨⟨(c :: rest.take n) :: qs, List.forall_mem_cons.mpr ⟨hq, hqs⟩, by simp [hflat]⟩, ?_⟩
    rw [← List.cons_append, strict_append_iff hq, hstrict, hsplit]
    constructor
    · rintro ⟨hchar, hrest⟩ q hq' h
      rcases (hq.infix_append_iff hq').mp h with rfl | h
      · exact hchar
      · exact hrest q hq' h
    · intro h
      exact ⟨h _ hq ((hq.infix_append_iff hq).mpr (Or.inl rfl)),
        fun q hq' hinfix => h q hq' ((hq.infix_append_iff hq').mpr (Or.inr hinfix))⟩
  | case3 c rest hc ih =>
    have hreplacement : Sequence replacement := replacement_eq ▸ sequence_utf8EncodeChar _
    obtain ⟨⟨qs, hqs, hflat⟩, hstrict⟩ := ih
    refine ⟨⟨replacement :: qs, List.forall_mem_cons.mpr ⟨hreplacement, hqs⟩, by simp [hflat]⟩, ?_⟩
    rw [strict_append_iff hreplacement, hstrict]
    constructor
    · rintro ⟨-, hrest⟩ q hq h
      exact hrest q hq ((infix_of_following?_eq_none hc hq).mp h)
    · intro h
      exact ⟨⟨_, replacement_eq⟩,
        fun q hq hinfix => h q hq ((infix_of_following?_eq_none hc hq).mpr hinfix)⟩

end TrustRegions.Utf8
