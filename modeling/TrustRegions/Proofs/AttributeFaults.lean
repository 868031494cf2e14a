import TrustRegions.Proofs.AttributeReading
import TrustRegions.Proofs.KeyLookup

/-! Where a text states no attributes: each reader halts within its text, in front of the byte that it
complains of. The texts that are read are those of the grammar, and all others are rejected. -/

namespace TrustRegions

open Bytes

namespace Attribute

def Fault.found? : Fault → Option UInt8
  | notAName c => some c
  | trailingText c _ => some c
  | _ => none

def Halt.Within (e : Halt) (s : Bytes) : Prop :=
  e.rest <:+ s ∧ ∀ c ∈ e.fault.found?, e.rest.head? = some c

lemma Halt.Within.of_suffix {e : Halt} {s t : Bytes} (h : e.Within t) (hs : t <:+ s) : e.Within s :=
  ⟨h.1.trans hs, h.2⟩

variable {key opening s : Bytes} {e : Halt}

lemma within_of_readItem (h : readItem key s = .error e) : e.Within s := by
  rw [readItem.eq_def] at h
  split at h
  · cases h
  · split at h
    · split at h
      · obtain rfl := Except.error.inj h
        exact ⟨List.suffix_rfl, by simp [Fault.found?]⟩
      · cases h
    · cases h

lemma within_of_readStep (h : readStep key opening s = .error e) (hs : s <:+ opening) :
    e.Within opening := by
  have htext := List.dropWhile_suffix isBlank (l := s)
  have hhead := head?_dropWhile isBlank s
  rw [readStep] at h
  split at h
  · obtain rfl := Except.error.inj h
    exact ⟨List.suffix_rfl, by simp [Fault.found?]⟩
  · next c t ht =>
    rw [ht] at htext hhead
    split at h
    · cases h
    · split at h
      · next he =>
        obtain rfl := Except.error.inj h
        exact (within_of_readItem he).of_suffix (htext.trans hs)
      · next v after hread =>
        obtain ⟨w, b, -, -, hct⟩ := exists_itemText hread hhead
        split at h
        · obtain rfl := Except.error.inj h
          exact ⟨List.suffix_rfl, by simp [Fault.found?]⟩
        · next d rest hd =>
          split at h
          · cases h
          · split at h
            · cases h
            · obtain rfl := Except.error.inj h
              refine ⟨?_, by simp [Fault.found?]⟩
              have hafter := hd ▸ List.dropWhile_suffix isBlank (l := after)
              have hct : after <:+ c :: t := ⟨w ++ b, by rw [hct, List.append_assoc]⟩
              exact ((hafter.trans hct).trans htext).trans hs

lemma within_of_readItems (h : readItems key opening s = .error e)
    (hs : s <:+ opening) : e.Within opening := by
  fun_induction readItems key opening s with
  | case1 s e' he =>
    obtain rfl := Except.error.inj h
    exact within_of_readStep he hs
  | case2 => cases h
  | case3 s text rest hstep _ e' he ih =>
    obtain rfl := Except.error.inj h
    obtain ⟨w, -, rfl⟩ := exists_stepText hstep
    exact ih he ((List.suffix_append w rest).trans hs)
  | case4 => cases h

lemma within_of_readValue (h : readValue key s = .error e) : e.Within s := by
  rw [readValue.eq_def] at h
  split at h
  · obtain rfl := Except.error.inj h
    exact ⟨List.suffix_rfl, by simp [Fault.found?]⟩
  · next c s =>
    split at h
    · split at h
      · obtain rfl := Except.error.inj h
        exact ⟨List.suffix_rfl, by simp [Fault.found?]⟩
      · cases h
    · split at h
      · split at h
        · next he =>
          obtain rfl := Except.error.inj h
          exact within_of_readItems he (List.suffix_cons c s)
        · cases h
      · cases h

lemma within_of_readPair (h : readPair s = .error e) : e.Within s := by
  rw [readPair.eq_def] at h
  split at h
  · obtain rfl := Except.error.inj h
    exact ⟨List.suffix_rfl, by simp [Fault.found?]⟩
  · next c s =>
    have hequals := (List.dropWhile_suffix isBlank).trans (List.dropWhile_suffix isNameByte (l := s))
    split at h
    · obtain rfl := Except.error.inj h
      exact ⟨List.suffix_rfl, by simp [Fault.found?]⟩
    · dsimp only at h
      split at h
      · obtain rfl := Except.error.inj h
        exact ⟨List.nil_suffix, by simp [Fault.found?]⟩
      · next d t hd =>
        rw [hd] at hequals
        have hdt : d :: t <:+ c :: s := hequals.trans (List.suffix_cons c s)
        have hvalue : t.dropWhile isBlank <:+ c :: s :=
          (List.dropWhile_suffix isBlank).trans ((List.suffix_cons d t).trans hdt)
        split at h
        · obtain rfl := Except.error.inj h
          exact ⟨hdt, by simp [Fault.found?]⟩
        · split at h
          · next he =>
            obtain rfl := Except.error.inj h
            exact (within_of_readValue he).of_suffix hvalue
          · cases h
          · next v f after hv =>
            obtain ⟨w, -, hw⟩ := exists_valueText hv (head?_dropWhile isBlank t)
            split at h
            · cases h
            · obtain rfl := Except.error.inj h
              refine ⟨List.IsSuffix.trans ⟨w, hw.symm⟩ hvalue, by simp [Fault.found?]⟩

lemma within_of_readPairs (h : readPairs s = .error e) : e.Within s := by
  fun_induction readPairs s with
  | case1 => cases h
  | case2 s c rest hs e' he =>
    obtain rfl := Except.error.inj h
    exact (within_of_readPair he).of_suffix (hs ▸ List.dropWhile_suffix isBlank)
  | case3 s c rest hs p after hp _ e' he ih =>
    obtain rfl := Except.error.inj h
    obtain ⟨w, -, hw, -⟩ := exists_pairText hp
    have hafter : after <:+ c :: rest := ⟨w, hw.symm⟩
    exact (ih he).of_suffix (hafter.trans (hs ▸ List.dropWhile_suffix isBlank))
  | case4 => cases h

end Attribute

open Attribute

namespace Attributes

lemma getElem?_offset {r : Rejection} (h : read s = .error r) :
    ∀ c ∈ r.fault.found?, s[r.offset]? = some c := by
  rw [read] at h
  split at h
  · next e he =>
    obtain rfl := Except.error.inj h
    obtain ⟨⟨t, rfl⟩, hfound⟩ := within_of_readPairs he
    intro c hc
    rw [← hfound c hc]
    simp [List.head?_eq_getElem?, List.getElem?_append_right]
  · cases h

/-- A text states attributes exactly if it is one of the grammar, and then the last value of each key;
any other text is rejected at a place within it, and at the byte complained of if there is one. -/
theorem read_iff_text (s : Bytes) :
    (∀ a, read s = .ok a ↔
      ∃ pairs, Text s pairs ∧ ∀ key, a.get? key = pairs.reverse.lookup key) ∧
    ((∃ r, read s = .error r ∧ r.offset ≤ s.length ∧ ∀ c ∈ r.fault.found?, s[r.offset]? = some c) ↔
      ¬∃ pairs, Text s pairs) := by
  have hok {ps : List (Bytes × Value)} (h : Text s ps) : read s = .ok (.ofList ps) := by
    rw [read, readPairs_of_text h]
  refine ⟨fun a => ⟨fun h => ?_, ?_⟩, ?_, fun h => ?_⟩
  · rw [read] at h
    split at h
    · cases h
    · next ps hps =>
      obtain rfl := Except.ok.inj h
      exact ⟨ps, text_of_readPairs hps, KeyedMap.get?_ofList ps⟩
  · rintro ⟨ps, htext, hget⟩
    rw [hok htext]
    exact congrArg Except.ok (KeyedMap.eq_of_get? fun k => by rw [KeyedMap.get?_ofList, hget])
  · rintro ⟨r, hr, -⟩ ⟨ps, htext⟩
    cases hr.symm.trans (hok htext)
  · cases hr : read s with
    | ok a =>
      rw [read] at hr
      split at hr
      · cases hr
      · next ps hps => exact absurd ⟨ps, text_of_readPairs hps⟩ h
    | error r =>
      refine ⟨r, rfl, ?_, getElem?_offset hr⟩
      rw [read] at hr
      split at hr
      · obtain rfl := Except.error.inj hr
        exact Nat.sub_le _ _
      · cases hr

end Attributes

end TrustRegions
