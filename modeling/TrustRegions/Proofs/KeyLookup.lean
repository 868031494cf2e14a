import Mathlib.Data.List.Sort
import TrustRegions.KeyedMap

/-! A finite map is what it gives for each key, and the map of a list of entries gives for a key the
last value that the list has for it. -/

namespace TrustRegions.KeyedMap

variable {β : Type} {m n : KeyedMap β} {k : Bytes} {v : β}

lemma find?_of_mem {es : List (Bytes × β)} (h : es.Pairwise fun a b => a.1 < b.1) {e : Bytes × β}
    (he : e ∈ es) : es.find? (fun x => x.1 == e.1) = some e := by
  induction es with
  | nil => simp at he
  | cons x es ih =>
    obtain ⟨hx, hes⟩ := List.pairwise_cons.mp h
    rcases List.mem_cons.mp he with rfl | he
    · simp
    · have hne : x.1 ≠ e.1 := fun heq => List.lt_irrefl e.1 (heq ▸ hx e he)
      rw [List.find?_cons_of_neg (by simpa using hne), ih hes he]

lemma mem_entries_iff : (k, v) ∈ m.entries ↔ m.get? k = some v := by
  rw [get?, Option.map_eq_some_iff]
  constructor
  · intro h
    exact ⟨_, find?_of_mem m.ascending h, rfl⟩
  · rintro ⟨e, he, rfl⟩
    have hkey : e.1 = k := by simpa using List.find?_some he
    exact hkey ▸ List.mem_of_find?_eq_some he

lemma eq_of_get? (h : ∀ k, m.get? k = n.get? k) : m = n := by
  have hanti : Std.Antisymm fun a b : Bytes × β => a.1 < b.1 :=
    ⟨fun a b hab hba => absurd hba (List.lt_asymm hab)⟩
  have hirrefl : Std.Irrefl fun a b : Bytes × β => a.1 < b.1 := ⟨fun a => List.lt_irrefl a.1⟩
  refine KeyedMap.ext (m.ascending.eq_of_mem_iff n.ascending fun e => ?_)
  rw [← Prod.mk.eta (p := e), mem_entries_iff, mem_entries_iff, h]

lemma get?_ofList (es : List (Bytes × β)) (k : Bytes) :
    (ofList es).get? k = es.reverse.lookup k := by
  suffices h : ∀ m : KeyedMap β, (es.foldl (fun m e => m.insert e.1 e.2) m).get? k =
      (es.reverse.lookup k).or (m.get? k) by
    rw [ofList, h, get?_empty, Option.or_none]
  induction es with
  | nil => exact fun m => rfl
  | cons e es ih =>
    intro m
    obtain ⟨j, v⟩ := e
    rw [List.foldl_cons, ih, get?_insert, List.reverse_cons, List.lookup_append, Option.or_assoc]
    by_cases hk : j = k
    · simp [hk]
    · simp [hk, List.lookup_cons, beq_false_of_ne (Ne.symm hk)]

end TrustRegions.KeyedMap
