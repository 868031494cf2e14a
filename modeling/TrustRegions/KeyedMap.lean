import TrustRegions.Bytes

/-!
Finite maps from byte strings, kept in the byte order of their keys. Two maps with the same entries
are equal, so an order of insertion never shows.
-/

namespace TrustRegions

structure KeyedMap (β : Type) where
  entries : List (Bytes × β)
  ascending : entries.Pairwise (fun a b => a.1 < b.1)
deriving DecidableEq

namespace KeyedMap

variable {β : Type}

theorem eq_of_not_lt {a b : Bytes} (h : ¬a < b) (h' : ¬b < a) : a = b := by
  rcases Std.lt_trichotomy a b with hlt | heq | hgt
  · exact absurd hlt h
  · exact heq
  · exact absurd hgt h'

def insertEntry (k : Bytes) (v : β) : List (Bytes × β) → List (Bytes × β)
  | [] => [(k, v)]
  | e :: es =>
    if k < e.1 then (k, v) :: e :: es
    else if e.1 < k then e :: insertEntry k v es
    else (k, v) :: es

theorem mem_insertEntry {k : Bytes} {v : β} {x : Bytes × β} {es : List (Bytes × β)}
    (h : x ∈ insertEntry k v es) : x = (k, v) ∨ x ∈ es := by
  induction es with
  | nil => simpa [insertEntry] using h
  | cons e es ih => grind [insertEntry]

theorem pairwise_insertEntry {k : Bytes} {v : β} {es : List (Bytes × β)}
    (h : es.Pairwise (fun a b => a.1 < b.1)) :
    (insertEntry k v es).Pairwise (fun a b => a.1 < b.1) := by
  induction es with
  | nil => simp [insertEntry]
  | cons e es ih =>
    obtain ⟨he, hes⟩ := List.pairwise_cons.mp h
    unfold insertEntry
    split
    · next hk =>
      refine List.pairwise_cons.mpr ⟨fun x hx => ?_, h⟩
      rcases List.mem_cons.mp hx with rfl | hx
      · exact hk
      · exact List.lt_trans hk (he x hx)
    · split
      · next hk =>
        refine List.pairwise_cons.mpr ⟨fun x hx => ?_, ih hes⟩
        rcases mem_insertEntry hx with rfl | hx
        · exact hk
        · exact he x hx
      · next hk hk' =>
        have hke := eq_of_not_lt hk hk'
        exact List.pairwise_cons.mpr ⟨fun x hx => hke ▸ he x hx, hes⟩

def empty : KeyedMap β := ⟨[], .nil⟩

instance : EmptyCollection (KeyedMap β) := ⟨empty⟩

instance : Inhabited (KeyedMap β) := ⟨empty⟩

def insert (m : KeyedMap β) (k : Bytes) (v : β) : KeyedMap β :=
  ⟨insertEntry k v m.entries, pairwise_insertEntry m.ascending⟩

def get? (m : KeyedMap β) (k : Bytes) : Option β :=
  (m.entries.find? fun e => e.1 == k).map (·.2)

def size (m : KeyedMap β) : Nat := m.entries.length

def overlay (base top : KeyedMap β) : KeyedMap β :=
  top.entries.foldl (fun m e => m.insert e.1 e.2) base

def ofList (es : List (Bytes × β)) : KeyedMap β :=
  es.foldl (fun m e => m.insert e.1 e.2) ∅

@[simp] theorem entries_empty : (∅ : KeyedMap β).entries = [] := rfl

@[simp] theorem entries_insert (m : KeyedMap β) (k : Bytes) (v : β) :
    (m.insert k v).entries = insertEntry k v m.entries := rfl

@[simp] theorem get?_empty (k : Bytes) : (∅ : KeyedMap β).get? k = none := rfl

theorem find?_insertEntry (k : Bytes) (v : β) (x : Bytes) (es : List (Bytes × β)) :
    (insertEntry k v es).find? (fun e => e.1 == x) =
      if k = x then some (k, v) else es.find? fun e => e.1 == x := by
  induction es with
  | nil => by_cases h : k = x <;> simp [insertEntry, h]
  | cons e es ih =>
    unfold insertEntry
    split
    · by_cases h : k = x <;> simp [h]
    · split
      · next hk =>
        rw [List.find?_cons, List.find?_cons, ih]
        by_cases h : k = x
        · subst h
          have hne : e.1 ≠ k := fun he => List.lt_irrefl k (he ▸ hk)
          rw [beq_false_of_ne hne]
        · simp [h]
      · next hk hk' =>
        have hke := eq_of_not_lt hk hk'
        by_cases h : k = x
        · simp [h]
        · simp [h, ← hke]

theorem get?_insert (m : KeyedMap β) (k : Bytes) (v : β) (x : Bytes) :
    (m.insert k v).get? x = if k = x then some v else m.get? x := by
  unfold get?
  rw [entries_insert, find?_insertEntry]
  by_cases h : k = x <;> simp [h]

@[ext] theorem ext {m n : KeyedMap β} (h : m.entries = n.entries) : m = n := by
  cases m; cases n; congr

end KeyedMap

end TrustRegions
