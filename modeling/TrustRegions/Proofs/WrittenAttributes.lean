import TrustRegions.Proofs.SpacedTexts

/-! Attributes in writing: each key with its value or its list of values in double quotes. What is written
so reads as the attributes that it was written for, in whatever order and with whatever blanks. -/

namespace TrustRegions

open Bytes

namespace Attribute

def escaped (s : Bytes) : Bytes :=
  s.flatMap fun c => if c = backslash ∨ c = doubleQuote then [backslash, c] else [c]

def doubleQuoted (s : Bytes) : Bytes := doubleQuote :: (escaped s ++ [doubleQuote])

def writtenItems : List Bytes → Bytes
  | [] => [byte ']']
  | [s] => doubleQuoted s ++ [byte ']']
  | s :: t :: items => doubleQuoted s ++ byte ',' :: writtenItems (t :: items)

def Value.written : Value → Bytes
  | scalar s => doubleQuoted s
  | list items => byte '[' :: writtenItems items

def writtenPair (p : Bytes × Value) : Bytes := p.1 ++ byte '=' :: p.2.written

lemma escapes_escaped (s : Bytes) : Escapes doubleQuote (escaped s) s := by
  induction s with
  | nil => exact .nil
  | cons c s ih =>
    rw [escaped, List.flatMap_cons, ← escaped]
    by_cases hc : c = backslash ∨ c = doubleQuote
    · rw [if_pos hc]
      exact .escaped c ih
    · rw [if_neg hc]
      exact .plain (not_or.mp hc).1 (not_or.mp hc).2 ih

lemma quotedText_doubleQuoted (s : Bytes) : QuotedText (doubleQuoted s) s :=
  .quote (by decide) (escapes_escaped s)

lemma itemsText_writtenItems (items : List Bytes) : ItemsText (writtenItems items) items := by
  induction items with
  | nil => exact .close blank_nil
  | cons s items ih =>
    have hs : ItemText (doubleQuoted s) s := .quoted (quotedText_doubleQuoted s)
    cases items with
    | nil => exact .last blank_nil hs (List.cons_ne_nil _ _) blank_nil
    | cons t items => exact .item blank_nil hs blank_nil ih

lemma Value.valueText_written (v : Value) : ValueText v.written v := by
  cases v with
  | scalar s => exact .quoted (quotedText_doubleQuoted s)
  | list items => exact .list (itemsText_writtenItems items)

lemma pairText_writtenPair {p : Bytes × Value} (h : IsKey p.1) : PairText (writtenPair p) p :=
  .pair h blank_nil blank_nil p.2.valueText_written

end Attribute

namespace KeyedMap

variable {β : Type} {m : KeyedMap β}

lemma insert_comm {j k : Bytes} (h : j ≠ k) (v w : β) (m : KeyedMap β) :
    (m.insert j v).insert k w = (m.insert k w).insert j v := by
  refine eq_of_get? fun x => ?_
  simp only [get?_insert]
  grind

lemma eq_of_key_eq {e e' : Bytes × β} (he : e ∈ m.entries) (he' : e' ∈ m.entries)
    (h : e.1 = e'.1) : e = e' := by
  have hget := mem_entries_iff.mp he
  rw [h] at hget
  exact Prod.ext h (Option.some.inj (hget.symm.trans (mem_entries_iff.mp he')))

lemma ofList_of_perm {es : List (Bytes × β)} (h : es.Perm m.entries) : ofList es = m := by
  have hcomm : ∀ e ∈ es, ∀ e' ∈ es, ∀ m : KeyedMap β,
      (m.insert e.1 e.2).insert e'.1 e'.2 = (m.insert e'.1 e'.2).insert e.1 e.2 := by
    intro e he e' he' m
    by_cases hkey : e.1 = e'.1
    · rw [eq_of_key_eq (h.mem_iff.mp he) (h.mem_iff.mp he') hkey]
    · exact insert_comm hkey e.2 e'.2 m
  rw [ofList, h.foldl_eq' hcomm]
  exact empty_overlay m

end KeyedMap

namespace Attributes

open Attribute

def written (l : List (Bytes × Bytes × Value)) : Bytes :=
  spaced (l.map fun e => (e.1, writtenPair e.2))

/-- What is written pair by pair, in any order and with a blank at least between two pairs, reads as the
attributes that it was written for, whatever bytes their values have. -/
theorem read_written (a : Attributes) (hkeys : ∀ e ∈ a.entries, IsKey e.1)
    (l : List (Bytes × Bytes × Value)) (hpairs : (l.map (·.2)).Perm a.entries) (hapart : Apart l) :
    read (written l) = .ok a := by
  have htexts : List.Forall₂ (fun e ps => Text e.2 ps) (l.map fun e => (e.1, writtenPair e.2))
      (l.map fun e => [e.2]) := by
    rw [List.forall₂_map_left_iff, List.forall₂_map_right_iff, List.forall₂_same]
    intro e he
    have hkey := hkeys e.2 (hpairs.mem_iff.mp (List.mem_map_of_mem he))
    have htext := Text.pairs blank_nil (.single (pairText_writtenPair hkey)) blank_nil
    simpa using htext
  have hflatten : (l.map fun e => [e.2]).flatten = l.map (·.2) := by
    rw [← List.flatMap_def, List.map_eq_flatMap]
  rw [written, read_of_readPairs (readPairs_spaced htexts (hapart.map writtenPair)), hflatten,
    KeyedMap.ofList_of_perm hpairs]

def annotated : List (Bytes × Bytes × Value) :=
  [([], ascii "trust", .scalar (ascii "a\\")),
    (ascii "\n\t", ascii "x-1", .list [[], ascii "],[", ascii "\"'"]),
    (ascii " ", ascii "_", .scalar []),
    (ascii "  ", ascii "owner", .scalar (ascii "b\nc=[\"")),
    (ascii "\r", ascii "intent", .list [])]

theorem read_written_annotated :
    let a : Attributes := .ofList (annotated.map (·.2))
    (∀ e ∈ a.entries, IsKey e.1) ∧ (annotated.map (·.2)).Perm a.entries ∧ Apart annotated ∧
      read (written annotated) = .ok a := by
  intro a
  have hperm : (annotated.map (·.2)).Perm a.entries := by decide +kernel
  have hkeys : ∀ e ∈ a.entries, IsKey e.1 := by
    intro e he
    have hname : ∀ e ∈ annotated.map (·.2), ∃ c w, e.1 = c :: w ∧ isNameStart c = true ∧
        ∀ d ∈ w, isNameByte d = true := by
      simp only [annotated, List.map_cons, List.map_nil, List.forall_mem_cons]
      refine ⟨⟨_, _, rfl, ?_⟩, ⟨_, _, rfl, ?_⟩, ⟨_, _, rfl, ?_⟩, ⟨_, _, rfl, ?_⟩, ⟨_, _, rfl, ?_⟩,
        by simp⟩ <;> decide +kernel
    obtain ⟨c, w, hkey, hc, hw⟩ := hname e (hperm.mem_iff.mpr he)
    exact hkey ▸ .name hc hw
  have hapart : Apart annotated := by
    simp only [Apart, Blank]
    decide +kernel
  exact ⟨hkeys, hperm, hapart, read_written a hkeys annotated hperm hapart⟩

example : written [([], ascii "k", .list [ascii "a", ascii "b\""]), (ascii " ", ascii "l", .scalar [])] =
    ascii "k=[\"a\",\"b\\\"\"] l=\"\"" := by
  decide +kernel

end Attributes

end TrustRegions
