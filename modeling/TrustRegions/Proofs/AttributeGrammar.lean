import Mathlib.Tactic.Lemma
import TrustRegions.Attribute.Syntax

/-! How attributes are written, as a grammar: which texts stand for which pairs of a key and a value,
whatever it is that reads them. -/

namespace TrustRegions

namespace Bytes

def Blank (b : Bytes) : Prop := ∀ c ∈ b, isBlank c = true

def Trimmed (w : Bytes) : Prop :=
  (∀ c ∈ w.head?, isBlank c = false) ∧ ∀ c ∈ w.getLast?, isBlank c = false

variable {p : UInt8 → Bool} {w s b : Bytes}

lemma takeWhile_append_of_head (hw : ∀ c ∈ w, p c = true) (hs : ∀ c ∈ s.head?, p c = false) :
    (w ++ s).takeWhile p = w := by
  rw [List.takeWhile_append_of_pos hw]
  cases s with
  | nil => simp
  | cons c s => rw [List.takeWhile_cons_of_neg (by simp [hs c rfl]), List.append_nil]

lemma dropWhile_append_of_head (hw : ∀ c ∈ w, p c = true) (hs : ∀ c ∈ s.head?, p c = false) :
    (w ++ s).dropWhile p = s := by
  rw [List.dropWhile_append_of_pos hw]
  cases s with
  | nil => rfl
  | cons c s => rw [List.dropWhile_cons_of_neg (by simp [hs c rfl])]

lemma of_mem_takeWhile (p : UInt8 → Bool) (s : Bytes) : ∀ c ∈ s.takeWhile p, p c = true :=
  List.all_eq_true.mp List.all_takeWhile

lemma head?_dropWhile (p : UInt8 → Bool) (s : Bytes) : ∀ c ∈ (s.dropWhile p).head?, p c = false := by
  intro c hc
  have h := List.head?_dropWhile_not p s
  rwa [Option.mem_def.mp hc] at h

lemma blank_nil : Blank [] := by simp [Blank]

lemma Blank.append (hb : Blank b) (hs : Blank s) : Blank (b ++ s) := fun c hc =>
  (List.mem_append.mp hc).elim (hb c) (hs c)

lemma Blank.head?_append {d : UInt8} (hb : Blank b) (hblank : ∀ c, isBlank c = true → p c = false)
    (hd : p d = false) : ∀ c ∈ (b ++ d :: s).head?, p c = false := by
  intro c hc
  cases b with
  | nil => exact Option.some.inj hc ▸ hd
  | cons e b => exact Option.some.inj hc ▸ hblank e (hb e List.mem_cons_self)

lemma exists_blank (s : Bytes) : ∃ b, Blank b ∧ s = b ++ s.dropWhile isBlank :=
  ⟨s.takeWhile isBlank, of_mem_takeWhile isBlank s, List.takeWhile_append_dropWhile.symm⟩

lemma dropWhile_blank (hs : ∀ c ∈ s.head?, isBlank c = false) : s.dropWhile isBlank = s :=
  dropWhile_append_of_head (by simp) hs (w := [])

lemma trim_append (hw : Trimmed w) (hb : Blank b) : trim (w ++ b) = w := by
  have hrev : (w ++ b).reverse.dropWhile isBlank = w.reverse := by
    rw [List.reverse_append]
    exact dropWhile_append_of_head (fun c hc => hb c (List.mem_reverse.mp hc)) (by simpa using hw.2)
  cases w with
  | nil =>
    have hnil : b.dropWhile isBlank = [] := by
      simpa using dropWhile_append_of_head hb (s := []) (by simp)
    rw [List.nil_append, trim, hnil]
    rfl
  | cons c w =>
    have hdrop : (c :: w ++ b).dropWhile isBlank = c :: w ++ b :=
      dropWhile_blank fun d hd => hw.1 d hd
    rw [trim, hdrop, hrev, List.reverse_reverse]

lemma trim_blank (hs : Blank s) : trim s = [] := by
  simpa using trim_append (w := []) ⟨by simp, by simp⟩ hs

lemma exists_trimmed (hs : ∀ c ∈ s.head?, isBlank c = false) :
    ∃ b, Blank b ∧ s = trim s ++ b ∧ Trimmed (trim s) := by
  have htrim : trim s = (s.reverse.dropWhile isBlank).reverse := by rw [trim, dropWhile_blank hs]
  have hsplit : s = trim s ++ (s.reverse.takeWhile isBlank).reverse := by
    rw [htrim, ← List.reverse_append, List.takeWhile_append_dropWhile, List.reverse_reverse]
  refine ⟨_, fun c hc => ?_, hsplit, fun c hc => ?_, ?_⟩
  · exact of_mem_takeWhile isBlank _ c (List.mem_reverse.mp hc)
  · rw [hsplit, List.head?_append, Option.mem_def.mp hc] at hs
    exact hs c rfl
  · rw [htrim, List.getLast?_reverse]
    exact head?_dropWhile isBlank s.reverse

end Bytes

open Bytes

namespace Attribute

inductive Escapes (q : UInt8) : Bytes → Bytes → Prop where
  | nil : Escapes q [] []
  | escaped (c : UInt8) {w s : Bytes} (h : Escapes q w s) : Escapes q (backslash :: c :: w) (c :: s)
  | plain {c : UInt8} {w s : Bytes} (hb : c ≠ backslash) (hq : c ≠ q) (h : Escapes q w s) :
    Escapes q (c :: w) (c :: s)

inductive QuotedText : Bytes → Bytes → Prop where
  | quote {q : UInt8} {w s : Bytes} (hq : isQuote q = true) (h : Escapes q w s) :
    QuotedText (q :: (w ++ [q])) s

inductive ItemText : Bytes → Bytes → Prop where
  | quoted {w s : Bytes} (h : QuotedText w s) : ItemText w s
  | bare {w : Bytes} (htrimmed : Trimmed w) (hquote : ∀ c ∈ w.head?, isQuote c = false)
    (hw : ∀ c ∈ w, c ≠ byte ',' ∧ c ≠ byte ']') : ItemText w w

inductive ItemsText : Bytes → List Bytes → Prop where
  | close {b : Bytes} (hb : Blank b) : ItemsText (b ++ [byte ']']) []
  | last {b w b' s : Bytes} (hb : Blank b) (hw : ItemText w s) (hne : w ≠ []) (hb' : Blank b') :
    ItemsText (b ++ (w ++ (b' ++ [byte ']']))) [s]
  | item {b w b' s rest : Bytes} {items : List Bytes} (hb : Blank b) (hw : ItemText w s)
    (hb' : Blank b') (h : ItemsText rest items) :
    ItemsText (b ++ (w ++ (b' ++ byte ',' :: rest))) (s :: items)

inductive ValueText : Bytes → Value → Prop where
  | quoted {w s : Bytes} (h : QuotedText w s) : ValueText w (.scalar s)
  | list {w : Bytes} {items : List Bytes} (h : ItemsText w items) :
    ValueText (byte '[' :: w) (.list items)
  | bare {c : UInt8} {w : Bytes} (hquote : isQuote c = false) (hlist : c ≠ byte '[')
    (hw : ∀ d ∈ c :: w, isBlank d = false) : ValueText (c :: w) (.scalar (c :: w))

inductive IsKey : Bytes → Prop where
  | name {c : UInt8} {w : Bytes} (hc : isNameStart c = true) (hw : ∀ d ∈ w, isNameByte d = true) :
    IsKey (c :: w)

inductive PairText : Bytes → Bytes × Value → Prop where
  | pair {key b b' w : Bytes} {v : Value} (hkey : IsKey key) (hb : Blank b) (hb' : Blank b')
    (hv : ValueText w v) : PairText (key ++ (b ++ byte '=' :: (b' ++ w))) (key, v)

inductive PairsText : Bytes → List (Bytes × Value) → Prop where
  | single {w : Bytes} {p : Bytes × Value} (h : PairText w p) : PairsText w [p]
  | cons {w b rest : Bytes} {p : Bytes × Value} {ps : List (Bytes × Value)} (h : PairText w p)
    (hb : Blank b) (hne : b ≠ []) (hrest : PairsText rest ps) : PairsText (w ++ (b ++ rest)) (p :: ps)

end Attribute

inductive Attributes.Text : Bytes → List (Bytes × Attribute.Value) → Prop where
  | blank {b : Bytes} (hb : Blank b) : Attributes.Text b []
  | pairs {b w b' : Bytes} {ps : List (Bytes × Attribute.Value)} (hb : Blank b)
    (h : Attribute.PairsText w ps) (hb' : Blank b') : Attributes.Text (b ++ (w ++ b')) ps

end TrustRegions
