import Mathlib.Tactic.Lemma
import TrustRegions.Segment.Lexer

/-! Code with well matched brackets. From some byte on it is matched as well, but for the closers of
what was opened before. -/

namespace TrustRegions

def bracketPairs : List (UInt8 × UInt8) :=
  [(byte '(', byte ')'), (byte '[', byte ']'), (openBrace, closeBrace)]

def isBracket (c : UInt8) : Bool := bracketPairs.any fun p => c == p.1 || c == p.2

def isCodeBracket (b : UInt8 × Layer) : Bool := b.2 == .code && isBracket b.1

def brackets (l : List (UInt8 × Layer)) : Bytes := (l.filter isCodeBracket).map (·.1)

inductive Bytes.Nested : Bytes → Prop
  | nil : Nested []
  | pair {o c : UInt8} {inner rest : Bytes} : (o, c) ∈ bracketPairs → Nested inner → Nested rest →
      Nested (o :: inner ++ c :: rest)

inductive Matched : List (UInt8 × Layer) → Prop
  | nil : Matched []
  | other {b : UInt8 × Layer} {l : List (UInt8 × Layer)} : isCodeBracket b = false → Matched l →
      Matched (b :: l)
  | pair {o c : UInt8} {inner rest : List (UInt8 × Layer)} : (o, c) ∈ bracketPairs →
      Matched inner → Matched rest → Matched ((o, .code) :: inner ++ (c, .code) :: rest)

/-- Text in which each opener of the code has its closer, but closers can stand alone. -/
inductive Closing : List (UInt8 × Layer) → Prop
  | nil : Closing []
  | other {b : UInt8 × Layer} {l : List (UInt8 × Layer)} : isCodeBracket b = false → Closing l →
      Closing (b :: l)
  | pair {o c : UInt8} {inner rest : List (UInt8 × Layer)} : (o, c) ∈ bracketPairs →
      Matched inner → Closing rest → Closing ((o, .code) :: inner ++ (c, .code) :: rest)
  | closer {o c : UInt8} {l : List (UInt8 × Layer)} : (o, c) ∈ bracketPairs → Closing l →
      Closing ((c, .code) :: l)

variable {l t : List (UInt8 × Layer)} {b : UInt8 × Layer} {c o : UInt8} {s r : Bytes}

lemma closer_cases (h : (o, c) ∈ bracketPairs) :
    c = byte ')' ∨ c = byte ']' ∨ c = closeBrace := by
  simp only [bracketPairs, List.mem_cons, Prod.mk.injEq, List.not_mem_nil, or_false] at h
  exact h.imp And.right (Or.imp And.right And.right)

lemma brackets_append (l t : List (UInt8 × Layer)) :
    brackets (l ++ t) = brackets l ++ brackets t := by
  rw [brackets, List.filter_append, List.map_append]
  rfl

lemma exists_of_brackets_eq (h : brackets l = s ++ c :: r) :
    ∃ l₁ l₂, l = l₁ ++ (c, .code) :: l₂ ∧ brackets l₁ = s ∧ brackets l₂ = r := by
  obtain ⟨f₁, f₂, hf, rfl, hr⟩ := List.map_eq_append_iff.mp h
  obtain ⟨l₁, l', rfl, rfl, h'⟩ := List.filter_eq_append_iff.mp hf
  obtain ⟨⟨c', layer⟩, f₃, rfl, rfl, rfl⟩ := List.map_eq_cons_iff.mp hr
  obtain ⟨before, l₂, rfl, hbefore, hc, rfl⟩ := List.filter_eq_cons_iff.mp h'
  obtain rfl : layer = .code := by simpa using (Bool.and_eq_true_iff.mp hc).1
  refine ⟨l₁ ++ before, l₂, by simp, ?_, rfl⟩
  rw [brackets_append, brackets, brackets, List.filter_eq_nil_iff.mpr hbefore, List.map_nil,
    List.append_nil]

lemma Matched.append_of_brackets_nil (hl : brackets l = []) (ht : Matched t) : Matched (l ++ t) := by
  induction l with
  | nil => exact ht
  | cons b l ih =>
    rw [brackets, List.map_eq_nil_iff, List.filter_eq_nil_iff] at hl
    obtain ⟨hb, hl⟩ := List.forall_mem_cons.mp hl
    refine .other (by simpa using hb) (ih ?_)
    rw [brackets, List.map_eq_nil_iff, List.filter_eq_nil_iff]
    exact hl

lemma matched_of_nested (h : (brackets l).Nested) : Matched l := by
  generalize hs : brackets l = s at h
  induction h generalizing l with
  | nil =>
    rw [← l.append_nil]
    exact .append_of_brackets_nil hs .nil
  | @pair o c inner rest hp _ _ ihi ihr =>
    obtain ⟨before, l', rfl, hbefore, hl'⟩ := exists_of_brackets_eq (s := []) hs
    obtain ⟨l₁, l₂, rfl, h₁, h₂⟩ := exists_of_brackets_eq hl'
    exact .append_of_brackets_nil hbefore (.pair hp (ihi h₁) (ihr h₂))

lemma add_length_pair (k : Nat) (o c : UInt8) (inner rest : List (UInt8 × Layer)) :
    k + ((o, Layer.code) :: (inner ++ (c, Layer.code) :: rest)).length =
      k + inner.length + 2 + rest.length := by
  simp only [List.length_append, List.length_cons]
  omega

lemma brackets_cons_of_not (h : isCodeBracket b = false) (l : List (UInt8 × Layer)) :
    brackets (b :: l) = brackets l := by
  rw [brackets, List.filter_cons_of_neg (by simp [h]), brackets]

lemma brackets_pair {o c : UInt8} (h : (o, c) ∈ bracketPairs) (inner rest : List (UInt8 × Layer)) :
    brackets ((o, .code) :: inner ++ (c, .code) :: rest) =
      o :: brackets inner ++ c :: brackets rest := by
  have ho : isCodeBracket (o, .code) = true := by
    simp only [bracketPairs, List.mem_cons, Prod.mk.injEq, List.not_mem_nil, or_false] at h
    rcases h with ⟨rfl, -⟩ | ⟨rfl, -⟩ | ⟨rfl, -⟩ <;> decide
  have hc : isCodeBracket (c, .code) = true := by
    rcases closer_cases h with rfl | rfl | rfl <;> decide
  have hcons {x : UInt8} (hx : isCodeBracket (x, .code) = true) (l : List (UInt8 × Layer)) :
      brackets ((x, .code) :: l) = x :: brackets l := by
    rw [brackets, List.filter_cons_of_pos hx, List.map_cons, brackets]
  rw [brackets_append, hcons ho, hcons hc]

lemma Matched.nested (h : Matched l) : (brackets l).Nested := by
  induction h with
  | nil => exact .nil
  | other hb _ ih =>
    rw [brackets_cons_of_not hb]
    exact ih
  | pair hp _ _ ihi ihr =>
    rw [brackets_pair hp]
    exact .pair hp ihi ihr

lemma Matched.closing_append (h : Matched l) (ht : Closing t) : Closing (l ++ t) := by
  induction h with
  | nil => exact ht
  | other hb _ ih => exact .other hb ih
  | pair hp hi _ _ ih =>
    rw [List.append_assoc]
    exact .pair hp hi ih

lemma Matched.closing (h : Matched l) : Closing l := by
  rw [← l.append_nil]
  exact h.closing_append .nil

lemma Closing.tail (h : Closing l) : Closing l.tail := by
  cases h with
  | nil => exact .nil
  | other _ h => exact h
  | pair hp hi hr => exact hi.closing_append (.closer hp hr)
  | closer _ h => exact h

lemma Closing.of_append (h : Closing (l ++ t)) : Closing t := by
  induction l with
  | nil => exact h
  | cons b l ih => exact ih h.tail

end TrustRegions
