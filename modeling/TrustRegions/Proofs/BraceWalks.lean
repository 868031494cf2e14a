import Mathlib.Tactic.Lemma
import Mathlib.Tactic.SplitIfs
import TrustRegions.Scope.Declaration

/-! One step of the walk along a declaration, and how far a walk can get. -/

namespace TrustRegions

namespace BraceWalk

def past (w : BraceWalk) (offset : Nat) (c : UInt8) : BraceWalk :=
  { w.see c with codeEnd := offset + 1 }

inductive Outcome (w : BraceWalk) (offset : Nat) (c : UInt8) : Except Nat BraceWalk → Prop
  | openParen : c = byte '(' ∨ c = byte '[' →
      Outcome w offset c (.ok { w.past offset c with parens := w.parens + 1 })
  | closeParen : c = byte ')' ∨ c = byte ']' → 0 < w.parens →
      Outcome w offset c (.ok { w.past offset c with parens := w.parens - 1 })
  | passParen : c = byte ')' ∨ c = byte ']' → w.parens = 0 → 0 < w.braces →
      Outcome w offset c (.ok (w.past offset c))
  | beforeParen : c = byte ')' ∨ c = byte ']' → w.parens = 0 → w.braces = 0 →
      Outcome w offset c (.error w.codeEnd)
  | inParens : ¬(c = byte '(' ∨ c = byte '[') → ¬(c = byte ')' ∨ c = byte ']') → 0 < w.parens →
      Outcome w offset c (.ok (w.past offset c))
  | openBrace : c = openBrace → w.parens = 0 →
      Outcome w offset c (.ok { w.past offset c with braces := w.braces + 1 })
  | closeBrace : c = closeBrace → w.parens = 0 → 1 < w.braces →
      Outcome w offset c (.ok { w.past offset c with braces := w.braces - 1 })
  | atBrace : c = TrustRegions.closeBrace → w.parens = 0 → w.braces = 1 →
      Outcome w offset c (.error (offset + 1))
  | beforeBrace : c = TrustRegions.closeBrace → w.parens = 0 → w.braces = 0 →
      Outcome w offset c (.error w.codeEnd)
  | atSemicolon : c = byte ';' → w.parens = 0 → w.braces = 0 →
      Outcome w offset c (.error (offset + 1))
  | plain : ¬(c = byte '(' ∨ c = byte '[') → ¬(c = byte ')' ∨ c = byte ']') →
      c ≠ TrustRegions.openBrace → c ≠ TrustRegions.closeBrace → ¬(c = byte ';' ∧ w.braces = 0) →
      w.parens = 0 → Outcome w offset c (.ok (w.past offset c))

lemma outcome_step (w : BraceWalk) (offset : Nat) (c : UInt8) :
    Outcome w offset c (w.step offset c) := by
  rw [step]
  split
  · next h => exact .openParen h
  split
  · next h =>
    split
    · next hp => exact .closeParen h hp
    · next hp =>
      split
      · next hb => exact .beforeParen h (by omega) hb
      · next hb => exact .passParen h (by omega) (by omega)
  split
  · next ho hc hp => exact .inParens ho hc hp
  next ho hc hp =>
  have hp : w.parens = 0 := by omega
  split
  · next h => exact .openBrace h hp
  split
  · next h =>
    split
    · next hb => exact .beforeBrace h hp hb
    · split
      · next hb => exact .atBrace h hp hb
      · exact .closeBrace h hp (by omega)
  next hob hcb =>
  split
  · next h => exact .atSemicolon h.1 hp h.2
  · next h => exact .plain ho hc hob hcb h hp

def next (lang : Language) (w : BraceWalk) (offset : Nat) (b : UInt8 × Layer)
    (rest : List (UInt8 × Layer)) : Except Nat BraceWalk :=
  match b.2 with
  | .comment => .ok { w with lineHasContent := true }
  | .string => .ok (w.seeString offset)
  | .code =>
    if b.1 = newline then
      if w.endsAtNewline lang rest then .error w.codeEnd else .ok w.newLine
    else if isBlank b.1 then .ok w
    else w.step offset b.1

variable {lang : Language} {line offset stop : Nat} {w w' : BraceWalk} {c : UInt8}
  {b : UInt8 × Layer} {rest l : List (UInt8 × Layer)}

lemma finish_cons (lang : Language) (line : Nat) (w : BraceWalk) (offset : Nat)
    (b : UInt8 × Layer) (rest : List (UInt8 × Layer)) :
    finish lang line w offset (b :: rest) =
      match w.next lang offset b rest with
      | .error stop => .ok stop
      | .ok w' => finish lang line w' (offset + 1) rest := by
  obtain ⟨c, layer⟩ := b
  cases layer with
  | comment => simp only [finish, next]
  | string => simp only [finish, next]
  | code =>
    simp only [finish, next]
    split
    · split <;> rfl
    · split
      · rfl
      · split <;> simp_all

lemma next_of_ne_newline (h : b.1 ≠ newline) (rest rest' : List (UInt8 × Layer)) :
    w.next lang offset b rest = w.next lang offset b rest' := by
  simp only [next, if_neg h]

def carried (f : Nat → Nat) (w : BraceWalk) : BraceWalk := { w with codeEnd := f w.codeEnd }

lemma newLine_carried (f : Nat → Nat) (w : BraceWalk) :
    (w.carried f).newLine = w.newLine.carried f := by
  by_cases h : w.parens = 0 <;> simp [newLine, carried, h]

lemma step_carried {f : Nat → Nat} (hf : f (offset + 1) = f offset + 1) (w : BraceWalk) (c : UInt8) :
    (w.carried f).step (f offset) c = ((w.step offset c).map (carried f)).mapError f := by
  have hparens : (w.carried f).parens = w.parens := rfl
  have hbraces : (w.carried f).braces = w.braces := rfl
  simp only [step, hparens, hbraces, ← hf]
  split_ifs <;> rfl

lemma next_carried {f : Nat → Nat} (hf : f (offset + 1) = f offset + 1) (w : BraceWalk)
    (b : UInt8 × Layer) (rest : List (UInt8 × Layer)) :
    (w.carried f).next lang (f offset) b rest =
      ((w.next lang offset b rest).map (carried f)).mapError f := by
  have hends : (w.carried f).endsAtNewline lang rest = w.endsAtNewline lang rest := rfl
  obtain ⟨c, layer⟩ := b
  cases layer with
  | comment => rfl
  | string =>
    simp only [next, seeString, ← hf]
    rfl
  | code =>
    simp only [next, hends, newLine_carried]
    split
    · split <;> rfl
    split
    · rfl
    · exact step_carried hf w c

lemma next_of_not_blank (h : isBlank c = false) :
    w.next lang offset (c, .code) rest = w.step offset c := by
  have hne : c ≠ newline := by
    rintro rfl
    exact absurd h (by decide)
  simp only [next, hne, if_false, h, Bool.false_eq_true]

lemma codeEnd_step (h : w.step offset c = .ok w') : w'.codeEnd = offset + 1 := by
  have hout := h ▸ outcome_step w offset c
  cases hout <;> rfl

lemma step_error (h : w.step offset c = .error stop) : stop = w.codeEnd ∨ stop = offset + 1 := by
  have hout := h ▸ outcome_step w offset c
  cases hout <;> simp

lemma codeEnd_next (h : w.next lang offset b rest = .ok w') :
    w'.codeEnd = w.codeEnd ∨ w'.codeEnd = offset + 1 := by
  rw [next] at h
  split at h
  · obtain rfl := Except.ok.inj h
    exact Or.inl rfl
  · obtain rfl := Except.ok.inj h
    exact Or.inr rfl
  · split at h
    · split at h
      · cases h
      · obtain rfl := Except.ok.inj h
        rw [newLine]
        split <;> exact Or.inl rfl
    · split at h
      · obtain rfl := Except.ok.inj h
        exact Or.inl rfl
      · exact Or.inr (codeEnd_step h)

lemma next_error (h : w.next lang offset b rest = .error stop) :
    stop = w.codeEnd ∨ stop = offset + 1 := by
  rw [next] at h
  split at h
  · cases h
  · cases h
  · split at h
    · split at h
      · exact Or.inl (Except.error.inj h).symm
      · cases h
    · split at h
      · cases h
      · exact step_error h

lemma finish_bounds (h : finish lang line w offset l = .ok stop) (hw : w.codeEnd ≤ offset) :
    w.codeEnd ≤ stop ∧ stop ≤ offset + l.length := by
  induction l generalizing w offset with
  | nil =>
    rw [finish] at h
    split at h
    · cases h
    · split at h
      · cases h
      · obtain rfl := Except.ok.inj h
        exact ⟨Nat.le_refl _, hw⟩
  | cons b rest ih =>
    rw [finish_cons] at h
    rw [List.length_cons]
    cases hn : w.next lang offset b rest with
    | error e =>
      rw [hn] at h
      obtain rfl := Except.ok.inj h
      rcases next_error hn with rfl | rfl <;> omega
    | ok w' =>
      rw [hn] at h
      rcases codeEnd_next hn with hc | hc <;>
        obtain ⟨h₁, h₂⟩ := ih h (by omega) <;> omega

end BraceWalk

lemma Language.bracedEnd_le {lang : Language} {line offset stop : Nat} {l : List (UInt8 × Layer)}
    (h : lang.bracedEnd line offset l = .ok stop) : stop ≤ offset + l.length :=
  (BraceWalk.finish_bounds h (Nat.le_refl _)).2

lemma Language.lt_bracedEnd {lang : Language} {line offset stop : Nat} {b : UInt8 × Layer}
    {rest : List (UInt8 × Layer)} (hlead : isLeading b = false)
    (hc : ¬(b.1 = closeBrace ∨ b.1 = byte ')' ∨ b.1 = byte ']'))
    (h : lang.bracedEnd line offset (b :: rest) = .ok stop) : offset < stop := by
  have hpast {w : BraceWalk} (hw : w.codeEnd = offset + 1)
      (h : BraceWalk.finish lang line w (offset + 1) rest = .ok stop) : offset < stop := by
    have := (BraceWalk.finish_bounds h (Nat.le_of_eq hw)).1
    omega
  obtain ⟨c, layer⟩ := b
  rw [bracedEnd, BraceWalk.finish_cons] at h
  cases layer with
  | comment => simp [isLeading] at hlead
  | string => exact hpast rfl h
  | code =>
    rw [BraceWalk.next_of_not_blank (by simpa [isLeading] using hlead)] at h
    generalize hw : BraceWalk.step _ offset c = result at h
    have hout := hw ▸ BraceWalk.outcome_step _ offset c
    cases hout with
    | beforeParen h' => exact absurd (Or.inr h') hc
    | beforeBrace h' => exact absurd (Or.inl h') hc
    | atSemicolon => exact Nat.lt_of_succ_le (Nat.le_of_eq (Except.ok.inj h))
    | atBrace h' => exact absurd (Or.inl h') hc
    | _ => exact hpast rfl h

end TrustRegions
