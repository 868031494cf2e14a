import TrustRegions.Proofs.BraceWalks
import TrustRegions.Proofs.Brackets

/-! What a walk does with well matched brackets: with some open around them it goes through, else it can
end with one of them. It never gets past a closer of what it started in. -/

namespace TrustRegions

namespace BraceWalk

def Outside (w : BraceWalk) : Prop := w.parens = 0 ∧ w.braces = 0

def Level (v w : BraceWalk) : Prop := v.parens = w.parens ∧ v.braces = w.braces

variable {lang : Language} {line k e : Nat} {u v w w' : BraceWalk} {b : UInt8 × Layer}
  {c o : UInt8} {l rest t : List (UInt8 × Layer)}

lemma Level.trans (h : Level u v) (h' : Level v w) : Level u w :=
  ⟨h.1.trans h'.1, h.2.trans h'.2⟩

lemma Level.outside_iff (h : Level v w) : v.Outside ↔ w.Outside := by
  rw [Outside, Outside, h.1, h.2]

section Depth

lemma level_step (hc : isBracket c = false) (h : w.step k c = .ok w') : Level w' w := by
  simp only [isBracket, bracketPairs, List.any_cons, List.any_nil, Bool.or_false,
    Bool.or_eq_false_iff, beq_eq_false_iff_ne, ne_eq] at hc
  have hout := h ▸ outcome_step w k c
  cases hout with
  | inParens => exact ⟨rfl, rfl⟩
  | plain => exact ⟨rfl, rfl⟩
  | _ => simp_all

lemma level_next (hb : isCodeBracket b = false) (h : w.next lang k b rest = .ok w') :
    Level w' w := by
  obtain ⟨c, layer⟩ := b
  cases layer with
  | comment =>
    obtain rfl := Except.ok.inj h
    exact ⟨rfl, rfl⟩
  | string =>
    obtain rfl := Except.ok.inj h
    exact ⟨rfl, rfl⟩
  | code =>
    simp only [next] at h
    split at h
    · split at h
      · cases h
      · obtain rfl := Except.ok.inj h
        rw [newLine]
        split <;> exact ⟨rfl, rfl⟩
    · split at h
      · obtain rfl := Except.ok.inj h
        exact ⟨rfl, rfl⟩
      · exact level_step (by simpa [isCodeBracket] using hb) h

lemma outside_of_step_error (hc : isBracket c = false) (h : w.step k c = .error e) :
    w.Outside := by
  have hout := h ▸ outcome_step w k c
  cases hout with
  | beforeParen _ hp hb => exact ⟨hp, hb⟩
  | atBrace hcb =>
    subst hcb
    exact absurd hc (by decide)
  | beforeBrace _ hp hb => exact ⟨hp, hb⟩
  | atSemicolon _ hp hb => exact ⟨hp, hb⟩

lemma outside_of_next_error (hb : isCodeBracket b = false) (h : w.next lang k b rest = .error e) :
    w.Outside := by
  obtain ⟨c, layer⟩ := b
  cases layer with
  | comment => cases h
  | string => cases h
  | code =>
    simp only [next] at h
    split at h
    · split at h
      · next hend =>
        simp only [endsAtNewline, Bool.and_eq_true, beq_iff_eq] at hend
        exact ⟨hend.1.2, hend.1.1⟩
      · cases h
    · split at h
      · cases h
      · exact outside_of_step_error (by simpa [isCodeBracket] using hb) h

lemma step_opener (ho : o = byte '(' ∨ o = byte '[') (w : BraceWalk) (k : Nat) :
    w.step k o = .ok { w.past k o with parens := w.parens + 1 } := by
  rw [step, if_pos ho]
  rfl

lemma step_closer (hc : c = byte ')' ∨ c = byte ']') (hw : 0 < w.parens) (k : Nat) :
    w.step k c = .ok { w.past k c with parens := w.parens - 1 } := by
  rw [step, if_neg (by rcases hc with rfl | rfl <;> decide), if_pos hc, if_pos hw]
  rfl

lemma step_openBrace (w : BraceWalk) (k : Nat) :
    w.step k openBrace = .ok (if 0 < w.parens then w.past k openBrace
      else { w.past k openBrace with braces := w.braces + 1 }) := by
  rw [step, if_neg (by decide), if_neg (by decide)]
  split <;> rfl

lemma step_closeBrace (w : BraceWalk) (k : Nat) :
    w.step k closeBrace =
      if 0 < w.parens then .ok (w.past k closeBrace)
      else if w.braces = 0 then .error w.codeEnd
      else if w.braces = 1 then .error (k + 1)
      else .ok { w.past k closeBrace with braces := w.braces - 1 } := by
  rw [step, if_neg (by decide), if_neg (by decide)]
  split
  · rfl
  · rw [if_neg (by decide), if_pos rfl]
    rfl

lemma next_pair (lang : Language) (hp : (o, c) ∈ bracketPairs) (w : BraceWalk) (k : Nat)
    (rest : List (UInt8 × Layer)) :
    ∃ v, w.next lang k (o, .code) rest = .ok v ∧ ¬v.Outside ∧
      ∀ {u k' rest'}, Level u v → u.next lang k' (c, .code) rest' = .error (k' + 1) ∧ w.Outside ∨
        ∃ u', u.next lang k' (c, .code) rest' = .ok u' ∧ Level u' w ∧ u'.codeEnd = k' + 1 := by
  have hround (ho : o = byte '(' ∨ o = byte '[') (hc : c = byte ')' ∨ c = byte ']') :
      ∃ v, w.step k o = .ok v ∧ ¬v.Outside ∧ ∀ {u k'}, Level u v →
        u.step k' c = .error (k' + 1) ∧ w.Outside ∨
          ∃ u', u.step k' c = .ok u' ∧ Level u' w ∧ u'.codeEnd = k' + 1 := by
    refine ⟨_, step_opener ho w k, fun h => Nat.succ_ne_zero _ h.1, fun {u k'} hu => Or.inr ?_⟩
    have hparens : u.parens = w.parens + 1 := hu.1
    exact ⟨_, step_closer hc (by omega) k', ⟨by simp [hparens], hu.2⟩, rfl⟩
  simp only [bracketPairs, List.mem_cons, Prod.mk.injEq, List.not_mem_nil, or_false] at hp
  have ho : isBlank o = false := by rcases hp with ⟨rfl, -⟩ | ⟨rfl, -⟩ | ⟨rfl, -⟩ <;> decide
  have hc : isBlank c = false := by rcases hp with ⟨-, rfl⟩ | ⟨-, rfl⟩ | ⟨-, rfl⟩ <;> decide
  simp only [next_of_not_blank ho, next_of_not_blank hc]
  rcases hp with ⟨ho, hc⟩ | ⟨ho, hc⟩ | ⟨rfl, rfl⟩
  · obtain ⟨v, hv, hin, hback⟩ := hround (Or.inl ho) (Or.inl hc)
    exact ⟨v, hv, hin, fun hu => hback hu⟩
  · obtain ⟨v, hv, hin, hback⟩ := hround (Or.inr ho) (Or.inr hc)
    exact ⟨v, hv, hin, fun hu => hback hu⟩
  · -- Within parentheses neither brace counts; else the closer may be the one that ends the walk.
    refine ⟨_, step_openBrace w k, ?_, fun {u k' rest'} hu => ?_⟩
    · split
      · next hw => exact fun h => Nat.ne_of_gt hw h.1
      · exact fun h => Nat.succ_ne_zero _ h.2
    · rw [step_closeBrace]
      split at hu
      · next hw =>
        have hparens : 0 < u.parens := hu.1 ▸ hw
        rw [if_pos hparens]
        exact Or.inr ⟨_, rfl, hu, rfl⟩
      · next hw =>
        have hparens : u.parens = w.parens := hu.1
        have hbraces : u.braces = w.braces + 1 := hu.2
        rw [if_neg (by omega), if_neg (by omega)]
        split
        · exact Or.inl ⟨rfl, by omega, by omega⟩
        · exact Or.inr ⟨_, rfl, ⟨hparens, by simp [hbraces]⟩, rfl⟩

end Depth

section Matched

def Passes (lang : Language) (line : Nat) (l : List (UInt8 × Layer)) : Prop :=
  ∀ (w : BraceWalk) (k : Nat) (t : List (UInt8 × Layer)), ¬w.Outside → ∃ v, Level v w ∧
    finish lang line w k (l ++ t) = finish lang line v (k + l.length) t

lemma Passes.finish_pair (hi : Passes lang line l) (hp : (o, c) ∈ bracketPairs) (w : BraceWalk)
    (k : Nat) (t : List (UInt8 × Layer)) :
    w.Outside ∧ finish lang line w k ((o, .code) :: l ++ (c, .code) :: t) = .ok (k + l.length + 2) ∨
      ∃ v, Level v w ∧ v.codeEnd = k + l.length + 2 ∧
        finish lang line w k ((o, .code) :: l ++ (c, .code) :: t) =
          finish lang line v (k + l.length + 2) t := by
  obtain ⟨v, hv, hin, hback⟩ := next_pair lang hp w k (l ++ (c, .code) :: t)
  obtain ⟨u, hu, hfinish⟩ := hi v (k + 1) ((c, .code) :: t) hin
  have hopen : finish lang line w k ((o, .code) :: l ++ (c, .code) :: t) =
      finish lang line u (k + 1 + l.length) ((c, .code) :: t) := by
    rw [List.cons_append, finish_cons, hv]
    exact hfinish
  have hoffset : k + 1 + l.length + 1 = k + l.length + 2 := by omega
  rw [hopen, finish_cons, ← hoffset]
  rcases hback hu with ⟨hend, hw⟩ | ⟨u', hu', hlevel, hcode⟩
  · exact Or.inl ⟨hw, by rw [hend]⟩
  · exact Or.inr ⟨u', hlevel, hcode, by rw [hu']⟩

lemma passes_of_matched (lang : Language) (line : Nat) (h : Matched l) : Passes lang line l := by
  induction h with
  | nil => exact fun w k t _ => ⟨w, ⟨rfl, rfl⟩, rfl⟩
  | @other b l hb _ ih =>
    intro w k t hw
    rw [List.cons_append, finish_cons]
    cases hn : w.next lang k b (l ++ t) with
    | error e => exact absurd (outside_of_next_error hb hn) hw
    | ok w' =>
      have hlevel := level_next hb hn
      obtain ⟨v, hv, hfinish⟩ := ih w' (k + 1) t (mt hlevel.outside_iff.mp hw)
      refine ⟨v, hv.trans hlevel, ?_⟩
      rw [List.length_cons, Nat.add_right_comm, ← Nat.add_assoc] at *
      exact hfinish
  | @pair o c inner rest hp _ _ ihi ihr =>
    intro w k t hw
    rw [List.append_assoc]
    rcases ihi.finish_pair hp w k (rest ++ t) with ⟨hout, -⟩ | ⟨v, hv, -, hfinish⟩
    · exact absurd hout hw
    · obtain ⟨u, hu, hrest⟩ := ihr v (k + inner.length + 2) t (mt hv.outside_iff.mp hw)
      refine ⟨u, hu.trans hv, ?_⟩
      rw [← add_length_pair k o c] at hrest
      exact hfinish.trans hrest

lemma next_closer (hp : (o, c) ∈ bracketPairs) (hw : w.Outside) :
    w.next lang k (c, .code) rest = .error w.codeEnd := by
  obtain ⟨hparens, hbraces⟩ := hw
  have hc := closer_cases hp
  rw [next_of_not_blank (by rcases hc with rfl | rfl | rfl <;> decide)]
  have hout := outcome_step w k c
  generalize w.step k c = result at hout ⊢
  cases hout with
  | beforeParen => rfl
  | beforeBrace => rfl
  | openParen h => rcases hc with rfl | rfl | rfl <;> exact absurd h (by decide)
  | openBrace h => rcases hc with rfl | rfl | rfl <;> exact absurd h (by decide)
  | atSemicolon h => rcases hc with rfl | rfl | rfl <;> exact absurd h (by decide)
  | plain _ hne _ hne' => exact absurd hc (by simpa [or_assoc, hne'] using hne)
  | _ => omega

lemma finish_le_of_closer (h : Closing l) (hp : (o, c) ∈ bracketPairs) (hw : w.Outside)
    (hcode : w.codeEnd ≤ k) (he : finish lang line w k (l ++ (c, .code) :: t) = .ok e) :
    e ≤ k + l.length := by
  induction h generalizing w k with
  | nil =>
    rw [List.nil_append, finish_cons, next_closer hp hw] at he
    obtain rfl := Except.ok.inj he
    exact hcode
  | @other b l hb _ ih =>
    rw [List.cons_append, finish_cons] at he
    rw [List.length_cons]
    cases hn : w.next lang k b (l ++ (c, .code) :: t) with
    | error stop =>
      rw [hn] at he
      obtain rfl := Except.ok.inj he
      rcases next_error hn with h | h <;> omega
    | ok w' =>
      rw [hn] at he
      have hcode' : w'.codeEnd ≤ k + 1 := by rcases codeEnd_next hn with h | h <;> omega
      have := ih ((level_next hb hn).outside_iff.mpr hw) hcode' he
      omega
  | @pair o' c' inner rest hp' hi _ ih =>
    rw [List.append_assoc, List.length_append, List.length_cons, List.length_cons] at *
    rcases (passes_of_matched lang line hi).finish_pair hp' w k (rest ++ (c, .code) :: t) with
      ⟨-, hend⟩ | ⟨v, hv, hcode', hfinish⟩
    · obtain rfl := Except.ok.inj (hend.symm.trans he)
      omega
    · have := ih (hv.outside_iff.mpr hw) (Nat.le_of_eq hcode') (hfinish.symm.trans he)
      omega
  | @closer o' c' l hp' _ _ =>
    rw [List.cons_append, finish_cons, next_closer hp' hw] at he
    obtain rfl := Except.ok.inj he
    omega

end Matched

end BraceWalk

end TrustRegions
