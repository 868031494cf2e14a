import TrustRegions.Proofs.WalkDepth

/-! Two walks through code with well matched brackets. The later one ends before the bracket that closes
around its start; where there is none it sees what the earlier one sees. -/

namespace TrustRegions

namespace BraceWalk

variable {lang : Language} {line line' k e e' : Nat} {u v w w' : BraceWalk} {b : UInt8 × Layer}
  {c o : UInt8} {l p rest t : List (UInt8 × Layer)} {fresh : Bool}

section Echo

def Echoes (w u : BraceWalk) : Prop :=
  ∃ p, w = { u with previous := p } ∧ (p = u.previous ∨ p ≠ byte '=')

lemma Echoes.endsAtNewline (h : Echoes w u) (hu : u.endsAtNewline lang rest) :
    w.endsAtNewline lang rest := by
  obtain ⟨p, rfl, rfl | hp⟩ := h
  · exact hu
  · simp only [BraceWalk.endsAtNewline, endsStatement, Bool.and_eq_true, Bool.or_eq_true,
      Bool.not_eq_true', Bool.and_eq_false_iff, beq_eq_false_iff_ne] at hu ⊢
    exact ⟨hu.1, hu.2.imp_right fun h => ⟨⟨h.1.1, Or.inr hp⟩, h.2⟩⟩

lemma Echoes.refl (w : BraceWalk) : Echoes w w := ⟨w.previous, rfl, Or.inl rfl⟩

lemma Echoes.next (h : Echoes w u) (lang : Language) (k : Nat) (b : UInt8 × Layer)
    (rest : List (UInt8 × Layer)) :
    (∃ u' w', u.next lang k b rest = .ok u' ∧ w.next lang k b rest = .ok w' ∧ Echoes w' u') ∨
      (∃ stop, u.next lang k b rest = .error stop ∧ w.next lang k b rest = .error stop) ∨
      w.next lang k b rest = .error u.codeEnd := by
  have hends : u.endsAtNewline lang rest → w.endsAtNewline lang rest := h.endsAtNewline
  obtain ⟨p, rfl, hp⟩ := h
  obtain ⟨c, layer⟩ := b
  cases layer with
  | comment => exact Or.inl ⟨_, _, rfl, rfl, p, rfl, hp⟩
  | string => exact Or.inl ⟨_, _, rfl, rfl, .refl _⟩
  | code =>
    simp only [BraceWalk.next]
    split
    · split
      · next hu => exact Or.inr (Or.inr (by rw [if_pos (hends hu)]))
      · split
        · exact Or.inr (Or.inr rfl)
        · refine Or.inl ⟨_, _, rfl, rfl, p, ?_, ?_⟩
          · simp only [newLine]
            split <;> exact rfl
          · rw [newLine]
            split <;> exact hp
    · split
      · exact Or.inl ⟨_, _, rfl, rfl, p, rfl, hp⟩
      · -- What a byte of code does never depends on the byte before the last.
        have hstep : BraceWalk.step { u with previous := p } k c = u.step k c := rfl
        rw [hstep]
        cases u.step k c with
        | error stop => exact Or.inr (Or.inl ⟨stop, rfl, rfl⟩)
        | ok v => exact Or.inl ⟨v, v, rfl, rfl, .refl v⟩

lemma Echoes.finish_le (h : Echoes w u) (hcode : u.codeEnd ≤ k)
    (he : finish lang line u k l = .ok e) (he' : finish lang line' w k l = .ok e') : e' ≤ e := by
  induction l generalizing u w k with
  | nil =>
    obtain ⟨p, rfl, -⟩ := h
    have hend {line : Nat} {v : BraceWalk} {stop : Nat}
        (hv : finish lang line v k [] = .ok stop) : stop = v.codeEnd := by
      rw [finish] at hv
      split at hv
      · cases hv
      · split at hv
        · cases hv
        · exact (Except.ok.inj hv).symm
    exact Nat.le_of_eq ((hend he').trans (hend he).symm)
  | cons b l ih =>
    have hle := (finish_bounds he hcode).1
    rw [finish_cons] at he he'
    rcases h.next lang k b l with ⟨u', w', hu, hw, h'⟩ | ⟨stop, hu, hw⟩ | hw
    · rw [hu] at he
      rw [hw] at he'
      exact ih h' (by rcases codeEnd_next hu with h | h <;> omega) he he'
    · rw [hu] at he
      rw [hw] at he'
      exact Nat.le_of_eq (Except.ok.inj (he'.symm.trans he))
    · rw [hw] at he'
      exact Except.ok.inj he' ▸ hle

end Echo

section Fresh

def Fresh (w : BraceWalk) : Prop := w.lineHasCode = false ∧ w.decorated = false

def freshAfter (fresh : Bool) (b : UInt8 × Layer) : Bool :=
  b == (newline, .code) || fresh && isLeading b

lemma fresh_next (hw : w.Outside) (hf : fresh = true → w.Fresh)
    (hn : w.next lang k b rest = .ok w') (h : freshAfter fresh b = true) : w'.Fresh := by
  obtain ⟨c, layer⟩ := b
  cases layer with
  | comment =>
    obtain rfl := Except.ok.inj hn
    exact hf (by simpa [freshAfter, isLeading] using h)
  | string => simp [freshAfter, isLeading] at h
  | code =>
    simp only [next] at hn
    split at hn
    · split at hn
      · cases hn
      · obtain rfl := Except.ok.inj hn
        rw [newLine, if_pos hw.1]
        exact ⟨rfl, rfl⟩
    · next hne =>
      have h : fresh = true ∧ isBlank c = true := by simpa [freshAfter, hne, isLeading] using h
      rw [if_pos h.2] at hn
      obtain rfl := Except.ok.inj hn
      exact hf h.1

structure Starts (b : UInt8 × Layer) : Prop where
  shows : isLeading b = false
  opens : ¬(b.1 = closeBrace ∨ b.1 = byte ')' ∨ b.1 = byte ']')
  quoted : b.2 = .string → b.1 ≠ byte '@'

lemma step_outside (hw : w.Outside) (hc : ¬(c = closeBrace ∨ c = byte ')' ∨ c = byte ']')) :
    w.step k c =
      if c = byte '(' ∨ c = byte '[' then .ok { w.past k c with parens := w.parens + 1 }
      else if c = openBrace then .ok { w.past k c with braces := w.braces + 1 }
      else if c = byte ';' then .error (k + 1)
      else .ok (w.past k c) := by
  obtain ⟨hparens, hbraces⟩ := hw
  simp only [not_or] at hc
  simp only [step, hparens, hbraces, hc, or_self, if_false, Nat.lt_irrefl, and_true]
  rfl

def atStart (b : UInt8 × Layer) (k : Nat) : BraceWalk where
  decorated := b.1 == byte '@'
  codeEnd := k

lemma next_atStart (hu : u.Outside) (hf : u.Fresh) (hb : Starts b) (lang : Language) (k : Nat)
    (rest : List (UInt8 × Layer)) :
    (∃ u' w', u.next lang k b rest = .ok u' ∧ (atStart b k).next lang k b rest = .ok w' ∧
        Echoes w' u') ∨
      ∃ stop, u.next lang k b rest = .error stop ∧ (atStart b k).next lang k b rest = .error stop := by
  obtain ⟨hcode, hdecorated⟩ := hf
  obtain ⟨c, layer⟩ := b
  cases layer with
  | comment => exact absurd hb.shows (by simp [isLeading])
  | string =>
    have hquoted : (c == byte '@') = false := by simpa using hb.quoted rfl
    refine Or.inl ⟨_, _, rfl, rfl, 0, ?_, Or.inr (by decide)⟩
    simp [seeString, atStart, hquoted, hdecorated, hu.1, hu.2]
  | code =>
    have hblank : isBlank c = false := by simpa [isLeading] using hb.shows
    have hpast : (atStart (c, .code) k).past k c = { u.past k c with previous := 0 } := by
      simp [past, see, atStart, hcode, hu.1, hu.2]
    rw [next_of_not_blank hblank, next_of_not_blank hblank, step_outside hu hb.opens,
      step_outside ⟨rfl, rfl⟩ hb.opens, hpast]
    have hprevious : (0 : UInt8) ≠ byte '=' := by decide
    split
    · exact Or.inl ⟨_, _, rfl, rfl, 0, by simp [hu.1, atStart], Or.inr hprevious⟩
    split
    · exact Or.inl ⟨_, _, rfl, rfl, 0, by simp [hu.2, atStart], Or.inr hprevious⟩
    split
    · exact Or.inr ⟨_, rfl, rfl⟩
    · exact Or.inl ⟨_, _, rfl, rfl, 0, rfl, Or.inr hprevious⟩

lemma bracedEnd_eq (lang : Language) (line k : Nat) (b : UInt8 × Layer)
    (rest : List (UInt8 × Layer)) :
    lang.bracedEnd line k (b :: rest) = finish lang line (atStart b k) k (b :: rest) := rfl

lemma finish_start_le (hu : u.Outside) (hf : u.Fresh) (hcode : u.codeEnd ≤ k) (hb : Starts b)
    (he : finish lang line u k (b :: rest) = .ok e)
    (he' : lang.bracedEnd line' k (b :: rest) = .ok e') : e' ≤ e := by
  rw [bracedEnd_eq, finish_cons] at he'
  rw [finish_cons] at he
  rcases next_atStart hu hf hb lang k rest with ⟨u', w', hu', hw', h⟩ | ⟨stop, hu', hw'⟩
  · rw [hu'] at he
    rw [hw'] at he'
    exact h.finish_le (by rcases codeEnd_next hu' with h | h <;> omega) he he'
  · rw [hu'] at he
    rw [hw'] at he'
    exact Nat.le_of_eq (Except.ok.inj (he'.symm.trans he))

end Fresh

lemma Starts.ne_closer (hb : Starts b) (hp : (o, c) ∈ bracketPairs) : b ≠ (c, .code) := by
  rintro rfl
  exact hb.opens (by rcases closer_cases hp with h | h | h <;> simp [h])

lemma freshAfter_closer (hp : (o, c) ∈ bracketPairs) (fresh : Bool) :
    freshAfter fresh (c, .code) = false := by
  rcases closer_cases hp with rfl | rfl | rfl <;> cases fresh <;> decide

lemma le_of_pair {inner : List (UInt8 × Layer)} (hp : (o, c) ∈ bracketPairs) (hi : Matched inner)
    (he : finish lang line w k ((o, .code) :: inner ++ (c, .code) :: t) = .ok e) :
    k + inner.length + 2 ≤ e := by
  rcases (passes_of_matched lang line hi).finish_pair hp w k t with ⟨-, hend⟩ | ⟨v, -, hv, hfinish⟩
  · exact Nat.le_of_eq (Except.ok.inj (hend.symm.trans he))
  · exact hv ▸ (finish_bounds (hfinish.symm.trans he) (Nat.le_of_eq hv)).1

lemma finish_le_of_pair (hp : (o, c) ∈ bracketPairs) (hi : Matched (p ++ b :: l))
    (he : finish lang line w k ((o, .code) :: (p ++ b :: l) ++ (c, .code) :: t) = .ok e)
    (he' : lang.bracedEnd line' (k + 1 + p.length) (b :: l ++ (c, .code) :: t) = .ok e') :
    e' ≤ e := by
  have hclosing : Closing (b :: l) := hi.closing.of_append
  have hbefore : e' ≤ k + 1 + p.length + (b :: l).length :=
    finish_le_of_closer (w := atStart b (k + 1 + p.length)) hclosing hp ⟨rfl, rfl⟩ (Nat.le_refl _) he'
  have hpast := le_of_pair hp hi he
  rw [List.length_append] at hpast
  omega

lemma nested_or_disjoint (h : Closing l) (hl : l = p ++ b :: rest) (hb : Starts b) (hw : w.Outside)
    (hcode : w.codeEnd ≤ k) (hf : fresh = true → w.Fresh) (hp : p.foldl freshAfter fresh = true)
    (he : finish lang line w k l = .ok e)
    (he' : lang.bracedEnd line' (k + p.length) (b :: rest) = .ok e') :
    e ≤ k + p.length ∨ e' ≤ e := by
  -- The induction follows the earlier walk; whenever it goes on, it is outside of all brackets.
  induction h generalizing p w k fresh with
  | nil => simp at hl
  | @other x l hx _ ih =>
    cases p with
    | nil => exact Or.inr (finish_start_le hw (hf hp) hcode hb (hl ▸ he) he')
    | cons y p =>
      rw [List.cons_append] at hl
      obtain ⟨rfl, rfl⟩ := List.cons.inj hl
      rw [List.length_cons, Nat.add_comm p.length, ← Nat.add_assoc] at *
      rw [finish_cons] at he
      cases hn : w.next lang k x (p ++ b :: rest) with
      | error stop =>
        rw [hn] at he
        obtain rfl := Except.ok.inj he
        rcases next_error hn with h | h <;> omega
      | ok w' =>
        rw [hn] at he
        exact ih rfl ((level_next hx hn).outside_iff.mpr hw)
          (by rcases codeEnd_next hn with h | h <;> omega) (fresh_next hw hf hn) hp he he'
  | @pair o c inner rest' hx hi _ ih =>
    cases p with
    | nil => exact Or.inr (finish_start_le hw (hf hp) hcode hb (hl ▸ he) he')
    | cons y p =>
      rw [List.cons_append, List.cons_append] at hl
      obtain ⟨rfl, htail⟩ := List.cons.inj hl
      rcases List.append_eq_append_iff.mp htail with ⟨q, rfl, hq⟩ | ⟨q, rfl, hq⟩
      · -- The later walk starts behind the closer.
        cases q with
        | nil => exact absurd (List.cons.inj hq).1.symm (hb.ne_closer hx)
        | cons z q =>
          rw [List.cons_append] at hq
          obtain ⟨rfl, rfl⟩ := List.cons.inj hq
          rw [add_length_pair] at he' ⊢
          rcases (passes_of_matched lang line hi).finish_pair hx w k (q ++ b :: rest) with
            ⟨-, hend⟩ | ⟨v, hv, hcode', hfinish⟩
          · obtain rfl := Except.ok.inj (hend.symm.trans he)
            omega
          · rw [List.foldl_cons, List.foldl_append, List.foldl_cons, freshAfter_closer hx] at hp
            exact ih rfl (hv.outside_iff.mpr hw) (Nat.le_of_eq hcode') Bool.noConfusion hp
              (hfinish.symm.trans he) he'
      · -- The later walk starts between the two brackets.
        cases q with
        | nil => exact absurd (List.cons.inj hq).1 (hb.ne_closer hx)
        | cons z q =>
          rw [List.cons_append] at hq
          obtain ⟨rfl, rfl⟩ := List.cons.inj hq
          rw [List.length_cons, Nat.add_comm p.length, ← Nat.add_assoc] at he'
          exact Or.inr (finish_le_of_pair hx hi he he')
  | @closer o c l hx _ _ =>
    rw [finish_cons, next_closer hx hw] at he
    obtain rfl := Except.ok.inj he
    omega

end BraceWalk

end TrustRegions
