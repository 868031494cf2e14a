import TrustRegions.Proofs.DeclarationScopes

/-! Where the brackets of the code are well matched, every declaration has an end. What lies before it is
well matched too, and a bracket pair around the directive goes around the declaration. -/

namespace TrustRegions

def BracketPair (layers : List (UInt8 × Layer)) (i j : Nat) : Prop :=
  i < j ∧ (brackets (layers.extract (i + 1) j)).Nested ∧
    ∃ o c, (o, c) ∈ bracketPairs ∧ layers[i]? = some (o, .code) ∧ layers[j]? = some (c, .code)

namespace BraceWalk

variable {lang : Language} {line k : Nat} {w : BraceWalk} {l : List (UInt8 × Layer)}

lemma exists_finish (h : Closing l) (lang : Language) (line : Nat) (hw : w.Outside) :
    ∃ e, finish lang line w k l = .ok e ∧ (e = w.codeEnd ∨
      ∃ u t, l = u ++ t ∧ (brackets u).Nested ∧ e = k + u.length) := by
  -- A pair is walked through as a whole, so the walk is outside of all brackets at each step it takes.
  induction h generalizing w k with
  | nil =>
    refine ⟨w.codeEnd, ?_, Or.inl rfl⟩
    simp [finish, hw.1, hw.2]
  | @other b l hb _ ih =>
    have hfirst : (brackets [b]).Nested := by
      rw [brackets_cons_of_not hb]
      exact .nil
    rw [finish_cons]
    cases hn : w.next lang k b l with
    | error stop =>
      refine ⟨stop, rfl, (next_error hn).imp_right fun hstop => ?_⟩
      exact ⟨[b], l, rfl, hfirst, hstop⟩
    | ok w' =>
      obtain ⟨e, he, hend⟩ := ih (k := k + 1) ((level_next hb hn).outside_iff.mpr hw)
      refine ⟨e, he, ?_⟩
      rcases hend with rfl | ⟨u, t, rfl, hu, rfl⟩
      · refine (codeEnd_next hn).imp_right fun hcode => ?_
        exact ⟨[b], l, rfl, hfirst, hcode⟩
      · refine Or.inr ⟨b :: u, t, rfl, ?_, ?_⟩
        · rw [brackets_cons_of_not hb]
          exact hu
        · rw [List.length_cons]
          omega
  | @pair o c inner rest hp hi _ ih =>
    have hpair {u : List (UInt8 × Layer)} (hu : (brackets u).Nested) :
        (brackets ((o, .code) :: inner ++ (c, .code) :: u)).Nested := by
      rw [brackets_pair hp]
      exact .pair hp hi.nested hu
    rcases (passes_of_matched lang line hi).finish_pair hp w k rest with
      ⟨-, hend⟩ | ⟨v, hv, hcode, hfinish⟩
    · refine ⟨_, hend, Or.inr ⟨_, rest, ?_, hpair (u := []) .nil, ?_⟩⟩
      · simp
      · rw [List.cons_append, add_length_pair]
        rfl
    · obtain ⟨e, he, hend⟩ := ih (k := k + inner.length + 2) (hv.outside_iff.mpr hw)
      refine ⟨e, hfinish.trans he, Or.inr ?_⟩
      rcases hend with rfl | ⟨u, t, rfl, hu, rfl⟩
      · refine ⟨_, rest, ?_, hpair (u := []) .nil, ?_⟩
        · simp
        · rw [List.cons_append, add_length_pair, hcode]
          rfl
      · refine ⟨_, t, ?_, hpair hu, ?_⟩
        · simp
        · rw [List.cons_append, add_length_pair]
  | @closer o c l hp _ _ =>
    refine ⟨w.codeEnd, ?_, Or.inl rfl⟩
    rw [finish_cons, next_closer hp hw]

end BraceWalk

open BraceWalk

lemma Language.exists_bracedEnd {b : UInt8 × Layer} {rest : List (UInt8 × Layer)}
    (h : Closing (b :: rest)) (lang : Language) (line k : Nat) :
    ∃ u t, b :: rest = u ++ t ∧ (brackets u).Nested ∧
      lang.bracedEnd line k (b :: rest) = .ok (k + u.length) := by
  rw [bracedEnd_eq]
  obtain ⟨e, he, rfl | ⟨u, t, hsplit, hu, rfl⟩⟩ := exists_finish (w := atStart b k) (k := k) h lang line
    ⟨rfl, rfl⟩
  · exact ⟨[], b :: rest, rfl, .nil, he⟩
  · exact ⟨u, t, hsplit, hu, he⟩

lemma BracketPair.bracedEnd_le {lang : Language} {line i j e : Nat} {b : UInt8 × Layer}
    {layers before lead rest : List (UInt8 × Layer)} (h : BracketPair layers i j)
    (hlayers : layers = before ++ lead ++ b :: rest) (hlead : ∀ x ∈ lead, isLeading x = true)
    (hopens : ¬(b.1 = closeBrace ∨ b.1 = byte ')' ∨ b.1 = byte ']'))
    (hi : i < (before ++ lead).length) (hj : before.length ≤ j)
    (he : lang.bracedEnd line (before ++ lead).length (b :: rest) = .ok e) : e ≤ j := by
  obtain ⟨-, hinner, o, c, hp, -, hcloser⟩ := h
  rw [hlayers] at hcloser
  -- No closer is among the comments and blanks before the declaration, nor does a declaration start with one.
  have hbehind : (before ++ lead).length < j := by
    by_contra hle
    rcases (not_lt.mp hle).lt_or_eq with hlt | rfl
    · rw [List.getElem?_append_left hlt, List.getElem?_append_right hj] at hcloser
      have hleads := hlead _ (List.mem_of_getElem? hcloser)
      rcases closer_cases hp with rfl | rfl | rfl <;> exact absurd hleads (by decide)
    · rw [List.getElem?_append_right le_rfl, Nat.sub_self] at hcloser
      obtain rfl := Option.some.inj hcloser
      exact hopens (by rcases closer_cases hp with rfl | rfl | rfl <;> simp)
  generalize hn : (before ++ lead).length = n at *
  obtain ⟨m, rfl⟩ := Nat.exists_eq_add_of_lt hbehind
  rw [List.getElem?_append_right (by omega), hn, Nat.add_assoc, Nat.add_sub_cancel_left] at hcloser
  obtain ⟨hlt, hget⟩ := List.getElem?_eq_some_iff.mp hcloser
  have hsplit : b :: rest = (b :: rest).take (m + 1) ++ (c, .code) :: (b :: rest).drop (m + 1 + 1) := by
    rw [← hget, ← List.drop_eq_getElem_cons hlt, List.take_append_drop]
  have hclosing : Closing ((b :: rest).take (m + 1)) := by
    obtain ⟨k, rfl⟩ := Nat.exists_eq_add_of_lt hi
    have hextract : layers.extract (i + 1) (i + k + 1 + m + 1) =
        (before ++ lead).drop (i + 1) ++ (b :: rest).take (m + 1) := by
      rw [List.extract_eq_take_drop, hlayers, List.drop_append_of_le_length (by omega),
        List.take_append, List.take_of_length_le (by rw [List.length_drop]; omega), List.length_drop]
      congr 2
      omega
    exact (hextract ▸ matched_of_nested hinner).closing.of_append
  rw [bracedEnd_eq, hsplit] at he
  have hle := finish_le_of_closer (w := atStart b n) (k := n) hclosing hp ⟨rfl, rfl⟩ le_rfl he
  rw [List.length_take_of_le hlt.le] at hle
  omega

namespace Source

variable {source : Source} {lang : Language} {g : Segment} {c : Comment} {stop : Nat} {x : Span}
  {d : Directive}

lemma exists_declarationScope?_eq_ok (hl : lang.Legible) (hstyle : lang.style = .brace)
    (hm : Matched (lang.layers source.content 0)) (hg : g ∈ lang.segments source.content 0)
    (h : c.Fills source g stop) :
    ∃ found, source.declarationScope? lang (source.positionAt stop) = .ok found := by
  have hstop := h.stop_le_length hg
  have hbraces : lang.style ≠ .explicit := by simp [hstyle]
  rw [declarationScope?, if_neg hbraces, offsetAt_positionAt hstop]
  dsimp only
  split
  · exact ⟨none, rfl⟩
  next b layer rest hdrop =>
  rw [if_pos hstyle]
  split
  · exact ⟨none, rfl⟩
  · obtain ⟨lead, hlayers, -, -⟩ := exists_lead hl hg h hdrop
    have hclosing : Closing ((b, layer) :: rest) := (hlayers ▸ hm).closing.of_append
    obtain ⟨u, t, -, -, hend⟩ := Language.exists_bracedEnd hclosing lang _ _
    rw [hend]
    exact ⟨_, rfl⟩

lemma balanced_declarationScope (hl : lang.Legible) (hstyle : lang.style = .brace)
    (hm : Matched (lang.layers source.content 0)) (hg : g ∈ lang.segments source.content 0)
    (h : c.Fills source g stop)
    (hx : source.declarationScope? lang (source.positionAt stop) = .ok (some x)) :
    ∃ a e, a ≤ e ∧ e ≤ source.content.length ∧ x = ⟨source.positionAt a, source.positionAt e⟩ ∧
      (brackets ((lang.layers source.content 0).extract a e)).Nested ∧
      ∀ i j, BracketPair (lang.layers source.content 0) i j → i < stop → stop ≤ j → i < a ∧ e ≤ j := by
  have hstop := h.stop_le_length hg
  obtain ⟨b, rest, hdrop, hstart, ⟨-, hopens, e, he, hxe⟩ | ⟨hne, -⟩⟩ := exists_of_declarationScope? hx
  swap
  · exact absurd hstyle hne
  rw [offsetAt_positionAt hstop] at hdrop hstart he
  obtain ⟨lead, hlayers, hlead, hlength⟩ := exists_lead hl hg h hdrop
  have hclosing : Closing (b :: rest) := (hlayers ▸ hm).closing.of_append
  obtain ⟨u, t, hsplit, hu, hend⟩ :=
    Language.exists_bracedEnd hclosing lang x.start.line (source.declarationStart lang stop)
  obtain rfl := Except.ok.inj (hend.symm.trans he)
  have hlow : stop ≤ source.declarationStart lang stop := Nat.le_add_right _ _
  have hhigh : source.declarationStart lang stop + u.length ≤ source.content.length := by
    have htotal := congrArg List.length (hlayers.trans (congrArg (_ ++ ·) hsplit))
    rw [Language.length_layers, Nat.sub_zero, List.length_append, hlength, List.length_append] at htotal
    omega
  have hdeclared : (lang.layers source.content 0).extract (source.declarationStart lang stop)
      (source.declarationStart lang stop + u.length) = u := by
    rw [List.extract_eq_take_drop, hlayers, hsplit, List.drop_left' hlength, Nat.add_sub_cancel_left,
      List.take_left]
  refine ⟨_, _, Nat.le_add_right _ _, hhigh, ?_, hdeclared.symm ▸ hu, fun i j hpair hi hj => ?_⟩
  · rw [← hstart, ← hxe]
  · have hbefore : ((lang.layers source.content 0).take g.start).length ≤ j := by
      have hlt := h.start_lt
      rw [List.length_take]
      omega
    rw [← hlength] at he
    have hle := hpair.bracedEnd_le hlayers hlead hopens (by omega) hbefore he
    omega

end Source

namespace Scan

variable {tag content : Bytes}

/-- In code whose brackets are well matched, a directive always comes to know whether it stands above a
declaration. The brackets that the declaration takes in are well matched, and it lies within each bracket
pair that encloses the directive: behind the opener, and before the closer. -/
theorem declarations_balanced (path : Bytes) (hstyle : (Language.ofTag tag).style = .brace)
    (hnested : (brackets ((Language.ofTag tag).layers content 0)).Nested) :
    let source : Source := ⟨content⟩
    let lang := Language.ofTag tag
    let layers := lang.layers content 0
    ∀ d ∈ (scan path tag content).directives,
      ∃ found, source.declarationScope? lang d.anchor = .ok found ∧ ∀ x, found = some x →
        ∃ a e, a ≤ e ∧ e ≤ content.length ∧ x = ⟨source.positionAt a, source.positionAt e⟩ ∧
          (brackets (layers.extract a e)).Nested ∧
          ∀ i j, BracketPair layers i j → source.positionAt i < d.anchor →
            d.anchor ≤ source.positionAt j → i < a ∧ e ≤ j := by
  intro source lang layers d hd
  have hl : lang.Legible := Language.legible_ofTag tag
  have hm : Matched (lang.layers source.content 0) := matched_of_nested hnested
  obtain ⟨_, g, stop, hg, hfills, hanchor, -⟩ := Source.exists_last_comment hl hd
  obtain ⟨found, hfound⟩ := Source.exists_declarationScope?_eq_ok hl hstyle hm hg hfills
  rw [hanchor]
  refine ⟨found, hfound, fun x hx => ?_⟩
  subst hx
  obtain ⟨a, e, hle, hlength, hxs, hbalanced, hwithin⟩ :=
    Source.balanced_declarationScope hl hstyle hm hg hfills hfound
  refine ⟨a, e, hle, hlength, hxs, hbalanced, fun i j hpair hi hj => ?_⟩
  refine hwithin i j hpair (Source.lt_of_positionAt_lt hi) (not_lt.mp fun hlt => ?_)
  have hstop := hfills.stop_le_length hg
  exact (Source.positionAt_lt hlt hstop).not_ge hj

def callback : Bytes := ascii "f(() => \x7b\n  // @collab owner=core\n  g([1, 2])\n\x7d)\n"

theorem declarations_balanced_callback :
    let source : Source := ⟨callback⟩
    let layers := (Language.ofTag (ascii "javascript")).layers callback 0
    (Language.ofTag (ascii "javascript")).style = .brace ∧ (brackets layers).Nested ∧
    BracketPair layers 8 46 ∧
    ∃ d ∈ (scan [] (ascii "javascript") callback).directives,
      source.positionAt 8 < d.anchor ∧ d.anchor ≤ source.positionAt 46 ∧
      source.declarationScope? (Language.ofTag (ascii "javascript")) d.anchor =
        .ok (some ⟨⟨3, 3⟩, ⟨3, 12⟩⟩) ∧
      ∃ a e, (⟨⟨3, 3⟩, ⟨3, 12⟩⟩ : Span) = ⟨source.positionAt a, source.positionAt e⟩ ∧
        (brackets (layers.extract a e)).Nested ∧ 8 < a ∧ e ≤ 46 := by
  intro source layers
  have hstyle : (Language.ofTag (ascii "javascript")).style = .brace := by decide +kernel
  have hcall : Bytes.Nested (byte '(' :: (byte '[' :: [] ++ byte ']' :: []) ++ byte ')' :: []) :=
    .pair (by decide) (.pair (by decide) .nil .nil) .nil
  have hnested : (brackets layers).Nested := by
    have hbrackets : brackets layers = byte '(' :: (byte '(' :: [] ++ byte ')' ::
        (openBrace :: (byte '(' :: (byte '[' :: [] ++ byte ']' :: []) ++ byte ')' :: []) ++
          closeBrace :: [])) ++ byte ')' :: [] := by
      decide +kernel
    rw [hbrackets]
    exact .pair (by decide) (.pair (by decide) .nil (.pair (by decide) hcall .nil)) .nil
  have hpair : BracketPair layers 8 46 := by
    have hinner : brackets (layers.extract 9 46) =
        byte '(' :: (byte '[' :: [] ++ byte ']' :: []) ++ byte ')' :: [] := by
      decide +kernel
    refine ⟨by decide, ?_, openBrace, closeBrace, by decide, by decide +kernel, by decide +kernel⟩
    rw [hinner]
    exact hcall
  have hfound : ∃ d ∈ (scan [] (ascii "javascript") callback).directives,
      source.positionAt 8 < d.anchor ∧ d.anchor ≤ source.positionAt 46 ∧
      source.declarationScope? (Language.ofTag (ascii "javascript")) d.anchor =
        .ok (some ⟨⟨3, 3⟩, ⟨3, 12⟩⟩) := by
    decide +kernel
  obtain ⟨d, hd, hopen, hclose, hscope⟩ := hfound
  obtain ⟨_, hfound, hbounds⟩ := declarations_balanced [] hstyle hnested d hd
  obtain ⟨a, e, -, -, hx, hbalanced, hwithin⟩ :=
    hbounds _ (Except.ok.inj (hfound.symm.trans hscope))
  exact ⟨hstyle, hnested, hpair, d, hd, hopen, hclose, hscope, a, e, hx, hbalanced,
    hwithin 8 46 hpair hopen hclose⟩

end Scan

end TrustRegions
