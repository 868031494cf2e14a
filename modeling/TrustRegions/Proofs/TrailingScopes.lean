import TrustRegions.Proofs.DeclarationScopes
import TrustRegions.Proofs.LeadingClosers

/-! The scope of a directive that trails code on its line, and the declarations around it. They are
nested or disjoint but where a declaration ends in the midst of the line, or starts there and goes on. -/

namespace TrustRegions

section Brackets

variable {u t : List (UInt8 × Layer)} {n : Nat}

def ClosesBehind (first second : List (UInt8 × Layer)) (n : Nat) : Prop :=
  ∃ p o inner inner' c rest, first = p ++ (o, .code) :: inner ∧ second = inner' ++ (c, .code) :: rest ∧
    (o, c) ∈ bracketPairs ∧ (brackets (inner ++ inner')).Nested ∧ inner' ≠ [] ∧ inner'.length < n

lemma ClosesBehind.append_left (h : ClosesBehind u t n) (l : List (UInt8 × Layer)) :
    ClosesBehind (l ++ u) t n := by
  obtain ⟨p, o, inner, inner', c, rest, rfl, ht⟩ := h
  exact ⟨l ++ p, o, inner, inner', c, rest, by rw [List.append_assoc], ht⟩

end Brackets

namespace BraceWalk

variable {lang : Language} {line k e : Nat} {w : BraceWalk} {l u t : List (UInt8 × Layer)}

lemma closesBehind_of_pair {o c : UInt8} {inner rest : List (UInt8 × Layer)}
    (hp : (o, c) ∈ bracketPairs) (hi : Matched (u ++ inner)) (hne : inner ≠ [])
    (he : finish lang line w k ((o, .code) :: (u ++ inner) ++ (c, .code) :: rest) = .ok e) :
    ClosesBehind ((o, .code) :: u) (inner ++ (c, .code) :: rest)
      (e - (k + ((o, Layer.code) :: u).length)) := by
  have hpast := le_of_pair hp hi he
  refine ⟨[], o, u, inner, c, rest, rfl, rfl, hp, hi.nested, hne, ?_⟩
  simp only [List.length_append, List.length_cons] at hpast ⊢
  omega

lemma nested_or_closesBehind (h : Closing l) (hl : l = u ++ t)
    (ht : ∀ o c, (o, c) ∈ bracketPairs → t.head? ≠ some (c, .code)) (hw : w.Outside)
    (hcode : w.codeEnd ≤ k) (he : finish lang line w k l = .ok e) (hlt : k + u.length < e) :
    (brackets u).Nested ∨ ClosesBehind u t (e - (k + u.length)) := by
  -- The induction follows the walk, which is outside of all brackets whenever it goes on.
  induction h generalizing u w k with
  | nil =>
    obtain ⟨rfl, -⟩ := List.append_eq_nil_iff.mp hl.symm
    exact Or.inl .nil
  | @other b l hb _ ih =>
    cases u with
    | nil => exact Or.inl .nil
    | cons x u =>
      rw [List.cons_append] at hl
      obtain ⟨rfl, rfl⟩ := List.cons.inj hl
      rw [List.length_cons, Nat.add_comm u.length, ← Nat.add_assoc] at *
      rw [finish_cons] at he
      cases hn : w.next lang k b (u ++ t) with
      | error stop =>
        rw [hn] at he
        obtain rfl := Except.ok.inj he
        rcases next_error hn with h | h <;> omega
      | ok w' =>
        rw [hn] at he
        rw [brackets_cons_of_not hb]
        exact (ih rfl ((level_next hb hn).outside_iff.mpr hw)
          (by rcases codeEnd_next hn with h | h <;> omega) he hlt).imp_right (·.append_left [b])
  | @pair o c inner rest hp hi _ ih =>
    have hpair := (passes_of_matched lang line hi).finish_pair hp w k rest
    cases u with
    | nil => exact Or.inl .nil
    | cons x u =>
      rw [List.cons_append, List.cons_append] at hl
      obtain ⟨rfl, htail⟩ := List.cons.inj hl
      rcases List.append_eq_append_iff.mp htail with ⟨q, rfl, hq⟩ | ⟨q, rfl, hq⟩
      · -- The part that is split off reaches past the closer, or ends right before it.
        cases q with
        | nil =>
          rw [List.nil_append] at hq
          exact absurd (hq ▸ rfl) (ht o c hp)
        | cons z q =>
          rw [List.cons_append] at hq
          obtain ⟨rfl, rfl⟩ := List.cons.inj hq
          rw [add_length_pair] at hlt ⊢
          rcases hpair with ⟨-, hend⟩ | ⟨v, hv, hcode', hfinish⟩
          · obtain rfl := Except.ok.inj (hend.symm.trans he)
            omega
          · rw [← List.cons_append, brackets_pair hp]
            rcases ih rfl (hv.outside_iff.mpr hw) (Nat.le_of_eq hcode') (hfinish.symm.trans he) hlt with
              hnested | hcloses
            · exact Or.inl (.pair hp hi.nested hnested)
            · have hmore := hcloses.append_left ((o, .code) :: inner ++ [(c, .code)])
              rw [List.append_assoc, List.singleton_append] at hmore
              exact Or.inr hmore
      · -- It ends between the two brackets.
        cases q with
        | nil => exact absurd (congrArg List.head? hq) (ht o c hp)
        | cons z q =>
          rw [hq]
          exact Or.inr (closesBehind_of_pair hp hi (List.cons_ne_nil _ _) he)
  | @closer o c l hp _ _ =>
    rw [finish_cons, next_closer hp hw] at he
    obtain rfl := Except.ok.inj he
    omega

end BraceWalk

section TrailingStart

namespace Source

variable {s : Source} {lang : Language} {o k : Nat} {b c : UInt8} {t : Span}

lemma exists_trailingStart (lang : Language) (hc : s.content[o]? = some c)
    (hb : isBlank c = false) (ht : t.start = s.positionAt o) :
    ∃ a ≤ o, (s.trailingScope lang t).start = s.positionAt a ∧
      (s.positionAt a).line = (s.positionAt o).line ∧
      s.firstCodeColumn (s.positionAt o).line ≤ (s.positionAt a).column ∧
      (a < o → ∀ b, s.content[a]? = some b → isLeadingCloser b = false) := by
  obtain ⟨before, lead, code, h⟩ := s.exists_lineSplit o
  have ho := (List.getElem?_eq_some_iff.mp hc).1.le
  have hlength := h.length_eq ho
  have hstart := h.start_trailingScope lang hc hb ht
  generalize chomp (s.lineTail (o + 1)) = rest at hstart
  have hle := leftOut_le lang.blockTerminator lead.length code (c :: rest)
  have hposition := h.positionAt_eq ho (Nat.add_le_add_left hle lead.length)
  refine ⟨_, by omega, hstart, ?_, ?_, fun hlt b hbyte => ?_⟩
  · rw [hposition]
  · rw [hposition, h.firstCodeColumn_eq hc hb]
    exact Nat.succ_le_succ (Nat.le_add_right _ _)
  · obtain ⟨x, more, hdrop, hcloser, -⟩ :=
      leftOut_stops (show leftOut lang.blockTerminator lead.length code (c :: rest) < _ by omega)
    rw [← Nat.add_assoc, ← List.head?_drop, h.drop_eq hc hle, hdrop] at hbyte
    obtain rfl := Option.some.inj hbyte
    exact hcloser

end Source

lemma Comment.Fills.shows_before {source : Source} {lang : Language} {g : Segment} {c : Comment}
    {stop o : Nat} {b : UInt8} (h : c.Fills source g stop) (hl : lang.Legible)
    (hg : g ∈ lang.segments source.content 0) (hc : source.content[o]? = some b)
    (hb : isBlank b = false) (hle : g.stop ≤ o)
    (hline : (source.positionAt o).line ≤ c.span.stop.line) :
    ∃ x ∈ source.lineHead o, isIndent x = false := by
  have ho := (List.getElem?_eq_some_iff.mp hc).1
  have hlt := Language.start_lt_stop hg
  have hsame : (source.positionAt g.stop).line = (source.positionAt o).line := by
    have hstop := source.line_le_of_le h.stop_le
    have hmono := source.line_le_of_le hle
    rw [h.stop_eq] at hline
    omega
  rcases (Language.looks_of_mem hl hg).endsAt (by simp [h.layer]) with hover | hnext | ⟨x, -, hx, hshows⟩
  · rw [List.length_drop, Segment.length] at hover
    omega
  · rw [List.getElem?_drop, Segment.length, Nat.add_sub_cancel' hlt.le] at hnext
    have hne : g.stop ≠ o := by
      rintro heq
      rw [heq, hc] at hnext
      obtain rfl := Option.some.inj hnext
      exact absurd hb (by decide)
    have hmono := source.line_le_of_le (show g.stop + 1 ≤ o by omega)
    rw [Source.positionAt_succ hnext, Position.advance, if_pos rfl] at hmono
    dsimp only at hmono
    omega
  · rw [List.getElem?_drop, Segment.length] at hx
    have hbefore : g.stop = g.start + (g.stop - g.start - 1) + 1 := by omega
    have hposition := Source.positionAt_succ hx
    rw [← hbefore, Position.advance, if_neg (Source.ne_of_not_blank hshows).1] at hposition
    rw [hposition] at hsame
    exact ⟨x, Source.mem_lineHead hx (by omega) ho.le hsame, Source.not_indent_of_not_blank hshows⟩

end TrailingStart

namespace Source

inductive CutsAcross (source : Source) (lang : Language) (x t : Span) : Prop
  /-- The declaration goes on for `n` bytes past the closers that lead the line and ends on it. It has a
  bracket open there that is closed later on, or it has none open and is carried over onto the line. -/
  | runsInto {before carried rest : List (UInt8 × Layer)} {n : Nat} :
      lang.layers source.content 0 = before ++ carried ++ rest →
      x = ⟨source.positionAt before.length, source.positionAt ((before ++ carried).length + n)⟩ →
      t.start = source.positionAt (before ++ carried).length →
      carried ≠ [] → 0 < n → n ≤ rest.length → x.stop < t.stop →
      (brackets carried).Nested ∨ ClosesBehind carried rest n → CutsAcross source lang x t
  /-- The declaration starts behind comments that the line begins with and goes on past it. -/
  | runsOn {before between rest : List (UInt8 × Layer)} :
      lang.layers source.content 0 = before ++ between ++ rest →
      t.start = source.positionAt before.length →
      x.start = source.positionAt (before ++ between).length →
      between ≠ [] → (∀ b ∈ between, isLeading b = true) → x.start < t.stop → t.stop < x.stop →
      CutsAcross source lang x t

variable {source : Source} {lang : Language} {g g' : Segment} {c c' : Comment} {a stop stop' : Nat}
  {x t : Span} {b : UInt8 × Layer} {before rest : List (UInt8 × Layer)} {d e : Directive}

lemma Declares.cutsAcross (h : source.Declares lang before b rest x)
    (hm : Matched (lang.layers source.content 0)) (ht : t.start = source.positionAt a)
    (hcloser : ∀ o c, (o, c) ∈ bracketPairs → (lang.layers source.content 0)[a]? ≠ some (c, .code))
    (hstart : x.start < t.start) (hwithin : t.start < x.stop) (hstop : x.stop < t.stop) :
    source.CutsAcross lang x t := by
  obtain ⟨stop, hend, hxs⟩ := h.ends
  rw [h.start_eq, ht] at hstart
  rw [ht, hxs] at hwithin
  have hlow := lt_of_positionAt_lt hstart
  have hhigh := lt_of_positionAt_lt hwithin
  have hle := Language.bracedEnd_le hend
  obtain ⟨k, rfl⟩ := Nat.exists_eq_add_of_lt hlow
  rw [Nat.add_assoc] at *
  have hlength : ((b :: rest).take (k + 1)).length = k + 1 := by
    rw [List.length_take]
    omega
  have hsplit := List.take_append_drop (k + 1) (b :: rest)
  have hlayers : lang.layers source.content 0 =
      before ++ (b :: rest).take (k + 1) ++ (b :: rest).drop (k + 1) := by
    rw [List.append_assoc, hsplit, h.layers_eq]
  have hbehind : ∀ o c, (o, c) ∈ bracketPairs →
      ((b :: rest).drop (k + 1)).head? ≠ some (c, .code) := by
    intro o c hp
    have hne := hcloser o c hp
    rwa [h.layers_eq, List.getElem?_append_right (Nat.le_add_right _ _), Nat.add_sub_cancel_left,
      ← List.head?_drop] at hne
  have hclosing : Closing (b :: rest) := (h.layers_eq ▸ hm).closing.of_append
  have hcases := BraceWalk.nested_or_closesBehind (w := BraceWalk.atStart b before.length) hclosing
    hsplit.symm hbehind ⟨rfl, rfl⟩ (le_refl before.length) hend (by omega)
  rw [hlength] at hcases
  have hsum : (before ++ (b :: rest).take (k + 1)).length = before.length + (k + 1) := by
    rw [List.length_append, hlength]
  have hreach : before.length + (k + 1) + (stop - (before.length + (k + 1))) = stop := by omega
  refine .runsInto hlayers ?_ ?_ (by simp) (Nat.sub_pos_of_lt hhigh) ?_ hstop hcases
  · rw [hsum, hreach, ← h.start_eq, ← hxs]
  · rw [hsum, ht]
  · rw [List.length_drop]
    omega

lemma start_le_of_trailing (hl : lang.Legible) (hg : g ∈ lang.segments source.content 0)
    (h : c.Fills source g stop) (hc : c.trailing = true) (hg' : g' ∈ lang.segments source.content 0)
    (h' : c'.Fills source g' stop') (hc' : c'.trailing = false)
    (hline : (source.positionAt a).line = (source.positionAt g.start).line)
    (hcolumn : source.firstCodeColumn (source.positionAt g.start).line ≤ (source.positionAt a).column)
    (hbelow : (source.positionAt g'.start).line ≤ c.span.stop.line) : g'.start ≤ a := by
  obtain ⟨s', hs', hshows'⟩ := h'.shows
  by_contra hlt
  rw [not_le] at hlt
  rcases Nat.lt_trichotomy g'.start g.start with hbefore | heq | hafter
  · have hlow := source.line_le_of_le hlt.le
    have hhigh := source.line_le_of_le hbefore.le
    have hsame : (source.positionAt g'.start).line = (source.positionAt g.start).line := by omega
    have hle := column_le_firstCodeColumn hs' hshows' fun y hy => h'.isIndent_before hc' hy
    rw [hsame] at hle
    have hlength' := (List.getElem?_eq_some_iff.mp hs').1
    rcases Position.lt_iff.mp (positionAt_lt hlt hlength'.le) with hl | ⟨-, hl⟩ <;> omega
  · rw [h.trailing_eq, ← heq, ← h'.trailing_eq, hc'] at hc
    cases hc
  · have hle := Language.stop_le_of_start_lt hg hg' hafter
    obtain ⟨y, hy, hne⟩ := h.shows_before hl hg hs' hshows' hle hbelow
    rw [h'.isIndent_before hc' hy] at hne
    cases hne

lemma cutsAcross_of_lead (hl : lang.Legible) (hg : g ∈ lang.segments source.content 0)
    (h : c.Fills source g stop) (hc : c.trailing = true) (hg' : g' ∈ lang.segments source.content 0)
    (h' : c'.Fills source g' stop') (hc' : c'.trailing = false)
    (hx : source.declarationScope? lang c'.span.stop = .ok (some x))
    (hstart : (source.trailingScope lang c.span).start < x.start)
    (hwithin : x.start < (source.trailingScope lang c.span).stop)
    (hstop : (source.trailingScope lang c.span).stop < x.stop) :
    source.CutsAcross lang x (source.trailingScope lang c.span) := by
  obtain ⟨s, hs, hshows⟩ := h.shows
  obtain ⟨a, -, hta, hline, hcolumn, -⟩ := exists_trailingStart lang hs hshows h.start_eq
  rw [h'.stop_eq] at hx
  obtain ⟨b, rest, hdrop, hxstart, -⟩ := exists_of_declarationScope? hx
  rw [offsetAt_positionAt (h'.stop_le_length hg')] at hdrop hxstart
  obtain ⟨lead, hlayers, hlead, hlead'⟩ := exists_lead hl hg' h' hdrop
  have htake : ((lang.layers source.content 0).take g'.start).length = g'.start := by
    have hle := Language.stop_le_length hg'
    have hlt := Language.start_lt_stop hg'
    rw [List.length_take, Language.length_layers]
    omega
  rw [List.length_append, htake] at hlead'
  have hbelow : x.start.line ≤ c.span.stop.line := by
    rcases Position.lt_iff.mp hwithin with hl | hl
    · exact hl.le
    · exact hl.1.le
  have hreach := source.line_le_of_le (show g'.start ≤ source.declarationStart lang stop' by omega)
  rw [← hxstart] at hreach
  have hfirst := start_le_of_trailing hl hg h hc hg' h' hc' hline hcolumn (hreach.trans hbelow)
  rw [hta, hxstart] at hstart
  have hlt := lt_of_positionAt_lt hstart
  obtain ⟨j, rfl⟩ := Nat.exists_eq_add_of_le hfirst
  have hj : (lead.take j).length = j := by
    rw [List.length_take]
    omega
  have hsplit : lang.layers source.content 0 =
      ((lang.layers source.content 0).take g'.start ++ lead.take j) ++ lead.drop j ++ b :: rest := by
    rw [List.append_assoc _ (lead.take j), List.take_append_drop]
    exact hlayers
  refine .runsOn hsplit ?_ ?_ ?_ ?_ hwithin hstop
  · rw [hta, List.length_append, htake, hj]
  · rw [List.append_assoc, List.take_append_drop, List.length_append, htake, hlead', hxstart]
  · rw [Ne, List.drop_eq_nil_iff]
    omega
  · exact fun y hy => hlead y (List.mem_of_mem_drop hy)

lemma trailingScope_nested_or_disjoint (hl : lang.Legible) (hstyle : lang.style = .brace)
    (hm : Matched (lang.layers source.content 0)) (hd : d ∈ (source.directives lang).1)
    (he : e ∈ (source.directives lang).1) (hdt : d.trailing = true) (het : e.trailing = false)
    (hx : source.declarationScope? lang e.anchor = .ok (some x)) :
    let t := source.trailingScope lang d.source
    x.Covers t ∨ t.Covers x ∨ ¬x.Overlaps t ∨ source.CutsAcross lang x t := by
  intro t
  have horderly := (source.of_reading lang).orderly (source.inOrder_comments hl)
  obtain ⟨first, -, c, hc, hs⟩ := horderly.spans d ((mem_directives hl).mp hd).1
  obtain rfl := hs.alone hdt
  obtain ⟨g, hg, stop, h⟩ := fills_of_mem_comments hl hc
  have ht : t = source.trailingScope lang first.span := congrArg (source.trailingScope lang) hs.source_eq
  by_cases hover : x.Overlaps t
  swap
  · exact Or.inr (Or.inr (Or.inl hover))
  obtain ⟨hwithin, hwithin'⟩ := hover
  rcases lt_trichotomy x.start t.start with hlt | heq | hgt
  · rcases le_or_gt t.stop x.stop with hle | hstop
    · exact Or.inl ⟨hlt.le, hle⟩
    · obtain ⟨s, hbyte, hshows⟩ := h.shows
      obtain ⟨before, b, rest, hdeclares⟩ := exists_declares_of_mem hl hstyle he het hx
      obtain ⟨a, hao, hta, -, -, hcloser⟩ :=
        exists_trailingStart lang hbyte hshows h.start_eq
      refine Or.inr (Or.inr (Or.inr (hdeclares.cutsAcross hm (ht ▸ hta) ?_ hlt hwithin' hstop)))
      intro o c hp hget
      rcases hao.lt_or_eq with hbefore | rfl
      · have hleads := hcloser hbefore c (by rw [Language.getElem?_layers, hget]; rfl)
        rcases closer_cases hp with rfl | rfl | rfl <;> exact absurd hleads (by decide)
      · have hlayer := Language.layer_of_mem hg le_rfl (Language.start_lt_stop hg) hget
        rw [h.layer] at hlayer
        cases hlayer
  · rcases le_total t.stop x.stop with hle | hle
    · exact Or.inl ⟨heq.le, hle⟩
    · exact Or.inr (Or.inl ⟨heq.ge, hle⟩)
  · rcases le_or_gt x.stop t.stop with hle | hstop
    · exact Or.inr (Or.inl ⟨hgt.le, hle⟩)
    · obtain ⟨_, -, last, hlast, hs'⟩ := horderly.spans e ((mem_directives hl).mp he).1
      obtain ⟨g', hg', stop', h'⟩ := fills_of_mem_comments hl hlast
      rw [ht] at hgt hwithin hstop ⊢
      exact Or.inr (Or.inr (Or.inr (cutsAcross_of_lead hl hg h (hs.trailing_last ▸ hdt) hg' h'
        (hs'.trailing_last ▸ het) (hs'.anchor_eq ▸ hx) hgt hwithin hstop)))

lemma of_trailing {p : Placement} (hp : p ∈ source.placements lang)
    (ht : p.directive.trailing = true) (hk : p.kind ≠ .block) :
    p.directive ∈ (source.directives lang).1 ∧
      p.scope = source.trailingScope lang p.directive.source := by
  obtain ⟨⟨p, ds⟩, hmem, rfl⟩ := List.mem_map.mp hp
  obtain ⟨d, hd, hplace⟩ := List.mem_filterMap.mp hmem
  rw [place?] at hplace
  cases hf : d.form with
  | blockEnd => simp [hf] at hplace
  | blockBegin =>
    simp only [hf, Option.map_eq_some_iff, Prod.mk.injEq] at hplace
    obtain ⟨f, -, rfl, -⟩ := hplace
    exact absurd rfl hk
  | single | merged =>
    simp only [hf] at hplace
    split at hplace
    · obtain ⟨rfl, -⟩ := Prod.mk.inj (Option.some.inj hplace)
      exact ⟨hd, rfl⟩
    · next htrailing =>
      split at hplace
      all_goals
        obtain ⟨rfl, -⟩ := Prod.mk.inj (Option.some.inj hplace)
        exact absurd ht htrailing

lemma cutsAcross_of_crosses {p q : Placement} (hl : lang.Legible) (hstyle : lang.style = .brace)
    (hm : Matched (lang.layers source.content 0)) (hp : p ∈ source.placements lang)
    (hq : q ∈ source.placements lang) (hover : p.scope.Overlaps q.scope)
    (hcovers : ¬p.scope.Covers q.scope) (hcovers' : ¬q.scope.Covers p.scope)
    (hpk : p.kind = .declaration) (hqt : q.directive.trailing = true) (hqk : q.kind ≠ .block) :
    source.CutsAcross lang p.scope q.scope := by
  obtain ⟨hd, hdt, hx⟩ := of_kind_declaration hp hpk
  obtain ⟨he, hscope⟩ := of_trailing hq hqt hqk
  have hcases := trailingScope_nested_or_disjoint hl hstyle hm he hd hqt hdt hx
  rw [← hscope] at hcases
  exact ((hcases.resolve_left hcovers).resolve_left hcovers').resolve_left (not_not.mpr hover)

end Source

namespace Scan

variable {tag content : Bytes}

/-- In code whose brackets are well matched, a trailing directive and a declaration are nested or
disjoint but where the declaration ends on the line behind more than closers, or starts there behind
comments and goes on. Only then is one refused for the sake of the other. -/
theorem trailing_scopes_nested_or_disjoint (path : Bytes)
    (hstyle : (Language.ofTag tag).style = .brace)
    (hnested : (brackets ((Language.ofTag tag).layers content 0)).Nested) :
    let source : Source := ⟨content⟩
    let lang := Language.ofTag tag
    let result := scan path tag content
    (∀ d ∈ result.directives, ∀ e ∈ result.directives, d.trailing = true → e.trailing = false →
      ∀ x, source.declarationScope? lang e.anchor = .ok (some x) →
        let t := source.trailingScope lang d.source
        x.Covers t ∨ t.Covers x ∨ ¬x.Overlaps t ∨ source.CutsAcross lang x t) ∧
    (∀ g ∈ result.diagnostics, g.kind = .overlapNotNested →
      ∃ p ∈ source.placements lang, ∃ q ∈ source.placements lang, p.Crosses q ∧
        g.related = some p.directive.source.start ∧ g.position = q.directive.source.start ∧
        (p.kind = .declaration → q.directive.trailing = true → q.kind ≠ .block →
          source.CutsAcross lang p.scope q.scope) ∧
        (q.kind = .declaration → p.directive.trailing = true → p.kind ≠ .block →
          source.CutsAcross lang q.scope p.scope)) := by
  intro source lang result
  have hl : lang.Legible := Language.legible_ofTag tag
  have hm : Matched (lang.layers source.content 0) := matched_of_nested hnested
  refine ⟨fun d hd e he hdt het x hx =>
    Source.trailingScope_nested_or_disjoint hl hstyle hm hd he hdt het hx, fun g hg hk => ?_⟩
  obtain ⟨⟨p, q⟩, hpq, rfl⟩ := List.mem_map.mp (crossings_only hg hk)
  obtain ⟨hp, hq, hover, hcovers, hcovers'⟩ :=
    (Placement.arranges_ordered (source.placements lang)).crosses_of_mem_crossings hpq
  exact ⟨p, hp, q, hq, ⟨hover, hcovers, hcovers'⟩, rfl, rfl,
    Source.cutsAcross_of_crosses hl hstyle hm hp hq hover hcovers hcovers',
    Source.cutsAcross_of_crosses hl hstyle hm hq hp hover.symm hcovers' hcovers⟩

def closedAbove : Bytes :=
  ascii "// @collab owner=core\nfn f() \x7b\n\x7d // @collab trust=READ_ONLY\n"

theorem trailing_scopes_nested_or_disjoint_closed :
    let source : Source := ⟨closedAbove⟩
    let lang := Language.ofTag (ascii "rust")
    let directives := (scan [] (ascii "rust") closedAbove).directives
    let x : Span := ⟨⟨2, 1⟩, ⟨3, 2⟩⟩
    let t : Span := ⟨⟨3, 3⟩, ⟨3, 29⟩⟩
    lang.style = .brace ∧ (brackets (lang.layers closedAbove 0)).Nested ∧
    ∃ d ∈ directives, ∃ e ∈ directives, d.trailing = true ∧ e.trailing = false ∧
      source.declarationScope? lang e.anchor = .ok (some x) ∧ source.trailingScope lang d.source = t ∧
      (x.Covers t ∨ t.Covers x ∨ ¬x.Overlaps t ∨ source.CutsAcross lang x t) := by
  intro source lang directives x t
  have hstyle : (Language.ofTag (ascii "rust")).style = .brace := by decide +kernel
  have hnested : (brackets ((Language.ofTag (ascii "rust")).layers closedAbove 0)).Nested := by
    have hbrackets : brackets ((Language.ofTag (ascii "rust")).layers closedAbove 0) =
        byte '(' :: [] ++ byte ')' :: (openBrace :: [] ++ closeBrace :: []) := by
      decide +kernel
    rw [hbrackets]
    exact .pair (by decide) .nil (.pair (by decide) .nil .nil)
  have hfound : ∃ d ∈ directives, ∃ e ∈ directives, d.trailing = true ∧ e.trailing = false ∧
      source.declarationScope? lang e.anchor = .ok (some x) ∧
      source.trailingScope lang d.source = t := by
    decide +kernel
  obtain ⟨d, hd, e, he, hdt, het, hx, ht⟩ := hfound
  refine ⟨hstyle, hnested, d, hd, e, he, hdt, het, hx, ht, ?_⟩
  rw [← ht]
  exact (trailing_scopes_nested_or_disjoint [] hstyle hnested).1 d hd e he hdt het x hx

def crossed : List (Bytes × Span × Span) :=
  [(ascii "// @collab owner=a\nfoo(\n x); // @collab owner=b\n",
      ⟨⟨2, 1⟩, ⟨3, 5⟩⟩, ⟨⟨3, 2⟩, ⟨3, 24⟩⟩),
    (ascii "// @collab owner=a\nx = 1 +\n 2; // @collab owner=b\n",
      ⟨⟨2, 1⟩, ⟨3, 4⟩⟩, ⟨⟨3, 2⟩, ⟨3, 23⟩⟩),
    (ascii "/* @collab owner=a */ fn f() \x7b // @collab owner=b\n\x7d\n",
      ⟨⟨1, 23⟩, ⟨2, 2⟩⟩, ⟨⟨1, 1⟩, ⟨1, 50⟩⟩)]

theorem trailing_scopes_cross :
    (Language.ofTag (ascii "rust")).style = .brace ∧
    ∀ entry ∈ crossed, let (content, x, t) := entry
      (brackets ((Language.ofTag (ascii "rust")).layers content 0)).Nested ∧
      (∃ d ∈ (scan [] (ascii "rust") content).directives,
        ∃ e ∈ (scan [] (ascii "rust") content).directives, d.trailing = true ∧ e.trailing = false ∧
          Source.declarationScope? ⟨content⟩ (Language.ofTag (ascii "rust")) e.anchor = .ok (some x) ∧
          Source.trailingScope ⟨content⟩ (Language.ofTag (ascii "rust")) d.source = t) ∧
      ¬(x.Covers t ∨ t.Covers x ∨ ¬x.Overlaps t) := by
  have hbrackets :
      crossed.map (fun entry => brackets ((Language.ofTag (ascii "rust")).layers entry.1 0)) =
      [byte '(' :: [] ++ byte ')' :: [], [],
        byte '(' :: [] ++ byte ')' :: (openBrace :: [] ++ closeBrace :: [])] := by
    decide +kernel
  have hnested : ∀ entry ∈ crossed,
      (brackets ((Language.ofTag (ascii "rust")).layers entry.1 0)).Nested := by
    intro entry hentry
    have hmem := hbrackets ▸ List.mem_map_of_mem hentry
    simp only [List.mem_cons, List.not_mem_nil, or_false] at hmem
    rcases hmem with h | h | h <;> rw [h]
    · exact .pair (by decide) .nil .nil
    · exact .nil
    · exact .pair (by decide) .nil (.pair (by decide) .nil .nil)
  have hcross : ∀ entry ∈ crossed,
      (∃ d ∈ (scan [] (ascii "rust") entry.1).directives,
        ∃ e ∈ (scan [] (ascii "rust") entry.1).directives, d.trailing = true ∧ e.trailing = false ∧
          Source.declarationScope? ⟨entry.1⟩ (Language.ofTag (ascii "rust")) e.anchor =
            .ok (some entry.2.1) ∧
          Source.trailingScope ⟨entry.1⟩ (Language.ofTag (ascii "rust")) d.source = entry.2.2) ∧
      ¬(entry.2.1.Covers entry.2.2 ∨ entry.2.2.Covers entry.2.1 ∨
        ¬entry.2.1.Overlaps entry.2.2) := by
    decide +kernel
  exact ⟨by decide +kernel, fun entry hentry => ⟨hnested entry hentry, hcross entry hentry⟩⟩

end Scan

end TrustRegions
