import TrustRegions.Proofs.LineStarts

/-! What a comment trails: code or a string before it on its line, but another comment that ends there as
well, and blanks other than spaces and tabs. -/

namespace TrustRegions

def Position.OnLineBefore (p q : Position) : Prop := p < q ∧ p.line = q.line

def Comment.StandsBehind (source : Source) (lang : Language) (p : UInt8 → Bool) (c : Comment) : Prop :=
  ∃ k x, (lang.layers source.content 0)[k]? = some x ∧ x.2 ≠ .comment ∧ p x.1 = true ∧
    (source.positionAt k).OnLineBefore c.span.start

namespace Source

variable {source : Source} {lang : Language} {k o o' : Nat} {b : UInt8}

lemma line_eq_of_between (hk : o ≤ k) (hk' : k ≤ o')
    (h : (source.positionAt o).line = (source.positionAt o').line) :
    (source.positionAt k).line = (source.positionAt o').line :=
  Nat.le_antisymm (source.line_le_of_le hk') (h ▸ source.line_le_of_le hk)

lemma line_lt_of_newline (hk : source.content[k]? = some newline) (h : k < o) :
    (source.positionAt k).line < (source.positionAt o).line := by
  have hnext := source.line_le_of_le (Nat.succ_le_of_lt h)
  rwa [Nat.succ_eq_add_one, positionAt_succ hk, Position.advance, if_pos rfl, Nat.add_one_le_iff] at hnext

lemma exists_of_mem_lineHead (ho : o ≤ source.content.length) (hb : b ∈ source.lineHead o) :
    ∃ k < o, source.content[k]? = some b ∧ (source.positionAt k).line = (source.positionAt o).line := by
  obtain ⟨i, hi⟩ := List.mem_iff_getElem?.mp hb
  have hlt := (List.getElem?_eq_some_iff.mp hi).1
  have hhead : (source.lineHead o).length ≤ o := by
    obtain ⟨before, htake, -⟩ := source.take_eq_append_lineHead o
    have hlength := congrArg List.length htake
    rw [List.length_take, List.length_append] at hlength
    omega
  refine ⟨o - (source.lineHead o).length + i, by omega, ?_, ?_⟩
  · rw [getElem?_lineHead ho hlt, hi]
  · rw [positionAt_lineHead ho hlt.le]

end Source

namespace Comment

variable {source : Source} {lang : Language} {g t : Segment} {c e : Comment} {stop stop' : Nat}

lemma Fills.trailing_iff (h : c.Fills source g stop) (hg : g ∈ lang.segments source.content 0) :
    c.trailing = true ↔ ∃ k b, k < g.start ∧ source.content[k]? = some b ∧ isIndent b = false ∧
      (source.positionAt k).line = (source.positionAt g.start).line := by
  have hlength := (Language.start_lt_stop hg).le.trans (Language.stop_le_length hg)
  rw [h.trailing_eq, List.any_eq_true]
  constructor
  · rintro ⟨b, hb, hindent⟩
    obtain ⟨k, hk, hget, hline⟩ := Source.exists_of_mem_lineHead hlength hb
    exact ⟨k, b, hk, hget, by simpa using hindent, hline⟩
  · rintro ⟨k, b, hk, hget, hindent, hline⟩
    exact ⟨b, Source.mem_lineHead hget hk hlength hline, by simp [hindent]⟩

lemma exists_fills_of_layer (hl : lang.Legible) (ht : t ∈ lang.segments source.content 0)
    (hlayer : t.kind.layer = .comment) :
    ∃ e ∈ source.comments lang, ∃ stop', e.Fills source t stop' := by
  obtain ⟨e, he⟩ : ∃ e, ofSegment? source t = some e := by
    cases hk : t.kind with
    | code => simp [hk, Segment.Kind.layer] at hlayer
    | string => simp [hk, Segment.Kind.layer] at hlayer
    | comment style d n => exact ⟨_, by rw [ofSegment?, hk]⟩
  exact ⟨e, List.mem_filterMap.mpr ⟨t, ht, he⟩, exists_fills hl ht he⟩

lemma Fills.shown_of_standsBehind {p : UInt8 → Bool} (h : c.Fills source g stop)
    (hp : ∀ b, p b = true → isIndent b = false) (hs : c.StandsBehind source lang p) :
    ∃ k b, k < g.start ∧ source.content[k]? = some b ∧ isIndent b = false ∧
      (source.positionAt k).line = (source.positionAt g.start).line := by
  obtain ⟨k, x, hx, -, hpx, hbefore⟩ := hs
  rw [h.start_eq] at hbefore
  refine ⟨k, x.1, Source.lt_of_positionAt_lt hbefore.1, ?_, hp _ hpx, hbefore.2⟩
  rw [Language.getElem?_layers lang, hx, Option.map_some]

lemma Fills.exists_shown (hl : lang.Legible) (h : c.Fills source g stop)
    (hg : g ∈ lang.segments source.content 0) (he : e ∈ source.comments lang)
    (hle : e.span.stop ≤ c.span.start) (hline : e.span.stop.line = c.span.start.line) :
    ∃ k b, k < g.start ∧ source.content[k]? = some b ∧ isIndent b = false ∧
      (source.positionAt k).line = (source.positionAt g.start).line := by
  obtain ⟨t, ht, stop', hfills⟩ := Source.fills_of_mem_comments hl he
  have hlt := Language.start_lt_stop ht
  have hlength := (Language.start_lt_stop hg).trans_le (Language.stop_le_length hg)
  have hstop : t.start + t.length = t.stop := Nat.add_sub_cancel' hlt.le
  rw [hfills.stop_eq, h.start_eq] at hle hline
  have hstarts : t.start < g.start := by
    by_contra hge
    have hlater := Source.positionAt_lt (hfills.start_lt.trans_le' (not_lt.mp hge))
      (hfills.stop_le_length ht)
    exact hlater.not_ge hle
  have hbehind := Language.stop_le_of_start_lt ht hg hstarts
  have hend := Source.line_eq_of_between hfills.stop_le hbehind hline
  obtain ⟨c₀, hc₀, hshows⟩ := h.shows
  rcases (Language.looks_of_mem hl ht).endsAt (by rw [hfills.layer]; decide) with
    hover | hnext | ⟨b, hpos, hb, hblank⟩
  · rw [List.length_drop] at hover
    omega
  · rw [List.getElem?_drop, hstop] at hnext
    have hne : t.stop ≠ g.start := by
      intro heq
      rw [← heq, hnext] at hc₀
      exact (Source.ne_of_not_blank hshows).1 (Option.some.inj hc₀).symm
    exact absurd hend (Source.line_lt_of_newline hnext (by omega)).ne
  · rw [List.getElem?_drop] at hb
    have hnext := Source.positionAt_succ hb
    rw [Position.advance, if_neg (Source.ne_of_not_blank hblank).1, Nat.add_assoc,
      Nat.sub_add_cancel hpos, hstop] at hnext
    refine ⟨_, b, by omega, hb, Source.not_indent_of_not_blank hblank, ?_⟩
    rw [← hend, hnext]

lemma Fills.exists_before {k : Nat} {x : UInt8 × Layer} (hl : lang.Legible) (h : c.Fills source g stop)
    (hg : g ∈ lang.segments source.content 0) (hk : k < g.start)
    (hx : (lang.layers source.content 0)[k]? = some x) (hcomment : x.2 = .comment)
    (hline : (source.positionAt k).line = (source.positionAt g.start).line) :
    ∃ e ∈ source.comments lang, e.span.stop ≤ c.span.start ∧ e.span.stop.line = c.span.start.line := by
  obtain ⟨t, ht, hle, hlt, hlayer⟩ := Language.exists_comment_segment hx hcomment
  obtain ⟨e, he, stop', hfills⟩ := exists_fills_of_layer hl ht hlayer
  have hbehind : stop' ≤ g.start :=
    hfills.stop_le.trans (Language.stop_le_of_start_lt ht hg (hle.trans_lt hk))
  have hreach : k ≤ stop' := by
    rcases hfills.reaches with heq | ⟨heq, -⟩ <;> omega
  refine ⟨e, he, ?_, ?_⟩
  · rw [hfills.stop_eq, h.start_eq]
    exact source.positionAt_mono hbehind
  · rw [hfills.stop_eq, h.start_eq]
    exact Source.line_eq_of_between hreach hbehind hline

end Comment

namespace Source

/-- A comment counts as trailing where code or a string shows before it on its line, but where another
comment ends there too, or where there is a blank that is neither a space nor a tab. -/
theorem comment_trailing_iff (tag : Bytes) (source : Source) :
    let lang := Language.ofTag tag
    ∀ c ∈ source.comments lang, (c.trailing = true ↔
      c.StandsBehind source lang (fun b => !isBlank b) ∨
      (∃ e ∈ source.comments lang, e.span.stop ≤ c.span.start ∧ e.span.stop.line = c.span.start.line) ∨
      c.StandsBehind source lang (fun b => isBlank b && !isIndent b)) := by
  intro lang c hc
  have hl : lang.Legible := Language.legible_ofTag tag
  obtain ⟨g, hg, stop, h⟩ := fills_of_mem_comments hl hc
  rw [h.trailing_iff hg]
  constructor
  · rintro ⟨k, b, hk, hb, hindent, hline⟩
    have hlength := (Language.start_lt_stop hg).le.trans (Language.stop_le_length hg)
    have hbefore : (source.positionAt k).OnLineBefore c.span.start :=
      h.start_eq ▸ ⟨positionAt_lt hk hlength, hline⟩
    obtain ⟨x, hx, rfl⟩ := Option.map_eq_some_iff.mp (Language.getElem?_layers lang _ k ▸ hb)
    by_cases hcomment : x.2 = .comment
    · exact Or.inr (Or.inl (h.exists_before hl hg hk hx hcomment hline))
    · cases hblank : isBlank x.1 with
      | false => exact Or.inl ⟨k, x, hx, hcomment, by simp [hblank], hbefore⟩
      | true => exact Or.inr (Or.inr ⟨k, x, hx, hcomment, by simp [hblank, hindent], hbefore⟩)
  · rintro (hs | ⟨e, he, hle, hline⟩ | hs)
    · exact h.shown_of_standsBehind (fun b hb => not_indent_of_not_blank (by simpa using hb)) hs
    · exact h.exists_shown hl hg he hle hline
    · exact h.shown_of_standsBehind (fun b hb => by simpa using (Bool.and_eq_true_iff.mp hb).2) hs

def twoNotes : Source := ⟨ascii "/* a */ // b\n"⟩

theorem comment_trailing_iff_twoNotes :
    let lang := Language.ofTag (ascii "rust")
    ∃ e c, twoNotes.comments lang = [e, c] ∧ c.trailing = true ∧
      ¬c.StandsBehind twoNotes lang (fun b => !isBlank b) := by
  intro lang
  let e : Comment := ⟨.block, ascii "/*", ascii " a ", ⟨⟨1, 1⟩, ⟨1, 8⟩⟩, false⟩
  let c : Comment := ⟨.line, ascii "//", ascii " b", ⟨⟨1, 9⟩, ⟨1, 13⟩⟩, true⟩
  have hcs : twoNotes.comments lang = [e, c] := by decide +kernel
  refine ⟨e, c, hcs, ?_, ?_⟩
  · refine (comment_trailing_iff (ascii "rust") twoNotes c ?_).mpr (Or.inr (Or.inl ⟨e, ?_, ?_, rfl⟩))
    · exact hcs ▸ List.mem_cons_of_mem e List.mem_cons_self
    · exact hcs ▸ List.mem_cons_self
    · decide
  · rintro ⟨k, x, hx, hcomment, hshows, hbefore, -⟩
    have hk : k < 8 := lt_of_positionAt_lt (s := twoNotes) hbefore
    have hall : ∀ x ∈ (lang.layers twoNotes.content 0).take 8, x.2 = .comment ∨ isBlank x.1 = true := by
      decide +kernel
    rcases hall x (List.mem_of_getElem? ((List.getElem?_take_of_lt hk).trans hx)) with h | h
    · exact hcomment h
    · simp [h] at hshows

end Source

end TrustRegions
