import TrustRegions.Proofs.LineStarts
import TrustRegions.Proofs.Provenance

/-! Where the brackets of the code are well matched, the declarations that directives stand above are
nested or disjoint. -/

namespace TrustRegions

open BraceWalk

namespace Source

structure Declares (source : Source) (lang : Language) (before : List (UInt8 × Layer))
    (b : UInt8 × Layer) (rest : List (UInt8 × Layer)) (t : Span) : Prop where
  layers_eq : lang.layers source.content 0 = before ++ b :: rest
  starts : Starts b
  fresh : before.foldl freshAfter true = true
  start_eq : t.start = source.positionAt before.length
  ends : ∃ stop, lang.bracedEnd t.start.line before.length (b :: rest) = .ok stop ∧
    t.stop = source.positionAt stop

variable {source : Source} {lang : Language} {g : Segment} {c : Comment} {stop : Nat} {t t' : Span}
  {b b' : UInt8 × Layer} {before before' rest rest' : List (UInt8 × Layer)}

lemma exists_layers_stop (hl : lang.Legible) (hg : g ∈ lang.segments source.content 0)
    (h : c.Fills source g stop) :
    ∃ lead, lang.layers source.content stop = lead ++ lang.layers source.content g.stop ∧
      (∀ b ∈ lead, isLeading b = true) ∧ stop + lead.length = g.stop := by
  obtain ⟨n, hn, hblank⟩ := h.exists_blanks
  have hle : stop + n ≤ source.content.length := hn.trans_le (Language.stop_le_length hg)
  refine ⟨_, hn ▸ Language.layers_of_blanks hl hle hblank, ?_, ?_⟩
  · intro b hb
    obtain ⟨c, hc, rfl⟩ := List.mem_map.mp hb
    simp [isLeading, hblank c hc]
  · rw [List.length_map, List.length_take, List.length_drop, Nat.min_eq_left (by omega), hn]

lemma exists_layers_comment (hg : g ∈ lang.segments source.content 0) (h : c.Fills source g stop) :
    ∃ body, lang.layers source.content 0 = (lang.layers source.content 0).take g.start ++
        (body ++ lang.layers source.content g.stop) ∧ (∀ b ∈ body, isLeading b = true) ∧
      ((lang.layers source.content 0).take g.start ++ body).length = g.stop := by
  refine ⟨((source.content.drop g.start).take g.length).map (·, g.kind.layer), ?_, ?_, ?_⟩
  · rw [← Language.layers_segment hg, Language.layers_start hg, Nat.sub_zero, List.take_append_drop]
  · rintro b hb
    obtain ⟨-, -, rfl⟩ := List.mem_map.mp hb
    simp [isLeading, h.layer]
  · have hlt := Language.start_lt_stop hg
    have hle := Language.stop_le_length hg
    simp only [List.length_append, List.length_take, List.length_map, List.length_drop,
      Language.length_layers, Segment.length]
    omega

lemma exists_lead (hl : lang.Legible) (hg : g ∈ lang.segments source.content 0)
    (h : c.Fills source g stop)
    (hdrop : (lang.layers source.content stop).dropWhile isLeading = b :: rest) :
    ∃ lead, lang.layers source.content 0 =
        (lang.layers source.content 0).take g.start ++ lead ++ b :: rest ∧
      (∀ x ∈ lead, isLeading x = true) ∧
      ((lang.layers source.content 0).take g.start ++ lead).length =
        source.declarationStart lang stop := by
  obtain ⟨lead, hlayers, hlead, hlength⟩ := exists_layers_stop hl hg h
  rw [hlayers, List.dropWhile_append_of_pos hlead] at hdrop
  obtain ⟨body, hwhole, hbody, hbodyLength⟩ := exists_layers_comment hg h
  refine ⟨body ++ (lang.layers source.content g.stop).takeWhile isLeading, ?_, ?_, ?_⟩
  · rw [List.append_assoc, List.append_assoc, ← hdrop, List.takeWhile_append_dropWhile, ← hwhole]
  · intro x hx
    rcases List.mem_append.mp hx with hx | hx
    · exact hbody x hx
    · exact List.mem_takeWhile_imp hx
  · rw [declarationStart, hlayers, List.takeWhile_append_of_pos hlead]
    simp only [List.length_append] at hbodyLength ⊢
    omega

lemma exists_before (hl : lang.Legible) (hg : g ∈ lang.segments source.content 0)
    (h : c.Fills source g stop) (hc : c.trailing = false)
    (hdrop : (lang.layers source.content stop).dropWhile isLeading = b :: rest) :
    ∃ before, lang.layers source.content 0 = before ++ b :: rest ∧
      before.foldl freshAfter true = true ∧ before.length = source.declarationStart lang stop := by
  obtain ⟨lead, hlayers, hlead, hlength⟩ := exists_lead hl hg h hdrop
  refine ⟨_, hlayers, ?_, hlength⟩
  rw [List.foldl_append, h.fresh hl hg hc]
  exact foldl_freshAfter_of_leading hlead

lemma exists_declares (hl : lang.Legible) (hstyle : lang.style = .brace)
    (hg : g ∈ lang.segments source.content 0) (h : c.Fills source g stop) (hc : c.trailing = false)
    (ht : source.declarationScope? lang (source.positionAt stop) = .ok (some t)) :
    ∃ before b rest, source.Declares lang before b rest t := by
  obtain ⟨b, rest, hdrop, hstart, ⟨-, hopens, stop', hend, hts⟩ | ⟨hne, -⟩⟩ :=
    exists_of_declarationScope? ht
  swap
  · exact absurd hstyle hne
  rw [offsetAt_positionAt (h.stop_le_length hg)] at hdrop hstart hend
  have hstarts : Starts b := ⟨Language.isLeading_of_dropWhile hdrop, hopens,
    fun hs => (Language.string_of_dropWhile_layers hl hdrop hs).2⟩
  obtain ⟨before, hlayers, hfresh, hlength⟩ := exists_before hl hg h hc hdrop
  rw [← hlength] at hstart hend
  exact ⟨before, b, rest, hlayers, hstarts, hfresh, hstart, stop', hend, hts⟩

lemma Declares.leads (h : source.Declares lang before b rest t)
    (h' : source.Declares lang before' b' rest' t') (hm : Matched (lang.layers source.content 0))
    (hle : before.length ≤ before'.length) : t.Leads t' := by
  obtain ⟨stop, hend, hstop⟩ := h.ends
  obtain ⟨stop', hend', hstop'⟩ := h'.ends
  rw [Span.Leads, Span.Covers, h.start_eq, h'.start_eq, hstop, hstop']
  obtain ⟨between, rfl⟩ :=
    List.prefix_of_prefix_length_le ⟨_, h.layers_eq.symm⟩ ⟨_, h'.layers_eq.symm⟩ hle
  have hrest : b :: rest = between ++ b' :: rest' := by
    have hlayers := h.layers_eq.symm.trans h'.layers_eq
    rw [List.append_assoc] at hlayers
    exact List.append_cancel_left hlayers
  cases between with
  | nil =>
    obtain ⟨rfl, rfl⟩ := List.cons.inj hrest
    rw [List.append_nil] at h' hend' ⊢
    rw [h'.start_eq, ← h.start_eq, hend] at hend'
    obtain rfl := Except.ok.inj hend'
    exact Or.inl ⟨le_rfl, le_rfl⟩
  | cons x between =>
    obtain ⟨rfl, -⟩ := List.cons.inj hrest
    have hclosing : Closing (b :: rest) := (h.layers_eq ▸ hm).closing.of_append
    have hfresh : (b :: between).foldl freshAfter false = true := by
      have hfirst (fresh : Bool) : freshAfter fresh b = freshAfter false b := by
        simp [freshAfter, h.starts.shows]
      have hfresh := h'.fresh
      rwa [List.foldl_append, List.foldl_cons, hfirst] at hfresh
    rw [List.length_append] at hend' ⊢
    rcases BraceWalk.nested_or_disjoint hclosing hrest h'.starts ⟨rfl, rfl⟩ le_rfl Bool.noConfusion
      hfresh hend hend' with hle | hle
    · exact Or.inr (source.positionAt_mono hle)
    · exact Or.inl ⟨source.positionAt_mono (Nat.le_add_right _ _), source.positionAt_mono hle⟩

variable {d e : Directive} {p q : Placement} {x y : Span}

lemma exists_declares_of_mem (hl : lang.Legible) (hstyle : lang.style = .brace)
    (hd : d ∈ (source.directives lang).1) (htrailing : d.trailing = false)
    (h : source.declarationScope? lang d.anchor = .ok (some x)) :
    ∃ before b rest, source.Declares lang before b rest x := by
  obtain ⟨_, _, _, hg, hfills, hanchor, hc⟩ := exists_last_comment hl hd
  exact exists_declares hl hstyle hg hfills (hc ▸ htrailing) (hanchor ▸ h)

lemma declarationScopes_nested_or_disjoint (hl : lang.Legible) (hstyle : lang.style = .brace)
    (hm : Matched (lang.layers source.content 0))
    (hd : d ∈ (source.directives lang).1) (he : e ∈ (source.directives lang).1)
    (hdt : d.trailing = false) (het : e.trailing = false)
    (hx : source.declarationScope? lang d.anchor = .ok (some x))
    (hy : source.declarationScope? lang e.anchor = .ok (some y)) :
    x.Covers y ∨ y.Covers x ∨ ¬x.Overlaps y := by
  obtain ⟨before, _, _, h⟩ := exists_declares_of_mem hl hstyle hd hdt hx
  obtain ⟨before', _, _, h'⟩ := exists_declares_of_mem hl hstyle he het hy
  rcases Nat.le_total before.length before'.length with hle | hle
  · exact (h.leads h' hm hle).nested_or_disjoint.imp_right Or.inr
  · rcases (h'.leads h hm hle).nested_or_disjoint with hcovers | hdisjoint
    · exact Or.inr (Or.inl hcovers)
    · exact Or.inr (Or.inr (mt And.symm hdisjoint))

lemma of_kind_declaration (hp : p ∈ source.placements lang) (hk : p.kind = .declaration) :
    p.directive ∈ (source.directives lang).1 ∧ p.directive.trailing = false ∧
      source.declarationScope? lang p.directive.anchor = .ok (some p.scope) := by
  obtain ⟨⟨p, ds⟩, hmem, rfl⟩ := List.mem_map.mp hp
  obtain ⟨d, hd, hplace⟩ := List.mem_filterMap.mp hmem
  rw [place?] at hplace
  cases hf : d.form with
  | blockEnd => simp [hf] at hplace
  | blockBegin =>
    simp only [hf, Option.map_eq_some_iff, Prod.mk.injEq] at hplace
    obtain ⟨f, -, rfl, -⟩ := hplace
    cases hk
  | single | merged =>
    simp only [hf] at hplace
    split at hplace
    · obtain ⟨rfl, -⟩ := Prod.mk.inj (Option.some.inj hplace)
      cases hk
    · next htrailing =>
      split at hplace
      · next scope hscope =>
        obtain ⟨rfl, -⟩ := Prod.mk.inj (Option.some.inj hplace)
        exact ⟨hd, by simpa using htrailing, hscope⟩
      · obtain ⟨rfl, -⟩ := Prod.mk.inj (Option.some.inj hplace)
        cases hk
      · obtain ⟨rfl, -⟩ := Prod.mk.inj (Option.some.inj hplace)
        cases hk

end Source

namespace Scan

variable {tag content : Bytes}

/-- In code whose brackets are well matched no declaration crosses another, and each crossing that a
scan reports is with the scope of a directive that stands above no declaration. -/
theorem declarations_nested_or_disjoint (path : Bytes) (hstyle : (Language.ofTag tag).style = .brace)
    (hnested : (brackets ((Language.ofTag tag).layers content 0)).Nested) :
    let source : Source := ⟨content⟩
    let lang := Language.ofTag tag
    let result := scan path tag content
    (∀ d ∈ result.directives, ∀ e ∈ result.directives, d.trailing = false → e.trailing = false →
      ∀ x y, source.declarationScope? lang d.anchor = .ok (some x) →
        source.declarationScope? lang e.anchor = .ok (some y) →
        x.Covers y ∨ y.Covers x ∨ ¬x.Overlaps y) ∧
    (∀ g ∈ result.diagnostics, g.kind = .overlapNotNested →
      ∃ p ∈ source.placements lang, p.kind ≠ .declaration ∧
        (g.position = p.directive.source.start ∨ g.related = some p.directive.source.start)) := by
  intro source lang result
  have hl : lang.Legible := Language.legible_ofTag tag
  have hm : Matched (lang.layers source.content 0) := matched_of_nested hnested
  refine ⟨fun d hd e he hdt het x y hx hy =>
    Source.declarationScopes_nested_or_disjoint hl hstyle hm hd he hdt het hx hy, fun g hg hk => ?_⟩
  obtain ⟨⟨a, b⟩, hab, rfl⟩ := List.mem_map.mp (crossings_only hg hk)
  obtain ⟨ha, hb, hover, hcovers, hcovers'⟩ :=
    (Placement.arranges_ordered (source.placements lang)).crosses_of_mem_crossings hab
  by_cases hka : a.kind = .declaration
  · by_cases hkb : b.kind = .declaration
    · obtain ⟨hda, hta, hx⟩ := Source.of_kind_declaration ha hka
      obtain ⟨hdb, htb, hy⟩ := Source.of_kind_declaration hb hkb
      rcases Source.declarationScopes_nested_or_disjoint hl hstyle hm hda hdb hta htb hx hy with
        h | h | h
      · exact absurd h hcovers
      · exact absurd h hcovers'
      · exact absurd hover h
    · exact ⟨b, hb, hkb, Or.inl rfl⟩
  · exact ⟨a, ha, hka, Or.inr rfl⟩

def nestedDeclarations : Bytes :=
  ascii "// @collab owner=core\nconst f = (a) => \x7b\n  // @collab trust=READ_ONLY\n  g(a)\n\x7d\n"

theorem declarations_nested_or_disjoint_arrow :
    let source : Source := ⟨nestedDeclarations⟩
    let lang := Language.ofTag (ascii "javascript")
    let directives := (scan [] (ascii "javascript") nestedDeclarations).directives
    let x : Span := ⟨⟨2, 1⟩, ⟨5, 2⟩⟩
    let y : Span := ⟨⟨4, 3⟩, ⟨4, 7⟩⟩
    lang.style = .brace ∧ (brackets (lang.layers nestedDeclarations 0)).Nested ∧
    ∃ d ∈ directives, ∃ e ∈ directives, d.trailing = false ∧ e.trailing = false ∧
      source.declarationScope? lang d.anchor = .ok (some x) ∧
      source.declarationScope? lang e.anchor = .ok (some y) ∧
      (x.Covers y ∨ y.Covers x ∨ ¬x.Overlaps y) := by
  intro source lang directives x y
  have hstyle : (Language.ofTag (ascii "javascript")).style = .brace := by decide +kernel
  have hnested :
      (brackets ((Language.ofTag (ascii "javascript")).layers nestedDeclarations 0)).Nested := by
    have hbrackets : brackets ((Language.ofTag (ascii "javascript")).layers nestedDeclarations 0) =
        byte '(' :: [] ++ byte ')' ::
          (openBrace :: (byte '(' :: [] ++ byte ')' :: []) ++ closeBrace :: []) := by
      decide +kernel
    rw [hbrackets]
    exact .pair (by decide) .nil (.pair (by decide) (.pair (by decide) .nil .nil) .nil)
  have hfound : ∃ d ∈ directives, ∃ e ∈ directives, d.trailing = false ∧ e.trailing = false ∧
      source.declarationScope? lang d.anchor = .ok (some x) ∧
      source.declarationScope? lang e.anchor = .ok (some y) := by
    decide +kernel
  obtain ⟨d, hd, e, he, hdt, het, hx, hy⟩ := hfound
  exact ⟨hstyle, hnested, d, hd, e, he, hdt, het, hx, hy,
    (declarations_nested_or_disjoint [] hstyle hnested).1 d hd e he hdt het _ _ hx hy⟩

end Scan

end TrustRegions
