import TrustRegions.Proofs.Provenance
import TrustRegions.Proofs.TextPositions

/-! All that a scan says stands in the text: its directives, one after the other, the ends of its regions,
and the places that its reports name. -/

namespace TrustRegions

def Span.Stands (s : Source) (t : Span) : Prop := s.Has t.start ∧ s.Has t.stop

def Directive.Stands (s : Source) (d : Directive) : Prop := d.source.Stands s ∧ s.Has d.anchor

def Region.Stands (s : Source) (r : Region) : Prop :=
  r.scope.Stands s ∧ ∀ f ∈ r.provenance, s.Has f.start

def Diagnostic.Stands (s : Source) (g : Diagnostic) : Prop :=
  s.Has g.position ∧ ∀ p ∈ g.related, s.Has p

namespace Source

variable {s : Source} {lang : Language} {c : Comment} {d : Directive} {all : List Directive}
  {t : Span} {g : Diagnostic} {q : Placement × List Diagnostic}

lemma stands_of_mem_comments (hl : lang.Legible) (hc : c ∈ s.comments lang) : c.span.Stands s := by
  obtain ⟨g, -, stop, hfills⟩ := fills_of_mem_comments hl hc
  rw [Span.Stands, hfills.start_eq, hfills.stop_eq]
  exact ⟨s.has_positionAt _, s.has_positionAt _⟩

lemma stands_of_mem_directives (hl : lang.Legible) (hd : d ∈ (s.directives lang).1) :
    d.Stands s := by
  have horderly := (s.of_reading lang).orderly (s.inOrder_comments hl)
  obtain ⟨first, hfirst, last, hlast, hs⟩ := horderly.spans d ((mem_directives hl).mp hd).1
  have hstop := (stands_of_mem_comments hl hlast).2
  rw [Directive.Stands, hs.source_eq, hs.anchor_eq]
  exact ⟨⟨(stands_of_mem_comments hl hfirst).1, hstop⟩, hstop⟩

lemma stands_ownLineScope (h : t.Stands s) : (s.ownLineScope t).Stands s :=
  ⟨h.1.firstCodeColumn, h.2.endOfLine⟩

lemma stands_trailingScope (h : t.Stands s) : (s.trailingScope lang t).Stands s :=
  ⟨h.1.left (column_trailingScope h.1.column_pos) (Nat.min_le_right _ _), h.2.endOfLine⟩

lemma stands_declarationScope {anchor : Position}
    (h : s.declarationScope? lang anchor = .ok (some t)) : t.Stands s := by
  obtain ⟨b, rest, -, hstart, ⟨-, -, stop, -, hstop⟩ | ⟨-, line, hline, hstop⟩⟩ :=
    exists_of_declarationScope? h
  all_goals
    have hhas : s.Has t.start := hstart ▸ s.has_positionAt _
    refine ⟨hhas, ?_⟩
    rw [hstop]
  · exact s.has_positionAt _
  · have hrange : 1 ≤ line ∧ line ≤ s.lineCount := by
      refine offsideEnd_of_forall (P := fun n => 1 ≤ n ∧ n ≤ s.lineCount) hline ⟨hhas.line_pos, hhas.line_le⟩ fun r hr => ?_
      obtain ⟨hlt, hle⟩ := number_of_mem_rowsAfter hr
      exact ⟨hhas.line_pos.trans hlt.le, hle⟩
    exact has_endOfLine hrange.1 hrange.2

lemma stands_place? (h : s.place? lang all d = some q) (hd : d.Stands s)
    (hall : ∀ e ∈ all, e.Stands s) : q.1.scope.Stands s ∧ ∀ g ∈ q.2, g.Stands s := by
  rw [place?] at h
  split at h
  · cases h
  · obtain ⟨e, he, rfl⟩ := Option.map_eq_some_iff.mp h
    obtain ⟨_, -, hfind⟩ := Option.bind_eq_some_iff.mp he
    exact ⟨⟨hd.2, (hall e (List.mem_of_find?_eq_some hfind)).1.1⟩, by simp⟩
  all_goals
    split at h
    · obtain rfl := Option.some.inj h
      exact ⟨stands_trailingScope hd.1, by simp⟩
    · split at h
      · next scope hscope =>
        obtain rfl := Option.some.inj h
        exact ⟨stands_declarationScope hscope, by simp⟩
      · obtain rfl := Option.some.inj h
        exact ⟨stands_ownLineScope hd.1, by simp⟩
      · obtain rfl := Option.some.inj h
        refine ⟨stands_ownLineScope hd.1, fun g hg => ?_⟩
        obtain rfl := List.mem_singleton.mp hg
        exact ⟨hd.1.1, by simp⟩

lemma stands_of_mem_placements {p : Placement} (hl : lang.Legible) (hp : p ∈ s.placements lang) :
    p.directive.Stands s ∧ p.scope.Stands s := by
  refine ⟨stands_of_mem_directives hl (mem_directives_of_mem_placements hl hp).1, ?_⟩
  obtain ⟨q, hq, rfl⟩ := List.mem_map.mp hp
  obtain ⟨d, hd, hdq⟩ := List.mem_filterMap.mp hq
  exact (stands_place? hdq (stands_of_mem_directives hl hd)
    fun e he => stands_of_mem_directives hl he).1

lemma stands_of_mem_reports (hl : lang.Legible) (hg : g ∈ (s.directives lang).2) : g.Stands s := by
  have ho := s.inOrder_comments hl
  rcases List.mem_append.mp hg with hg | hg
  · obtain ⟨-, hrelated, c, hc, hposition⟩ := DirectiveReader.reportedIn_endRun ho hg
    rw [Diagnostic.Stands, hposition, hrelated]
    exact ⟨(stands_of_mem_comments hl hc).1, by simp⟩
  · obtain ⟨b, hb, rfl⟩ := List.mem_map.mp hg
    refine ⟨s.has_positionAt _, fun p hp => ?_⟩
    obtain rfl := Option.some.inj hp
    -- A block is left open at the start of a marker without a partner.
    have hopen : b.start ∈ (s.reading lang).imbalances := by
      obtain ⟨ds, he⟩ := ((s.comments lang).foldl (DirectiveReader.read s) {}).exists_endRun
      rw [he] at hb
      exact List.mem_append_right _ (List.mem_map_of_mem (List.mem_reverse.mp hb))
    obtain ⟨u, hu, hstart⟩ := (mem_imbalances hl).mp hopen
    exact hstart ▸ (stands_of_mem_comments hl hu.1).1

end Source

lemma Region.Grown.stands {s : Source} {l : List Placement} {rs : List Region} (h : Grown l rs)
    (hl : ∀ p ∈ l, p.directive.Stands s ∧ p.scope.Stands s) : ∀ r ∈ rs, r.Stands s := by
  induction h with
  | nil => simp
  | @snoc l rs p h ih =>
    obtain ⟨hl, hp⟩ := List.forall_mem_append.mp hl
    obtain ⟨hd, hscope⟩ := hp p List.mem_cons_self
    have hrs := ih hl
    refine List.forall_mem_append.mpr ⟨hrs, fun r hr => ?_⟩
    obtain rfl := List.mem_singleton.mp hr
    refine ⟨hscope, fun f hf => ?_⟩
    rcases List.mem_append.mp hf with hf | hf
    · cases hparent : (enclosing rs p.scope).head? with
      | none => simp [hparent] at hf
      | some q =>
        rw [hparent] at hf
        exact (hrs q.2 (mem_of_mem_enclosing (List.mem_of_mem_head? hparent))).2 f hf
    · obtain rfl := List.mem_singleton.mp hf
      exact hd.1.1

lemma Region.stands_of_mem_crossings {s : Source} {placements : List Placement} {g : Diagnostic}
    (hp : ∀ p ∈ placements, p.directive.Stands s) (hg : g ∈ (resolve placements).2) :
    g.Stands s := by
  obtain ⟨x, hx, rfl⟩ := List.mem_map.mp hg
  obtain ⟨h₁, h₂, -⟩ := (Placement.arranges_ordered placements).crosses_of_mem_crossings hx
  refine ⟨(hp x.2 h₂).1.1, fun p hrelated => ?_⟩
  obtain rfl := Option.some.inj hrelated
  exact (hp x.1 h₁).1.1

namespace Scan

/-- A scan names no place outside its text, whatever the language, and the spans of its directives follow
one another. -/
theorem positions_in_text (path tag content : Bytes) :
    let source : Source := ⟨content⟩
    let result := scan path tag content
    (∀ d ∈ result.directives,
      source.Has d.source.start ∧ source.Has d.source.stop ∧ source.Has d.anchor) ∧
    (∀ r ∈ result.regions, source.Has r.scope.start ∧ source.Has r.scope.stop ∧
      ∀ f ∈ r.provenance, source.Has f.start) ∧
    (∀ g ∈ result.diagnostics, source.Has g.position ∧ ∀ p ∈ g.related, source.Has p) ∧
    (∀ d ∈ result.directives, d.source.start < d.source.stop) ∧
    result.directives.Pairwise fun d e =>
      d.source.start < e.source.start ∧ d.source.stop ≤ e.source.start := by
  intro source result
  have hl := Language.legible_ofTag tag
  have hshown (d : Directive) (hd : d ∈ result.directives) : d.source.start < d.source.stop :=
    (Source.shown_of_mem_directives hl hd).1
  have hplaced (p : Placement) (hp : p ∈ source.placements (Language.ofTag tag)) :=
    Source.stands_of_mem_placements hl hp
  have hdirectives (d : Directive) (hd : d ∈ result.directives) : d.Stands source :=
    Source.stands_of_mem_directives hl hd
  refine ⟨fun d hd => ?_, fun r hr => ?_, fun g hg => ?_, hshown, ?_⟩
  · obtain ⟨⟨hstart, hstop⟩, hanchor⟩ := hdirectives d hd
    exact ⟨hstart, hstop, hanchor⟩
  · have hkept := fun p (hp : p ∈ kept tag content) => hplaced p (mem_placements_of_mem_kept hp)
    obtain ⟨⟨hstart, hstop⟩, hprovenance⟩ := (Region.grown_resolve _).stands hkept r hr
    exact ⟨hstart, hstop, hprovenance⟩
  · rcases mem_diagnostics hg with hg | hg | ⟨d, hd, q, hq, hg⟩ | hg
    · rw [unknownLanguageDiagnostics] at hg
      split at hg
      · obtain rfl := List.mem_singleton.mp hg
        exact ⟨source.has_positionAt 0, by simp⟩
      · simp at hg
    · exact Source.stands_of_mem_reports hl hg
    · exact (Source.stands_place? hq (hdirectives d hd) hdirectives).2 g hg
    · exact Region.stands_of_mem_crossings (fun p hp => (hplaced p hp).1) hg
  · refine (source.sorted_directives hl).imp_of_mem fun hd _ hde => ?_
    exact ⟨(hshown _ hd).trans_le hde.1, hde.1⟩

end Scan

end TrustRegions
