import TrustRegions.Proofs.Blocks
import TrustRegions.Proofs.Extents
import TrustRegions.Proofs.Reports

/-! Each directive that stands for some code is the last in the provenance of one region, that of its
own scope; only a crossing, which is reported, and a block with nothing in it leave it without one. -/

namespace TrustRegions

def Directive.Vacuous (ds : List Directive) (d : Directive) : Prop :=
  ∃ e ∈ ds, d.Partners e ∧ e.source.start = d.anchor

namespace Source

variable {source : Source} {lang : Language} {d e : Directive} {p q : Placement}

def placements (source : Source) (lang : Language) : List Placement :=
  ((source.directives lang).1.filterMap
    (source.place? lang (source.directives lang).1)).map (·.1)

lemma shown_of_mem_directives (hl : lang.Legible) (hd : d ∈ (source.directives lang).1) :
    source.Shown d.source := by
  have ho := source.inOrder_comments hl
  have horderly := (source.of_reading lang).orderly ho
  have hmem := ((mem_directives hl).mp hd).1
  obtain ⟨first, hfirst, last, -, hs⟩ := horderly.spans d hmem
  obtain ⟨g, -, stop, hfills⟩ := fills_of_mem_comments hl hfirst
  obtain ⟨c, hc, hb⟩ := hfills.shows
  exact ⟨horderly.start_lt_stop ho hmem, g.start, c, hc, hb,
    by rw [hs.source_eq, ← hfills.start_eq]⟩

lemma find?_ordinal (hl : lang.Legible) (he : e ∈ (source.directives lang).1) :
    ((source.directives lang).1.find? fun d => d.ordinal == e.ordinal) = some e := by
  cases h : (source.directives lang).1.find? fun d => d.ordinal == e.ordinal with
  | none => simpa using List.find?_eq_none.mp h e he
  | some f =>
    have hordinal : f.ordinal = e.ordinal := by simpa using List.find?_some h
    rw [Directive.eq_of_ordinal_eq ((source.sorted_directives hl).imp fun h => h.2)
      (List.mem_of_find?_eq_some h) he hordinal]

lemma exists_place? (hl : lang.Legible) (hd : d ∈ (source.directives lang).1)
    (hform : d.form ≠ .blockEnd) :
    ∃ p ds, source.place? lang (source.directives lang).1 d = some (p, ds) ∧ p.directive = d ∧
      (p.scope.Empty ↔ d.Vacuous (source.directives lang).1) ∧
      ∀ g ∈ ds, g.kind ≠ .overlapNotNested := by
  have hshown := shown_of_mem_directives hl hd
  rw [place?]
  cases hf : d.form with
  | blockEnd => exact absurd hf hform
  | blockBegin =>
    obtain ⟨b, e, -, f, hm, -, -, -, hpartners, hsub⟩ := exists_end hl hd hf
    have hfmem : f ∈ (source.directives lang).1 := hsub.subset (by simp)
    refine ⟨⟨d, d.blockScope f, .block⟩, [], ?_, rfl, ?_, by simp⟩
    · simp [hpartners.partner_begin, find?_ordinal hl hfmem]
    · -- The block cannot end before it begins, so its scope is empty only where both are one place.
      have hle : d.anchor ≤ f.source.start := by
        have hprecedes := List.pairwise_iff_forall_sublist.mp (source.sorted_directives hl) hsub
        rw [hm.anchor_eq, ← hm.source_eq]
        exact hprecedes.1
      have hempty : (d.blockScope f).Empty ↔ f.source.start = d.anchor :=
        not_lt.trans ⟨fun hge => le_antisymm hge hle, fun heq => heq.le⟩
      rw [hempty]
      refine ⟨fun heq => ⟨f, hfmem, hpartners, heq⟩, ?_⟩
      rintro ⟨e, he, hpe, heq⟩
      have hordinal : e.ordinal = f.ordinal :=
        Option.some.inj (hpe.partner_begin.symm.trans hpartners.partner_begin)
      rwa [Directive.eq_of_ordinal_eq ((source.sorted_directives hl).imp fun h => h.2) he hfmem
        hordinal] at heq
  | single | merged =>
    have hnot : ¬d.Vacuous (source.directives lang).1 := by
      rintro ⟨e, -, hp, -⟩
      exact absurd (hf.symm.trans hp.form_begin) (by decide)
    dsimp only
    split
    · exact ⟨_, [], rfl, rfl, iff_of_false (nonempty_trailingScope hshown) hnot, by simp⟩
    · split
      · next scope hscope =>
        exact ⟨_, [], rfl, rfl, iff_of_false (nonempty_declarationScope hl hscope) hnot, by simp⟩
      · exact ⟨_, [], rfl, rfl, iff_of_false (nonempty_ownLineScope hshown) hnot, by simp⟩
      · refine ⟨_, _, rfl, rfl, iff_of_false (nonempty_ownLineScope hshown) hnot, ?_⟩
        simp [Diagnostic.kind, Diagnostic.Cause.kind]

lemma map_directive_placements (hl : lang.Legible) :
    (source.placements lang).map (·.directive) =
      (source.directives lang).1.filter (·.form ≠ .blockEnd) := by
  rw [placements, List.map_map, List.map_filterMap, ← List.filterMap_eq_filter]
  refine List.filterMap_congr fun d hd => ?_
  by_cases hform : d.form = .blockEnd
  · simp [place?, hform, Option.guard]
  · obtain ⟨p, ds, hp, hpd, -⟩ := exists_place? hl hd hform
    simp [hp, hpd, Option.guard, hform]

lemma nodup_placements (hl : lang.Legible) :
    ((source.placements lang).map (·.directive)).Nodup := by
  rw [map_directive_placements hl]
  refine List.Pairwise.filter _ ((source.sorted_directives hl).imp ?_)
  rintro d e hde rfl
  exact hde.2.false

lemma mem_directives_of_mem_placements (hl : lang.Legible) (hp : p ∈ source.placements lang) :
    p.directive ∈ (source.directives lang).1 ∧ p.directive.form ≠ .blockEnd := by
  have hmem : p.directive ∈ (source.placements lang).map (·.directive) := List.mem_map_of_mem hp
  rw [map_directive_placements hl] at hmem
  simpa using List.mem_filter.mp hmem

lemma eq_of_directive_eq (hl : lang.Legible) (hp : p ∈ source.placements lang)
    (hq : q ∈ source.placements lang) (h : p.directive = q.directive) : p = q :=
  List.inj_on_of_nodup_map (nodup_placements hl) hp hq h

lemma eq_of_source_start_eq (hl : lang.Legible) (hp : p ∈ source.placements lang)
    (hq : q ∈ source.placements lang)
    (h : p.directive.source.start = q.directive.source.start) : p = q := by
  have ho := source.inOrder_comments hl
  have hmem {p : Placement} (hp : p ∈ source.placements lang) :
      p.directive ∈ (source.reading lang).directives :=
    ((mem_directives hl).mp (mem_directives_of_mem_placements hl hp).1).1
  exact eq_of_directive_eq hl hp hq
    (((source.of_reading lang).orderly ho).eq_of_start_eq ho (hmem hp) (hmem hq) h)

lemma exists_placement (hl : lang.Legible) (hd : d ∈ (source.directives lang).1)
    (hform : d.form ≠ .blockEnd) : ∃ p ∈ source.placements lang, p.directive = d ∧
      (p.scope.Empty ↔ d.Vacuous (source.directives lang).1) := by
  obtain ⟨p, ds, hp, hpd, hempty, -⟩ := exists_place? hl hd hform
  exact ⟨p, List.mem_map.mpr ⟨_, List.mem_filterMap.mpr ⟨d, hd, hp⟩, rfl⟩, hpd, hempty⟩

end Source

def Scan.Refuses (s : Scan) (p : Position) : Prop :=
  ∃ g ∈ s.diagnostics, g.kind = .overlapNotNested ∧ (g.position = p ∨ g.related = some p)

def Scan.Governs (s : Scan) (d : Directive) (i : Nat) : Prop :=
  ∃ r : Region, s.regions[i]? = some r ∧ r.provenance.getLast? = some d.reference

namespace Scan

variable {path tag content : Bytes} {d : Directive} {p : Placement} {i : Nat} {r : Region}

def kept (tag content : Bytes) : List Placement :=
  Placement.nestable (Placement.ordered (Source.placements ⟨content⟩ (Language.ofTag tag)))

lemma mem_diagnostics {g : Diagnostic} (hg : g ∈ (scan path tag content).diagnostics) :
    g ∈ unknownLanguageDiagnostics tag content ∨
      g ∈ (Source.directives ⟨content⟩ (Language.ofTag tag)).2 ∨
      (∃ d ∈ (scan path tag content).directives, ∃ q, Source.place? ⟨content⟩ (Language.ofTag tag)
        (scan path tag content).directives d = some q ∧ g ∈ q.2) ∨
      g ∈ (Region.resolve (Source.placements ⟨content⟩ (Language.ofTag tag))).2 := by
  rcases List.mem_append.mp ((List.mergeSort_perm _ _).mem_iff.mp hg) with hg | hg
  · rcases List.mem_append.mp hg with hg | hg
    · exact (List.mem_append.mp hg).imp_right Or.inl
    · obtain ⟨q, hq, hg⟩ := List.mem_flatMap.mp hg
      obtain ⟨d, hd, hdq⟩ := List.mem_filterMap.mp hq
      exact Or.inr (Or.inr (Or.inl ⟨d, hd, q, hdq, hg⟩))
  · exact Or.inr (Or.inr (Or.inr hg))

lemma crossings_only {g : Diagnostic} (hg : g ∈ (scan path tag content).diagnostics)
    (hk : g.kind = .overlapNotNested) :
    g ∈ (Region.resolve (Source.placements ⟨content⟩ (Language.ofTag tag))).2 := by
  have hl := Language.legible_ofTag tag
  rcases mem_diagnostics hg with hg | hg | ⟨d, hd, q, hq, hg⟩ | hg
  · rw [unknownLanguageDiagnostics] at hg
    split at hg
    · obtain rfl := List.mem_singleton.mp hg
      exact absurd hk (by simp [Diagnostic.kind, Diagnostic.Cause.kind])
    · simp at hg
  · rcases List.mem_append.mp hg with hg | hg
    · exact absurd hk (DirectiveReader.reportedIn_endRun (Source.inOrder_comments _ hl) hg).1
    · obtain ⟨b, -, rfl⟩ := List.mem_map.mp hg
      exact absurd hk (by simp [Diagnostic.kind, Diagnostic.Cause.kind])
  · by_cases hform : d.form = .blockEnd
    · simp [Source.place?, hform] at hq
    · obtain ⟨p, ds, hp, -, -, hds⟩ := Source.exists_place? hl hd hform
      obtain rfl := Option.some.inj (hq.symm.trans hp)
      exact absurd hk (hds g hg)
  · exact hg

lemma refuses_iff {q : Position} : (scan path tag content).Refuses q ↔
    ∃ x ∈ Placement.crossings
        (Placement.ordered (Source.placements ⟨content⟩ (Language.ofTag tag))),
      x.2.directive.source.start = q ∨ x.1.directive.source.start = q := by
  constructor
  · rintro ⟨g, hg, hk, hq⟩
    obtain ⟨x, hx, rfl⟩ := List.mem_map.mp (crossings_only hg hk)
    exact ⟨x, hx, hq.imp_right Option.some.inj⟩
  · rintro ⟨x, hx, hq⟩
    refine ⟨Placement.crossingDiagnostic x.1 x.2, ?_, rfl, hq.imp_right (congrArg some)⟩
    apply (List.mergeSort_perm _ _).mem_iff.mpr
    apply List.mem_append_right
    exact List.mem_map.mpr ⟨x, hx, rfl⟩

lemma mem_kept_iff (path : Bytes) (hp : p ∈ Source.placements ⟨content⟩ (Language.ofTag tag)) :
    p ∈ kept tag content ↔ ¬p.scope.Empty ∧
      ¬(scan path tag content).Refuses p.directive.source.start := by
  have hl := Language.legible_ofTag tag
  have harranges :=
    Placement.arranges_ordered (Source.placements ⟨content⟩ (Language.ofTag tag))
  have hrefused : (scan path tag content).Refuses p.directive.source.start ↔
      p ∈ (Placement.crossings (Placement.ordered
        (Source.placements ⟨content⟩ (Language.ofTag tag)))).flatMap fun x => [x.1, x.2] := by
    rw [refuses_iff, List.mem_flatMap]
    refine exists_congr fun x => and_congr_right fun hx => ?_
    obtain ⟨h₁, h₂, -⟩ := harranges.crosses_of_mem_crossings hx
    simp only [List.mem_cons, List.not_mem_nil, or_false]
    constructor
    · rintro (h | h)
      · exact Or.inr (Source.eq_of_source_start_eq hl hp h₂ h.symm)
      · exact Or.inl (Source.eq_of_source_start_eq hl hp h₁ h.symm)
    · rintro (rfl | rfl)
      · exact Or.inr rfl
      · exact Or.inl rfl
  rw [kept, Placement.nestable, List.mem_filter, decide_eq_true_eq, hrefused,
    harranges.mem_iff]
  simp only [hp, true_and]

lemma mem_placements_of_mem_kept (hp : p ∈ kept tag content) :
    p ∈ Source.placements ⟨content⟩ (Language.ofTag tag) :=
  ((Placement.arranges_ordered _).mem_iff.mp (List.mem_of_mem_filter hp)).1

lemma nodup_kept (tag content : Bytes) : (kept tag content).Nodup := by
  refine List.Pairwise.filter _ ((Placement.arranges_ordered _).perm.nodup_iff.mpr ?_)
  exact List.Pairwise.filter _ (List.Nodup.of_map _
    (Source.nodup_placements (Language.legible_ofTag tag)))

lemma directive_of_mem_kept (path : Bytes) (hp : p ∈ kept tag content) :
    p.directive ∈ (scan path tag content).directives ∧ p.directive.form ≠ .blockEnd :=
  Source.mem_directives_of_mem_placements (Language.legible_ofTag tag) (mem_placements_of_mem_kept hp)

lemma governs_iff (hd : d ∈ (scan path tag content).directives) :
    (scan path tag content).Governs d i ↔ ∃ p, (kept tag content)[i]? = some p ∧ p.directive = d := by
  have hgrown : Region.Grown (kept tag content) (scan path tag content).regions :=
    Region.grown_resolve _
  have hlast {r : Region} (hr : (scan path tag content).regions[i]? = some r) :
      ∃ p, (kept tag content)[i]? = some p ∧
        r.provenance.getLast? = some p.directive.reference := by
    obtain ⟨p, hp, rfl⟩ := hgrown.region_eq hr
    exact ⟨p, hp, by simp [Placement.region]⟩
  constructor
  · rintro ⟨r, hr, hlastd⟩
    obtain ⟨p, hp, hlastp⟩ := hlast hr
    refine ⟨p, hp, ?_⟩
    have hordinal : p.directive.reference = d.reference :=
      Option.some.inj (hlastp.symm.trans hlastd)
    exact Directive.eq_of_ordinal_eq
      ((Source.sorted_directives _ (Language.legible_ofTag tag)).imp fun h => h.2)
      (directive_of_mem_kept path (List.mem_of_getElem? hp)).1 hd
      (congrArg Reference.ordinal hordinal)
  · rintro ⟨p, hp, rfl⟩
    have hlt : i < (scan path tag content).regions.length :=
      hgrown.length_eq ▸ (List.getElem?_eq_some_iff.mp hp).1
    obtain ⟨q, hq, hlastq⟩ := hlast (List.getElem?_eq_getElem hlt)
    obtain rfl := Option.some.inj (hp.symm.trans hq)
    exact ⟨_, List.getElem?_eq_getElem hlt, hlastq⟩

lemma exists_mem_kept_iff (hd : d ∈ (scan path tag content).directives) :
    (∃ p ∈ kept tag content, p.directive = d) ↔ d.form ≠ .blockEnd ∧
      ¬(scan path tag content).Refuses d.source.start ∧
        ¬d.Vacuous (scan path tag content).directives := by
  have hl := Language.legible_ofTag tag
  constructor
  · rintro ⟨p, hp, rfl⟩
    have hform := (directive_of_mem_kept path hp).2
    have hplacement := mem_placements_of_mem_kept hp
    obtain ⟨q, hq, hqp, hempty⟩ := Source.exists_placement hl hd hform
    obtain rfl := Source.eq_of_directive_eq hl hq hplacement hqp
    obtain ⟨hne, hrefuses⟩ := (mem_kept_iff path hplacement).mp hp
    exact ⟨hform, hrefuses, mt hempty.mpr hne⟩
  · rintro ⟨hform, hrefuses, hvacuous⟩
    obtain ⟨p, hp, rfl, hempty⟩ := Source.exists_placement hl hd hform
    exact ⟨p, (mem_kept_iff path hp).mpr ⟨mt hempty.mp hvacuous, hrefuses⟩, rfl⟩

/-- No directive is lost or governs two regions: the ones that stand for code and are neither refused
nor without effect are last in the provenance of one region each, and no region has another there. -/
theorem exists_unique_governed_region (path tag content : Bytes) :
    let result := scan path tag content
    (∀ d ∈ result.directives, d.form ≠ .blockEnd → ¬result.Refuses d.source.start →
      ¬d.Vacuous result.directives → ∃! i, result.Governs d i) ∧
    (∀ i < result.regions.length, ∃! d, d ∈ result.directives ∧ result.Governs d i) ∧
    (∀ d ∈ result.directives, ∀ i, result.Governs d i → d.form ≠ .blockEnd ∧
      ¬result.Refuses d.source.start ∧ ¬d.Vacuous result.directives) := by
  intro result
  refine ⟨fun d hd hform hrefuses hvacuous => ?_, fun i hi => ?_, fun d hd i h => ?_⟩
  · obtain ⟨p, hp, hpd⟩ := (exists_mem_kept_iff hd).mpr ⟨hform, hrefuses, hvacuous⟩
    obtain ⟨i, hi⟩ := List.mem_iff_getElem?.mp hp
    refine ⟨i, (governs_iff hd).mpr ⟨p, hi, hpd⟩, fun j hj => ?_⟩
    obtain ⟨q, hq, hqd⟩ := (governs_iff hd).mp hj
    obtain rfl := Source.eq_of_directive_eq (Language.legible_ofTag tag)
      (mem_placements_of_mem_kept hp) (mem_placements_of_mem_kept (List.mem_of_getElem? hq))
      (hpd.trans hqd.symm)
    exact (List.getElem?_inj (List.getElem?_eq_some_iff.mp hq).1 (nodup_kept tag content)).mp
      (hq.trans hi.symm)
  · have hlt : i < (kept tag content).length := (Region.grown_resolve _).length_eq ▸ hi
    have hp := List.getElem?_eq_getElem hlt
    have hmem := (directive_of_mem_kept path (List.mem_of_getElem? hp)).1
    refine ⟨_, ⟨hmem, (governs_iff hmem).mpr ⟨_, hp, rfl⟩⟩, fun e he => ?_⟩
    obtain ⟨q, hq, hqe⟩ := (governs_iff he.1).mp he.2
    obtain rfl := Option.some.inj (hp.symm.trans hq)
    exact hqe.symm
  · obtain ⟨p, hp, hpd⟩ := (governs_iff hd).mp h
    exact (exists_mem_kept_iff hd).mp ⟨p, List.mem_of_getElem? hp, hpd⟩

end Scan

end TrustRegions
