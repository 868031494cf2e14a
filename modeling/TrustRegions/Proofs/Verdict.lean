import TrustRegions.Proofs.Inheritance
import TrustRegions.Proofs.Lookup
import TrustRegions.Proofs.ScanRegions
import TrustRegions.Proofs.SpannedPositions
import TrustRegions.Trust.Rules

/-! The verdict on some lines agrees with what holds at the positions on these lines. -/

namespace TrustRegions

def LineRange.Has (range : LineRange) (p : Position) : Prop :=
  (range.lo ≤ p.line ∧ p.line ≤ range.hi) ∧ 1 ≤ p.column

lemma LineRange.lo_le_hi (range : LineRange) : range.lo ≤ range.hi := min_le_max

lemma deepestRegion?_eq_none {l : List (Region × Trust)} (h : deepestRegion? l = none) : l = [] := by
  cases l with
  | nil => rfl
  | cons r l =>
    rw [deepestRegion?] at h
    cases hl : deepestRegion? l with
    | none => simp [hl] at h
    | some d => by_cases hlt : r.1.depth < d.1.depth <;> simp [hl, hlt] at h

lemma exists_deepestRegion? {l : List (Region × Trust)} {e : Region × Trust} (h : e ∈ l) :
    ∃ d, deepestRegion? l = some d := by
  cases hd : deepestRegion? l with
  | some d => exact ⟨d, rfl⟩
  | none => simp [deepestRegion?_eq_none hd] at h

lemma deepestRegion?_spec {l : List (Region × Trust)} {d : Region × Trust}
    (h : deepestRegion? l = some d) : d ∈ l ∧ ∀ e ∈ l, e.1.depth ≤ d.1.depth := by
  induction l generalizing d with
  | nil => simp [deepestRegion?] at h
  | cons r l ih =>
    rw [deepestRegion?] at h
    cases hl : deepestRegion? l with
    | none =>
      rw [hl] at h
      obtain rfl : r = d := Option.some.inj h
      obtain rfl := deepestRegion?_eq_none hl
      simp
    | some e =>
      obtain ⟨he, hmax⟩ := ih hl
      rw [hl] at h
      dsimp only at h
      split at h
      · next hlt =>
        obtain rfl := Option.some.inj h
        refine ⟨List.mem_cons_of_mem r he, fun u hu => ?_⟩
        rcases List.mem_cons.mp hu with rfl | hu
        · exact hlt.le
        · exact hmax u hu
      · next hle =>
        obtain rfl := Option.some.inj h
        refine ⟨List.mem_cons_self, fun u hu => ?_⟩
        rcases List.mem_cons.mp hu with rfl | hu
        · exact le_rfl
        · exact (hmax u hu).trans (not_lt.mp hle)

namespace RegionIndex

open Region

variable {rs : List Region} {range : LineRange}

def stated (x : RegionIndex) (range : LineRange) : List (Region × Trust) :=
  (x.touching range.lo range.hi).filterMap fun r => r.1.effective.trust?.map fun t => (r.1, t)

lemma mem_stated {r : Region} {t : Trust} :
    (r, t) ∈ (ofRegions rs).stated range ↔
      r ∈ rs ∧ r.scope.TouchesLines range.lo range.hi ∧ r.effective.trust? = some t := by
  simp only [stated, touching, ofRegions, List.mem_filterMap, List.mem_filter, decide_eq_true_eq,
    Option.map_eq_some_iff, Prod.mk.injEq]
  constructor
  · rintro ⟨⟨q, i⟩, ⟨hq, htouch⟩, u, hu, rfl, rfl⟩
    exact ⟨List.fst_mem_of_mem_zipIdx hq, htouch, hu⟩
  · rintro ⟨hr, htouch, ht⟩
    obtain ⟨i, hi⟩ := List.mem_iff_getElem?.mp hr
    exact ⟨(r, i), ⟨List.mem_zipIdx_iff_getElem?.mpr hi, htouch⟩, t, ht, rfl, rfl⟩

lemma exists_stated (h : Forest rs) {p : Position} (hp : range.Has p) {g : Governance}
    (hg : (ofRegions rs).governance? p = some g) (ht : g.values.trust?.isSome) :
    ∃ d, d ∈ (ofRegions rs).stated range := by
  obtain ⟨r, hlast, hr, -, hvalues⟩ := exists_of_governance?_eq_some h hg
  obtain ⟨t, ht⟩ := Option.isSome_iff_exists.mp (hvalues ▸ ht)
  have hpr := (holds_iff_of_getElem? hr).mp hlast.1
  exact ⟨(r, t), mem_stated.mpr ⟨List.mem_of_getElem? hr, Span.touchesLines_of_mem hpr hp, ht⟩⟩

lemma exists_governed (h : Forest rs) (hv : ∀ r ∈ rs, r.attributes.TrustValid)
    (hcolumn : ∀ r ∈ rs, 1 ≤ r.scope.start.column) {d : Region × Trust}
    (hd : deepestRegion? ((ofRegions rs).stated range) = some d) :
    ∃ p i, range.Has p ∧ rs[i]? = some d.1 ∧
      (ofRegions rs).governance? p = some ⟨i, d.1.scope, d.1.effective⟩ := by
  obtain ⟨hmem, hmax⟩ := deepestRegion?_spec hd
  obtain ⟨hr, htouch, ht⟩ := mem_stated.mp hmem
  obtain ⟨p, hp, hrange⟩ := Span.exists_mem_of_touchesLines htouch range.lo_le_hi (hcolumn d.1 hr)
  obtain ⟨i, hi⟩ := List.mem_iff_getElem?.mp hr
  obtain ⟨j, hj⟩ := exists_isLast h ⟨d.1, hi, hp⟩
  have hij : i = j := by
    rcases (hj.2 i ⟨d.1, hi, hp⟩).eq_or_lt with he | hlt
    · exact he
    -- A region further in at the position would be deeper and have a trust level too.
    have ⟨r, hjr, hpr⟩ := hj.1
    have hc := covering_of_holds h ⟨d.1, hi, hp⟩ hj.1 hlt
    have hdepth := h.depth_lt_of_covering hc hi hjr
    obtain ⟨u, hu⟩ := Option.isSome_iff_exists.mp (h.trust_of_covering hv hc hi hjr (by simp [ht]))
    have hle := hmax (r, u) (mem_stated.mpr
      ⟨List.mem_of_getElem? hjr, Span.touchesLines_of_mem hpr hrange, hu⟩)
    exact absurd hle hdepth.not_ge
  subst hij
  exact ⟨p, i, hrange, hi, governance?_of_isLast h hj hi⟩

end RegionIndex

namespace TrustRules

lemma authority_lineVerdict? {rules : TrustRules} {path : Bytes} {range : LineRange} {v : Verdict}
    (h : rules.lineVerdict? path range = some v) : v.authority = .lines := by
  obtain ⟨rule, -, rfl⟩ := Option.map_eq_some_iff.mp h
  rfl

lemma authority_pathVerdict? {rules : TrustRules} {path : Bytes} {v : Verdict}
    (h : rules.pathVerdict? path = some v) : v.authority = .path := by
  obtain ⟨rule, -, rfl⟩ := Option.map_eq_some_iff.mp h
  rfl

def annotated (d : Region × Trust) : Verdict where
  trust := d.2
  authority := .directive
  reason := ascii "Inline @collab annotation"
  owner := d.1.effective.owner?
  intent := d.1.effective.intent?
  constraints := d.1.effective.constraints
  scope := some d.1.scope

variable {x : RegionIndex} {range : LineRange}

lemma verdict_of_deepest (rules : TrustRules) (path : Bytes) {d : Region × Trust}
    (h : deepestRegion? (x.stated range) = some d) :
    rules.verdict path (some x) (some range) = annotated d := by
  have hx : x.verdict? range = some (annotated d) := Option.map_eq_some_iff.mpr ⟨d, h, rfl⟩
  simp [verdict, hx]

lemma exists_deepest_of_directive {rules : TrustRules} {path : Bytes}
    (h : (rules.verdict path (some x) (some range)).authority = .directive) :
    ∃ d, deepestRegion? (x.stated range) = some d := by
  cases hd : deepestRegion? (x.stated range) with
  | some d => exact ⟨d, rfl⟩
  | none =>
    have hx : x.verdict? range = none := Option.map_eq_none_iff.mpr hd
    simp only [verdict, Option.bind_some, hx, Option.none_or] at h
    cases hl : rules.lineVerdict? path range with
    | some v => simp [hl, authority_lineVerdict? hl] at h
    | none =>
      cases hp : rules.pathVerdict? path with
      | some v => simp [hl, hp, authority_pathVerdict? hp] at h
      | none => simp [hl, hp, defaultVerdict] at h

end TrustRules

namespace Scan

lemma trustValid_of_mem {path tag content : Bytes}
    (hvalid : ∀ d ∈ (scan path tag content).diagnostics, d.kind ≠ .invalidTrustValue)
    {r : Region} (hr : r ∈ (scan path tag content).regions) : r.attributes.TrustValid := by
  obtain ⟨-, d, hd, he⟩ := region_spec hr
  rw [he]
  apply Directive.trustValid_of_trustDiagnostics
  apply List.eq_nil_iff_forall_not_mem.mpr
  intro e hed
  exact hvalid e (trustDiagnostics_subset hd hed) (Directive.kind_of_mem_trustDiagnostics hed)

/-- Annotations decide about some lines exactly if a position on them has a trust level, and the
verdict is what holds at one such position, in a region as deep as any that could have decided. -/
theorem verdict_directive_iff_governance (path tag content : Bytes)
    (hvalid : ∀ d ∈ (scan path tag content).diagnostics, d.kind ≠ .invalidTrustValue)
    (rules : TrustRules) (file : Bytes) (range : LineRange) :
    let s := scan path tag content
    let v := rules.verdict file (some s.index) (some range)
    (v.authority = .directive ↔
      ∃ p g, range.Has p ∧ s.index.governance? p = some g ∧ g.values.trust?.isSome) ∧
    (v.authority = .directive → ∃ p g r,
      range.Has p ∧ s.index.governance? p = some g ∧ g.values.trust? = some v.trust ∧
      g.values.owner? = v.owner ∧ g.values.intent? = v.intent ∧
      g.values.constraints = v.constraints ∧ some g.scope = v.scope ∧
      s.regions[g.region]? = some r ∧
      ∀ u ∈ s.regions, r.depth < u.depth → u.effective.trust?.isSome →
        ¬u.scope.TouchesLines range.lo range.hi) := by
  intro s v
  have hf : Region.Forest s.regions := forest_scan path tag content
  have hgoverned {d : Region × Trust} (hd : deepestRegion? (s.index.stated range) = some d) :=
    RegionIndex.exists_governed hf (fun r hr => trustValid_of_mem hvalid hr)
      (fun r hr => (region_spec hr).1) hd
  refine ⟨⟨fun hv => ?_, ?_⟩, fun hv => ?_⟩
  · obtain ⟨d, hd⟩ := TrustRules.exists_deepest_of_directive hv
    obtain ⟨p, i, hrange, -, hg⟩ := hgoverned hd
    obtain ⟨-, -, ht⟩ := RegionIndex.mem_stated.mp (deepestRegion?_spec hd).1
    exact ⟨p, _, hrange, hg, by simp [ht]⟩
  · rintro ⟨p, g, hrange, hg, ht⟩
    obtain ⟨e, he⟩ := RegionIndex.exists_stated hf hrange hg ht
    obtain ⟨d, hd⟩ := exists_deepestRegion? he
    exact congrArg Verdict.authority (rules.verdict_of_deepest file hd)
  · obtain ⟨d, hd⟩ := TrustRules.exists_deepest_of_directive hv
    obtain ⟨p, i, hrange, hi, hg⟩ := hgoverned hd
    obtain ⟨hmem, hmax⟩ := deepestRegion?_spec hd
    obtain ⟨-, -, ht⟩ := RegionIndex.mem_stated.mp hmem
    have hve : v = TrustRules.annotated d := rules.verdict_of_deepest file hd
    rw [hve]
    refine ⟨p, _, d.1, hrange, hg, ht, rfl, rfl, rfl, rfl, hi, fun u hu hlt hut htouch => ?_⟩
    obtain ⟨t, hut⟩ := Option.isSome_iff_exists.mp hut
    exact absurd (hmax (u, t) (RegionIndex.mem_stated.mpr ⟨hu, htouch, hut⟩)) hlt.not_ge

def annotatedDefinition : Scan :=
  scan (ascii "a.py") (ascii "python")
    (ascii "# @collab trust=READ_ONLY\n# @collab owner=core\ndef f():\n    return 1\ny = 2\n")

theorem verdict_directive_iff_governance_readOnly :
    (∀ d ∈ annotatedDefinition.diagnostics, d.kind ≠ .invalidTrustValue) ∧
    ∃ p g, LineRange.Has ⟨6, 4⟩ p ∧ annotatedDefinition.index.governance? p = some g ∧
      g.values.trust?.isSome := by
  have hvalid : ∀ d ∈ annotatedDefinition.diagnostics, d.kind ≠ .invalidTrustValue := by
    decide +kernel
  refine ⟨hvalid, ?_⟩
  exact (verdict_directive_iff_governance _ _ _ hvalid .starter (ascii "a.py") ⟨6, 4⟩).1.mp
    (by decide +kernel)

end Scan

end TrustRegions
