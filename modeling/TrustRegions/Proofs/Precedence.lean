import Mathlib.Data.List.Forall2
import TrustRegions.Proofs.Verdict

/-! A verdict comes from the first source that has one to give. The sources after that one, and what comes
after the rule that decides, have no part in it, and neither has the way that slashes are written. -/

namespace TrustRegions

section Respelling

def isSlash (c : UInt8) : Bool := c == byte '/' || c == backslash

def Bytes.Respells : Bytes → Bytes → Prop :=
  List.Forall₂ fun b c => b = c ∨ isSlash b = true ∧ isSlash c = true

def PathRule.Respells (r r' : PathRule) : Prop :=
  r.pattern.Respells r'.pattern ∧ r' = { r with pattern := r'.pattern }

def LineRule.Respells (r r' : LineRule) : Prop :=
  r.file.Respells r'.file ∧ r' = { r with file := r'.file }

structure TrustRules.Respells (rules rules' : TrustRules) : Prop where
  default_eq : rules.default = rules'.default
  paths : List.Forall₂ PathRule.Respells rules.paths rules'.paths
  lines : List.Forall₂ LineRule.Respells rules.lines rules'.lines

variable {s t : Bytes}

lemma Bytes.Respells.toSlashes_eq (h : s.Respells t) : s.toSlashes = t.toSlashes := by
  induction h with
  | nil => rfl
  | @cons b c s t hbc _ ih =>
    have hslash {c : UInt8} (hc : isSlash c = true) :
        (if c = backslash then byte '/' else c) = byte '/' := by
      simp only [isSlash, Bool.or_eq_true, beq_iff_eq] at hc
      rcases hc with rfl | rfl <;> rfl
    rw [toSlashes, List.map_cons, ← toSlashes, ih]
    rcases hbc with rfl | ⟨hb, hc⟩
    · rfl
    · rw [hslash hb, ← hslash hc]
      rfl

lemma map_find?_congr {α β : Type} {R : α → α → Prop} {p q : α → Bool} {f g : α → β} {l l' : List α}
    (h : List.Forall₂ R l l') (hR : ∀ a b, R a b → p a = q b ∧ f a = g b) :
    (l.find? p).map f = (l'.find? q).map g := by
  induction h with
  | nil => rfl
  | @cons a b l l' hab _ ih =>
    obtain ⟨hpq, hfg⟩ := hR a b hab
    rw [List.find?_cons, List.find?_cons, hpq]
    split
    · exact congrArg some hfg
    · exact ih

lemma map_find?_eq_some_iff {α β : Type} {p : α → Bool} {f : α → β} {l : List α} {b : β} :
    (l.find? p).map f = some b ↔ ∃ before a after, l = before ++ a :: after ∧
      (∀ x ∈ before, p x = false) ∧ p a = true ∧ f a = b := by
  rw [Option.map_eq_some_iff]
  constructor
  · rintro ⟨a, ha, hb⟩
    obtain ⟨hp, before, after, hl, hbefore⟩ := List.find?_eq_some_iff_append.mp ha
    exact ⟨before, a, after, hl, by simpa using hbefore, hp, hb⟩
  · rintro ⟨before, a, after, hl, hbefore, hp, hb⟩
    refine ⟨a, List.find?_eq_some_iff_append.mpr ⟨hp, before, after, hl, ?_⟩, hb⟩
    simpa using hbefore

end Respelling

def PathRule.verdict (rule : PathRule) : Verdict where
  trust := rule.trust
  authority := .path
  reason := rule.reason
  owner := if rule.owner.isEmpty then none else some rule.owner

def LineRule.verdict (rule : LineRule) : Verdict where
  trust := rule.trust
  authority := .lines
  reason := rule.reason

def directiveVerdict? (regions : Option RegionIndex) (lines : Option LineRange) : Option Verdict :=
  lines.bind fun range => regions.bind fun x => x.verdict? range

namespace TrustRules

variable {rules : TrustRules} {path : Bytes} {regions : Option RegionIndex} {lines : Option LineRange}
  {v : Verdict}

inductive Decides (rules : TrustRules) (path : Bytes) (regions : Option RegionIndex)
    (lines : Option LineRange) : Verdict → Prop
  | directive {v : Verdict} : directiveVerdict? regions lines = some v → Decides rules path regions lines v
  | lineRule {range : LineRange} {before after : List LineRule} {rule : LineRule} :
      directiveVerdict? regions lines = none → lines = some range → rules.lines = before ++ rule :: after →
      (∀ r ∈ before, r.applies path range = false) → rule.applies path range = true →
      Decides rules path regions lines rule.verdict
  | pathRule {before after : List PathRule} {rule : PathRule} :
      directiveVerdict? regions lines = none → lines.bind (rules.lineVerdict? path) = none →
      rules.paths = before ++ rule :: after →
      (∀ r ∈ before, Glob.matchesPath r.pattern path = false) →
      Glob.matchesPath rule.pattern path = true → Decides rules path regions lines rule.verdict
  | default : directiveVerdict? regions lines = none → lines.bind (rules.lineVerdict? path) = none →
      rules.pathVerdict? path = none → Decides rules path regions lines rules.defaultVerdict

lemma lineVerdict?_eq_some_iff {range : LineRange} : rules.lineVerdict? path range = some v ↔
    ∃ before rule after, rules.lines = before ++ rule :: after ∧
      (∀ r ∈ before, r.applies path range = false) ∧ rule.applies path range = true ∧
      rule.verdict = v :=
  map_find?_eq_some_iff

lemma pathVerdict?_eq_some_iff : rules.pathVerdict? path = some v ↔
    ∃ before rule after, rules.paths = before ++ rule :: after ∧
      (∀ r ∈ before, Glob.matchesPath r.pattern path = false) ∧
      Glob.matchesPath rule.pattern path = true ∧ rule.verdict = v :=
  map_find?_eq_some_iff

lemma verdict_eq (rules : TrustRules) (path : Bytes) (regions : Option RegionIndex)
    (lines : Option LineRange) : rules.verdict path regions lines =
      (((directiveVerdict? regions lines).or (lines.bind (rules.lineVerdict? path))).or
        (rules.pathVerdict? path)).getD rules.defaultVerdict := rfl

lemma decides_verdict (rules : TrustRules) (path : Bytes) (regions : Option RegionIndex)
    (lines : Option LineRange) : rules.Decides path regions lines (rules.verdict path regions lines) := by
  rw [verdict_eq]
  cases ha : directiveVerdict? regions lines with
  | some v => exact .directive ha
  | none =>
    cases hl : lines.bind (rules.lineVerdict? path) with
    | some v =>
      obtain ⟨range, hrange, hv⟩ := Option.bind_eq_some_iff.mp hl
      obtain ⟨before, rule, after, hlines, hbefore, hrule, rfl⟩ := lineVerdict?_eq_some_iff.mp hv
      exact .lineRule ha hrange hlines hbefore hrule
    | none =>
      cases hp : rules.pathVerdict? path with
      | some v =>
        obtain ⟨before, rule, after, hpaths, hbefore, hrule, rfl⟩ := pathVerdict?_eq_some_iff.mp hp
        exact .pathRule ha hl hpaths hbefore hrule
      | none => exact .default ha hl hp

lemma Decides.verdict_eq (h : rules.Decides path regions lines v) :
    rules.verdict path regions lines = v := by
  rw [TrustRules.verdict_eq]
  cases h with
  | directive ha =>
    rw [ha]
    rfl
  | lineRule ha hrange hlines hbefore hrule =>
    have hl := lineVerdict?_eq_some_iff.mpr ⟨_, _, _, hlines, hbefore, hrule, rfl⟩
    rw [ha, hrange, Option.bind_some, hl]
    rfl
  | pathRule ha hl hpaths hbefore hrule =>
    have hp := pathVerdict?_eq_some_iff.mpr ⟨_, _, _, hpaths, hbefore, hrule, rfl⟩
    rw [ha, hl, hp]
    rfl
  | default ha hl hp =>
    rw [ha, hl, hp]
    rfl

lemma authority_directiveVerdict? (h : directiveVerdict? regions lines = some v) : v.authority = .directive := by
  obtain ⟨range, -, h⟩ := Option.bind_eq_some_iff.mp h
  obtain ⟨x, -, h⟩ := Option.bind_eq_some_iff.mp h
  obtain ⟨d, -, rfl⟩ := Option.map_eq_some_iff.mp h
  rfl

lemma verdict_swap (rules : TrustRules) (path : Bytes) (regions : Option RegionIndex)
    (range : LineRange) : rules.verdict path regions (some ⟨range.last, range.first⟩) =
      rules.verdict path regions (some range) := by
  have hlo : LineRange.lo ⟨range.last, range.first⟩ = range.lo := Nat.min_comm ..
  have hhi : LineRange.hi ⟨range.last, range.first⟩ = range.hi := Nat.max_comm ..
  have hdirective (x : RegionIndex) :
      x.verdict? ⟨range.last, range.first⟩ = x.verdict? range := by
    simp only [RegionIndex.verdict?, hlo, hhi]
  have hrules : rules.lineVerdict? path ⟨range.last, range.first⟩ = rules.lineVerdict? path range := by
    simp only [lineVerdict?, LineRule.applies, hlo, hhi]
  simp only [verdict, Option.bind_some, hdirective, hrules]

lemma Respells.verdict_eq {rules' : TrustRules} {path' : Bytes} (h : rules.Respells rules')
    (hpath : path.Respells path') (regions : Option RegionIndex) (lines : Option LineRange) :
    rules'.verdict path' regions lines = rules.verdict path regions lines := by
  have hline (range : LineRange) : rules.lineVerdict? path range = rules'.lineVerdict? path' range := by
    refine map_find?_congr h.lines fun r r' ⟨hfile, hr⟩ => ?_
    rw [hr]
    exact ⟨by simp only [LineRule.applies, hfile.toSlashes_eq, hpath.toSlashes_eq], rfl⟩
  have hpattern : rules.pathVerdict? path = rules'.pathVerdict? path' := by
    refine map_find?_congr h.paths fun r r' ⟨hfile, hr⟩ => ?_
    rw [hr]
    exact ⟨by simp only [Glob.matchesPath, hfile.toSlashes_eq, hpath.toSlashes_eq], rfl⟩
  have hdefault : rules.defaultVerdict = rules'.defaultVerdict := by
    simp only [defaultVerdict, h.default_eq]
  rw [TrustRules.verdict_eq, TrustRules.verdict_eq, funext hline, hpattern, hdefault]

/-- A verdict of an annotation is the same whatever the rules are. One of a rule for lines is the same
whatever comes after that rule and whatever the rules for paths and the default are, and one of a rule for
paths whatever comes after that rule and whatever the default is. And no verdict depends on the order in which
the ends of the lines are given, or on which of the two slashes is written where. -/
theorem verdict_by_precedence (rules : TrustRules) (path : Bytes) (regions : Option RegionIndex)
    (lines : Option LineRange) :
    let v := rules.verdict path regions lines
    (v.authority = .directive → ∀ rules' : TrustRules, rules'.verdict path regions lines = v) ∧
    (v.authority = .lines → ∃ range before rule after, lines = some range ∧
      rules.lines = before ++ rule :: after ∧ (∀ r ∈ before, r.applies path range = false) ∧
      rule.applies path range = true ∧ v = rule.verdict ∧
      ∀ default paths after', TrustRules.verdict ⟨default, paths, before ++ rule :: after'⟩ path regions
        lines = v) ∧
    (v.authority = .path → ∃ before rule after, rules.paths = before ++ rule :: after ∧
      (∀ r ∈ before, Glob.matchesPath r.pattern path = false) ∧
      Glob.matchesPath rule.pattern path = true ∧ v = rule.verdict ∧
      ∀ default after', TrustRules.verdict ⟨default, before ++ rule :: after', rules.lines⟩ path regions
        lines = v) ∧
    (∀ range, lines = some range → rules.verdict path regions (some ⟨range.last, range.first⟩) = v) ∧
    ∀ rules' path', rules.Respells rules' → path.Respells path' →
      rules'.verdict path' regions lines = v := by
  intro v
  have hv : rules.Decides path regions lines v := rules.decides_verdict path regions lines
  generalize v = v at hv ⊢
  refine ⟨fun h rules' => ?_, fun h => ?_, fun h => ?_, fun range hrange => ?_, fun rules' path' hr hp => ?_⟩
  · cases hv with
    | directive ha => exact (Decides.directive ha).verdict_eq
    | _ => cases h
  · cases hv with
    | directive ha => exact absurd ((authority_directiveVerdict? ha).symm.trans h) (by decide)
    | @lineRule range before after rule ha hrange hlines hbefore hrule =>
      refine ⟨range, before, rule, after, hrange, hlines, hbefore, hrule, rfl, ?_⟩
      intro default paths after'
      have hdecides : Decides ⟨default, paths, before ++ rule :: after'⟩ path regions lines
          rule.verdict := .lineRule ha hrange rfl hbefore hrule
      exact hdecides.verdict_eq
    | _ => cases h
  · cases hv with
    | directive ha => exact absurd ((authority_directiveVerdict? ha).symm.trans h) (by decide)
    | @pathRule before after rule ha hl hpaths hbefore hrule =>
      refine ⟨before, rule, after, hpaths, hbefore, hrule, rfl, fun default after' => ?_⟩
      have hdecides : Decides ⟨default, before ++ rule :: after', rules.lines⟩ path regions lines
          rule.verdict := .pathRule ha hl rfl hbefore hrule
      exact hdecides.verdict_eq
    | _ => cases h
  · rw [verdict_swap, ← hrange]
    exact hv.verdict_eq
  · rw [hr.verdict_eq hp]
    exact hv.verdict_eq

def testRules : TrustRules :=
  { starter with lines := [⟨ascii "test/a.py", 5, 9, .suggestOnly, ascii "hot path"⟩] }

theorem verdict_by_precedence_testRules :
    let path := ascii "src/test/a.py"
    let regions := some Scan.annotatedDefinition.index
    ((testRules.verdict path regions (some ⟨4, 3⟩)).authority = .directive ∧
      ∀ rules : TrustRules, rules.verdict path regions (some ⟨4, 3⟩) =
        testRules.verdict path regions (some ⟨4, 3⟩)) ∧
    ((testRules.verdict path regions (some ⟨5, 5⟩)).authority = .lines ∧
      ∀ default paths, TrustRules.verdict ⟨default, paths, testRules.lines⟩ path regions (some ⟨5, 5⟩) =
        testRules.verdict path regions (some ⟨5, 5⟩)) ∧
    (testRules.verdict path regions none).authority = .path ∧
      ∀ default, TrustRules.verdict ⟨default, testRules.paths, testRules.lines⟩ path regions none =
        testRules.verdict path regions none := by
  intro path regions
  have hdirective : (testRules.verdict path regions (some ⟨4, 3⟩)).authority = .directive := by
    decide +kernel
  have hline : (testRules.verdict path regions (some ⟨5, 5⟩)).authority = .lines := by decide +kernel
  have hpath : (testRules.verdict path regions none).authority = .path := by decide +kernel
  refine ⟨⟨hdirective, ?_⟩, ⟨hline, fun default paths => ?_⟩, hpath, fun default => ?_⟩
  · exact (verdict_by_precedence testRules path regions (some ⟨4, 3⟩)).1 hdirective
  · obtain ⟨_, before, rule, after, -, hlines, -, -, -, hsame⟩ :=
      (verdict_by_precedence testRules path regions (some ⟨5, 5⟩)).2.1 hline
    rw [hlines]
    exact hsame default paths after
  · obtain ⟨before, rule, after, hpaths, -, -, -, hsame⟩ :=
      (verdict_by_precedence testRules path regions none).2.2.1 hpath
    rw [hpaths]
    exact hsame default after

end TrustRules

end TrustRegions
