import TrustRegions.Proofs.Growth

/-! The regions of any list of placements form a forest, listed depth first, of all the scopes that
cross no other; each pair that crosses is reported once. -/

namespace TrustRegions

namespace Region

variable {placements : List Placement} {rs : List Region}

structure DepthFirst (rs : List Region) : Prop where
  outer_first : rs.Pairwise fun a b => b.scope.Covers a.scope → a.scope = b.scope
  before : ∀ i j, AncestorOf rs i j → i < j
  together : ∀ i j k, i < j → j < k → AncestorOf rs i k → AncestorOf rs i j

lemma Forest.depthFirst (h : Forest rs) : DepthFirst rs where
  outer_first := by
    apply h.leads.imp_of_mem
    intro a b ha _ hab hba
    have hstart := Span.start_mem (h.nonempty a ha)
    exact (hab.covers_of_mem hstart (hba.mem hstart)).antisymm hba
  before i j ha := (h.ancestorOf_iff.mp ha).1
  together i j k hij hjk ha :=
    h.ancestorOf_iff.mpr (h.covering_between hij hjk (h.ancestorOf_iff.mp ha))

structure Shows (rs : List Region) (s : Placement) (r : Region) : Prop where
  scope : r.scope = s.scope
  kind : r.kind = s.kind
  form : r.form = s.directive.form
  attributes : r.attributes = s.directive.attributes
  provenance : r.provenance =
    (r.outer? rs).elim [] (·.provenance) ++ [s.directive.reference]

lemma shows_region {s : Placement} {parent : Option (Nat × Region)}
    (ho : (s.region parent).outer? rs = parent.map (·.2)) : Shows rs s (s.region parent) := by
  refine ⟨rfl, rfl, rfl, rfl, ?_⟩
  rw [ho]
  cases parent <;> rfl

lemma Grown.shows {l : List Placement} (h : Grown l rs) : List.Forall₂ (Shows rs) l rs := by
  rw [List.forall₂_iff_get]
  refine ⟨h.length_eq.symm, fun i hl hr => ?_⟩
  obtain ⟨s, parent, hs, he, ho, -⟩ := h.exists_inside (List.getElem?_eq_getElem hr)
  obtain rfl : l[i] = s := (List.getElem?_eq_some_iff.mp hs).2
  simp only [List.get_eq_getElem]
  rw [he] at ho ⊢
  exact shows_region ho

lemma exists_of_mem_resolve {r : Region} (hr : r ∈ (resolve placements).1) :
    ∃ s ∈ placements, Shows (resolve placements).1 s r := by
  obtain ⟨i, hi⟩ := List.mem_iff_getElem?.mp hr
  obtain ⟨s, parent, hs, rfl, ho, -⟩ := (grown_resolve placements).exists_inside hi
  have hmem := (Placement.arranges_ordered placements).nestable_perm.mem_iff.mp
    (List.mem_of_getElem? hs)
  exact ⟨s, List.mem_of_mem_filter hmem, shows_region ho⟩

/-- What the regions and the reports are, for any placements whatever and any order from the outside in
that a sort can leave them in. -/
theorem resolve_forest_and_crossings (placements : List Placement) :
    (∃ l, Placement.Arranges l placements ∧ resolve placements = resolveOrdered l) ∧
    ∀ l, Placement.Arranges l placements →
      let regions := (resolveOrdered l).1
      let scopes := placements.filter fun a => ¬a.scope.Empty
      (∃ kept, kept.Perm (placements.filter (Placement.Uncrossed placements ·)) ∧
        List.Forall₂ (Shows regions) kept regions) ∧
      (regions.Pairwise fun a b => a.scope.Covers b.scope ∨ ¬a.scope.Overlaps b.scope) ∧
      DepthFirst regions ∧
      (∀ j i, AncestorOf regions j i ↔ Covering regions j i) ∧
      (∀ i r, regions[i]? = some r →
        (∀ j, r.parent = some j ↔ Covering regions j i ∧ ∀ k, Covering regions k i → k ≤ j) ∧
        (r.parent = none ↔ ∀ j, ¬Covering regions j i) ∧
        r.depth = {j | AncestorOf regions j i}.ncard ∧
        r.effective = ((r.outer? regions).elim ∅ (·.effective)).overlay r.attributes) ∧
      ∃ pairs : List (Placement × Placement),
        (pairs.map fun p => s(p.1, p.2)).Perm
          (scopes.sym2.filter (· ∈ Sym2.fromRel Placement.crosses_symm)) ∧
        (resolveOrdered l).2.map (fun d => (d.kind, d.position, d.related)) = pairs.map fun p =>
          (.overlapNotNested, p.2.directive.source.start, some p.1.directive.source.start) := by
  refine ⟨⟨_, Placement.arranges_ordered placements, rfl⟩, fun l hl => ?_⟩
  intro regions scopes
  have ho := hl.outsideIn
  have hf : Forest regions := forest_resolveOrdered ho
  refine ⟨⟨_, hl.nestable_perm, (grown_resolveOrdered ho).shows⟩, ?_, hf.depthFirst, ?_, ?_, ?_⟩
  · exact hf.leads.imp fun h => h.nested_or_disjoint
  · exact fun j i => hf.ancestorOf_iff
  · intro i r hr
    exact ⟨hf.parent_iff hr, hf.parent_eq_none_iff hr, hf.depth_eq_ncard hr,
      hf.effective_eq r (List.mem_of_getElem? hr)⟩
  · refine ⟨Placement.crossings l, ?_, ?_⟩
    · rw [Placement.crossings_eq ho]
      exact hl.perm.sym2.filter _
    · simp only [resolveOrdered, List.map_map]
      rfl

def single (ordinal : Nat) (trust : Trust) (scope : Span) : Placement :=
  ⟨⟨ordinal, .single, .ofList [(ascii "trust", .scalar trust.tag)], scope, scope.stop, false, none⟩,
    scope, .declaration⟩

def tied : List Placement :=
  [single 0 .readOnly ⟨⟨1, 1⟩, ⟨10, 1⟩⟩, single 0 .supervised ⟨⟨1, 1⟩, ⟨10, 1⟩⟩,
    single 1 .autonomous ⟨⟨2, 1⟩, ⟨5, 1⟩⟩, single 2 .autonomous ⟨⟨4, 1⟩, ⟨7, 1⟩⟩]

def tiedOtherwise : List Placement :=
  [single 0 .supervised ⟨⟨1, 1⟩, ⟨10, 1⟩⟩, single 0 .readOnly ⟨⟨1, 1⟩, ⟨10, 1⟩⟩,
    single 1 .autonomous ⟨⟨2, 1⟩, ⟨5, 1⟩⟩, single 2 .autonomous ⟨⟨4, 1⟩, ⟨7, 1⟩⟩]

theorem resolve_forest_and_crossings_tied :
    Placement.Arranges tiedOtherwise tied ∧
    DepthFirst (resolveOrdered tiedOtherwise).1 ∧
    (∃ kept, kept.Perm (tied.filter (Placement.Uncrossed tied ·)) ∧
      List.Forall₂ (Shows (resolveOrdered tiedOtherwise).1) kept (resolveOrdered tiedOtherwise).1) ∧
    (resolveOrdered tiedOtherwise).1.map (·.effective.trust?) = [some .supervised, some .readOnly] ∧
    (resolveOrdered tiedOtherwise).2.length = 1 := by
  have harranges : Placement.Arranges tiedOtherwise tied := ⟨by decide, by decide⟩
  obtain ⟨-, hall⟩ := resolve_forest_and_crossings tied
  obtain ⟨hshows, -, hdepth, -⟩ := hall tiedOtherwise harranges
  exact ⟨harranges, hdepth, hshows, by decide, by decide⟩

end Region

end TrustRegions
