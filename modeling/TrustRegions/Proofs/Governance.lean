import TrustRegions.Proofs.Lookup
import TrustRegions.Proofs.Resolution

/-! What holds at a position, told by the placements alone: the attributes of those that have it and
cross no other, each laid over those before it, from the outside in. -/

namespace TrustRegions

namespace Region

variable {l : List Placement} {rs : List Region}

lemma map_snd_enclosing (rs : List Region) (t : Span) :
    (enclosing rs t).map (·.2) = (rs.filter fun r => r.scope.Covers t).reverse := by
  induction rs using List.reverseRecOn with
  | nil => rfl
  | append_singleton rs r ih =>
    rw [enclosing_concat, List.filter_append, List.filter_singleton]
    by_cases h : r.scope.Covers t
    · rw [if_pos h, List.map_cons, ih, decide_eq_true h]
      simp
    · rw [if_neg h, ih, decide_eq_false h]
      simp

lemma parent_eq_getLast? {t : Span} {p : Position} (hl : ∀ r ∈ rs, r.scope.Leads t) (hp : p ∈ t) :
    (enclosing rs t).head?.map (·.2) = (rs.filter fun r => p ∈ r.scope).getLast? := by
  have hfilter : (rs.filter fun r => r.scope.Covers t) = rs.filter fun r => p ∈ r.scope := by
    refine List.filter_congr fun r hr => ?_
    rw [decide_eq_decide]
    exact ⟨fun hc => hc.mem hp, fun hr' => (hl r hr).covers_of_mem hr' hp⟩
  rw [← List.head?_map, map_snd_enclosing, List.head?_reverse, hfilter]

lemma Grown.effective_at (h : Grown l rs) (hl : l.Pairwise fun a b => a.scope.Leads b.scope)
    (p : Position) :
    (rs.filter fun r => p ∈ r.scope).getLast?.elim ∅ (·.effective) =
      (l.filter fun s => p ∈ s.scope).foldl (fun a s => a.overlay s.directive.attributes) ∅ := by
  induction h with
  | nil => rfl
  | @snoc l rs s hg ih =>
    obtain ⟨hl, -, hnext⟩ := List.pairwise_append.mp hl
    have ih := ih hl
    have hleads : ∀ r ∈ rs, r.scope.Leads s.scope :=
      hg.forall_scope (·.Leads s.scope) fun a ha => hnext a ha s (List.mem_singleton_self s)
    by_cases hp : p ∈ s.scope
    · rw [List.filter_append, List.filter_append, List.filter_singleton, List.filter_singleton,
        Placement.scope_region, decide_eq_true hp, cond_true, cond_true, List.getLast?_concat,
        List.foldl_append, ← ih, ← parent_eq_getLast? hleads hp]
      cases (enclosing rs s.scope).head? <;> rfl
    · simpa [hp] using ih

lemma Grown.scopes_at (h : Grown l rs) (p : Position) :
    (rs.filter fun r => p ∈ r.scope).map (·.scope) =
      (l.filter fun s => p ∈ s.scope).map (·.scope) := by
  have hs := congrArg (List.filter fun t : Span => p ∈ t) h.scopes
  rwa [List.filter_map, List.filter_map] at hs

def governing (placements : List Placement) (p : Position) : List Placement :=
  placements.filter fun a => Placement.Uncrossed placements a ∧ p ∈ a.scope

lemma governing_perm (placements : List Placement) (p : Position) :
    ((Placement.nestable (Placement.ordered placements)).filter fun s => p ∈ s.scope).Perm
      (governing placements p) := by
  refine ((Placement.arranges_ordered placements).nestable_perm.filter _).trans (List.Perm.of_eq ?_)
  rw [List.filter_filter, governing]
  refine List.filter_congr fun a _ => ?_
  rw [← Bool.decide_and, decide_eq_decide, and_comm]

lemma before_of_not_before {a b : Placement} (h : ¬b.Before a)
    (hne : a.directive.ordinal ≠ b.directive.ordinal) : a.Before b := by
  grind

lemma not_before_of_before {a b : Placement} (h : a.Before b) : ¬b.Before a := by
  grind

lemma pairwise_before (placements : List Placement)
    (hord : (placements.map (·.directive.ordinal)).Nodup) (p : Position) :
    ((Placement.nestable (Placement.ordered placements)).filter fun s => p ∈ s.scope).Pairwise
      Placement.Before := by
  have hout := Placement.outsideIn_nestable (Placement.outsideIn_ordered placements)
  have hsorted := hout.sorted.filter fun s => p ∈ s.scope
  have hnodup : ((governing placements p).map (·.directive.ordinal)).Nodup :=
    hord.sublist (List.filter_sublist.map _)
  rw [← ((governing_perm placements p).map _).nodup_iff, List.Nodup, List.pairwise_map] at hnodup
  exact (hsorted.and hnodup).imp fun h => before_of_not_before h.1 h.2

/-- What the index answers at a position depends on nothing but the placements that have a say there,
in their one order from the outside in. -/
theorem governance?_resolve (placements : List Placement)
    (hord : (placements.map (·.directive.ordinal)).Nodup) (p : Position) :
    ∃ l : List Placement,
      (∀ l' : List Placement,
        l'.Perm (governing placements p) ∧ l'.Pairwise Placement.Before ↔ l' = l) ∧
      ((RegionIndex.ofRegions (resolve placements).1).governance? p).map
          (fun g => (g.scope, g.values)) =
        l.getLast?.map fun last =>
          (last.scope, l.foldl (fun a s => a.overlay s.directive.attributes) ∅) := by
  have hperm := governing_perm placements p
  have hbefore := pairwise_before placements hord p
  have hg := grown_resolve placements
  have hscopes := hg.scopes_at p
  have heffective := hg.effective_at
    (Placement.leads_nestable (Placement.outsideIn_ordered placements)) p
  refine ⟨_, fun l' => ⟨fun h => ?_, fun h => h ▸ ⟨hperm, hbefore⟩⟩, ?_⟩
  · apply (h.1.trans hperm.symm).eq_of_pairwise _ h.2 hbefore
    intro a b _ _ hab hba
    exact absurd hba (not_before_of_before hab)
  · rw [RegionIndex.governance?_eq_getLast? (forest_resolve placements), ← heffective]
    have hlast := congrArg List.getLast? hscopes
    rw [List.getLast?_map, List.getLast?_map] at hlast
    cases hr : ((resolve placements).1.filter fun r => p ∈ r.scope).getLast? with
    | none =>
      rw [hr, Option.map_none, eq_comm, Option.map_eq_none_iff] at hlast
      rw [hlast]
      rfl
    | some r =>
      rw [hr, Option.map_some, eq_comm, Option.map_eq_some_iff] at hlast
      obtain ⟨last, hl, hscope⟩ := hlast
      rw [hl, Option.map_some, Option.map_some, hscope]
      rfl

def overlapping : List Placement :=
  [single 0 .readOnly ⟨⟨1, 1⟩, ⟨10, 1⟩⟩, single 1 .supervised ⟨⟨2, 1⟩, ⟨5, 1⟩⟩,
    single 2 .autonomous ⟨⟨3, 1⟩, ⟨3, 1⟩⟩, single 3 .autonomous ⟨⟨4, 1⟩, ⟨7, 1⟩⟩,
    single 4 .suggestOnly ⟨⟨1, 1⟩, ⟨10, 1⟩⟩]

theorem governance?_resolve_overlapping :
    (overlapping.map (·.directive.ordinal)).Nodup ∧
    ((RegionIndex.ofRegions (resolve overlapping).1).governance? ⟨4, 3⟩).map
        (fun g => (g.scope, g.values.trust?)) =
      some (⟨⟨1, 1⟩, ⟨10, 1⟩⟩, some .suggestOnly) := by
  refine ⟨by decide, ?_⟩
  obtain ⟨l, honly, hg⟩ := governance?_resolve overlapping (by decide) ⟨4, 3⟩
  let outer : Span := ⟨⟨1, 1⟩, ⟨10, 1⟩⟩
  obtain rfl := (honly [single 0 .readOnly outer, single 4 .suggestOnly outer]).mp
    ⟨by decide, by decide⟩
  have htrust := congrArg (Option.map fun q : Span × Attributes => (q.1, q.2.trust?)) hg
  rw [Option.map_map] at htrust
  exact htrust.trans (by decide)

end Region

end TrustRegions
