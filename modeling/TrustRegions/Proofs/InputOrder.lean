import TrustRegions.Proofs.Governance

/-! The order in which placements come does not show in their regions and reports: where each has an
ordinal of its own, they can be put in one order from the outside in and no other. -/

namespace TrustRegions

namespace Placement

variable {placements others l l' : List Placement} {a b : Placement}

lemma Arranges.of_perm (h : Arranges l others) (hp : others.Perm placements) :
    Arranges l placements :=
  ⟨h.perm.trans (hp.filter _), h.sorted⟩

lemma Arranges.nodup_ordinals (h : Arranges l placements)
    (hord : (placements.map (·.directive.ordinal)).Nodup) :
    (l.map (·.directive.ordinal)).Nodup :=
  (h.perm.map _).nodup_iff.mpr (hord.sublist (List.filter_sublist.map _))

lemma Arranges.pairwise_before (h : Arranges l placements)
    (hord : (placements.map (·.directive.ordinal)).Nodup) : l.Pairwise Before := by
  have hnodup := h.nodup_ordinals hord
  rw [List.Nodup, List.pairwise_map] at hnodup
  exact (h.sorted.and hnodup).imp fun hab => Region.before_of_not_before hab.1 hab.2

lemma Arranges.unique (h : Arranges l placements) (h' : Arranges l' placements)
    (hord : (placements.map (·.directive.ordinal)).Nodup) : l = l' := by
  apply (h.perm.trans h'.perm.symm).eq_of_pairwise _ (h.pairwise_before hord)
    (h'.pairwise_before hord)
  intro a b _ _ hab hba
  exact absurd hba (Region.not_before_of_before hab)

end Placement

namespace Region

open Placement

/-- Placements give the same regions and the same reports in whatever order they come, and by whatever
sort they are put in order from the outside in. -/
theorem resolve_eq_of_perm {placements others : List Placement}
    (hord : (placements.map (·.directive.ordinal)).Nodup) (hp : others.Perm placements) :
    resolve others = resolve placements ∧
      ∀ l, Arranges l others → l = ordered placements := by
  have hunique (l : List Placement) (h : Arranges l others) : l = ordered placements :=
    (h.of_perm hp).unique (arranges_ordered placements) hord
  have hordered : ordered others = ordered placements := hunique _ (arranges_ordered others)
  exact ⟨by rw [resolve, hordered, resolve], hunique⟩

theorem resolve_eq_of_perm_reverse :
    (overlapping.map (·.directive.ordinal)).Nodup ∧ overlapping.reverse.Perm overlapping ∧
      resolve overlapping.reverse = resolve overlapping :=
  have hord : (overlapping.map (·.directive.ordinal)).Nodup := by decide
  have hp : overlapping.reverse.Perm overlapping := List.reverse_perm _
  ⟨hord, hp, (resolve_eq_of_perm hord hp).1⟩

end Region

end TrustRegions
