import TrustRegions.Proofs.Growth
import TrustRegions.Proofs.Lookup

/-! Going down the index by binary search comes to the region that a plain scan of the whole list ends
with. -/

namespace TrustRegions

namespace RegionIndex

open Region

variable {rs : List Region} {p : Position} {i j : Nat}

lemma deepest?_eq_none_iff (h : Forest rs) : (ofRegions rs).deepest? p = none ↔ ∀ i, ¬Holds rs p i := by
  constructor
  · intro hn i hi
    obtain ⟨j, hj⟩ := exists_isLast h hi
    rw [(deepest?_eq_some_iff h).mpr hj] at hn
    cases hn
  · intro hnone
    refine Option.eq_none_iff_forall_ne_some.mpr fun i hi => ?_
    exact hnone i ((deepest?_eq_some_iff h).mp hi).1

lemma depth_lt_of_isLast (h : Forest rs) (hi : IsLast rs p i) (hj : Holds rs p j) (hne : j ≠ i)
    {q r : Region} (hq : rs[j]? = some q) (hr : rs[i]? = some r) : q.depth < r.depth := by
  have hlt : j < i := lt_of_le_of_ne (hi.2 j hj) hne
  exact h.depth_lt_of_covering (covering_of_holds h hj hi.1 hlt) hq hr

/-- The look-up finds the last of all the regions that have the position, if there is one, and every
other region that has it is less deep. -/
theorem deepest?_resolve (placements : List Placement) (p : Position) :
    let regions := (resolve placements).1
    let index := ofRegions regions
    (∀ i, index.deepest? p = some i ↔
      (∃ r, regions[i]? = some r ∧ p ∈ r.scope) ∧
        ∀ j q, regions[j]? = some q → p ∈ q.scope → j ≤ i) ∧
    (index.deepest? p = none ↔ ∀ r ∈ regions, p ∉ r.scope) ∧
    ∀ i r, index.deepest? p = some i → regions[i]? = some r →
      ∀ j q, regions[j]? = some q → p ∈ q.scope → j ≠ i → q.depth < r.depth := by
  intro regions index
  have hf : Forest regions := forest_resolve placements
  refine ⟨fun i => ?_, ?_, fun i r hi hr j q hq hp hne => ?_⟩
  · rw [deepest?_eq_some_iff hf, IsLast]
    exact and_congr_right' ⟨fun h j q hq hp => h j ⟨q, hq, hp⟩, fun h j ⟨q, hq, hp⟩ => h j q hq hp⟩
  · rw [deepest?_eq_none_iff hf]
    constructor
    · intro hnone r hr hp
      obtain ⟨i, hi⟩ := List.mem_iff_getElem?.mp hr
      exact hnone i ⟨r, hi, hp⟩
    · rintro hnone i ⟨r, hr, hp⟩
      exact hnone r (List.mem_of_getElem? hr) hp
  · exact depth_lt_of_isLast hf ((deepest?_eq_some_iff hf).mp hi) ⟨q, hq, hp⟩ hne hq hr

end RegionIndex

end TrustRegions
