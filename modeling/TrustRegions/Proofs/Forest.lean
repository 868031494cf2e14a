import Mathlib.Data.Set.Card
import Mathlib.Logic.Relation
import TrustRegions.Proofs.Span
import TrustRegions.Region

/-! A row of regions as a forest: the regions around one are those before it whose scopes cover its
own, and the last of these is the parent. -/

namespace TrustRegions

namespace Region

def Covering (rs : List Region) (j i : Nat) : Prop :=
  j < i ∧ ∃ q r, rs[j]? = some q ∧ rs[i]? = some r ∧ q.scope.Covers r.scope

def ParentOf (rs : List Region) (j i : Nat) : Prop := ∃ r, rs[i]? = some r ∧ r.parent = some j

def AncestorOf (rs : List Region) : Nat → Nat → Prop := Relation.TransGen (ParentOf rs)

def outer? (rs : List Region) (r : Region) : Option Region := r.parent.bind (rs[·]?)

lemma Covering.trans {rs : List Region} {i j k : Nat} (hij : Covering rs i j)
    (hjk : Covering rs j k) : Covering rs i k := by
  obtain ⟨hlt, p, q, hp, hq, hpq⟩ := hij
  obtain ⟨hlt', q', r, hq', hr, hqr⟩ := hjk
  obtain rfl : q = q' := Option.some.inj (hq.symm.trans hq')
  exact ⟨hlt.trans hlt', p, r, hp, hr, hpq.trans hqr⟩

lemma Covering.exists_last {rs : List Region} {i j : Nat} (h : Covering rs j i) :
    ∃ k, Covering rs k i ∧ ∀ n, Covering rs n i → n ≤ k := by
  classical
  refine ⟨Nat.findGreatest (Covering rs · i) i, ?_, fun n hn => Nat.le_findGreatest hn.1.le hn⟩
  exact Nat.findGreatest_spec (P := (Covering rs · i)) h.1.le h

structure Forest (rs : List Region) : Prop where
  nonempty : ∀ r ∈ rs, ¬r.scope.Empty
  leads : rs.Pairwise fun a b => a.scope.Leads b.scope
  parent_iff : ∀ {i : Nat} {r : Region}, rs[i]? = some r → ∀ j,
    r.parent = some j ↔ Covering rs j i ∧ ∀ k, Covering rs k i → k ≤ j
  depth_eq : ∀ r ∈ rs, r.depth = (r.outer? rs).elim 0 (·.depth + 1)
  effective_eq : ∀ r ∈ rs,
    r.effective = ((r.outer? rs).elim ∅ (·.effective)).overlay r.attributes

variable {rs : List Region} {i j k : Nat} {q r : Region}

lemma Forest.leads_of_lt (h : Forest rs) (hlt : i < j) (hi : rs[i]? = some q)
    (hj : rs[j]? = some r) : q.scope.Leads r.scope := by
  obtain ⟨hi', rfl⟩ := List.getElem?_eq_some_iff.mp hi
  obtain ⟨hj', rfl⟩ := List.getElem?_eq_some_iff.mp hj
  exact List.pairwise_iff_getElem.mp h.leads i j hi' hj' hlt

lemma Forest.start_le (h : Forest rs) (hlt : i < j) (hi : rs[i]? = some q)
    (hj : rs[j]? = some r) : q.scope.start ≤ r.scope.start :=
  (h.leads_of_lt hlt hi hj).start_le (h.nonempty q (List.mem_of_getElem? hi))

lemma Forest.covering_between (h : Forest rs) (hij : i < j) (hjk : j < k)
    (hik : Covering rs i k) : Covering rs i j := by
  obtain ⟨-, p, r, hp, hr, hpr⟩ := hik
  have hk := (List.getElem?_eq_some_iff.mp hr).1
  have hq : rs[j]? = some rs[j] := List.getElem?_eq_getElem (hjk.trans hk)
  refine ⟨hij, p, _, hp, hq, ?_⟩
  exact (h.leads_of_lt hij hp hq).covers_of_covers (h.start_le hjk hq hr)
    (h.nonempty r (List.mem_of_getElem? hr)) hpr

lemma Forest.covering_of_parentOf (h : Forest rs) (hp : ParentOf rs j i) : Covering rs j i := by
  obtain ⟨r, hr, hj⟩ := hp
  exact ((h.parent_iff hr j).mp hj).1

lemma Forest.exists_parentOf (h : Forest rs) (hc : Covering rs j i) :
    ∃ k, ParentOf rs k i ∧ (j = k ∨ Covering rs j k) := by
  obtain ⟨k, hk, hlast⟩ := hc.exists_last
  have ⟨_, _, r, _, hr, _⟩ := hc
  refine ⟨k, ⟨r, hr, (h.parent_iff hr k).mpr ⟨hk, hlast⟩⟩, ?_⟩
  rcases (hlast j hc).eq_or_lt with he | hlt
  · exact Or.inl he
  · exact Or.inr (h.covering_between hlt hk.1 hc)

lemma Forest.ancestorOf_iff (h : Forest rs) : AncestorOf rs j i ↔ Covering rs j i := by
  constructor
  · intro ha
    induction ha with
    | single hp => exact h.covering_of_parentOf hp
    | tail _ hp ih => exact ih.trans (h.covering_of_parentOf hp)
  · intro hc
    induction i using Nat.strongRecOn with
    | ind i ih =>
      obtain ⟨k, hk, rfl | hjk⟩ := h.exists_parentOf hc
      · exact .single hk
      · exact (ih k (h.covering_of_parentOf hk).1 hjk).tail hk

lemma Forest.exists_parent (h : Forest rs) (hr : rs[i]? = some r) (hp : r.parent = some j) :
    ∃ q, rs[j]? = some q ∧ r.outer? rs = some q ∧ q.scope.Covers r.scope := by
  obtain ⟨-, q, r', hq, hr', hc⟩ := h.covering_of_parentOf ⟨r, hr, hp⟩
  obtain rfl : r = r' := Option.some.inj (hr.symm.trans hr')
  exact ⟨q, hq, by rw [outer?, hp, Option.bind_some, hq], hc⟩

lemma Forest.depth_of_parent (h : Forest rs) (hr : rs[i]? = some r) (hp : r.parent = some j)
    (hq : rs[j]? = some q) : r.depth = q.depth + 1 := by
  obtain ⟨q', hq', ho, -⟩ := h.exists_parent hr hp
  obtain rfl : q = q' := Option.some.inj (hq.symm.trans hq')
  rw [h.depth_eq r (List.mem_of_getElem? hr), ho]
  rfl

lemma Forest.depth_lt_of_covering (h : Forest rs) (hc : Covering rs i j) (hi : rs[i]? = some q)
    (hj : rs[j]? = some r) : q.depth < r.depth := by
  have ha := h.ancestorOf_iff.mpr hc
  clear hc
  induction ha generalizing r with
  | single hp =>
    obtain ⟨r', hr', hpar⟩ := hp
    obtain rfl : r = r' := Option.some.inj (hj.symm.trans hr')
    exact Nat.lt_of_succ_le (h.depth_of_parent hj hpar hi).ge
  | tail _ hp ih =>
    obtain ⟨r', hr', hpar⟩ := hp
    obtain rfl : r = r' := Option.some.inj (hj.symm.trans hr')
    obtain ⟨u, hu, -, -⟩ := h.exists_parent hj hpar
    have hdepth := h.depth_of_parent hj hpar hu
    exact (ih hu).trans (Nat.lt_of_succ_le hdepth.ge)

lemma Forest.parent_eq_none_iff (h : Forest rs) (hr : rs[i]? = some r) :
    r.parent = none ↔ ∀ j, ¬Covering rs j i := by
  constructor
  · intro hn j hj
    obtain ⟨k, ⟨r', hr', hk⟩, -⟩ := h.exists_parentOf hj
    obtain rfl : r = r' := Option.some.inj (hr.symm.trans hr')
    simp [hn] at hk
  · intro hn
    cases hp : r.parent with
    | none => rfl
    | some j => exact absurd (h.covering_of_parentOf ⟨r, hr, hp⟩) (hn j)

lemma ancestorOf_of_parentOf (hp : ParentOf rs k i) :
    AncestorOf rs j i ↔ j = k ∨ AncestorOf rs j k := by
  obtain ⟨r, hr, hk⟩ := hp
  rw [AncestorOf, Relation.TransGen.tail'_iff]
  constructor
  · rintro ⟨n, hjn, r', hr', hn⟩
    obtain rfl : r = r' := Option.some.inj (hr.symm.trans hr')
    obtain rfl : n = k := Option.some.inj (hn.symm.trans hk)
    rcases Relation.reflTransGen_iff_eq_or_transGen.mp hjn with he | ha
    · exact Or.inl he.symm
    · exact Or.inr ha
  · rintro (rfl | ha)
    · exact ⟨j, .refl, r, hr, hk⟩
    · exact ⟨k, ha.to_reflTransGen, r, hr, hk⟩

lemma Forest.depth_eq_ncard (h : Forest rs) (hr : rs[i]? = some r) :
    r.depth = {j | AncestorOf rs j i}.ncard := by
  induction i using Nat.strongRecOn generalizing r with
  | ind i ih =>
    rw [h.depth_eq r (List.mem_of_getElem? hr)]
    cases hp : r.parent with
    | none =>
      have hset : {j | AncestorOf rs j i} = ∅ := by
        ext j
        simpa [h.ancestorOf_iff] using (h.parent_eq_none_iff hr).mp hp j
      rw [hset, outer?, hp, Set.ncard_empty]
      rfl
    | some k =>
      have hk : ParentOf rs k i := ⟨r, hr, hp⟩
      obtain ⟨q, hq, ho, -⟩ := h.exists_parent hr hp
      have hset : {j | AncestorOf rs j i} = insert k {j | AncestorOf rs j k} := by
        ext j
        exact ancestorOf_of_parentOf hk
      have hnot : k ∉ {j | AncestorOf rs j k} := fun hkk => (h.ancestorOf_iff.mp hkk).1.false
      have hfin : {j | AncestorOf rs j k}.Finite :=
        (Set.finite_lt_nat k).subset fun j hj => (h.ancestorOf_iff.mp hj).1
      rw [ho, hset, Set.ncard_insert_of_notMem hnot hfin,
        ← ih k (h.covering_of_parentOf hk).1 hq]
      rfl

end Region

end TrustRegions
