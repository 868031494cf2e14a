import TrustRegions.Proofs.Forest
import TrustRegions.Region.Index

/-! The look-up by position finds the last region that the position lies in, which is the innermost
one: the regions on a level are disjoint and in order, and whatever region inside another has the
position has it in a child of that other one. -/

namespace TrustRegions

namespace RegionIndex

open Region

def Started (x : RegionIndex) (level : Array Nat) (p : Position) (k : Nat) : Prop :=
  (level[k]?).any (x.startsBy p) = true

lemma countStarted_spec (x : RegionIndex) (level : Array Nat) (p : Position) (lo hi : Nat)
    (hle : lo ≤ hi)
    (hmono : ∀ i j, i ≤ j → x.Started level p j → x.Started level p i) :
    lo ≤ x.countStarted level p lo hi ∧ x.countStarted level p lo hi ≤ hi ∧
      (∀ k, lo ≤ k → k < x.countStarted level p lo hi → x.Started level p k) ∧
      ∀ k, x.countStarted level p lo hi ≤ k → k < hi → ¬x.Started level p k := by
  fun_induction countStarted x level p lo hi with
  | case1 lo hi hlt mid hs ih =>
    obtain ⟨hlo, hhi, hbelow, habove⟩ := ih (by omega)
    refine ⟨by omega, hhi, fun k _ hk => ?_, habove⟩
    by_cases hkm : k ≤ mid
    · exact hmono k mid hkm hs
    · exact hbelow k (by omega) hk
  | case2 lo hi hlt mid hs ih =>
    obtain ⟨hlo, hhi, hbelow, habove⟩ := ih (by omega)
    refine ⟨hlo, by omega, hbelow, fun k hk _ hks => ?_⟩
    by_cases hkm : k < mid
    · exact habove k hk hkm hks
    · exact hs (hmono mid k (by omega) hks)
  | case3 lo hi hlt =>
    exact ⟨le_rfl, hle, fun k _ _ => by omega, fun k _ _ => by omega⟩

lemma mem_inside {rs : List Region} {parent : Option Nat} {i : Nat} :
    i ∈ inside rs parent ↔ ∃ r, rs[i]? = some r ∧ r.parent = parent := by
  simp only [inside, List.mem_map, List.mem_filter, beq_iff_eq, Prod.exists,
    List.mem_zipIdx_iff_getElem?]
  constructor
  · rintro ⟨r, j, ⟨hr, hp⟩, rfl⟩
    exact ⟨r, hr, hp⟩
  · rintro ⟨r, hr, hp⟩
    exact ⟨r, i, ⟨hr, hp⟩, rfl⟩

lemma inside_sorted (rs : List Region) (parent : Option Nat) :
    (inside rs parent).Pairwise (· < ·) := by
  rw [inside, List.pairwise_map]
  apply List.Pairwise.filter
  rw [← List.pairwise_map, List.zipIdx_map_snd]
  exact List.pairwise_lt_range'

def Holds (rs : List Region) (p : Position) (i : Nat) : Prop := ∃ r, rs[i]? = some r ∧ p ∈ r.scope

def IsLast (rs : List Region) (p : Position) (i : Nat) : Prop :=
  Holds rs p i ∧ ∀ j, Holds rs p j → j ≤ i

variable {rs : List Region} {p : Position} {i j : Nat}

lemma covering_of_holds (h : Forest rs) (hi : Holds rs p i) (hj : Holds rs p j) (hlt : i < j) :
    Covering rs i j := by
  obtain ⟨q, hq, hpq⟩ := hi
  obtain ⟨r, hr, hpr⟩ := hj
  exact ⟨hlt, q, r, hq, hr, (h.leads_of_lt hlt hq hr).covers_of_mem hpq hpr⟩

lemma holds_of_covering (hc : Covering rs i j) (hj : Holds rs p j) : Holds rs p i := by
  obtain ⟨-, q, r, hq, hr, hqr⟩ := hc
  obtain ⟨r', hr', hp⟩ := hj
  obtain rfl : r = r' := Option.some.inj (hr.symm.trans hr')
  exact ⟨q, hq, hqr.mem hp⟩

lemma not_covering_sibling (h : Forest rs) {q r : Region} (hi : rs[i]? = some q)
    (hj : rs[j]? = some r) (hs : q.parent = r.parent) : ¬Covering rs i j := by
  intro hc
  obtain ⟨k, ⟨r', hr', hk⟩, hik⟩ := h.exists_parentOf hc
  obtain rfl : r = r' := Option.some.inj (hj.symm.trans hr')
  have hki := (h.covering_of_parentOf ⟨q, hi, hs.trans hk⟩).1
  rcases hik with rfl | hik
  · exact hki.false
  · exact absurd hik.1 hki.not_gt

lemma not_start_le_of_sibling (h : Forest rs) {q r : Region} (hlt : i < j) (hi : rs[i]? = some q)
    (hj : rs[j]? = some r) (hs : q.parent = r.parent) (hp : p ∈ q.scope) : ¬r.scope.start ≤ p := by
  intro hr
  rcases h.leads_of_lt hlt hi hj with hc | hstop
  · exact not_covering_sibling h hi hj hs ⟨hlt, q, r, hi, hj, hc⟩
  · exact absurd (hstop.trans hr) hp.2.not_ge

lemma holds_iff_of_getElem? {r : Region} (hr : rs[i]? = some r) : Holds rs p i ↔ p ∈ r.scope := by
  constructor
  · rintro ⟨r', hr', hp⟩
    obtain rfl : r = r' := Option.some.inj (hr.symm.trans hr')
    exact hp
  · exact fun hp => ⟨r, hr, hp⟩

lemma started_inside_iff {parent : Option Nat} {k : Nat} :
    (ofRegions rs).Started (inside rs parent).toArray p k ↔
      ∃ i r, (inside rs parent)[k]? = some i ∧ rs[i]? = some r ∧ r.scope.start ≤ p := by
  simp [Started, startsBy, ofRegions, Option.any_eq_true]

lemma started_inside_mono (h : Forest rs) (parent : Option Nat) (k m : Nat) (hkm : k ≤ m)
    (hm : (ofRegions rs).Started (inside rs parent).toArray p m) :
    (ofRegions rs).Started (inside rs parent).toArray p k := by
  rw [started_inside_iff] at hm ⊢
  obtain ⟨j, r, hj, hr, hrp⟩ := hm
  rcases hkm.eq_or_lt with rfl | hlt
  · exact ⟨j, r, hj, hr, hrp⟩
  obtain ⟨hml, rfl⟩ := List.getElem?_eq_some_iff.mp hj
  have hk := List.getElem?_eq_getElem (hlt.trans hml)
  obtain ⟨q, hq, -⟩ := mem_inside.mp (List.mem_of_getElem? hk)
  have hij := List.pairwise_iff_getElem.mp (inside_sorted rs parent) k m (hlt.trans hml) hml hlt
  exact ⟨_, q, hk, hq, (h.start_le hij hq hr).trans hrp⟩

lemma of_findIn?_eq_some {parent : Option Nat}
    (hf : (ofRegions rs).findIn? (inside rs parent).toArray p = some i) :
    ∃ r, rs[i]? = some r ∧ r.parent = parent ∧ p ∈ r.scope := by
  rw [findIn?] at hf
  split at hf
  · simp at hf
  · obtain ⟨hi, hp⟩ := Option.filter_eq_some_iff.mp hf
    rw [List.getElem?_toArray] at hi
    obtain ⟨r, hr, hpar⟩ := mem_inside.mp (List.mem_of_getElem? hi)
    refine ⟨r, hr, hpar, ?_⟩
    simpa [ofRegions, hr] using hp

lemma countStarted_eq_succ (h : Forest rs) {parent : Option Nat} {k : Nat} {r : Region}
    (hk : (inside rs parent)[k]? = some i) (hr : rs[i]? = some r) (hp : p ∈ r.scope) :
    (ofRegions rs).countStarted (inside rs parent).toArray p 0 (inside rs parent).toArray.size =
      k + 1 := by
  obtain ⟨-, hn, hbelow, habove⟩ := (ofRegions rs).countStarted_spec (inside rs parent).toArray p 0
    (inside rs parent).toArray.size (Nat.zero_le _) (started_inside_mono h parent)
  obtain ⟨hkl, hik⟩ := List.getElem?_eq_some_iff.mp hk
  have hks : (ofRegions rs).Started (inside rs parent).toArray p k :=
    started_inside_iff.mpr ⟨i, r, hk, hr, hp.1⟩
  have hlt := not_le.mp fun hle => habove k (by simpa using hle) (by simpa using hkl) hks
  refine le_antisymm (not_lt.mp fun hgt => ?_) hlt
  -- A later region of the level has started too, although this one has not ended.
  obtain ⟨j, q, hj, hq, hqp⟩ := started_inside_iff.mp (hbelow (k + 1) (Nat.zero_le _) hgt)
  obtain ⟨hjl, hkj⟩ := List.getElem?_eq_some_iff.mp hj
  have hij : i < j := by
    rw [← hik, ← hkj]
    exact List.pairwise_iff_getElem.mp (inside_sorted rs parent) k (k + 1) hkl hjl (Nat.lt_succ_self k)
  obtain ⟨r', hr', hrpar⟩ := mem_inside.mp (List.mem_of_getElem? hk)
  obtain ⟨q', hq', hqpar⟩ := mem_inside.mp (List.mem_of_getElem? hj)
  obtain rfl : r = r' := Option.some.inj (hr.symm.trans hr')
  obtain rfl : q = q' := Option.some.inj (hq.symm.trans hq')
  exact not_start_le_of_sibling h hij hr hq (hrpar.trans hqpar.symm) hp hqp

lemma findIn?_inside (h : Forest rs) (parent : Option Nat) :
    (ofRegions rs).findIn? (inside rs parent).toArray p = some i ↔
      ∃ r, rs[i]? = some r ∧ r.parent = parent ∧ p ∈ r.scope := by
  constructor
  · exact of_findIn?_eq_some
  · rintro ⟨r, hr, hpar, hp⟩
    obtain ⟨k, hk⟩ := List.mem_iff_getElem?.mp (mem_inside.mpr ⟨r, hr, hpar⟩)
    rw [findIn?, countStarted_eq_succ h hk hr hp]
    refine Option.filter_eq_some_iff.mpr ⟨by rwa [List.getElem?_toArray], ?_⟩
    simpa [ofRegions, hr] using hp

lemma exists_child (h : Forest rs) (hi : Holds rs p i) (hj : Holds rs p j) (hlt : i < j) :
    ∃ (k : Nat) (r : Region), rs[k]? = some r ∧ r.parent = some i ∧ p ∈ r.scope := by
  induction j using Nat.strongRecOn with
  | ind j ih =>
    obtain ⟨k, hk, rfl | hik⟩ := h.exists_parentOf (covering_of_holds h hi hj hlt)
    · obtain ⟨r, hr, hpar⟩ := hk
      exact ⟨j, r, hr, hpar, (holds_iff_of_getElem? hr).mp hj⟩
    · have hkj := h.covering_of_parentOf hk
      exact ih k hkj.1 (holds_of_covering hkj hj) hik.1

lemma exists_root (h : Forest rs) (hj : Holds rs p j) :
    ∃ (k : Nat) (r : Region), rs[k]? = some r ∧ r.parent = none ∧ p ∈ r.scope := by
  induction j using Nat.strongRecOn with
  | ind j ih =>
    have ⟨r, hr, hp⟩ := hj
    cases hpar : r.parent with
    | none => exact ⟨j, r, hr, hpar, hp⟩
    | some k =>
      have hkj := h.covering_of_parentOf ⟨r, hr, hpar⟩
      exact ih k hkj.1 (holds_of_covering hkj hj)

lemma children_ofRegions {i : Nat} (hi : i < rs.length) :
    (ofRegions rs).children[i]? = some (inside rs (some i)).toArray := by
  simp [ofRegions, hi]

lemma isLast_descend (h : Forest rs) (hi : Holds rs p i) :
    IsLast rs p ((ofRegions rs).descend p i) := by
  fun_induction descend (ofRegions rs) p i with
  | case1 i hn =>
    have ⟨r, hr, _⟩ := hi
    rw [children_ofRegions (List.getElem?_eq_some_iff.mp hr).1, Option.bind_some] at hn
    refine ⟨hi, fun j hj => not_lt.mp fun hlt => ?_⟩
    obtain ⟨k, r', hk, hpar, hp⟩ := exists_child h hi hj hlt
    rw [(findIn?_inside h (some i)).mpr ⟨r', hk, hpar, hp⟩] at hn
    simp at hn
  | case2 i j hs hlt ih =>
    have ⟨r, hr, _⟩ := hi
    rw [children_ofRegions (List.getElem?_eq_some_iff.mp hr).1, Option.bind_some] at hs
    obtain ⟨r', hr', -, hp⟩ := (findIn?_inside h (some i)).mp hs
    exact ih ⟨r', hr', hp⟩
  | case3 i j hs hnot =>
    have ⟨r, hr, _⟩ := hi
    rw [children_ofRegions (List.getElem?_eq_some_iff.mp hr).1, Option.bind_some] at hs
    obtain ⟨r', hr', hpar, -⟩ := (findIn?_inside h (some i)).mp hs
    have hij := (h.covering_of_parentOf ⟨r', hr', hpar⟩).1
    have hj := (List.getElem?_eq_some_iff.mp hr').1
    exact absurd ⟨hij, by simpa [ofRegions] using hj⟩ hnot

lemma IsLast.unique (hi : IsLast rs p i) (hj : IsLast rs p j) : i = j :=
  le_antisymm (hj.2 i hi.1) (hi.2 j hj.1)

lemma deepest?_eq_some_iff (h : Forest rs) :
    (ofRegions rs).deepest? p = some i ↔ IsLast rs p i := by
  rw [deepest?, Option.map_eq_some_iff]
  constructor
  · rintro ⟨j, hj, rfl⟩
    obtain ⟨r, hr, -, hp⟩ := (findIn?_inside h none).mp hj
    exact isLast_descend h ⟨r, hr, hp⟩
  · intro hi
    obtain ⟨j, r, hr, hpar, hp⟩ := exists_root h hi.1
    have hlast := isLast_descend h ⟨r, hr, hp⟩
    exact ⟨j, (findIn?_inside h none).mpr ⟨r, hr, hpar, hp⟩, hlast.unique hi⟩

lemma exists_isLast (h : Forest rs) (hi : Holds rs p i) : ∃ j, IsLast rs p j := by
  obtain ⟨k, r, hr, -, hp⟩ := exists_root h hi
  exact ⟨_, isLast_descend h ⟨r, hr, hp⟩⟩

lemma governance?_of_isLast (h : Forest rs) (hi : IsLast rs p i) {r : Region}
    (hr : rs[i]? = some r) :
    (ofRegions rs).governance? p = some ⟨i, r.scope, r.effective⟩ := by
  rw [governance?, (deepest?_eq_some_iff h).mpr hi]
  simp [ofRegions, hr]

lemma governance?_eq_none (h : Forest rs) (hn : ∀ i, ¬Holds rs p i) :
    (ofRegions rs).governance? p = none := by
  have hd : (ofRegions rs).deepest? p = none := by
    apply Option.eq_none_iff_forall_ne_some.mpr
    intro i hi
    exact hn i ((deepest?_eq_some_iff h).mp hi).1
  rw [governance?, hd]
  rfl

lemma exists_of_governance?_eq_some (h : Forest rs) {g : Governance}
    (hg : (ofRegions rs).governance? p = some g) :
    ∃ r, IsLast rs p g.region ∧ rs[g.region]? = some r ∧ g.scope = r.scope ∧
      g.values = r.effective := by
  by_cases hn : ∃ i, Holds rs p i
  · obtain ⟨i, hi⟩ := hn
    obtain ⟨j, hj⟩ := exists_isLast h hi
    have ⟨r, hr, _⟩ := hj.1
    obtain rfl := Option.some.inj (hg.symm.trans (governance?_of_isLast h hj hr))
    exact ⟨r, hj, hr, rfl, rfl⟩
  · rw [governance?_eq_none h (not_exists.mp hn)] at hg
    simp at hg

lemma getLast?_filter_of_isLast (hi : IsLast rs p i) {r : Region} (hr : rs[i]? = some r) :
    (rs.filter fun r => p ∈ r.scope).getLast? = some r := by
  obtain ⟨hl, hri⟩ := List.getElem?_eq_some_iff.mp hr
  have hafter : (rs.drop (i + 1)).filter (fun r => p ∈ r.scope) = [] := by
    apply List.filter_eq_nil_iff.mpr
    intro q hq hp
    obtain ⟨k, hk⟩ := List.mem_iff_getElem?.mp hq
    rw [List.getElem?_drop] at hk
    have := hi.2 _ ⟨q, hk, of_decide_eq_true hp⟩
    omega
  have hp : decide (p ∈ r.scope) = true := decide_eq_true ((holds_iff_of_getElem? hr).mp hi.1)
  rw [← List.take_append_drop i rs, List.drop_eq_getElem_cons hl, hri, List.filter_append,
    List.filter_cons, if_pos hp, hafter, List.getLast?_concat]

lemma governance?_eq_getLast? (h : Forest rs) (p : Position) :
    ((ofRegions rs).governance? p).map (fun g => (g.scope, g.values)) =
      (rs.filter fun r => p ∈ r.scope).getLast?.map fun r => (r.scope, r.effective) := by
  by_cases hn : ∃ i, Holds rs p i
  · obtain ⟨i, hi⟩ := hn
    obtain ⟨j, hj⟩ := exists_isLast h hi
    have ⟨r, hr, _⟩ := hj.1
    rw [governance?_of_isLast h hj hr, getLast?_filter_of_isLast hj hr]
    rfl
  · have hnil : rs.filter (fun r => p ∈ r.scope) = [] := by
      apply List.filter_eq_nil_iff.mpr
      intro r hr hp
      obtain ⟨i, hi⟩ := List.mem_iff_getElem?.mp hr
      exact hn ⟨i, r, hi, of_decide_eq_true hp⟩
    rw [governance?_eq_none h (not_exists.mp hn), hnil]
    rfl

end RegionIndex

end TrustRegions
