import TrustRegions.Proofs.Crossings
import TrustRegions.Proofs.Forest

/-! Scopes that lead one another grow into a forest of regions, in one pass that keeps at hand the
regions around the scope before. -/

namespace TrustRegions

lemma dropWhile_dropWhile {α : Type} {p q : α → Bool} {l : List α}
    (h : ∀ a ∈ l, p a = true → q a = true) : (l.dropWhile p).dropWhile q = l.dropWhile q := by
  induction l with
  | nil => rfl
  | cons a l ih =>
    cases hp : p a with
    | true =>
      rw [List.dropWhile_cons_of_pos hp, List.dropWhile_cons_of_pos (h a (by simp) hp)]
      exact ih fun b hb => h b (List.mem_cons_of_mem a hb)
    | false => rw [List.dropWhile_cons_of_neg (by simp [hp])]

@[simp] lemma Placement.scope_region (s : Placement) (parent : Option (Nat × Region)) :
    (s.region parent).scope = s.scope := rfl

namespace Region

def enclosing (rs : List Region) (t : Span) : List (Nat × Region) :=
  ((rs.zipIdx.filter fun r => r.1.scope.Covers t).map Prod.swap).reverse

lemma enclosing_concat (rs : List Region) (r : Region) (t : Span) :
    enclosing (rs ++ [r]) t =
      if r.scope.Covers t then (rs.length, r) :: enclosing rs t else enclosing rs t := by
  by_cases h : r.scope.Covers t <;> simp [enclosing, List.zipIdx_append, h]

lemma enclosing_congr {rs : List Region} {t u : Span}
    (h : ∀ r ∈ rs, r.scope.Covers t ↔ r.scope.Covers u) : enclosing rs t = enclosing rs u := by
  rw [enclosing]
  congr 2
  refine List.filter_congr fun r hr => ?_
  rw [decide_eq_decide]
  exact h r.1 (List.fst_mem_of_mem_zipIdx hr)

lemma mem_of_mem_enclosing {rs : List Region} {t : Span} {r : Nat × Region}
    (h : r ∈ enclosing rs t) : r.2 ∈ rs := by
  simp only [enclosing, List.mem_reverse, List.mem_map] at h
  obtain ⟨q, hq, rfl⟩ := h
  exact List.fst_mem_of_mem_zipIdx (List.mem_of_mem_filter hq)

lemma head?_enclosing {rs : List Region} {t : Span} {j : Nat} {p : Region} :
    (enclosing rs t).head? = some (j, p) ↔ rs[j]? = some p ∧ p.scope.Covers t ∧
      ∀ k q, j < k → rs[k]? = some q → ¬q.scope.Covers t := by
  induction rs using List.reverseRecOn with
  | nil => simp [enclosing]
  | append_singleton rs r ih =>
    rw [enclosing_concat]
    split
    · next hr =>
      simp only [List.head?_cons, Option.some.injEq, Prod.mk.injEq]
      constructor
      · rintro ⟨rfl, rfl⟩
        refine ⟨by simp, hr, fun k q hk hq => ?_⟩
        have := (List.getElem?_eq_some_iff.mp hq).1
        simp only [List.length_append, List.length_singleton] at this
        omega
      · rintro ⟨hj, -, hlast⟩
        have hjl : j < rs.length + 1 := by simpa using (List.getElem?_eq_some_iff.mp hj).1
        have hnot : ¬j < rs.length := fun hlt => hlast rs.length r hlt (by simp) hr
        obtain rfl : j = rs.length := by omega
        exact ⟨rfl, by simpa using hj⟩
    · next hr =>
      rw [ih]
      have hget (k : Nat) (q : Region) (hq : q.scope.Covers t) :
          (rs ++ [r])[k]? = some q ↔ rs[k]? = some q := by
        rw [List.getElem?_append]
        grind
      constructor
      · rintro ⟨hj, hp, hlast⟩
        refine ⟨(hget j p hp).mpr hj, hp, fun k q hk hq hc => ?_⟩
        exact hlast k q hk ((hget k q hc).mp hq) hc
      · rintro ⟨hj, hp, hlast⟩
        refine ⟨(hget j p hp).mp hj, hp, fun k q hk hq hc => ?_⟩
        exact hlast k q hk ((hget k q hc).mpr hq) hc

inductive Grown : List Placement → List Region → Prop
  | nil : Grown [] []
  | snoc {l : List Placement} {rs : List Region} (s : Placement) : Grown l rs →
      Grown (l ++ [s]) (rs ++ [s.region (enclosing rs s.scope).head?])

lemma Grown.scopes {l : List Placement} {rs : List Region} (h : Grown l rs) :
    rs.map (·.scope) = l.map (·.scope) := by
  induction h with
  | nil => rfl
  | snoc s _ ih => simp [ih]

lemma Grown.forall_scope {l : List Placement} {rs : List Region} (h : Grown l rs) (P : Span → Prop)
    (hp : ∀ s ∈ l, P s.scope) : ∀ r ∈ rs, P r.scope := by
  intro r hr
  have hmem : r.scope ∈ l.map (·.scope) := h.scopes ▸ List.mem_map_of_mem hr
  obtain ⟨s, hs, hsr⟩ := List.mem_map.mp hmem
  exact hsr ▸ hp s hs

lemma dropWhile_enclosing_concat {rs : List Region} {around : List (Nat × Region)} {r : Region}
    {t : Span} (hmem : ∀ q ∈ around, q.2 ∈ rs)
    (hback : ∀ q ∈ rs, q.scope.Covers t → q.scope.Covers r.scope)
    (hr : around.dropWhile (fun q => !decide (q.2.scope.Covers r.scope)) = enclosing rs r.scope)
    (ht : around.dropWhile (fun q => !decide (q.2.scope.Covers t)) = enclosing rs t) :
    ((rs.length, r) :: enclosing rs r.scope).dropWhile (fun q => !decide (q.2.scope.Covers t)) =
      enclosing (rs ++ [r]) t := by
  rw [enclosing_concat, List.dropWhile_cons]
  by_cases hc : r.scope.Covers t
  · rw [decide_eq_true hc, if_neg (by decide), if_pos hc]
    congr 1
    exact enclosing_congr fun q hq => ⟨fun h => h.trans hc, hback q hq⟩
  · rw [decide_eq_false hc, if_pos (by decide), if_neg hc, ← hr, ← ht]
    refine dropWhile_dropWhile fun q hq hn => ?_
    simp only [Bool.not_eq_true', decide_eq_false_iff_not] at hn ⊢
    exact fun h => hn (hback q.2 (hmem q hq) h)

lemma grown_regionsFrom (l rest : List Placement) (rs : List Region) (around : List (Nat × Region))
    (hg : Grown l rs) (hne : ∀ s ∈ l ++ rest, ¬s.scope.Empty)
    (hl : (l ++ rest).Pairwise fun a b => a.scope.Leads b.scope) (hmem : ∀ r ∈ around, r.2 ∈ rs)
    (ha : ∀ s ∈ rest, around.dropWhile (fun r => !decide (r.2.scope.Covers s.scope)) =
      enclosing rs s.scope) :
    Grown (l ++ rest) (rs ++ Placement.regionsFrom rs.length around rest) := by
  induction rest generalizing l rs around with
  | nil => simpa [Placement.regionsFrom] using hg
  | cons s rest ih =>
    obtain ⟨-, hrest, hbefore⟩ := List.pairwise_append.mp hl
    have hleads : ∀ r ∈ rs, r.scope.Leads s.scope :=
      hg.forall_scope (·.Leads s.scope) fun a ha => hbefore a ha s List.mem_cons_self
    have hnext := ih _ _ ((rs.length, s.region (enclosing rs s.scope).head?) :: enclosing rs s.scope)
      (hg.snoc s) (by simpa using hne) (by simpa using hl)
    simp only [List.append_assoc, List.singleton_append, List.length_append, List.length_singleton]
      at hnext
    rw [Placement.regionsFrom, ha s List.mem_cons_self]
    apply hnext
    · intro r hr
      rcases List.mem_cons.mp hr with rfl | hr
      · simp
      · exact List.mem_append_left _ (mem_of_mem_enclosing hr)
    · intro u hu
      have hsu := ((List.pairwise_cons.mp hrest).1 u hu).start_le (hne s (by simp))
      refine dropWhile_enclosing_concat hmem (fun r hr hc => ?_) (ha s List.mem_cons_self)
        (ha u (List.mem_cons_of_mem s hu))
      exact (hleads r hr).covers_of_covers hsu (hne u (by simp [hu])) hc

lemma grown_resolveOrdered {l : List Placement} (h : Placement.OutsideIn l) :
    Grown (Placement.nestable l) (resolveOrdered l).1 :=
  grown_regionsFrom [] _ [] [] .nil (Placement.outsideIn_nestable h).nonempty
    (Placement.leads_nestable h) (by simp) (by simp [enclosing])

lemma grown_resolve (placements : List Placement) :
    Grown (Placement.nestable (Placement.ordered placements)) (Region.resolve placements).1 :=
  grown_resolveOrdered (Placement.outsideIn_ordered placements)

lemma Grown.length_eq {l : List Placement} {rs : List Region} (h : Grown l rs) :
    rs.length = l.length := by
  simpa using congrArg List.length h.scopes

lemma Grown.region_eq {l : List Placement} {rs : List Region} (h : Grown l rs) {i : Nat}
    {r : Region} (hr : rs[i]? = some r) :
    ∃ s, l[i]? = some s ∧ r = s.region (enclosing (rs.take i) s.scope).head? := by
  induction h with
  | nil => simp at hr
  | @snoc l rs s hg ih =>
    by_cases hi : i < rs.length
    · rw [List.getElem?_append_left hi] at hr
      obtain ⟨u, hu, hru⟩ := ih hr
      refine ⟨u, ?_, ?_⟩
      · rw [List.getElem?_append_left (hg.length_eq ▸ hi), hu]
      · rw [List.take_append_of_le_length hi.le, ← hru]
    · have hlt := (List.getElem?_eq_some_iff.mp hr).1
      simp only [List.length_append, List.length_singleton] at hlt
      obtain rfl : i = rs.length := by omega
      refine ⟨s, ?_, ?_⟩
      · rw [hg.length_eq]
        simp
      · simpa using hr.symm

lemma covering_take {rs : List Region} {i j : Nat} {r : Region} (hr : rs[i]? = some r) :
    Covering rs j i ↔ ∃ q, (rs.take i)[j]? = some q ∧ q.scope.Covers r.scope := by
  constructor
  · rintro ⟨hlt, q, r', hq, hr', hc⟩
    obtain rfl : r = r' := Option.some.inj (hr.symm.trans hr')
    exact ⟨q, by rw [List.getElem?_take_of_lt hlt, hq], hc⟩
  · rintro ⟨q, hq, hc⟩
    have hlt : j < i := by
      have := (List.getElem?_eq_some_iff.mp hq).1
      rw [List.length_take] at this
      omega
    exact ⟨hlt, q, r, by rwa [List.getElem?_take_of_lt hlt] at hq, hr, hc⟩

lemma head?_enclosing_take {rs : List Region} {i j : Nat} {p r : Region} (hr : rs[i]? = some r) :
    (enclosing (rs.take i) r.scope).head? = some (j, p) ↔
      (rs[j]? = some p ∧ Covering rs j i) ∧ ∀ k, Covering rs k i → k ≤ j := by
  rw [head?_enclosing]
  constructor
  · rintro ⟨hp, hc, hlast⟩
    have hj := (covering_take hr).mpr ⟨p, hp, hc⟩
    refine ⟨⟨by rwa [List.getElem?_take_of_lt hj.1] at hp, hj⟩, fun k hk => ?_⟩
    obtain ⟨q, hq, hqc⟩ := (covering_take hr).mp hk
    exact not_lt.mp fun hlt => hlast k q hlt hq hqc
  · rintro ⟨⟨hp, hj⟩, hlast⟩
    obtain ⟨q, hq, hqc⟩ := (covering_take hr).mp hj
    obtain rfl : p = q := by
      rw [List.getElem?_take_of_lt hj.1, hp] at hq
      exact Option.some.inj hq
    refine ⟨hq, hqc, fun k u hlt hu huc => ?_⟩
    exact absurd (hlast k ((covering_take hr).mpr ⟨u, hu, huc⟩)) (by omega)

lemma Grown.exists_inside {l : List Placement} {rs : List Region} (h : Grown l rs) {i : Nat}
    {r : Region} (hr : rs[i]? = some r) :
    ∃ s parent, l[i]? = some s ∧ r = s.region parent ∧ r.outer? rs = parent.map (·.2) ∧
      ∀ j, r.parent = some j ↔ Covering rs j i ∧ ∀ k, Covering rs k i → k ≤ j := by
  obtain ⟨s, hs, hrs⟩ := h.region_eq hr
  have hscope : s.scope = r.scope := by rw [hrs, Placement.scope_region]
  rw [hscope] at hrs
  have hparent : r.parent = (enclosing (rs.take i) r.scope).head?.map (·.1) :=
    congrArg Region.parent hrs
  refine ⟨s, _, hs, hrs, ?_, fun j => ?_⟩
  · rw [outer?, hparent]
    cases hd : (enclosing (rs.take i) r.scope).head? with
    | none => rfl
    | some d => exact ((head?_enclosing_take hr).mp hd).1.1
  · rw [hparent, Option.map_eq_some_iff]
    constructor
    · rintro ⟨⟨j, p⟩, hd, rfl⟩
      exact ((head?_enclosing_take hr).mp hd).imp_left And.right
    · rintro ⟨hj, hlast⟩
      have hcovering := hj
      obtain ⟨-, p, -, hp, -⟩ := hcovering
      exact ⟨(j, p), (head?_enclosing_take hr).mpr ⟨⟨hp, hj⟩, hlast⟩, rfl⟩

lemma Grown.forest {l : List Placement} {rs : List Region} (h : Grown l rs)
    (hne : ∀ s ∈ l, ¬s.scope.Empty) (hl : l.Pairwise fun a b => a.scope.Leads b.scope) :
    Forest rs where
  nonempty := h.forall_scope (¬·.Empty) hne
  leads := by
    rw [← List.pairwise_map, h.scopes, List.pairwise_map]
    exact hl
  parent_iff hr := by
    obtain ⟨-, -, -, -, -, hp⟩ := h.exists_inside hr
    exact hp
  depth_eq r hr := by
    obtain ⟨i, hi⟩ := List.mem_iff_getElem?.mp hr
    obtain ⟨s, parent, -, hrs, ho, -⟩ := h.exists_inside hi
    rw [ho, hrs]
    cases parent <;> rfl
  effective_eq r hr := by
    obtain ⟨i, hi⟩ := List.mem_iff_getElem?.mp hr
    obtain ⟨s, parent, -, hrs, ho, -⟩ := h.exists_inside hi
    rw [ho, hrs]
    cases parent <;> rfl

lemma forest_resolveOrdered {l : List Placement} (h : Placement.OutsideIn l) :
    Forest (resolveOrdered l).1 :=
  (grown_resolveOrdered h).forest (Placement.outsideIn_nestable h).nonempty
    (Placement.leads_nestable h)

lemma forest_resolve (placements : List Placement) : Forest (Region.resolve placements).1 :=
  forest_resolveOrdered (Placement.outsideIn_ordered placements)

end Region

end TrustRegions
