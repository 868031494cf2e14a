import TrustRegions.Proofs.Forest
import TrustRegions.Trust

/-! What a region says holds in all regions inside it that do not say otherwise; where all trust that
is stated is valid, so is all that is inherited. -/

namespace TrustRegions

namespace KeyedMap

variable {β : Type}

lemma get?_foldl_insert {es : List (Bytes × β)} (h : es.Pairwise fun a b => a.1 < b.1)
    (m : KeyedMap β) (k : Bytes) :
    (es.foldl (fun m e => m.insert e.1 e.2) m).get? k =
      ((es.find? fun e => e.1 == k).map (·.2)).or (m.get? k) := by
  induction es generalizing m with
  | nil => rfl
  | cons e es ih =>
    obtain ⟨he, hes⟩ := List.pairwise_cons.mp h
    rw [List.foldl_cons, ih hes, get?_insert]
    by_cases hk : e.1 = k
    · have hnone : es.find? (fun x => x.1 == k) = none := by
        apply List.find?_eq_none.mpr
        intro x hx hxk
        have hlt := he x hx
        rw [hk, beq_iff_eq.mp hxk] at hlt
        exact List.lt_irrefl k hlt
      simp [hk, hnone]
    · simp [hk]

lemma get?_overlay (base top : KeyedMap β) (k : Bytes) :
    (base.overlay top).get? k = (top.get? k).or (base.get? k) :=
  get?_foldl_insert top.ascending base k

end KeyedMap

namespace Attributes

def TrustValid (a : Attributes) : Prop := (a.get? (ascii "trust")).isSome → a.trust?.isSome

lemma trust?_overlay {a : Attributes} (h : a.TrustValid) (base : Attributes) :
    Attributes.trust? (base.overlay a) = a.trust?.or base.trust? := by
  simp only [trust?, KeyedMap.get?_overlay]
  cases ha : a.get? (ascii "trust") with
  | none => rfl
  | some v =>
    have hs := h (by simp [ha])
    obtain ⟨t, ht⟩ := Option.isSome_iff_exists.mp hs
    rw [trust?] at ht
    rw [ha] at ht
    simp only [Option.some_or, ht]

lemma trustValid_empty : TrustValid ∅ := fun h => absurd h Bool.false_ne_true

lemma TrustValid.overlay {a base : Attributes} (ha : a.TrustValid) (hb : base.TrustValid) :
    TrustValid (base.overlay a) := by
  rw [TrustValid, trust?_overlay ha, KeyedMap.get?_overlay, Option.isSome_or, Option.isSome_or,
    Bool.or_eq_true, Bool.or_eq_true]
  exact Or.imp ha hb

lemma TrustValid.exists_level {a : Attributes} (h : a.TrustValid) {v : Attribute.Value}
    (hv : a.get? (ascii "trust") = some v) :
    ∃ t : Trust, v = .scalar t.tag ∧ a.trust? = some t := by
  obtain ⟨t, ht⟩ := Option.isSome_iff_exists.mp (h (by rw [hv]; rfl))
  have htag := ht
  rw [trust?] at htag
  rw [hv] at htag
  cases v with
  | scalar text => exact ⟨t, congrArg _ (Trust.tag_of_ofTag? htag).symm, ht⟩
  | list items => cases htag

end Attributes

namespace Directive

lemma of_mem_trustDiagnostics {d : Directive} {e : Diagnostic} (h : e ∈ d.trustDiagnostics) :
    e.kind = .invalidTrustValue ∧ e.position = d.source.start ∧ e.related = none := by
  rw [trustDiagnostics] at h
  split at h
  · simp at h
  · obtain rfl := List.mem_singleton.mp h
    exact ⟨rfl, rfl, rfl⟩
  · split at h
    · simp at h
    · obtain rfl := List.mem_singleton.mp h
      exact ⟨rfl, rfl, rfl⟩

lemma kind_of_mem_trustDiagnostics {d : Directive} {e : Diagnostic}
    (h : e ∈ d.trustDiagnostics) : e.kind = .invalidTrustValue :=
  (of_mem_trustDiagnostics h).1

lemma trustValid_of_trustDiagnostics {d : Directive} (h : d.trustDiagnostics = []) :
    d.attributes.TrustValid := by
  intro hs
  obtain ⟨v, hv⟩ := Option.isSome_iff_exists.mp hs
  rw [trustDiagnostics] at h
  rw [Attributes.trust?]
  rw [hv] at h ⊢
  cases v with
  | scalar s => simpa [Option.isSome_iff_ne_none] using h
  | list items => simp at h

lemma exists_trustDiagnostics_eq {d : Directive} {v : Attribute.Value}
    (hv : d.attributes.get? (ascii "trust") = some v) (hnot : ∀ t : Trust, v ≠ .scalar t.tag) :
    ∃ e, d.trustDiagnostics = [e] ∧ e.position = d.source.start ∧ e.text = v.text := by
  rw [trustDiagnostics]
  rw [hv]
  cases v with
  | list items => exact ⟨_, rfl, rfl, rfl⟩
  | scalar text =>
    have hnone : ¬(Trust.ofTag? text).isSome := fun h => by
      obtain ⟨t, ht⟩ := Option.isSome_iff_exists.mp h
      exact hnot t (congrArg _ (Trust.tag_of_ofTag? ht).symm)
    exact ⟨_, if_neg hnone, rfl, rfl⟩

end Directive

namespace Region

variable {rs : List Region} {i j : Nat} {q r : Region}

lemma Forest.effective_of_parent (h : Forest rs) (hr : rs[i]? = some r) (hp : r.parent = some j)
    (hq : rs[j]? = some q) : r.effective = q.effective.overlay r.attributes := by
  obtain ⟨q', hq', ho, -⟩ := h.exists_parent hr hp
  obtain rfl : q = q' := Option.some.inj (hq.symm.trans hq')
  rw [h.effective_eq r (List.mem_of_getElem? hr), ho]
  rfl

lemma Forest.trustValid_effective (h : Forest rs) (hv : ∀ r ∈ rs, r.attributes.TrustValid)
    (hr : rs[i]? = some r) : r.effective.TrustValid := by
  induction i using Nat.strongRecOn generalizing r with
  | ind i ih =>
    have hown := hv r (List.mem_of_getElem? hr)
    cases hp : r.parent with
    | none =>
      rw [h.effective_eq r (List.mem_of_getElem? hr), outer?, hp]
      exact hown.overlay Attributes.trustValid_empty
    | some j =>
      obtain ⟨q, hq, -⟩ := h.exists_parent hr hp
      rw [h.effective_of_parent hr hp hq]
      exact hown.overlay (ih j (h.covering_of_parentOf ⟨r, hr, hp⟩).1 hq)

lemma Forest.trust_of_covering (h : Forest rs) (hv : ∀ r ∈ rs, r.attributes.TrustValid)
    (hc : Covering rs i j) (hi : rs[i]? = some q) (hj : rs[j]? = some r)
    (ht : q.effective.trust?.isSome) : r.effective.trust?.isSome := by
  induction j using Nat.strongRecOn generalizing r with
  | ind j ih =>
    obtain ⟨k, hk, hik⟩ := h.exists_parentOf hc
    have hkj := h.covering_of_parentOf hk
    obtain ⟨r', hr', hpar⟩ := hk
    obtain rfl : r = r' := Option.some.inj (hj.symm.trans hr')
    obtain ⟨u, hu, -, -⟩ := h.exists_parent hj hpar
    have htrust : u.effective.trust?.isSome := by
      rcases hik with rfl | hik
      · obtain rfl : q = u := Option.some.inj (hi.symm.trans hu)
        exact ht
      · exact ih k hkj.1 hik hu
    rw [h.effective_of_parent hj hpar hu, Attributes.trust?_overlay (hv r (List.mem_of_getElem? hj)),
      Option.isSome_or, htrust, Bool.or_true]

end Region

end TrustRegions
