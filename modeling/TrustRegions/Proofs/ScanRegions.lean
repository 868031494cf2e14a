import TrustRegions.Proofs.Annotations
import TrustRegions.Proofs.Resolution

/-! The regions of a scan: each starts at a column of the text and states what one of the directives
states, and the scan reports all trust that its directives state but that is none of the levels. -/

namespace TrustRegions

lemma exists_of_map_eq_ok {ε α β : Type} {f : α → β} {x : Except ε α} {b : β}
    (h : x.map f = .ok b) : ∃ a, x = .ok a ∧ f a = b := by
  cases x with
  | error e => simp [Except.map] at h
  | ok a => exact ⟨a, rfl, Except.ok.inj h⟩

lemma le_closersEnd (terminator : Bytes) (limit column : Nat) (text : Bytes) :
    column ≤ closersEnd terminator limit column text := by
  fun_induction closersEnd terminator limit column text with
  | case1 => exact le_rfl
  | case2 => exact le_rfl
  | case3 _ _ _ _ _ ih => exact (Nat.le_succ _).trans ih
  | case4 _ _ _ _ _ _ ih => exact (Nat.le_add_right _ _).trans ih
  | case5 => exact le_rfl

namespace Source

variable {s : Source} {lang : Language}

lemma column_ownLineScope (s : Source) (directive : Span) :
    1 ≤ (s.ownLineScope directive).start.column :=
  Nat.le_add_left 1 _

lemma column_trailingScope {directive : Span} (h : 1 ≤ directive.start.column) :
    1 ≤ (s.trailingScope lang directive).start.column := by
  refine le_min (le_trans ?_ (le_closersEnd _ _ _ _)) h
  exact Nat.le_add_left 1 _

lemma column_declarationScope {anchor : Position} {scope : Span}
    (h : s.declarationScope? lang anchor = .ok (some scope)) : 1 ≤ scope.start.column := by
  rw [declarationScope?] at h
  split at h
  · simp at h
  dsimp only at h
  split at h
  · simp at h
  split at h
  · split at h
    · simp at h
    · obtain ⟨stop, -, hs⟩ := exists_of_map_eq_ok h
      obtain rfl := Option.some.inj hs
      exact s.column_positionAt _
  · obtain ⟨line, -, hs⟩ := exists_of_map_eq_ok h
    obtain rfl := Option.some.inj hs
    exact s.column_positionAt _

lemma place?_spec {all : List Directive} {d : Directive} {q : Placement × List Diagnostic}
    (h : s.place? lang all d = some q) (hd : d.Placed) :
    q.1.directive = d ∧ 1 ≤ q.1.scope.start.column := by
  rw [place?] at h
  split at h
  · simp at h
  · obtain ⟨e, -, rfl⟩ := Option.map_eq_some_iff.mp h
    exact ⟨rfl, hd.2⟩
  all_goals
    split at h
    · obtain rfl := Option.some.inj h
      exact ⟨rfl, column_trailingScope hd.1⟩
    · split at h
      · next scope hs =>
        obtain rfl := Option.some.inj h
        exact ⟨rfl, column_declarationScope hs⟩
      · obtain rfl := Option.some.inj h
        exact ⟨rfl, s.column_ownLineScope _⟩
      · obtain rfl := Option.some.inj h
        exact ⟨rfl, s.column_ownLineScope _⟩

end Source

namespace Scan

variable {path tag content : Bytes}

lemma forest_scan (path tag content : Bytes) : Region.Forest (scan path tag content).regions :=
  Region.forest_resolve _

lemma mem_placed {source : Source} {lang : Language} {s : Placement}
    (hs : s ∈ ((source.directives lang).1.filterMap
      (source.place? lang (source.directives lang).1)).map (·.1)) :
    s.directive ∈ (source.directives lang).1 ∧ 1 ≤ s.scope.start.column := by
  obtain ⟨q, hq, rfl⟩ := List.mem_map.mp hs
  obtain ⟨d, hd, hdq⟩ := List.mem_filterMap.mp hq
  obtain ⟨he, hcolumn⟩ := Source.place?_spec hdq (Source.placed_of_mem_directives hd)
  exact ⟨he ▸ hd, hcolumn⟩

lemma region_spec {r : Region} (hr : r ∈ (scan path tag content).regions) :
    1 ≤ r.scope.start.column ∧
      ∃ d ∈ (scan path tag content).directives, r.attributes = d.attributes := by
  obtain ⟨s, hs, hshows⟩ := Region.exists_of_mem_resolve hr
  obtain ⟨hd, hcolumn⟩ := mem_placed hs
  exact ⟨hshows.scope ▸ hcolumn, s.directive, hd, hshows.attributes⟩

lemma trustDiagnostics_subperm (path tag content : Bytes) :
    ((scan path tag content).directives.flatMap Directive.trustDiagnostics).Subperm
      (scan path tag content).diagnostics := by
  refine List.Subperm.trans (List.Sublist.subperm ?_) (List.mergeSort_perm _ _).symm.subperm
  apply List.Sublist.trans ?_ (List.sublist_append_left _ _)
  apply List.Sublist.trans ?_ (List.sublist_append_left _ _)
  apply List.Sublist.trans ?_ (List.sublist_append_right _ _)
  exact Source.trustDiagnostics_sublist ⟨content⟩ (Language.ofTag tag)

lemma trustDiagnostics_subset {d : Directive} (hd : d ∈ (scan path tag content).directives) :
    d.trustDiagnostics ⊆ (scan path tag content).diagnostics := fun _ he =>
  (trustDiagnostics_subperm path tag content).subset (List.mem_flatMap_of_mem hd he)

end Scan

end TrustRegions
