import TrustRegions.Proofs.Inheritance
import TrustRegions.Proofs.Reading

/-! What one more comment adds to the reports. Each report of a reader stands at the start of a comment
that it has read. -/

namespace TrustRegions

namespace DirectiveReader

inductive Reports (source : Source) (r : DirectiveReader) (c : Comment) : Diagnostic → Prop
  | marker {cause : Diagnostic.Cause} :
      cause.kind = .directiveSyntax ∨ cause.kind = .unbalancedBlock →
      Reports source r c ⟨cause, c.span.start, none, source.line c.span.start.line⟩
  | begun {d : Directive} {g : Diagnostic} : d.source = c.span → g ∈ d.trustDiagnostics →
      Reports source r c g
  | ended {q : DirectiveRun} {g : Diagnostic} : r.run = some q → g ∈ q.directive.trustDiagnostics →
      Reports source r c g

def Adds (P : Diagnostic → Prop) (r n : DirectiveReader) : Prop :=
  ∃ ds, n.diagnostics = r.diagnostics ++ ds ∧ ∀ g ∈ ds, P g

variable {source : Source} {c : Comment} {r n m : DirectiveReader} {P : Diagnostic → Prop}
  {g : Diagnostic} {rest : Bytes} {cs : List Comment}

lemma Adds.of_eq (h : n.diagnostics = r.diagnostics) : Adds P r n := ⟨[], by simpa using h, by simp⟩

lemma Adds.trans (h : Adds P r n) (h' : Adds P n m) : Adds P r m := by
  obtain ⟨ds, hn, hds⟩ := h
  obtain ⟨es, hm, hes⟩ := h'
  refine ⟨ds ++ es, by rw [hm, hn, List.append_assoc], fun g hg => ?_⟩
  exact (List.mem_append.mp hg).elim (hds g) (hes g)

lemma adds_endRun (source : Source) (r : DirectiveReader) (c : Comment) :
    Adds (r.Reports source c) r r.endRun := by
  rw [endRun]
  split
  · exact .of_eq rfl
  · next q hq => exact ⟨_, rfl, fun g hg => .ended hq hg⟩

lemma adds_reportAt {cause : Diagnostic.Cause} (n : DirectiveReader)
    (h : cause.kind = .directiveSyntax ∨ cause.kind = .unbalancedBlock) :
    Adds (r.Reports source c) n (n.reportAt source c cause) :=
  ⟨_, rfl, fun _ hg => List.mem_singleton.mp hg ▸ .marker h⟩

lemma adds_readSingle : Adds (r.Reports source c) r (r.readSingle source c rest) := by
  rw [readSingle]
  split
  · exact (adds_endRun source r c).trans (adds_reportAt _ (Or.inl rfl))
  · split
    · exact .of_eq rfl
    · exact (adds_endRun source r c).trans (.of_eq rfl)

lemma adds_readBegin (n : DirectiveReader) :
    Adds (r.Reports source c) n (n.readBegin source c rest) := by
  rw [readBegin]
  split
  · exact (adds_reportAt n (Or.inl rfl)).trans (.of_eq rfl)
  · exact ⟨_, rfl, fun g hg => .begun rfl hg⟩

lemma adds_closeBlock (n : DirectiveReader) :
    Adds (r.Reports source c) n (n.closeBlock source c) := by
  rw [closeBlock]
  split
  · exact (adds_reportAt n (Or.inr rfl)).trans (.of_eq rfl)
  · exact .of_eq rfl
  · exact .of_eq rfl

lemma adds_readEnd (n : DirectiveReader) :
    Adds (r.Reports source c) n (n.readEnd source c rest) := by
  rw [readEnd]
  split
  · exact adds_closeBlock n
  · exact (adds_reportAt n (Or.inl rfl)).trans (adds_closeBlock _)

lemma adds_read (source : Source) (r : DirectiveReader) (c : Comment) :
    Adds (r.Reports source c) r (r.read source c) := by
  have hend := adds_endRun source r c
  rw [read]
  split
  · exact hend
  · split
    · exact adds_readSingle
    · exact hend
  · exact hend.trans (adds_reportAt _ (Or.inl rfl))
  · exact hend.trans (adds_readBegin _)
  · exact hend.trans (adds_readEnd _)

def ReportedIn (cs : List Comment) (g : Diagnostic) : Prop :=
  g.kind ≠ .overlapNotNested ∧ g.related = none ∧ ∃ c ∈ cs, g.position = c.span.start

lemma reportedIn_of_trust {d : Directive} (hg : g ∈ d.trustDiagnostics) (hc : c ∈ cs)
    (hd : d.source.start = c.span.start) : ReportedIn cs g := by
  obtain ⟨hkind, hposition, hrelated⟩ := Directive.of_mem_trustDiagnostics hg
  exact ⟨by simp [hkind], hrelated, c, hc, hposition.trans hd⟩

lemma exists_spans_of_run (ho : Comment.InOrder cs) {q : DirectiveRun}
    (hq : (cs.foldl (read source) {}).run = some q) :
    ∃ first ∈ cs, ∃ last ∈ cs, q.directive.Spans first last :=
  ((of_foldl source cs).orderly ho).spans _ (by simp [reading, hq])

lemma reportedIn_of_reports (ho : Comment.InOrder cs)
    (hg : (cs.foldl (read source) {}).Reports source c g) : ReportedIn (cs ++ [c]) g := by
  cases hg with
  | marker h =>
    refine ⟨?_, rfl, c, by simp, rfl⟩
    rcases h with h | h <;> simp [Diagnostic.kind, h]
  | begun hd hg => exact reportedIn_of_trust (c := c) hg (by simp) (by rw [hd])
  | ended hq hg =>
    obtain ⟨first, hfirst, _, -, hs⟩ := exists_spans_of_run ho hq
    exact reportedIn_of_trust hg (List.mem_append_left _ hfirst) (by rw [hs.source_eq])

lemma reportedIn_foldl (ho : Comment.InOrder cs)
    (hg : g ∈ (cs.foldl (read source) {}).diagnostics) : ReportedIn cs g := by
  induction cs using List.reverseRecOn with
  | nil => simp at hg
  | append_singleton cs c ih =>
    obtain ⟨ds, hn, hds⟩ := adds_read source (cs.foldl (read source) {}) c
    rw [List.foldl_concat, hn] at hg
    rcases List.mem_append.mp hg with hg | hg
    · obtain ⟨hkind, hrelated, d, hd, hposition⟩ := ih ho.left hg
      exact ⟨hkind, hrelated, d, List.mem_append_left _ hd, hposition⟩
    · exact reportedIn_of_reports ho.left (hds g hg)

lemma reportedIn_endRun (ho : Comment.InOrder cs)
    (hg : g ∈ (cs.foldl (read source) {}).endRun.diagnostics) : ReportedIn cs g := by
  rw [endRun] at hg
  split at hg
  · exact reportedIn_foldl ho hg
  · next q hq =>
    rcases List.mem_append.mp hg with hg | hg
    · exact reportedIn_foldl ho hg
    · obtain ⟨first, hfirst, _, -, hs⟩ := exists_spans_of_run ho hq
      exact reportedIn_of_trust hg hfirst (by rw [hs.source_eq])

end DirectiveReader

end TrustRegions
