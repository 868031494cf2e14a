import TrustRegions.Proofs.Verdict

/-! A scan that reports no trust value as invalid has none in force. -/

namespace TrustRegions.Scan

lemma trustValid_of_governance? {path tag content : Bytes}
    (hvalid : ∀ e ∈ (scan path tag content).diagnostics, e.kind ≠ .invalidTrustValue)
    {p : Position} {g : Governance} (hg : (scan path tag content).index.governance? p = some g) :
    g.values.TrustValid := by
  obtain ⟨r, -, hr, -, hvalues⟩ :=
    RegionIndex.exists_of_governance?_eq_some (forest_scan path tag content) hg
  rw [hvalues]
  exact (forest_scan path tag content).trustValid_effective (fun _ => trustValid_of_mem hvalid) hr

/-- If no trust value is reported as invalid, the trust at each position, if there is any, is one of
the levels. A directive whose trust is none of them has a report of its own, with its start and with
the text of the value. -/
theorem governance?_trust_level (path tag content : Bytes) :
    let s := scan path tag content
    ((∀ e ∈ s.diagnostics, e.kind ≠ .invalidTrustValue) →
      ∀ p g v, s.index.governance? p = some g → g.values.get? (ascii "trust") = some v →
        ∃ t : Trust, v = .scalar t.tag ∧ g.values.trust? = some t) ∧
    (∀ d ∈ s.directives, ∀ v, d.attributes.get? (ascii "trust") = some v →
      (∀ t : Trust, v ≠ .scalar t.tag) →
        ∃ e ∈ s.diagnostics, d.trustDiagnostics = [e] ∧ e.kind = .invalidTrustValue ∧
          e.position = d.source.start ∧ e.text = v.text) ∧
    (s.directives.flatMap Directive.trustDiagnostics).Subperm s.diagnostics := by
  intro s
  refine ⟨fun hvalid p g v hg hv => (trustValid_of_governance? hvalid hg).exists_level hv,
    fun d hd v hv hnot => ?_, trustDiagnostics_subperm path tag content⟩
  obtain ⟨e, he, hposition, htext⟩ := Directive.exists_trustDiagnostics_eq hv hnot
  have hmem : e ∈ d.trustDiagnostics := he ▸ List.mem_singleton_self e
  exact ⟨e, trustDiagnostics_subset hd hmem, he, Directive.kind_of_mem_trustDiagnostics hmem,
    hposition, htext⟩

def overruledTrust : Scan :=
  scan (ascii "a.py") (ascii "python")
    (ascii "# @collab trust=ANY\n# @collab trust=SUPERVISED\n# @collab:end\nx = 1\n")

theorem governance?_trust_level_overruledTrust :
    (∀ e ∈ overruledTrust.diagnostics, e.kind ≠ .invalidTrustValue) ∧
      ∃ g v, overruledTrust.index.governance? ⟨4, 1⟩ = some g ∧
        g.values.get? (ascii "trust") = some v ∧
        ∃ t : Trust, v = .scalar t.tag ∧ g.values.trust? = some t := by
  have hvalid : ∀ e ∈ overruledTrust.diagnostics, e.kind ≠ .invalidTrustValue := by
    decide +kernel
  have htrust : ((overruledTrust.index.governance? ⟨4, 1⟩).bind fun g =>
      g.values.get? (ascii "trust")) = some (.scalar (ascii "SUPERVISED")) := by
    decide +kernel
  obtain ⟨g, hg, hv⟩ := Option.bind_eq_some_iff.mp htrust
  exact ⟨hvalid, g, _, hg, hv, (governance?_trust_level _ _ _).1 hvalid _ g _ hg hv⟩

end TrustRegions.Scan
