import Mathlib.Data.List.Basic
import Mathlib.Data.List.Flatten
import Mathlib.Tactic.Lemma
import TrustRegions.Scan

/-! Every directive of a content stands at a column of its text, and trust that a directive states but
that is none of the levels is reported. -/

namespace TrustRegions

lemma Position.column_foldl_advance {p : Position} (hp : 1 ≤ p.column) (content : Bytes) :
    1 ≤ (content.foldl advance p).column := by
  induction content generalizing p with
  | nil => exact hp
  | cons c content ih =>
    apply ih
    rw [advance]
    split
    · exact Nat.le_refl 1
    · exact Nat.le_succ_of_le hp

lemma Source.column_positionAt (s : Source) (offset : Nat) : 1 ≤ (s.positionAt offset).column :=
  Position.column_foldl_advance (Nat.le_refl 1) _

def Comment.InText (c : Comment) : Prop := 1 ≤ c.span.start.column ∧ 1 ≤ c.span.stop.column

lemma Comment.inText_of_mem {source : Source} {lang : Language} {c : Comment}
    (h : c ∈ source.comments lang) : c.InText := by
  obtain ⟨s, -, hs⟩ := List.mem_filterMap.mp h
  rw [Comment.ofSegment?] at hs
  split at hs
  · obtain rfl := Option.some.inj hs
    refine ⟨source.column_positionAt _, ?_⟩
    dsimp only
    split
    · exact Nat.le_add_left 1 _
    · exact source.column_positionAt _
  · simp at hs

namespace Directive

def Placed (d : Directive) : Prop := 1 ≤ d.source.start.column ∧ 1 ≤ d.anchor.column

end Directive

namespace DirectiveReader

structure Checked (r : DirectiveReader) : Prop where
  placed : ∀ d ∈ r.directives, d.Placed
  run_placed : ∀ run, r.run = some run → run.directive.Placed
  reported : (r.directives.flatMap Directive.trustDiagnostics).Sublist r.diagnostics

variable {r : DirectiveReader} {source : Source} {c : Comment}

lemma Checked.report (h : r.Checked) (ds : List Diagnostic) : (r.report ds).Checked where
  placed := h.placed
  run_placed := h.run_placed
  reported := h.reported.trans (List.sublist_append_left _ _)

lemma Checked.reportAt (h : r.Checked) (source : Source) (c : Comment) (cause : Diagnostic.Cause) :
    (r.reportAt source c cause).Checked := h.report _

lemma Checked.concat (h : r.Checked) {d : Directive} (hd : d.Placed) (count : Nat)
    (run : Option DirectiveRun) (hrun : ∀ q, run = some q → q.directive.Placed)
    (blocks : List OpenBlock) :
    Checked { r with
      directives := r.directives ++ [d]
      run := run
      count := count
      blocks := blocks
      diagnostics := r.diagnostics ++ d.trustDiagnostics } where
  placed e he := by
    rcases List.mem_append.mp he with he | he
    · exact h.placed e he
    · exact List.mem_singleton.mp he ▸ hd
  run_placed := hrun
  reported := by
    rw [List.flatMap_append, List.flatMap_singleton]
    exact h.reported.append (List.Sublist.refl _)

lemma Checked.endRun (h : r.Checked) : r.endRun.Checked := by
  rw [DirectiveReader.endRun]
  split
  · exact h
  · next run hr => exact h.concat (h.run_placed run hr) r.count none (by simp) r.blocks

lemma placed_directive (hc : c.InText) (form : DirectiveForm) (attributes : Attributes) :
    (r.directive form attributes c).Placed := hc

lemma placed_extend {q : DirectiveRun} (hq : q.directive.Placed) (hc : c.InText)
    (attributes : Attributes) : (q.extend c attributes).directive.Placed := ⟨hq.1, hc.2⟩

lemma Checked.setRun (h : r.Checked) {q : DirectiveRun} (hq : q.directive.Placed) (count : Nat) :
    Checked { r with run := some q, count := count } where
  placed := h.placed
  run_placed _ he := Option.some.inj he ▸ hq
  reported := h.reported

lemma Checked.readSingle (h : r.Checked) {rest : Bytes} (hc : c.InText) :
    (r.readSingle source c rest).Checked := by
  rw [DirectiveReader.readSingle]
  split
  · exact h.endRun.report _
  · split
    · next run hr =>
      have hrun := h.run_placed run (Option.filter_eq_some_iff.mp hr).1
      exact h.setRun (placed_extend hrun hc _) r.count
    · exact h.endRun.setRun (placed_directive hc .single _) _

lemma Checked.readBegin (h : r.Checked) {rest : Bytes} (hc : c.InText) :
    (r.readBegin source c rest).Checked := by
  rw [DirectiveReader.readBegin]
  split
  · obtain ⟨hp, hr, hd⟩ := h.reportAt source c (.badAttributes _)
    exact ⟨hp, hr, hd⟩
  · exact h.concat (placed_directive hc .blockBegin _) _ r.run h.run_placed _

lemma flatMap_trustDiagnostics_paired (ds : List Directive) (ordinal : Nat) (partner : Option Nat) :
    (ds.map fun b => if b.ordinal = ordinal then { b with partner := partner } else b).flatMap
      Directive.trustDiagnostics = ds.flatMap Directive.trustDiagnostics := by
  rw [List.flatMap_map]
  refine List.flatMap_congr fun b _ => ?_
  split <;> rfl

lemma Checked.closeBlock (h : r.Checked) (hc : c.InText) :
    (r.closeBlock source c).Checked := by
  rw [DirectiveReader.closeBlock]
  split
  · obtain ⟨hp, hr, hd⟩ := h.reportAt source c .endWithoutBegin
    exact ⟨hp, hr, hd⟩
  · exact ⟨h.placed, h.run_placed, h.reported⟩
  · -- Pairing a begin marker changes neither where it stands nor what it states.
    constructor
    · intro e he
      rcases List.mem_append.mp he with he | he
      · obtain ⟨d, hd, rfl⟩ := List.mem_map.mp he
        dsimp only
        split <;> exact h.placed d hd
      · obtain rfl := List.mem_singleton.mp he
        exact hc
    · exact h.run_placed
    · dsimp only
      rw [List.flatMap_append, flatMap_trustDiagnostics_paired]
      exact (List.append_nil _).symm ▸ h.reported

lemma Checked.readEnd (h : r.Checked) {rest : Bytes} (hc : c.InText) :
    (r.readEnd source c rest).Checked := by
  rw [DirectiveReader.readEnd]
  split
  · exact h.closeBlock hc
  · exact (h.report _).closeBlock hc

lemma Checked.read (h : r.Checked) (hc : c.InText) :
    (r.read source c).Checked := by
  rw [DirectiveReader.read]
  split
  · exact h.endRun
  · split
    · exact h.readSingle hc
    · exact h.endRun
  · exact h.endRun.report _
  · exact h.endRun.readBegin hc
  · exact h.endRun.readEnd hc

lemma checked_foldl (source : Source) {cs : List Comment} (hc : ∀ c ∈ cs, c.InText) :
    (cs.foldl (DirectiveReader.read source) {}).Checked := by
  refine List.foldlRecOn _ _ ?_ fun r h c hcs => h.read (hc c hcs)
  exact ⟨by simp, by simp, by simp⟩

end DirectiveReader

lemma Source.checked_directives (source : Source) (lang : Language) :
    ((source.comments lang).foldl (DirectiveReader.read source) {}).endRun.Checked :=
  (DirectiveReader.checked_foldl source fun _ hc => Comment.inText_of_mem hc).endRun

lemma Source.placed_of_mem_directives {source : Source} {lang : Language} {d : Directive}
    (hd : d ∈ (source.directives lang).1) : d.Placed :=
  (source.checked_directives lang).placed d (List.mem_filter.mp hd).1

lemma Source.trustDiagnostics_sublist (source : Source) (lang : Language) :
    ((source.directives lang).1.flatMap Directive.trustDiagnostics).Sublist
      (source.directives lang).2 := by
  refine List.Sublist.trans ?_ (List.sublist_append_left _ _)
  exact (List.filter_sublist.flatMap _).trans (source.checked_directives lang).reported

end TrustRegions
