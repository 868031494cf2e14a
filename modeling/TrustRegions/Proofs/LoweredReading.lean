import TrustRegions.Proofs.Lowering
import TrustRegions.Proofs.Reading

/-! A reader of comments that stand further down finds the same directives further down, and has the same
to report there. Of a comment that makes no directive only its start counts. -/

namespace TrustRegions

def Directive.down (k : Nat) (d : Directive) : Directive :=
  { d with source := d.source.down k, anchor := d.anchor.down k }

def ScopeFault.down (k : Nat) : ScopeFault → ScopeFault
  | openBlock line => openBlock (line + k)
  | openBracket line => openBracket (line + k)
  | openStatement line => openStatement (line + k)
  | missingTerminator line terminator => missingTerminator (line + k) terminator

namespace Diagnostic

def Cause.down (k : Nat) : Cause → Cause
  | noExtent fault => noExtent (fault.down k)
  | crossing later earlier => crossing (later.down k) (earlier.down k)
  | cause => cause

def down (k : Nat) (g : Diagnostic) : Diagnostic :=
  { g with
    cause := g.cause.down k
    position := g.position.down k
    related := g.related.map (Position.down k) }

end Diagnostic

def DirectiveRun.down (k : Nat) (q : DirectiveRun) : DirectiveRun :=
  { q with directive := q.directive.down k }

def OpenBlock.down (k : Nat) (o : OpenBlock) : OpenBlock := { o with start := o.start.down k }

def DirectiveReader.down (k : Nat) (r : DirectiveReader) : DirectiveReader where
  directives := r.directives.map (Directive.down k)
  run := r.run.map (DirectiveRun.down k)
  count := r.count
  blocks := r.blocks.map (OpenBlock.down k)
  strayEnds := r.strayEnds.map (Position.down k)
  diagnostics := r.diagnostics.map (Diagnostic.down k)

structure Comment.Lowers (k : Nat) (c c' : Comment) : Prop where
  style_eq : c'.style = c.style
  delimiter_eq : c'.delimiter = c.delimiter
  marker_eq : Marker.ofComment c' = Marker.ofComment c
  start_eq : c'.span.start = c.span.start.down k
  stop_eq : c.role ≠ .plain → c'.span.stop = c.span.stop.down k
  trailing_eq : c'.trailing = c.trailing

variable {k : Nat} {c c' : Comment}

lemma Comment.Lowers.span_eq (h : c.Lowers k c') (hc : c.role ≠ .plain) : c'.span = c.span.down k :=
  congrArg₂ Span.mk h.start_eq (h.stop_eq hc)

lemma Comment.lowers_down (k : Nat) (c : Comment) : c.Lowers k (c.down k) :=
  ⟨rfl, rfl, rfl, rfl, fun _ => rfl, rfl⟩

lemma Directive.down_zero : down 0 = id := rfl

lemma Diagnostic.down_zero : down 0 = id := by
  funext g
  obtain ⟨cause, position, related, text⟩ := g
  rcases cause with _ | _ | _ | _ | _ | _ | fault | _ | _ | _
  case noExtent => cases fault <;> cases related <;> rfl
  all_goals cases related <;> rfl

lemma Directive.trustDiagnostics_down (k : Nat) (d : Directive) :
    (d.down k).trustDiagnostics = d.trustDiagnostics.map (Diagnostic.down k) := by
  simp only [trustDiagnostics, down]
  cases d.attributes.get? (ascii "trust") with
  | none => rfl
  | some v =>
    cases v with
    | list items => rfl
    | scalar s =>
      dsimp only
      split <;> rfl

namespace DirectiveReader

variable {s s' : Source} {cs cs' : List Comment} {rest : Bytes} {r : DirectiveReader}

lemma endRun_down (k : Nat) (r : DirectiveReader) : (r.down k).endRun = r.endRun.down k := by
  obtain ⟨ds, run, n, blocks, strays, gs⟩ := r
  cases run with
  | none => rfl
  | some q => simp [endRun, down, DirectiveRun.down, Directive.trustDiagnostics_down]

lemma directive_lowers (h : c.Lowers k c') (hc : c.role ≠ .plain) (form : DirectiveForm)
    (a : Attributes) (r : DirectiveReader) :
    (r.down k).directive form a c' = (r.directive form a c).down k := by
  simp only [directive, h.span_eq hc, h.trailing_eq]
  rfl

lemma pairUp_down (o n : Nat) (d : Directive) :
    Reading.pairUp o n (d.down k) = (Reading.pairUp o n d).down k := by
  by_cases h : d.ordinal = o <;> simp [Reading.pairUp, Directive.down, h]

section

variable (hline : ∀ n, s'.line (n + k) = s.line n)

include hline

lemma reportAt_lowers (h : c.Lowers k c') {cause : Diagnostic.Cause} (hcause : cause.down k = cause)
    (r : DirectiveReader) : (r.down k).reportAt s' c' cause = (r.reportAt s c cause).down k := by
  simp [reportAt, report, down, Diagnostic.down, hcause, h.start_eq, hline]

lemma continuesWith_lowers (h : c.Lowers k c') (q : DirectiveRun) :
    (q.down k).continuesWith s' c' = q.continuesWith s c := by
  have hnext : (c.span.start.line + k == q.directive.source.stop.line + k + 1) =
      (c.span.start.line == q.directive.source.stop.line + 1) := by
    rw [Bool.eq_iff_iff, beq_iff_eq, beq_iff_eq]
    omega
  simp only [DirectiveRun.continuesWith, DirectiveRun.down, Directive.down, Source.isClearAfter,
    h.style_eq, h.delimiter_eq, h.start_eq, h.trailing_eq, Span.stop_down, Position.line_down,
    Position.column_down, hline, hnext]

lemma readSingle_lowers (h : c.Lowers k c')
    (hc : ∀ a, Attributes.read rest = .ok a → c.role ≠ .plain) (r : DirectiveReader) :
    (r.down k).readSingle s' c' rest = (r.readSingle s c rest).down k := by
  rw [readSingle, readSingle, endRun_down]
  cases ha : Attributes.read rest with
  | error e => exact reportAt_lowers hline h rfl _
  | ok a =>
    have hspan := h.span_eq (hc a ha)
    have hrun : ((r.down k).run.filter fun q => q.continuesWith s' c') =
        (r.run.filter fun q => q.continuesWith s c).map (DirectiveRun.down k) := by
      rw [down]
      cases r.run with
      | none => rfl
      | some q => simp only [Option.map_some, Option.filter_some, continuesWith_lowers hline h]; split <;> rfl
    dsimp only
    rw [hrun]
    cases r.run.filter fun q => q.continuesWith s c with
    | some q => simp only [Option.map_some, DirectiveRun.extend, hspan]; rfl
    | none =>
      simp only [Option.map_none, directive_lowers h (hc a ha), h.style_eq, h.delimiter_eq]
      rfl

lemma readBegin_lowers (h : c.Lowers k c') (hc : c.role ≠ .plain) (r : DirectiveReader) :
    (r.down k).readBegin s' c' rest = (r.readBegin s c rest).down k := by
  rw [readBegin, readBegin]
  cases Attributes.read rest with
  | error e =>
    dsimp only
    rw [reportAt_lowers hline h rfl, h.start_eq]
    rfl
  | ok a =>
    dsimp only
    rw [directive_lowers h hc, h.start_eq, Directive.trustDiagnostics_down]
    simp only [down, List.map_append, List.map_cons, List.map_nil]
    rfl

lemma closeBlock_lowers (h : c.Lowers k c') (hc : c.role ≠ .plain) (r : DirectiveReader) :
    (r.down k).closeBlock s' c' = (r.closeBlock s c).down k := by
  have hblocks : (r.down k).blocks = r.blocks.map (OpenBlock.down k) := rfl
  rw [closeBlock, closeBlock, hblocks]
  rcases r.blocks with _ | ⟨⟨ordinal, start⟩, blocks⟩
  · dsimp only [List.map_nil]
    rw [reportAt_lowers hline h rfl, h.start_eq]
    simp only [down, List.map_append, List.map_cons, List.map_nil]
  · cases ordinal with
    | none => rfl
    | some ordinal =>
      have hopened : (r.down k).directives.map (Reading.pairUp ordinal r.count) =
          (r.directives.map (Reading.pairUp ordinal r.count)).map (Directive.down k) := by
        rw [down, List.map_map, List.map_map]
        exact List.map_congr_left fun d _ => pairUp_down ordinal r.count d
      dsimp only [List.map_cons, OpenBlock.down]
      rw [directive_lowers h hc]
      refine (congrArg (DirectiveReader.mk · _ _ _ _ _) (congrArg (· ++ _) hopened)).trans ?_
      simp only [down, List.map_append, List.map_cons, List.map_nil]
      rfl

lemma readEnd_lowers (h : c.Lowers k c') (hc : c.role ≠ .plain) (r : DirectiveReader) :
    (r.down k).readEnd s' c' rest = (r.readEnd s c rest).down k := by
  rw [readEnd, readEnd]
  split
  · exact closeBlock_lowers hline h hc r
  · rw [reportAt_lowers hline h rfl]
    exact closeBlock_lowers hline h hc _

lemma read_lowers (h : c.Lowers k c') (r : DirectiveReader) :
    (r.down k).read s' c' = (r.read s c).down k := by
  rw [read, read, h.marker_eq, endRun_down]
  cases hm : Marker.ofComment c with
  | none => rfl
  | unknown word rest => exact reportAt_lowers hline h rfl _
  | single rest =>
    dsimp only
    split
    · next hlike =>
      refine readSingle_lowers hline h (fun a ha => ?_) r
      simp [Comment.role, hm, hlike, ha, Except.toOption]
    · rfl
  | blockBegin rest =>
    have hc : c.role ≠ .plain := by simp [Comment.role, hm]
    exact readBegin_lowers hline h hc _
  | blockEnd rest =>
    have hc : c.role ≠ .plain := by simp [Comment.role, hm]
    exact readEnd_lowers hline h hc _

lemma foldl_read_lowers (h : List.Forall₂ (Comment.Lowers k) cs cs') (r : DirectiveReader) :
    cs'.foldl (read s') (r.down k) = (cs.foldl (read s) r).down k := by
  induction h generalizing r with
  | nil => rfl
  | cons hc _ ih => rw [List.foldl_cons, List.foldl_cons, read_lowers hline hc, ih]

end

lemma isReliable_down (k : Nat) (r : DirectiveReader) (d : Directive) :
    (r.down k).isReliable (d.down k) = r.isReliable d := by
  have himbalances : (r.down k).imbalances = r.imbalances.map (Position.down k) := by
    simp [imbalances, down, OpenBlock.down, Function.comp_def]
  simp [isReliable, himbalances, Directive.down, Function.comp_def]

end DirectiveReader

lemma Directive.ofComments_lowers {s s' : Source} {cs cs' : List Comment}
    (hline : ∀ n, s'.line (n + k) = s.line n)
    (hend : s'.positionAt s'.content.length = (s.positionAt s.content.length).down k)
    (h : List.Forall₂ (Comment.Lowers k) cs cs') :
    ofComments s' cs' = ((ofComments s cs).1.map (Directive.down k),
      (ofComments s cs).2.map (Diagnostic.down k)) := by
  have hread := DirectiveReader.foldl_read_lowers hline h {}
  have hfold : (cs'.foldl (DirectiveReader.read s') {}).endRun =
      (cs.foldl (DirectiveReader.read s) {}).endRun.down k := by
    rw [← DirectiveReader.endRun_down, ← hread]
    rfl
  rw [ofComments, ofComments, hfold]
  generalize (cs.foldl (DirectiveReader.read s) {}).endRun = r
  have hopen : (r.down k).openBlockDiagnostics s' =
      (r.openBlockDiagnostics s).map (Diagnostic.down k) := by
    simp [DirectiveReader.openBlockDiagnostics, DirectiveReader.down, OpenBlock.down, Diagnostic.down,
      Diagnostic.Cause.down, Function.comp_def, hend, hline]
  have hreliable : (r.directives.map (down k)).filter (r.down k).isReliable =
      (r.directives.filter r.isReliable).map (down k) := by
    rw [List.filter_map, Function.comp_def]
    simp only [DirectiveReader.isReliable_down]
  rw [hopen, List.map_append, ← hreliable]
  rfl

end TrustRegions
