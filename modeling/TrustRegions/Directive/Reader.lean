import TrustRegions.Directive
import TrustRegions.Marker

/-!
The directives of a content, read comment by comment. Single directives on successive lines merge
into one; begin and end markers pair up last in, first out. From the first marker without a partner
on, no block marker counts.
-/

namespace TrustRegions

structure DirectiveRun where
  directive : Directive
  style : CommentStyle
  delimiter : Bytes
deriving DecidableEq

structure OpenBlock where
  ordinal : Option Nat
  start : Position
deriving DecidableEq, Repr

structure DirectiveReader where
  directives : List Directive := []
  run : Option DirectiveRun := none
  count : Nat := 0
  blocks : List OpenBlock := []
  strayEnds : List Position := []
  diagnostics : List Diagnostic := []

def Source.isClearAfter (source : Source) (p : Position) : Bool :=
  ((source.line p.line).drop (p.column - 1)).all isBlank

def DirectiveRun.continuesWith (run : DirectiveRun) (source : Source) (next : Comment) : Bool :=
  !run.directive.trailing && !next.trailing &&
    run.style == next.style && run.delimiter == next.delimiter &&
    next.span.start.line == run.directive.source.stop.line + 1 &&
    source.isClearAfter run.directive.source.stop

def DirectiveRun.extend (run : DirectiveRun) (c : Comment) (attributes : Attributes) : DirectiveRun :=
  { run with
    directive :=
      { run.directive with
        form := .merged
        attributes := run.directive.attributes.overlay attributes
        source := { run.directive.source with stop := c.span.stop }
        anchor := c.span.stop } }

namespace DirectiveReader

def report (r : DirectiveReader) (ds : List Diagnostic) : DirectiveReader :=
  { r with diagnostics := r.diagnostics ++ ds }

def reportAt (r : DirectiveReader) (source : Source) (c : Comment) (cause : Diagnostic.Cause) :
    DirectiveReader :=
  r.report [⟨cause, c.span.start, none, source.line c.span.start.line⟩]

def endRun (r : DirectiveReader) : DirectiveReader :=
  match r.run with
  | none => r
  | some run =>
    { r with
      run := none
      directives := r.directives ++ [run.directive]
      diagnostics := r.diagnostics ++ run.directive.trustDiagnostics }

def directive (r : DirectiveReader) (form : DirectiveForm) (attributes : Attributes) (c : Comment) :
    Directive where
  ordinal := r.count
  form := form
  attributes := attributes
  source := c.span
  anchor := c.span.stop
  trailing := c.trailing

def readSingle (r : DirectiveReader) (source : Source) (c : Comment) (rest : Bytes) :
    DirectiveReader :=
  match Attributes.read rest with
  | .error e => r.endRun.reportAt source c (.badAttributes e.fault)
  | .ok attributes =>
    match r.run.filter fun run => run.continuesWith source c with
    | some run => { r with run := some (run.extend c attributes) }
    | none =>
      let r := r.endRun
      { r with
        run := some ⟨r.directive .single attributes c, c.style, c.delimiter⟩
        count := r.count + 1 }

def readBegin (r : DirectiveReader) (source : Source) (c : Comment) (rest : Bytes) :
    DirectiveReader :=
  match Attributes.read rest with
  | .error e =>
    let r := r.reportAt source c (.badAttributes e.fault)
    { r with blocks := ⟨none, c.span.start⟩ :: r.blocks }
  | .ok attributes =>
    let d := r.directive .blockBegin attributes c
    { r with
      directives := r.directives ++ [d]
      count := r.count + 1
      blocks := ⟨some d.ordinal, c.span.start⟩ :: r.blocks
      diagnostics := r.diagnostics ++ d.trustDiagnostics }

def closeBlock (r : DirectiveReader) (source : Source) (c : Comment) : DirectiveReader :=
  match r.blocks with
  | [] =>
    let r := r.reportAt source c .endWithoutBegin
    { r with strayEnds := r.strayEnds ++ [c.span.start] }
  | ⟨none, _⟩ :: blocks => { r with blocks := blocks }
  | ⟨some ordinal, _⟩ :: blocks =>
    let d := { r.directive .blockEnd ∅ c with partner := some ordinal }
    let opened := r.directives.map fun b =>
      if b.ordinal = ordinal then { b with partner := some d.ordinal } else b
    { r with directives := opened ++ [d], count := r.count + 1, blocks := blocks }

def readEnd (r : DirectiveReader) (source : Source) (c : Comment) (rest : Bytes) :
    DirectiveReader :=
  let r := if rest.all isBlank then r else r.reportAt source c .textAfterEnd
  r.closeBlock source c

def read (source : Source) (r : DirectiveReader) (c : Comment) : DirectiveReader :=
  match Marker.ofComment c with
  | .none => r.endRun
  | .single rest => if Marker.isAttributeLike rest then r.readSingle source c rest else r.endRun
  | .unknown word _ => r.endRun.reportAt source c (.unknownMarker word)
  | .blockBegin rest => r.endRun.readBegin source c rest
  | .blockEnd rest => r.endRun.readEnd source c rest

def imbalances (r : DirectiveReader) : List Position :=
  r.strayEnds ++ r.blocks.map (·.start)

def isReliable (r : DirectiveReader) (d : Directive) : Bool :=
  !d.form.isBlock || r.imbalances.all (d.source.start < ·)

def openBlockDiagnostics (r : DirectiveReader) (source : Source) : List Diagnostic :=
  r.blocks.reverse.map fun b =>
    ⟨.beginWithoutEnd, source.positionAt source.content.length, some b.start, source.line b.start.line⟩

end DirectiveReader

namespace Directive

def ofComments (source : Source) (comments : List Comment) : List Directive × List Diagnostic :=
  let r := (comments.foldl (DirectiveReader.read source) {}).endRun
  (r.directives.filter r.isReliable, r.diagnostics ++ r.openBlockDiagnostics source)

end Directive

def Source.directives (source : Source) (lang : Language) : List Directive × List Diagnostic :=
  Directive.ofComments source (source.comments lang)

end TrustRegions
