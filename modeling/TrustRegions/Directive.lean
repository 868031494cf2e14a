import TrustRegions.Diagnostic
import TrustRegions.Trust

/-!
Directives: the annotations that the comments of a content make.
-/

namespace TrustRegions

inductive DirectiveForm where
  | single
  | merged
  | blockBegin
  | blockEnd
deriving DecidableEq, Repr

namespace DirectiveForm

def name : DirectiveForm → Bytes
  | single => ascii "single_line"
  | merged => ascii "multi_line_merged"
  | blockBegin => ascii "block_begin"
  | blockEnd => ascii "block_end"

def isBlock : DirectiveForm → Bool
  | blockBegin | blockEnd => true
  | single | merged => false

end DirectiveForm

structure Directive where
  ordinal : Nat
  form : DirectiveForm
  attributes : Attributes
  source : Span
  anchor : Position
  trailing : Bool
  partner : Option Nat := none
deriving DecidableEq

namespace Directive

def trustDiagnostics (d : Directive) : List Diagnostic :=
  match d.attributes.get? (ascii "trust") with
  | none => []
  | some (.list items) => [⟨.trustIsList, d.source.start, none, (Attribute.Value.list items).text⟩]
  | some (.scalar s) =>
    if (Trust.ofTag? s).isSome then [] else [⟨.trustIsUnknown s, d.source.start, none, s⟩]

end Directive

end TrustRegions
