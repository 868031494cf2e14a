import TrustRegions.Scope

/-!
Regions: pieces of code with the attributes that hold there.
-/

namespace TrustRegions

structure Placement where
  directive : Directive
  scope : Span
  kind : ScopeKind
deriving DecidableEq

/-- How closely a directive was tied to its scope. Of two with the same scope the higher one governs
inside the lower. -/
def Placement.rank (p : Placement) : Nat :=
  match p.kind, p.directive.form with
  | .block, _ => 3
  | .declaration, .merged => 1
  | .declaration, _ => 2
  | .ownLine, _ => 0

structure Reference where
  ordinal : Nat
  form : DirectiveForm
  start : Position
deriving DecidableEq, Repr

def Directive.reference (d : Directive) : Reference := ⟨d.ordinal, d.form, d.source.start⟩

structure Region where
  scope : Span
  kind : ScopeKind
  form : DirectiveForm
  attributes : Attributes
  effective : Attributes
  provenance : List Reference
  parent : Option Nat
  depth : Nat
deriving DecidableEq

end TrustRegions
