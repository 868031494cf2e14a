import TrustRegions.Region

/-!
From scopes to regions. Scopes that cross another are refused. The others are nested or disjoint;
each becomes a region inside the innermost scope around it, whose attributes it inherits.
-/

namespace TrustRegions

namespace Placement

abbrev Before (a b : Placement) : Prop :=
  a.scope.start < b.scope.start ∨ (a.scope.start = b.scope.start ∧
    (b.scope.stop < a.scope.stop ∨ (a.scope.stop = b.scope.stop ∧
      (a.rank < b.rank ∨ (a.rank = b.rank ∧ a.directive.ordinal < b.directive.ordinal)))))

abbrev Crosses (a b : Placement) : Prop :=
  a.scope.Overlaps b.scope ∧ ¬a.scope.Covers b.scope ∧ ¬b.scope.Covers a.scope

def ordered (placements : List Placement) : List Placement :=
  (placements.filter fun s => !decide s.scope.Empty).mergeSort fun a b => !decide (b.Before a)

/-- The pairs of a list from the outside in that cross, each with the earlier one first. Whatever
starts where a scope ends, or later, cannot cross it, nor can anything that follows. -/
def crossings : List Placement → List (Placement × Placement)
  | [] => []
  | a :: l =>
    let started := l.takeWhile fun b => b.scope.start < a.scope.stop
    (started.filter fun b => !decide (a.scope.Covers b.scope ∨ b.scope.Covers a.scope)).map (a, ·) ++
      crossings l

def crossingDiagnostic (earlier later : Placement) : Diagnostic :=
  ⟨.crossing later.scope earlier.scope, later.directive.source.start,
    some earlier.directive.source.start, []⟩

def nestable (l : List Placement) : List Placement :=
  let refused := (crossings l).flatMap fun p => [p.1, p.2]
  l.filter (· ∉ refused)

def region (s : Placement) (parent : Option (Nat × Region)) : Region where
  scope := s.scope
  kind := s.kind
  form := s.directive.form
  attributes := s.directive.attributes
  effective := (parent.elim ∅ (·.2.effective)).overlay s.directive.attributes
  provenance := parent.elim [] (·.2.provenance) ++ [s.directive.reference]
  parent := parent.map (·.1)
  depth := parent.elim 0 (·.2.depth + 1)

/-- The regions of scopes that come from the outside in, numbered from `next` on. `around` holds
the regions around the scope before, the innermost first. -/
def regionsFrom (next : Nat) (around : List (Nat × Region)) : List Placement → List Region
  | [] => []
  | s :: l =>
    let around := around.dropWhile fun r => !decide (r.2.scope.Covers s.scope)
    let r := s.region around.head?
    r :: regionsFrom (next + 1) ((next, r) :: around) l

end Placement

namespace Region

def resolveOrdered (l : List Placement) : List Region × List Diagnostic :=
  (Placement.regionsFrom 0 [] (Placement.nestable l),
    (Placement.crossings l).map fun p => Placement.crossingDiagnostic p.1 p.2)

def resolve (placements : List Placement) : List Region × List Diagnostic :=
  resolveOrdered (Placement.ordered placements)

end Region

end TrustRegions
