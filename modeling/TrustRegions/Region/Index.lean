import TrustRegions.Region
import TrustRegions.Trust

/-!
Looking regions up by position. A look-up goes down from the outermost regions; the regions on one
level are disjoint and in order, so each step is a binary search.
-/

namespace TrustRegions

structure RegionIndex where
  regions : Array Region
  roots : Array Nat
  children : Array (Array Nat)

structure Governance where
  region : Nat
  scope : Span
  values : Attributes
deriving DecidableEq

namespace RegionIndex

def inside (regions : List Region) (parent : Option Nat) : List Nat :=
  (regions.zipIdx.filter fun r => r.1.parent == parent).map (·.2)

def ofRegions (regions : List Region) : RegionIndex where
  regions := regions.toArray
  roots := (inside regions none).toArray
  children := ((List.range regions.length).map fun i => (inside regions (some i)).toArray).toArray

def empty : RegionIndex := ⟨#[], #[], #[]⟩

instance : EmptyCollection RegionIndex := ⟨empty⟩

def startsBy (x : RegionIndex) (p : Position) (i : Nat) : Bool :=
  (x.regions[i]?).any fun r => r.scope.start ≤ p

/-- The number of regions of a level, those from `lo` to `hi` still in doubt, that start at or
before a position. -/
def countStarted (x : RegionIndex) (level : Array Nat) (p : Position) (lo hi : Nat) : Nat :=
  if h : lo < hi then
    let mid := (lo + hi) / 2
    if (level[mid]?).any (x.startsBy p) then countStarted x level p (mid + 1) hi
    else countStarted x level p lo mid
  else lo
termination_by hi - lo
decreasing_by all_goals omega

def findIn? (x : RegionIndex) (level : Array Nat) (p : Position) : Option Nat :=
  match x.countStarted level p 0 level.size with
  | 0 => none
  | n + 1 => level[n]?.filter fun i => (x.regions[i]?).any fun r => p ∈ r.scope

/-- The innermost region inside the region `i` that a position lies in, `i` itself if there is no
other. Regions come before those inside them, so each step goes up in the index. -/
def descend (x : RegionIndex) (p : Position) (i : Nat) : Nat :=
  match (x.children[i]?).bind fun level => x.findIn? level p with
  | none => i
  | some j => if i < j ∧ j < x.regions.size then descend x p j else i
termination_by x.regions.size - i

def deepest? (x : RegionIndex) (p : Position) : Option Nat :=
  (x.findIn? x.roots p).map (x.descend p)

def governance? (x : RegionIndex) (p : Position) : Option Governance := do
  let i ← x.deepest? p
  let r ← x.regions[i]?
  return ⟨i, r.scope, r.effective⟩

def touching (x : RegionIndex) (first last : Nat) : List (Region × Nat) :=
  x.regions.toList.zipIdx.filter fun r => r.1.scope.TouchesLines first last

end RegionIndex

end TrustRegions
