import TrustRegions.Region.Index
import TrustRegions.Trust.Glob

/-!
Who decides how far a piece of code is trusted: an annotation in the code first, then a rule for some
of its lines, then the first rule for its path, and then the default.
-/

namespace TrustRegions

structure PathRule where
  pattern : Bytes
  trust : Trust
  owner : Bytes
  reason : Bytes
deriving DecidableEq

structure LineRule where
  file : Bytes
  first : Nat
  last : Nat
  trust : Trust
  reason : Bytes
deriving DecidableEq

structure TrustRules where
  default : Trust := .supervised
  paths : List PathRule := []
  lines : List LineRule := []
deriving DecidableEq

structure LineRange where
  first : Nat
  last : Nat
deriving DecidableEq, Repr

namespace LineRange

def lo (r : LineRange) : Nat := min r.first r.last

def hi (r : LineRange) : Nat := max r.first r.last

end LineRange

inductive Authority where
  | directive
  | lines
  | path
  | default
deriving DecidableEq, Repr

def Authority.name : Authority → Bytes
  | directive => ascii "annotation"
  | lines => ascii "region"
  | path => ascii "policy"
  | default => ascii "default"

structure Verdict where
  trust : Trust
  authority : Authority
  reason : Bytes
  owner : Option Bytes := none
  intent : Option Bytes := none
  constraints : List Bytes := []
  scope : Option Span := none
deriving DecidableEq

def deepestRegion? : List (Region × Trust) → Option (Region × Trust)
  | [] => none
  | r :: rs =>
    match deepestRegion? rs with
    | none => some r
    | some d => if r.1.depth < d.1.depth then some d else some r

def RegionIndex.verdict? (x : RegionIndex) (lines : LineRange) : Option Verdict :=
  let stated := (x.touching lines.lo lines.hi).filterMap fun r =>
    r.1.effective.trust?.map fun t => (r.1, t)
  (deepestRegion? stated).map fun (r, t) =>
    { trust := t
      authority := .directive
      reason := ascii "Inline @collab annotation"
      owner := r.effective.owner?
      intent := r.effective.intent?
      constraints := r.effective.constraints
      scope := some r.scope }

def LineRule.applies (rule : LineRule) (path : Bytes) (lines : LineRange) : Bool :=
  rule.file.toSlashes.isSuffixOf path.toSlashes && lines.lo ≤ rule.last && rule.first ≤ lines.hi

namespace TrustRules

def lineVerdict? (rules : TrustRules) (path : Bytes) (lines : LineRange) : Option Verdict :=
  (rules.lines.find? fun rule => rule.applies path lines).map fun rule =>
    { trust := rule.trust, authority := .lines, reason := rule.reason }

def pathVerdict? (rules : TrustRules) (path : Bytes) : Option Verdict :=
  (rules.paths.find? fun rule => Glob.matchesPath rule.pattern path).map fun rule =>
    { trust := rule.trust
      authority := .path
      reason := rule.reason
      owner := if rule.owner.isEmpty then none else some rule.owner }

def defaultVerdict (rules : TrustRules) : Verdict where
  trust := rules.default
  authority := .default
  reason := ascii "Default trust level"

def verdict (rules : TrustRules) (path : Bytes) (regions : Option RegionIndex)
    (lines : Option LineRange) : Verdict :=
  (lines.bind fun range => regions.bind fun x => x.verdict? range)
    |>.or (lines.bind (rules.lineVerdict? path))
    |>.or (rules.pathVerdict? path)
    |>.getD rules.defaultVerdict

def starter : TrustRules where
  default := .supervised
  paths := [
    ⟨ascii "**/generated/**", .autonomous, [], ascii "Auto-generated code, can be regenerated"⟩,
    ⟨ascii "**/test/**", .autonomous, [], ascii "Test files can be freely modified"⟩,
    ⟨ascii "**/*.test.*", .autonomous, [], ascii "Test files can be freely modified"⟩,
    ⟨ascii "**/security/**", .readOnly, [],
      ascii "Security-critical code requires human modification"⟩]

end TrustRules

end TrustRegions
