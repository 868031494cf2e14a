import TrustRegions.Project
import TrustRegions.Proofs.FileContents

/-! Runs of operations on a project. All that is read in a run was in a file at its start, is written
in it, or is the nothing that a folder reads as. -/

namespace TrustRegions

inductive Operation where
  | write (path content : Bytes)
  | remove (path : Bytes)
  | scan (path : Bytes) (tag? : Option Bytes)
  | check (path : Bytes) (lines : Option LineRange)
  | query (path : Bytes) (tag? : Option Bytes) (position : Position)
  | mapExtension (extension tag : Bytes)
  | addMapping (extension tag : Bytes)
  | applyMappings
  | invalidate (path : Bytes)

namespace Operation

def written : Operation → List Bytes
  | .write _ content => [content]
  | _ => []

def reads? : Operation → Option (Bytes × Option Bytes)
  | .scan path tag? => some (path, tag?)
  | .check path (some _) => some (path, none)
  | .query path tag? _ => some (path, tag?)
  | _ => none

end Operation

namespace Project

def step (p : Project) : Operation → Project
  | .write path content => p.write path content
  | .remove path => (p.remove path).2
  | .scan path tag? => (p.scan path tag?).2
  | .check path lines => (p.verdict path lines).2.2
  | .query path tag? position => (p.governance? path tag? position).2
  | .mapExtension extension tag => p.mapExtension extension tag
  | .addMapping extension tag => p.addMapping extension tag
  | .applyMappings => p.applyMappings
  | .invalidate path => (p.invalidate path).2

def run (p : Project) (ops : List Operation) : Project := ops.foldl step p

def contents (p : Project) (ops : List Operation) : List Bytes :=
  [] :: (p.tree.files.map (·.2) ++ ops.flatMap Operation.written)

lemma scan_of_locate?_eq_none {p : Project} {path : Bytes} (h : p.tree.locate? path = none)
    (tag? : Option Bytes) : p.scan path tag? = (.error ⟨path⟩, p) := by
  simp [scan, read, FileTree.read?, h]

lemma scan_of_locate? {p : Project} {path : Bytes} {l : Location}
    (h : p.tree.locate? path = some l) (tag? : Option Bytes) :
    let s := p.cache.scan (.located l false) path (p.tagFor path tag?) (p.tree.found l)
    p.scan path tag? = (.ok s.1, { p with cache := s.2 }) := by
  simp [scan, read, FileTree.read?, h, FileTree.key_of_locate? h, FileTree.found]

lemma step_of_reads? {p : Project} {op : Operation} {path : Bytes} {tag? : Option Bytes}
    (h : op.reads? = some (path, tag?)) : p.step op = (p.scan path tag?).2 := by
  cases op with
  | scan q t =>
    obtain ⟨rfl, rfl⟩ := Prod.mk.inj (Option.some.inj h)
    rfl
  | query q t position =>
    obtain ⟨rfl, rfl⟩ := Prod.mk.inj (Option.some.inj h)
    rfl
  | check q lines =>
    cases lines with
    | none => cases h
    | some range =>
      obtain ⟨rfl, rfl⟩ := Prod.mk.inj (Option.some.inj h)
      rw [step, verdict]
      cases p.scan q none with
      | mk answer p' => cases answer <;> rfl
  | write | remove | mapExtension | addMapping | applyMappings | invalidate => cases h

end Project

end TrustRegions
