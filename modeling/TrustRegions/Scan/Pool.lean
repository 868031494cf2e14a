import TrustRegions.Scan

/-!
Scanning many files at once. Workers draw indices from one counter and put what they make of them
into one row of slots, in single steps that can come in any order.
-/

namespace TrustRegions

inductive Worker where
  | idle
  | busy (i : Nat)
  | finished
deriving DecidableEq, Repr

structure Pool (β : Type) where
  next : Nat
  workers : List Worker
  slots : List (Option β)

namespace Pool

variable {β : Type}

def start (workers jobs : Nat) : Pool β :=
  ⟨0, List.replicate workers .idle, List.replicate jobs none⟩

def step (job : Nat → Option β) (p : Pool β) (w : Nat) : Pool β :=
  match p.workers[w]? with
  | some .idle =>
    let claim := if p.next < p.slots.length then .busy p.next else .finished
    { p with next := p.next + 1, workers := p.workers.set w claim }
  | some (.busy i) =>
    { p with workers := p.workers.set w .idle, slots := p.slots.set i (job i) }
  | _ => p

def run (job : Nat → Option β) (p : Pool β) (schedule : List Nat) : Pool β :=
  schedule.foldl (step job) p

def roundRobin (workers jobs : Nat) : List Nat :=
  (List.range (2 * jobs + 1)).flatMap fun _ => List.range workers

end Pool

structure SourceFile where
  path : Bytes
  tag : Bytes
  content : Bytes
deriving DecidableEq

def SourceFile.scan (f : SourceFile) : Scan := TrustRegions.scan f.path f.tag f.content

/-- The number of workers for some files when `asked` are asked for: one at least and no more than
there are files. To ask for none is to leave the number open. -/
def workerCount (asked files : Nat) : Nat := max 1 (if asked = 0 then files else min asked files)

def scansByPath (scans : List Scan) : KeyedMap Scan := .ofList (scans.map fun s => (s.path, s))

def scanFiles (files : List SourceFile) (asked : Nat) : KeyedMap Scan :=
  let workers := workerCount asked files.length
  let pool := (Pool.start workers files.length).run (fun i => files[i]?.map SourceFile.scan)
    (Pool.roundRobin workers files.length)
  scansByPath (pool.slots.filterMap id)

end TrustRegions
