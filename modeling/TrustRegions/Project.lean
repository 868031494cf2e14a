import TrustRegions.Cache
import TrustRegions.FileTree
import TrustRegions.Language.Extensions
import TrustRegions.Scan.Log
import TrustRegions.Trust.Rules

/-!
A project: its files, its trust rules, and the scans of its files as far as they were asked for.
-/

namespace TrustRegions

structure Project where
  tree : FileTree := {}
  rules : TrustRules := {}
  mappings : KeyedMap Bytes := ∅
  extensions : Extensions := .standard
  cache : Cache FileKey := {}

structure Unreadable where
  path : Bytes
deriving DecidableEq, Repr

def Unreadable.message (e : Unreadable) : Bytes := ascii "cannot read " ++ e.path

namespace Project

def read (p : Project) (path : Bytes) : Except Unreadable Bytes :=
  match p.tree.read? path with
  | none => .error ⟨path⟩
  | some content => .ok content

def write (p : Project) (path content : Bytes) : Project :=
  { p with tree := p.tree.write path content }

def remove (p : Project) (path : Bytes) : Bool × Project :=
  match p.tree.remove? path with
  | none => (false, p)
  | some tree => (true, { p with tree := tree })

def tagFor (p : Project) (path : Bytes) (tag? : Option Bytes) : Bytes :=
  (tag?.or (p.extensions.tagOf? path)).getD []

def scan (p : Project) (path : Bytes) (tag? : Option Bytes) :
    Except Unreadable CacheEntry × Project :=
  match p.read path with
  | .error e => (.error e, p)
  | .ok content =>
    let (entry, cache) := p.cache.scan (p.tree.key path) path (p.tagFor path tag?) content
    (.ok entry, { p with cache := cache })

def scanLog (p : Project) (path : Bytes) (tag? : Option Bytes) : List LogLine :=
  match p.read path with
  | .error _ => []
  | .ok content =>
    let tag := p.tagFor path tag?
    let unknown :=
      if tag.isEmpty then [⟨ascii "workspace", ascii "no language for " ++ path⟩] else []
    match (p.cache.lookup (p.tree.key path) (digest content)).1 with
    | some _ => unknown
    | none => unknown ++ TrustRegions.scanLog path tag content

def verdict (p : Project) (path : Bytes) (lines : Option LineRange) :
    Verdict × Option Unreadable × Project :=
  match lines with
  | none => (p.rules.verdict path none none, none, p)
  | some range =>
    match p.scan path none with
    | (.ok entry, p) => (p.rules.verdict path (some entry.index) (some range), none, p)
    | (.error e, p) => (p.rules.verdict path none (some range), some e, p)

def governance? (p : Project) (path : Bytes) (tag? : Option Bytes) (position : Position) :
    Except Unreadable (Option Governance) × Project :=
  let (entry, p) := p.scan path tag?
  (entry.map fun e => e.index.governance? position, p)

def mapExtension (p : Project) (extension tag : Bytes) : Project :=
  { p with extensions := p.extensions.insert extension tag }

/-- Settles on a mapping; it is not in force before it is applied. -/
def addMapping (p : Project) (extension tag : Bytes) : Project :=
  { p with mappings := p.mappings.insert extension tag }

def applyMappings (p : Project) : Project :=
  { p with extensions := p.extensions.insertAll p.mappings }

def invalidate (p : Project) (path : Bytes) : Bool × Project :=
  let (found, cache) := p.cache.invalidate (p.tree.key path)
  (found, { p with cache := cache })

end Project

end TrustRegions
