import TrustRegions.Cache.Digest
import TrustRegions.Scan

/-!
A cache of scans. It keeps the latest scan under each key and gives it out again for as long as the
content has the same digest. An entry that was given out never changes.
-/

namespace TrustRegions

structure CacheEntry where
  serial : Nat
  digest : Bytes
  scan : Scan
deriving DecidableEq

def CacheEntry.index (e : CacheEntry) : RegionIndex := e.scan.index

structure Cache (κ : Type) where
  entries : List (κ × CacheEntry) := []
  hits : Nat := 0
  misses : Nat := 0
  nextSerial : Nat := 0

namespace Cache

variable {κ : Type} [DecidableEq κ]

def get? (c : Cache κ) (key : κ) : Option CacheEntry :=
  (c.entries.find? fun e => e.1 = key).map (·.2)

def size (c : Cache κ) : Nat := c.entries.length

def store (c : Cache κ) (key : κ) (e : CacheEntry) : Cache κ :=
  { c with
    entries := (key, e) :: c.entries.filter fun x => x.1 ≠ key
    nextSerial := max c.nextSerial (e.serial + 1) }

def lookup (c : Cache κ) (key : κ) (digest : Bytes) : Option CacheEntry × Cache κ :=
  match (c.get? key).filter fun e => e.digest = digest with
  | some e => (some e, { c with hits := c.hits + 1 })
  | none => (none, { c with misses := c.misses + 1 })

def scan (c : Cache κ) (key : κ) (path tag content : Bytes) : CacheEntry × Cache κ :=
  match c.lookup key (digest content) with
  | (some e, c) => (e, c)
  | (none, c) =>
    let e := ⟨c.nextSerial, digest content, TrustRegions.scan path tag content⟩
    (e, c.store key e)

def invalidate (c : Cache κ) (key : κ) : Bool × Cache κ :=
  ((c.get? key).isSome, { c with entries := c.entries.filter fun x => x.1 ≠ key })

def clear (c : Cache κ) : Cache κ := { c with entries := [] }

end Cache

end TrustRegions
