import TrustRegions.Bytes

/-!
Glob patterns for paths. Two stars or more match anything, a single star anything without a slash,
and a question mark one byte. Backslashes count as slashes in patterns and paths alike.
-/

namespace TrustRegions

def Bytes.toSlashes (s : Bytes) : Bytes := s.map fun c => if c = backslash then byte '/' else c

namespace Glob

inductive Piece where
  | exactly (c : UInt8)
  | anyByte
  | star
  | deep
  | deepSlash
deriving DecidableEq, Repr

def isStar (c : UInt8) : Bool := c == byte '*'

def pieces : Bytes → List Piece
  | [] => []
  | c :: rest =>
    if isStar c then
      if rest.head?.any isStar then
        have := (List.dropWhile_sublist isStar (l := rest)).length_le
        let after := rest.dropWhile isStar
        if after.head? = some (byte '/') then .deepSlash :: pieces after.tail
        else .deep :: pieces after
      else .star :: pieces rest
    else if c = byte '?' then .anyByte :: pieces rest
    else .exactly c :: pieces rest
termination_by pattern => pattern.length
decreasing_by all_goals simp only [List.length_cons, List.length_tail]; omega

/-- Whether some end of the text passes a test, when no more may be cut off its front than the bytes
that `p` accepts. -/
def anyEnd (p : UInt8 → Bool) (test : Bytes → Bool) : Bytes → Bool
  | [] => test []
  | c :: rest => test (c :: rest) || (p c && anyEnd p test rest)

def matchesPieces : List Piece → Bytes → Bool
  | [], s => s.isEmpty
  | .exactly c :: ps, s => s.head? == some c && matchesPieces ps s.tail
  | .anyByte :: ps, s => !s.isEmpty && matchesPieces ps s.tail
  | .star :: ps, s => anyEnd (· != byte '/') (matchesPieces ps) s
  | .deep :: ps, s => anyEnd (fun _ => true) (matchesPieces ps) s
  | .deepSlash :: ps, s =>
    matchesPieces ps s ||
      anyEnd (fun _ => true) (fun t => t.head? == some (byte '/') && matchesPieces ps t.tail) s

def matchesPath (pattern path : Bytes) : Bool :=
  matchesPieces (pieces pattern.toSlashes) path.toSlashes

end Glob

end TrustRegions
