import TrustRegions.Position

/-!
A content and its lines. Lines are split at newlines and counted from one; a carriage return before
the newline is no part of the line's text. Offsets count bytes from zero.
-/

namespace TrustRegions

structure Source where
  content : Bytes

namespace Source

def rawLines (s : Source) : List Bytes := s.content.pieces newline

def lineCount (s : Source) : Nat := s.rawLines.length

def chomp (l : Bytes) : Bytes :=
  if l.getLast? = some carriageReturn then l.dropLast else l

def line (s : Source) (n : Nat) : Bytes :=
  if n = 0 then [] else chomp (s.rawLines.getD (n - 1) [])

def lineStart (s : Source) (n : Nat) : Nat :=
  min s.content.length ((s.rawLines.take (n - 1)).flatMap (· ++ [newline])).length

def positionAt (s : Source) (offset : Nat) : Position :=
  (s.content.take offset).foldl Position.advance .first

/-- The offset of a position, at most the end of the content. Columns beyond the line run on into
the lines that follow; past the end, sums are taken as 64-bit numbers. -/
def offsetAt (s : Source) (p : Position) : Nat :=
  if p.line = 0 then 0
  else if s.lineCount < p.line then s.content.length
  else
    let offset := s.lineStart p.line + (p.column - 1)
    if offset ≤ s.content.length then offset else min (offset % UInt64.size) s.content.length

def endOfLine (s : Source) (n : Nat) : Position := ⟨n, (s.line n).length + 1⟩

end Source

def isBlankLine (l : Bytes) : Bool :=
  l.all fun c => isIndent c || c == formFeed || c == verticalTab

def leadLength (l : Bytes) : Nat := (l.takeWhile isIndent).length

def indentWidth (l : Bytes) : Nat :=
  (l.takeWhile isIndent).foldl (fun w c => if c = tab then (w / 8 + 1) * 8 else w + 1) 0

namespace Source

def firstCodeColumn (s : Source) (n : Nat) : Nat := leadLength (s.line n) + 1

end Source

end TrustRegions
