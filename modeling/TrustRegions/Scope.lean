import TrustRegions.Directive
import TrustRegions.Source
import TrustRegions.Language

/-!
Scopes that need no look at the structure of the code: a directive's own lines, what is left of a
line that a directive trails, and the text between the ends of a block.
-/

namespace TrustRegions

inductive ScopeKind where
  | ownLine
  | declaration
  | block
deriving DecidableEq, Repr

def ScopeKind.name : ScopeKind → Bytes
  | ownLine => ascii "own_line"
  | declaration => ascii "declaration"
  | block => ascii "block"

def isLeadingCloser (c : UInt8) : Bool :=
  c == closeBrace || c == byte ')' || c == byte ']' || c == byte ';' || c == byte ',' ||
    c == space || c == tab || c == 0

/-- The column at which the closers that lead a text end. The text starts at `column`, and `limit`
is the last column to go to; `terminator` closes a block as a brace does. -/
def closersEnd (terminator : Bytes) (limit column : Nat) : Bytes → Nat
  | [] => column
  | c :: rest =>
    if limit ≤ column then column
    else if isLeadingCloser c then closersEnd terminator limit (column + 1) rest
    else if Bytes.startsWithWord terminator (c :: rest) then
      closersEnd terminator limit (column + terminator.length) (rest.drop (terminator.length - 1))
    else column
termination_by text => text.length
decreasing_by all_goals simp only [List.length_cons, List.length_drop]; omega

namespace Source

def ownLineScope (s : Source) (directive : Span) : Span :=
  ⟨⟨directive.start.line, s.firstCodeColumn directive.start.line⟩, s.endOfLine directive.stop.line⟩

def trailingScope (s : Source) (lang : Language) (directive : Span) : Span :=
  let n := directive.start.line
  let column := s.firstCodeColumn n
  let code := (s.line n).drop (column - 1)
  let start := closersEnd lang.blockTerminator directive.start.column column code
  ⟨⟨n, min start directive.start.column⟩, s.endOfLine directive.stop.line⟩

end Source

def Directive.blockScope (begins ends : Directive) : Span := ⟨begins.anchor, ends.source.start⟩

end TrustRegions
