import TrustRegions.Diagnostic
import TrustRegions.Segment.Lexer
import TrustRegions.Source

/-!
The extent of a declaration in a language with indented blocks: its header, the lines indented below
it, and in some languages the clauses and the word that close the block. Lines that start inside a
bracket or a string go with the line before them; blank lines and comments count for nothing.
-/

namespace TrustRegions

inductive LineStart where
  | plain
  | continuation
  | comment
deriving DecidableEq, Repr

structure Row where
  number : Nat
  text : Bytes
  start : LineStart
deriving DecidableEq, Repr

def bracketDepth (depth : Nat) (c : UInt8) : Nat :=
  if c = byte '(' ∨ c = byte '[' ∨ c = openBrace then depth + 1
  else if c = byte ')' ∨ c = byte ']' ∨ c = closeBrace then depth - 1
  else depth

def openBrackets (layers : List (UInt8 × Layer)) : Nat :=
  (layers.filter fun b => b.2 == .code).foldl (fun depth b => bracketDepth depth b.1) 0

def lineStarts : Nat → List (UInt8 × Layer) → List LineStart
  | _, [] => []
  | depth, (c, .code) :: rest =>
    if c = newline then (if 0 < depth then .continuation else .plain) :: lineStarts depth rest
    else lineStarts (bracketDepth depth c) rest
  | depth, (c, .string) :: rest =>
    if c = newline then .continuation :: lineStarts depth rest else lineStarts depth rest
  | depth, (c, .comment) :: rest =>
    if c = newline then .comment :: lineStarts depth rest else lineStarts depth rest

def Source.rowsAfter (s : Source) (line : Nat) (layers : List (UInt8 × Layer)) : List Row :=
  let texts := (s.rawLines.drop line).map Source.chomp
  ((texts.zip (lineStarts 0 layers)).zipIdx (line + 1)).map fun x => ⟨x.2, x.1.1, x.1.2⟩

def Row.code (r : Row) : Bytes := r.text.drop (leadLength r.text)

def Row.opensStatement (lang : Language) (r : Row) : Bool :=
  r.start == .plain && !isBlankLine r.text && !lang.lineComments.any (·.isPrefixOf r.code)

def isDecorated (line : Bytes) : Bool := (line.drop (leadLength line)).head? == some (byte '@')

/-- The last line of a header, and the rows after it. While the line `number`, before the rows
`below`, is an annotation, the next statement of the same indentation takes its place. -/
def headerEnd (lang : Language) (base number : Nat) (below : List Row) : List Row → Nat × List Row
  | [] => (number, below)
  | r :: rows =>
    if !r.opensStatement lang then headerEnd lang base number below rows
    else if indentWidth r.text ≠ base then (number, below)
    else if isDecorated r.text then headerEnd lang base r.number rows rows
    else (r.number, rows)

structure OffsideBlock where
  lastLine : Nat
  hasBody : Bool
  closed : Bool
  atEnd : Bool
deriving DecidableEq, Repr

def offsideBlock (lang : Language) (base lastLine : Nat) (hasBody : Bool) : List Row → OffsideBlock
  | [] => ⟨lastLine, hasBody, false, true⟩
  | r :: rows =>
    if r.start = .continuation then offsideBlock lang base r.number hasBody rows
    else if !r.opensStatement lang then offsideBlock lang base lastLine hasBody rows
    else if base < indentWidth r.text then offsideBlock lang base r.number true rows
    else
      let closing := hasBody && indentWidth r.text == base
      if closing && lang.clauseKeywords.any (Bytes.startsWithWord · r.code) then
        offsideBlock lang base r.number hasBody rows
      else if closing && Bytes.startsWithWord lang.blockTerminator r.code then
        ⟨r.number, hasBody, true, false⟩
      else ⟨lastLine, hasBody, false, false⟩

def Source.offsideEnd (s : Source) (lang : Language) (line : Nat) (layers : List (UInt8 × Layer)) :
    Except ScopeFault Nat :=
  let rows := s.rowsAfter line layers
  let base := indentWidth (s.line line)
  let (header, below) :=
    if isDecorated (s.line line) then headerEnd lang base line rows rows else (line, rows)
  let block := offsideBlock lang base header false below
  if block.atEnd ∧ 0 < openBrackets layers then .error (.openStatement line)
  else if lang.blockTerminator ≠ [] ∧ block.hasBody ∧ ¬block.closed then
    .error (.missingTerminator line lang.blockTerminator)
  else .ok block.lastLine

end TrustRegions
