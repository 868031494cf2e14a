import TrustRegions.Diagnostic
import TrustRegions.Segment.Lexer

/-!
The extent of a declaration in a language with braces. It ends with the brace that closes its body,
with a semicolon, or before the closer of what it stands in; where it has no body, a blank line ends
it too, and in some languages the end of a line that visibly goes no further.
-/

namespace TrustRegions

/-- What a walk along a declaration has seen. Braces between parentheses or brackets belong to
expressions and do not count. -/
structure BraceWalk where
  parens : Nat := 0
  braces : Nat := 0
  lineHasContent : Bool := true
  lineHasCode : Bool := true
  decorated : Bool
  last : UInt8 := 0
  previous : UInt8 := 0
  codeEnd : Nat
deriving DecidableEq, Repr

namespace BraceWalk

def continuing : Bytes := ascii "=+-*/%&|^,.:" ++ [backslash]

def endsStatement (w : BraceWalk) (lang : Language) (rest : List (UInt8 × Layer)) : Bool :=
  lang.newlineStatements && w.lineHasCode && !w.decorated && !continuing.contains w.last &&
    !(w.last == byte '>' && w.previous == byte '=') &&
    (rest.dropWhile fun b => isIndent b.1).head?.all fun b => b.1 != byte '.'

def endsAtNewline (w : BraceWalk) (lang : Language) (rest : List (UInt8 × Layer)) : Bool :=
  w.braces == 0 && w.parens == 0 && (!w.lineHasContent || w.endsStatement lang rest)

def newLine (w : BraceWalk) : BraceWalk :=
  let w := { w with lineHasContent := false }
  if w.parens = 0 then { w with lineHasCode := false, decorated := false } else w

def see (w : BraceWalk) (c : UInt8) : BraceWalk :=
  { w with
    lineHasContent := true
    lineHasCode := true
    decorated := if !w.lineHasCode && w.parens == 0 then c == byte '@' else w.decorated
    last := c
    previous := w.last }

def seeString (w : BraceWalk) (offset : Nat) : BraceWalk :=
  { w with
    lineHasContent := true
    lineHasCode := true
    last := doubleQuote
    previous := w.last
    codeEnd := offset + 1 }

def step (w : BraceWalk) (offset : Nat) (c : UInt8) : Except Nat BraceWalk :=
  let seen := w.see c
  let past := { seen with codeEnd := offset + 1 }
  if c = byte '(' ∨ c = byte '[' then .ok { past with parens := w.parens + 1 }
  else if c = byte ')' ∨ c = byte ']' then
    if 0 < w.parens then .ok { past with parens := w.parens - 1 }
    else if w.braces = 0 then .error w.codeEnd
    else .ok past
  else if 0 < w.parens then .ok past
  else if c = openBrace then .ok { past with braces := w.braces + 1 }
  else if c = closeBrace then
    if w.braces = 0 then .error w.codeEnd
    else if w.braces = 1 then .error (offset + 1)
    else .ok { past with braces := w.braces - 1 }
  else if c = byte ';' ∧ w.braces = 0 then .error (offset + 1)
  else .ok past

def finish (lang : Language) (line : Nat) :
    BraceWalk → Nat → List (UInt8 × Layer) → Except ScopeFault Nat
  | w, _, [] =>
    if 0 < w.braces then .error (.openBlock line)
    else if 0 < w.parens then .error (.openBracket line)
    else .ok w.codeEnd
  | w, offset, (_, .comment) :: rest =>
    finish lang line { w with lineHasContent := true } (offset + 1) rest
  | w, offset, (_, .string) :: rest => finish lang line (w.seeString offset) (offset + 1) rest
  | w, offset, (c, .code) :: rest =>
    if c = newline then
      if w.endsAtNewline lang rest then .ok w.codeEnd
      else finish lang line w.newLine (offset + 1) rest
    else if isBlank c then finish lang line w (offset + 1) rest
    else
      match w.step offset c with
      | .error stop => .ok stop
      | .ok w => finish lang line w (offset + 1) rest

end BraceWalk

def Language.bracedEnd (lang : Language) (line offset : Nat) (layers : List (UInt8 × Layer)) :
    Except ScopeFault Nat :=
  let decorated := (layers.head?.map (·.1)) == some (byte '@')
  BraceWalk.finish lang line { decorated := decorated, codeEnd := offset } offset layers

end TrustRegions
