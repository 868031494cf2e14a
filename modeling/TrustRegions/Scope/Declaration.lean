import TrustRegions.Scope
import TrustRegions.Scope.Braces
import TrustRegions.Scope.Offside

/-!
The declaration that a directive stands above.
-/

namespace TrustRegions

def isLeading (b : UInt8 × Layer) : Bool := b.2 == .comment || (b.2 == .code && isBlank b.1)

namespace Source

/-- The scope of the declaration after a position; there is none where nothing follows but the end
of what the position stands in. -/
def declarationScope? (s : Source) (lang : Language) (anchor : Position) :
    Except ScopeFault (Option Span) :=
  if lang.style = .explicit then .ok none
  else
    let offset := s.offsetAt anchor
    let layers := lang.layers s.content offset
    let offset := offset + (layers.takeWhile isLeading).length
    match layers.dropWhile isLeading with
    | [] => .ok none
    | (c, layer) :: rest =>
      let start := s.positionAt offset
      if lang.style = .brace then
        if c = closeBrace ∨ c = byte ')' ∨ c = byte ']' then .ok none
        else
          (lang.bracedEnd start.line offset ((c, layer) :: rest)).map fun stop =>
            some ⟨start, s.positionAt stop⟩
      else
        (s.offsideEnd lang start.line ((c, layer) :: rest)).map fun line =>
          some ⟨start, s.endOfLine line⟩

end Source

end TrustRegions
