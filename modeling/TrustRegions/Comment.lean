import TrustRegions.Segment.Lexer
import TrustRegions.Source

/-!
The comments of a content, in the order of the text.
-/

namespace TrustRegions

structure Comment where
  style : CommentStyle
  delimiter : Bytes
  text : Bytes
  span : Span
  trailing : Bool
deriving DecidableEq, Repr

namespace Comment

def ofSegment? (source : Source) (s : Segment) : Option Comment :=
  match s.kind with
  | .comment style delimiter bodyLength =>
    let start := source.positionAt s.start
    some {
      style := style
      delimiter := delimiter
      text := (source.content.drop (s.start + delimiter.length)).take bodyLength
      span := ⟨start, if style = .line then source.endOfLine start.line else source.positionAt s.stop⟩
      trailing := ((source.line start.line).take (start.column - 1)).any fun c => !isIndent c }
  | _ => none

end Comment

def Source.comments (source : Source) (lang : Language) : List Comment :=
  (lang.segments source.content 0).filterMap (Comment.ofSegment? source)

structure Comment.Cursor where
  source : Source
  language : Language
  offset : Nat

namespace Comment.Cursor

def start (source : Source) (lang : Language) : Cursor := ⟨source, lang, 0⟩

def next (r : Cursor) : Option Comment × Cursor :=
  match (r.language.segments r.source.content r.offset).find? (·.kind.layer = .comment) with
  | some s => (Comment.ofSegment? r.source s, { r with offset := s.stop })
  | none => (none, { r with offset := r.source.content.length })

def reset (r : Cursor) : Cursor := { r with offset := 0 }

end Comment.Cursor

end TrustRegions
