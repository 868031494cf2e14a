import TrustRegions.Bytes

/-!
Segments of a content: maximal stretches of code, and single strings and comments.
-/

namespace TrustRegions

inductive CommentStyle where
  | line
  | block
deriving DecidableEq, Repr

inductive Segment.Kind where
  | code
  | string
  | comment (style : CommentStyle) (delimiter : Bytes) (bodyLength : Nat)
deriving DecidableEq, Repr

structure Segment where
  kind : Segment.Kind
  start : Nat
  stop : Nat
deriving DecidableEq, Repr

inductive Layer where
  | code
  | string
  | comment
deriving DecidableEq, Repr

namespace Segment

def Kind.layer : Kind → Layer
  | .code => .code
  | .string => .string
  | .comment .. => .comment

def length (s : Segment) : Nat := s.stop - s.start

end Segment

end TrustRegions
