import TrustRegions.Attribute.Syntax
import TrustRegions.Comment

/-!
Markers: the words with which a comment declares itself a directive.
-/

namespace TrustRegions

inductive Marker where
  | none
  | single (rest : Bytes)
  | blockBegin (rest : Bytes)
  | blockEnd (rest : Bytes)
  | unknown (word rest : Bytes)
deriving DecidableEq, Repr

namespace Marker

def isDecoration : CommentStyle → UInt8 → Bool
  | .line, c => c == byte '/' || c == byte '!'
  | .block, c => c == byte '*' || c == byte '!'

def undecorate (style : CommentStyle) (line : Bytes) : Bytes :=
  Bytes.trim ((Bytes.trim line).dropWhile (isDecoration style))

/-- The words of a comment: its lines without their decoration, joined by single spaces. Only the
first line of a line comment can be decorated. -/
def words (style : CommentStyle) (text : Bytes) : Bytes :=
  let lines :=
    match style, text.pieces newline with
    | .line, first :: more => undecorate .line first :: more.map Bytes.trim
    | style, lines => lines.map (undecorate style)
  (lines.filter (· ≠ [])).intersperse [space] |>.flatten

def sign : Bytes := ascii "@collab"

def ofText (style : CommentStyle) (text : Bytes) : Marker :=
  let words := words style text
  if sign.isPrefixOf words then
    match words.drop sign.length with
    | [] => single []
    | c :: rest =>
      if c = byte ':' then
        let word := rest.takeWhile isLetter
        let after := rest.dropWhile isLetter
        if word = ascii "begin" then blockBegin after
        else if word = ascii "end" then blockEnd after
        else unknown word after
      else if isBlank c then single (c :: rest)
      else none
  else none

def ofComment (c : Comment) : Marker := ofText c.style c.text

/-- Whether the text after a marker is meant as attributes. Prose that mentions the sign has none of
the bytes that attributes need and does not open with a key in common use. -/
def isAttributeLike (rest : Bytes) : Bool :=
  let rest := Bytes.trim rest
  let word := rest.takeWhile Attribute.isNameByte
  rest.isEmpty || rest.any (fun c => c == byte '=' || Attribute.isQuote c || c == byte '[') ||
    ["trust", "owner", "intent", "constraints"].any fun key => word == ascii key

end Marker

end TrustRegions
