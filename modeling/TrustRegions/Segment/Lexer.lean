import TrustRegions.Language
import TrustRegions.Segment

/-!
The segments of a content. What a byte opens depends on the bytes from it on and on whether it
starts a line; so a segment can be cut off the front and the rest read on its own.
-/

namespace TrustRegions

inductive Opening where
  | code
  | string
  | lineComment (delimiter : Bytes)
  | blockComment (delimiters : BlockComment)
deriving DecidableEq, Repr

namespace Language

def characterLength (lead : UInt8) : Nat :=
  if lead < 0x80 then 1
  else if lead &&& 0xE0 = 0xC0 then 2
  else if lead &&& 0xF0 = 0xE0 then 3
  else if lead &&& 0xF8 = 0xF0 then 4
  else 1

def escapeLength? (afterBackslash : Bytes) : Option Nat :=
  let escape := (afterBackslash.take 12).takeWhile (· ≠ newline)
  (escape.tail.findIdx? (· == apostrophe)).map (· + 2)

def charLiteralLength? : Bytes → Option Nat
  | [] => none
  | c :: rest =>
    if c = newline ∨ c = apostrophe then none
    else if c = backslash then (escapeLength? rest).map (· + 2)
    else
      let n := characterLength c
      if (c :: rest)[n]? = some apostrophe then some (n + 2) else none

def openingAt (lang : Language) (atLineStart : Bool) (text : Bytes) : Opening :=
  match lang.block.filter fun b => b.opener.isPrefixOf text && (!b.atLineStart || atLineStart) with
  | some b => .blockComment b
  | none =>
    match lang.lineComments.find? fun d => d.isPrefixOf text with
    | some d => .lineComment d
    | none =>
      match text with
      | [] => .code
      | c :: rest =>
        if c = apostrophe ∧ lang.charLiterals then
          if (charLiteralLength? rest).isSome then .string else .code
        else if c ∈ lang.quotes then .string
        else .code

def codeLength (lang : Language) : Bool → Bytes → Nat
  | _, [] => 0
  | atLineStart, c :: rest =>
    if lang.openingAt atLineStart (c :: rest) = .code then
      codeLength lang (c = newline) rest + 1
    else 0

/-- The number of bytes to the end of a string, its closing quote included. A backslash hides the
byte after it unless the string is raw, and a newline ends a string that may not span lines. -/
def quotedLength (quote : UInt8) (raw multiline : Bool) : Bytes → Nat
  | [] => 0
  | c :: rest =>
    if c == backslash && !raw then
      match rest with
      | [] => 1
      | _ :: rest => quotedLength quote raw multiline rest + 2
    else if c = quote then 1
    else if c = newline ∧ ¬multiline then 0
    else quotedLength quote raw multiline rest + 1

def tripleQuotedLength (quote : UInt8) : Bytes → Nat
  | [] => 0
  | c :: rest =>
    if c = backslash then
      match rest with
      | [] => 1
      | _ :: rest => tripleQuotedLength quote rest + 2
    else if [quote, quote, quote].isPrefixOf (c :: rest) then 3
    else tripleQuotedLength quote rest + 1

def stringLength (lang : Language) : Bytes → Nat
  | [] => 0
  | q :: rest =>
    if lang.tripleQuotes ∧ [q, q].isPrefixOf rest then tripleQuotedLength q (rest.drop 2) + 3
    else
      let multiline := q == backquote
      quotedLength q (multiline && lang.rawBackquotes) multiline rest + 1

def restOfLine (text : Bytes) : Nat := (text.takeWhile (· ≠ newline)).length

/-- The number of bytes before the closer, if there is one. `depth` counts the comments open around
this one, and the first `skip` bytes belong to a delimiter read before. -/
def bodyLength? (b : BlockComment) (depth skip : Nat) : Bytes → Option Nat
  | [] => none
  | c :: rest =>
    if 0 < skip then (bodyLength? b depth (skip - 1) rest).map (· + 1)
    else if b.nested ∧ b.opener.isPrefixOf (c :: rest) then
      (bodyLength? b (depth + 1) (b.opener.length - 1) rest).map (· + 1)
    else if b.closer.isPrefixOf (c :: rest) then
      if depth = 0 then some 0
      else (bodyLength? b (depth - 1) (b.closer.length - 1) rest).map (· + 1)
    else (bodyLength? b depth 0 rest).map (· + 1)

def bodyLinesLength? (closer : Bytes) : Bytes → Option Nat
  | [] => none
  | c :: rest =>
    if c = newline ∧ closer.isPrefixOf rest then some 1
    else (bodyLinesLength? closer rest).map (· + 1)

def blockBody (b : BlockComment) (text : Bytes) : Nat × Nat :=
  if b.atLineStart then
    match bodyLinesLength? b.closer text with
    | some n => (n, restOfLine (text.drop n))
    | none => (text.length, 0)
  else
    match bodyLength? b 0 0 text with
    | some n => (n, b.closer.length)
    | none => (text.length, 0)

def segmentAt (lang : Language) (atLineStart : Bool) (text : Bytes) : Segment.Kind × Nat :=
  match lang.openingAt atLineStart text with
  | .code => (.code, lang.codeLength atLineStart text)
  | .string => (.string, lang.stringLength text)
  | .lineComment d =>
    let body := (text.drop d.length).takeWhile (· ≠ newline)
    let visible := if body.getLast? = some carriageReturn then body.dropLast else body
    (.comment .line d visible.length, d.length + body.length)
  | .blockComment b =>
    let (body, closing) := blockBody b (text.drop b.opener.length)
    (.comment .block b.opener body, b.opener.length + body + closing)

def segmentsFrom (lang : Language) (atLineStart : Bool) (offset : Nat) : Bytes → List Segment
  | [] => []
  | c :: rest =>
    let (kind, n) := lang.segmentAt atLineStart (c :: rest)
    -- the segment holds at least its first byte
    let taken := c :: rest.take (n - 1)
    ⟨kind, offset, offset + taken.length⟩ ::
      lang.segmentsFrom (taken.getLast? = some newline) (offset + taken.length) (rest.drop (n - 1))
termination_by text => text.length
decreasing_by simp only [List.length_cons, List.length_drop]; omega

def startsLine (content : Bytes) (offset : Nat) : Bool :=
  offset = 0 || content[offset - 1]? = some newline

def segments (lang : Language) (content : Bytes) (offset : Nat) : List Segment :=
  lang.segmentsFrom (startsLine content offset) offset (content.drop offset)

def layers (lang : Language) (content : Bytes) (offset : Nat) : List (UInt8 × Layer) :=
  (content.drop offset).zip
    ((lang.segments content offset).flatMap fun s => List.replicate s.length s.kind.layer)

end Language

end TrustRegions
