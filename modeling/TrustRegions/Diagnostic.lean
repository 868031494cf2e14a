import TrustRegions.Attribute.Syntax
import TrustRegions.Position

/-!
Diagnostics: what was wrong with the annotations of a content. None of them stops a scan.
-/

namespace TrustRegions

inductive ScopeFault where
  | openBlock (line : Nat)
  | openBracket (line : Nat)
  | openStatement (line : Nat)
  | missingTerminator (line : Nat) (terminator : Bytes)
deriving DecidableEq, Repr

def ScopeFault.message : ScopeFault → Bytes
  | openBlock line => ascii "no matching '\x7d' for declaration at line " ++ decimal line
  | openBracket line => ascii "unclosed bracket in declaration at line " ++ decimal line
  | openStatement line => ascii "unclosed bracket in statement at line " ++ decimal line
  | missingTerminator line terminator =>
    ascii "block at line " ++ decimal line ++ ascii " never reaches " ++ Attribute.quoted terminator

namespace Diagnostic

inductive Kind where
  | unsupportedLanguage
  | directiveSyntax
  | unbalancedBlock
  | scopeDetection
  | invalidTrustValue
  | overlapNotNested
deriving DecidableEq, Repr

def Kind.name : Kind → Bytes
  | unsupportedLanguage => ascii "UnsupportedLanguageError"
  | directiveSyntax => ascii "DirectiveSyntaxError"
  | unbalancedBlock => ascii "UnbalancedBlockError"
  | scopeDetection => ascii "ScopeDetectionError"
  | invalidTrustValue => ascii "InvalidTrustValueError"
  | overlapNotNested => ascii "OverlapNotNestedError"

inductive Cause where
  | unknownLanguage (tag : Bytes)
  | badAttributes (fault : Attribute.Fault)
  | unknownMarker (word : Bytes)
  | textAfterEnd
  | endWithoutBegin
  | beginWithoutEnd
  | noExtent (fault : ScopeFault)
  | trustIsList
  | trustIsUnknown (value : Bytes)
  | crossing (later earlier : Span)
deriving DecidableEq, Repr

def Cause.kind : Cause → Kind
  | unknownLanguage _ => .unsupportedLanguage
  | badAttributes _ | unknownMarker _ | textAfterEnd => .directiveSyntax
  | endWithoutBegin | beginWithoutEnd => .unbalancedBlock
  | noExtent _ => .scopeDetection
  | trustIsList | trustIsUnknown _ => .invalidTrustValue
  | crossing .. => .overlapNotNested

def Cause.message : Cause → Bytes
  | unknownLanguage tag =>
    ascii "unsupported language " ++ Attribute.quoted tag ++ ascii ", using generic comment scanner"
  | badAttributes fault => fault.message
  | unknownMarker word => ascii "unknown marker " ++ Attribute.quoted (ascii "@collab:" ++ word)
  | textAfterEnd => ascii "unexpected text after @collab:end"
  | endWithoutBegin => ascii "@collab:end without a matching @collab:begin"
  | beginWithoutEnd => ascii "@collab:begin still open at end of file"
  | noExtent fault => fault.message ++ ascii "; falling back to the directive's own line"
  | trustIsList => ascii "trust must be a single value, got a list"
  | trustIsUnknown value =>
    ascii "unknown trust level " ++ Attribute.quoted value ++
      ascii " (expected READ_ONLY, SUGGEST_ONLY, SUPERVISED or AUTONOMOUS)"
  | crossing later earlier =>
    ascii "scope " ++ later.text ++ ascii " overlaps " ++ earlier.text ++ ascii " without nesting"

end Diagnostic

structure Diagnostic where
  cause : Diagnostic.Cause
  position : Position
  related : Option Position := none
  text : Bytes := []
deriving DecidableEq, Repr

namespace Diagnostic

def kind (d : Diagnostic) : Kind := d.cause.kind

def summary (d : Diagnostic) : Bytes :=
  d.kind.name ++ ascii " at " ++ d.position.text ++ ascii ": " ++ d.cause.message ++
    match d.related with
    | none => []
    | some p => ascii " (see " ++ p.text ++ ascii ")"

end Diagnostic

end TrustRegions
