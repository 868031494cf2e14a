import TrustRegions.Directive.Reader
import TrustRegions.Region.Index
import TrustRegions.Region.Nesting
import TrustRegions.Scope.Declaration

/-!
The scan of a content: its comments make directives, each directive gets a scope, and the scopes
make regions. Problems come back as diagnostics in the order of the text.
-/

namespace TrustRegions

structure Scan where
  path : Bytes
  language : Bytes
  directives : List Directive
  regions : List Region
  diagnostics : List Diagnostic
deriving DecidableEq

def Source.fallback (s : Source) (d : Directive) (fault : ScopeFault) : Placement × List Diagnostic :=
  (⟨d, s.ownLineScope d.source, .ownLine⟩,
    [⟨.noExtent fault, d.source.start, none, s.line d.source.start.line⟩])

/-- The code that a directive governs. Only the begin marker of a block stands for it, and only
with its end marker at hand. -/
def Source.place? (s : Source) (lang : Language) (all : List Directive) (d : Directive) :
    Option (Placement × List Diagnostic) :=
  match d.form with
  | .blockEnd => none
  | .blockBegin =>
    let partner := d.partner.bind fun ordinal => all.find? fun e => e.ordinal == ordinal
    partner.map fun e => (⟨d, d.blockScope e, .block⟩, [])
  | .single | .merged =>
    if d.trailing then some (⟨d, s.trailingScope lang d.source, .ownLine⟩, [])
    else
      match s.declarationScope? lang d.anchor with
      | .ok (some scope) => some (⟨d, scope, .declaration⟩, [])
      | .ok none => some (⟨d, s.ownLineScope d.source, .ownLine⟩, [])
      | .error fault => some (s.fallback d fault)

def unknownLanguageDiagnostics (tag content : Bytes) : List Diagnostic :=
  if (Language.find? tag).isNone ∧ Bytes.includes Marker.sign content then
    [⟨.unknownLanguage tag, .first, none, tag⟩]
  else []

def scan (path tag content : Bytes) : Scan :=
  let lang := Language.ofTag tag
  let source : Source := ⟨content⟩
  let (directives, found) := source.directives lang
  let placed := directives.filterMap (source.place? lang directives)
  let (regions, crossing) := Region.resolve (placed.map (·.1))
  let diagnostics :=
    unknownLanguageDiagnostics tag content ++ found ++ placed.flatMap (·.2) ++ crossing
  { path := path
    language := lang.tag
    directives := directives
    regions := regions
    diagnostics := diagnostics.mergeSort fun a b => a.position ≤ b.position }

def Scan.index (s : Scan) : RegionIndex := .ofRegions s.regions

end TrustRegions
