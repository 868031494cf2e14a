import TrustRegions.Log
import TrustRegions.Scan

/-!
What a scan tells the log: the block markers that do not count, how many scopes came to how many
regions, and what was found in all.
-/

namespace TrustRegions

def DirectiveReader.firstImbalance? (r : DirectiveReader) : Option Position :=
  r.imbalances.find? fun p => r.imbalances.all (p ≤ ·)

def DirectiveReader.log (r : DirectiveReader) : List LogLine :=
  let discarded := r.directives.countP fun d => !r.isReliable d
  r.firstImbalance?.toList.map fun p =>
    ⟨ascii "parser", ascii "discarded " ++ decimal discarded ++
      ascii " block markers after imbalance at " ++ p.text⟩

def Source.log (source : Source) (lang : Language) : List LogLine :=
  let reader := ((source.comments lang).foldl (DirectiveReader.read source) {}).endRun
  let directives := (source.directives lang).1
  let placements := (directives.filterMap (source.place? lang directives)).map (·.1)
  let scopes := placements.countP fun p => !decide p.scope.Empty
  let regions := (Region.resolve placements).1
  reader.log ++
    [⟨ascii "resolver",
      decimal scopes ++ ascii " directives -> " ++ decimal regions.length ++ ascii " regions"⟩]

def scanLog (path tag content : Bytes) : List LogLine :=
  let s := scan path tag content
  Source.log ⟨content⟩ (Language.ofTag tag) ++
    [⟨ascii "scan", path ++ ascii " [" ++ s.language ++ ascii "]: " ++ decimal s.directives.length ++
      ascii " directives, " ++ decimal s.regions.length ++ ascii " regions, " ++
      decimal s.diagnostics.length ++ ascii " diagnostics"⟩]

end TrustRegions
