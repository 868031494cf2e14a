import TrustRegions.KeyedMap
import TrustRegions.Language

/-!
File extensions and the languages that they stand for. Extensions are told apart without regard to
case, and written without their dot.
-/

namespace TrustRegions

structure Extensions where
  tags : KeyedMap Bytes

namespace Extensions

def normal (extension : Bytes) : Bytes :=
  Bytes.toLower (if extension.head? = some (byte '.') then extension.tail else extension)

def insert (e : Extensions) (extension tag : Bytes) : Extensions :=
  ⟨e.tags.insert (normal extension) tag⟩

def insertAll (e : Extensions) (mappings : KeyedMap Bytes) : Extensions :=
  mappings.entries.foldl (fun e m => e.insert m.1 m.2) e

def common : List (String × List String) :=
  [("typescript", ["ts", "tsx", "mts"]), ("javascript", ["js", "jsx", "mjs", "cjs"]),
    ("go", ["go"]), ("rust", ["rs"]), ("java", ["java"]), ("kotlin", ["kt", "kts"]),
    ("scala", ["scala"]), ("swift", ["swift"]), ("dart", ["dart"]), ("c", ["c", "h"]),
    ("cpp", ["cc", "cpp", "cxx", "hpp", "hh", "hxx"]), ("csharp", ["cs"]), ("php", ["php"]),
    ("python", ["py", "pyi"]), ("ruby", ["rb"]), ("lua", ["lua"]),
    ("shell", ["sh", "bash", "zsh"]), ("yaml", ["yaml", "yml"]), ("toml", ["toml"]),
    ("sql", ["sql"])]

def standard : Extensions :=
  ⟨.ofList (common.flatMap fun e => e.2.map fun extension => (ascii extension, ascii e.1))⟩

def ofPath? (path : Bytes) : Option Bytes :=
  let name := path.afterLast fun c => c == byte '/' || c == backslash
  let extension := name.afterLast (· == byte '.')
  if name.contains (byte '.') && !extension.isEmpty then some extension else none

def tagOf? (e : Extensions) (path : Bytes) : Option Bytes :=
  (ofPath? path).bind fun extension => e.tags.get? (normal extension)

def ofTag (e : Extensions) (tag : Bytes) : List Bytes :=
  (e.tags.entries.filter fun x => x.2 == tag).map (·.1)

end Extensions

end TrustRegions
