import TrustRegions.Bytes

/-!
Languages: what opens a comment or a string in each, and how the extent of a declaration shows.
-/

namespace TrustRegions

inductive ScopeStyle where
  | brace
  | indentation
  | explicit
deriving DecidableEq, Repr

def ScopeStyle.name : ScopeStyle → Bytes
  | brace => ascii "brace"
  | indentation => ascii "indentation"
  | explicit => ascii "explicit"

structure BlockComment where
  opener : Bytes
  closer : Bytes
  atLineStart : Bool := false
  nested : Bool := false
deriving DecidableEq, Repr

structure Language where
  tag : Bytes
  style : ScopeStyle
  lineComments : List Bytes
  block : Option BlockComment := none
  quotes : Bytes := [doubleQuote]
  charLiterals : Bool := false
  tripleQuotes : Bool := false
  rawBackquotes : Bool := false
  blockTerminator : Bytes := []
  clauseKeywords : List Bytes := []
  newlineStatements : Bool := false
deriving DecidableEq, Repr

namespace Language

def slashStar : BlockComment := ⟨ascii "/*", ascii "*/", false, false⟩

def braced (tag : String) (quotes : Bytes) : Language where
  tag := ascii tag
  style := .brace
  lineComments := [ascii "//"]
  block := some slashStar
  quotes := quotes

def charBraced (tag : String) : Language :=
  { braced tag [doubleQuote] with charLiterals := true }

def scriptBraced (tag : String) : Language :=
  { braced tag [doubleQuote, apostrophe, backquote] with newlineStatements := true }

def lineCommented (tag : String) (style : ScopeStyle) (opener : String) : Language where
  tag := ascii tag
  style := style
  lineComments := [ascii opener]
  quotes := [doubleQuote, apostrophe]

def go : Language :=
  { braced "go" [doubleQuote, backquote] with
    charLiterals := true
    rawBackquotes := true
    newlineStatements := true }

def rust : Language :=
  { charBraced "rust" with block := some { slashStar with nested := true } }

def swift : Language := { rust with tag := ascii "swift", newlineStatements := true }

def scala : Language := { rust with tag := ascii "scala", newlineStatements := true }

def php : Language :=
  { braced "php" [doubleQuote, apostrophe] with lineComments := [ascii "//", ascii "#"] }

def python : Language := { lineCommented "python" .indentation "#" with tripleQuotes := true }

def ruby : Language :=
  { lineCommented "ruby" .indentation "#" with
    block := some ⟨ascii "=begin", ascii "=end", true, false⟩
    blockTerminator := ascii "end"
    clauseKeywords := ["rescue", "ensure", "else", "elsif", "when", "in"].map ascii }

def lua : Language :=
  { lineCommented "lua" .indentation "--" with
    block := some ⟨ascii "--[[", ascii "]]", false, false⟩
    blockTerminator := ascii "end"
    clauseKeywords := ["else", "elseif"].map ascii }

def sql : Language :=
  { lineCommented "sql" .explicit "--" with block := some slashStar, quotes := [apostrophe] }

def known : List Language :=
  ["c", "cpp", "java", "csharp", "dart"].map charBraced ++
  [{ charBraced "kotlin" with newlineStatements := true }] ++
  ["javascript", "typescript"].map scriptBraced ++
  [go, rust, swift, scala, php, python, ruby, lua,
    lineCommented "yaml" .indentation "#",
    lineCommented "shell" .explicit "#",
    lineCommented "toml" .explicit "#",
    sql]

def generic : Language where
  tag := ascii "generic"
  style := .explicit
  lineComments := [ascii "//", ascii "#"]
  block := some slashStar

def find? (tag : Bytes) : Option Language := known.find? fun l => l.tag == tag

def ofTag (tag : Bytes) : Language := (find? tag).getD generic

end Language

end TrustRegions
