import TrustRegions.Project
import TrustRegions.Scan.Pool
import TrustRegions.Settings

/-!
The command line: what a program that is given some arguments prints about the files it finds, and
the code that it exits with. A log of what it does can be asked for. It goes where messages go, tells
the time, and has the lines of workers in no fixed order.
-/

namespace TrustRegions.CommandLine

structure Output where
  exit : Nat
  stdout : Bytes
  stderr : Bytes
deriving DecidableEq

/-- An output but for the times in the log and the order of what workers put there, each its own part,
after the other messages. -/
structure Report where
  exit : Nat := 0
  stdout : Bytes := []
  messages : List Piece := []
  logs : List (List Piece) := []
  workers : Nat := 1
deriving DecidableEq

namespace Report

def print (s : Bytes) : Report := { stdout := s }

def fail (s : Bytes) : Report := { exit := 1, messages := [.text s] }

def after (messages : List Piece) (r : Report) : Report := { r with messages := messages ++ r.messages }

def output (r : Report) (s : Surroundings) : Output where
  exit := r.exit
  stdout := r.stdout
  stderr := s.fill 0 0 (r.messages ++ s.mix r.workers r.logs)

end Report

def line (s : Bytes) : Bytes := s ++ [newline]

def note (s : Bytes) : Bytes := line (ascii "[collab] " ++ s)

def version : Bytes := ascii "collab 0.4.0"

def usage : Bytes :=
  line (version ++ ascii " - @collab trust annotations") ++
  ([ "",
    "Usage: collab <command> [options]",
    "",
    "Commands:",
    "  scan <file>...          Resolve @collab regions and report diagnostics",
    "  query <file> <line> [<column>]",
    "                          Effective attributes at a position",
    "  check <file>            Trust level (inline annotation, region, policy, default)",
    "  languages               List supported languages",
    "  init                    Write a starter trust.json into the .collab directory",
    "  help                    Show this help",
    "",
    "Options:",
    "  --language TAG          Language tag instead of the file extension",
    "  --lines A[-B]           Line range for check",
    "  --workers N             Parallel scan workers (default: all cores)",
    "  --json                  Output as JSON",
    "  --verbose               Enable verbose debug logging",
    "  -v, --version           Show version",
    "",
    "Environment:",
    "  COLLAB_DIR              Configuration directory (default: .collab)",
    "  COLLAB_VERBOSE          Enable debug logging"].map fun s => line (ascii s)).flatten

/-! ### Arguments -/

structure Request where
  command : Bytes := []
  operands : List Bytes := []
  language : Bytes := []
  lines : Bytes := []
  workers : Bytes := []
  verbose : Bool := false
deriving DecidableEq

inductive Refusal where
  | help
  | version
  | unknownOption (argument : Bytes)
deriving DecidableEq

inductive ValueOption where
  | language
  | lines
  | workers
deriving DecidableEq

def ValueOption.ofArgument? (a : Bytes) : Option ValueOption :=
  if a = ascii "--language" then some .language
  else if a = ascii "--lines" then some .lines
  else if a = ascii "--workers" then some .workers
  else none

def Request.set (r : Request) (value : Bytes) : ValueOption → Request
  | .language => { r with language := value }
  | .lines => { r with lines := value }
  | .workers => { r with workers := value }

def Request.addOperand (r : Request) (a : Bytes) : Request :=
  if r.command.isEmpty then { r with command := a } else { r with operands := r.operands ++ [a] }

/-- Takes a single argument that is not an option with a value. One flag is for a form of output that
is not made here. -/
def Request.addArgument (r : Request) (a : Bytes) : Except Refusal Request :=
  if a = ascii "--json" then .ok r
  else if a = ascii "--verbose" then .ok { r with verbose := true }
  else if a = ascii "-h" ∨ a = ascii "--help" then .error .help
  else if a = ascii "-v" ∨ a = ascii "--version" then .error .version
  else if a.head? = some (byte '-') then .error (.unknownOption a)
  else .ok (r.addOperand a)

def Request.read (r : Request) : List Bytes → Except Refusal Request
  | [] => .ok r
  | [a] => r.addArgument a
  | a :: b :: rest =>
    match ValueOption.ofArgument? a with
    | some o => (r.set b o).read rest
    | none =>
      match r.addArgument a with
      | .error e => .error e
      | .ok r => r.read (b :: rest)

def digitsValue (digits : Bytes) : Nat :=
  digits.foldl (fun n d => 10 * n + (d.toNat - 48)) 0

def number? (s : Bytes) : Option Nat :=
  if s.isEmpty || !s.all isDigit then none
  else
    let n := digitsValue s
    if 0 < n ∧ n < UInt64.size then some n else none

def lineRange? (s : Bytes) : Option LineRange :=
  let first := s.takeWhile (· ≠ byte '-')
  match s.dropWhile (· ≠ byte '-') with
  | [] => (number? s).map fun n => ⟨n, n⟩
  | _ :: last => (number? first).bind fun a => (number? last).map fun b => ⟨a, b⟩

/-! ### Reports -/

def describeValue : Attribute.Value → Bytes
  | .scalar s => s
  | v@(.list _) => ascii "[" ++ v.text ++ ascii "]"

def describe (a : Attributes) : Bytes :=
  ((a.entries.map fun e => e.1 ++ ascii "=" ++ describeValue e.2).intersperse [space]).flatten

def regionLine (r : Region) : Bytes :=
  line (List.replicate (2 + 2 * r.depth) space ++ r.scope.text ++ [space] ++ r.kind.name ++
    ascii "  " ++ describe r.effective)

def scanReport (s : Scan) : Bytes :=
  line (s.path ++ ascii " [" ++ s.language ++ ascii "]") ++
  (if s.regions.isEmpty then line (ascii "  (no regions)") else []) ++
  s.regions.flatMap regionLine ++
  s.diagnostics.flatMap fun d => line (ascii "  ! " ++ d.summary)

def scansReport (scans : List Scan) : Bytes :=
  let problems := (scans.flatMap (·.diagnostics)).length
  scans.flatMap scanReport ++
    if 1 < scans.length then
      line (decimal scans.length ++ ascii " files, " ++ decimal problems ++ ascii " diagnostic(s)")
    else []

def trustText (a : Attributes) : Bytes :=
  match a.trust?, a.text? (ascii "trust") with
  | some t, _ => t.tag
  | none, some s => s ++ ascii " (invalid)"
  | none, none => ascii "(none)"

def placeText (path : Bytes) (p : Position) : Bytes := path ++ ascii ":" ++ p.text

def governanceReport (path : Bytes) (p : Position) : Option Governance → Bytes
  | none => line (placeText path p ++ ascii " not covered")
  | some g =>
    line (placeText path p ++ ascii " in " ++ g.scope.text) ++
    line (ascii "  trust: " ++ trustText g.values) ++
    (g.values.entries.filter fun e => e.1 ≠ ascii "trust").flatMap fun e =>
      line (ascii "  " ++ e.1 ++ ascii ": " ++ e.2.text)

def verdictReport (path : Bytes) (v : Verdict) : Bytes :=
  line (path ++ ascii ": " ++ v.trust.tag ++ ascii " (" ++ v.authority.name ++ ascii ")") ++
  (if v.reason.isEmpty then [] else line (ascii "  reason: " ++ v.reason)) ++
  (v.owner.elim [] fun s => line (ascii "  owner: " ++ s)) ++
  (v.intent.elim [] fun s => line (ascii "  intent: " ++ s)) ++
  (v.constraints.flatMap fun s => line (ascii "  constraint: " ++ s)) ++
  line (ascii "  " ++ v.trust.guidance)

def padTo (width : Nat) (s : Bytes) : Bytes := s ++ List.replicate (max 1 (width - s.length)) space

def languageLine (extensions : Extensions) (lang : Language) : Bytes :=
  line (padTo 12 lang.tag ++ padTo 14 lang.style.name ++
    (extensions.ofTag lang.tag).flatMap fun e => ascii "." ++ e ++ [space])

/-! ### Commands -/

def sources (p : Project) (tag? : Option Bytes) : List Bytes → Except Unreadable (List SourceFile)
  | [] => .ok []
  | path :: paths =>
    match p.read path with
    | .error e => .error e
    | .ok content =>
      match sources p tag? paths with
      | .error e => .error e
      | .ok files => .ok (⟨path, p.tagFor path tag?, content⟩ :: files)

section

variable (p : Project) (verbose : Bool)

def runScan (tag? : Option Bytes) (workers : Nat) (paths : List Bytes) : Report :=
  match sources p tag? paths with
  | .error e => .fail (note e.message)
  | .ok files =>
    { stdout := scansReport ((scanFiles files workers).entries.map (·.2))
      logs := files.map fun f => logged verbose (scanLog f.path f.tag f.content)
      workers := workers }

def runQuery (tag? : Option Bytes) (path : Bytes) (position : Position) : Report :=
  match (p.governance? path tag? position).1 with
  | .error e => .fail (note e.message)
  | .ok g =>
    .after (logged verbose (p.scanLog path tag?)) (.print (governanceReport path position g))

def runCheck (path : Bytes) (lines : Option LineRange) : Report :=
  let (verdict, unreadable, _) := p.verdict path lines
  let log := lines.elim [] fun _ => p.scanLog path none
  { stdout := verdictReport path verdict
    messages := logged verbose log ++
      (unreadable.map fun e => .text (note (e.message ++ ascii " (annotations skipped)"))).toList }

def queryPosition? : List Bytes → Option Position
  | [l] => (number? l).map fun n => ⟨n, 1⟩
  | l :: c :: _ => (number? l).bind fun n => (number? c).map fun k => ⟨n, k⟩
  | [] => none

def runCommand (r : Request) (tag? : Option Bytes) (workers : Nat) : Report :=
  if r.command = ascii "scan" then
    if r.operands.isEmpty then
      .fail (line (ascii "Usage: collab scan <file>... [--language TAG] [--json]"))
    else runScan p verbose tag? workers r.operands
  else if r.command = ascii "query" then
    match r.operands with
    | [] => .fail (line (ascii "Usage: collab query <file> <line> [<column>]"))
    | path :: place =>
      match queryPosition? place with
      | none => .fail (line (ascii "Usage: collab query <file> <line> [<column>]"))
      | some position => runQuery p verbose tag? path position
  else if r.command = ascii "check" then
    match r.operands with
    | [] => .fail (line (ascii "Usage: collab check <file> [--lines A[-B]]"))
    | path :: _ =>
      if r.lines.isEmpty then runCheck p verbose path none
      else
        match lineRange? r.lines with
        | none => .fail (note (ascii "--lines expects A or A-B"))
        | some range => runCheck p verbose path (some range)
  else if r.command = ascii "languages" then
    .print (Language.known.flatMap (languageLine p.extensions))
  else .fail (line (ascii "Unknown command: " ++ r.command) ++ usage)

end

/-! ### Runs -/

def runInit (tree : FileTree) : Report :=
  if (tree.locate? settingsFolder).any (!tree.isFolder ·) then
    .fail (note (ascii "cannot create " ++ settingsFolder ++ ascii ": Not a directory"))
  else if (tree.locate? rulesPath).isSome then .fail (note (rulesPath ++ ascii " already exists"))
  else .print (line (ascii "Wrote " ++ rulesPath))

def project (settings : Settings) (tree : FileTree) : Project where
  tree := tree
  rules := settings.rules
  mappings := settings.config.mappings
  extensions := Extensions.standard.insertAll settings.config.mappings

def runWith (tree : FileTree) (verbose : Bool) (r : Request) (settings : Settings) : Report :=
  match if r.workers.isEmpty then some settings.config.workers else number? r.workers with
  | none => .fail (note (ascii "--workers expects a positive number"))
  | some workers =>
    let tag? := if r.language.isEmpty then none else some r.language
    let warning :=
      match tag? with
      | some tag =>
        if (Language.find? tag).isSome then []
        else
          [.text (note (ascii "unknown language " ++ Attribute.quoted tag ++
            ascii ", using generic scanner"))]
      | none => []
    let verbose := verbose || settings.config.verbose || r.verbose
    .after warning (runCommand (project settings tree) verbose r tag? workers)

def runRequest (json : JsonReader) (tree : FileTree) (verbose : Bool) (r : Request) : Report :=
  if r.command.isEmpty ∨ r.command = ascii "help" then { messages := [.text usage] }
  else if r.command = ascii "init" then runInit tree
  else
    match Settings.load json tree verbose with
    | (log, .error e) => .after log (.fail (note e))
    | (log, .ok settings) => .after log (runWith tree verbose r settings)

def report (json : JsonReader) (tree : FileTree) (verbose : Bool) (arguments : List Bytes) : Report :=
  match ({} : Request).read (arguments.map Bytes.beforeZero) with
  | .error .help => { messages := [.text usage] }
  | .error .version => .print (line version)
  | .error (.unknownOption a) => .fail (line (ascii "Unknown option: " ++ a) ++ usage)
  | .ok r => runRequest json tree verbose r

def runArguments (json : JsonReader) (tree : FileTree) (s : Surroundings) (arguments : List Bytes) :
    Output :=
  (report json tree s.verbose arguments).output s

def run (tree : FileTree) (arguments : List Bytes) : Output :=
  runArguments .none tree .still arguments

end TrustRegions.CommandLine
