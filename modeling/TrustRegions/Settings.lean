import TrustRegions.FileTree
import TrustRegions.Language.Extensions
import TrustRegions.Log
import TrustRegions.Trust.Rules

/-!
The settings of a project, from two files in JSON: how it is scanned, and whom it trusts with what.
A file that is not there leaves its part as it is by default; one that is not right is an error.
-/

namespace TrustRegions

/-- What reads JSON texts and takes their values apart. It says itself what is wrong where it cannot:
the functions on the parts of an object come in two kinds, those that ask for a part and those that
have something in place of one that is missing. -/
structure JsonReader where
  Value : Type
  parse : Bytes → Except Bytes Value
  isObject : Value → Bool
  member? : Value → Bytes → Option Value
  text? : Value → Option Bytes
  count? : Value → Option UInt64
  items : Value → List (Bytes × Value)
  elements : Value → List Value
  textAt : Value → Bytes → Except Bytes Bytes
  countAt : Value → Bytes → Except Bytes UInt64
  flagOr : Value → Bytes → Bool → Except Bytes Bool
  textOr : Value → Bytes → Bytes → Except Bytes Bytes
  countOr : Value → Bytes → UInt64 → Except Bytes UInt64

inductive TrustFault where
  | notText (key : Bytes)
  | unknown (tag : Bytes)
deriving DecidableEq

inductive SettingsFault where
  | format (message : Bytes)
  | notObject
  | workers
  | mapping (extension : Bytes)
  | language (tag : Bytes)
  | trust (fault : TrustFault)
  | pathRule (pattern : Bytes) (fault : TrustFault)
  | lineRule (file : Bytes) (fault : TrustFault)
deriving DecidableEq

open Attribute (quoted)

def TrustFault.message : TrustFault → Bytes
  | notText key => quoted key ++ ascii " must be a string"
  | unknown tag => ascii "unknown trust level " ++ quoted tag

def SettingsFault.message : SettingsFault → Bytes
  | format message => message
  | notObject => ascii "expected a JSON object"
  | workers => quoted (ascii "workers") ++ ascii " must be a non-negative integer"
  | mapping extension => ascii "extension " ++ quoted extension ++ ascii " must map to a language tag"
  | language tag => ascii "unknown language tag " ++ quoted tag
  | trust fault => fault.message
  | pathRule pattern fault => ascii "policy " ++ quoted pattern ++ ascii ": " ++ fault.message
  | lineRule file fault => ascii "region " ++ quoted file ++ ascii ": " ++ fault.message

structure Config where
  workers : Nat := 0
  verbose : Bool := false
  mappings : KeyedMap Bytes := ∅
deriving DecidableEq

namespace JsonReader

variable (json : JsonReader)

/-! ### Values -/

def object (content : Bytes) : Except SettingsFault json.Value := do
  let value ← (json.parse content).mapError .format
  if json.isObject value then return value else throw .notObject

def workers (value : json.Value) : Except SettingsFault Nat :=
  match json.member? value (ascii "workers") with
  | none => .ok 0
  | some workers =>
    match json.count? workers with
    | none => .error .workers
    | some n => .ok n.toNat

def addMapping (mappings : KeyedMap Bytes) (item : Bytes × json.Value) :
    Except SettingsFault (KeyedMap Bytes) :=
  match json.text? item.2 with
  | none => .error (.mapping item.1)
  | some tag =>
    if (Language.find? tag).isSome then .ok (mappings.insert item.1 tag) else .error (.language tag)

def config (content : Bytes) : Except SettingsFault Config := do
  let value ← json.object content
  let workers ← json.workers value
  let verbose ← (json.flagOr value (ascii "verbose") false).mapError .format
  let items := (json.member? value (ascii "extensions")).elim [] json.items
  let mappings ← items.foldlM json.addMapping ∅
  return ⟨workers, verbose, mappings⟩

def trust (value : json.Value) (key : Bytes) : Except TrustFault Trust :=
  match json.member? value key with
  | none => .ok .supervised
  | some trust =>
    match json.text? trust with
    | none => .error (.notText key)
    | some tag => ((Trust.ofTag? tag).map .ok).getD (.error (.unknown tag))

def pathRule (value : json.Value) : Except SettingsFault PathRule := do
  let pattern ← (json.textAt value (ascii "pattern")).mapError .format
  let trust ← (json.trust value (ascii "trust")).mapError (.pathRule pattern)
  let owner ← (json.textOr value (ascii "owner") []).mapError .format
  let reason ← (json.textOr value (ascii "reason") []).mapError .format
  return ⟨pattern, trust, owner, reason⟩

def lineRule (value : json.Value) : Except SettingsFault LineRule := do
  let file ← (json.textAt value (ascii "file")).mapError .format
  let first ← (json.countAt value (ascii "line_start")).mapError .format
  let last ← (json.countOr value (ascii "line_end") first).mapError .format
  let trust ← (json.trust value (ascii "trust")).mapError (.lineRule file)
  let reason ← (json.textOr value (ascii "reason") []).mapError .format
  return ⟨file, first.toNat, last.toNat, trust, reason⟩

def rules (content : Bytes) : Except SettingsFault TrustRules := do
  let value ← json.object content
  let default ← (json.trust value (ascii "default_trust")).mapError .trust
  let all (key : Bytes) := (json.member? value key).elim [] json.elements
  let paths ← (all (ascii "policies")).mapM json.pathRule
  let lines ← (all (ascii "regions")).mapM json.lineRule
  return ⟨default, paths, lines⟩

end JsonReader

def JsonReader.none : JsonReader where
  Value := Empty
  parse _ := .error (ascii "cannot read JSON")
  isObject := nofun
  member? := nofun
  text? := nofun
  count? := nofun
  items := nofun
  elements := nofun
  textAt := nofun
  countAt := nofun
  flagOr := nofun
  textOr := nofun
  countOr := nofun

/-! ### Files -/

def settingsFolder : Bytes := ascii ".collab"

def configPath : Bytes := settingsFolder ++ ascii "/config.json"

def rulesPath : Bytes := settingsFolder ++ ascii "/trust.json"

def Config.logLine (c : Config) : LogLine where
  component := ascii "config"
  message := ascii "loaded " ++ configPath ++ ascii " (workers=" ++ decimal c.workers ++ ascii ", " ++
    decimal c.mappings.size ++ ascii " extension mappings)"

def TrustRules.logLine (r : TrustRules) : LogLine where
  component := ascii "trust"
  message := ascii "loaded " ++ rulesPath ++ ascii ": " ++ decimal r.paths.length ++
    ascii " policies, " ++ decimal r.lines.length ++ ascii " regions"

def noRulesLine : LogLine where
  component := ascii "trust"
  message := rulesPath ++ ascii " not found, using SUPERVISED default"

def SettingsFault.inFile (path : Bytes) (e : SettingsFault) : Bytes :=
  path ++ ascii ": " ++ e.message

namespace FileTree

variable (tree : FileTree) (json : JsonReader)

def config : Except Bytes (Config × List LogLine) :=
  match tree.read? configPath with
  | none => .ok ({}, [])
  | some content =>
    ((json.config content).map fun c => (c, [c.logLine])).mapError (SettingsFault.inFile configPath)

def rules : Except Bytes (TrustRules × LogLine) :=
  match tree.read? rulesPath with
  | none => .ok ({}, noRulesLine)
  | some content =>
    ((json.rules content).map fun r => (r, r.logLine)).mapError (SettingsFault.inFile rulesPath)

end FileTree

structure Settings where
  config : Config
  rules : TrustRules

/-- The settings, or what is wrong with them, and what is logged meanwhile. A configuration can ask for
a log itself, from the line on that tells of it. -/
def Settings.load (json : JsonReader) (tree : FileTree) (verbose : Bool) :
    List Piece × Except Bytes Settings :=
  match tree.config json with
  | .error e => ([], .error e)
  | .ok (config, lines) =>
    let verbose := verbose || config.verbose
    match tree.rules json with
    | .error e => (logged verbose lines, .error e)
    | .ok (rules, line) => (logged verbose (lines ++ [line]), .ok ⟨config, rules⟩)

end TrustRegions
