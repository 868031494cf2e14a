import Mathlib.Data.List.Basic
import Mathlib.Data.List.Induction
import Mathlib.Data.List.TakeWhile
import Mathlib.Tactic.Lemma
import TrustRegions.Proofs.LoggedReports

/-! The order of arguments bears on operands among themselves and on the values of one option, and on
nothing else; and how many workers scan shows in the log alone, in the order of its lines. -/

namespace TrustRegions.CommandLine

/-! ### Arguments -/

def ValueOption.word : ValueOption → Bytes
  | .language => ascii "--language"
  | .lines => ascii "--lines"
  | .workers => ascii "--workers"

inductive Argument where
  | operand (text : Bytes) (plain : text.head? ≠ some (byte '-'))
  | option (name : ValueOption) (value : Bytes)

namespace Argument

def words : Argument → List Bytes
  | operand text _ => [text]
  | option name value => [name.word, value]

def kind : Argument → Option ValueOption
  | operand _ _ => none
  | option name _ => some name

def text? : Argument → Option Bytes
  | operand text _ => some text.beforeZero
  | option _ _ => none

def value? (name : ValueOption) : Argument → Option Bytes
  | operand _ _ => none
  | option other value => if other = name then some value.beforeZero else none

def addTo (r : Request) : Argument → Request
  | operand text _ => r.addOperand text.beforeZero
  | option name value => r.set value.beforeZero name

end Argument

open Argument

def texts (given : List Argument) : List Bytes := (given.filterMap text?).dropWhile List.isEmpty

def lastValue? (name : ValueOption) (given : List Argument) : Option Bytes :=
  (given.filterMap (value? name)).getLast?

def request (given : List Argument) : Request where
  command := (texts given).headD []
  operands := (texts given).tail
  language := (lastValue? .language given).getD []
  lines := (lastValue? .lines given).getD []
  workers := (lastValue? .workers given).getD []

/-! ### What is read -/

lemma isEmpty_of_texts {given : List Argument} {c : Bytes} {rest : List Bytes}
    (h : texts given = c :: rest) : c.isEmpty = false := by
  have hhead := List.head?_dropWhile_not List.isEmpty (given.filterMap text?)
  rw [texts] at h
  rw [h, List.head?_cons] at hhead
  simpa using hhead

lemma texts_concat_operand (given : List Argument) (text : Bytes)
    (plain : text.head? ≠ some (byte '-')) :
    texts (given ++ [.operand text plain]) =
      if (texts given).isEmpty then [text.beforeZero].dropWhile List.isEmpty
      else texts given ++ [text.beforeZero] := by
  rw [texts, List.filterMap_append, List.dropWhile_append]
  rfl

lemma request_concat (given : List Argument) (a : Argument) :
    request (given ++ [a]) = addTo (request given) a := by
  cases a with
  | option name value =>
    have htexts : texts (given ++ [.option name value]) = texts given := by
      rw [texts, List.filterMap_append, texts]
      exact congrArg _ (List.append_nil _)
    rw [request, request, htexts, addTo]
    cases name <;> simp [Request.set, lastValue?, value?, List.filterMap_append]
  | operand text plain =>
    have hvalue (name : ValueOption) :
        lastValue? name (given ++ [.operand text plain]) = lastValue? name given := by
      simp [lastValue?, value?, List.filterMap_append]
    rw [request, request, hvalue, hvalue, hvalue, texts_concat_operand, addTo, Request.addOperand]
    cases h : texts given with
    | nil =>
      by_cases hempty : text.beforeZero = [] <;> simp [hempty]
    | cons c rest => simp [isEmpty_of_texts h]

lemma foldl_addTo (given : List Argument) : given.foldl addTo {} = request given := by
  induction given using List.reverseRecOn with
  | nil => rfl
  | append_singleton given a ih => rw [List.foldl_concat, ih, request_concat]

lemma filterMap_kind {β : Type} {f : Argument → Option β} {kind : Option ValueOption}
    (hf : ∀ a : Argument, a.kind ≠ kind → f a = none) (given : List Argument) :
    (given.filter (·.kind = kind)).filterMap f = given.filterMap f := by
  rw [List.filterMap_filter]
  refine List.filterMap_congr fun a _ => ?_
  by_cases h : a.kind = kind
  · simp [h]
  · simp [h, hf a h]

lemma request_congr {given given' : List Argument}
    (h : ∀ kind, given.filter (·.kind = kind) = given'.filter (·.kind = kind)) :
    request given = request given' := by
  have htext (a : Argument) (ha : a.kind ≠ none) : text? a = none := by
    cases a with
    | operand => exact absurd rfl ha
    | option => rfl
  have hvalue (name : ValueOption) (a : Argument) (ha : a.kind ≠ some name) : value? name a = none := by
    cases a with
    | operand => rfl
    | option other value => exact if_neg fun heq => ha (congrArg some heq)
  have htexts : texts given = texts given' := by
    rw [texts, texts, ← filterMap_kind htext given, h, filterMap_kind htext]
  have hlast (name : ValueOption) : lastValue? name given = lastValue? name given' := by
    rw [lastValue?, lastValue?, ← filterMap_kind (hvalue name) given, h, filterMap_kind (hvalue name)]
  rw [request, request, htexts, hlast, hlast, hlast]

lemma request_workers (before after : List Argument) (v : Bytes) :
    request (before ++ .option .workers v :: after) =
      { request (before ++ after) with
        workers := (lastValue? .workers after).getD v.beforeZero } := by
  have htexts : texts (before ++ .option .workers v :: after) = texts (before ++ after) := by
    rw [texts, texts, List.filterMap_append, List.filterMap_append]
    rfl
  rw [request, request, htexts]
  simp [lastValue?, value?, List.filterMap_append, List.getLast?_append, List.getLast?_cons]

lemma head?_beforeZero {t : Bytes} {c : UInt8} (h : t.head? ≠ some c) : t.beforeZero.head? ≠ some c := by
  cases t with
  | nil => exact h
  | cons d t =>
    by_cases hd : d = 0
    · simp [Bytes.beforeZero, hd]
    · simpa [Bytes.beforeZero, hd] using h

lemma ne_of_head? {t w : Bytes} {c : UInt8} (h : t.head? ≠ some c) (hw : w.head? = some c) : t ≠ w :=
  fun heq => h (heq ▸ hw)

lemma ofArgument?_eq_none {t : Bytes} (h : t.head? ≠ some (byte '-')) :
    ValueOption.ofArgument? t = none := by
  rw [ValueOption.ofArgument?, if_neg (ne_of_head? h rfl), if_neg (ne_of_head? h rfl),
    if_neg (ne_of_head? h rfl)]

lemma ofArgument?_word (name : ValueOption) : ValueOption.ofArgument? name.word = some name := by
  cases name <;> decide

lemma beforeZero_word (name : ValueOption) : name.word.beforeZero = name.word := by
  cases name <;> decide

lemma addArgument_operand (r : Request) {t : Bytes} (h : t.head? ≠ some (byte '-')) :
    r.addArgument t = .ok (r.addOperand t) := by
  rw [Request.addArgument, if_neg (ne_of_head? h rfl), if_neg (ne_of_head? h rfl),
    if_neg (not_or.mpr ⟨ne_of_head? h rfl, ne_of_head? h rfl⟩),
    if_neg (not_or.mpr ⟨ne_of_head? h rfl, ne_of_head? h rfl⟩), if_neg h]

lemma read_operand (r : Request) {t : Bytes} (h : t.head? ≠ some (byte '-')) (rest : List Bytes) :
    r.read (t :: rest) = (r.addOperand t).read rest := by
  cases rest with
  | nil =>
    rw [Request.read, Request.read]
    exact addArgument_operand r h
  | cons b rest => rw [Request.read, ofArgument?_eq_none h, addArgument_operand r h]

lemma read_option (r : Request) (name : ValueOption) (value : Bytes) (rest : List Bytes) :
    r.read (name.word :: value :: rest) = (r.set value name).read rest := by
  rw [Request.read, ofArgument?_word]

lemma read_words (r : Request) (given : List Argument) :
    r.read ((given.flatMap words).map Bytes.beforeZero) = .ok (given.foldl addTo r) := by
  induction given generalizing r with
  | nil => rfl
  | cons a given ih =>
    rw [List.flatMap_cons, List.map_append, List.foldl_cons, ← ih]
    cases a with
    | operand text plain => exact read_operand r (head?_beforeZero plain) _
    | option name value =>
      simp only [words, List.map_cons, List.map_nil, beforeZero_word]
      exact read_option r name _ _

lemma report_words (json : JsonReader) (tree : FileTree) (verbose : Bool) (given : List Argument) :
    report json tree verbose (given.flatMap words) = runRequest json tree verbose (request given) := by
  rw [report, read_words, foldl_addTo]

/-! ### Workers -/

def numeral (zeros n : Nat) : Bytes := List.replicate zeros (byte '0') ++ decimal n

lemma numeral_eq_map (zeros n : Nat) :
    numeral zeros n = (List.replicate zeros '0' ++ Nat.toDigits 10 n).map byte := by
  rw [List.map_append, List.map_replicate]
  rfl

variable {zeros n : Nat}

lemma isDigit_of_mem_toDigits {c : Char} (h : c ∈ List.replicate zeros '0' ++ Nat.toDigits 10 n) :
    c.isDigit := by
  rcases List.mem_append.mp h with h | h
  · rw [List.eq_of_mem_replicate h]
    rfl
  · exact Nat.isDigit_of_mem_toDigits (by decide) (by decide) h

lemma toNat_byte {c : Char} (h : c.isDigit) :
    (byte c).toNat = c.toNat ∧ 48 ≤ c.toNat ∧ c.toNat ≤ 57 := by
  obtain ⟨hlo, hhi⟩ : 48 ≤ c.toNat ∧ c.toNat ≤ 57 := by
    simpa [Char.isDigit, UInt32.le_iff_toNat_le] using h
  refine ⟨?_, hlo, hhi⟩
  rw [byte, UInt8.toNat_ofNat']
  omega

lemma digitsValue_numeral (zeros n : Nat) : digitsValue (numeral zeros n) = n := by
  have hvalue : Nat.ofDigitChars 10 (List.replicate zeros '0' ++ Nat.toDigits 10 n) 0 = n := by
    rw [Nat.ofDigitChars_append, Nat.ofDigitChars_replicate_zero, Nat.mul_zero,
      Nat.ofDigitChars_ten_toDigits]
  rw [Nat.ofDigitChars_eq_foldl] at hvalue
  rw [digitsValue, numeral_eq_map, List.foldl_map]
  refine (List.foldl_ext _ _ _ fun k c hc => ?_).trans hvalue
  rw [(toNat_byte (isDigit_of_mem_toDigits hc)).1]
  rfl

lemma isDigit_of_mem_numeral {d : UInt8} (h : d ∈ numeral zeros n) : isDigit d := by
  rw [numeral_eq_map] at h
  obtain ⟨c, hc, rfl⟩ := List.mem_map.mp h
  obtain ⟨hbyte, hlo, hhi⟩ := toNat_byte (isDigit_of_mem_toDigits hc)
  rw [isDigit, Bool.and_eq_true, decide_eq_true_eq, decide_eq_true_eq, UInt8.le_iff_toNat_le,
    UInt8.le_iff_toNat_le, hbyte]
  exact ⟨hlo, hhi⟩

lemma numeral_ne_nil (zeros n : Nat) : numeral zeros n ≠ [] := by
  apply List.append_ne_nil_of_right_ne_nil
  exact (List.map_eq_nil_iff.not).mpr Nat.toDigits_ne_nil

lemma beforeZero_numeral (zeros n : Nat) : (numeral zeros n).beforeZero = numeral zeros n := by
  apply List.takeWhile_eq_self_iff.mpr
  intro d hd
  refine decide_eq_true ?_
  rintro rfl
  exact absurd (isDigit_of_mem_numeral hd) (by decide)

lemma number?_numeral (hpos : 0 < n) (hlt : n < UInt64.size) : number? (numeral zeros n) = some n := by
  have hall : (numeral zeros n).all isDigit := List.all_eq_true.mpr fun d hd => isDigit_of_mem_numeral hd
  have hempty : (numeral zeros n).isEmpty = false := by
    simpa using numeral_ne_nil zeros n
  simp [number?, hempty, hall, digitsValue_numeral, hpos, hlt]

lemma request_verbose (given : List Argument) : (request given).verbose = false := rfl

/-! ### Runs -/

variable {json : JsonReader} {tree : FileTree} {s s' : Surroundings} {given given' : List Argument}

/-- Two runs that differ at most in what the log says of the time and in how the lines of workers are
mixed there, and not at all if neither the environment nor the configuration asks for a log. -/
structure Alike (json : JsonReader) (tree : FileTree) (s s' : Surroundings)
    (arguments arguments' : List Bytes) : Prop where
  exit : (runArguments json tree s arguments).exit = (runArguments json tree s' arguments').exit
  stdout : (runArguments json tree s arguments).stdout = (runArguments json tree s' arguments').stdout
  messages : (report json tree s.verbose arguments).messages =
    (report json tree s'.verbose arguments').messages
  logs : (report json tree s.verbose arguments).logs = (report json tree s'.verbose arguments').logs
  unlogged : s.verbose = false → Unlogged json tree →
    runArguments json tree s arguments = runArguments json tree s' arguments'

lemma alike_of_agree (hs : s.verbose = s'.verbose)
    (h : (runRequest json tree s.verbose (request given)).Agree
      (runRequest json tree s.verbose (request given'))) :
    Alike json tree s s' (given.flatMap words) (given'.flatMap words) := by
  rw [← report_words, ← report_words] at h
  have h' : (report json tree s.verbose (given.flatMap words)).Agree
      (report json tree s'.verbose (given'.flatMap words)) := hs ▸ h
  refine ⟨h'.exit, h'.stdout, h'.messages, h'.logs, fun hverbose hunlogged => h'.output_eq ?_ s s'⟩
  rw [report_words, hverbose]
  exact silent_runRequest hunlogged _ (request_verbose given)

lemma agree_workers (verbose : Bool) (before after : List Argument) {v w : Bytes}
    (hv : (number? v.beforeZero).isSome) (hw : (number? w.beforeZero).isSome) :
    (runRequest json tree verbose (request (before ++ .option .workers v :: after))).Agree
      (runRequest json tree verbose (request (before ++ .option .workers w :: after))) := by
  rw [request_workers, request_workers]
  cases lastValue? .workers after with
  | none => exact runRequest_workers json tree verbose _ hv hw
  | some later => exact .refl _

def poolReport (pool : Pool Scan) : Bytes :=
  scansReport ((scansByPath (pool.slots.filterMap id)).entries.map (·.2))

lemma runScan_schedule {p : Project} {tag? : Option Bytes} {paths : List Bytes} {files : List SourceFile}
    {asked workers : Nat} {schedule : List Nat} (verbose : Bool) (hfiles : sources p tag? paths = .ok files)
    (hw : 0 < workers) (hf : (scanPool files workers schedule).Finished) :
    runScan p verbose tag? asked paths =
      { stdout := poolReport (scanPool files workers schedule)
        logs := files.map fun f => logged verbose (scanLog f.path f.tag f.content)
        workers := asked } := by
  have hscans : scansByPath ((scanPool files workers schedule).slots.filterMap id) =
      scanFiles files asked := by
    rw [filterMap_slots hw hf, scanFiles_eq_scansByPath]
  rw [runScan, hfiles, poolReport, hscans]

/-- Arguments are read as their operands in order and the last value of each option. So another order,
with operands and the values of each option in theirs, makes for the same output in the same surroundings,
and in any others for one that is the same but for a log; and so does another number of workers, in
decimal digits. A scan prints what any workers come to that have all stopped, whatever their number and
the order of their turns. -/
theorem runArguments_reordered (json : JsonReader) (tree : FileTree) :
    (∀ verbose, ∀ given : List Argument,
      report json tree verbose (given.flatMap words) = runRequest json tree verbose (request given)) ∧
    (∀ given given' : List Argument,
      (∀ kind, given.filter (·.kind = kind) = given'.filter (·.kind = kind)) →
        (∀ s, runArguments json tree s (given.flatMap words) =
          runArguments json tree s (given'.flatMap words)) ∧
        ∀ s s' : Surroundings, s.verbose = s'.verbose →
          Alike json tree s s' (given.flatMap words) (given'.flatMap words)) ∧
    (∀ before after zeros zeros' n n', 0 < n → n < UInt64.size → 0 < n' → n' < UInt64.size →
      ∀ s s' : Surroundings, s.verbose = s'.verbose →
        Alike json tree s s'
          ((before ++ .option .workers (numeral zeros n) :: after).flatMap words)
          ((before ++ .option .workers (numeral zeros' n') :: after).flatMap words)) ∧
    ∀ p verbose tag? paths files, sources p tag? paths = .ok files →
      ∀ asked workers schedule, 0 < workers → (scanPool files workers schedule).Finished →
        runScan p verbose tag? asked paths =
          { stdout := poolReport (scanPool files workers schedule)
            logs := files.map fun f => logged verbose (scanLog f.path f.tag f.content)
            workers := asked } := by
  refine ⟨report_words json tree, fun given given' h => ⟨fun s => ?_, fun s s' hs => ?_⟩,
    fun before after zeros zeros' n n' hn hlt hn' hlt' s s' hs => ?_,
    fun p verbose tag? paths files hfiles asked workers schedule hw hf =>
      runScan_schedule verbose hfiles hw hf⟩
  · rw [runArguments, runArguments, report_words, report_words, request_congr h]
  · exact alike_of_agree hs (request_congr h ▸ .refl _)
  · refine alike_of_agree hs (agree_workers s.verbose before after ?_ ?_)
    · rw [beforeZero_numeral, number?_numeral hn hlt]
      rfl
    · rw [beforeZero_numeral, number?_numeral hn' hlt']
      rfl

/-! ### A configuration that asks for a log -/

inductive FlagJson where
  | flags
  | yes
deriving DecidableEq

def verboseText : Bytes := ascii "\x7b\"verbose\": true\x7d"

def flagReader : JsonReader where
  Value := FlagJson
  parse content := if content = verboseText then .ok .flags else .error (ascii "not an object of a flag")
  isObject value := value = .flags
  member? value key := if value = .flags ∧ key = ascii "verbose" then some .yes else none
  text? _ := none
  count? _ := none
  items value := if value = .flags then [(ascii "verbose", .yes)] else [([], .yes)]
  elements _ := [.yes]
  textAt _ key := .error (ascii "no text under " ++ key)
  countAt _ key := .error (ascii "no number under " ++ key)
  flagOr _ key default := .ok (decide (key = ascii "verbose") || default)
  textOr _ _ default := .ok default
  countOr _ _ default := .ok default

def plainTree : FileTree :=
  (FileTree.write {} (ascii "a") (ascii "# @collab trust=\"READ_ONLY\"\nx = 1\n")).write (ascii "b")
    (ascii "y = 2\n")

def verboseTree : FileTree := plainTree.write configPath verboseText

def secondFirst : List (List Piece) → List Piece
  | a :: b :: rest => b ++ (a ++ rest.flatten)
  | parts => parts.flatten

lemma interleaves_secondFirst (parts : List (List Piece)) : Interleaves parts (secondFirst parts) := by
  unfold secondFirst
  split
  · next a b rest =>
    refine Interleaves.append (i := 1) (t := []) (by simp) ?_
    simpa using Interleaves.flatten (a :: [] :: rest)
  · exact .flatten _

def racing : Surroundings where
  verbose := false
  clock n := decimal n
  mix workers parts := if workers = 1 then parts.flatten else secondFirst parts
  mix_interleaves workers parts := by
    split
    · exact .flatten parts
    · exact interleaves_secondFirst parts
  mix_one _ := rfl

def optionsFirst : List Argument :=
  [.option .workers (numeral 0 2), .option .language (ascii "python"),
    .operand (ascii "scan") (by decide), .operand (ascii "a") (by decide),
    .operand (ascii "b") (by decide)]

def optionsBetween : List Argument :=
  [.operand (ascii "scan") (by decide), .option .language (ascii "python"),
    .operand (ascii "a") (by decide), .option .workers (numeral 0 2),
    .operand (ascii "b") (by decide)]

def scanOfTwo (workers : Bytes) : List Argument :=
  [.operand (ascii "scan") (by decide), .operand (ascii "a") (by decide),
    .operand (ascii "b") (by decide), .option .workers workers]

theorem runArguments_reordered_scanOfTwo :
    (∀ kind, optionsFirst.filter (·.kind = kind) = optionsBetween.filter (·.kind = kind)) ∧
    runArguments flagReader verboseTree racing (optionsFirst.flatMap words) =
      runArguments flagReader verboseTree racing (optionsBetween.flatMap words) ∧
    Alike flagReader verboseTree .still racing (optionsFirst.flatMap words)
      (optionsBetween.flatMap words) ∧
    Alike flagReader verboseTree .still racing ((scanOfTwo (numeral 0 1)).flatMap words)
      ((scanOfTwo (numeral 1 2)).flatMap words) := by
  obtain ⟨-, horder, hworkers, -⟩ := runArguments_reordered flagReader verboseTree
  have hkinds : ∀ kind, optionsFirst.filter (·.kind = kind) = optionsBetween.filter (·.kind = kind) := by
    rintro (_ | _ | _ | _) <;> rfl
  obtain ⟨hsame, halike⟩ := horder optionsFirst optionsBetween hkinds
  refine ⟨hkinds, hsame racing, halike .still racing rfl, ?_⟩
  exact hworkers [.operand (ascii "scan") (by decide), .operand (ascii "a") (by decide),
    .operand (ascii "b") (by decide)] [] 0 1 1 2 (by decide) (by decide) (by decide) (by decide)
    .still racing rfl

theorem not_runArguments_reordered_logged :
    runArguments flagReader verboseTree .still (optionsFirst.flatMap words) ≠
      runArguments flagReader verboseTree racing (optionsBetween.flatMap words) ∧
    runArguments flagReader verboseTree racing ((scanOfTwo (numeral 0 1)).flatMap words) ≠
      runArguments flagReader verboseTree racing ((scanOfTwo (numeral 0 2)).flatMap words) ∧
    (runArguments flagReader plainTree .still ((scanOfTwo (ascii "2")).flatMap words)).exit = 0 ∧
    (runArguments flagReader plainTree .still ((scanOfTwo (ascii "+2")).flatMap words)).exit = 1 := by
  decide +kernel

end TrustRegions.CommandLine
