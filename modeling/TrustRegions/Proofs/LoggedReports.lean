import Mathlib.Tactic.Lemma
import TrustRegions.CommandLine
import TrustRegions.Proofs.Schedules

/-! What can differ between two runs of a command: how many workers there are shows in the order of the
log alone, and where nothing is logged nothing else can show. -/

namespace TrustRegions

lemma Interleaves.eq_nil {parts : List (List Piece)} {whole : List Piece} (h : Interleaves parts whole)
    (hparts : ∀ part ∈ parts, part = []) : whole = [] := by
  cases h with
  | done => rfl
  | next hi h => exact absurd (hparts _ (List.mem_of_getElem? hi)) (List.cons_ne_nil _ _)

lemma Surroundings.fill_eq_fill {l : List Piece} (h : Piece.stamp ∉ l) (s s' : Surroundings)
    (m n width : Nat) : s.fill m width l = s'.fill n width l := by
  induction l generalizing width with
  | nil => rfl
  | cons p l ih =>
    obtain ⟨hp, hl⟩ := not_or.mp (List.mem_cons.not.mp h)
    cases p with
    | text t | raw t => rw [fill, fill, ih hl]
    | field w => exact ih hl w
    | stamp => exact absurd rfl hp

@[simp] lemma logged_false (lines : List LogLine) : logged false lines = [] := rfl

namespace CommandLine

namespace Report

structure Agree (r r' : Report) : Prop where
  exit : r.exit = r'.exit
  stdout : r.stdout = r'.stdout
  messages : r.messages = r'.messages
  logs : r.logs = r'.logs

structure Silent (r : Report) : Prop where
  messages : Piece.stamp ∉ r.messages
  logs : ∀ log ∈ r.logs, log = []

variable {r r' : Report}

lemma Agree.refl (r : Report) : r.Agree r := ⟨rfl, rfl, rfl, rfl⟩

lemma Agree.after (h : r.Agree r') (messages : List Piece) :
    (r.after messages).Agree (r'.after messages) :=
  ⟨h.exit, h.stdout, congrArg (messages ++ ·) h.messages, h.logs⟩

lemma Silent.after (h : r.Silent) {messages : List Piece} (hm : Piece.stamp ∉ messages) :
    (r.after messages).Silent :=
  ⟨fun hs => (List.mem_append.mp hs).elim hm h.messages, h.logs⟩

lemma Silent.ite {c : Prop} [Decidable c] (h : r.Silent) (h' : r'.Silent) :
    (if c then r else r').Silent := by
  split
  · exact h
  · exact h'

lemma silent_print (t : Bytes) : (print t).Silent := ⟨nofun, nofun⟩

lemma silent_fail (t : Bytes) : (fail t).Silent := ⟨by simp [fail], nofun⟩

lemma Agree.output_eq (h : r.Agree r') (hr : r.Silent) (s s' : Surroundings) :
    r.output s = r'.output s' := by
  have hlogs : ∀ log ∈ r'.logs, log = [] := h.logs ▸ hr.logs
  rw [output, output, (s.mix_interleaves r.workers r.logs).eq_nil hr.logs,
    (s'.mix_interleaves r'.workers r'.logs).eq_nil hlogs, List.append_nil, List.append_nil,
    ← h.messages, s.fill_eq_fill hr.messages s' 0 0 0, h.exit, h.stdout]

end Report

/-! ### Workers -/

lemma runScan_workers (p : Project) (verbose : Bool) (tag? : Option Bytes) (m n : Nat)
    (paths : List Bytes) :
    (runScan p verbose tag? m paths).Agree (runScan p verbose tag? n paths) := by
  unfold runScan
  split
  · exact .refl _
  · rw [scanFiles_eq_scansByPath, scanFiles_eq_scansByPath]
    exact ⟨rfl, rfl, rfl, rfl⟩

lemma runCommand_workers (p : Project) (verbose : Bool) (r : Request) (tag? : Option Bytes)
    (v w : Bytes) (m n : Nat) :
    (runCommand p verbose { r with workers := v } tag? m).Agree
      (runCommand p verbose { r with workers := w } tag? n) := by
  by_cases hscan : r.command = ascii "scan"
  · rw [runCommand, runCommand, if_pos hscan, if_pos hscan]
    split
    · exact .refl _
    · exact runScan_workers p verbose tag? m n r.operands
  · rw [runCommand, runCommand, if_neg hscan, if_neg hscan]
    exact .refl _

lemma runWith_workers (tree : FileTree) (verbose : Bool) (r : Request) (settings : Settings)
    {v w : Bytes} (hv : (number? v).isSome) (hw : (number? w).isSome) :
    (runWith tree verbose { r with workers := v } settings).Agree
      (runWith tree verbose { r with workers := w } settings) := by
  have hasked {x : Bytes} (hx : (number? x).isSome) :
      ∃ n, (if x.isEmpty then some settings.config.workers else number? x) = some n := by
    cases x with
    | nil => cases hx
    | cons c x => exact Option.isSome_iff_exists.mp hx
  obtain ⟨m, hm⟩ := hasked hv
  obtain ⟨n, hn⟩ := hasked hw
  simp only [runWith, hm, hn]
  exact (runCommand_workers _ _ r _ v w m n).after _

lemma runRequest_workers (json : JsonReader) (tree : FileTree) (verbose : Bool) (r : Request)
    {v w : Bytes} (hv : (number? v).isSome) (hw : (number? w).isSome) :
    (runRequest json tree verbose { r with workers := v }).Agree
      (runRequest json tree verbose { r with workers := w }) := by
  unfold runRequest
  dsimp only
  split
  · exact .refl _
  · split
    · exact .refl _
    · cases Settings.load json tree verbose with
      | mk log loaded =>
        cases loaded with
        | error e => exact .refl _
        | ok settings => exact (runWith_workers tree verbose r settings hv hw).after log

/-! ### Silence -/

def Unlogged (json : JsonReader) (tree : FileTree) : Prop :=
  ∀ config lines, tree.config json = .ok (config, lines) → config.verbose = false

variable {json : JsonReader} {tree : FileTree}

lemma silent_runScan (p : Project) (tag? : Option Bytes) (workers : Nat) (paths : List Bytes) :
    (runScan p false tag? workers paths).Silent := by
  unfold runScan
  split
  · exact Report.silent_fail _
  · refine ⟨nofun, fun log hlog => ?_⟩
    obtain ⟨f, -, rfl⟩ := List.mem_map.mp hlog
    exact logged_false _

lemma silent_runQuery (p : Project) (tag? : Option Bytes) (path : Bytes) (position : Position) :
    (runQuery p false tag? path position).Silent := by
  unfold runQuery
  split
  · exact Report.silent_fail _
  · exact (Report.silent_print _).after nofun

lemma silent_runCheck (p : Project) (path : Bytes) (lines : Option LineRange) :
    (runCheck p false path lines).Silent := by
  refine ⟨?_, nofun⟩
  simp [runCheck]

lemma silent_runCommand (p : Project) (r : Request) (tag? : Option Bytes) (workers : Nat) :
    (runCommand p false r tag? workers).Silent := by
  unfold runCommand
  refine .ite ?scan (.ite ?query (.ite ?check (.ite ?languages (Report.silent_fail _))))
  case scan => exact .ite (Report.silent_fail _) (silent_runScan p tag? workers _)
  case query =>
    split
    · exact Report.silent_fail _
    · split
      · exact Report.silent_fail _
      · exact silent_runQuery p tag? _ _
  case check =>
    split
    · exact Report.silent_fail _
    · refine .ite (silent_runCheck p _ none) ?_
      split
      · exact Report.silent_fail _
      · exact silent_runCheck p _ _
  case languages => exact Report.silent_print _

lemma silent_runInit (tree : FileTree) : (runInit tree).Silent := by
  unfold runInit
  exact .ite (Report.silent_fail _) (.ite (Report.silent_fail _) (Report.silent_print _))

lemma silent_runWith (r : Request) (hr : r.verbose = false) (settings : Settings)
    (hs : settings.config.verbose = false) : (runWith tree false r settings).Silent := by
  unfold runWith
  split
  · exact Report.silent_fail _
  · rw [hr, hs]
    refine (silent_runCommand _ r _ _).after ?_
    split
    · split
      · exact List.not_mem_nil
      · simp
    · exact List.not_mem_nil

lemma load_of_unlogged (h : Unlogged json tree) :
    (Settings.load json tree false).1 = [] ∧
      ∀ settings, (Settings.load json tree false).2 = .ok settings → settings.config.verbose = false := by
  unfold Settings.load
  cases hc : tree.config json with
  | error e => exact ⟨rfl, nofun⟩
  | ok found =>
    have hverbose : found.1.verbose = false := h found.1 found.2 hc
    have hlogged (lines : List LogLine) : logged (false || found.1.verbose) lines = [] := by
      rw [hverbose, Bool.or_false, logged_false]
    cases tree.rules json with
    | error e => exact ⟨hlogged _, nofun⟩
    | ok rules =>
      refine ⟨hlogged _, fun settings hs => ?_⟩
      rw [← Except.ok.inj hs]
      exact hverbose

lemma silent_runRequest (h : Unlogged json tree) (r : Request) (hr : r.verbose = false) :
    (runRequest json tree false r).Silent := by
  unfold runRequest
  split
  · exact ⟨by simp, nofun⟩
  · split
    · exact silent_runInit tree
    · obtain ⟨hlog, hsettings⟩ := load_of_unlogged h
      cases hload : Settings.load json tree false with
      | mk log loaded =>
        rw [hload] at hlog hsettings
        have hstamp : Piece.stamp ∉ log := by
          rw [show log = [] from hlog]
          exact List.not_mem_nil
        cases loaded with
        | error e => exact (Report.silent_fail _).after hstamp
        | ok settings =>
          exact (silent_runWith r hr settings (hsettings settings rfl)).after hstamp

end CommandLine

end TrustRegions
