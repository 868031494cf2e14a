import Mathlib.Data.List.Basic
import Mathlib.Tactic.Lemma
import TrustRegions.Scan.Pool
import TrustRegions.Proofs.KeyLookup

/-! Workers that draw from one counter, under any schedule: no index is drawn twice, who has enough
turns stops, and once all have stopped the slots do not tell the schedule. -/

namespace TrustRegions

namespace Pool

variable {β : Type} {job : Nat → Option β} {p q : Pool β} {w : Nat} {c : Option Nat}

def claim? (p : Pool β) (w : Nat) : Option Nat :=
  match p.workers[w]? with
  | some .idle => some p.next
  | _ => none

def claims (job : Nat → Option β) : Pool β → List Nat → List Nat
  | _, [] => []
  | p, w :: schedule => (p.claim? w).toList ++ claims job (p.step job w) schedule

def Finished (p : Pool β) : Prop := ∀ worker ∈ p.workers, worker = .finished

instance : Decidable p.Finished := inferInstanceAs (Decidable (∀ worker ∈ p.workers, _))

inductive Turn (job : Nat → Option β) (p : Pool β) (w : Nat) : Option Nat → Pool β → Prop
  | claim : p.workers[w]? = some .idle → p.next < p.slots.length →
      Turn job p w (some p.next)
        { p with next := p.next + 1, workers := p.workers.set w (.busy p.next) }
  | stop : p.workers[w]? = some .idle → p.slots.length ≤ p.next →
      Turn job p w (some p.next)
        { p with next := p.next + 1, workers := p.workers.set w .finished }
  | fill (i : Nat) : p.workers[w]? = some (.busy i) →
      Turn job p w none
        { p with workers := p.workers.set w .idle, slots := p.slots.set i (job i) }
  | pass : p.workers[w]? = some .finished ∨ p.workers[w]? = none → Turn job p w none p

lemma turn_step (job : Nat → Option β) (p : Pool β) (w : Nat) :
    Turn job p w (p.claim? w) (p.step job w) := by
  unfold claim? step
  rcases h : p.workers[w]? with _ | _ | i | _
  · exact .pass (.inr h)
  · rcases Nat.lt_or_ge p.next p.slots.length with hn | hn
    · simpa [hn] using Turn.claim h hn
    · simpa [Nat.not_lt.mpr hn] using Turn.stop h hn
  · exact .fill i h
  · exact .pass (.inl h)

lemma Turn.length_workers (h : Turn job p w c q) : q.workers.length = p.workers.length := by
  cases h <;> simp

lemma Turn.length_slots (h : Turn job p w c q) : q.slots.length = p.slots.length := by
  cases h <;> simp

lemma length_run (job : Nat → Option β) (p : Pool β) (schedule : List Nat) :
    (p.run job schedule).workers.length = p.workers.length ∧
      (p.run job schedule).slots.length = p.slots.length := by
  induction schedule generalizing p with
  | nil => exact ⟨rfl, rfl⟩
  | cons w schedule ih =>
    have h := turn_step job p w
    exact ⟨(ih _).1.trans h.length_workers, (ih _).2.trans h.length_slots⟩

/-! ### What is drawn -/

lemma Turn.exists_drawn (h : Turn job p w c q) :
    ∃ k, q.next = p.next + k ∧ c.toList = List.range' p.next k := by
  cases h with
  | claim | stop => exact ⟨1, rfl, rfl⟩
  | fill | pass => exact ⟨0, rfl, rfl⟩

lemma exists_claims (job : Nat → Option β) (p : Pool β) (schedule : List Nat) :
    ∃ k, (p.run job schedule).next = p.next + k ∧
      p.claims job schedule = List.range' p.next k := by
  induction schedule generalizing p with
  | nil => exact ⟨0, rfl, rfl⟩
  | cons w schedule ih =>
    obtain ⟨k, hk, hc⟩ := (turn_step job p w).exists_drawn
    obtain ⟨l, hl, hcs⟩ := ih (p.step job w)
    refine ⟨k + l, by rw [← Nat.add_assoc, ← hk]; exact hl, ?_⟩
    rw [claims, hc, hcs, hk, List.range'_append_1]

lemma claims_start (job : Nat → Option β) (workers jobs : Nat) (schedule : List Nat) :
    (start workers jobs).claims job schedule =
      List.range ((start workers jobs).run job schedule).next := by
  obtain ⟨k, hk, hc⟩ := exists_claims job (start workers jobs) schedule
  rw [hc, hk, List.range_eq_range']
  congr 1
  exact (Nat.zero_add k).symm

/-! ### What the slots hold -/

structure Sound (job : Nat → Option β) (p : Pool β) : Prop where
  filled : ∀ i < p.next, i < p.slots.length → p.slots[i]? = some (job i) ∨ .busy i ∈ p.workers
  stopped : .finished ∈ p.workers → p.slots.length ≤ p.next

lemma sound_start (job : Nat → Option β) (workers jobs : Nat) : (start workers jobs).Sound job :=
  ⟨by simp [start], by simp [start]⟩

lemma mem_set_of_ne {α : Type} {l : List α} {i : Nat} {a b x : α} (ha : l[i]? = some a)
    (hne : x ≠ a) (hx : x ∈ l) : x ∈ l.set i b := by
  obtain ⟨j, hj⟩ := List.mem_iff_getElem?.mp hx
  refine List.mem_iff_getElem?.mpr ⟨j, ?_⟩
  have hij : i ≠ j := by
    rintro rfl
    exact hne (Option.some.inj (hj.symm.trans ha))
  rw [List.getElem?_set_ne hij, hj]

lemma Turn.sound (h : Turn job p w c q) (hp : p.Sound job) : q.Sound job := by
  cases h with
  | claim hw hn =>
    refine ⟨fun i hi hlen => ?_, fun hmem => ?_⟩
    · rcases Nat.lt_succ_iff_lt_or_eq.mp hi with hi | rfl
      · exact (hp.filled i hi hlen).imp_right (mem_set_of_ne hw (by simp))
      · exact .inr (List.mem_set (List.getElem?_eq_some_iff.mp hw).1 _)
    · rcases List.mem_or_eq_of_mem_set hmem with hmem | hmem
      · exact Nat.le_succ_of_le (hp.stopped hmem)
      · cases hmem
  | stop hw hn =>
    refine ⟨fun i _ hlen => ?_, fun _ => Nat.le_succ_of_le hn⟩
    exact (hp.filled i (Nat.lt_of_lt_of_le hlen hn) hlen).imp_right (mem_set_of_ne hw (by simp))
  | fill i hw =>
    refine ⟨fun j hj hlen => ?_, fun hmem => ?_⟩
    · rw [List.length_set] at hlen
      rcases eq_or_ne i j with rfl | hij
      · exact .inl (List.getElem?_set_self hlen)
      · rw [List.getElem?_set_ne hij]
        exact (hp.filled j hj hlen).imp_right (mem_set_of_ne hw (by simpa using hij.symm))
    · rw [List.length_set]
      rcases List.mem_or_eq_of_mem_set hmem with hmem | hmem
      · exact hp.stopped hmem
      · cases hmem
  | pass => exact hp

lemma Sound.run (hp : p.Sound job) (schedule : List Nat) : (p.run job schedule).Sound job := by
  induction schedule generalizing p with
  | nil => exact hp
  | cons w schedule ih => exact ih ((turn_step job p w).sound hp)

lemma Sound.length_le_next (hp : p.Sound job) (hw : 0 < p.workers.length) (hf : p.Finished) :
    p.slots.length ≤ p.next := by
  obtain ⟨worker, hmem⟩ := List.length_pos_iff_exists_mem.mp hw
  exact hp.stopped (hf worker hmem ▸ hmem)

lemma Sound.slots_eq (hp : p.Sound job) (hw : 0 < p.workers.length) (hf : p.Finished) :
    p.slots = (List.range p.slots.length).map job := by
  refine List.ext_getElem? fun i => ?_
  rcases Nat.lt_or_ge i p.slots.length with hi | hi
  · rcases hp.filled i (Nat.lt_of_lt_of_le hi (hp.length_le_next hw hf)) hi with h | h
    · rw [h, List.getElem?_map, List.getElem?_range hi, Option.map_some]
    · cases hf _ h
  · rw [List.getElem?_eq_none hi, List.getElem?_eq_none (by simpa using hi)]

/-! ### Workers that come to an end -/

def turnsLeft (p : Pool β) (w : Nat) : Nat :=
  match p.workers[w]? with
  | some .idle => 2 * (p.slots.length - p.next) + 1
  | some (.busy _) => 2 * (p.slots.length - p.next) + 2
  | _ => 0

lemma Turn.turnsLeft_self (h : Turn job p w c q) : q.turnsLeft w ≤ p.turnsLeft w - 1 := by
  cases h with
  | claim hw hn =>
    simp only [turnsLeft, hw, List.getElem?_set_self', Option.map_eq_map, Option.map_some]
    simp only [Function.const_apply]
    omega
  | stop hw => simp [turnsLeft, hw, List.getElem?_set_self']
  | fill i hw => simp [turnsLeft, hw, List.getElem?_set_self']
  | pass hw => rcases hw with hw | hw <;> simp [turnsLeft, hw]

lemma Turn.turnsLeft_of_ne {v : Nat} (h : Turn job p v c q) (hne : v ≠ w) :
    q.turnsLeft w ≤ p.turnsLeft w := by
  have hother : q.workers[w]? = p.workers[w]? := by
    cases h <;> simp [List.getElem?_set_ne, hne]
  have hleft : q.slots.length - q.next ≤ p.slots.length - p.next := by
    cases h <;> simp <;> omega
  unfold turnsLeft
  rw [hother]
  split <;> omega

lemma turnsLeft_run (job : Nat → Option β) (p : Pool β) (w : Nat) (schedule : List Nat) :
    (p.run job schedule).turnsLeft w ≤ p.turnsLeft w - schedule.count w := by
  induction schedule generalizing p with
  | nil => exact Nat.le_refl _
  | cons v schedule ih =>
    refine Nat.le_trans (ih (p.step job v)) ?_
    rcases eq_or_ne v w with rfl | hne
    · have := (turn_step job p v).turnsLeft_self
      rw [List.count_cons_self]
      omega
    · have := (turn_step job p v).turnsLeft_of_ne hne
      rw [List.count_cons_of_ne hne]
      omega

lemma finished_of_turnsLeft (h : ∀ w < p.workers.length, p.turnsLeft w = 0) : p.Finished := by
  intro worker hmem
  obtain ⟨w, hw⟩ := List.mem_iff_getElem?.mp hmem
  have hzero := h w (List.getElem?_eq_some_iff.mp hw).1
  cases worker with
  | finished => rfl
  | idle | busy => simp [turnsLeft, hw] at hzero

lemma finished_run {workers jobs : Nat} {schedule : List Nat}
    (h : ∀ w < workers, 2 * jobs + 1 ≤ schedule.count w) :
    ((start workers jobs).run job schedule).Finished := by
  refine finished_of_turnsLeft fun w hw => ?_
  have hlen : w < workers := by simpa [(length_run job _ schedule).1, start] using hw
  have hrun := turnsLeft_run job (start workers jobs) w schedule
  have hstart : (start workers jobs : Pool β).turnsLeft w = 2 * jobs + 1 := by
    simp [turnsLeft, start, hlen]
  have := h w hlen
  omega

lemma count_roundRobin {workers jobs : Nat} (hw : w < workers) :
    (roundRobin workers jobs).count w = 2 * jobs + 1 := by
  have hone : (List.range workers).count w = 1 :=
    List.count_eq_one_of_mem List.nodup_range (List.mem_range.mpr hw)
  simp [roundRobin, List.count_flatMap, Function.comp_def, hone]

lemma slots_run {workers jobs : Nat} {schedule : List Nat} (hw : 0 < workers)
    (hf : ((start workers jobs).run job schedule).Finished) :
    ((start workers jobs).run job schedule).slots = (List.range jobs).map job ∧
      jobs ≤ ((start workers jobs).run job schedule).next := by
  obtain ⟨hworkers, hslots⟩ := length_run job (start workers jobs) schedule
  have hpos : 0 < ((start workers jobs).run job schedule).workers.length := by
    rwa [hworkers, start, List.length_replicate]
  have hsound := (sound_start job workers jobs).run schedule
  have heq := hsound.slots_eq hpos hf
  have hle := hsound.length_le_next hpos hf
  rw [hslots, start, List.length_replicate] at heq hle
  exact ⟨heq, hle⟩

end Pool

/-! ### Files -/

variable {files : List SourceFile} {asked workers : Nat} {schedule : List Nat} {path : Bytes}

def scanJob (files : List SourceFile) (i : Nat) : Option Scan := files[i]?.map SourceFile.scan

def scanPool (files : List SourceFile) (workers : Nat) (schedule : List Nat) : Pool Scan :=
  (Pool.start workers files.length).run (scanJob files) schedule

lemma scanFiles_eq (files : List SourceFile) (asked : Nat) :
    let workers := workerCount asked files.length
    scanFiles files asked =
      scansByPath ((scanPool files workers (Pool.roundRobin workers files.length)).slots.filterMap
        id) := rfl

lemma workerCount_pos (asked files : Nat) : 0 < workerCount asked files :=
  Nat.le_max_left 1 _

lemma map_scanJob (files : List SourceFile) :
    (List.range files.length).map (scanJob files) = files.map fun f => some f.scan := by
  refine List.ext_getElem (by simp) fun i hi _ => ?_
  have hlt : i < files.length := by simpa using hi
  simp [scanJob, hlt]

lemma filterMap_slots (hw : 0 < workers) (hf : (scanPool files workers schedule).Finished) :
    (scanPool files workers schedule).slots.filterMap id = files.map SourceFile.scan := by
  rw [scanPool, (Pool.slots_run hw hf).1, map_scanJob, List.filterMap_map]
  exact congrFun List.filterMap_eq_map files

lemma scanFiles_eq_scansByPath (files : List SourceFile) (asked : Nat) :
    scanFiles files asked = scansByPath (files.map SourceFile.scan) := by
  rw [scanFiles_eq, filterMap_slots (workerCount_pos _ _)]
  exact Pool.finished_run fun w hw => (Pool.count_roundRobin hw).ge

lemma lookup_map_scan (files : List SourceFile) (path : Bytes) :
    ((files.map SourceFile.scan).map fun s => (s.path, s)).lookup path =
      (files.find? fun f => f.path == path).map SourceFile.scan := by
  induction files with
  | nil => rfl
  | cons f files ih =>
    have hpath : f.scan.path = f.path := rfl
    simp only [List.map_cons, List.lookup_cons, List.find?_cons, hpath, ih, BEq.comm (a := path)]
    cases f.path == path <;> rfl

lemma get?_scanFiles (files : List SourceFile) (asked : Nat) (path : Bytes) :
    (scanFiles files asked).get? path =
      (files.reverse.find? fun f => f.path == path).map SourceFile.scan := by
  rw [scanFiles_eq_scansByPath, scansByPath, KeyedMap.get?_ofList, ← List.map_reverse,
    ← List.map_reverse, lookup_map_scan]

def LastAt (files : List SourceFile) (path : Bytes) (f : SourceFile) : Prop :=
  ∃ before after, files = before ++ f :: after ∧ f.path = path ∧ ∀ g ∈ after, g.path ≠ path

lemma find?_reverse_eq_some_iff {f : SourceFile} :
    files.reverse.find? (fun g => g.path == path) = some f ↔ LastAt files path f := by
  rw [List.find?_eq_some_iff_append]
  constructor
  · rintro ⟨hpath, as, bs, heq, has⟩
    refine ⟨bs.reverse, as.reverse, by simpa using congrArg List.reverse heq, by simpa using hpath,
      fun g hg => by simpa using has g (List.mem_reverse.mp hg)⟩
  · rintro ⟨before, after, rfl, hpath, hafter⟩
    exact ⟨by simpa using hpath, after.reverse, before.reverse, by simp,
      fun g hg => by simpa using hafter g (List.mem_reverse.mp hg)⟩

lemma mem_scanFiles_iff {s : Scan} :
    (path, s) ∈ (scanFiles files asked).entries ↔
      ∃ f, LastAt files path f ∧ scan f.path f.tag f.content = s := by
  rw [KeyedMap.mem_entries_iff, get?_scanFiles, Option.map_eq_some_iff]
  exact exists_congr fun f => and_congr_left' find?_reverse_eq_some_iff

lemma exists_mem_scanFiles_iff :
    (∃ s, (path, s) ∈ (scanFiles files asked).entries) ↔ ∃ f ∈ files, f.path = path := by
  simp_rw [KeyedMap.mem_entries_iff, get?_scanFiles, ← Option.isSome_iff_exists, Option.isSome_map,
    List.find?_isSome, List.mem_reverse, beq_iff_eq]

/-- Some workers, in any order of their turns: the indices drawn are those from zero on, each once;
with enough turns all workers stop; when they have stopped, each file was drawn once and the scans
by path are those of `scanFiles`, which has the last file of each path. -/
theorem scanFiles_under_any_schedule (files : List SourceFile) (asked : Nat) {workers : Nat}
    (hw : 0 < workers) (schedule : List Nat) :
    let pool := scanPool files workers schedule
    let claims := (Pool.start workers files.length).claims (scanJob files) schedule
    claims = List.range pool.next ∧
      ((∀ w < workers, 2 * files.length + 1 ≤ schedule.count w) → pool.Finished) ∧
      (pool.Finished → (∀ i < files.length, claims.count i = 1) ∧
        scansByPath (pool.slots.filterMap id) = scanFiles files asked) ∧
      (∀ path, (∃ s, (path, s) ∈ (scanFiles files asked).entries) ↔ ∃ f ∈ files, f.path = path) ∧
      ∀ path s, (path, s) ∈ (scanFiles files asked).entries ↔
        ∃ f, LastAt files path f ∧ scan f.path f.tag f.content = s := by
  intro pool claims
  have hclaims : claims = List.range pool.next := Pool.claims_start _ _ _ schedule
  refine ⟨hclaims, Pool.finished_run, fun hf => ⟨fun i hi => ?_, ?_⟩,
    fun path => exists_mem_scanFiles_iff, fun path s => mem_scanFiles_iff⟩
  · have hnext : i < pool.next := Nat.lt_of_lt_of_le hi (Pool.slots_run hw hf).2
    rw [hclaims]
    exact List.count_eq_one_of_mem List.nodup_range (List.mem_range.mpr hnext)
  · rw [filterMap_slots hw hf, scanFiles_eq_scansByPath]

def pathTwice : List SourceFile :=
  [⟨ascii "a", ascii "python", ascii "x"⟩, ⟨ascii "b", ascii "go", ascii ""⟩,
    ⟨ascii "a", ascii "python", ascii "y"⟩]

theorem scanFiles_pathTwice :
    let pool := scanPool pathTwice 2 [0, 1, 1, 1, 1, 1, 0, 0]
    0 < 2 ∧ pool.Finished ∧ scansByPath (pool.slots.filterMap id) = scanFiles pathTwice 7 ∧
      (ascii "a", scan (ascii "a") (ascii "python") (ascii "y")) ∈
        (scanFiles pathTwice 7).entries := by
  intro pool
  have hf : pool.Finished := by decide
  obtain ⟨-, -, hdone, -, hlast⟩ :=
    scanFiles_under_any_schedule pathTwice 7 (by decide : 0 < 2) [0, 1, 1, 1, 1, 1, 0, 0]
  have hlastAt : LastAt pathTwice (ascii "a") pathTwice[2] :=
    ⟨pathTwice.take 2, [], rfl, rfl, by simp⟩
  exact ⟨by decide, hf, (hdone hf).2, (hlast _ _).mpr ⟨_, hlastAt, rfl⟩⟩

end TrustRegions
