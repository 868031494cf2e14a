import Mathlib.Data.Finset.Card
import TrustRegions.Path
import TrustRegions.Proofs.Reuse

/-! A cache is a map from the places of paths to entries. What it answers after any calls follows from
the entries that were put under each place and taken away again, and its counters from the calls that were
answered with what stood there. -/

namespace TrustRegions.Cache

inductive Call where
  | scan (path tag content : Bytes)
  | lookup (path digest : Bytes)
  | store (path : Bytes) (e : CacheEntry)
  | invalidate (path : Bytes)
  | clear

inductive Exchange where
  | scan (path tag content : Bytes) (given : CacheEntry)
  | lookup (path digest : Bytes) (given? : Option CacheEntry)
  | store (path : Bytes) (e : CacheEntry)
  | invalidate (path : Bytes) (present : Bool)
  | clear

def Call.stored? : Call → Option CacheEntry
  | .store _ e => some e
  | _ => none

namespace Exchange

def asks : Exchange → Bool
  | .scan .. => true
  | .lookup .. => true
  | _ => false

def carried? : Exchange → Option CacheEntry
  | .scan _ _ _ given => some given
  | .lookup _ _ given? => given?
  | .store _ e => some e
  | _ => none

def entries (past : List Exchange) : List CacheEntry := past.filterMap carried?

end Exchange

structure Ledger (κ : Type) where
  standing : κ → Option CacheEntry := fun _ => none
  reused : Nat := 0

variable {κ : Type}

namespace Ledger

variable {l : Ledger κ} {key : κ} {e : CacheEntry}

def give (l : Ledger κ) (key : κ) (given? : Option CacheEntry) : Ledger κ :=
  { l with reused := l.reused + if given?.isSome ∧ given? = l.standing key then 1 else 0 }

lemma give_none (l : Ledger κ) (key : κ) : l.give key none = l := by
  rw [give, if_neg (by simp), Nat.add_zero]

lemma give_new (h : l.standing key ≠ some e) : l.give key (some e) = l := by
  rw [give, if_neg fun hgiven => h hgiven.2.symm, Nat.add_zero]

lemma give_standing (h : l.standing key = some e) :
    l.give key (some e) = { l with reused := l.reused + 1 } := by
  rw [give, if_pos ⟨rfl, h.symm⟩]

variable [DecidableEq κ]

def put (l : Ledger κ) (key : κ) (e? : Option CacheEntry) : Ledger κ :=
  { l with standing := fun k => if key = k then e? else l.standing k }

lemma put_standing (h : l.standing key = some e) : l.put key (some e) = l := by
  rw [put]
  congr
  funext k
  split
  · next hk => rw [← hk, h]
  · rfl

def note (place : Bytes → κ) (l : Ledger κ) : Exchange → Ledger κ
  | .scan path _ _ given => (l.give (place path) (some given)).put (place path) (some given)
  | .lookup path _ given? => l.give (place path) given?
  | .store path e => l.put (place path) (some e)
  | .invalidate path _ => l.put (place path) none
  | .clear => { l with standing := fun _ => none }

lemma note_scan_standing {place : Bytes → κ} {path : Bytes} (h : l.standing (place path) = some e)
    (tag content : Bytes) :
    l.note place (.scan path tag content e) = { l with reused := l.reused + 1 } := by
  rw [note, give_standing h]
  exact put_standing h

def ofExchanges (place : Bytes → κ) (past : List Exchange) : Ledger κ := past.foldl (note place) {}

lemma ofExchanges_concat (place : Bytes → κ) (past : List Exchange) (x : Exchange) :
    ofExchanges place (past ++ [x]) = (ofExchanges place past).note place x := by
  rw [ofExchanges, List.foldl_append]
  rfl

end Ledger

variable [DecidableEq κ]

def step (place : Bytes → κ) (c : Cache κ) : Call → Exchange × Cache κ
  | .scan path tag content =>
    let s := c.scan (place path) path tag content
    (.scan path tag content s.1, s.2)
  | .lookup path digest =>
    let s := c.lookup (place path) digest
    (.lookup path digest s.1, s.2)
  | .store path e => (.store path e, c.store (place path) e)
  | .invalidate path =>
    let s := c.invalidate (place path)
    (.invalidate path s.1, s.2)
  | .clear => (.clear, c.clear)

def run (place : Bytes → κ) (calls : List Call) : List Exchange × Cache κ :=
  calls.foldl (fun s call => (s.1 ++ [(s.2.step place call).1], (s.2.step place call).2)) ([], {})

def Tells (place : Bytes → κ) (calls : List Call) : Prop :=
  ∀ i < calls.length, ∀ e ∈ calls[i]?.bind Call.stored?,
    ∀ e' ∈ Exchange.entries (run place (calls.take i)).1, e'.serial = e.serial → e' = e

structure Matches (c : Cache κ) (l : Ledger κ) (asked : Nat) (es : List CacheEntry) : Prop where
  standing : ∀ k, c.get? k = l.standing k
  distinct : (c.entries.map (·.1)).Nodup
  hits : c.hits = l.reused
  asked : c.hits + c.misses = asked
  held : ∀ k e, c.get? k = some e → e ∈ es
  fresh : ∀ e ∈ es, e.serial < c.nextSerial

variable {place : Bytes → κ} {past : List Exchange} {c : Cache κ} {l : Ledger κ} {calls : List Call}
  {key : κ} {path tag content : Bytes} {e : CacheEntry} {asked : Nat} {es : List CacheEntry}

lemma get?_invalidate (c : Cache κ) (key k : κ) :
    (c.invalidate key).2.get? k = if key = k then none else c.get? k := by
  simp only [get?, invalidate, find?_filter_ne]
  split <;> rfl

lemma mem_keys_iff (c : Cache κ) (k : κ) : k ∈ c.entries.map (·.1) ↔ (c.get? k).isSome = true := by
  simp [get?]

lemma key_notMem (c : Cache κ) (key : κ) :
    key ∉ (c.entries.filter fun x => x.1 ≠ key).map (·.1) := by
  simp

lemma distinct_filter (h : (c.entries.map (·.1)).Nodup) (key : κ) :
    ((c.entries.filter fun x => x.1 ≠ key).map (·.1)).Nodup :=
  h.sublist (List.filter_sublist.map _)

namespace Matches

variable (h : Matches c l asked es)

include h

lemma hit : Matches { c with hits := c.hits + 1 } { l with reused := l.reused + 1 } (asked + 1) es :=
  { h with
    hits := by rw [h.hits]
    asked := by rw [← h.asked, Nat.add_right_comm] }

lemma miss : Matches { c with misses := c.misses + 1 } l (asked + 1) es :=
  { h with asked := by rw [← h.asked, Nat.add_assoc] }

lemma again (he : e ∈ es) : Matches c l asked (es ++ [e]) :=
  { h with
    held := fun k e' hk => List.mem_append_left _ (h.held k e' hk)
    fresh := List.forall_mem_append.mpr ⟨h.fresh, List.forall_mem_singleton.mpr (h.fresh e he)⟩ }

lemma store (key : κ) (e : CacheEntry) :
    Matches (c.store key e) (l.put key (some e)) asked (es ++ [e]) where
  standing k := by
    rw [get?_store, h.standing]
    rfl
  distinct := List.nodup_cons.mpr ⟨key_notMem c key, distinct_filter h.distinct key⟩
  hits := h.hits
  asked := h.asked
  held k e' hk := by
    rw [get?_store] at hk
    split at hk
    · exact List.mem_append_right _ (List.mem_singleton.mpr (Option.some.inj hk).symm)
    · exact List.mem_append_left _ (h.held k e' hk)
  fresh := by
    refine List.forall_mem_append.mpr ⟨fun e' he' => ?_, List.forall_mem_singleton.mpr ?_⟩
    · exact (h.fresh e' he').trans_le (Nat.le_max_left ..)
    · exact Nat.le_max_right ..

lemma drop (key : κ) : Matches (c.invalidate key).2 (l.put key none) asked es where
  standing k := by
    rw [get?_invalidate, h.standing]
    rfl
  distinct := distinct_filter h.distinct key
  hits := h.hits
  asked := h.asked
  held k e hk := by
    rw [get?_invalidate] at hk
    split at hk
    · cases hk
    · exact h.held k e hk
  fresh := h.fresh

lemma clear : Matches c.clear { l with standing := fun _ => none } asked es where
  standing k := rfl
  distinct := .nil
  hits := h.hits
  asked := h.asked
  held k e hk := by cases hk
  fresh := h.fresh

lemma match?_eq (key : κ) (digest : Bytes) :
    c.match? key digest = (l.standing key).filter fun e => e.digest = digest := by
  rw [match?, h.standing]

lemma given {digest : Bytes} (hm : c.match? key digest = some e) : l.standing key = some e ∧ e ∈ es := by
  have hget := (Option.filter_eq_some_iff.mp hm).1
  exact ⟨h.standing key ▸ hget, h.held key e hget⟩

end Matches

lemma run_concat (place : Bytes → κ) (calls : List Call) (call : Call) :
    run place (calls ++ [call]) = ((run place calls).1 ++ [((run place calls).2.step place call).1],
      ((run place calls).2.step place call).2) := by
  rw [run, List.foldl_append]
  rfl

lemma entries_concat (past : List Exchange) (x : Exchange) :
    Exchange.entries (past ++ [x]) =
      match x.carried? with
      | some e => Exchange.entries past ++ [e]
      | none => Exchange.entries past := by
  rw [Exchange.entries, List.filterMap_append, Exchange.entries]
  cases hx : x.carried? <;> simp [hx]

lemma countP_asks_concat (past : List Exchange) (x : Exchange) :
    (past ++ [x]).countP Exchange.asks = past.countP Exchange.asks + if x.asks then 1 else 0 := by
  rw [List.countP_append, List.countP_singleton]

lemma lookup_of_match? {digest : Bytes} (h : c.match? key digest = some e) :
    c.lookup key digest = (some e, { c with hits := c.hits + 1 }) := by
  rw [lookup, ← match?, h]

lemma lookup_of_match?_eq_none {digest : Bytes} (h : c.match? key digest = none) :
    c.lookup key digest = (none, { c with misses := c.misses + 1 }) := by
  rw [lookup, ← match?, h]

def newEntry (c : Cache κ) (path tag content : Bytes) : CacheEntry :=
  ⟨c.nextSerial, digest content, TrustRegions.scan path tag content⟩

lemma scan_of_match? (h : c.match? key (digest content) = some e) (path tag : Bytes) :
    c.scan key path tag content = (e, { c with hits := c.hits + 1 }) := by
  rw [scan, lookup_of_match? h]

lemma scan_of_match?_eq_none (h : c.match? key (digest content) = none) (path tag : Bytes) :
    c.scan key path tag content = (c.newEntry path tag content,
      { c with misses := c.misses + 1 }.store key (c.newEntry path tag content)) := by
  rw [scan, lookup_of_match?_eq_none h]
  rfl

def Keeps (place : Bytes → κ) (past : List Exchange) (c : Cache κ) : Prop :=
  c.Matches (Ledger.ofExchanges place past) (past.countP Exchange.asks) (Exchange.entries past)

lemma Keeps.concat {x : Exchange} {c : Cache κ}
    (h : c.Matches ((Ledger.ofExchanges place past).note place x)
      (past.countP Exchange.asks + if x.asks then 1 else 0)
      (match x.carried? with
      | some e => Exchange.entries past ++ [e]
      | none => Exchange.entries past)) :
    Keeps place (past ++ [x]) c := by
  rwa [Keeps, Ledger.ofExchanges_concat, entries_concat, countP_asks_concat]

lemma Keeps.step (h : Keeps place past c) (call : Call) :
    Keeps place (past ++ [(c.step place call).1]) (c.step place call).2 := by
  cases call with
  | store path e =>
    apply Keeps.concat
    exact h.store (place path) e
  | invalidate path =>
    apply Keeps.concat
    exact h.drop (place path)
  | clear =>
    apply Keeps.concat
    exact h.clear
  | lookup path digest =>
    rw [Cache.step]
    cases hm : c.match? (place path) digest with
    | none =>
      rw [lookup_of_match?_eq_none hm]
      apply Keeps.concat
      rw [Ledger.note, Ledger.give_none]
      exact h.miss
    | some e =>
      obtain ⟨hstanding, hmem⟩ := h.given hm
      rw [lookup_of_match? hm]
      apply Keeps.concat
      rw [Ledger.note, Ledger.give_standing hstanding]
      exact h.hit.again hmem
  | scan path tag content =>
    rw [Cache.step]
    cases hm : c.match? (place path) (digest content) with
    | none =>
      have hnew : (Ledger.ofExchanges place past).standing (place path) ≠
          some (c.newEntry path tag content) := by
        rw [← h.standing]
        intro hget
        simp [match?, hget, newEntry] at hm
      rw [scan_of_match?_eq_none hm]
      apply Keeps.concat
      rw [Ledger.note, Ledger.give_new hnew]
      exact h.miss.store _ _
    | some e =>
      obtain ⟨hstanding, hmem⟩ := h.given hm
      rw [scan_of_match? hm]
      apply Keeps.concat
      rw [Ledger.note_scan_standing hstanding]
      exact h.hit.again hmem

lemma matches_new : Matches ({} : Cache κ) {} 0 [] where
  standing _ := rfl
  distinct := .nil
  hits := rfl
  asked := rfl
  held _ _ h := by cases h
  fresh _ h := by cases h

lemma keeps_run (place : Bytes → κ) (calls : List Call) :
    Keeps place (run place calls).1 (run place calls).2 := by
  induction calls using List.reverseRecOn with
  | nil => exact matches_new
  | append_singleton calls call ih =>
    rw [run_concat]
    exact ih.step call

lemma Keeps.entry_cases (h : Keeps place past c) {call : Call}
    (he : (c.step place call).1.carried? = some e) :
    e ∈ Exchange.entries past ∨ call.stored? = some e ∨
      ∀ e' ∈ Exchange.entries past, e'.serial ≠ e.serial := by
  cases call with
  | store path e' => exact Or.inr (Or.inl he)
  | invalidate path => cases he
  | clear => cases he
  | lookup path digest =>
    have hm : c.match? (place path) digest = some e := by
      rw [← lookup_fst]
      exact he
    exact Or.inl ((h.given hm).2)
  | scan path tag content =>
    rw [Cache.step] at he
    cases hm : c.match? (place path) (digest content) with
    | none =>
      rw [scan_of_match?_eq_none hm] at he
      obtain rfl := Option.some.inj he
      exact Or.inr (Or.inr fun e' he' => (h.fresh e' he').ne)
    | some e' =>
      rw [scan_of_match? hm] at he
      obtain rfl := Option.some.inj he
      exact Or.inl ((h.given hm).2)

lemma Tells.of_concat {call : Call} (h : Tells place (calls ++ [call])) :
    Tells place calls ∧
      ∀ e ∈ call.stored?, ∀ e' ∈ Exchange.entries (run place calls).1, e'.serial = e.serial → e' = e := by
  constructor
  · intro i hi e he
    have hle := hi.le
    have hlt : i < (calls ++ [call]).length := by
      rw [List.length_append]
      omega
    have hcall := h i hlt e
    rw [List.getElem?_append_left hi, List.take_append_of_le_length hle] at hcall
    exact hcall he
  · intro e he
    have hcall := h calls.length (by simp) e
    rw [List.getElem?_concat_length, List.take_left] at hcall
    exact hcall he

lemma eq_of_serial_eq (h : Tells place calls) :
    ∀ e ∈ Exchange.entries (run place calls).1, ∀ e' ∈ Exchange.entries (run place calls).1,
      e.serial = e'.serial → e = e' := by
  induction calls using List.reverseRecOn with
  | nil =>
    intro e he
    cases he
  | append_singleton calls call ih =>
    obtain ⟨hcalls, hstored⟩ := h.of_concat
    have ih := ih hcalls
    rw [run_concat, entries_concat]
    cases hx : ((run place calls).2.step place call).1.carried? with
    | none => exact ih
    | some x =>
      have hold : ∀ e ∈ Exchange.entries (run place calls).1, e.serial = x.serial → e = x := by
        intro e he hserial
        rcases (keeps_run place calls).entry_cases hx with hx | hx | hx
        · exact ih e he x hx hserial
        · exact hstored x hx e he hserial
        · exact absurd hserial (hx e he)
      intro e he e' he' hserial
      rw [List.mem_append, List.mem_singleton] at he he'
      rcases he with he | rfl
      · rcases he' with he' | rfl
        · exact ih e he e' he' hserial
        · exact hold e he hserial
      · rcases he' with he' | rfl
        · exact (hold e' he' hserial.symm).symm
        · rfl

/-- Whatever the places of paths are, a cache answers any calls as the map from places to the entries put
there last: a look-up with the entry that stands if it has the digest; a scan with that too, and with a new
entry otherwise. It counts as hits the answers that stood there before, and no entry ever changes: a serial
that is seen again is that of the same entry. -/
theorem run_refines_map (place : Bytes → κ) (calls : List Call) :
    let past := (run place calls).1
    let c := (run place calls).2
    let l := Ledger.ofExchanges place past
    (∀ path digest, (c.lookup (place path) digest).1 =
      (l.standing (place path)).filter fun e => e.digest = digest) ∧
    (∀ path tag content,
      let given := (c.scan (place path) path tag content).1
      given.digest = digest content ∧
      (∀ e, l.standing (place path) = some e → e.digest = digest content → given = e) ∧
      ((∀ e, l.standing (place path) = some e → e.digest ≠ digest content) →
        given.scan = TrustRegions.scan path tag content ∧
        ∀ e ∈ Exchange.entries past, e.serial ≠ given.serial)) ∧
    (∀ path, (c.invalidate (place path)).1 = (l.standing (place path)).isSome) ∧
    (∃ keys : Finset κ, keys.card = c.size ∧ ∀ k, k ∈ keys ↔ (l.standing k).isSome = true) ∧
    c.hits = l.reused ∧
    c.hits + c.misses = past.countP Exchange.asks ∧
    (Tells place calls → ∀ e ∈ Exchange.entries past, ∀ e' ∈ Exchange.entries past,
      e.serial = e'.serial → e = e') := by
  intro past c l
  have h := keeps_run place calls
  refine ⟨fun path digest => ?_, fun path tag content => ⟨?_, fun e he hdigest => ?_, fun hnew => ?_⟩,
    fun path => ?_, ⟨(c.entries.map (·.1)).toFinset, ?_, fun k => ?_⟩, h.hits, h.asked, eq_of_serial_eq⟩
  · rw [lookup_fst, h.match?_eq]
  · exact (c.scan_spec _ path tag content).1
  · have hm : c.match? (place path) (digest content) = some e := by
      rw [h.match?_eq, he, Option.filter_some, if_pos (by simpa using hdigest)]
    rw [scan_of_match? hm]
  · have hm : c.match? (place path) (digest content) = none := by
      rw [h.match?_eq, Option.filter_eq_none_iff]
      simpa using hnew
    rw [scan_of_match?_eq_none hm]
    exact ⟨rfl, fun e he => (h.fresh e he).ne⟩
  · rw [invalidate, h.standing]
  · rw [List.toFinset_card_of_nodup h.distinct, List.length_map, size]
  · rw [List.mem_toFinset, mem_keys_iff, h.standing]

instance (place : Bytes → κ) (calls : List Call) : Decidable (Tells place calls) :=
  inferInstanceAs (Decidable (∀ i < calls.length, ∀ e ∈ calls[i]?.bind Call.stored?,
    ∀ e' ∈ Exchange.entries (run place (calls.take i)).1, e'.serial = e.serial → e' = e))

def aliased : List Call :=
  let content := ascii "# @collab owner=a\nx = 1\n"
  [.scan (ascii "b/../a.py") (ascii "python") content,
    .scan (ascii "./a.py") (ascii "python") content,
    .store (ascii "c.py") ⟨0, digest content, TrustRegions.scan (ascii "b/../a.py") (ascii "python") content⟩,
    .invalidate (ascii "a.py"),
    .lookup (ascii "./c.py") (digest content),
    .scan (ascii "c.py") (ascii "python") (ascii "y = 1\n")]

theorem run_refines_map_aliased :
    Tells Path.normal aliased ∧
    ((run Path.normal aliased).2.lookup (Path.normal (ascii "b/../c.py")) (digest (ascii "y = 1\n"))).1 =
      some ⟨1, digest (ascii "y = 1\n"),
        TrustRegions.scan (ascii "c.py") (ascii "python") (ascii "y = 1\n")⟩ ∧
    (run Path.normal aliased).2.hits = 2 ∧
    ∀ e ∈ Exchange.entries (run Path.normal aliased).1, ∀ e' ∈ Exchange.entries (run Path.normal aliased).1,
      e.serial = e'.serial → e = e' := by
  have htells : Tells Path.normal aliased := by decide +kernel
  obtain ⟨hlookup, -, -, -, hhits, -, hserial⟩ := run_refines_map Path.normal aliased
  refine ⟨htells, ?_, ?_, hserial htells⟩
  · exact (hlookup (ascii "b/../c.py") _).trans (by decide +kernel)
  · exact hhits.trans (by decide +kernel)

end TrustRegions.Cache
