import Mathlib.Data.List.DropRight
import TrustRegions.Proofs.Run

/-! The scan of a file is as good as one made anew, but for its tag: that is the one under which the
present content was first read, of all readings up to now that found nothing else. It is the tag in force
if all these readings were made under that one. -/

namespace TrustRegions

def Scan.under (s : Scan) (path : Bytes) : Scan := { s with path := path }

lemma Scan.index_under (s : Scan) (path : Bytes) : (s.under path).index = s.index := rfl

namespace Cache

variable {κ : Type} [DecidableEq κ]

def match? (c : Cache κ) (key : κ) (digest : Bytes) : Option CacheEntry :=
  (c.get? key).filter fun e => e.digest = digest

lemma lookup_fst (c : Cache κ) (key : κ) (digest : Bytes) :
    (c.lookup key digest).1 = c.match? key digest := by
  rw [lookup, ← match?]
  cases c.match? key digest <;> rfl

lemma find?_filter_ne (l : List (κ × CacheEntry)) (key k : κ) :
    ((l.filter fun x => x.1 ≠ key).find? fun x => x.1 = k) =
      if key = k then none else l.find? fun x => x.1 = k := by
  rw [List.find?_filter]
  by_cases hk : key = k
  · rw [if_pos hk, List.find?_eq_none]
    grind
  · rw [if_neg hk]
    congr
    funext x
    grind

lemma get?_store (c : Cache κ) (key k : κ) (e : CacheEntry) :
    (c.store key e).get? k = if key = k then some e else c.get? k := by
  simp only [get?, store, List.find?_cons]
  by_cases hk : key = k
  · simp [hk]
  · have hfind := find?_filter_ne c.entries key k
    rw [if_neg hk] at hfind
    simp only [hk, decide_false, if_false, hfind]

lemma match?_invalidate (c : Cache κ) (key k : κ) (digest : Bytes) :
    (c.invalidate key).2.match? k digest = if key = k then none else c.match? k digest := by
  simp only [match?, get?, invalidate, find?_filter_ne]
  split <;> rfl

lemma scan_spec (c : Cache κ) (key : κ) (path tag content : Bytes) :
    let s := c.scan key path tag content
    s.1.digest = digest content ∧
    s.1.scan = ((c.match? key (digest content)).map (·.scan)).getD
      (TrustRegions.scan path tag content) ∧
    ∀ k, s.2.get? k = if key = k then some s.1 else c.get? k := by
  cases hm : c.match? key (digest content) with
  | none =>
    have hs : c.lookup key (digest content) = (none, { c with misses := c.misses + 1 }) := by
      rw [lookup, ← match?, hm]
    rw [scan, hs]
    exact ⟨rfl, rfl, fun k => get?_store _ key k _⟩
  | some e =>
    have hs : c.lookup key (digest content) = (some e, { c with hits := c.hits + 1 }) := by
      rw [lookup, ← match?, hm]
    obtain ⟨hget, hdigest⟩ := Option.filter_eq_some_iff.mp hm
    rw [scan, hs]
    refine ⟨of_decide_eq_true hdigest, rfl, fun k => ?_⟩
    by_cases hk : key = k
    · rw [if_pos hk, ← hk]
      exact hget
    · rw [if_neg hk]
      rfl

lemma scan_fst_under (c : Cache κ) (key : κ) (path other tag content : Bytes) :
    (c.scan key path tag content).1.scan.under other =
      ((c.match? key (digest content)).map (·.scan.under other)).getD
        (TrustRegions.scan other tag content) := by
  rw [(c.scan_spec key path tag content).2.1]
  cases c.match? key (digest content) <;> rfl

lemma match?_scan (c : Cache κ) (key k : κ) (path tag content d : Bytes) :
    (c.scan key path tag content).2.match? k d =
      if key = k then
        if digest content = d then some (c.scan key path tag content).1 else none
      else c.match? k d := by
  obtain ⟨hdigest, -, hget⟩ := c.scan_spec key path tag content
  rw [match?, hget]
  by_cases hk : key = k
  · rw [if_pos hk, if_pos hk, ← hdigest, Option.filter_some]
    simp only [decide_eq_true_eq]
  · rw [if_neg hk, if_neg hk, match?]

end Cache

/-- What a run finds out about a place: the content that was read there with the tag that was in
force, or nothing if the file was to be scanned anew. -/
structure Event where
  place : Location
  found? : Option (Bytes × Bytes)

namespace Event

def Shows (content : Bytes) (e : Event) : Bool := e.found?.any fun f => f.1 = content

def tags (events : List Event) (l : Location) (content : Bytes) : List Bytes :=
  ((events.filter fun e => e.place = l).rtakeWhile (Shows content)).filterMap
    fun e => e.found?.map (·.2)

variable {events : List Event} {e : Event} {l : Location} {content : Bytes}

lemma tags_of_place_ne (h : e.place ≠ l) : tags (events ++ [e]) l content = tags events l content := by
  rw [tags, List.filter_append, List.filter_singleton, decide_eq_false h, cond_false,
    List.append_nil, tags]

lemma tags_of_not_shows (hs : ¬Shows content e) : tags (events ++ [e]) e.place content = [] := by
  rw [tags, List.filter_append, List.filter_singleton, decide_eq_true rfl, cond_true,
    List.rtakeWhile_concat_neg _ _ _ hs, List.filterMap_nil]

lemma tags_of_shows (tag : Bytes) :
    tags (events ++ [⟨l, some (content, tag)⟩]) l content = tags events l content ++ [tag] := by
  rw [tags, List.filter_append, List.filter_singleton, decide_eq_true rfl, cond_true,
    List.rtakeWhile_concat_pos _ _ _ (by simp [Shows]), List.filterMap_append, tags]
  rfl

end Event

def FileKey.place? : FileKey → Option Location
  | .located l false => some l
  | _ => none

lemma FileKey.place?_eq_some_iff {k : FileKey} {l : Location} :
    k.place? = some l ↔ .located l false = k := by
  cases k with
  | located m asFolder => cases asFolder <;> simp [place?, eq_comm]
  | spelled path => simp [place?]

namespace Project

def event? (p : Project) : Operation → Option Event
  | .invalidate path => (p.tree.key path).place?.map fun l => ⟨l, none⟩
  | op =>
    op.reads?.bind fun r =>
      (p.tree.locate? r.1).map fun l => ⟨l, some (p.tree.found l, p.tagFor r.1 r.2)⟩

def history (p : Project) : List Operation → List Event
  | [] => []
  | op :: ops => (p.event? op).toList ++ (p.step op).history ops

/-- The scan of a file as it is now, under the first of the tags that it was read under since it last
had another content. -/
def anew? (p : Project) (events : List Event) (path : Bytes) (tag? : Option Bytes) : Option Scan :=
  (p.tree.locate? path).map fun l =>
    let content := p.tree.found l
    TrustRegions.scan path ((Event.tags events l content).headD (p.tagFor path tag?)) content

def fresh? (p : Project) (path : Bytes) (tag? : Option Bytes) : Option Scan :=
  (p.tree.locate? path).map fun l =>
    TrustRegions.scan path (p.tagFor path tag?) (p.tree.found l)

def Steady (p : Project) (events : List Event) (path : Bytes) (tag? : Option Bytes) : Prop :=
  ∀ l ∈ p.tree.locate? path, ∀ tag ∈ Event.tags events l (p.tree.found l), tag = p.tagFor path tag?

structure Agrees (contents : List Bytes) (p : Project) (events : List Event) : Prop where
  within : p.tree.Within contents
  kept : ∀ l, ∀ content ∈ contents, ∀ path,
    (p.cache.match? (.located l false) (digest content)).map (·.scan.under path) =
      (Event.tags events l content).head?.map fun tag => TrustRegions.scan path tag content

variable {contents : List Bytes} {p : Project} {events : List Event} {path : Bytes} {l : Location}

lemma anew?_of_steady {tag? : Option Bytes} (h : p.Steady events path tag?) :
    p.anew? events path tag? = p.fresh? path tag? := by
  rw [anew?, fresh?]
  refine Option.map_congr fun l hl => ?_
  have htags := h l hl
  have hhead : (Event.tags events l (p.tree.found l)).headD (p.tagFor path tag?) = p.tagFor path tag? := by
    cases ht : Event.tags events l (p.tree.found l) with
    | nil => rfl
    | cons tag tags => exact htags tag (ht ▸ List.mem_cons_self)
  exact congrArg (fun tag => TrustRegions.scan path tag (p.tree.found l)) hhead

lemma event?_of_reads? {op : Operation} {tag? : Option Bytes} (h : op.reads? = some (path, tag?)) :
    p.event? op = (p.tree.locate? path).map fun l => ⟨l, some (p.tree.found l, p.tagFor path tag?)⟩ := by
  cases op with
  | invalidate => cases h
  | write | remove | scan | check | query | mapExtension | addMapping | applyMappings =>
    rw [event?, h]
    · rfl
    · intro q hq
      cases hq

lemma Agrees.read (h : Agrees contents p events) (hnil : [] ∈ contents)
    (hdigest : ∀ c ∈ contents, ∀ c' ∈ contents, digest c = digest c' → c = c')
    (hl : p.tree.locate? path = some l) (tag? : Option Bytes) :
    Agrees contents (p.scan path tag?).2
      (events ++ [⟨l, some (p.tree.found l, p.tagFor path tag?)⟩]) := by
  rw [scan_of_locate? hl]
  refine ⟨h.within, fun m content hc other => ?_⟩
  have hfound := FileTree.found_mem h.within hnil l
  simp only [Cache.match?_scan, FileKey.located.injEq, and_true]
  by_cases hm : l = m
  · subst hm
    rw [if_pos rfl]
    by_cases hcontent : p.tree.found l = content
    · subst hcontent
      rw [if_pos rfl, Option.map_some, Cache.scan_fst_under, h.kept l _ hfound other,
        Event.tags_of_shows]
      cases Event.tags events l (p.tree.found l) <;> rfl
    · have hne : ¬digest (p.tree.found l) = digest content := fun he =>
        hcontent (hdigest _ hfound _ hc he)
      have hshows : ¬Event.Shows content ⟨l, some (p.tree.found l, p.tagFor path tag?)⟩ := by
        simpa [Event.Shows] using hcontent
      rw [if_neg hne, Event.tags_of_not_shows hshows]
      rfl
  · rw [if_neg hm, Event.tags_of_place_ne hm]
    exact h.kept m content hc other

lemma Agrees.invalidate (h : Agrees contents p events) (path : Bytes) :
    Agrees contents (p.invalidate path).2 (events ++ (p.event? (.invalidate path)).toList) := by
  refine ⟨h.within, fun l content hc other => ?_⟩
  have hkept := h.kept l content hc other
  simp only [Project.invalidate, Cache.match?_invalidate, event?]
  by_cases hl : (p.tree.key path).place? = some l
  · rw [if_pos (FileKey.place?_eq_some_iff.mp hl).symm, hl, Option.map_some, Option.toList_some,
      Event.tags_of_not_shows (by simp [Event.Shows])]
    rfl
  · rw [if_neg fun hk => hl (FileKey.place?_eq_some_iff.mpr hk.symm), hkept]
    cases hm : (p.tree.key path).place? with
    | none => rw [Option.map_none, Option.toList_none, List.append_nil]
    | some m =>
      rw [Option.map_some, Option.toList_some, Event.tags_of_place_ne]
      exact fun hml => hl (hm.trans (congrArg some hml))

lemma Agrees.of_cache_eq {q : Project} (h : Agrees contents p events) (hw : q.tree.Within contents)
    (hc : q.cache = p.cache) : Agrees contents q (events ++ (none : Option Event).toList) := by
  rw [Option.toList_none, List.append_nil]
  exact ⟨hw, hc ▸ h.kept⟩

lemma Agrees.step (h : Agrees contents p events) (hnil : [] ∈ contents)
    (hdigest : ∀ c ∈ contents, ∀ c' ∈ contents, digest c = digest c' → c = c') (op : Operation)
    (hwritten : ∀ c ∈ op.written, c ∈ contents) :
    Agrees contents (p.step op) (events ++ (p.event? op).toList) := by
  cases hr : op.reads? with
  | some r =>
    rw [step_of_reads? hr, event?_of_reads? hr]
    cases hl : p.tree.locate? r.1 with
    | none =>
      rw [scan_of_locate?_eq_none hl]
      exact h.of_cache_eq h.within rfl
    | some l => exact h.read hnil hdigest hl r.2
  | none =>
    cases op with
    | invalidate path => exact h.invalidate path
    | write path content =>
      have hc : content ∈ contents := hwritten content (List.mem_singleton_self content)
      exact h.of_cache_eq (h.within.write hc) rfl
    | remove path =>
      rw [Project.step, Project.remove]
      cases hu : p.tree.remove? path with
      | none => exact h.of_cache_eq h.within rfl
      | some u => exact h.of_cache_eq (h.within.remove? hu) rfl
    | mapExtension | addMapping | applyMappings => exact h.of_cache_eq h.within rfl
    | check path lines =>
      cases lines with
      | none => exact h.of_cache_eq h.within rfl
      | some range => cases hr
    | scan | query => cases hr

lemma Agrees.run (h : Agrees contents p events) (hnil : [] ∈ contents)
    (hdigest : ∀ c ∈ contents, ∀ c' ∈ contents, digest c = digest c' → c = c')
    (ops : List Operation) (hwritten : ∀ c ∈ ops.flatMap Operation.written, c ∈ contents) :
    Agrees contents (p.run ops) (events ++ p.history ops) := by
  induction ops generalizing p events with
  | nil => simpa [Project.run, history] using h
  | cons op ops ih =>
    rw [List.flatMap_cons, List.forall_mem_append] at hwritten
    rw [history, ← List.append_assoc]
    exact ih (h.step hnil hdigest op hwritten.1) hwritten.2

lemma Agrees.scan_eq (h : Agrees contents p events) (hnil : [] ∈ contents) (path : Bytes)
    (tag? : Option Bytes) :
    (p.scan path tag?).1.toOption.map (·.scan.under path) = p.anew? events path tag? := by
  cases hl : p.tree.locate? path with
  | none => simp [scan_of_locate?_eq_none hl, anew?, hl, Except.toOption]
  | some l =>
    rw [scan_of_locate? hl, anew?, hl, Option.map_some]
    simp only [Except.toOption, Option.map_some, Cache.scan_fst_under]
    rw [h.kept l _ (FileTree.found_mem h.within hnil l)]
    cases Event.tags events l (p.tree.found l) <;> rfl

lemma Agrees.verdict_eq (h : Agrees contents p events) (hnil : [] ∈ contents) (path : Bytes)
    (range : LineRange) :
    (p.verdict path (some range)).1 =
      p.rules.verdict path ((p.anew? events path none).map Scan.index) (some range) := by
  rw [← h.scan_eq hnil path none, verdict]
  cases hl : p.tree.locate? path with
  | none => simp [scan_of_locate?_eq_none hl, Except.toOption]
  | some l => simp [scan_of_locate? hl, Except.toOption, Scan.index_under, CacheEntry.index]

/-- In a run from an empty cache, every scan of a file and every verdict on lines of it go by the
content that the file has now, as it was first read since it last changed or was forgotten. That is a
fresh scan under the tag in force unless one of the readings since then was made under another tag. -/
theorem run_answers_anew (p : Project) (hp : p.cache.entries = []) (ops : List Operation)
    (hdigest : ∀ c ∈ p.contents ops, ∀ c' ∈ p.contents ops, digest c = digest c' → c = c') :
    let q := p.run ops
    let events := p.history ops
    (∀ path tag?, (q.scan path tag?).1.toOption.map (·.scan.under path) =
      q.anew? events path tag?) ∧
    (∀ path range, (q.verdict path (some range)).1 =
      q.rules.verdict path ((q.anew? events path none).map Scan.index) (some range)) ∧
    (∀ path tag?, q.Steady events path tag? →
      (q.scan path tag?).1.toOption.map (·.scan.under path) = q.fresh? path tag?) ∧
    ∀ path range, q.Steady events path none →
      (q.verdict path (some range)).1 =
        q.rules.verdict path ((q.fresh? path none).map Scan.index) (some range) := by
  have hnil : [] ∈ p.contents ops := List.mem_cons_self
  have hstart : Agrees (p.contents ops) p [] := by
    refine ⟨fun f hf => ?_, fun l content _ path => ?_⟩
    · exact List.mem_cons_of_mem _ (List.mem_append_left _ (List.mem_map_of_mem hf))
    · simp [Cache.match?, Cache.get?, hp, Event.tags]
  have h : Agrees (p.contents ops) (p.run ops) (p.history ops) :=
    hstart.run hnil hdigest ops fun c hc => List.mem_cons_of_mem _ (List.mem_append_right _ hc)
  refine ⟨h.scan_eq hnil, h.verdict_eq hnil, fun path tag? hsteady => ?_,
    fun path range hsteady => ?_⟩
  · rw [h.scan_eq hnil, anew?_of_steady hsteady]
  · rw [h.verdict_eq hnil, anew?_of_steady hsteady]

def retagged : List Operation :=
  [.write (ascii "a.py") (ascii "# @collab trust=READ_ONLY\nx = 1\n"),
    .scan (ascii "a.py") (some (ascii "rust"))]

theorem run_answers_anew_retagged :
    ({} : Project).cache.entries = [] ∧
    (∀ c ∈ ({} : Project).contents retagged, ∀ c' ∈ ({} : Project).contents retagged,
      digest c = digest c' → c = c') ∧
    ((({} : Project).run retagged).scan (ascii "a.py") none).1.toOption.map
        (·.scan.under (ascii "a.py")) =
      some (TrustRegions.scan (ascii "a.py") (ascii "rust")
        (ascii "# @collab trust=READ_ONLY\nx = 1\n")) ∧
    (({} : Project).run retagged).Steady (({} : Project).history retagged) (ascii "a.py")
      (some (ascii "rust")) ∧
    ((({} : Project).run retagged).scan (ascii "a.py") (some (ascii "rust"))).1.toOption.map
        (·.scan.under (ascii "a.py")) =
      (({} : Project).run retagged).fresh? (ascii "a.py") (some (ascii "rust")) := by
  have hdigest : ∀ c ∈ ({} : Project).contents retagged, ∀ c' ∈ ({} : Project).contents retagged,
      digest c = digest c' → c = c' := by decide +kernel
  have hsteady : (({} : Project).run retagged).Steady (({} : Project).history retagged)
      (ascii "a.py") (some (ascii "rust")) := by
    unfold Steady
    decide +kernel
  obtain ⟨hscan, -, hfresh, -⟩ := run_answers_anew {} rfl retagged hdigest
  refine ⟨rfl, hdigest, ?_, hsteady, hfresh _ _ hsteady⟩
  exact (hscan (ascii "a.py") none).trans (by decide +kernel)

theorem not_scan_under_tag_in_force :
    ¬∀ ops : List Operation,
      (∀ c ∈ ({} : Project).contents ops, ∀ c' ∈ ({} : Project).contents ops,
        digest c = digest c' → c = c') →
      let q := ({} : Project).run ops
      ∀ path tag?, (q.scan path tag?).1.toOption.map (·.scan.under path) = q.fresh? path tag? := by
  intro h
  have hscan := h retagged (by decide +kernel) (ascii "a.py") none
  revert hscan
  decide +kernel

end Project

end TrustRegions
