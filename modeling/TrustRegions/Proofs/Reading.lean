import TrustRegions.Directive.Reader
import TrustRegions.Proofs.Comments

/-! What a reader of comments has on record, and what one more comment does to it. The directives on
record stand in the order of their comments, and their ordinals grow. -/

namespace TrustRegions

inductive Comment.Role where
  | plain
  | single (attributes : Attributes)
  | begins (attributes : Option Attributes)
  | ends
deriving DecidableEq

def Comment.role (c : Comment) : Role :=
  match Marker.ofComment c with
  | .none | .unknown .. => .plain
  | .single rest =>
    if Marker.isAttributeLike rest then (Attributes.read rest).toOption.elim .plain .single
    else .plain
  | .blockBegin rest => .begins (Attributes.read rest).toOption
  | .blockEnd _ => .ends

/-- All that later comments can depend on: the directives so far, that of the run still open as the
last one, and the markers without a partner. -/
structure Reading where
  directives : List Directive := []
  run : Option DirectiveRun := none
  count : Nat := 0
  blocks : List OpenBlock := []
  strayEnds : List Position := []

def DirectiveReader.reading (r : DirectiveReader) : Reading where
  directives := r.run.elim r.directives fun run => r.directives ++ [run.directive]
  run := r.run
  count := r.count
  blocks := r.blocks
  strayEnds := r.strayEnds

namespace Reading

def directive (m : Reading) (form : DirectiveForm) (attributes : Attributes) (c : Comment) :
    Directive where
  ordinal := m.count
  form := form
  attributes := attributes
  source := c.span
  anchor := c.span.stop
  trailing := c.trailing

def pairUp (ordinal count : Nat) (d : Directive) : Directive :=
  if d.ordinal = ordinal then { d with partner := some count } else d

inductive Step (source : Source) (m : Reading) (c : Comment) : Reading → Prop
  | plain : c.role = .plain → Step source m c { m with run := none }
  | joins {a : Attributes} {q : DirectiveRun} {ds : List Directive} : c.role = .single a →
      m.run = some q → q.continuesWith source c → m.directives = ds ++ [q.directive] →
      Step source m c
        { m with directives := ds ++ [(q.extend c a).directive], run := some (q.extend c a) }
  | starts {a : Attributes} : c.role = .single a →
      (∀ q, m.run = some q → q.continuesWith source c = false) →
      Step source m c
        { m with
          directives := m.directives ++ [m.directive .single a c]
          run := some ⟨m.directive .single a c, c.style, c.delimiter⟩
          count := m.count + 1 }
  | begins {a : Attributes} : c.role = .begins (some a) →
      Step source m c
        { m with
          directives := m.directives ++ [m.directive .blockBegin a c]
          run := none
          count := m.count + 1
          blocks := ⟨some m.count, c.span.start⟩ :: m.blocks }
  | beginsBadly : c.role = .begins none →
      Step source m c { m with run := none, blocks := ⟨none, c.span.start⟩ :: m.blocks }
  | ends {ordinal : Nat} {start : Position} {blocks : List OpenBlock} : c.role = .ends →
      m.blocks = ⟨some ordinal, start⟩ :: blocks →
      Step source m c
        { m with
          directives := m.directives.map (pairUp ordinal m.count) ++
            [{ m.directive .blockEnd ∅ c with partner := some ordinal }]
          run := none
          count := m.count + 1
          blocks := blocks }
  | endsBadly {start : Position} {blocks : List OpenBlock} : c.role = .ends →
      m.blocks = ⟨none, start⟩ :: blocks → Step source m c { m with run := none, blocks := blocks }
  | strays : c.role = .ends → m.blocks = [] →
      Step source m c
        { m with run := none, blocks := [], strayEnds := m.strayEnds ++ [c.span.start] }

inductive Of (source : Source) : List Comment → Reading → Prop
  | nil : Of source [] {}
  | snoc {cs : List Comment} {c : Comment} {m n : Reading} : Of source cs m → Step source m c n →
      Of source (cs ++ [c]) n

end Reading

namespace DirectiveReader

variable {source : Source} {c : Comment} {rest : Bytes} {r : DirectiveReader}

lemma exists_endRun (r : DirectiveReader) :
    ∃ ds, r.endRun = ⟨r.reading.directives, none, r.count, r.blocks, r.strayEnds, ds⟩ := by
  obtain ⟨_, run, _, _, _, ds⟩ := r
  cases run with
  | none => exact ⟨ds, rfl⟩
  | some run => exact ⟨ds ++ run.directive.trustDiagnostics, rfl⟩

lemma reading_endRun (r : DirectiveReader) : r.endRun.reading = { r.reading with run := none } := by
  obtain ⟨ds, h⟩ := r.exists_endRun
  rw [h]
  rfl

lemma directives_endRun (r : DirectiveReader) : r.endRun.directives = r.reading.directives := by
  obtain ⟨ds, h⟩ := r.exists_endRun
  rw [h]

lemma blocks_endRun (r : DirectiveReader) : r.endRun.blocks = r.blocks := by
  obtain ⟨ds, h⟩ := r.exists_endRun
  rw [h]

lemma step_readSingle (h : c.role = (Attributes.read rest).toOption.elim .plain .single) :
    r.reading.Step source c (r.readSingle source c rest).reading := by
  rw [readSingle]
  cases ha : Attributes.read rest with
  | error e =>
    rw [ha] at h
    exact r.reading_endRun ▸ .plain h
  | ok a =>
    rw [ha] at h
    dsimp only
    cases hq : r.run.filter fun run => run.continuesWith source c with
    | some q =>
      obtain ⟨hrun, hcont⟩ := Option.filter_eq_some_iff.mp hq
      exact .joins h hrun hcont (by simp [reading, hrun])
    | none =>
      have hnot : ∀ q, r.run = some q → q.continuesWith source c = false := by
        intro q hrun
        simpa [hrun] using hq
      obtain ⟨ds, he⟩ := r.exists_endRun
      rw [he]
      exact .starts h hnot

lemma step_readBegin (h : c.role = .begins (Attributes.read rest).toOption) :
    r.reading.Step source c (r.endRun.readBegin source c rest).reading := by
  obtain ⟨ds, he⟩ := r.exists_endRun
  rw [he, readBegin]
  cases ha : Attributes.read rest with
  | error e =>
    rw [ha] at h
    exact .beginsBadly h
  | ok a =>
    rw [ha] at h
    exact .begins h

lemma step_readEnd (h : c.role = .ends) :
    r.reading.Step source c (r.endRun.readEnd source c rest).reading := by
  obtain ⟨ds, he⟩ := r.exists_endRun
  have hclose (ds : List Diagnostic) : r.reading.Step source c (closeBlock
      ⟨r.reading.directives, none, r.count, r.blocks, r.strayEnds, ds⟩ source c).reading := by
    rw [closeBlock]
    dsimp only
    cases hb : r.blocks with
    | nil => exact Reading.Step.strays (m := r.reading) h hb
    | cons b blocks =>
      obtain ⟨ordinal, start⟩ := b
      cases ordinal with
      | none => exact .endsBadly h hb
      | some ordinal => exact .ends h hb
  rw [he, readEnd]
  split
  · exact hclose ds
  · exact hclose _

lemma step_read (source : Source) (r : DirectiveReader) (c : Comment) :
    r.reading.Step source c (r.read source c).reading := by
  have hrole : c.role = c.role := rfl
  rw [read]
  conv at hrole => rhs; rw [Comment.role]
  cases hm : Marker.ofComment c with
  | none =>
    rw [hm] at hrole
    exact r.reading_endRun ▸ .plain hrole
  | single rest =>
    rw [hm] at hrole
    dsimp only at hrole ⊢
    split
    · next hlike => exact step_readSingle (by rwa [if_pos hlike] at hrole)
    · next hlike => exact r.reading_endRun ▸ .plain (by rwa [if_neg hlike] at hrole)
  | unknown word rest =>
    rw [hm] at hrole
    exact r.reading_endRun ▸ .plain hrole
  | blockBegin rest =>
    rw [hm] at hrole
    exact step_readBegin hrole
  | blockEnd rest =>
    rw [hm] at hrole
    exact step_readEnd hrole

lemma of_foldl (source : Source) (cs : List Comment) :
    Reading.Of source cs (cs.foldl (read source) {}).reading := by
  induction cs using List.reverseRecOn with
  | nil => exact .nil
  | append_singleton cs c ih =>
    rw [List.foldl_concat]
    exact ih.snoc (step_read source _ c)

end DirectiveReader

def Reading.imbalances (m : Reading) : List Position := m.strayEnds ++ m.blocks.map (·.start)

def Source.reading (source : Source) (lang : Language) : Reading :=
  ((source.comments lang).foldl (DirectiveReader.read source) {}).reading

lemma Source.of_reading (source : Source) (lang : Language) :
    Reading.Of source (source.comments lang) (source.reading lang) :=
  DirectiveReader.of_foldl source _

lemma Source.directives_eq_filter (source : Source) (lang : Language) :
    (source.directives lang).1 = (source.reading lang).directives.filter fun d =>
      !d.form.isBlock || (source.reading lang).imbalances.all (d.source.start < ·) := by
  obtain ⟨ds, h⟩ :=
    ((source.comments lang).foldl (DirectiveReader.read source) {}).exists_endRun
  rw [directives, Directive.ofComments, h]
  rfl

lemma Directive.eq_of_ordinal_eq {ds : List Directive} {d e : Directive}
    (h : ds.Pairwise fun d e => d.ordinal < e.ordinal) (hd : d ∈ ds) (he : e ∈ ds)
    (heq : d.ordinal = e.ordinal) : d = e := by
  have hnodup : (ds.map (·.ordinal)).Nodup := List.pairwise_map.mpr (h.imp fun hlt => hlt.ne)
  exact List.inj_on_of_nodup_map hnodup hd he heq

structure Directive.Spans (first last : Comment) (d : Directive) : Prop where
  source_eq : d.source = ⟨first.span.start, last.span.stop⟩
  anchor_eq : d.anchor = last.span.stop
  start_le : first.span.start ≤ last.span.start
  trailing_first : d.trailing = first.trailing
  trailing_last : d.trailing = last.trailing
  alone : d.trailing = true → first = last

namespace Reading

variable {source : Source} {cs : List Comment} {c : Comment} {m n : Reading} {d e : Directive}

@[simp] lemma ordinal_pairUp (o k : Nat) (d : Directive) : (pairUp o k d).ordinal = d.ordinal := by
  rw [pairUp]; split <;> rfl

@[simp] lemma form_pairUp (o k : Nat) (d : Directive) : (pairUp o k d).form = d.form := by
  rw [pairUp]; split <;> rfl

@[simp] lemma source_pairUp (o k : Nat) (d : Directive) : (pairUp o k d).source = d.source := by
  rw [pairUp]; split <;> rfl

def Precedes (d e : Directive) : Prop := d.source.stop ≤ e.source.start ∧ d.ordinal < e.ordinal

structure Orderly (cs : List Comment) (m : Reading) : Prop where
  spans : ∀ d ∈ m.directives, ∃ first ∈ cs, ∃ last ∈ cs, d.Spans first last
  below : ∀ d ∈ m.directives, d.ordinal < m.count
  sorted : m.directives.Pairwise Precedes

lemma spans_directive (m : Reading) (form : DirectiveForm) (a : Attributes) (c : Comment) :
    (m.directive form a c).Spans c c := ⟨rfl, rfl, le_rfl, rfl, rfl, fun _ => rfl⟩

lemma Orderly.keep (h : Orderly cs m) (hd : n.directives = m.directives)
    (hcount : n.count = m.count) : Orderly (cs ++ [c]) n where
  spans d hmem := by
    obtain ⟨first, hfirst, last, hlast, hs⟩ := h.spans d (hd ▸ hmem)
    exact ⟨first, List.mem_append_left _ hfirst, last, List.mem_append_left _ hlast, hs⟩
  below d hmem := hcount ▸ h.below d (hd ▸ hmem)
  sorted := hd ▸ h.sorted

lemma Orderly.stop_le (h : Orderly cs m) (ho : Comment.InOrder (cs ++ [c]))
    (hd : d ∈ m.directives) : d.source.stop ≤ c.span.start := by
  obtain ⟨first, -, last, hlast, hs⟩ := h.spans d hd
  rw [hs.source_eq]
  exact ho.stop_le hlast

lemma Orderly.concat (h : Orderly cs m) (ho : Comment.InOrder (cs ++ [c])) (hs : d.Spans c c)
    (hd : d.ordinal = m.count) (hn : n.directives = m.directives ++ [d])
    (hcount : n.count = m.count + 1) : Orderly (cs ++ [c]) n where
  spans e he := by
    rw [hn] at he
    rcases List.mem_append.mp he with he | he
    · exact (h.keep (n := m) rfl rfl).spans e he
    · obtain rfl := List.mem_singleton.mp he
      exact ⟨c, by simp, c, by simp, hs⟩
  below e he := by
    rw [hn] at he
    rw [hcount]
    rcases List.mem_append.mp he with he | he
    · exact Nat.lt_succ_of_lt (h.below e he)
    · obtain rfl := List.mem_singleton.mp he
      exact hd ▸ Nat.lt_succ_self _
  sorted := by
    rw [hn]
    refine List.pairwise_append.mpr ⟨h.sorted, List.pairwise_singleton _ _, ?_⟩
    intro e he d' hd'
    obtain rfl := List.mem_singleton.mp hd'
    rw [Precedes, hd, hs.source_eq]
    exact ⟨h.stop_le ho he, h.below e he⟩

lemma Orderly.pairUp (h : Orderly cs m) (o k : Nat) :
    Orderly cs { m with directives := m.directives.map (pairUp o k) } where
  spans d hd := by
    obtain ⟨e, he, rfl⟩ := List.mem_map.mp hd
    obtain ⟨first, hfirst, last, hlast, hs⟩ := h.spans e he
    refine ⟨first, hfirst, last, hlast, ?_⟩
    rw [Reading.pairUp]
    split
    · exact ⟨hs.source_eq, hs.anchor_eq, hs.start_le, hs.trailing_first, hs.trailing_last, hs.alone⟩
    · exact hs
  below d hd := by
    obtain ⟨e, he, rfl⟩ := List.mem_map.mp hd
    simpa using h.below e he
  sorted := List.pairwise_map.mpr (h.sorted.imp fun hp => by simpa [Precedes] using hp)

lemma Orderly.extend {q : DirectiveRun} {ds : List Directive} (h : Orderly cs m)
    (ho : Comment.InOrder (cs ++ [c])) (hds : m.directives = ds ++ [q.directive])
    (hq : q.continuesWith source c) (a : Attributes)
    (hn : n.directives = ds ++ [(q.extend c a).directive]) (hcount : n.count = m.count) :
    Orderly (cs ++ [c]) n := by
  have hlast : q.directive ∈ m.directives := by simp [hds]
  have hsorted := hds ▸ h.sorted
  simp only [DirectiveRun.continuesWith, Bool.and_eq_true, Bool.not_eq_true'] at hq
  constructor
  · intro d hd
    rw [hn] at hd
    rcases List.mem_append.mp hd with hd | hd
    · exact (h.keep (n := m) rfl rfl).spans d (by simp [hds, hd])
    · obtain rfl := List.mem_singleton.mp hd
      obtain ⟨first, hfirst, last, hmem, hs⟩ := h.spans _ hlast
      refine ⟨first, by simp [hfirst], c, by simp, ?_, rfl, ?_, hs.trailing_first, ?_, ?_⟩
      · simp [DirectiveRun.extend, hs.source_eq]
      · exact (ho.start_lt hfirst).le
      · exact hq.1.1.1.1.1.trans hq.1.1.1.1.2.symm
      · exact fun htrailing => Bool.noConfusion (hq.1.1.1.1.1.symm.trans htrailing)
  · intro d hd
    rw [hn] at hd
    rw [hcount]
    rcases List.mem_append.mp hd with hd | hd
    · exact h.below d (by simp [hds, hd])
    · obtain rfl := List.mem_singleton.mp hd
      exact h.below q.directive hlast
  · rw [hn]
    obtain ⟨hleft, -, hright⟩ := List.pairwise_append.mp hsorted
    refine List.pairwise_append.mpr ⟨hleft, List.pairwise_singleton _ _, fun d hd e he => ?_⟩
    obtain rfl := List.mem_singleton.mp he
    exact hright d hd q.directive List.mem_cons_self

lemma Of.orderly (h : Of source cs m) (ho : Comment.InOrder cs) : Orderly cs m := by
  induction h with
  | nil => exact ⟨by simp, by simp, .nil⟩
  | snoc _ hstep ih =>
    have hm := ih ho.left
    cases hstep with
    | plain => exact hm.keep rfl rfl
    | joins _ _ hq hds => exact hm.extend ho hds hq _ rfl rfl
    | starts => exact hm.concat ho (spans_directive ..) rfl rfl rfl
    | begins => exact hm.concat ho (spans_directive ..) rfl rfl rfl
    | beginsBadly => exact hm.keep rfl rfl
    | ends => exact (hm.pairUp _ _).concat ho ⟨rfl, rfl, le_rfl, rfl, rfl, fun _ => rfl⟩ rfl rfl rfl
    | endsBadly => exact hm.keep rfl rfl
    | strays => exact hm.keep rfl rfl

lemma Orderly.start_lt_stop (h : Orderly cs m) (ho : Comment.InOrder cs) (hd : d ∈ m.directives) :
    d.source.start < d.source.stop := by
  obtain ⟨first, -, last, hlast, hs⟩ := h.spans d hd
  rw [hs.source_eq]
  exact hs.start_le.trans_lt (ho.nonempty last hlast)

lemma Orderly.pairwise_start (h : Orderly cs m) (ho : Comment.InOrder cs) :
    m.directives.Pairwise fun d e => d.source.start < e.source.start :=
  h.sorted.imp_of_mem fun hd _ hde => (h.start_lt_stop ho hd).trans_le hde.1

lemma Orderly.eq_of_start_eq (h : Orderly cs m) (ho : Comment.InOrder cs) (hd : d ∈ m.directives)
    (he : e ∈ m.directives) (heq : d.source.start = e.source.start) : d = e := by
  have hnodup : (m.directives.map (·.source.start)).Nodup :=
    List.pairwise_map.mpr ((h.pairwise_start ho).imp fun hlt => hlt.ne)
  exact List.inj_on_of_nodup_map hnodup hd he heq

lemma sublist_of_start_lt {ds : List Directive}
    (h : ds.Pairwise fun d e => d.source.start < e.source.start) (hd : d ∈ ds) (he : e ∈ ds)
    (hlt : d.source.start < e.source.start) : [d, e].Sublist ds := by
  have hpairs : ds.Pairwise fun d e => [d, e].Sublist ds :=
    List.pairwise_iff_forall_sublist.mpr fun h => h
  refine List.Pairwise.forall_of_forall_of_flip
    (R := fun d e => d.source.start < e.source.start → [d, e].Sublist ds)
    (fun _ _ hlt => absurd hlt (lt_irrefl _)) (hpairs.imp ?_) (h.imp ?_) hd he hlt
  · exact fun hsub _ => hsub
  · exact fun hed hde => absurd hde hed.not_gt

end Reading

end TrustRegions
