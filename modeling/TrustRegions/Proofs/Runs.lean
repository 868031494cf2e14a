import Mathlib.Data.List.SplitBy
import TrustRegions.Proofs.Inheritance
import TrustRegions.Proofs.Reading

/-! Single directives on successive lines make one directive: the directives outside of blocks are, one
by one, the runs of the comments, and each run is as long as it can be. -/

namespace TrustRegions

lemma splitBy_concat {α : Type} {r : α → α → Bool} {l : List α} {b c : α} (hb : l.getLast? = some b)
    (hr : r b c = true) : ∃ gs g, l.splitBy r = gs ++ [g] ∧ g.getLast? = some b ∧
      (l ++ [c]).splitBy r = gs ++ [g ++ [c]] := by
  have hne : l.splitBy r ≠ [] := by
    rintro hnil
    simp [List.splitBy_eq_nil.mp hnil] at hb
  obtain ⟨gs, g, hsplit⟩ : ∃ gs g, l.splitBy r = gs ++ [g] :=
    ⟨_, _, (List.dropLast_append_getLast hne).symm⟩
  obtain ⟨hl, hnil, hchain, hgaps⟩ := List.splitBy_eq_iff.mp hsplit
  have hg : g ≠ [] := fun h => hnil (by simp [h])
  have hlast : g.getLast? = some b := by
    rw [← hb, hl, List.flatten_append, List.flatten_singleton, List.getLast?_append_of_ne_nil _ hg]
  refine ⟨gs, g, hsplit, hlast, List.splitBy_eq_iff.mpr ⟨by simp [hl], by simpa [hg] using hnil, ?_, ?_⟩⟩
  · intro m hm
    rcases List.mem_append.mp hm with hm | hm
    · exact hchain m (by simp [hm])
    · obtain rfl := List.mem_singleton.mp hm
      refine List.isChain_append.mpr ⟨hchain g (by simp), List.isChain_singleton _, ?_⟩
      simpa [hlast] using hr
  · obtain ⟨hgs, -, hbetween⟩ := List.isChain_append.mp hgaps
    refine List.isChain_append.mpr ⟨hgs, List.isChain_singleton _, fun a ha m hm => ?_⟩
    obtain rfl : g ++ [c] = m := by simpa using hm
    obtain ⟨ha', hg', hrel⟩ := hbetween a ha g (by simp)
    exact ⟨ha', by simp, by rwa [List.head_append_of_ne_nil hg']⟩

namespace KeyedMap

variable {β : Type}

lemma insertEntry_of_forall_lt {es : List (Bytes × β)} {k : Bytes} (h : ∀ e ∈ es, e.1 < k) (v : β) :
    insertEntry k v es = es ++ [(k, v)] := by
  induction es with
  | nil => rfl
  | cons e es ih =>
    have he := h e List.mem_cons_self
    rw [insertEntry, if_neg (List.lt_asymm he), if_pos he,
      ih fun x hx => h x (List.mem_cons_of_mem e hx), List.cons_append]

lemma empty_overlay (m : KeyedMap β) : (∅ : KeyedMap β).overlay m = m := by
  suffices h : ∀ (base : KeyedMap β) (es : List (Bytes × β)),
      (base.entries ++ es).Pairwise (fun a b => a.1 < b.1) →
      (es.foldl (fun m e => m.insert e.1 e.2) base).entries = base.entries ++ es from
    KeyedMap.ext (h ∅ m.entries m.ascending)
  intro base es hes
  induction es generalizing base with
  | nil => simp
  | cons e es ih =>
    have hlast : (base.insert e.1 e.2).entries = base.entries ++ [e] :=
      insertEntry_of_forall_lt (fun x hx => (List.pairwise_append.mp hes).2.2 x hx e (by simp)) e.2
    have hes' : ((base.insert e.1 e.2).entries ++ es).Pairwise fun a b => a.1 < b.1 := by
      rwa [hlast, List.append_assoc, List.singleton_append]
    rw [List.foldl_cons, ih _ hes', hlast, List.append_assoc, List.singleton_append]

lemma get?_foldl_overlay (base : KeyedMap β) (ms : List (KeyedMap β)) (k : Bytes) :
    (ms.foldl overlay base).get? k = (ms.reverse.findSome? (·.get? k)).or (base.get? k) := by
  induction ms generalizing base with
  | nil => rfl
  | cons m ms ih =>
    rw [List.foldl_cons, ih, get?_overlay, List.reverse_cons, List.findSome?_append, Option.or_assoc]
    cases h : m.get? k <;> simp [h]

end KeyedMap

namespace Comment

def attributes? (c : Comment) : Option Attributes :=
  match c.role with
  | .single a => some a
  | _ => none

def joins (source : Source) (a b : Comment) : Bool :=
  a.attributes?.isSome && b.attributes?.isSome && !a.trailing && !b.trailing &&
    a.style == b.style && a.delimiter == b.delimiter &&
    b.span.start.line == a.span.stop.line + 1 && source.isClearAfter a.span.stop

def isRun (run : List Comment) : Bool := run.all (·.attributes?.isSome)

def runs (source : Source) (cs : List Comment) : List (List Comment) :=
  (cs.splitBy (joins source)).filter isRun

def merged (run : List Comment) : Attributes :=
  (run.filterMap attributes?).foldl KeyedMap.overlay ∅

variable {source : Source} {cs : List Comment} {b c : Comment}

lemma attributes?_of_role {a : Attributes} (h : c.role = .single a) : c.attributes? = some a := by
  rw [attributes?, h]

lemma merged_concat {run : List Comment} {a : Attributes} (h : c.role = .single a) :
    merged (run ++ [c]) = (merged run).overlay a := by
  simp [merged, attributes?_of_role h]

lemma isSome_of_joins (h : joins source b c = true) :
    b.attributes?.isSome = true ∧ c.attributes?.isSome = true := by
  simp only [joins, Bool.and_eq_true] at h
  tauto

lemma isRun_of_isChain {run : List Comment} (h : run.IsChain fun a b => joins source a b = true)
    (hlast : ∀ b ∈ run.getLast?, b.attributes?.isSome) : isRun run := by
  induction run with
  | nil => rfl
  | cons a run ih =>
    cases run with
    | nil => simpa [isRun] using hlast
    | cons b run =>
      obtain ⟨hab, hrun⟩ := List.isChain_cons_cons.mp h
      have := ih hrun (by simpa using hlast)
      rw [isRun, List.all_cons, (isSome_of_joins hab).1]
      exact this

lemma runs_concat_of_joins (hb : cs.getLast? = some b) (h : joins source b c = true) :
    ∃ rs run, runs source cs = rs ++ [run] ∧ run.getLast? = some b ∧
      runs source (cs ++ [c]) = rs ++ [run ++ [c]] := by
  obtain ⟨gs, g, hsplit, hlast, hmore⟩ := splitBy_concat hb h
  obtain ⟨hsingle, hsingle'⟩ := isSome_of_joins h
  have hchain := List.isChain_of_mem_splitBy (r := joins source) (l := cs) (m := g) (by simp [hsplit])
  have hrun : isRun g = true := isRun_of_isChain hchain (by simpa [hlast] using hsingle)
  have hrun' : isRun (g ++ [c]) = true := by
    rw [isRun] at hrun ⊢
    simp [hrun, hsingle']
  refine ⟨gs.filter isRun, g, ?_, hlast, ?_⟩
  · rw [runs, hsplit, List.filter_append, List.filter_cons_of_pos hrun, List.filter_nil]
  · rw [runs, hmore, List.filter_append, List.filter_cons_of_pos hrun', List.filter_nil]

lemma runs_concat_of_not_joins (h : ∀ b ∈ cs.getLast?, joins source b c = false) :
    runs source (cs ++ [c]) = runs source cs ++ if c.attributes?.isSome then [[c]] else [] := by
  rw [runs, List.splitBy_append_cons [] h, List.filter_append]
  simp [runs, isRun, List.splitBy, List.splitBy.loop, List.filter_cons]

lemma exists_joins (source : Source) (cs : List Comment) (c : Comment) :
    (∃ b, cs.getLast? = some b ∧ joins source b c = true) ∨
      ∀ b ∈ cs.getLast?, joins source b c = false := by
  cases hb : cs.getLast? with
  | none => simp
  | some b => cases h : joins source b c <;> simp [h]

lemma flatten_runs (source : Source) (cs : List Comment) :
    (runs source cs).flatten = cs.filter (·.attributes?.isSome) := by
  induction cs using List.reverseRecOn with
  | nil => rfl
  | append_singleton cs c ih =>
    rw [List.filter_append, ← ih]
    rcases exists_joins source cs c with ⟨b, hb, h⟩ | h
    · obtain ⟨rs, run, hruns, -, hmore⟩ := runs_concat_of_joins hb h
      simp [hruns, hmore, (isSome_of_joins h).2]
    · rw [runs_concat_of_not_joins h]
      cases hc : c.attributes? <;> simp [hc]

end Comment

def Directive.unblocked (ds : List Directive) : List Directive := ds.filter (!·.form.isBlock)

lemma Directive.unblocked_concat (ds : List Directive) (d : Directive) :
    unblocked (ds ++ [d]) = unblocked ds ++ if d.form.isBlock then [] else [d] := by
  cases h : d.form.isBlock <;> simp [unblocked, h]

lemma Directive.unblocked_pairUp (ds : List Directive) (o k : Nat) :
    unblocked (ds.map (Reading.pairUp o k)) = (unblocked ds).map (Reading.pairUp o k) := by
  rw [unblocked, List.filter_map]
  congr 1
  refine List.filter_congr fun d _ => ?_
  simp

structure Directive.Carries (run : List Comment) (d : Directive) : Prop where
  nonempty : run ≠ []
  start_eq : ∀ first ∈ run.head?, d.source.start = first.span.start
  stop_eq : ∀ last ∈ run.getLast?, d.source.stop = last.span.stop ∧ d.anchor = last.span.stop
  trailing_eq : ∀ first ∈ run.head?, d.trailing = first.trailing
  form_eq : d.form = if 2 ≤ run.length then .merged else .single
  attributes_eq : d.attributes = Comment.merged run

structure DirectiveRun.Reaches (q : DirectiveRun) (b : Comment) : Prop where
  style_eq : q.style = b.style
  delimiter_eq : q.delimiter = b.delimiter
  trailing_eq : q.directive.trailing = b.trailing
  stop_eq : q.directive.source.stop = b.span.stop
  single : b.attributes?.isSome
  form : q.directive.form.isBlock = false

lemma DirectiveRun.Reaches.continuesWith_eq {q : DirectiveRun} {b c : Comment} (h : q.Reaches b)
    (source : Source) (hc : c.attributes?.isSome) :
    q.continuesWith source c = Comment.joins source b c := by
  simp [continuesWith, Comment.joins, h.style_eq, h.delimiter_eq, h.trailing_eq, h.stop_eq, h.single,
    hc]

namespace Reading

variable {source : Source} {cs : List Comment} {c : Comment} {m n : Reading} {d : Directive}
  {run : List Comment} {q : DirectiveRun} {a : Attributes}

structure Gathers (source : Source) (cs : List Comment) (m : Reading) : Prop where
  carries : List.Forall₂ Directive.Carries (Comment.runs source cs) (Directive.unblocked m.directives)
  reaches : ∀ q, m.run = some q → ∃ b, cs.getLast? = some b ∧ q.Reaches b
  going : ∀ b ∈ cs.getLast?, b.attributes?.isSome → m.run.isSome

lemma carries_directive (h : c.role = .single a) : (m.directive .single a c).Carries [c] where
  nonempty := by simp
  start_eq := by simp [directive]
  stop_eq := by simp [directive]
  trailing_eq := by simp [directive]
  form_eq := by simp [directive]
  attributes_eq := by
    rw [← List.nil_append [c], Comment.merged_concat h]
    exact (KeyedMap.empty_overlay a).symm

lemma carries_extend (hq : q.directive.Carries run) (h : c.role = .single a) :
    (q.extend c a).directive.Carries (run ++ [c]) where
  nonempty := by simp
  start_eq := by
    intro first hf
    rw [List.head?_append_of_ne_nil _ hq.nonempty] at hf
    exact hq.start_eq first hf
  stop_eq := by simp [DirectiveRun.extend]
  trailing_eq := by
    intro first hf
    rw [List.head?_append_of_ne_nil _ hq.nonempty] at hf
    exact hq.trailing_eq first hf
  form_eq := by
    have := List.length_pos_of_ne_nil hq.nonempty
    rw [List.length_append, List.length_singleton, if_pos (by omega)]
    rfl
  attributes_eq := by
    rw [Comment.merged_concat h, ← hq.attributes_eq]
    rfl

lemma carries_pairUp (h : d.Carries run) (o k : Nat) : (pairUp o k d).Carries run := by
  rw [pairUp]
  split
  · exact ⟨h.nonempty, h.start_eq, h.stop_eq, h.trailing_eq, h.form_eq, h.attributes_eq⟩
  · exact h

lemma forall₂_concat {α β : Type} {R : α → β → Prop} {l : List α} {l' : List β} {x : α} {y : β} :
    List.Forall₂ R (l ++ [x]) (l' ++ [y]) ↔ List.Forall₂ R l l' ∧ R x y := by
  rw [← List.forall₂_reverse_iff]
  simp [List.forall₂_reverse_iff, and_comm]

lemma gathers_interrupt (hc : c.attributes? = none)
    (hn : List.Forall₂ Directive.Carries (Comment.runs source cs) (Directive.unblocked n.directives))
    (hrun : n.run = none) : Gathers source (cs ++ [c]) n where
  carries := by
    rw [Comment.runs_concat_of_not_joins, hc]
    · simpa using hn
    · intro b _
      simp [Comment.joins, hc]
  reaches := by simp [hrun]
  going := by simp [hc]

lemma Gathers.start (h : Gathers source cs m) (hc : c.role = .single a)
    (hnot : ∀ q, m.run = some q → q.continuesWith source c = false) (hd : d.Carries [c])
    (hds : n.directives = m.directives ++ [d]) (hrun : n.run = some ⟨d, c.style, c.delimiter⟩) :
    Gathers source (cs ++ [c]) n where
  carries := by
    have hsome := Comment.attributes?_of_role hc
    -- A single directive right before has its run still open, which would have taken `c` in.
    have hnone : ∀ b ∈ cs.getLast?, Comment.joins source b c = false := by
      intro b hb
      cases hsingle : b.attributes?.isSome with
      | false => simp [Comment.joins, hsingle]
      | true =>
        obtain ⟨q, hq⟩ := Option.isSome_iff_exists.mp (h.going b hb hsingle)
        obtain ⟨b', hb', hreach⟩ := h.reaches q hq
        obtain rfl : b = b' := Option.some.inj (hb.symm.trans hb')
        rw [← hreach.continuesWith_eq source (by simp [hsome]), hnot q hq]
    have hform : d.form.isBlock = false := by
      rw [hd.form_eq]
      rfl
    rw [Comment.runs_concat_of_not_joins hnone, hds, Directive.unblocked_concat, hform]
    simpa [hsome] using forall₂_concat.mpr ⟨h.carries, hd⟩
  reaches q hq := by
    obtain rfl := Option.some.inj (hrun.symm.trans hq)
    refine ⟨c, by simp, rfl, rfl, hd.trailing_eq c rfl, (hd.stop_eq c rfl).1, ?_, ?_⟩
    · simp [Comment.attributes?_of_role hc]
    · rw [hd.form_eq]
      rfl
  going := by simp [hrun]

lemma Gathers.join {ds : List Directive} (h : Gathers source cs m) (hc : c.role = .single a)
    (hq : m.run = some q) (hgo : q.continuesWith source c = true)
    (hds : m.directives = ds ++ [q.directive])
    (hn : n.directives = ds ++ [(q.extend c a).directive]) (hrun : n.run = some (q.extend c a)) :
    Gathers source (cs ++ [c]) n where
  carries := by
    obtain ⟨b, hb, hreach⟩ := h.reaches q hq
    rw [hreach.continuesWith_eq source (by simp [Comment.attributes?_of_role hc])] at hgo
    obtain ⟨rs, run, hruns, -, hmore⟩ := Comment.runs_concat_of_joins hb hgo
    have hform : (q.extend c a).directive.form.isBlock = false := rfl
    have hcarries := h.carries
    rw [hruns, hds, Directive.unblocked_concat, hreach.form] at hcarries
    obtain ⟨hbefore, hrun⟩ := forall₂_concat.mp hcarries
    rw [hmore, hn, Directive.unblocked_concat, hform]
    exact forall₂_concat.mpr ⟨hbefore, carries_extend hrun hc⟩
  reaches p hp := by
    obtain rfl := Option.some.inj (hrun.symm.trans hp)
    obtain ⟨b, -, hreach⟩ := h.reaches q hq
    simp only [DirectiveRun.continuesWith, Bool.and_eq_true, Bool.not_eq_true', beq_iff_eq] at hgo
    obtain ⟨⟨⟨⟨⟨htrail, htrail'⟩, hstyle⟩, hdelim⟩, -⟩, -⟩ := hgo
    refine ⟨c, by simp, hstyle, hdelim, htrail.trans htrail'.symm, rfl, ?_, rfl⟩
    simp [Comment.attributes?_of_role hc]
  going := by simp [hrun]

lemma Of.gathers (h : Of source cs m) : Gathers source cs m := by
  induction h with
  | nil => exact ⟨.nil, by simp, by simp⟩
  | snoc _ hstep ih =>
    cases hstep with
    | plain h => exact gathers_interrupt (by simp [Comment.attributes?, h]) ih.carries rfl
    | joins h hq hgo hds => exact ih.join h hq hgo hds rfl rfl
    | starts h hnot => exact ih.start h hnot (carries_directive h) rfl rfl
    | begins h =>
      refine gathers_interrupt (by simp [Comment.attributes?, h]) ?_ rfl
      simpa [Directive.unblocked_concat, directive, DirectiveForm.isBlock] using ih.carries
    | beginsBadly h => exact gathers_interrupt (by simp [Comment.attributes?, h]) ih.carries rfl
    | ends h =>
      refine gathers_interrupt (by simp [Comment.attributes?, h]) ?_ rfl
      rw [Directive.unblocked_concat, Directive.unblocked_pairUp]
      simpa [directive, DirectiveForm.isBlock, List.forall₂_map_right_iff] using
        ih.carries.imp fun run d hd => carries_pairUp hd _ _
    | endsBadly h => exact gathers_interrupt (by simp [Comment.attributes?, h]) ih.carries rfl
    | strays h => exact gathers_interrupt (by simp [Comment.attributes?, h]) ih.carries rfl

end Reading

namespace Comment.InOrder

variable {cs run : List Comment} {c : Comment}

lemma sublist (h : InOrder cs) (hrun : run.Sublist cs) : InOrder run :=
  ⟨fun c hc => h.nonempty c (hrun.mem hc), h.sorted.sublist hrun⟩

lemma head_le (h : InOrder run) (hc : c ∈ run) :
    ∃ first ∈ run.head?, first.span.start ≤ c.span.start := by
  cases run with
  | nil => simp at hc
  | cons first run =>
    refine ⟨first, rfl, ?_⟩
    rcases List.mem_cons.mp hc with rfl | hc
    · exact le_rfl
    · exact ((List.pairwise_cons.mp h.pairwise_start).1 c hc).le

lemma le_getLast (h : InOrder run) (hc : c ∈ run) :
    ∃ last ∈ run.getLast?, c.span.stop ≤ last.span.stop := by
  induction run using List.reverseRecOn with
  | nil => simp at hc
  | append_singleton run last _ =>
    refine ⟨last, by simp, ?_⟩
    rcases List.mem_append.mp hc with hc | hc
    · exact (h.stop_le hc).trans (h.nonempty last (by simp)).le
    · exact (List.mem_singleton.mp hc) ▸ le_rfl

end Comment.InOrder

namespace Directive

variable {cs run : List Comment} {c : Comment} {d : Directive} {ds : List Directive}

lemma Carries.covers (h : d.Carries run) (ho : Comment.InOrder run) (hc : c ∈ run) :
    d.source.Covers c.span := by
  obtain ⟨first, hfirst, hle⟩ := ho.head_le hc
  obtain ⟨last, hlast, hle'⟩ := ho.le_getLast hc
  exact ⟨(h.start_eq first hfirst).trans_le hle, hle'.trans_eq (h.stop_eq last hlast).1.symm⟩

lemma eq_of_covers (hds : ds.Pairwise fun d e => d.source.stop ≤ e.source.start)
    (hc : c.span.start < c.span.stop) {d e : Directive} (hd : d ∈ ds) (he : e ∈ ds)
    (hdc : d.source.Covers c.span) (hec : e.source.Covers c.span) : d = e := by
  have hnot {d e : Directive} (hle : d.source.stop ≤ e.source.start)
      (hdc : d.source.Covers c.span) (hec : e.source.Covers c.span) : False :=
    hc.not_ge (hdc.2.trans (hle.trans hec.1))
  refine List.Pairwise.forall_of_forall_of_flip
    (R := fun d e => d.source.Covers c.span → e.source.Covers c.span → d = e)
    (fun _ _ _ _ => rfl) (hds.imp ?_) (hds.imp ?_) hd he hdc hec
  · exact fun hle hdc hec => (hnot hle hdc hec).elim
  · exact fun hle hec hdc => (hnot hle hdc hec).elim

lemma unblocked_filter_or (p : Directive → Bool) (ds : List Directive) :
    unblocked (ds.filter fun d => !d.form.isBlock || p d) = unblocked ds := by
  rw [unblocked, unblocked, List.filter_filter]
  refine List.filter_congr fun d _ => ?_
  cases d.form.isBlock <;> rfl

end Directive

lemma exists_of_forall₂ {α β : Type} {R : α → β → Prop} {l : List α} {l' : List β}
    (h : List.Forall₂ R l l') {a : α} (ha : a ∈ l) : ∃ b ∈ l', R a b := by
  induction h with
  | nil => simp at ha
  | @cons x y l l' hxy _ ih =>
    rcases List.mem_cons.mp ha with rfl | ha
    · exact ⟨y, by simp, hxy⟩
    · obtain ⟨b, hb, hab⟩ := ih ha
      exact ⟨b, by simp [hb], hab⟩

namespace Source

variable {source : Source} {lang : Language} {c : Comment}

lemma sorted_directives (source : Source) (hl : lang.Legible) :
    (source.directives lang).1.Pairwise Reading.Precedes := by
  rw [directives_eq_filter]
  exact ((source.of_reading lang).orderly (source.inOrder_comments hl)).sorted.filter _

lemma unblocked_directives (source : Source) (lang : Language) :
    Directive.unblocked (source.directives lang).1 =
      Directive.unblocked (source.reading lang).directives := by
  rw [directives_eq_filter, Directive.unblocked_filter_or]

lemma carries_directives (source : Source) (lang : Language) :
    List.Forall₂ Directive.Carries (Comment.runs source (source.comments lang))
      (Directive.unblocked (source.directives lang).1) := by
  rw [unblocked_directives]
  exact (source.of_reading lang).gathers.carries

lemma exists_covering_directive (hl : lang.Legible) (hc : c ∈ source.comments lang)
    (hsingle : c.attributes?.isSome) :
    ∃ d ∈ Directive.unblocked (source.directives lang).1, d.source.Covers c.span := by
  have hmem : c ∈ (Comment.runs source (source.comments lang)).flatten := by
    rw [Comment.flatten_runs]
    exact List.mem_filter.mpr ⟨hc, hsingle⟩
  obtain ⟨run, hrun, hcrun⟩ := List.mem_flatten.mp hmem
  have hsublist : run.Sublist (source.comments lang) := by
    refine (List.sublist_flatten_of_mem hrun).trans ?_
    rw [Comment.flatten_runs]
    exact List.filter_sublist
  obtain ⟨d, hd, hdrun⟩ := exists_of_forall₂ (source.carries_directives lang) hrun
  exact ⟨d, hd, hdrun.covers ((source.inOrder_comments hl).sublist hsublist) hcrun⟩

/-- Every well-formed single directive is in one run, and each run makes one directive. -/
theorem unblocked_directives_are_runs (tag content : Bytes) :
    let source : Source := ⟨content⟩
    let comments := source.comments (Language.ofTag tag)
    let runs := Comment.runs source comments
    let directives := (source.directives (Language.ofTag tag)).1
    let unblocked := Directive.unblocked directives
    List.Forall₂ Directive.Carries runs unblocked ∧
    runs.flatten = comments.filter (·.attributes?.isSome) ∧
    (∀ c ∈ comments, c.attributes?.isSome → ∃! d, d ∈ unblocked ∧ d.source.Covers c.span) ∧
    (∀ run ∈ runs, ∀ key, (Comment.merged run).get? key =
      (run.filterMap Comment.attributes?).reverse.findSome? (·.get? key)) ∧
    unblocked.Pairwise (fun d e => d.source.stop ≤ e.source.start) ∧
    directives.Pairwise (fun d e => d.ordinal < e.ordinal) := by
  intro source comments runs directives unblocked
  have hl := Language.legible_ofTag tag
  have hsorted := source.sorted_directives hl
  have happart : unblocked.Pairwise fun d e => d.source.stop ≤ e.source.start :=
    (hsorted.filter _).imp fun h => h.1
  refine ⟨source.carries_directives _, Comment.flatten_runs source comments, ?_, ?_, happart,
    hsorted.imp fun h => h.2⟩
  · intro c hc hsingle
    obtain ⟨d, hd, hcovers⟩ := exists_covering_directive hl hc hsingle
    have hne := (source.inOrder_comments hl).nonempty c hc
    exact ⟨d, ⟨hd, hcovers⟩, fun e he =>
      Directive.eq_of_covers happart hne he.1 hd he.2 hcovers⟩
  · intro run _ key
    rw [Comment.merged, KeyedMap.get?_foldl_overlay, KeyedMap.get?_empty, Option.or_none]

end Source

end TrustRegions
