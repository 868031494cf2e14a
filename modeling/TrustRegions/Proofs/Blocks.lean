import TrustRegions.Proofs.BlockPairs
import TrustRegions.Proofs.Runs

/-! The block directives of a content are the markers before the first one without a partner, and the
directives of two markers that belong together name each other. -/

namespace TrustRegions

/-- A directive comes of a marker unless the marker, or the begin marker that it ends, states its
attributes badly. -/
def Comment.Counts (cs : List Comment) (c : Comment) : Prop :=
  ∃ b a, b.role = .begins (some a) ∧ (c = b ∨ Pairs cs b c)

namespace Directive

structure Marks (c : Comment) (d : Directive) : Prop where
  source_eq : d.source = c.span
  anchor_eq : d.anchor = c.span.stop
  stated : c.role = .begins (some d.attributes) ∧ d.form = .blockBegin ∨
    c.role = .ends ∧ d.form = .blockEnd ∧ d.attributes = ∅

structure Partners (d e : Directive) : Prop where
  form_begin : d.form = .blockBegin
  form_end : e.form = .blockEnd
  partner_begin : d.partner = some e.ordinal
  partner_end : e.partner = some d.ordinal

def markers (ds : List Directive) : List Directive := ds.filter (·.form.isBlock)

variable {c : Comment} {d e : Directive} {o k : Nat} {ds : List Directive}

lemma Marks.isBlock (h : d.Marks c) : d.form.isBlock = true := by
  rcases h.stated with ⟨-, hf⟩ | ⟨-, hf, -⟩ <;> rw [hf] <;> rfl

lemma Marks.pairUp (h : d.Marks c) (o k : Nat) : (Reading.pairUp o k d).Marks c := by
  rw [Reading.pairUp]
  split
  · exact ⟨h.source_eq, h.anchor_eq, h.stated⟩
  · exact h

lemma Marks.form_eq (h : d.Marks c) (ho : c.opensBlock = true) :
    c.role = .begins (some d.attributes) ∧ d.form = .blockBegin := by
  rcases h.stated with hs | ⟨hr, -⟩
  · exact hs
  · simp [Comment.opensBlock, hr] at ho

lemma markers_concat (ds : List Directive) (d : Directive) :
    markers (ds ++ [d]) = markers ds ++ if d.form.isBlock then [d] else [] := by
  cases h : d.form.isBlock <;> simp [markers, h]

lemma markers_pairUp (ds : List Directive) (o k : Nat) :
    markers (ds.map (Reading.pairUp o k)) = (markers ds).map (Reading.pairUp o k) := by
  rw [markers, List.filter_map]
  congr 1
  refine List.filter_congr fun d _ => ?_
  simp

end Directive

open Comment

namespace Reading

variable {source : Source} {cs : List Comment} {c b e : Comment} {m n : Reading} {d : Directive}

def Opened (ds : List Directive) (b : Comment) (o : OpenBlock) : Prop :=
  o.start = b.span.start ∧ (b.role = .begins none ∧ o.ordinal = none ∨
    ∃ d ∈ ds, d.Marks b ∧ o.ordinal = some d.ordinal)

lemma Opened.eq_of_bad {ds : List Directive} {o : OpenBlock} (h : Opened ds b o)
    (hb : b.role = .begins none) : o = ⟨none, b.span.start⟩ := by
  obtain ⟨hstart, ⟨-, hordinal⟩ | ⟨d, -, hd, -⟩⟩ := h
  · rw [← hstart, ← hordinal]
  · rcases hd.stated with ⟨hr, -⟩ | ⟨hr, -⟩ <;> simp [hb] at hr

structure Keeps (cs : List Comment) (ds : List Directive) (blocks : List OpenBlock)
    (strayEnds : List Position) : Prop where
  opened : List.Forall₂ (Opened ds) (openMarkers cs) blocks
  strays : ∀ p, p ∈ strayEnds ↔ ∃ e, Stray cs e ∧ e.span.start = p
  begun : ∀ c ∈ cs, ∀ a, c.role = .begins (some a) → ∃ d ∈ ds, d.Marks c
  marked : ∀ d ∈ ds, ∃ c ∈ cs, c.Counts cs ∧ d.Marks c
  linked : ∀ b e a, Pairs cs b e → b.role = .begins (some a) →
    ∃ d ∈ ds, ∃ f ∈ ds, d.Marks b ∧ f.Marks e ∧ d.Partners f

variable {ds : List Directive} {blocks : List OpenBlock} {strayEnds : List Position} {o k : Nat}
  {a : Attributes} {f : Directive}

lemma Keeps.map_start_eq (h : Keeps cs ds blocks strayEnds) :
    blocks.map (·.start) = (openMarkers cs).map (·.span.start) := by
  rw [← List.forall₂_eq_eq_eq, List.forall₂_map_left_iff, List.forall₂_map_right_iff]
  exact (h.opened.imp fun b o h => h.1).flip

lemma counts_concat (h : c.Counts cs) : c.Counts (cs ++ [x]) := by
  obtain ⟨b, a, hb, hc⟩ := h
  exact ⟨b, a, hb, hc.imp_right fun hp => pairs_concat.mpr (Or.inl hp)⟩

lemma strays_concat (hn : c ∉ cs) (hc : c.closesBlock = false ∨ openMarkers cs ≠ []) (p : Position) :
    (∃ e, Stray (cs ++ [c]) e ∧ e.span.start = p) ↔ ∃ e, Stray cs e ∧ e.span.start = p := by
  have hnot (e : Comment) : ¬(e = c ∧ c.closesBlock = true ∧ openMarkers cs = []) := by
    rintro ⟨-, hclose, hempty⟩
    rcases hc with hc | hc
    · simp [hc] at hclose
    · exact hc hempty
  simp only [stray_concat hn, hnot, or_false]

lemma Keeps.same (h : Keeps cs ds blocks strayEnds) (hr : ∀ a, c.role ≠ .begins (some a))
    (hp : ∀ b a, b.role = .begins (some a) →
      ¬(c.closesBlock = true ∧ (openMarkers cs).head? = some b))
    {blocks' : List OpenBlock} {strayEnds' : List Position}
    (hopened : List.Forall₂ (Opened ds) (openMarkers (cs ++ [c])) blocks')
    (hstrays : ∀ p, p ∈ strayEnds' ↔ ∃ e, Stray (cs ++ [c]) e ∧ e.span.start = p) :
    Keeps (cs ++ [c]) ds blocks' strayEnds' where
  opened := hopened
  strays := hstrays
  begun x hx a hrx := by
    rcases List.mem_append.mp hx with hx | hx
    · exact h.begun x hx a hrx
    · obtain rfl := List.mem_singleton.mp hx
      exact absurd hrx (hr a)
  marked d hd := by
    obtain ⟨x, hx, hcounts, hm⟩ := h.marked d hd
    exact ⟨x, List.mem_append_left _ hx, counts_concat hcounts, hm⟩
  linked b e a hpair hb := by
    rcases pairs_concat.mp hpair with hpair | ⟨-, hclose⟩
    · exact h.linked b e a hpair hb
    · exact absurd hclose (hp b a hb)

lemma Keeps.other (h : Keeps cs ds blocks strayEnds) (hn : c ∉ cs) (ho : c.opensBlock = false)
    (hc : c.closesBlock = false) : Keeps (cs ++ [c]) ds blocks strayEnds := by
  refine h.same ?_ (by simp [hc]) ?_ ?_
  · intro a hr
    simp [opensBlock, hr] at ho
  · rw [openMarkers_concat, push_of_other ho hc]
    exact h.opened
  · intro p
    rw [h.strays, strays_concat hn (Or.inl hc)]

lemma Keeps.beginBadly (h : Keeps cs ds blocks strayEnds) (hn : c ∉ cs)
    (hr : c.role = .begins none) :
    Keeps (cs ++ [c]) ds (⟨none, c.span.start⟩ :: blocks) strayEnds := by
  have hc : c.closesBlock = false := by simp [closesBlock, hr]
  refine h.same (by simp [hr]) (by simp [hc]) ?_ ?_
  · rw [openMarkers_concat, push_of_opens (by simp [opensBlock, hr])]
    exact .cons ⟨rfl, Or.inl ⟨hr, rfl⟩⟩ h.opened
  · intro p
    rw [h.strays, strays_concat hn (Or.inl hc)]

lemma Keeps.stray (h : Keeps cs ds [] strayEnds) (hn : c ∉ cs) (hr : c.role = .ends) :
    Keeps (cs ++ [c]) ds [] (strayEnds ++ [c.span.start]) := by
  have hc : c.closesBlock = true := by simp [closesBlock, hr]
  have hempty : openMarkers cs = [] := List.forall₂_nil_right_iff.mp h.opened
  refine h.same (by simp [hr]) (by simp [hempty]) ?_ ?_
  · rw [openMarkers_concat, push_of_closes hc, hempty]
    exact .nil
  · intro p
    simp only [List.mem_append, List.mem_singleton, h.strays, stray_concat hn, hc, hempty, and_true]
    constructor
    · rintro (⟨e, he, rfl⟩ | rfl)
      · exact ⟨e, Or.inl he, rfl⟩
      · exact ⟨c, Or.inr rfl, rfl⟩
    · rintro ⟨e, he | rfl, rfl⟩
      · exact Or.inl ⟨e, he, rfl⟩
      · exact Or.inr rfl

lemma Keeps.exists_open {o : OpenBlock} (h : Keeps cs ds (o :: blocks) strayEnds) :
    ∃ b stack, openMarkers cs = b :: stack ∧ Opened ds b o ∧
      List.Forall₂ (Opened ds) stack blocks := by
  obtain ⟨b, stack, hb, hrest, hstack⟩ := List.forall₂_cons_right_iff.mp h.opened
  exact ⟨b, stack, hstack, hb, hrest⟩

lemma Keeps.endBadly {start : Position} (h : Keeps cs ds (⟨none, start⟩ :: blocks) strayEnds)
    (hn : c ∉ cs) (hr : c.role = .ends) : Keeps (cs ++ [c]) ds blocks strayEnds := by
  have hc : c.closesBlock = true := by simp [closesBlock, hr]
  obtain ⟨b, stack, hstack, ⟨-, hb⟩, hrest⟩ := h.exists_open
  have hb : b.role = .begins none := by simpa using hb
  refine h.same (by simp [hr]) ?_ ?_ ?_
  · rintro b' a hb' ⟨-, hhead⟩
    obtain rfl : b = b' := by simpa [hstack] using hhead
    simp [hb] at hb'
  · rw [openMarkers_concat, push_of_closes hc, hstack]
    exact hrest
  · intro p
    rw [h.strays, strays_concat hn (Or.inr (by simp [hstack]))]

lemma Keeps.begin (h : Keeps cs ds blocks strayEnds) (hn : c ∉ cs)
    (hr : c.role = .begins (some a)) (hd : d.Marks c) :
    Keeps (cs ++ [c]) (ds ++ [d]) (⟨some d.ordinal, c.span.start⟩ :: blocks) strayEnds where
  opened := by
    rw [openMarkers_concat, push_of_opens (by simp [opensBlock, hr])]
    refine .cons ⟨rfl, Or.inr ⟨d, by simp, hd, rfl⟩⟩ (h.opened.imp ?_)
    rintro b o ⟨hstart, hb | ⟨d', hd', hm⟩⟩
    · exact ⟨hstart, Or.inl hb⟩
    · exact ⟨hstart, Or.inr ⟨d', List.mem_append_left _ hd', hm⟩⟩
  strays p := by rw [h.strays, strays_concat hn (Or.inl (by simp [closesBlock, hr]))]
  begun x hx a hrx := by
    rcases List.mem_append.mp hx with hx | hx
    · obtain ⟨d', hd', hm⟩ := h.begun x hx a hrx
      exact ⟨d', List.mem_append_left _ hd', hm⟩
    · obtain rfl := List.mem_singleton.mp hx
      exact ⟨d, by simp, hd⟩
  marked d' hd' := by
    rcases List.mem_append.mp hd' with hd' | hd'
    · obtain ⟨x, hx, hcounts, hm⟩ := h.marked d' hd'
      exact ⟨x, List.mem_append_left _ hx, counts_concat hcounts, hm⟩
    · obtain rfl := List.mem_singleton.mp hd'
      exact ⟨c, by simp, ⟨c, a, hr, Or.inl rfl⟩, hd⟩
  linked b e a' hp hb := by
    obtain ⟨d', hd', f, hf, hm⟩ :=
      h.linked b e a' ((pairs_concat_of_not_closes (by simp [closesBlock, hr])).mp hp) hb
    exact ⟨d', List.mem_append_left _ hd', f, List.mem_append_left _ hf, hm⟩

lemma pairUp_of_ne (h : d.ordinal ≠ o) : pairUp o k d = d := if_neg h

lemma partner_pairUp (k : Nat) (d : Directive) : (pairUp d.ordinal k d).partner = some k := by
  rw [pairUp, if_pos rfl]

lemma Keeps.finish {start : Position} (h : Keeps cs ds (⟨some o, start⟩ :: blocks) strayEnds)
    (ho : InOrder (cs ++ [c])) (hord : ds.Pairwise fun d e => d.ordinal < e.ordinal)
    (hr : c.role = .ends) (hf : f.Marks c) (hpartner : f.partner = some o) :
    Keeps (cs ++ [c]) (ds.map (pairUp o f.ordinal) ++ [f]) blocks strayEnds := by
  have hc : c.closesBlock = true := by simp [closesBlock, hr]
  have hnodup := ho.left.nodup
  obtain ⟨b, stack, hstack, ⟨-, hb⟩, hrest⟩ := h.exists_open
  obtain ⟨d, hd, hmark, hdo⟩ : ∃ d ∈ ds, d.Marks b ∧ some o = some d.ordinal := by simpa using hb
  obtain rfl := Option.some.inj hdo
  obtain ⟨hbmem, hbopens, hbnot⟩ := (mem_openMarkers hnodup).mp (hstack ▸ List.mem_cons_self)
  obtain ⟨hbrole, hform⟩ := hmark.form_eq hbopens
  have hpair : Pairs (cs ++ [c]) b c := pairs_concat.mpr (Or.inr ⟨rfl, hc, by rw [hstack]; rfl⟩)
  have hmem {e : Directive} (he : e ∈ ds) :
      pairUp d.ordinal f.ordinal e ∈ ds.map (pairUp d.ordinal f.ordinal) ++ [f] :=
    List.mem_append_left _ (List.mem_map_of_mem he)
  constructor
  · rw [openMarkers_concat, push_of_closes hc, hstack]
    refine hrest.imp ?_
    rintro b' o' ⟨hstart, hb' | ⟨d', hd', hm, ho'⟩⟩
    · exact ⟨hstart, Or.inl hb'⟩
    · exact ⟨hstart, Or.inr ⟨_, hmem hd', hm.pairUp _ _, by rw [ordinal_pairUp, ho']⟩⟩
  · intro p
    rw [h.strays, strays_concat ho.notMem (Or.inr (by simp [hstack]))]
  · intro x hx a hrx
    rcases List.mem_append.mp hx with hx | hx
    · obtain ⟨d', hd', hm⟩ := h.begun x hx a hrx
      exact ⟨_, hmem hd', hm.pairUp _ _⟩
    · obtain rfl := List.mem_singleton.mp hx
      simp [hr] at hrx
  · intro d' hd'
    rcases List.mem_append.mp hd' with hd' | hd'
    · obtain ⟨e, he, rfl⟩ := List.mem_map.mp hd'
      obtain ⟨x, hx, hcounts, hm⟩ := h.marked e he
      exact ⟨x, List.mem_append_left _ hx, counts_concat hcounts, hm.pairUp _ _⟩
    · obtain rfl := List.mem_singleton.mp hd'
      exact ⟨c, by simp, ⟨b, d.attributes, hbrole, Or.inr hpair⟩, hf⟩
  · intro b' e a' hp ha'
    rcases pairs_concat.mp hp with hp | ⟨rfl, -, hhead⟩
    · -- The directives of earlier pairs are others than that of the marker still open.
      obtain ⟨d', hd', f', hf', hm, hm', hpartners⟩ := h.linked b' e a' hp ha'
      have hne : d'.ordinal ≠ d.ordinal := by
        intro heq
        obtain rfl := Directive.eq_of_ordinal_eq hord hd' hd heq
        obtain rfl := ho.left.eq_of_start_eq hp.mem.1 hbmem
          (by rw [← hm.source_eq, ← hmark.source_eq])
        exact hbnot e hp
      have hne' : f'.ordinal ≠ d.ordinal := by
        intro heq
        obtain rfl := Directive.eq_of_ordinal_eq hord hf' hd heq
        exact absurd (hform.symm.trans hpartners.form_end) (by decide)
      refine ⟨d', ?_, f', ?_, hm, hm', hpartners⟩
      · exact pairUp_of_ne hne ▸ hmem hd'
      · exact pairUp_of_ne hne' ▸ hmem hf'
    · obtain rfl : b = b' := by simpa [hstack] using hhead
      refine ⟨_, hmem hd, f, by simp, hmark.pairUp _ _, hf, ?_, ?_, ?_, ?_⟩
      · rw [form_pairUp, hform]
      · rcases hf.stated with ⟨hf, -⟩ | ⟨-, hf, -⟩
        · simp [hr] at hf
        · exact hf
      · exact partner_pairUp _ _
      · rw [ordinal_pairUp, hpartner]

lemma Of.keeps (h : Of source cs m) (ho : InOrder cs) :
    Keeps cs (Directive.markers m.directives) m.blocks m.strayEnds := by
  induction h with
  | nil => exact ⟨.nil, by simp [Stray], by simp, by simp [Directive.markers],
      fun b e a hp => absurd hp.mem.1 List.not_mem_nil⟩
  | snoc hm hstep ih =>
    have hk := ih ho.left
    cases hstep with
    | plain hr => exact hk.other ho.notMem (by simp [opensBlock, hr]) (by simp [closesBlock, hr])
    | joins hr hq hgo hds =>
      obtain ⟨b, -, hreach⟩ := hm.gathers.reaches _ hq
      rw [hds, Directive.markers_concat, hreach.form] at hk
      rw [Directive.markers_concat]
      exact hk.other ho.notMem (by simp [opensBlock, hr]) (by simp [closesBlock, hr])
    | starts hr =>
      rw [Directive.markers_concat]
      simp only [directive, DirectiveForm.isBlock, Bool.false_eq_true, if_false, List.append_nil]
      exact hk.other ho.notMem (by simp [opensBlock, hr]) (by simp [closesBlock, hr])
    | begins hr =>
      rw [Directive.markers_concat]
      exact hk.begin ho.notMem hr ⟨rfl, rfl, Or.inl ⟨hr, rfl⟩⟩
    | beginsBadly hr => exact hk.beginBadly ho.notMem hr
    | @ends ordinal _ _ hr hblocks =>
      have hord : (Directive.markers _).Pairwise fun d e => d.ordinal < e.ordinal :=
        ((hm.orderly ho.left).sorted.filter _).imp fun h => h.2
      rw [hblocks] at hk
      rw [Directive.markers_concat, Directive.markers_pairUp]
      exact hk.finish (f := { directive _ .blockEnd ∅ _ with partner := some ordinal }) ho hord hr
        ⟨rfl, rfl, Or.inr ⟨hr, rfl, rfl⟩⟩ rfl
    | endsBadly hr hblocks => exact (hblocks ▸ hk).endBadly ho.notMem hr
    | strays hr hblocks => exact (hblocks ▸ hk).stray ho.notMem hr

end Reading

namespace Source

variable {source : Source} {lang : Language} {c b e : Comment} {d f d' f' : Directive}

lemma mem_imbalances (hl : lang.Legible) {p : Position} :
    p ∈ (source.reading lang).imbalances ↔
      ∃ u, Unpaired (source.comments lang) u ∧ u.span.start = p := by
  have ho := source.inOrder_comments hl
  have hkeeps := (source.of_reading lang).keeps ho
  rw [Reading.imbalances, List.mem_append, hkeeps.strays, hkeeps.map_start_eq, List.mem_map]
  simp only [unpaired_iff ho.nodup, or_and_right, exists_or]

lemma mem_directives (hl : lang.Legible) : d ∈ (source.directives lang).1 ↔
    d ∈ (source.reading lang).directives ∧ (d.form.isBlock = true →
      ∀ u, Unpaired (source.comments lang) u → d.source.start < u.span.start) := by
  rw [directives_eq_filter, List.mem_filter]
  refine and_congr_right fun _ => ?_
  rw [Bool.or_eq_true, Bool.not_eq_true', ← Bool.not_eq_true, ← imp_iff_not_or, List.all_eq_true]
  refine imp_congr_right fun _ => ?_
  simp only [mem_imbalances hl, decide_eq_true_eq]
  constructor
  · exact fun h u hu => h _ ⟨u, hu, rfl⟩
  · rintro h p ⟨u, hu, rfl⟩
    exact h u hu

lemma exists_last_comment (hl : lang.Legible) (hd : d ∈ (source.directives lang).1) :
    ∃ (c : Comment) (g : Segment) (stop : Nat), g ∈ lang.segments source.content 0 ∧
      c.Fills source g stop ∧ d.anchor = source.positionAt stop ∧ c.trailing = d.trailing := by
  have horderly := (source.of_reading lang).orderly (source.inOrder_comments hl)
  obtain ⟨_, -, last, hlast, hs⟩ := horderly.spans d ((mem_directives hl).mp hd).1
  obtain ⟨g, hg, stop, hfills⟩ := fills_of_mem_comments hl hlast
  exact ⟨last, g, stop, hg, hfills, hs.anchor_eq.trans hfills.stop_eq, hs.trailing_last.symm⟩

lemma eq_of_marks (hl : lang.Legible) (hd : d ∈ (source.directives lang).1)
    (hf : f ∈ (source.reading lang).directives) (hdc : d.Marks c) (hfc : f.Marks c) : d = f := by
  have ho := source.inOrder_comments hl
  refine ((source.of_reading lang).orderly ho).eq_of_start_eq ho ((mem_directives hl).mp hd).1 hf ?_
  rw [hdc.source_eq, hfc.source_eq]

lemma exists_marked (hl : lang.Legible) (hd : d ∈ (source.directives lang).1)
    (hform : d.form.isBlock = true) :
    ∃ c ∈ source.comments lang, c.Counts (source.comments lang) ∧ d.Marks c ∧
      ∀ u, Unpaired (source.comments lang) u → c.span.start < u.span.start := by
  have ho := source.inOrder_comments hl
  obtain ⟨hmem, hbefore⟩ := (mem_directives hl).mp hd
  obtain ⟨c, hc, hcounts, hm⟩ :=
    ((source.of_reading lang).keeps ho).marked d (List.mem_filter.mpr ⟨hmem, hform⟩)
  exact ⟨c, hc, hcounts, hm, fun u hu => hm.source_eq ▸ hbefore hform u hu⟩

lemma exists_partners {a : Attributes} (hl : lang.Legible) (hp : Pairs (source.comments lang) b e)
    (hb : b.role = .begins (some a))
    (hbefore : ∀ u, Unpaired (source.comments lang) u → b.span.start < u.span.start) :
    ∃ d f, d.Marks b ∧ f.Marks e ∧ d.Partners f ∧ [d, f].Sublist (source.directives lang).1 := by
  have ho := source.inOrder_comments hl
  have hreading := source.of_reading lang
  obtain ⟨d, hd, f, hf, hdb, hfe, hpartners⟩ := (hreading.keeps ho).linked b e a hp hb
  have hmem (g : Directive) (c : Comment) (hg : g ∈ Directive.markers (source.reading lang).directives)
      (hgc : g.Marks c) (hc : ∀ u, Unpaired (source.comments lang) u → c.span.start < u.span.start) :
      g ∈ (source.directives lang).1 := by
    refine (mem_directives hl).mpr ⟨List.mem_of_mem_filter hg, fun _ u hu => ?_⟩
    rw [hgc.source_eq]
    exact hc u hu
  have hd' := hmem d b hd hdb hbefore
  -- Its end marker too comes before every marker without a partner.
  have hf' := hmem f e hf hfe fun u hu => hp.start_lt_of_unpaired ho hu (hbefore u hu)
  refine ⟨d, f, hdb, hfe, hpartners, ?_⟩
  have hstarts : (source.directives lang).1.Pairwise fun d e => d.source.start < e.source.start := by
    rw [directives_eq_filter]
    exact ((hreading.orderly ho).pairwise_start ho).filter _
  refine Reading.sublist_of_start_lt hstarts hd' hf' ?_
  rw [hdb.source_eq, hfe.source_eq]
  exact hp.start_lt ho

lemma exists_end (hl : lang.Legible) (hd : d ∈ (source.directives lang).1)
    (hform : d.form = .blockBegin) : ∃ b e a f, d.Marks b ∧ f.Marks e ∧
      Pairs (source.comments lang) b e ∧ b.role = .begins (some a) ∧ d.Partners f ∧
      [d, f].Sublist (source.directives lang).1 := by
  obtain ⟨b, hb, -, hm, hbefore⟩ := exists_marked hl hd (by rw [hform]; rfl)
  have hrole : b.role = .begins (some d.attributes) := by
    rcases hm.stated with ⟨hr, -⟩ | ⟨-, hend, -⟩
    · exact hr
    · exact absurd (hform.symm.trans hend) (by decide)
  have hopens : b.opensBlock = true := by simp [opensBlock, hrole]
  obtain ⟨e, he⟩ := exists_pairs_of_start_lt hb hopens hbefore
  obtain ⟨d', f, hdb, hfe, hpartners, hsub⟩ := exists_partners hl he hrole hbefore
  obtain rfl : d' = d := eq_of_marks hl (hsub.subset (by simp)) ((mem_directives hl).mp hd).1 hdb hm
  exact ⟨b, e, _, f, hm, hfe, he, hrole, hpartners, hsub⟩

lemma exists_begin (hl : lang.Legible) (hf : f ∈ (source.directives lang).1)
    (hform : f.form = .blockEnd) : ∃ b e a d, d.Marks b ∧ f.Marks e ∧
      Pairs (source.comments lang) b e ∧ b.role = .begins (some a) ∧ d.Partners f ∧
      [d, f].Sublist (source.directives lang).1 := by
  have ho := source.inOrder_comments hl
  obtain ⟨e, -, ⟨b, a, hb, hpair⟩, hm, hbefore⟩ := exists_marked hl hf (by rw [hform]; rfl)
  have hp : Pairs (source.comments lang) b e := by
    rcases hpair with rfl | hp
    · rcases hm.stated with ⟨-, hbegin⟩ | ⟨hends, -⟩
      · exact absurd (hform.symm.trans hbegin) (by decide)
      · simp [hb] at hends
    · exact hp
  obtain ⟨d, f', hdb, hfe, hpartners, hsub⟩ :=
    exists_partners hl hp hb fun u hu => (hp.start_lt ho).trans (hbefore u hu)
  obtain rfl : f' = f := eq_of_marks hl (hsub.subset (by simp)) ((mem_directives hl).mp hf).1 hfe hm
  exact ⟨b, e, a, d, hdb, hm, hp, hb, hpartners, hsub⟩

lemma exists_pairs_of_partners (hl : lang.Legible) (hd : d ∈ (source.directives lang).1)
    (hf : f ∈ (source.directives lang).1) (h : d.Partners f) :
    ∃ b e, Pairs (source.comments lang) b e ∧ d.Marks b ∧ f.Marks e := by
  obtain ⟨b, e, -, g, hdb, hge, hp, -, hpartners, hsub⟩ := exists_end hl hd h.form_begin
  have hordinal : f.ordinal = g.ordinal :=
    Option.some.inj (h.partner_begin.symm.trans hpartners.partner_begin)
  obtain rfl := Directive.eq_of_ordinal_eq ((source.sorted_directives hl).imp fun h => h.2) hf
    (hsub.subset (by simp)) hordinal
  exact ⟨b, e, hp, hdb, hge⟩

lemma nested_or_disjoint_blocks (hl : lang.Legible) (hd : [d, d'].Sublist (source.directives lang).1)
    (hf : f ∈ (source.directives lang).1) (hf' : f' ∈ (source.directives lang).1)
    (h : d.Partners f) (h' : d'.Partners f') :
    f.source.stop ≤ d'.source.start ∧ ¬(d.blockScope f).Overlaps (d'.blockScope f') ∨
      d.source.stop ≤ d'.source.start ∧ f'.source.stop ≤ f.source.start ∧
        (d.blockScope f).Covers (d'.blockScope f') := by
  have ho := source.inOrder_comments hl
  obtain ⟨b, e, hp, hdb, hfe⟩ := exists_pairs_of_partners hl (hd.subset (by simp)) hf h
  obtain ⟨b', e', hp', hdb', hfe'⟩ := exists_pairs_of_partners hl (hd.subset (by simp)) hf' h'
  have hb := ho.nonempty b hp.mem.1
  have hb' := ho.nonempty b' hp'.mem.1
  have he := ho.nonempty e hp.mem.2
  have he' := ho.nonempty e' hp'.mem.2
  have hlt : b.span.start < b'.span.start := by
    have hprecedes := (List.pairwise_iff_forall_sublist.mp (source.sorted_directives hl) hd).1
    rw [hdb.source_eq, hdb'.source_eq] at hprecedes
    exact hb.trans_le hprecedes
  simp only [Directive.blockScope, Span.Overlaps, Span.Covers, hdb.source_eq, hdb'.source_eq,
    hfe.source_eq, hfe'.source_eq, hdb.anchor_eq, hdb'.anchor_eq]
  rcases hp.nested_or_disjoint ho hp' hlt with hle | ⟨hin, hout⟩
  · exact Or.inl ⟨hle, fun hover => hover.2.not_ge ((he.le.trans hle).trans hb'.le)⟩
  · exact Or.inr ⟨hin, hout, hin.trans hb'.le, he'.le.trans hout⟩

lemma exists_directive_iff (hl : lang.Legible) (hc : c ∈ source.comments lang)
    (hcounts : c.Counts (source.comments lang)) :
    (∃ d ∈ (source.directives lang).1, d.Marks c) ↔
      ∀ u, Unpaired (source.comments lang) u → c.span.start < u.span.start := by
  have ho := source.inOrder_comments hl
  constructor
  · rintro ⟨d, hd, hm⟩ u hu
    exact hm.source_eq ▸ ((mem_directives hl).mp hd).2 hm.isBlock u hu
  · intro hbefore
    obtain ⟨b, a, hb, rfl | hp⟩ := hcounts
    · have hopens : c.opensBlock = true := by simp [opensBlock, hb]
      obtain ⟨e, he⟩ := exists_pairs_of_start_lt hc hopens hbefore
      obtain ⟨d, f, hdc, -, -, hsub⟩ := exists_partners hl he hb hbefore
      exact ⟨d, hsub.subset (by simp), hdc⟩
    · obtain ⟨d, f, -, hfc, -, hsub⟩ :=
        exists_partners hl hp hb fun u hu => (hp.start_lt ho).trans (hbefore u hu)
      exact ⟨f, hsub.subset (by simp), hfc⟩

/-- The block directives come in pairs that nest, those of the markers that belong together; of the
markers that count the ones before all markers without a partner have directives. All directives that
are no block markers stay. -/
theorem block_directives_pair_up (tag content : Bytes) :
    let source : Source := ⟨content⟩
    let comments := source.comments (Language.ofTag tag)
    let directives := (source.directives (Language.ofTag tag)).1
    let found := (comments.foldl (DirectiveReader.read source) {}).endRun.directives
    directives.Pairwise (fun d e => d.ordinal < e.ordinal) ∧
    (∀ d ∈ directives, d.form = .blockBegin → ∃ b e a f, d.Marks b ∧ f.Marks e ∧
      Pairs comments b e ∧ b.role = .begins (some a) ∧ d.Partners f ∧ [d, f].Sublist directives) ∧
    (∀ f ∈ directives, f.form = .blockEnd → ∃ b e a d, d.Marks b ∧ f.Marks e ∧
      Pairs comments b e ∧ b.role = .begins (some a) ∧ d.Partners f ∧ [d, f].Sublist directives) ∧
    (∀ d d' f f', [d, d'].Sublist directives → f ∈ directives → f' ∈ directives →
      d.Partners f → d'.Partners f' →
      f.source.stop ≤ d'.source.start ∧ ¬(d.blockScope f).Overlaps (d'.blockScope f') ∨
        d.source.stop ≤ d'.source.start ∧ f'.source.stop ≤ f.source.start ∧
          (d.blockScope f).Covers (d'.blockScope f')) ∧
    (∀ c ∈ comments, c.Counts comments → ((∃ d ∈ directives, d.Marks c) ↔
      ∀ u, Unpaired comments u → c.span.start < u.span.start)) ∧
    (∀ d ∈ directives, d.form.isBlock = true → ∃ c ∈ comments, c.Counts comments ∧ d.Marks c) ∧
    Directive.unblocked directives = Directive.unblocked found ∧
    (∀ c ∈ comments, c.attributes?.isSome →
      ∃ d ∈ Directive.unblocked directives, d.source.Covers c.span) := by
  intro source comments directives found
  have hl := Language.legible_ofTag tag
  refine ⟨(source.sorted_directives hl).imp fun h => h.2, fun d => exists_end hl,
    fun f => exists_begin hl, fun d d' f f' => nested_or_disjoint_blocks hl,
    fun c => exists_directive_iff hl, ?_, ?_, fun c => exists_covering_directive hl⟩
  · intro d hd hform
    obtain ⟨c, hc, hcounts, hm, -⟩ := exists_marked hl hd hform
    exact ⟨c, hc, hcounts, hm⟩
  · rw [source.unblocked_directives]
    exact congrArg Directive.unblocked (DirectiveReader.directives_endRun _).symm

end Source

end TrustRegions
