import TrustRegions.Proofs.Blocks
import TrustRegions.Proofs.Reports
import TrustRegions.Proofs.Retexting

/-! A malformed annotation does no harm to the others: with prose in its place, and in that of the end
marker of a malformed block, the same directives are read and nothing else is reported. -/

namespace TrustRegions

namespace Comment

def isMalformed (c : Comment) : Bool :=
  match Marker.ofComment c with
  | .single rest => Marker.isAttributeLike rest && (Attributes.read rest).toOption.isNone
  | .unknown .. => true
  | _ => false

def isProse (c : Comment) : Bool :=
  match Marker.ofComment c with
  | .none => true
  | .single rest => !Marker.isAttributeLike rest
  | _ => false

/-- The comments that start in these places are malformed, or the two markers of a block whose begin
marker states its attributes badly. -/
def Faulty (cs : List Comment) (starts : List Position) : Prop :=
  ∀ c ∈ cs, c.span.start ∈ starts → c.isMalformed = true ∨
    ∃ b e, Pairs cs b e ∧ b.role = .begins none ∧ (c = b ∨ c = e) ∧
      b.span.start ∈ starts ∧ e.span.start ∈ starts

variable {cs cs' : List Comment} {starts : List Position} {b c c' : Comment}

lemma role_of_isMalformed (h : c.isMalformed = true) : c.role = .plain := by
  rw [isMalformed] at h
  rw [role]
  cases hm : Marker.ofComment c with
  | single rest =>
    rw [hm] at h
    obtain ⟨hlike, hbad⟩ := Bool.and_eq_true_iff.mp h
    dsimp only
    rw [if_pos hlike, Option.isNone_iff_eq_none.mp hbad, Option.elim_none]
  | none | unknown => rfl
  | blockBegin | blockEnd => simp [hm] at h

lemma role_of_closesBlock (h : c.closesBlock = true) : c.role = .ends := by
  rw [closesBlock] at h
  cases hr : c.role <;> simp [hr] at h ⊢

lemma role_of_single {rest : Bytes} (h : Marker.ofComment c = .single rest) :
    c.role = .plain ∨ ∃ a, c.role = .single a := by
  rw [role, h]
  dsimp only
  split
  · cases (Attributes.read rest).toOption with
    | none => exact Or.inl rfl
    | some a => exact Or.inr ⟨a, rfl⟩
  · exact Or.inl rfl

lemma exists_blockBegin {a : Option Attributes} (h : c.role = .begins a) :
    ∃ rest, Marker.ofComment c = .blockBegin rest ∧ (Attributes.read rest).toOption = a := by
  cases hm : Marker.ofComment c with
  | blockBegin rest => exact ⟨rest, rfl, by simpa [role, hm] using h⟩
  | single rest => rcases role_of_single hm with hr | ⟨a, hr⟩ <;> simp [hr] at h
  | none | unknown | blockEnd => simp [role, hm] at h

lemma exists_blockEnd (h : c.role = .ends) : ∃ rest, Marker.ofComment c = .blockEnd rest := by
  cases hm : Marker.ofComment c with
  | blockEnd rest => exact ⟨rest, rfl⟩
  | single rest => rcases role_of_single hm with hr | ⟨a, hr⟩ <;> simp [hr] at h
  | none | unknown | blockBegin => simp [role, hm] at h

lemma Faulty.exists_end (h : Faulty cs starts) (hb : b ∈ cs) (ho : b.opensBlock = true)
    (hs : b.span.start ∈ starts) : ∃ e, Pairs cs b e ∧ e.span.start ∈ starts := by
  rcases h b hb hs with hm | ⟨b, e, hp, -, rfl | rfl, -, he⟩
  · simp [opensBlock, role_of_isMalformed hm] at ho
  · exact ⟨e, hp, he⟩
  · simp [opensBlock_of_closesBlock hp.closes] at ho

def Retexts (starts : List Position) (c c' : Comment) : Prop :=
  if c.span.start ∈ starts then
    c'.style = c.style ∧ c'.span = c.span ∧ c'.trailing = c.trailing ∧ c'.isProse = true
  else c' = c

instance : Decidable (Retexts starts c c') :=
  inferInstanceAs (Decidable (if c.span.start ∈ starts then
    c'.style = c.style ∧ c'.span = c.span ∧ c'.trailing = c.trailing ∧ c'.isProse = true
  else c' = c))

lemma Retexts.span_eq (h : Retexts starts c c') : c'.span = c.span := by
  rw [Retexts] at h
  split at h
  · exact h.2.1
  · rw [h]

end Comment

structure Source.Retexts (lang : Language) (starts : List Position) (s s' : Source) : Prop where
  comments : List.Forall₂ (Comment.Retexts starts) (s.comments lang) (s'.comments lang)
  outside : AgreesOutside
    (((s.comments lang).filter (·.span.start ∈ starts)).map (·.span)) s s'

namespace Diagnostic

def apart (starts : List Position) (gs : List Diagnostic) : List Diagnostic :=
  gs.filter fun g => ¬(g.kind = .directiveSyntax ∧ g.position ∈ starts)

def Requotes (s s' : Source) (g g' : Diagnostic) : Prop :=
  g' = { g with text := g'.text } ∧ (g'.text = g.text ∨ ∃ n, g.text = s.line n ∧ g'.text = s'.line n)

variable {starts : List Position} {gs : List Diagnostic}

lemma Requotes.refl (s s' : Source) (g : Diagnostic) : Requotes s s' g g := ⟨rfl, Or.inl rfl⟩

lemma apart_of_kind (h : ∀ g ∈ gs, g.kind ≠ .directiveSyntax) : apart starts gs = gs :=
  List.filter_eq_self.mpr fun g hg => by simp [h g hg]

end Diagnostic

open Comment Diagnostic

namespace DirectiveReader

structure Without (s s' : Source) (starts : List Position) (r r' : DirectiveReader) : Prop where
  directives : r'.directives = r.directives
  run : r'.run = r.run
  count : r'.count = r.count
  blocks : r'.blocks = r.blocks.filter (·.start ∉ starts)
  strayEnds : r'.strayEnds = r.strayEnds
  diagnostics : List.Forall₂ (Requotes s s') (apart starts r.diagnostics) r'.diagnostics

variable {s s' : Source} {starts : List Position} {r r' : DirectiveReader} {c c' : Comment}
  {rest : Bytes}

namespace Without

lemma report (h : Without s s' starts r r') {gs gs' : List Diagnostic}
    (hg : List.Forall₂ (Requotes s s') (apart starts gs) gs') :
    Without s s' starts (r.report gs) (r'.report gs') where
  directives := h.directives
  run := h.run
  count := h.count
  blocks := h.blocks
  strayEnds := h.strayEnds
  diagnostics := by
    simp only [DirectiveReader.report, apart, List.filter_append]
    exact List.rel_append h.diagnostics hg

lemma reportAt (h : Without s s' starts r r') (cause : Cause) (hc : c.span.start ∉ starts) :
    Without s s' starts (r.reportAt s c cause) (r'.reportAt s' c cause) := by
  refine h.report ?_
  rw [apart, List.filter_cons_of_pos (by simp [hc])]
  exact .cons ⟨rfl, Or.inr ⟨_, rfl, rfl⟩⟩ .nil

lemma reportAt_left (h : Without s s' starts r r') (cause : Cause) (hc : c.span.start ∈ starts)
    (hcause : cause.kind = .directiveSyntax) : Without s s' starts (r.reportAt s c cause) r' := by
  have hnil : r'.report [] = r' := by rw [DirectiveReader.report, List.append_nil]
  rw [← hnil]
  refine h.report ?_
  rw [apart, List.filter_cons_of_neg (by simp [hc, Diagnostic.kind, hcause])]
  exact .nil

lemma trust (s s' : Source) (starts : List Position) (d : Directive) :
    List.Forall₂ (Requotes s s') (apart starts d.trustDiagnostics) d.trustDiagnostics := by
  rw [apart_of_kind fun g hg => by simp [Directive.kind_of_mem_trustDiagnostics hg]]
  exact List.forall₂_same.mpr fun g _ => .refl s s' g

lemma endRun (h : Without s s' starts r r') : Without s s' starts r.endRun r'.endRun := by
  rw [DirectiveReader.endRun, DirectiveReader.endRun, h.run]
  cases r.run with
  | none => exact h
  | some q =>
    have hreport := h.report (trust s s' starts q.directive)
    exact { hreport with directives := by rw [h.directives], run := rfl }

lemma directive (h : Without s s' starts r r') (form : DirectiveForm) (a : Attributes) (c : Comment) :
    r'.directive form a c = r.directive form a c := by
  simp only [DirectiveReader.directive, h.count]

lemma readSingle (h : Without s s' starts r r') (hc : c.span.start ∉ starts)
    (hclear : ∀ q, r.run = some q →
      s'.isClearAfter q.directive.source.stop = s.isClearAfter q.directive.source.stop) :
    Without s s' starts (r.readSingle s c rest) (r'.readSingle s' c rest) := by
  rw [DirectiveReader.readSingle, DirectiveReader.readSingle]
  cases Attributes.read rest with
  | error e => exact h.endRun.reportAt _ hc
  | ok a =>
    have hjoined : (r'.run.filter fun q => q.continuesWith s' c) =
        r.run.filter fun q => q.continuesWith s c := by
      rw [h.run]
      cases hq : r.run with
      | none => rfl
      | some q => simp only [Option.filter_some, DirectiveRun.continuesWith, hclear q hq]
    dsimp only
    rw [hjoined]
    cases r.run.filter fun q => q.continuesWith s c with
    | some q => exact { h with run := rfl }
    | none =>
      have hend := h.endRun
      exact { hend with run := by rw [hend.directive], count := by rw [hend.count] }

lemma readBegin (h : Without s s' starts r r') (hc : c.span.start ∉ starts) :
    Without s s' starts (r.readBegin s c rest) (r'.readBegin s' c rest) := by
  rw [DirectiveReader.readBegin, DirectiveReader.readBegin]
  cases Attributes.read rest with
  | error e =>
    have hreport := h.reportAt (.badAttributes e.fault) hc
    dsimp only
    exact { hreport with blocks := by rw [hreport.blocks, List.filter_cons_of_pos (by simpa using hc)] }
  | ok a =>
    have hreport := h.report (trust s s' starts (r.directive .blockBegin a c))
    dsimp only
    rw [h.directive]
    exact { hreport with
      directives := by rw [h.directives]
      count := by rw [h.count]
      blocks := by rw [h.blocks, List.filter_cons_of_pos (by simpa using hc)] }

lemma closeBlock (h : Without s s' starts r r') (hc : c.span.start ∉ starts)
    (htop : ∀ o ∈ r.blocks.head?, o.start ∉ starts) :
    Without s s' starts (r.closeBlock s c) (r'.closeBlock s' c) := by
  have hblocks := h.blocks
  rw [DirectiveReader.closeBlock, DirectiveReader.closeBlock]
  rcases hb : r.blocks with _ | ⟨⟨ordinal, start⟩, blocks⟩
  · rw [hb] at hblocks
    have hreport := h.reportAt .endWithoutBegin hc
    rw [hblocks, List.filter_nil]
    dsimp only
    exact { hreport with strayEnds := by rw [hreport.strayEnds] }
  · have hstart : start ∉ starts := htop ⟨ordinal, start⟩ (by simp [hb])
    rw [hb, List.filter_cons_of_pos (by simpa using hstart)] at hblocks
    rw [hblocks]
    cases ordinal with
    | none => exact { h with blocks := rfl }
    | some ordinal =>
      exact { h with
        directives := by simp only [h.directive, h.directives]
        count := by rw [h.count]
        blocks := rfl }

lemma readEnd (h : Without s s' starts r r') (hc : c.span.start ∉ starts)
    (htop : ∀ o ∈ r.blocks.head?, o.start ∉ starts) :
    Without s s' starts (r.readEnd s c rest) (r'.readEnd s' c rest) := by
  rw [DirectiveReader.readEnd, DirectiveReader.readEnd]
  split
  · exact h.closeBlock hc htop
  · exact (h.reportAt _ hc).closeBlock hc htop

lemma read (h : Without s s' starts r r') (hc : c.span.start ∉ starts)
    (hclear : ∀ q, r.run = some q →
      s'.isClearAfter q.directive.source.stop = s.isClearAfter q.directive.source.stop)
    (htop : c.closesBlock = true → ∀ o ∈ r.blocks.head?, o.start ∉ starts) :
    Without s s' starts (r.read s c) (r'.read s' c) := by
  rw [DirectiveReader.read, DirectiveReader.read]
  cases hm : Marker.ofComment c with
  | none => exact h.endRun
  | unknown word rest => exact h.endRun.reportAt _ hc
  | single rest =>
    dsimp only
    split
    · exact h.readSingle hc hclear
    · exact h.endRun
  | blockBegin rest => exact h.endRun.readBegin hc
  | blockEnd rest =>
    refine h.endRun.readEnd hc ?_
    rw [blocks_endRun]
    exact htop (by simp [closesBlock, role, hm])

end Without

lemma read_of_isProse (hc : c.isProse = true) (s : Source) (r : DirectiveReader) :
    r.read s c = r.endRun := by
  rw [isProse] at hc
  rw [read]
  cases hm : Marker.ofComment c with
  | none => rfl
  | single rest =>
    rw [hm] at hc
    dsimp only at hc ⊢
    rw [if_neg (by simpa using hc)]
  | blockBegin | blockEnd | unknown => simp [hm] at hc

namespace Without

lemma malformed (h : Without s s' starts r r') (hc : c.span.start ∈ starts)
    (hm : c.isMalformed = true) (hc' : c'.isProse = true) :
    Without s s' starts (r.read s c) (r'.read s' c') := by
  rw [read_of_isProse hc', DirectiveReader.read]
  rw [isMalformed] at hm
  cases hmarker : Marker.ofComment c with
  | unknown word rest => exact h.endRun.reportAt_left _ hc rfl
  | single rest =>
    rw [hmarker] at hm
    obtain ⟨hlike, hbad⟩ := Bool.and_eq_true_iff.mp hm
    dsimp only
    rw [if_pos hlike, DirectiveReader.readSingle]
    cases ha : Attributes.read rest with
    | error e => exact h.endRun.reportAt_left _ hc rfl
    | ok a => simp [ha, Except.toOption] at hbad
  | none | blockBegin | blockEnd => simp [hmarker] at hm

lemma begins (h : Without s s' starts r r') (hc : c.span.start ∈ starts)
    (hb : c.role = .begins none) (hc' : c'.isProse = true) :
    Without s s' starts (r.read s c) (r'.read s' c') := by
  obtain ⟨rest, hmarker, hbad⟩ := exists_blockBegin hb
  rw [read_of_isProse hc', DirectiveReader.read, hmarker]
  dsimp only
  rw [DirectiveReader.readBegin]
  cases ha : Attributes.read rest with
  | error e =>
    have hreport := h.endRun.reportAt_left (.badAttributes e.fault) hc rfl
    dsimp only
    exact { hreport with blocks := by rw [hreport.blocks, List.filter_cons_of_neg (by simpa using hc)] }
  | ok a => simp [ha, Except.toOption] at hbad

lemma ends {p : Position} {blocks : List OpenBlock} (h : Without s s' starts r r')
    (hc : c.span.start ∈ starts) (he : c.role = .ends) (hblocks : r.blocks = ⟨none, p⟩ :: blocks)
    (hp : p ∈ starts) (hc' : c'.isProse = true) :
    Without s s' starts (r.read s c) (r'.read s' c') := by
  obtain ⟨rest, hmarker⟩ := exists_blockEnd he
  -- The block closes without a report, and the markers that are left are those open without it.
  have hclose {n : DirectiveReader} (hn : Without s s' starts n r'.endRun)
      (hb : n.blocks = ⟨none, p⟩ :: blocks) : Without s s' starts (n.closeBlock s c) r'.endRun := by
    rw [DirectiveReader.closeBlock, hb]
    exact { hn with blocks := by rw [hn.blocks, hb, List.filter_cons_of_neg (by simpa using hp)] }
  rw [← blocks_endRun] at hblocks
  rw [read_of_isProse hc', DirectiveReader.read, hmarker]
  dsimp only
  rw [DirectiveReader.readEnd]
  split
  · exact hclose h.endRun hblocks
  · exact hclose (h.endRun.reportAt_left .textAfterEnd hc rfl) hblocks

end Without

section Runs

variable {cs pre post pre' : List Comment} {b : Comment} (ho : InOrder cs) (hf : Faulty cs starts)

include ho hf

lemma notMem_starts_of_closes (hcs : cs = pre ++ c :: post) (hc : c.span.start ∉ starts)
    (hcloses : c.closesBlock = true) (hb : (openMarkers pre).head? = some b) :
    b.span.start ∉ starts := by
  intro hstart
  have hp : Pairs cs b c := hcs ▸ pairs_of_head?_openMarkers hcloses hb
  obtain ⟨e, he, hmem⟩ := hf.exists_end hp.mem.1 hp.opens hstart
  exact hc (hp.right_unique ho.nodup he ▸ hmem)

lemma without_fault (hcs : cs = pre ++ c :: post) (hstart : c.span.start ∈ starts)
    (hprose : c'.isProse = true) (hr : Without s s' starts (pre.foldl (read s) {}) r') :
    Without s s' starts (read s (pre.foldl (read s) {}) c) (read s' r' c') := by
  rcases hf c (by simp [hcs]) hstart with hm | ⟨b, e, hp, hbad, rfl | rfl, hb, -⟩
  · exact hr.malformed hstart hm hprose
  · exact hr.begins hstart hbad hprose
  · -- The begin marker of this block is the innermost that is open.
    have hopened := ((of_foldl s pre).keeps (InOrder.left (hcs ▸ ho))).opened
    have hnodup := ho.nodup
    have hcloses := hp.closes
    rw [hcs] at hp hnodup
    obtain ⟨stack, hstack⟩ := List.head?_eq_some_iff.mp (head?_openMarkers_of_pairs hnodup hp)
    rw [hstack] at hopened
    obtain ⟨o, blocks, hob, -, hblocks⟩ := List.forall₂_cons_left_iff.mp hopened
    rw [hob.eq_of_bad hbad] at hblocks
    exact hr.ends hstart (role_of_closesBlock hcloses) hblocks hb hprose

lemma without_kept (hclear : ∀ c ∈ cs, s'.isClearAfter c.span.stop = s.isClearAfter c.span.stop)
    (hcs : cs = pre ++ c :: post) (hstart : c.span.start ∉ starts)
    (hr : Without s s' starts (pre.foldl (read s) {}) r') :
    Without s s' starts (read s (pre.foldl (read s) {}) c) (read s' r' c) := by
  have hin : InOrder pre := InOrder.left (hcs ▸ ho)
  refine hr.read hstart (fun q hq => ?_) fun hcloses o htop => ?_
  · obtain ⟨_, -, last, hlast, hs⟩ := exists_spans_of_run hin hq
    rw [hs.source_eq]
    exact hclear last (by simp [hcs, hlast])
  · have hopened := ((of_foldl s pre).keeps hin).opened
    obtain ⟨blocks, hblocks⟩ := List.head?_eq_some_iff.mp htop
    rw [show (pre.foldl (read s) {}).reading.blocks = o :: blocks from hblocks] at hopened
    obtain ⟨b, stack, hob, -, hstack⟩ := List.forall₂_cons_right_iff.mp hopened
    rw [hob.1]
    exact notMem_starts_of_closes ho hf hcs hstart hcloses (by rw [hstack]; rfl)

lemma without_foldl (hclear : ∀ c ∈ cs, s'.isClearAfter c.span.stop = s.isClearAfter c.span.stop)
    (hcs : cs = pre ++ post) (h : List.Forall₂ (Retexts starts) pre pre') :
    Without s s' starts (pre.foldl (read s) {}) (pre'.foldl (read s') {}) := by
  induction pre using List.reverseRecOn generalizing post pre' with
  | nil =>
    rw [List.forall₂_nil_left_iff.mp h]
    exact ⟨rfl, rfl, rfl, rfl, rfl, .nil⟩
  | append_singleton pre c ih =>
    obtain ⟨pre', c', rfl⟩ : ∃ l a, pre' = l ++ [a] := by
      rcases List.eq_nil_or_concat' pre' with rfl | hconcat
      · simp at h
      · exact hconcat
    obtain ⟨hpre, hc⟩ := Reading.forall₂_concat.mp h
    rw [List.append_assoc, List.singleton_append] at hcs
    have hr := ih hcs hpre
    rw [List.foldl_concat, List.foldl_concat]
    rw [Retexts] at hc
    split at hc
    · next hstart => exact without_fault ho hf hcs hstart hc.2.2.2 hr
    · next hstart =>
      rw [hc]
      exact without_kept ho hf hclear hcs hstart hr

lemma notMem_starts_of_open {o : OpenBlock} (h : o ∈ (cs.foldl (read s) {}).blocks) :
    o.start ∉ starts := by
  have hopen : o.start ∈ (openMarkers cs).map (·.span.start) :=
    ((of_foldl s cs).keeps ho).map_start_eq ▸ List.mem_map_of_mem h
  obtain ⟨b, hb, hstart⟩ := List.mem_map.mp hopen
  obtain ⟨hmem, hopens, hnot⟩ := (mem_openMarkers ho.nodup).mp hb
  rw [← hstart]
  intro hstarts
  obtain ⟨e, hp, -⟩ := hf.exists_end hmem hopens hstarts
  exact hnot e hp

end Runs

lemma requotes_openBlockDiagnostics (starts : List Position) (hblocks : r'.blocks = r.blocks)
    (hlength : s'.positionAt s'.content.length = s.positionAt s.content.length) :
    List.Forall₂ (Requotes s s') (apart starts (r.openBlockDiagnostics s))
      (r'.openBlockDiagnostics s') := by
  rw [apart_of_kind fun g hg => by
    obtain ⟨b, -, rfl⟩ := List.mem_map.mp hg
    simp [Diagnostic.kind, Cause.kind]]
  rw [openBlockDiagnostics, openBlockDiagnostics, hblocks, hlength, List.forall₂_map_left_iff,
    List.forall₂_map_right_iff]
  exact List.forall₂_same.mpr fun b _ => ⟨rfl, Or.inr ⟨b.start.line, rfl, rfl⟩⟩

end DirectiveReader

namespace Source

variable {lang : Language} {s s' : Source} {starts : List Position} {c : Comment}

lemma Retexts.map_span_eq (hr : s.Retexts lang starts s') :
    (s'.comments lang).map (·.span) = (s.comments lang).map (·.span) := by
  rw [← List.forall₂_eq_eq_eq, List.forall₂_map_left_iff, List.forall₂_map_right_iff]
  exact hr.comments.flip.imp fun _ _ h => Comment.Retexts.span_eq h

lemma Retexts.exists_span (hr : s.Retexts lang starts s') (hc : c ∈ s.comments lang) :
    ∃ a ∈ s'.comments lang, a.span = c.span :=
  List.mem_map.mp (hr.map_span_eq ▸ List.mem_map_of_mem hc)

lemma exists_of_mem_spans {t : Span}
    (ht : t ∈ ((s.comments lang).filter (·.span.start ∈ starts)).map (·.span)) :
    ∃ a ∈ s.comments lang, a.span = t := by
  obtain ⟨a, ha, rfl⟩ := List.mem_map.mp ht
  exact ⟨a, List.mem_of_mem_filter ha, rfl⟩

lemma Retexts.isClearAfter_eq (hl : lang.Legible) (hr : s.Retexts lang starts s')
    (hc : c ∈ s.comments lang) :
    s'.isClearAfter c.span.stop = s.isClearAfter c.span.stop := by
  obtain ⟨c', hc', hspan⟩ := hr.exists_span hc
  rw [Bool.eq_iff_iff]
  constructor
  · rw [← hspan]
    refine isClearAfter_of_agreesOutside hl hr.outside.symm (fun t ht => ?_) hc' ⟨c, hc, hspan.symm⟩
    obtain ⟨a, ha, rfl⟩ := exists_of_mem_spans ht
    exact hr.exists_span ha
  · exact isClearAfter_of_agreesOutside hl hr.outside (fun t ht => exists_of_mem_spans ht) hc
      ⟨c', hc', hspan⟩

/-- Prose in place of malformed comments, and of both markers of blocks that begin badly, leaves the
directives as they are, and the reports but for those on how the replaced comments are written. -/
theorem directives_without_faults (tag : Bytes) {s s' : Source} {starts : List Position}
    (hf : Faulty (s.comments (Language.ofTag tag)) starts)
    (hr : s.Retexts (Language.ofTag tag) starts s') :
    (s'.directives (Language.ofTag tag)).1 = (s.directives (Language.ofTag tag)).1 ∧
      List.Forall₂ (Requotes s s') (apart starts (s.directives (Language.ofTag tag)).2)
        (s'.directives (Language.ofTag tag)).2 := by
  have hl := Language.legible_ofTag tag
  generalize Language.ofTag tag = lang at hl hf hr ⊢
  have ho := s.inOrder_comments hl
  have hend := (DirectiveReader.without_foldl ho hf (fun c hc => hr.isClearAfter_eq hl hc)
    (List.append_nil _).symm hr.comments).endRun
  -- No marker of a fault is still open at the end.
  have hblocks := hend.blocks
  rw [List.filter_eq_self.mpr fun o hmem => by
    rw [DirectiveReader.blocks_endRun] at hmem
    simpa using DirectiveReader.notMem_starts_of_open ho hf hmem] at hblocks
  have himbalances : DirectiveReader.imbalances _ = DirectiveReader.imbalances _ :=
    congrArg₂ (· ++ ·) hend.strayEnds (congrArg (List.map (·.start)) hblocks)
  rw [directives, directives, Directive.ofComments, Directive.ofComments]
  dsimp only
  constructor
  · rw [hend.directives]
    refine List.filter_congr fun d _ => ?_
    rw [DirectiveReader.isReliable, DirectiveReader.isReliable, himbalances]
  · rw [apart, List.filter_append]
    exact List.rel_append hend.diagnostics (DirectiveReader.requotes_openBlockDiagnostics starts hblocks
      (positionAt_length_eq hl hr.outside (fun t ht => exists_of_mem_spans ht)
        fun c hc => hr.exists_span hc))

def faultyMarkers (sign : UInt8) : Source where
  content := ascii "// @collab:begin\n// " ++ sign :: ascii "collab:begin x\n// " ++
    sign :: ascii "collab x=\n// " ++ sign :: ascii "collab:end\n// " ++ sign :: ascii "collab:x\n" ++
    ascii "// @collab:end\n"

theorem directives_without_faults_faultyMarkers :
    let s := faultyMarkers (byte '@')
    let s' := faultyMarkers (byte '#')
    let lang := Language.ofTag (ascii "cpp")
    let starts : List Position := [⟨2, 1⟩, ⟨3, 1⟩, ⟨4, 1⟩, ⟨5, 1⟩]
    Faulty (s.comments lang) starts ∧ s.Retexts lang starts s' ∧
      (s'.directives lang).1 = (s.directives lang).1 ∧
      List.Forall₂ (Requotes s s') (apart starts (s.directives lang).2) (s'.directives lang).2 ∧
      (s.directives lang).1.map (·.partner) = [some 1, some 0] ∧
      (s.directives lang).2.map (·.position) = [⟨2, 1⟩, ⟨3, 1⟩, ⟨5, 1⟩] := by
  intro s s' lang starts
  have hf : Faulty (s.comments lang) starts := by
    obtain ⟨b, -, e, -, hcs, hclose, hopen, hbad, hb, he, hcases⟩ :
        ∃ b ∈ s.comments lang, ∃ e ∈ s.comments lang,
          s.comments lang = (s.comments lang).take 3 ++ e :: (s.comments lang).drop 4 ∧
          e.closesBlock = true ∧ (openMarkers ((s.comments lang).take 3)).head? = some b ∧
          b.role = .begins none ∧ b.span.start ∈ starts ∧ e.span.start ∈ starts ∧
          ∀ c ∈ s.comments lang, c.span.start ∈ starts → c.isMalformed = true ∨ c = b ∨ c = e := by
      decide +kernel
    have hp : Pairs (s.comments lang) b e := hcs ▸ pairs_of_head?_openMarkers hclose hopen
    exact fun c hc hstart => (hcases c hc hstart).imp_right fun h => ⟨b, e, hp, hbad, h, hb, he⟩
  have hr : s.Retexts lang starts s' := by
    have hspans : ((s.comments lang).filter (·.span.start ∈ starts)).map (·.span) =
        [⟨⟨2, 1⟩, ⟨2, 19⟩⟩, ⟨⟨3, 1⟩, ⟨3, 14⟩⟩, ⟨⟨4, 1⟩, ⟨4, 15⟩⟩, ⟨⟨5, 1⟩, ⟨5, 13⟩⟩] := by
      decide +kernel
    refine ⟨by decide +kernel, ?_⟩
    rw [hspans]
    exact .of_newlines (by decide +kernel) (by decide +kernel)
  obtain ⟨hdirectives, hreports⟩ := directives_without_faults (ascii "cpp") hf hr
  exact ⟨hf, hr, hdirectives, hreports, by decide +kernel⟩

end Source

end TrustRegions
