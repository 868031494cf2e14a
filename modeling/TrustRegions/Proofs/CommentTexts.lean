import TrustRegions.Proofs.BlockComments
import TrustRegions.Proofs.Comments

/-! What the span of a comment cuts out of the content: its delimiter, its text and what closes it. The
comments can be read one by one, and again from the first. -/

namespace TrustRegions

namespace BlockComment

def ClosesWith (b : BlockComment) (closing after : Bytes) : Prop :=
  if b.atLineStart then
    b.closer <+: closing ∧ newline ∉ closing ∧ ∀ c ∈ after.head?, c = newline
  else closing = b.closer

lemma ClosesWith.ne_nil {b : BlockComment} {closing after : Bytes} (h : b.ClosesWith closing after)
    (hb : b.closer ≠ []) : closing ≠ [] := by
  rintro rfl
  rw [ClosesWith] at h
  split at h
  · exact hb (List.prefix_nil.mp h.1)
  · exact hb h.symm

end BlockComment

namespace Source

def cut (s : Source) (span : Span) : Bytes :=
  (s.content.drop (s.offsetAt span.start)).take (s.offsetAt span.stop - s.offsetAt span.start)

variable {s : Source} {o : Nat} {c : UInt8} {d : Bytes}

lemma cut_positionAt {a b : Nat} (h : a ≤ b) (hb : b ≤ s.content.length) :
    s.cut ⟨s.positionAt a, s.positionAt b⟩ = (s.content.drop a).take (b - a) := by
  rw [cut, offsetAt_positionAt hb, offsetAt_positionAt (h.trans hb)]

lemma chomp_word_append (hd : Bytes.IsWord d) (t : Bytes) : chomp (d ++ t) = d ++ chomp t := by
  have hlast := hd.2 _ (List.getLast_mem hd.1)
  have h := chomp_append (ne_of_not_blank hlast).2 d.dropLast t
  rwa [List.append_cons, List.append_cons _ _ (chomp t), List.dropLast_append_getLast hd.1] at h

lemma endOfLine_positionAt (hc : s.content[o]? = some c) (hb : isBlank c = false) :
    s.endOfLine (s.positionAt o).line = s.positionAt (o + (chomp (s.lineTail o)).length) := by
  have htail : chomp (s.lineTail o) = c :: chomp (s.lineTail (o + 1)) := by
    rw [lineTail_eq_cons hc hb]
    exact chomp_append (ne_of_not_blank hb).2 [] _
  -- The end of the line counts columns from its start, the position on the right from the byte.
  rw [positionAt_add_lineTail s (isPrefix_chomp _).length_le, endOfLine, line_of_not_blank hc hb,
    column_eq, htail, List.length_append, Nat.add_right_comm]

end Source

namespace Language

variable {lang : Language} {content text : Bytes} {o n k : Nat} {s : Segment} {d : Bytes}
  {b : BlockComment}

lemma closer_of_bodyLinesLength? {closer : Bytes} (h : bodyLinesLength? closer text = some n) :
    closer <+: text.drop n := by
  induction text generalizing n with
  | nil => simp [bodyLinesLength?] at h
  | cons c rest ih =>
    rw [bodyLinesLength?] at h
    split at h
    · next hclose =>
      obtain rfl := Option.some.inj h
      exact List.isPrefixOf_iff_prefix.mp hclose.2
    · exact prefix_drop_of_map_succ c h fun m hm => ih hm

lemma closesWith_blockBody (hb : Bytes.IsWord b.closer) (h : blockBody b text = (n, k)) :
    b.ClosesWith ((text.drop n).take k) (text.drop (n + k)) ∨ n = text.length ∧ k = 0 := by
  rw [blockBody] at h
  rw [BlockComment.ClosesWith]
  split at h
  · next hstart =>
    rw [if_pos hstart]
    split at h
    · next m hm =>
      -- The closer owns the rest of its line, so the comment closes with that line.
      obtain ⟨rfl, rfl⟩ := Prod.mk.inj h
      have htake : (text.drop m).take (restOfLine (text.drop m)) =
          (text.drop m).takeWhile (· ≠ newline) :=
        (List.prefix_iff_eq_take.mp (List.takeWhile_prefix _)).symm
      have hdrop : text.drop (m + restOfLine (text.drop m)) =
          (text.drop m).dropWhile (· ≠ newline) := by
        rw [← List.drop_drop, restOfLine, drop_length_takeWhile]
      rw [htake, hdrop]
      refine Or.inl ⟨?_, fun hmem => by simpa using List.mem_takeWhile_imp hmem, fun c hc => ?_⟩
      · obtain ⟨rest, hrest⟩ := closer_of_bodyLinesLength? hm
        rw [← hrest, hb.takeWhile_append]
        exact List.prefix_append _ _
      · have hnot := List.head?_dropWhile_not (fun c => decide (c ≠ newline)) (text.drop m)
        rw [Option.mem_def.mp hc] at hnot
        simpa using hnot
    · exact Or.inr ((Prod.mk.inj h).imp Eq.symm Eq.symm)
  · next hstart =>
    rw [if_neg hstart]
    split at h
    · next m hm =>
      obtain ⟨rfl, rfl⟩ := Prod.mk.inj h
      exact Or.inl (List.prefix_iff_eq_take.mp (closer_of_bodyLength? hm)).symm
    · exact Or.inr ((Prod.mk.inj h).imp Eq.symm Eq.symm)

lemma segments_of_append {before after : List Segment}
    (h : lang.segments content o = before ++ s :: after) : after = lang.segments content s.stop := by
  induction before generalizing o with
  | nil => exact (segments_eq_cons h).2.2
  | cons t before ih => exact ih (segments_eq_cons h).2.2.symm

lemma exists_lineComment (hl : lang.Legible) (hs : s ∈ lang.segments content o)
    (hkind : s.kind = .comment .line d n) :
    Bytes.IsWord d ∧ ∃ body, d ++ body = (content.drop s.start).takeWhile (· ≠ newline) ∧
      n = (Source.chomp body).length := by
  have hfound := segmentAt_of_mem hl hs hkind
  have hopens := lang.opens_openingAt (startsLine content s.start) (content.drop s.start)
  rw [segmentAt] at hfound
  cases ho : lang.openingAt (startsLine content s.start) (content.drop s.start) with
  | code => simp [ho] at hfound
  | string => simp [ho] at hfound
  | blockComment b => simp [ho] at hfound
  | lineComment l =>
    rw [ho] at hopens hfound
    simp only [Prod.mk.injEq, Segment.Kind.comment.injEq, true_and] at hfound
    obtain ⟨⟨rfl, rfl⟩, -⟩ := hfound
    have hword := hl.lineComments l hopens.1
    refine ⟨hword, _, ?_, rfl⟩
    obtain ⟨rest, hrest⟩ := hopens.2
    rw [← hrest, List.drop_left, hword.takeWhile_append]

end Language

namespace Comment

/-- The comment is made from the segment, and its span cuts it out of the content: what shows of its
line, or its delimiters and its text, the closing one if there is one. -/
structure Cuts (source : Source) (lang : Language) (s : Segment) (c : Comment) : Prop where
  kind : s.kind = .comment c.style c.delimiter c.text.length
  start : source.offsetAt c.span.start = s.start
  line : c.style = .line → source.cut c.span = c.delimiter ++ c.text ∧
    source.cut c.span = Source.chomp (source.lineTail s.start)
  block : c.style = .block → ∃ b ∈ lang.block, c.delimiter = b.opener ∧
    source.offsetAt c.span.stop = s.stop ∧
    (s.Terminated → ∃ closing, source.cut c.span = c.delimiter ++ c.text ++ closing ∧
      b.ClosesWith closing (source.content.drop s.stop)) ∧
    (¬s.Terminated → source.cut c.span = c.delimiter ++ c.text ∧ s.stop = source.content.length)

variable {source : Source} {lang : Language} {s : Segment} {c : Comment} {d : Bytes} {n : Nat}

lemma cut_line (hl : lang.Legible) (hs : s ∈ lang.segments source.content 0)
    (hkind : s.kind = .comment .line d n) :
    let cut := source.cut
      ⟨source.positionAt s.start, source.endOfLine (source.positionAt s.start).line⟩
    cut = d ++ (source.content.drop (s.start + d.length)).take n ∧
      cut = Source.chomp (source.lineTail s.start) := by
  obtain ⟨hword, body, hbody, rfl⟩ := Language.exists_lineComment hl hs hkind
  obtain ⟨rest, hrest⟩ : d ++ body <+: source.content.drop s.start :=
    hbody ▸ List.takeWhile_prefix _
  have hchomp := Source.isPrefix_chomp (source.lineTail s.start)
  have htext : (source.content.drop (s.start + d.length)).take (Source.chomp body).length =
      Source.chomp body := by
    rw [← List.drop_drop, ← hrest, List.append_assoc, List.drop_left]
    exact (List.prefix_iff_eq_take.mp ((Source.isPrefix_chomp body).trans
      (List.prefix_append _ _))).symm
  obtain ⟨b, hb, hblank⟩ := shows_of_prefix hword ⟨_, (List.append_assoc _ _ _).symm.trans hrest⟩
  have hend := Source.add_lineTail_le (s := source)
    ((Language.start_lt_stop hs).le.trans (Language.stop_le_length hs))
  have hle := hchomp.length_le
  -- The lexer ends the comment at the newline, the span before a carriage return there; the text leaves
  -- it out as well, so what is cut is the line from the delimiter on without it.
  have hcut : source.cut ⟨source.positionAt s.start,
      source.endOfLine (source.positionAt s.start).line⟩ = Source.chomp (source.lineTail s.start) := by
    rw [Source.endOfLine_positionAt hb hblank, Source.cut_positionAt (Nat.le_add_right _ _) (by omega),
      Nat.add_sub_cancel_left]
    exact (List.prefix_iff_eq_take.mp (hchomp.trans (List.takeWhile_prefix _))).symm
  refine ⟨?_, hcut⟩
  rw [htext, hcut, ← Source.chomp_word_append hword, hbody]
  rfl

lemma cut_block (hl : lang.Legible) (hs : s ∈ lang.segments source.content 0)
    (hkind : s.kind = .comment .block d n) :
    let cut := source.cut ⟨source.positionAt s.start, source.positionAt s.stop⟩
    let text := (source.content.drop (s.start + d.length)).take n
    ∃ b ∈ lang.block, d = b.opener ∧
      (s.Terminated → ∃ closing, cut = d ++ text ++ closing ∧
        b.ClosesWith closing (source.content.drop s.stop)) ∧
      (¬s.Terminated → cut = d ++ text ∧ s.stop = source.content.length) := by
  obtain ⟨b, hb, rfl, hpre, hbody, hle⟩ := Language.exists_blockComment hl hs hkind
  have hlt := Language.start_lt_stop hs
  have hlength := Language.stop_le_length hs
  obtain ⟨rest, hrest⟩ := hpre
  have hdrop : source.content.drop (s.start + b.opener.length) = rest := by
    rw [← List.drop_drop, ← hrest, List.drop_left]
  generalize hk : s.stop - (s.start + b.opener.length + n) = k at hbody
  have hcut : source.cut ⟨source.positionAt s.start, source.positionAt s.stop⟩ =
      b.opener ++ rest.take n ++ (rest.drop n).take k := by
    rw [Source.cut_positionAt hlt.le hlength, ← hrest,
      show s.stop - s.start = b.opener.length + (n + k) by omega, List.take_length_add_append,
      List.take_add, List.append_assoc]
  have hafter : rest.drop (n + k) = source.content.drop s.stop := by
    rw [← hdrop, List.drop_drop]
    congr 1
    omega
  rw [hdrop] at hbody ⊢
  have hcloser := (hl.block b hb).2
  have hterminated := Segment.terminated_iff hkind
  have hcloses := Language.closesWith_blockBody hcloser hbody
  rw [hafter] at hcloses
  refine ⟨b, hb, rfl, fun ht => ?_, fun ht => ?_⟩
  · rcases hcloses with hcloses | ⟨-, rfl⟩
    · exact ⟨_, hcut, hcloses⟩
    · have hmore := hterminated.mp ht
      omega
  · have hzero : k = 0 := by
      rw [hterminated] at ht
      omega
    subst hzero
    rcases hcloses with hcloses | ⟨hn, -⟩
    · exact absurd (List.take_zero) (hcloses.ne_nil hcloser.1)
    · have hwhole := congrArg List.length hdrop
      rw [List.length_drop] at hwhole
      refine ⟨?_, by omega⟩
      rw [hcut, List.take_zero, List.append_nil]

lemma cuts_of_ofSegment? (hl : lang.Legible) (hs : s ∈ lang.segments source.content 0)
    (hc : ofSegment? source s = some c) : c.Cuts source lang s := by
  rw [ofSegment?] at hc
  split at hc
  · next style d n hkind =>
    obtain rfl := Option.some.inj hc
    have hlt := Language.start_lt_stop hs
    have hlength := Language.stop_le_length hs
    obtain ⟨hpre, hbody⟩ := Language.holdsComment_of_mem hs style d n hkind
    have htext : ((source.content.drop (s.start + d.length)).take n).length = n := by
      rw [List.length_take, List.length_drop]
      omega
    have hstart : source.offsetAt (source.positionAt s.start) = s.start :=
      Source.offsetAt_positionAt (hlt.le.trans hlength)
    cases style with
    | line => exact ⟨htext.symm ▸ hkind, hstart, fun _ => cut_line hl hs hkind, by simp⟩
    | block =>
      obtain ⟨b, hb, hopener, hcut⟩ := cut_block hl hs hkind
      exact ⟨htext.symm ▸ hkind, hstart, by simp,
        fun _ => ⟨b, hb, hopener, Source.offsetAt_positionAt hlength, hcut⟩⟩
  · cases hc

lemma ofSegment?_eq_none_iff : ofSegment? source s = none ↔ s.kind.layer ≠ .comment := by
  rw [ofSegment?]
  cases s.kind <;> simp [Segment.Kind.layer]

lemma filterMap_ofSegment?_eq_nil {ss : List Segment} (h : ∀ t ∈ ss, t.kind.layer ≠ .comment) :
    ss.filterMap (ofSegment? source) = [] :=
  List.filterMap_eq_nil_iff.mpr fun t ht => ofSegment?_eq_none_iff.mpr (h t ht)

lemma forall₂_cuts (hl : lang.Legible) {ss : List Segment}
    (h : ∀ s ∈ ss, s ∈ lang.segments source.content 0) :
    List.Forall₂ (Cuts source lang) (ss.filter fun s => s.kind.layer = .comment)
      (ss.filterMap (ofSegment? source)) := by
  induction ss with
  | nil => exact .nil
  | cons s ss ih =>
    obtain ⟨hs, hss⟩ := List.forall_mem_cons.mp h
    cases hc : ofSegment? source s with
    | none =>
      rw [List.filterMap_cons_none hc,
        List.filter_cons_of_neg (by simpa using ofSegment?_eq_none_iff.mp hc)]
      exact ih hss
    | some c =>
      have hlayer : s.kind.layer = .comment := by
        by_contra hne
        rw [ofSegment?_eq_none_iff.mpr hne] at hc
        cases hc
      rw [List.filterMap_cons_some hc, List.filter_cons_of_pos (by simpa using hlayer)]
      exact .cons (cuts_of_ofSegment? hl hs hc) (ih hss)

inductive Move where
  | next
  | reset
deriving DecidableEq

def Move.asked (moves : List Move) : Nat := (moves.rtakeWhile (· = .next)).length

lemma Move.asked_next (moves : List Move) : asked (moves ++ [.next]) = asked moves + 1 := by
  rw [asked, List.rtakeWhile_concat_pos _ _ _ (by decide), List.length_append]
  rfl

lemma Move.asked_reset (moves : List Move) : asked (moves ++ [.reset]) = 0 := by
  rw [asked, List.rtakeWhile_concat_neg _ _ _ (by decide)]
  rfl

namespace Cursor

variable {r : Cursor}

def move (r : Cursor) : Move → Cursor
  | .next => r.next.2
  | .reset => r.reset

def ahead (r : Cursor) : List Comment :=
  (r.language.segments r.source.content r.offset).filterMap (ofSegment? r.source)

lemma next_spec (r : Cursor) :
    r.next.1 = r.ahead.head? ∧ r.next.2.ahead = r.ahead.tail ∧ r.next.2.source = r.source ∧
      r.next.2.language = r.language := by
  rw [next, ahead]
  split
  · next s hs =>
    obtain ⟨hlayer, before, after, hsplit, hbefore⟩ := List.find?_eq_some_iff_append.mp hs
    have hafter := Language.segments_of_append hsplit
    -- What lies before the first comment gives none, so the offset behind it loses nothing else.
    have hskip : before.filterMap (ofSegment? r.source) = [] :=
      filterMap_ofSegment?_eq_nil fun t ht => by simpa using hbefore t ht
    obtain ⟨c, hc⟩ : ∃ c, ofSegment? r.source s = some c := by
      rw [← Option.isSome_iff_exists, Option.isSome_iff_ne_none, ne_eq, ofSegment?_eq_none_iff]
      simpa using hlayer
    rw [hsplit, List.filterMap_append, hskip, List.nil_append, List.filterMap_cons_some hc]
    exact ⟨hc, by rw [ahead, ← hafter]; rfl, rfl, rfl⟩
  · next hnone =>
    rw [filterMap_ofSegment?_eq_nil fun t ht => by simpa using List.find?_eq_none.mp hnone t ht]
    refine ⟨rfl, ?_, rfl, rfl⟩
    rw [ahead, Language.segments_of_length_le (Nat.le_refl _)]
    rfl

lemma foldl_move (source : Source) (lang : Language) (moves : List Move) :
    let r := moves.foldl move (start source lang)
    r.source = source ∧ r.language = lang ∧
      r.ahead = (source.comments lang).drop (Move.asked moves) := by
  -- From the end of the moves, where the last reset is looked for.
  induction moves using List.reverseRecOn with
  | nil => exact ⟨rfl, rfl, rfl⟩
  | append_singleton moves m ih =>
    obtain ⟨hsource, hlang, hahead⟩ := ih
    rw [List.foldl_append, List.foldl_cons, List.foldl_nil]
    cases m with
    | next =>
      obtain ⟨-, hnext, hs, hl⟩ := next_spec (moves.foldl move (start source lang))
      refine ⟨hs.trans hsource, hl.trans hlang, ?_⟩
      rw [Move.asked_next, move, hnext, hahead, List.tail_drop]
    | reset =>
      refine ⟨hsource, hlang, ?_⟩
      rw [Move.asked_reset, move, reset, ahead, List.drop_zero, hsource, hlang]
      rfl

end Cursor

end Comment

namespace Source

/-- The comments are those that the lexer finds, in their order, each cut out by its span; read one by
one on demand, they come in that order, and from the first after a reset. -/
theorem comments_cut (tag content : Bytes) :
    let lang := Language.ofTag tag
    let source : Source := ⟨content⟩
    let comments := source.comments lang
    List.Forall₂ (Comment.Cuts source lang)
      ((lang.segments content 0).filter fun s => s.kind.layer = .comment) comments ∧
    (comments.Pairwise fun a b => a.span.stop ≤ b.span.start) ∧
    ∀ moves : List Comment.Move,
      ((moves.foldl Comment.Cursor.move (.start source lang)).next).1 =
        comments[Comment.Move.asked moves]? := by
  intro lang source comments
  have hl : lang.Legible := Language.legible_ofTag tag
  refine ⟨Comment.forall₂_cuts hl fun _ hs => hs, (source.inOrder_comments hl).sorted,
    fun moves => ?_⟩
  obtain ⟨-, -, hahead⟩ := Comment.Cursor.foldl_move source lang moves
  rw [(Comment.Cursor.next_spec _).1, hahead, List.head?_drop]

end Source

end TrustRegions
