import TrustRegions.Proofs.Tiling

/-! Where block comments end: a nested one at the closer behind a body in which each opener has its
closer, any other at the first closer there is. Opener and closer share bytes, so a body is read with
what follows it. -/

namespace TrustRegions

def Segment.Terminated (s : Segment) : Prop :=
  ∃ style d n, s.kind = .comment style d n ∧ s.start + d.length + n < s.stop

lemma Segment.terminated_iff {s : Segment} {style : CommentStyle} {d : Bytes} {n : Nat}
    (h : s.kind = .comment style d n) : s.Terminated ↔ s.start + d.length + n < s.stop := by
  refine ⟨?_, fun hlt => ⟨style, d, n, h, hlt⟩⟩
  rintro ⟨style', d', n', h', hlt⟩
  obtain ⟨-, rfl, rfl⟩ := Segment.Kind.comment.inj (h.symm.trans h')
  exact hlt

namespace BlockComment

inductive Body (b : BlockComment) : Bytes → Bytes → Prop
  | nil (rest : Bytes) : Body b [] rest
  | byte {c : UInt8} {body rest : Bytes} : ¬b.opener <+: c :: (body ++ rest) →
      ¬b.closer <+: c :: (body ++ rest) → Body b body rest → Body b (c :: body) rest
  | comment {inner body rest : Bytes} : Body b inner (b.closer ++ (body ++ rest)) →
      Body b body rest → Body b (b.opener ++ (inner ++ (b.closer ++ body))) rest

def Closes (b : BlockComment) (body text : Bytes) : Prop :=
  ∃ rest, text = body ++ (b.closer ++ rest) ∧ b.Body body (b.closer ++ rest)

inductive ClosesAll (b : BlockComment) : Nat → Bytes → Nat → Prop
  | last {body rest : Bytes} : b.Body body (b.closer ++ rest) →
      ClosesAll b 0 (body ++ (b.closer ++ rest)) body.length
  | inner {body text : Bytes} {depth n : Nat} : b.Body body (b.closer ++ text) →
      ClosesAll b depth text n →
      ClosesAll b (depth + 1) (body ++ (b.closer ++ text)) (n + b.closer.length + body.length)

structure Tells (b : BlockComment) : Prop where
  opener : b.opener ≠ []
  closer : b.closer ≠ []
  ne : b.opener.head? ≠ b.closer.head?

variable {b : BlockComment} {c : UInt8} {body text rest : Bytes} {depth n : Nat}

lemma Tells.not_prefix (hb : b.Tells) (rest : Bytes) : ¬b.opener <+: b.closer ++ rest := by
  intro h
  obtain ⟨x, opener, hopener⟩ := List.exists_cons_of_ne_nil hb.opener
  obtain ⟨y, closer, hcloser⟩ := List.exists_cons_of_ne_nil hb.closer
  rw [hopener, hcloser, List.cons_append, List.cons_prefix_cons] at h
  exact hb.ne (by rw [hopener, hcloser, h.1, List.head?_cons, List.head?_cons])

lemma closesAll_zero_iff : b.ClosesAll 0 text n ↔ ∃ body, b.Closes body text ∧ n = body.length := by
  constructor
  · rintro ⟨hbody⟩
    exact ⟨_, ⟨_, rfl, hbody⟩, rfl⟩
  · rintro ⟨body, ⟨rest, rfl, hbody⟩, rfl⟩
    exact .last hbody

lemma ClosesAll.byte (hopener : ¬b.opener <+: c :: text) (hcloser : ¬b.closer <+: c :: text)
    (h : b.ClosesAll depth text n) : b.ClosesAll depth (c :: text) (n + 1) := by
  cases h with
  | last hbody => exact .last (.byte hopener hcloser hbody)
  | inner hbody h => exact .inner (.byte hopener hcloser hbody) h

lemma ClosesAll.closer (h : b.ClosesAll depth text n) :
    b.ClosesAll (depth + 1) (b.closer ++ text) (n + b.closer.length) :=
  .inner (.nil _) h

lemma ClosesAll.opener (h : b.ClosesAll (depth + 1) text n) :
    b.ClosesAll depth (b.opener ++ text) (n + b.opener.length) := by
  -- The first comment that the text closes is the one opened in front, so both go into the next body.
  obtain _ | @⟨inner, text, _, n, hinner, h⟩ := h
  cases h with
  | @last body rest hbody =>
    have hlast := ClosesAll.last (.comment hinner hbody)
    simp only [List.append_assoc, List.length_append] at hlast ⊢
    convert hlast using 1
    omega
  | @inner body text depth n hbody h =>
    have hnext := ClosesAll.inner (.comment hinner hbody) h
    simp only [List.append_assoc, List.length_append] at hnext ⊢
    convert hnext using 1
    omega

end BlockComment

namespace Language

open BlockComment

variable {b : BlockComment} {c : UInt8} {body text rest w : Bytes} {depth n : Nat}

section Bodies

lemma bodyLength?_skip (b : BlockComment) (depth : Nat) (w text : Bytes) :
    bodyLength? b depth w.length (w ++ text) = (bodyLength? b depth 0 text).map (· + w.length) := by
  induction w with
  | nil => simp
  | cons c w ih =>
    rw [List.cons_append, List.length_cons, bodyLength?, if_pos (Nat.succ_pos _), Nat.add_sub_cancel,
      ih, Option.map_map]
    rfl

lemma bodyLength?_delimiter (b : BlockComment) (depth : Nat) (c : UInt8) (w text : Bytes) :
    (bodyLength? b depth ((c :: w).length - 1) (w ++ text)).map (· + 1) =
      (bodyLength? b depth 0 text).map (· + (c :: w).length) := by
  rw [List.length_cons, Nat.add_sub_cancel, bodyLength?_skip, Option.map_map]
  rfl

lemma bodyLength?_opener (hb : b.Tells) (hn : b.nested = true) (depth : Nat) (text : Bytes) :
    bodyLength? b depth 0 (b.opener ++ text) =
      (bodyLength? b (depth + 1) 0 text).map (· + b.opener.length) := by
  obtain ⟨c, w, hw⟩ := List.exists_cons_of_ne_nil hb.opener
  have hpre : b.opener.isPrefixOf (c :: (w ++ text)) = true := by
    rw [List.isPrefixOf_iff_prefix, hw]
    exact List.prefix_append _ _
  rw [hw, List.cons_append, bodyLength?, if_neg (Nat.lt_irrefl 0), if_pos ⟨hn, hpre⟩, hw,
    bodyLength?_delimiter]

lemma bodyLength?_closer (hb : b.Tells) (depth : Nat) (text : Bytes) :
    bodyLength? b depth 0 (b.closer ++ text) =
      if depth = 0 then some 0
      else (bodyLength? b (depth - 1) 0 text).map (· + b.closer.length) := by
  have hopener := hb.not_prefix text
  obtain ⟨c, w, hw⟩ := List.exists_cons_of_ne_nil hb.closer
  have hpre : b.closer.isPrefixOf (c :: (w ++ text)) = true := by
    rw [List.isPrefixOf_iff_prefix, hw]
    exact List.prefix_append _ _
  rw [hw, List.cons_append] at hopener
  rw [hw, List.cons_append, bodyLength?, if_neg (Nat.lt_irrefl 0),
    if_neg fun h => hopener (List.isPrefixOf_iff_prefix.mp h.2), if_pos hpre, hw, bodyLength?_delimiter]

lemma bodyLength?_byte (hopener : ¬b.opener <+: c :: text) (hcloser : ¬b.closer <+: c :: text)
    (depth : Nat) :
    bodyLength? b depth 0 (c :: text) = (bodyLength? b depth 0 text).map (· + 1) := by
  rw [bodyLength?, if_neg (Nat.lt_irrefl 0),
    if_neg fun h => hopener (List.isPrefixOf_iff_prefix.mp h.2),
    if_neg fun h => hcloser (List.isPrefixOf_iff_prefix.mp h)]

lemma bodyLength?_body (hb : b.Tells) (hn : b.nested = true) (h : b.Body body rest) (depth : Nat) :
    bodyLength? b depth 0 (body ++ rest) = (bodyLength? b depth 0 rest).map (· + body.length) := by
  induction h generalizing depth with
  | nil rest => simp
  | byte hopener hcloser _ ih =>
    rw [List.cons_append, bodyLength?_byte hopener hcloser, ih, Option.map_map]
    rfl
  | @comment inner body rest _ _ ihinner ihbody =>
    -- Within the comment the count is one higher, and its closer takes that back.
    have hinner := ihinner (depth + 1)
    rw [bodyLength?_closer hb, if_neg (Nat.succ_ne_zero depth), Nat.add_sub_cancel, ihbody] at hinner
    simp only [List.append_assoc, bodyLength?_opener hb hn, hinner, Option.map_map]
    congr 1
    funext k
    simp only [Function.comp_apply, List.length_append]
    omega

lemma bodyLength?_of_closesAll (hb : b.Tells) (hn : b.nested = true) (h : b.ClosesAll depth text n) :
    bodyLength? b depth 0 text = some n := by
  induction h with
  | last hbody =>
    rw [bodyLength?_body hb hn hbody, bodyLength?_closer hb, if_pos rfl]
    simp
  | inner hbody _ ih =>
    rw [bodyLength?_body hb hn hbody, bodyLength?_closer hb, if_neg (Nat.succ_ne_zero _),
      Nat.add_sub_cancel, ih]
    rfl

lemma closesAll_of_bodyLength? (hb : b.Tells) (hn : b.nested = true)
    (h : bodyLength? b depth 0 text = some n) : b.ClosesAll depth text n := by
  have hshorter {w rest : Bytes} (hne : w ≠ []) : rest.length < (w ++ rest).length := by
    have hpos := List.length_pos_of_ne_nil hne
    rw [List.length_append]
    omega
  -- On the length of the text: a delimiter in front is taken off as a whole, any other byte by itself.
  induction hk : text.length using Nat.strong_induction_on generalizing depth text n with
  | _ k ih =>
    subst hk
    by_cases hopener : b.opener <+: text
    · obtain ⟨rest, rfl⟩ := hopener
      rw [bodyLength?_opener hb hn] at h
      obtain ⟨m, hm, rfl⟩ := Option.map_eq_some_iff.mp h
      exact (ih _ (hshorter hb.opener) hm rfl).opener
    by_cases hcloser : b.closer <+: text
    · obtain ⟨rest, rfl⟩ := hcloser
      rw [bodyLength?_closer hb] at h
      cases depth with
      | zero =>
        obtain rfl := Option.some.inj h
        exact .last (.nil _)
      | succ depth =>
        obtain ⟨m, hm, rfl⟩ := Option.map_eq_some_iff.mp h
        exact (ih _ (hshorter hb.closer) hm rfl).closer
    cases text with
    | nil => simp [bodyLength?] at h
    | cons c text =>
      rw [bodyLength?_byte hopener hcloser] at h
      obtain ⟨m, hm, rfl⟩ := Option.map_eq_some_iff.mp h
      exact (ih _ (Nat.lt_succ_self _) hm rfl).byte hopener hcloser

lemma bodyLength?_first (hn : b.nested = false) (hcloser : b.closer <+: text.drop n)
    (hne : b.closer ≠ []) (hfirst : ∀ k < n, ¬b.closer <+: text.drop k) :
    bodyLength? b 0 0 text = some n := by
  induction text generalizing n with
  | nil => simp [hne] at hcloser
  | cons c text ih =>
    rw [bodyLength?, if_neg (Nat.lt_irrefl 0), if_neg fun h => by simp [hn] at h]
    cases n with
    | zero =>
      have hpre : b.closer.isPrefixOf (c :: text) = true := List.isPrefixOf_iff_prefix.mpr hcloser
      rw [if_pos hpre, if_pos rfl]
    | succ n =>
      have hnot : ¬b.closer.isPrefixOf (c :: text) = true := fun h =>
        hfirst 0 (Nat.succ_pos n) (List.isPrefixOf_iff_prefix.mp h)
      rw [if_neg hnot, ih hcloser fun k hk => hfirst (k + 1) (Nat.succ_lt_succ hk)]
      rfl

end Bodies

section Segments

variable {lang : Language} {content : Bytes} {o : Nat} {s : Segment} {style : CommentStyle} {d : Bytes}

lemma segmentAt_of_mem (hl : lang.Legible) (hs : s ∈ lang.segments content o)
    (hkind : s.kind = .comment style d n) :
    lang.segmentAt (startsLine content s.start) (content.drop s.start) =
      (.comment style d n, s.length) := by
  obtain ⟨-, -, heq⟩ := mem_segments hs
  have hlooks := lang.looks_segmentAt hl (startsLine content s.start) (content.drop s.start)
  generalize hfound : lang.segmentAt (startsLine content s.start) (content.drop s.start) = found
    at hlooks
  obtain ⟨kind, m⟩ := found
  obtain rfl : kind = .comment style d n := by
    rw [heq, firstSegment, hfound] at hkind
    exact hkind
  have hstop := congrArg Segment.stop
    (heq.trans (firstSegment_eq hfound hlooks.1 (segmentAt_comment hfound).2.2))
  rw [Segment.length, hstop, Nat.add_sub_cancel_left]

lemma exists_blockComment (hl : lang.Legible) (hs : s ∈ lang.segments content o)
    (hkind : s.kind = .comment .block d n) :
    ∃ b ∈ lang.block, d = b.opener ∧ b.opener <+: content.drop s.start ∧
      blockBody b (content.drop (s.start + d.length)) = (n, s.stop - (s.start + d.length + n)) ∧
      s.start + d.length + n ≤ s.stop := by
  have hlt := start_lt_stop hs
  have hfound := segmentAt_of_mem hl hs hkind
  have hopens := lang.opens_openingAt (startsLine content s.start) (content.drop s.start)
  have hle := (segmentAt_comment hfound).2.1
  rw [Segment.length] at hle hfound
  rw [segmentAt] at hfound
  cases ho : lang.openingAt (startsLine content s.start) (content.drop s.start) with
  | code => simp [ho] at hfound
  | string => simp [ho] at hfound
  | lineComment l => simp [ho] at hfound
  | blockComment b =>
    rw [ho] at hopens hfound
    simp only [Prod.mk.injEq, Segment.Kind.comment.injEq, true_and, List.drop_drop] at hfound
    obtain ⟨⟨rfl, rfl⟩, hlength⟩ := hfound
    refine ⟨b, hopens.1, rfl, hopens.2, Prod.ext rfl ?_, by omega⟩
    dsimp only
    omega

lemma tells_ofTag (tag : Bytes) :
    ∀ b ∈ (ofTag tag).block, b.nested = true → b.Tells ∧ b.atLineStart = false := by
  have hall : ∀ l ∈ generic :: known, ∀ b ∈ l.block, b.nested = true →
      (b.opener ≠ [] ∧ b.closer ≠ [] ∧ b.opener.head? ≠ b.closer.head?) ∧ b.atLineStart = false := by
    decide +kernel
  intro b hb hn
  obtain ⟨⟨hopener, hcloser, hne⟩, hstart⟩ := hall _ (ofTag_mem tag) b hb hn
  exact ⟨⟨hopener, hcloser, hne⟩, hstart⟩

lemma stop_of_bodyLength? (hl : lang.Legible) (hs : s ∈ lang.segments content o)
    (hkind : s.kind = .comment .block d n) :
    ∃ b ∈ lang.block, d = b.opener ∧ (b.atLineStart = false →
      let start := s.start + d.length
      (∀ k, bodyLength? b 0 0 (content.drop start) = some k →
        n = k ∧ s.stop = start + k + b.closer.length) ∧
      (bodyLength? b 0 0 (content.drop start) = none →
        start + n = content.length ∧ s.stop = content.length)) := by
  obtain ⟨b, hb, rfl, hpre, hbody, hle⟩ := exists_blockComment hl hs hkind
  refine ⟨b, hb, rfl, fun hstart => ?_⟩
  have hopener := hpre.length_le
  have hlt := start_lt_stop hs
  have hlength := stop_le_length hs
  rw [List.length_drop] at hopener
  rw [blockBody, if_neg (by simp [hstart])] at hbody
  constructor
  · intro k hk
    simp only [hk, Prod.mk.injEq] at hbody
    omega
  · intro hnone
    simp only [hnone, List.length_drop, Prod.mk.injEq] at hbody
    omega

/-- A nested comment ends with the closer behind a body of whole comments and other bytes, any other
that need not stand at the start of a line with the first closer, and each with the content if there
is no such closer. -/
theorem block_comment_closes (tag content : Bytes) (o : Nat) :
    let lang := ofTag tag
    ∀ s ∈ lang.segments content o, ∀ d n, s.kind = .comment .block d n →
      ∃ b ∈ lang.block, d = b.opener ∧
        let start := s.start + d.length
        let text := content.drop start
        (b.nested = true →
          (s.Terminated ↔ ∃ body, b.Closes body text) ∧
          (∀ body, b.Closes body text →
            n = body.length ∧ s.stop = start + body.length + b.closer.length) ∧
          (¬s.Terminated → start + n = content.length ∧ s.stop = content.length)) ∧
        (b.nested = false → b.atLineStart = false →
          (∀ k, b.closer <+: text.drop k → (∀ i < k, ¬b.closer <+: text.drop i) →
            n = k ∧ s.stop = start + k + b.closer.length) ∧
          ((∀ k, ¬b.closer <+: text.drop k) → start + n = content.length ∧ s.stop = content.length)) := by
  intro lang s hs d n hkind
  have hl : lang.Legible := legible_ofTag tag
  obtain ⟨b, hb, rfl, hstop⟩ := stop_of_bodyLength? hl hs hkind
  have hterminated := Segment.terminated_iff hkind
  refine ⟨b, hb, rfl, fun hn => ?_, fun hn hstart => ?_⟩
  · obtain ⟨htells, hstart⟩ := tells_ofTag tag b hb hn
    obtain ⟨hsome, hnone⟩ := hstop hstart
    have hcloses : ∀ body, b.Closes body (content.drop (s.start + b.opener.length)) →
        n = body.length ∧ s.stop = s.start + b.opener.length + body.length + b.closer.length := by
      intro body hbody
      exact hsome _ (bodyLength?_of_closesAll htells hn (closesAll_zero_iff.mpr ⟨body, hbody, rfl⟩))
    have hopen : (¬∃ body, b.Closes body (content.drop (s.start + b.opener.length))) →
        s.start + b.opener.length + n = content.length ∧ s.stop = content.length := by
      intro hno
      refine hnone (Option.eq_none_iff_forall_ne_some.mpr fun k hk => hno ?_)
      obtain ⟨body, hbody, -⟩ := closesAll_zero_iff.mp (closesAll_of_bodyLength? htells hn hk)
      exact ⟨body, hbody⟩
    have hiff : s.Terminated ↔ ∃ body, b.Closes body (content.drop (s.start + b.opener.length)) := by
      -- A comment without such a body would reach the end of the content, and nothing comes behind it.
      rw [hterminated]
      constructor
      · intro hlt
        by_contra hno
        have hends := hopen hno
        omega
      · rintro ⟨body, hbody⟩
        have hends := hcloses body hbody
        have hpos := List.length_pos_of_ne_nil htells.closer
        omega
    exact ⟨hiff, hcloses, fun hno => hopen (mt hiff.mpr hno)⟩
  · obtain ⟨hsome, hnone⟩ := hstop hstart
    refine ⟨fun k hk hfirst => hsome k ?_, fun hno => hnone ?_⟩
    · exact bodyLength?_first hn hk (hl.block b hb).2.1 hfirst
    · exact Option.eq_none_iff_forall_ne_some.mpr fun k hk => hno k (closer_of_bodyLength? hk)

def nestedComments : Bytes := ascii "x /*/ /**/ **/ y"

theorem block_comment_closes_nestedComments :
    let lang := ofTag (ascii "rust")
    let b : BlockComment := { slashStar with nested := true }
    let s : Segment := ⟨.comment .block (ascii "/*") 8, 2, 14⟩
    s ∈ lang.segments nestedComments 0 ∧ s.kind = .comment .block b.opener 8 ∧ b ∈ lang.block ∧
      b.nested = true ∧ ∃ body, b.Closes body (ascii "/ /**/ **/ y") ∧ body.length = 8 := by
  intro lang b s
  have hs : s ∈ lang.segments nestedComments 0 := by decide +kernel
  have hblock : lang.block = some b := by decide +kernel
  obtain ⟨b', hb', -, hnested, -⟩ :=
    block_comment_closes (ascii "rust") nestedComments 0 s hs b.opener 8 rfl
  obtain rfl : b = b' := Option.some.inj (hblock.symm.trans hb')
  obtain ⟨hterminated, hcloses, -⟩ := hnested rfl
  obtain ⟨body, hbody⟩ := hterminated.mp ⟨.block, b.opener, 8, rfl, by decide⟩
  have htext : nestedComments.drop (s.start + b.opener.length) = ascii "/ /**/ **/ y" := by decide
  exact ⟨hs, rfl, hblock, rfl, body, htext ▸ hbody, (hcloses body hbody).1.symm⟩

-- Where comments do not nest, the first closer ends the comment; in both cases it cannot share the star
-- of the opener.
example : (ofTag (ascii "c")).segments (ascii "/*/ /* */ */") 0 =
    [⟨.comment .block (ascii "/*") 5, 0, 9⟩, ⟨.code, 9, 12⟩] := by
  decide +kernel

end Segments

end Language

end TrustRegions
