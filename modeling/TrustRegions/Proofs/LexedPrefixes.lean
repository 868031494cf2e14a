import Mathlib.Data.List.Find
import TrustRegions.Proofs.IndentedScopes

/-! What the lexer finds before a blank does not depend on what is behind it: no delimiter has a blank in
it, and a string or comment that ends before the blank has been read to its end. -/

namespace TrustRegions

open Bytes

namespace Bytes

def EndsBlank (x : Bytes) : Prop := ∃ c, x.getLast? = some c ∧ isBlank c = true

variable {c q : UInt8} {x w R R' : Bytes} {k n : Nat}

lemma EndsBlank.of_cons (h : EndsBlank (c :: x)) (hx : x ≠ []) : EndsBlank x := by
  obtain ⟨b, hb, hblank⟩ := h
  refine ⟨b, ?_, hblank⟩
  rwa [List.getLast?_cons_of_ne_nil hx] at hb

lemma EndsBlank.drop (h : EndsBlank x) (hk : k < x.length) : EndsBlank (x.drop k) := by
  obtain ⟨b, hb, hblank⟩ := h
  exact ⟨b, by rw [List.getLast?_drop, if_neg (by omega), hb], hblank⟩

lemma EndsBlank.length_pos (h : EndsBlank x) : 0 < x.length := by
  obtain ⟨b, hb, -⟩ := h
  rw [List.length_pos_iff]
  rintro rfl
  cases hb

lemma EndsBlank.prefix_append_iff (h : EndsBlank x) (hw : IsWord w) (R : Bytes) :
    w <+: x ++ R ↔ w <+: x := by
  refine ⟨fun hpre => ?_, fun hpre => hpre.trans (List.prefix_append _ _)⟩
  rcases Nat.lt_or_ge w.length x.length with hlt | hle
  · exact List.prefix_of_prefix_length_le hpre (List.prefix_append _ _) hlt.le
  · obtain ⟨b, hb, hblank⟩ := h
    have hx := List.prefix_of_prefix_length_le (List.prefix_append x R) hpre hle
    have hshows := hw.2 b (hx.subset (List.mem_of_getLast? hb))
    rw [hblank] at hshows
    cases hshows

lemma EndsBlank.isPrefixOf_append (h : EndsBlank x) (hw : IsWord w) (R : Bytes) :
    w.isPrefixOf (x ++ R) = w.isPrefixOf x := by
  rw [Bool.eq_iff_iff, List.isPrefixOf_iff_prefix, List.isPrefixOf_iff_prefix, h.prefix_append_iff hw]

lemma takeWhile_append_of_lt {p : UInt8 → Bool} (h : ((x ++ R).takeWhile p).length < x.length)
    (R' : Bytes) : (x ++ R').takeWhile p = (x ++ R).takeWhile p := by
  induction x with
  | nil => exact absurd h (Nat.not_lt_zero _)
  | cons c x ih =>
    rw [List.cons_append, List.takeWhile_cons] at h ⊢
    rw [List.cons_append, List.takeWhile_cons]
    split
    · next hc => rw [ih (by simpa [hc] using h)]
    · rfl

end Bytes

namespace Language

variable {lang : Language} {b : Bool} {c q : UInt8} {x R : Bytes} {d : BlockComment}
  {depth skip n : Nat}

lemma openingAt_append (hl : lang.Legible) (hchar : lang.charLiterals = false) (hx : EndsBlank x)
    (b : Bool) (R : Bytes) : lang.openingAt b (x ++ R) = lang.openingAt b x := by
  have hblock : (lang.block.filter fun d => d.opener.isPrefixOf (x ++ R) && (!d.atLineStart || b)) =
      lang.block.filter fun d => d.opener.isPrefixOf x && (!d.atLineStart || b) := by
    cases hd : lang.block with
    | none => rfl
    | some d => rw [Option.filter_some, Option.filter_some, hx.isPrefixOf_append (hl.block d hd).1]
  have hline : (lang.lineComments.find? fun d => d.isPrefixOf (x ++ R)) =
      lang.lineComments.find? fun d => d.isPrefixOf x := by
    refine List.find?_congr fun d hd => ?_
    exact hx.isPrefixOf_append (hl.lineComments d hd) R
  obtain ⟨c, x, rfl⟩ := List.exists_cons_of_ne_nil (List.ne_nil_of_length_pos hx.length_pos)
  unfold openingAt
  rw [hblock, hline]
  simp only [List.cons_append, hchar, Bool.false_eq_true, and_false, if_false]

lemma quotedLength_append {raw multiline : Bool}
    (h : quotedLength q raw multiline (x ++ R) < x.length) (R' : Bytes) :
    quotedLength q raw multiline (x ++ R') = quotedLength q raw multiline (x ++ R) := by
  fun_induction quotedLength q raw multiline x with
  | case1 => exact absurd h (Nat.not_lt_zero _)
  | case2 c hc =>
    rw [List.singleton_append, quotedLength.eq_def] at h
    simp only [hc, if_true] at h
    split at h <;> simp at h
  | case3 c hc a x ih =>
    simp only [List.cons_append, quotedLength_escaped hc, List.length_cons] at h ⊢
    rw [ih (by omega)]
  | case4 x hc => rw [List.cons_append, List.cons_append, quotedLength_cons hc, quotedLength_cons hc,
      if_pos rfl, if_pos rfl]
  | case5 c x hc hq hn => rw [List.cons_append, List.cons_append, quotedLength_cons hc,
      quotedLength_cons hc, if_neg hq, if_neg hq, if_pos hn, if_pos hn]
  | case6 c x hc hq hn ih =>
    simp only [List.cons_append, quotedLength_cons hc, if_neg hq, if_neg hn, List.length_cons] at h ⊢
    rw [ih (by omega)]

lemma tripleQuotedLength_append (hq : isBlank q = false) (hx : EndsBlank x)
    (h : tripleQuotedLength q (x ++ R) < x.length) (R' : Bytes) :
    tripleQuotedLength q (x ++ R') = tripleQuotedLength q (x ++ R) := by
  have hword : IsWord [q, q, q] := ⟨List.cons_ne_nil _ _, by simp [hq]⟩
  fun_induction tripleQuotedLength q x with
  | case1 => exact absurd h (Nat.not_lt_zero _)
  | case2 =>
    rw [List.singleton_append, tripleQuotedLength.eq_def] at h
    simp only [if_true] at h
    split at h <;> simp at h
  | case3 a x ih =>
    simp only [List.cons_append, tripleQuotedLength, if_true, List.length_cons] at h ⊢
    have hne : x ≠ [] := by
      rintro rfl
      simp at h
    rw [ih ((hx.of_cons (List.cons_ne_nil _ _)).of_cons hne) (by omega)]
  | case4 c x hc hclose =>
    have hclose {R : Bytes} : [q, q, q].isPrefixOf (c :: (x ++ R)) = true :=
      (hx.isPrefixOf_append hword R).trans hclose
    rw [List.cons_append, List.cons_append, tripleQuotedLength_cons hc, tripleQuotedLength_cons hc,
      if_pos hclose, if_pos hclose]
  | case5 c x hc hopen ih =>
    have hopen {R : Bytes} : ¬[q, q, q].isPrefixOf (c :: (x ++ R)) = true := by
      rw [← List.cons_append, hx.isPrefixOf_append hword]
      exact hopen
    simp only [List.cons_append, tripleQuotedLength_cons hc, if_neg hopen, List.length_cons] at h ⊢
    have hne : x ≠ [] := by
      rintro rfl
      simp at h
    rw [ih (hx.of_cons hne) (by omega)]

lemma bodyLength?_append (hd : IsWord d.opener ∧ IsWord d.closer) (hx : EndsBlank x)
    (h : bodyLength? d depth skip (x ++ R) = some n) (hn : n + d.closer.length ≤ x.length) (R' : Bytes) :
    bodyLength? d depth skip (x ++ R') = some n := by
  have hcloser := List.length_pos_of_ne_nil hd.2.1
  induction x generalizing depth skip n with
  | nil =>
    rw [List.length_nil] at hn
    omega
  | cons c x ih =>
    have hnext {depth skip : Nat} (h : (bodyLength? d depth skip (x ++ R)).map (· + 1) = some n) :
        (bodyLength? d depth skip (x ++ R')).map (· + 1) = some n := by
      obtain ⟨m, hm, rfl⟩ := Option.map_eq_some_iff.mp h
      rw [List.length_cons] at hn
      have hne : x ≠ [] := by
        rintro rfl
        rw [List.length_nil] at hn
        omega
      rw [ih (hx.of_cons hne) hm (by omega)]
      rfl
    rw [List.cons_append, bodyLength?, ← List.cons_append, hx.isPrefixOf_append hd.1,
      hx.isPrefixOf_append hd.2] at h ⊢
    split
    · next hskip => exact hnext (by rwa [if_pos hskip] at h)
    next hskip =>
    rw [if_neg hskip] at h
    split
    · next hopen => exact hnext (by rwa [if_pos hopen] at h)
    next hopen =>
    rw [if_neg hopen] at h
    split
    · next hclose =>
      rw [if_pos hclose] at h
      split
      · next hdepth => rwa [if_pos hdepth] at h
      · next hdepth => exact hnext (by rwa [if_neg hdepth] at h)
    · next hclose => exact hnext (by rwa [if_neg hclose] at h)

lemma bodyLinesLength?_append {closer : Bytes} (hw : IsWord closer) (hx : EndsBlank x)
    (h : bodyLinesLength? closer (x ++ R) = some n) (hn : n < x.length) (R' : Bytes) :
    bodyLinesLength? closer (x ++ R') = some n := by
  induction x generalizing n with
  | nil => exact absurd hn (Nat.not_lt_zero _)
  | cons c x ih =>
    rw [List.cons_append, bodyLinesLength?] at h
    rw [List.length_cons] at hn
    have hpos : 0 < n := by
      split at h
      · rw [← Option.some.inj h]
        exact Nat.one_pos
      · obtain ⟨m, -, rfl⟩ := Option.map_eq_some_iff.mp h
        exact Nat.succ_pos m
    have hx : EndsBlank x := hx.of_cons (List.ne_nil_of_length_pos (by omega))
    rw [List.cons_append, bodyLinesLength?, hx.isPrefixOf_append hw]
    rw [hx.isPrefixOf_append hw] at h
    split
    · next hclose => rwa [if_pos hclose] at h
    · next hclose =>
      rw [if_neg hclose] at h
      obtain ⟨m, hm, rfl⟩ := Option.map_eq_some_iff.mp h
      rw [ih hx hm (by omega)]
      rfl

lemma blockBody_append (hd : IsWord d.opener ∧ IsWord d.closer) (hx : EndsBlank x)
    (h : (blockBody d (x ++ R)).1 + (blockBody d (x ++ R)).2 < x.length) (R' : Bytes) :
    blockBody d (x ++ R') = blockBody d (x ++ R) := by
  rw [blockBody] at h
  rw [blockBody, blockBody]
  split
  · next hline =>
    rw [if_pos hline] at h
    cases hn : bodyLinesLength? d.closer (x ++ R) with
    | none =>
      simp only [hn, List.length_append] at h
      omega
    | some n =>
      simp only [hn] at h
      have hlt : n < x.length := by omega
      have hdrop (R : Bytes) : (x ++ R).drop n = x.drop n ++ R :=
        List.drop_append_of_le_length hlt.le
      rw [bodyLinesLength?_append hd.2 hx hn hlt R']
      simp only [restOfLine, hdrop] at h ⊢
      rw [takeWhile_append_of_lt (R := R) (by rw [List.length_drop]; omega)]
  · next hline =>
    rw [if_neg hline] at h
    cases hn : bodyLength? d 0 0 (x ++ R) with
    | none =>
      simp only [hn, List.length_append] at h
      omega
    | some n =>
      simp only [hn] at h
      rw [bodyLength?_append hd hx hn h.le R']

lemma stringLength_append (hq : isBlank q = false) (hx : EndsBlank (q :: x))
    (h : lang.stringLength (q :: x ++ R) < (q :: x).length) (R' : Bytes) :
    lang.stringLength (q :: x ++ R') = lang.stringLength (q :: x ++ R) := by
  have hword : IsWord [q, q] := ⟨List.cons_ne_nil _ _, by simp [hq]⟩
  have hne : x ≠ [] := by
    rintro rfl
    obtain ⟨b, hb, hblank⟩ := hx
    obtain rfl : q = b := by simpa using hb
    rw [hq] at hblank
    cases hblank
  have hx := hx.of_cons hne
  rw [List.cons_append, List.cons_append, stringLength, stringLength, hx.isPrefixOf_append hword,
    hx.isPrefixOf_append hword]
  rw [List.cons_append, stringLength, hx.isPrefixOf_append hword, List.length_cons] at h
  split
  · next htriple =>
    rw [if_pos htriple] at h
    have hpre := List.isPrefixOf_iff_prefix.mp htriple.2
    have hle : 2 ≤ x.length := hpre.length_le
    have hdrop (R : Bytes) : (x ++ R).drop 2 = x.drop 2 ++ R := List.drop_append_of_le_length hle
    rw [hdrop] at h
    rw [hdrop, hdrop, tripleQuotedLength_append (R := R) hq (hx.drop (by omega))
      (by rw [List.length_drop]; omega)]
  · next htriple =>
    rw [if_neg htriple] at h
    dsimp only at h ⊢
    rw [quotedLength_append (R := R) (by omega)]

lemma isBlank_of_opens_string {text : Bytes} (hl : lang.Legible) (h : lang.Opens text .string) :
    ∃ q rest, text = q :: rest ∧ isBlank q = false := by
  obtain ⟨q, rest, rfl, hq | rfl⟩ := h
  · exact ⟨q, rest, rfl, (hl.quotes q hq).1⟩
  · exact ⟨_, rest, rfl, by decide⟩

lemma segmentAt_append (hl : lang.Legible) (hchar : lang.charLiterals = false) (hx : EndsBlank x)
    (hcode : lang.openingAt b x ≠ .code) (h : (lang.segmentAt b (x ++ R)).2 < x.length) (R' : Bytes) :
    lang.segmentAt b (x ++ R') = lang.segmentAt b (x ++ R) := by
  have hopens := lang.opens_openingAt b x
  have hdrop {w : Bytes} (hw : w <+: x) (R : Bytes) : (x ++ R).drop w.length = x.drop w.length ++ R :=
    List.drop_append_of_le_length hw.length_le
  rw [segmentAt, openingAt_append hl hchar hx] at h
  rw [segmentAt, segmentAt, openingAt_append hl hchar hx, openingAt_append hl hchar hx]
  cases ho : lang.openingAt b x with
  | code => exact absurd ho hcode
  | string =>
    simp only [ho] at hopens h ⊢
    obtain ⟨q, x, rfl, hq⟩ := isBlank_of_opens_string hl hopens
    rw [stringLength_append hq hx h]
  | lineComment d =>
    simp only [ho] at hopens h ⊢
    rw [hdrop hopens.2] at h
    rw [hdrop hopens.2, hdrop hopens.2,
      takeWhile_append_of_lt (R := R) (by rw [List.length_drop]; omega)]
  | blockComment d =>
    simp only [ho] at hopens h ⊢
    rw [hdrop hopens.2] at h
    have hle := hopens.2.length_le
    have hx := hx.drop (show d.opener.length < x.length by omega)
    rw [hdrop hopens.2, hdrop hopens.2,
      blockBody_append (R := R) (hl.block d hopens.1) hx (by rw [List.length_drop]; omega)]

section Prefix

variable {A R R' : Bytes} {o k : Nat} {g s : Segment}

lemma startsLine_append (hk : k ≤ A.length) (R : Bytes) : startsLine (A ++ R) k = startsLine A k := by
  rcases Nat.eq_zero_or_pos k with rfl | hpos
  · rfl
  · rw [startsLine, startsLine, List.getElem?_append_left (by omega)]

lemma length_lt_of_mem (hl : lang.Legible) (hA : EndsBlank A)
    (hR : ∃ c, R.head? = some c ∧ isBlank c = false)
    (hs : s ∈ lang.segments (A ++ R) o) (hkind : s.kind.layer ≠ .code) (hlt : s.start < A.length)
    (hstop : s.stop ≤ A.length) : s.length < (A.drop s.start).length := by
  obtain ⟨c, hc, hshows⟩ := hR
  obtain ⟨b, hb, hblank⟩ := hA
  have hstart := start_lt_stop hs
  have hlength : s.length ≤ (A.drop s.start).length := by
    rw [Segment.length, List.length_drop]
    omega
  by_contra hge
  have heq : s.length = (A.drop s.start).length := by omega
  have hends := (looks_of_mem hl hs).endsAt hkind
  rw [List.drop_append_of_le_length hlt.le, heq] at hends
  rcases hends with hover | hnext | ⟨x, -, hx, hxs⟩
  · rw [List.length_append] at hover
    rw [List.eq_nil_of_length_eq_zero (by omega : R.length = 0)] at hc
    cases hc
  · rw [List.getElem?_append_right le_rfl, Nat.sub_self, ← List.head?_eq_getElem?, hc] at hnext
    rw [Option.some.inj hnext] at hshows
    exact absurd hshows (by decide)
  · have hpos : 0 < (A.drop s.start).length := by rw [List.length_drop]; omega
    rw [List.getElem?_append_left (by omega), ← List.getLast?_eq_getElem?, List.getLast?_drop,
      if_neg (by omega), hb] at hx
    rw [← Option.some.inj hx, hblank] at hxs
    cases hxs

lemma opensAt_append (hl : lang.Legible) (hchar : lang.charLiterals = false) (hA : EndsBlank A)
    (hk : k < A.length) (R R' : Bytes) : lang.opensAt (A ++ R') k = lang.opensAt (A ++ R) k := by
  have hx := hA.drop hk
  rw [opensAt, opensAt, List.drop_append_of_le_length hk.le, List.drop_append_of_le_length hk.le,
    startsLine_append hk.le, startsLine_append hk.le, openingAt_append hl hchar hx,
    openingAt_append hl hchar hx]

lemma first_append (hl : lang.Legible) (hchar : lang.charLiterals = false) (hA : EndsBlank A)
    (ho : o < A.length) (hcode : lang.opensAt (A ++ R) o ≠ .code)
    (h : (lang.firstTaken (A ++ R) o).length < (A.drop o).length) (R' : Bytes) :
    lang.firstTaken (A ++ R') o = lang.firstTaken (A ++ R) o ∧
      lang.firstSegment (A ++ R') o = lang.firstSegment (A ++ R) o := by
  have hx := hA.drop ho
  rw [opensAt, List.drop_append_of_le_length ho.le, openingAt_append hl hchar hx] at hcode
  rw [firstTaken, List.length_take, List.drop_append_of_le_length ho.le, List.length_append] at h
  have hsegment : lang.segmentAt (startsLine (A ++ R') o) ((A ++ R').drop o) =
      lang.segmentAt (startsLine (A ++ R) o) ((A ++ R).drop o) := by
    rw [startsLine_append ho.le, List.drop_append_of_le_length ho.le, startsLine_append ho.le,
      List.drop_append_of_le_length ho.le]
    rw [startsLine_append ho.le] at h hcode
    exact segmentAt_append hl hchar hx hcode (by omega) R'
  have htaken : lang.firstTaken (A ++ R') o = lang.firstTaken (A ++ R) o := by
    rw [firstTaken, firstTaken, hsegment, List.drop_append_of_le_length ho.le,
      List.drop_append_of_le_length ho.le, List.take_append_of_le_length (by omega),
      List.take_append_of_le_length (by omega)]
  exact ⟨htaken, by rw [firstSegment, firstSegment, hsegment, htaken]⟩

lemma layers_append (hl : lang.Legible) (hchar : lang.charLiterals = false) (hA : EndsBlank A)
    (hR : ∃ c, R.head? = some c ∧ isBlank c = false) (R' : Bytes)
    (hg : g ∈ lang.segments (A ++ R) o) (hstart : g.start = A.length) :
    ∃ T, lang.layers (A ++ R) o = T ++ lang.layers (A ++ R) A.length ∧
      lang.layers (A ++ R') o = T ++ lang.layers (A ++ R') A.length := by
  induction hss : lang.segments (A ++ R) o generalizing o with
  | nil => rw [hss] at hg; cases hg
  | cons s ss ih =>
    have hs : s ∈ lang.segments (A ++ R) o := hss ▸ List.mem_cons_self
    obtain ⟨ho, hfirst, rfl⟩ := segments_eq_cons hss
    have hso : s.start = o := by rw [hfirst]; rfl
    rw [hss] at hg
    rcases List.mem_cons.mp hg with rfl | hg
    · exact ⟨[], by rw [← hstart, hso]; rfl, by rw [← hstart, hso]; rfl⟩
    have hstop : s.stop ≤ A.length := hstart ▸ (mem_segments hg).1
    have hlt := start_lt_stop hs
    obtain ⟨T, hT, hT'⟩ := ih hg rfl
    have hlayers := layers_segment hs
    rw [hso] at hlayers hlt
    have htake {R : Bytes} : ((A ++ R).drop o).take s.length = (A.drop o).take s.length := by
      rw [List.drop_append_of_le_length (by omega), List.take_append_of_le_length]
      rw [Segment.length, List.length_drop]
      omega
    refine ⟨((A.drop o).take s.length).map (·, s.kind.layer) ++ T, ?_, ?_⟩
    · rw [hlayers, htake, hT, List.append_assoc]
    by_cases hcode : s.kind = .code
    · have hopens (k : Nat) (hk : o ≤ k) (hks : k < o + s.length) :
          lang.openingAt (startsLine (A ++ R') k) ((A ++ R').drop k) = .code := by
        have hkl : k < s.stop := by rw [Segment.length] at hks; omega
        rw [← opensAt, opensAt_append hl hchar hA (by omega) R R']
        exact opensAt_of_mem_code hs hcode (hso ▸ hk) hkl
      have hlength : o + s.length = s.stop := by rw [Segment.length]; omega
      rw [layers_of_codes (by rw [hlength, List.length_append]; omega) hopens, htake, hlength, hT', hcode,
        List.append_assoc]
      rfl
    · have hkind : s.kind.layer ≠ .code := by
        cases hk : s.kind <;> simp [hk, Segment.Kind.layer] at hcode ⊢
      have hshort := length_lt_of_mem hl hA hR hs hkind (by omega) hstop
      have hopens : lang.opensAt (A ++ R) o ≠ .code := by
        rwa [Ne, ← kind_firstSegment_eq_code_iff, ← hfirst]
      have htaken : (lang.firstTaken (A ++ R) o).length = s.length := by
        rw [hfirst]
        exact (Nat.add_sub_cancel_left _ _).symm
      rw [hso, ← htaken] at hshort
      obtain ⟨hsame, hsegment⟩ := first_append hl hchar hA (by omega) hopens hshort R'
      have hbytes : lang.firstTaken (A ++ R) o = (A.drop o).take s.length := by
        rw [← htake, ← htaken, drop_eq_firstTaken_append lang, List.take_left]
      rw [layers_of_lt (by rw [List.length_append]; omega), hsame, hsegment, ← hfirst, hT', hbytes,
        List.append_assoc]

end Prefix

end Language

end TrustRegions
