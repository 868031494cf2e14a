import Mathlib.Data.List.Find
import TrustRegions.Proofs.LineEndings
import TrustRegions.Proofs.Tiling

/-! The segments of a content whose lines end with a carriage return and a newline. They are those of the
content with plain newlines, but for the carriage return behind what ends at the end of its line. -/

namespace TrustRegions

open Bytes

namespace Language

variable {lang : Language} {t : Bytes} {b : Bool} {q c : UInt8} {d : BlockComment}

section Openings

def WholeCharacters (t : Bytes) : Prop :=
  ∀ k c, t[k]? = some apostrophe → t[k + 1]? = some c →
    newline ∉ (t.drop (k + 2)).take (characterLength c - 1)

lemma WholeCharacters.drop (h : WholeCharacters t) (n : Nat) : WholeCharacters (t.drop n) := by
  intro k c hk hc
  rw [List.getElem?_drop] at hk hc
  rw [List.drop_drop]
  exact h (n + k) c hk hc

lemma isSome_escapeLength?_crlf (t : Bytes) :
    (escapeLength? (crlf t)).isSome = (escapeLength? t).isSome := by
  have htake : ∀ (n : Nat) (t : Bytes), ∃ r, (((crlf t).take n).takeWhile (· ≠ newline)) =
      (t.take n).takeWhile (· ≠ newline) ++ r ∧ (r = [] ∨ r = [carriageReturn]) := by
    intro n t
    induction t generalizing n with
    | nil => exact ⟨[], by simp, Or.inl rfl⟩
    | cons c t ih =>
      cases n with
      | zero => exact ⟨[], rfl, Or.inl rfl⟩
      | succ n =>
        by_cases hc : c = newline
        · refine ⟨[carriageReturn], ?_, Or.inr rfl⟩
          subst hc
          rw [crlf_newline, List.take_succ_cons, List.takeWhile_cons_of_pos (by decide)]
          cases n <;> simp
        · obtain ⟨r, hr, hcases⟩ := ih n
          refine ⟨r, ?_, hcases⟩
          rw [crlf_cons hc, List.take_succ_cons, List.take_succ_cons,
            List.takeWhile_cons_of_pos (by simpa using hc),
            List.takeWhile_cons_of_pos (by simpa using hc), hr, List.cons_append]
  obtain ⟨r, hr, hcases⟩ := htake 12 t
  have hreturn : (carriageReturn == apostrophe) = false := by decide
  rw [escapeLength?, escapeLength?, hr, Option.isSome_map, Option.isSome_map]
  rcases hcases with rfl | rfl
  · rw [List.append_nil]
  · cases (t.take 12).takeWhile (· ≠ newline) with
    | nil => rfl
    | cons x l => simp [List.findIdx?_append, List.findIdx?_cons, hreturn]

lemma isSome_charLiteralLength?_crlf
    (h : ∀ c more, t = c :: more → newline ∉ more.take (characterLength c - 1)) :
    (charLiteralLength? (crlf t)).isSome = (charLiteralLength? t).isSome := by
  cases t with
  | nil => rfl
  | cons c t =>
    by_cases hc : c = newline
    · subst hc
      rw [crlf_newline, charLiteralLength?, if_neg (by decide), if_neg (by decide), charLiteralLength?,
        if_pos (Or.inl rfl)]
      rfl
    rw [crlf_cons hc, charLiteralLength?, charLiteralLength?]
    split
    · rfl
    split
    · rw [Option.isSome_map, Option.isSome_map, isSome_escapeLength?_crlf]
    · have hlead := h c t rfl
      obtain ⟨n, hn⟩ : ∃ n, characterLength c = n + 1 := by
        rw [characterLength]
        repeat' split
        all_goals exact ⟨_, rfl⟩
      rw [hn, Nat.add_sub_cancel] at hlead
      have hget : (crlf t)[n]? = some apostrophe ↔ t[n]? = some apostrophe := by
        rcases Nat.lt_or_ge n t.length with hlt | hge
        · have hoffset := crlfOffset_of_notMem hlead hlt.le
          have hdrop := drop_crlf t n
          rw [hoffset, List.drop_eq_getElem_cons hlt] at hdrop
          have hhead := congrArg List.head? hdrop
          rw [List.head?_drop] at hhead
          rw [hhead, List.getElem?_eq_getElem hlt]
          by_cases hx : t[n] = newline
          · rw [hx]
            simp only [crlf_newline, List.head?_cons, Option.some.injEq]
            decide
          · rw [crlf_cons hx]
            rfl
        · rw [List.take_of_length_le hge] at hlead
          rw [crlf_of_notMem hlead]
      simp only [hn, List.getElem?_cons_succ, hget]

lemma openingAt_crlf (hl : lang.Legible) (hchars : lang.charLiterals = true → WholeCharacters t)
    (b : Bool) : lang.openingAt b (crlf t) = lang.openingAt b t := by
  cases t with
  | nil => rfl
  | cons c t =>
    by_cases hc : c = newline
    · subst hc
      rw [crlf_newline, openingAt_of_blank hl (by decide), openingAt_of_blank hl (by decide)]
    have hblock : (lang.block.filter fun d =>
          d.opener.isPrefixOf (c :: crlf t) && (!d.atLineStart || b)) =
        lang.block.filter fun d => d.opener.isPrefixOf (c :: t) && (!d.atLineStart || b) := by
      cases hd : lang.block with
      | none => rfl
      | some d =>
        rw [Option.filter_some, Option.filter_some, ← crlf_cons hc,
          isPrefixOf_crlf (hl.block d hd).1.2]
    have hline : (lang.lineComments.find? fun d => d.isPrefixOf (c :: crlf t)) =
        lang.lineComments.find? fun d => d.isPrefixOf (c :: t) := by
      refine List.find?_congr fun d hd => ?_
      rw [← crlf_cons hc, isPrefixOf_crlf (hl.lineComments d hd).2]
    rw [crlf_cons hc, openingAt, openingAt, hblock, hline]
    split
    · rfl
    split
    · rfl
    split
    · next hquote =>
      have hliteral : (charLiteralLength? (crlf t)).isSome = (charLiteralLength? t).isSome := by
        refine isSome_charLiteralLength?_crlf fun x more hmore => ?_
        subst hmore
        exact hchars hquote.2 0 x (by simp [hquote.1]) rfl
      rw [hliteral]
    · rfl

end Openings

section Lengths

def bodyKeepsLine (lang : Language) (quote : UInt8) : Bytes → Bool
  | [] => true
  | c :: rest =>
    if c = backslash then
      match rest with
      | [] => true
      | c :: rest => c != newline && bodyKeepsLine lang quote rest
    else if c = quote then true
    else if c = newline then lang.style != .brace
    else bodyKeepsLine lang quote rest

def stringKeepsLine (lang : Language) : Bytes → Bool
  | [] => true
  | q :: rest =>
    q == backquote || (lang.tripleQuotes && [q, q].isPrefixOf rest) || lang.bodyKeepsLine q rest

lemma codeLength_crlf (hl : lang.Legible) (hchars : lang.charLiterals = true → WholeCharacters t)
    (b : Bool) : lang.codeLength b (crlf t) = t.crlfOffset (lang.codeLength b t) := by
  induction t generalizing b with
  | nil => rfl
  | cons c t ih =>
    have ih := ih fun h => (hchars h).drop 1
    have hopening := openingAt_crlf hl hchars b
    by_cases hc : c = newline
    · subst hc
      have hblank {c : UInt8} (hc : isBlank c = true) (b : Bool) (t : Bytes) :
          lang.codeLength b (c :: t) = lang.codeLength (c = newline) t + 1 := by
        rw [codeLength, if_pos (openingAt_of_blank hl hc b t)]
      rw [crlf_newline, hblank (by decide), hblank (by decide), hblank (by decide), ih,
        crlfOffset_newline]
    · rw [crlf_cons hc] at hopening ⊢
      rw [codeLength, codeLength, hopening, ih]
      split
      · rw [crlfOffset_cons hc]
      · rfl

lemma ne_newline_of_escapes {raw : Bool} (h : (c == backslash && !raw) = true) : c ≠ newline := by
  rintro rfl
  simp [newline, backslash] at h

lemma quotedLength_return {raw multiline : Bool} (hq : isBlank q = false) (t : Bytes) :
    quotedLength q raw multiline (carriageReturn :: t) = quotedLength q raw multiline t + 1 := by
  rw [quotedLength_cons (by simp [carriageReturn, backslash]),
    if_neg (Source.ne_of_not_blank hq).2.symm, if_neg fun h => absurd h.1 (by decide)]

lemma quotedLength_newline {raw multiline : Bool} (hq : isBlank q = false) (t : Bytes) :
    quotedLength q raw multiline (newline :: t) =
      if multiline then quotedLength q raw multiline t + 1 else 0 := by
  rw [quotedLength_cons (by simp [newline, backslash]), if_neg (Source.ne_of_not_blank hq).1.symm]
  cases multiline <;> simp

lemma quotedLength_crlf_lines (hq : isBlank q = false) (raw : Bool) (t : Bytes) :
    quotedLength q raw true (crlf t) = t.crlfOffset (quotedLength q raw true t) := by
  have hqn := (Source.ne_of_not_blank hq).1
  fun_induction quotedLength q raw true t with
  | case1 => rfl
  | case2 c hc =>
    have hne := ne_newline_of_escapes hc
    rw [crlf_cons hne, crlf_nil, quotedLength, if_pos hc, crlfOffset_cons hne, crlfOffset_zero]
  | case3 c hc d rest ih =>
    have hne := ne_newline_of_escapes hc
    rw [crlf_cons hne, crlfOffset_cons hne]
    by_cases hd : d = newline
    · subst hd
      rw [crlf_newline, quotedLength_escaped hc, quotedLength_newline hq, if_pos rfl, ih,
        crlfOffset_newline]
    · rw [crlf_cons hd, quotedLength_escaped hc, ih, crlfOffset_cons hd]
  | case4 rest hc =>
    rw [crlf_cons hqn, quotedLength_cons hc, if_pos rfl, crlfOffset_cons hqn, crlfOffset_zero]
  | case5 c rest _ _ hc => simp at hc
  | case6 c rest hc hcq hcn ih =>
    by_cases hn : c = newline
    · subst hn
      rw [crlf_newline, quotedLength_return hq, quotedLength_newline hq, if_pos rfl, ih,
        crlfOffset_newline]
    · rw [crlf_cons hn, quotedLength_cons hc, if_neg hcq, if_neg hcn, ih, crlfOffset_cons hn]

def Reaches (takes : Prop) (t : Bytes) (n n' : Nat) : Prop :=
  n' = t.crlfOffset n ∨ takes ∧ t[n]? = some newline ∧ n' = t.crlfOffset n + 1

lemma Reaches.cons {takes : Prop} {n n' : Nat} (h : Reaches takes t n n') (hc : c ≠ newline) :
    Reaches takes (c :: t) (n + 1) (n' + 1) := by
  rcases h with rfl | ⟨htakes, hget, rfl⟩
  · exact Or.inl (crlfOffset_cons hc t n).symm
  · exact Or.inr ⟨htakes, by rwa [List.getElem?_cons_succ], by rw [crlfOffset_cons hc]⟩

lemma quotedLength_crlf (hq : isBlank q = false) (h : lang.bodyKeepsLine q t = true) :
    Reaches (lang.style ≠ .brace) t (quotedLength q false false t)
      (quotedLength q false false (crlf t)) := by
  have hqn := (Source.ne_of_not_blank hq).1
  have hbackslash : (backslash == backslash && !false) = true := by decide
  fun_induction bodyKeepsLine lang q t with
  | case1 => exact Or.inl rfl
  | case2 => exact Or.inl rfl
  | case3 d rest ih =>
    obtain ⟨hd, hrest⟩ := Bool.and_eq_true_iff.mp h
    have hd : d ≠ newline := by simpa using hd
    have hne : backslash ≠ newline := by decide
    rw [crlf_cons hne, crlf_cons hd, quotedLength_escaped hbackslash, quotedLength_escaped hbackslash]
    exact ((ih hrest).cons hd).cons hne
  | case4 rest hc =>
    rw [crlf_cons hqn, quotedLength_cons (by simpa using hc), if_pos rfl,
      quotedLength_cons (by simpa using hc), if_pos rfl]
    exact Or.inl (crlfOffset_cons hqn rest 0).symm
  | case5 rest hc _ =>
    rw [crlf_newline, quotedLength_return hq, quotedLength_newline hq, quotedLength_newline hq]
    exact Or.inr ⟨by simpa using h, rfl, rfl⟩
  | case6 c rest hc hcq hcn ih =>
    have hplain : ¬(c == backslash && !false) = true := by simpa using hc
    rw [crlf_cons hcn, quotedLength_cons hplain, if_neg hcq, if_neg (by simp [hcn]),
      quotedLength_cons hplain, if_neg hcq, if_neg (by simp [hcn])]
    exact (ih h).cons hcn

lemma tripleQuotedLength_of_blank (hq : isBlank q = false) (hc : isBlank c = true) (t : Bytes) :
    tripleQuotedLength q (c :: t) = tripleQuotedLength q t + 1 := by
  have hne : c ≠ backslash := by
    rintro rfl
    exact absurd hc (by decide)
  have hqc : q ≠ c := by
    rintro rfl
    rw [hq] at hc
    cases hc
  rw [tripleQuotedLength_cons hne, List.isPrefixOf_cons_cons, beq_eq_false_iff_ne.mpr hqc,
    Bool.false_and, if_neg Bool.false_ne_true]

lemma tripleQuotedLength_crlf (hq : isBlank q = false) (t : Bytes) :
    tripleQuotedLength q (crlf t) = t.crlfOffset (tripleQuotedLength q t) := by
  have hqn := (Source.ne_of_not_blank hq).1
  have hne : backslash ≠ newline := by decide
  have hword : ∀ c ∈ [q, q, q], isBlank c = false := by simp [hq]
  fun_induction tripleQuotedLength q t with
  | case1 => rfl
  | case2 => rfl
  | case3 d rest ih =>
    rw [crlf_cons hne, crlfOffset_cons hne]
    by_cases hd : d = newline
    · subst hd
      rw [crlf_newline, tripleQuotedLength, if_pos rfl, tripleQuotedLength_of_blank hq (by decide), ih,
        crlfOffset_newline]
    · rw [crlf_cons hd, tripleQuotedLength, if_pos rfl, ih, crlfOffset_cons hd]
  | case4 c rest hc hpre =>
    have hcrlf := isPrefixOf_crlf hword (c :: rest)
    obtain ⟨more, hmore⟩ := List.isPrefixOf_iff_prefix.mp hpre
    simp only [List.cons_append, List.nil_append, List.cons.injEq] at hmore
    obtain ⟨rfl, rfl⟩ := hmore
    rw [crlf_cons hqn] at hcrlf ⊢
    rw [tripleQuotedLength_cons hc, hcrlf, if_pos hpre, crlfOffset_cons hqn, crlfOffset_cons hqn,
      crlfOffset_cons hqn, crlfOffset_zero]
  | case5 c rest hc hpre ih =>
    by_cases hn : c = newline
    · subst hn
      rw [crlf_newline, tripleQuotedLength_of_blank hq (by decide),
        tripleQuotedLength_of_blank hq (by decide), ih, crlfOffset_newline]
    · have hcrlf := isPrefixOf_crlf hword (c :: rest)
      rw [crlf_cons hn] at hcrlf ⊢
      rw [tripleQuotedLength_cons hc, hcrlf, if_neg hpre, ih, crlfOffset_cons hn]

lemma drop_crlf_word {w : Bytes} (hw : ∀ c ∈ w, isBlank c = false) (h : w <+: t) :
    (crlf t).drop w.length = crlf (t.drop w.length) ∧ t.crlfOffset w.length = w.length := by
  have hoffset : t.crlfOffset w.length = w.length := by
    refine crlfOffset_of_notMem ?_ h.length_le
    rw [← List.prefix_iff_eq_take.mp h]
    exact fun hmem => (Source.ne_of_not_blank (hw _ hmem)).1 rfl
  exact ⟨by rw [← drop_crlf, hoffset], hoffset⟩

lemma stringLength_crlf (hq : isBlank q = false) (h : lang.stringKeepsLine (q :: t) = true) :
    Reaches (lang.style ≠ .brace) (q :: t) (lang.stringLength (q :: t))
      (lang.stringLength (crlf (q :: t))) := by
  have hqn := (Source.ne_of_not_blank hq).1
  have hword : ∀ c ∈ [q, q], isBlank c = false := by simp [hq]
  rw [crlf_cons hqn, stringLength, stringLength, isPrefixOf_crlf hword]
  split
  · next htriple =>
    obtain ⟨hdrop, hoffset⟩ := drop_crlf_word hword (List.isPrefixOf_iff_prefix.mp htriple.2)
    simp only [List.length_cons, List.length_nil, Nat.zero_add, Nat.reduceAdd] at hdrop hoffset
    left
    have hsum := crlfOffset_add t 2 (tripleQuotedLength q (t.drop 2))
    rw [hoffset, Nat.add_comm 2 (tripleQuotedLength q (t.drop 2))] at hsum
    rw [hdrop, tripleQuotedLength_crlf hq]
    refine Eq.trans ?_ (crlfOffset_cons hqn t (tripleQuotedLength q (t.drop 2) + 2)).symm
    omega
  · next htriple =>
    rw [stringKeepsLine, Bool.or_eq_true, Bool.or_eq_true] at h
    by_cases hback : q = backquote
    · subst hback
      left
      simp only [beq_self_eq_true, Bool.true_and]
      rw [quotedLength_crlf_lines hq, crlfOffset_cons hqn]
    · have hsingle : (q == backquote) = false := by simpa using hback
      simp only [hsingle, Bool.false_and]
      have hbody : lang.bodyKeepsLine q t = true := by
        rcases h with (h | h) | h
        · exact absurd h (by simp [hback])
        · exact absurd (by simpa using h) htriple
        · exact h
      exact (quotedLength_crlf hq hbody).cons hqn

lemma map_succ_crlf {body : Option Nat} (hc : c ≠ newline) (t : Bytes) :
    (body.map (crlfOffset t)).map (· + 1) = (body.map (· + 1)).map (crlfOffset (c :: t)) := by
  cases body with
  | none => rfl
  | some n => exact congrArg some (crlfOffset_cons hc t n).symm

lemma not_isPrefixOf_of_blank {w : Bytes} (hw : IsWord w) (hc : isBlank c = true) (t : Bytes) :
    ¬w.isPrefixOf (c :: t) = true := by
  intro hpre
  rw [head_not_blank hw (List.isPrefixOf_iff_prefix.mp hpre)] at hc
  cases hc

lemma bodyLength?_crlf (hopener : IsWord d.opener) (hcloser : IsWord d.closer) {depth skip : Nat}
    (hskip : newline ∉ t.take skip) :
    bodyLength? d depth skip (crlf t) = (bodyLength? d depth skip t).map (crlfOffset t) := by
  have hrest {w : Bytes} (hw : IsWord w) {c : UInt8} {t : Bytes} (h : w.isPrefixOf (c :: t) = true) :
      newline ∉ t.take (w.length - 1) := by
    obtain ⟨b, w, rfl⟩ := List.exists_cons_of_ne_nil hw.1
    obtain ⟨-, hpre⟩ := List.cons_prefix_cons.mp (List.isPrefixOf_iff_prefix.mp h)
    rw [List.length_cons, Nat.add_sub_cancel, ← List.prefix_iff_eq_take.mp hpre]
    exact fun hmem => (Source.ne_of_not_blank (hw.2 _ (List.mem_cons_of_mem b hmem))).1 rfl
  induction t generalizing depth skip with
  | nil => rfl
  | cons c t ih =>
    by_cases hc : c = newline
    · subst hc
      have hzero : skip = 0 := by
        cases skip with
        | zero => rfl
        | succ skip => simp at hskip
      have hblank {c : UInt8} (hc : isBlank c = true) (t : Bytes) :
          bodyLength? d depth 0 (c :: t) = (bodyLength? d depth 0 t).map (· + 1) := by
        rw [bodyLength?, if_neg (Nat.lt_irrefl 0),
          if_neg fun h => not_isPrefixOf_of_blank hopener hc t h.2,
          if_neg (not_isPrefixOf_of_blank hcloser hc t)]
      rw [hzero, crlf_newline, hblank (by decide), hblank (by decide), hblank (by decide),
        ih (by simp)]
      cases bodyLength? d depth 0 t <;> rfl
    · rw [crlf_cons hc, bodyLength?, bodyLength?, ← crlf_cons hc, isPrefixOf_crlf hopener.2,
        isPrefixOf_crlf hcloser.2]
      split
      · next hpos =>
        obtain ⟨skip, rfl⟩ := Nat.exists_eq_succ_of_ne_zero (Nat.pos_iff_ne_zero.mp hpos)
        rw [List.take_succ_cons, List.mem_cons, not_or] at hskip
        rw [Nat.succ_sub_one, ih hskip.2, map_succ_crlf hc]
      split
      · next hopen => rw [ih (hrest hopener hopen.2), map_succ_crlf hc]
      split
      · next hclose =>
        split
        · rfl
        · rw [ih (hrest hcloser hclose), map_succ_crlf hc]
      · rw [ih (by simp), map_succ_crlf hc]

lemma bodyLinesLength?_crlf {closer : Bytes} (hcloser : IsWord closer) (t : Bytes) :
    bodyLinesLength? closer (crlf t) = (bodyLinesLength? closer t).map (crlfOffset t) := by
  induction t with
  | nil => rfl
  | cons c t ih =>
    by_cases hc : c = newline
    · subst hc
      rw [crlf_newline, bodyLinesLength?, if_neg fun h => absurd h.1 (by decide), bodyLinesLength?,
        bodyLinesLength?, isPrefixOf_crlf hcloser.2]
      split
      · rfl
      · rw [ih]
        cases bodyLinesLength? closer t <;> rfl
    · rw [crlf_cons hc, bodyLinesLength?, if_neg (by simp [hc]), bodyLinesLength?, if_neg (by simp [hc]),
        ih, map_succ_crlf hc]

lemma reaches_takeWhile (t : Bytes) :
    Reaches True t (t.takeWhile (· ≠ newline)).length ((crlf t).takeWhile (· ≠ newline)).length := by
  induction t with
  | nil => exact Or.inl rfl
  | cons c t ih =>
    by_cases hc : c = newline
    · subst hc
      exact Or.inr ⟨trivial, rfl, rfl⟩
    · rw [crlf_cons hc, List.takeWhile_cons_of_pos (by simpa using hc),
        List.takeWhile_cons_of_pos (by simpa using hc)]
      exact ih.cons hc

lemma Reaches.of_drop {takes : Prop} {k n n' : Nat} (h : Reaches takes (t.drop k) n n') :
    Reaches takes t (k + n) (t.crlfOffset k + n') := by
  rcases h with rfl | ⟨htakes, hget, rfl⟩
  · exact Or.inl (crlfOffset_add t k n).symm
  · exact Or.inr ⟨htakes, by rwa [List.getElem?_drop] at hget, by rw [crlfOffset_add, Nat.add_assoc]⟩

lemma Reaches.imp {takes takes' : Prop} {n n' : Nat} (h : Reaches takes t n n')
    (himp : takes → takes') : Reaches takes' t n n' :=
  h.imp_right fun h => ⟨himp h.1, h.2⟩

lemma blockBody_crlf (hopener : IsWord d.opener) (hcloser : IsWord d.closer) (t : Bytes) :
    (blockBody d (crlf t)).1 = t.crlfOffset (blockBody d t).1 ∧
      Reaches (d.atLineStart = true) t ((blockBody d t).1 + (blockBody d t).2)
        ((blockBody d (crlf t)).1 + (blockBody d (crlf t)).2) := by
  have hwhole : (crlf t).length = t.crlfOffset t.length := (crlfOffset_length t).symm
  rw [blockBody, blockBody]
  split
  · next hstart =>
    rw [bodyLinesLength?_crlf hcloser]
    cases bodyLinesLength? d.closer t with
    | none => exact ⟨hwhole, Or.inl hwhole⟩
    | some n =>
      refine ⟨rfl, ?_⟩
      simp only [Option.map_some, drop_crlf, restOfLine]
      exact (reaches_takeWhile _).of_drop.imp fun _ => hstart
  · rw [bodyLength?_crlf hopener hcloser (by simp)]
    cases hbody : bodyLength? d 0 0 t with
    | none => exact ⟨hwhole, Or.inl hwhole⟩
    | some n =>
      refine ⟨rfl, Or.inl ?_⟩
      simp only [Option.map_some]
      rw [crlfOffset_add, (drop_crlf_word hcloser.2 (closer_of_bodyLength? hbody)).2]

end Lengths

section Segments

def TakesReturn (lang : Language) : Segment.Kind → Prop
  | .code => False
  | .string => lang.style ≠ .brace
  | .comment .line _ _ => True
  | .comment .block _ _ => ∃ d ∈ lang.block, d.atLineStart = true

end Segments

end Language

def Segment.Kind.crlf (t : Bytes) : Segment.Kind → Segment.Kind
  | .code => .code
  | .string => .string
  | .comment style delimiter bodyLength =>
    .comment style delimiter (crlfOffset (t.drop delimiter.length) bodyLength)

namespace Language

variable {lang : Language} {t : Bytes} {b : Bool}

lemma segmentAt_crlf (hl : lang.Legible) (hreturn : carriageReturn ∉ t)
    (hchars : lang.charLiterals = true → WholeCharacters t)
    (hstring : lang.openingAt b t = .string → lang.stringKeepsLine t = true) :
    (lang.segmentAt b (crlf t)).1 = (lang.segmentAt b t).1.crlf t ∧
      Reaches (lang.TakesReturn (lang.segmentAt b t).1) t (lang.segmentAt b t).2
        (lang.segmentAt b (crlf t)).2 := by
  have hopens := lang.opens_openingAt b t
  rw [segmentAt, segmentAt, openingAt_crlf hl hchars]
  cases ho : lang.openingAt b t with
  | code => exact ⟨rfl, Or.inl (codeLength_crlf hl hchars b)⟩
  | string =>
    rw [ho] at hopens
    obtain ⟨q, rest, rfl, hq⟩ := hopens
    have hq : isBlank q = false := by
      rcases hq with hq | rfl
      · exact (hl.quotes q hq).1
      · decide
    exact ⟨rfl, stringLength_crlf hq (hstring ho)⟩
  | lineComment d =>
    rw [ho] at hopens
    obtain ⟨hdrop, hoffset⟩ := drop_crlf_word (hl.lineComments d hopens.1).2 hopens.2
    have hplain : carriageReturn ∉ t.drop d.length := fun hmem => hreturn (List.mem_of_mem_drop hmem)
    have hshown : Source.chomp ((t.drop d.length).takeWhile (· ≠ newline)) = _ :=
      Source.chomp_of_notMem fun hmem => hplain ((List.takeWhile_prefix _).subset hmem)
    have hshown' := Source.chomp_takeWhile_crlf hplain
    have hreaches := (reaches_takeWhile (t.drop d.length)).of_drop
    rw [Source.chomp] at hshown hshown'
    rw [hoffset] at hreaches
    simp only [hdrop, hshown, hshown', Segment.Kind.crlf, crlfOffset_takeWhile, true_and]
    exact hreaches
  | blockComment d =>
    rw [ho] at hopens
    obtain ⟨hopener, hcloser⟩ := hl.block d hopens.1
    obtain ⟨hdrop, hoffset⟩ := drop_crlf_word hopener.2 hopens.2
    obtain ⟨hbody, hreaches⟩ := blockBody_crlf hopener hcloser (t.drop d.opener.length)
    simp only [hdrop, hbody]
    refine ⟨rfl, ?_⟩
    have htakes := (hreaches.of_drop).imp fun h => (⟨d, hopens.1, h⟩ : lang.TakesReturn (.comment .block
      d.opener (blockBody d (t.drop d.opener.length)).1))
    rwa [hoffset, hbody, ← Nat.add_assoc, ← Nat.add_assoc] at htakes

variable {content : Bytes} {o o' : Nat}

lemma startsLine_crlf (h : o ≤ content.length) :
    startsLine (crlf content) (content.crlfOffset o) = startsLine content o := by
  rcases Nat.eq_zero_or_pos o with rfl | hpos
  · rfl
  · have hlast {l : Bytes} {n : Nat} (hn : 0 < n) (hle : n ≤ l.length) :
        l[n - 1]? = (l.take n).getLast? := by
      rw [List.getLast?_eq_getElem?, List.length_take, Nat.min_eq_left hle,
        List.getElem?_take_of_lt (by omega)]
    have hpos' : 0 < content.crlfOffset o := Nat.lt_of_lt_of_le hpos (le_crlfOffset h)
    rw [startsLine, startsLine, hlast hpos' (crlfOffset_le content o), take_crlf, getLast?_crlf,
      ← hlast hpos h, decide_eq_false hpos.ne', decide_eq_false hpos'.ne']

lemma segmentAt_pos (hl : lang.Legible) (h : t ≠ []) (b : Bool) : 0 < (lang.segmentAt b t).2 := by
  have hlooks := lang.looks_segmentAt hl b t
  cases hk : (lang.segmentAt b t).1 with
  | string =>
    rw [hk] at hlooks
    exact hlooks.1
  | comment =>
    rw [hk] at hlooks
    exact hlooks.1
  | code =>
    obtain ⟨c, t, rfl⟩ := List.exists_cons_of_ne_nil h
    rw [segmentAt] at hk ⊢
    cases ho : lang.openingAt b (c :: t) with
    | code => simp [codeLength, ho]
    | _ => simp [ho] at hk

lemma crlfOffset_stop (lang : Language) (content : Bytes) (o : Nat) :
    content.crlfOffset (lang.firstSegment content o).stop =
      content.crlfOffset o + (crlf (lang.firstTaken content o)).length := by
  rw [firstSegment]
  dsimp only
  rw [crlfOffset_add, drop_eq_firstTaken_append lang content o, crlfOffset_append]

lemma segments_stop_subset {g : Segment} (h : g ∈ lang.segments content o) :
    lang.segments content g.stop ⊆ lang.segments content o := by
  induction hs : lang.segments content o generalizing o with
  | nil => simp [hs] at h
  | cons s ss ih =>
    obtain ⟨-, -, rfl⟩ := segments_eq_cons hs
    rw [hs] at h
    rcases List.mem_cons.mp h with rfl | h
    · exact List.subset_cons_self _ _
    · exact List.subset_cons_of_subset _ (ih h rfl)

/-- What keeps the segments from an offset on in place when the line endings change: there is no carriage
return yet, and no character and no string takes in the end of a line that it does not span. -/
structure KeepsLines (lang : Language) (content : Bytes) (o : Nat) : Prop where
  plain : carriageReturn ∉ content
  characters : lang.charLiterals = true → WholeCharacters content
  strings : ∀ s ∈ lang.segments content o, s.kind = .string →
    lang.stringKeepsLine (content.drop s.start) = true

lemma KeepsLines.opening (h : lang.KeepsLines content o) (ho : o < content.length)
    (hs : lang.opensAt content o = .string) : lang.stringKeepsLine (content.drop o) = true := by
  refine h.strings (lang.firstSegment content o) (firstSegment_mem ho) ?_
  rw [opensAt] at hs
  rw [firstSegment, segmentAt, hs]

lemma KeepsLines.stop {g : Segment} (h : lang.KeepsLines content o) (hg : g ∈ lang.segments content o) :
    lang.KeepsLines content g.stop :=
  ⟨h.plain, h.characters, fun s hs => h.strings s (segments_stop_subset hg hs)⟩

lemma firstTaken_crlf (hl : lang.Legible) (h : lang.KeepsLines content o) (ho : o < content.length) :
    (lang.firstSegment (crlf content) (content.crlfOffset o)).kind =
        (lang.firstSegment content o).kind.crlf (content.drop o) ∧
      (lang.firstTaken (crlf content) (content.crlfOffset o) = crlf (lang.firstTaken content o) ∨
        lang.TakesReturn (lang.firstSegment content o).kind ∧
          content[(lang.firstSegment content o).stop]? = some newline ∧
          lang.firstTaken (crlf content) (content.crlfOffset o) =
            crlf (lang.firstTaken content o) ++ [carriageReturn]) := by
  have hne : content.drop o ≠ [] := by simpa using ho
  have hpos := segmentAt_pos hl hne (startsLine content o)
  obtain ⟨hkind, hreaches⟩ := segmentAt_crlf (b := startsLine content o) hl
    (fun hmem => h.plain (List.mem_of_mem_drop hmem)) (fun hc => (h.characters hc).drop o)
    (fun hs => h.opening ho hs)
  simp only [firstSegment, firstTaken, drop_crlf, startsLine_crlf ho.le]
  generalize lang.segmentAt (startsLine content o) (content.drop o) = first at hpos hkind hreaches ⊢
  generalize lang.segmentAt (startsLine content o) (crlf (content.drop o)) = first' at hkind hreaches ⊢
  refine ⟨hkind, ?_⟩
  rw [Nat.max_eq_right hpos]
  rcases hreaches with hn | ⟨htakes, hget, hn⟩
  · left
    have hpos' : first'.2 ≠ 0 := by
      rw [hn, crlfOffset]
      intro hzero
      have hnil := crlf_eq_nil_iff.mp (List.length_eq_zero_iff.mp hzero)
      rcases List.take_eq_nil_iff.mp hnil with h | h
      · omega
      · exact hne h
    rw [Nat.max_eq_right (Nat.one_le_iff_ne_zero.mpr hpos'), hn, take_crlf]
  · right
    obtain ⟨hlt, heq⟩ := List.getElem?_eq_some_iff.mp hget
    refine ⟨htakes, ?_, ?_⟩
    · rw [List.length_take, Nat.min_eq_left hlt.le, ← List.getElem?_drop, hget]
    · rw [Nat.max_eq_right (by omega), hn, List.take_add, take_crlf, drop_crlf,
        List.drop_eq_getElem_cons hlt, heq, crlf_newline]
      rfl

lemma firstTaken_newline (hl : lang.Legible)
    (hchars : lang.charLiterals = true → WholeCharacters content) (hn : content[o]? = some newline) :
    (lang.firstSegment content o).kind = .code ∧
      (lang.firstSegment (crlf content) (content.crlfOffset o + 1)).kind = .code ∧
      crlf (lang.firstTaken content o) =
        carriageReturn :: lang.firstTaken (crlf content) (content.crlfOffset o + 1) := by
  obtain ⟨ho, heq⟩ := List.getElem?_eq_some_iff.mp hn
  have hdrop : content.drop o = newline :: content.drop (o + 1) := by
    rw [List.drop_eq_getElem_cons ho, heq]
  have hdrop' : (crlf content).drop (content.crlfOffset o + 1) =
      newline :: crlf (content.drop (o + 1)) := by
    rw [← List.drop_drop, drop_crlf, hdrop, crlf_newline]
    rfl
  have hfirst (b : Bool) (t : Bytes) :
      lang.segmentAt b (newline :: t) = (.code, lang.codeLength true t + 1) := by
    have hcode := openingAt_of_blank hl (show isBlank newline = true by decide) b t
    rw [segmentAt, hcode]
    simp [codeLength, hcode]
  have hlength := codeLength_crlf hl (fun hc => (hchars hc).drop (o + 1)) true
  simp only [firstSegment, firstTaken, hdrop, hdrop', hfirst, hlength, true_and]
  rw [Nat.max_eq_right (Nat.le_add_left 1 _), Nat.max_eq_right (Nat.le_add_left 1 _),
    List.take_succ_cons, List.take_succ_cons, crlf_newline, take_crlf]

def StandsAt (content : Bytes) (o o' : Nat) : Prop :=
  o' = content.crlfOffset o ∨ content[o]? = some newline ∧ o' = content.crlfOffset o + 1

lemma StandsAt.lt_length (h : StandsAt content o o') (ho : o < content.length) :
    o' < (crlf content).length := by
  have hlt := crlfOffset_lt ho le_rfl
  rw [crlfOffset_length] at hlt
  rcases h with rfl | ⟨hn, rfl⟩
  · exact hlt
  · have hnext := crlfOffset_succ hn
    rw [if_pos rfl] at hnext
    have hend := crlfOffset_le content (o + 1)
    omega

structure Returned (lang : Language) (content : Bytes) (s s' : Segment) : Prop where
  kind_eq : s'.kind = s.kind.crlf (content.drop s.start)
  start_eq : s.kind ≠ .code → s'.start = content.crlfOffset s.start
  stop_eq : s'.stop = content.crlfOffset s.stop ∨ lang.TakesReturn s.kind ∧
    content[s.stop]? = some newline ∧ s'.stop = content.crlfOffset s.stop + 1

lemma stop_newline (hl : lang.Legible) (hchars : lang.charLiterals = true → WholeCharacters content)
    (hn : content[o]? = some newline) :
    (lang.firstSegment (crlf content) (content.crlfOffset o + 1)).stop =
      content.crlfOffset (lang.firstSegment content o).stop := by
  obtain ⟨-, -, htaken⟩ := firstTaken_newline hl hchars hn
  rw [crlfOffset_stop, htaken, List.length_cons, firstSegment]
  dsimp only
  omega

lemma returned_first (hl : lang.Legible) (h : lang.KeepsLines content o) (ho : o < content.length)
    (ho' : StandsAt content o o') :
    lang.Returned content (lang.firstSegment content o) (lang.firstSegment (crlf content) o') := by
  rcases ho' with rfl | ⟨hn, rfl⟩
  · obtain ⟨hkind, htaken⟩ := firstTaken_crlf hl h ho
    refine ⟨hkind, fun _ => rfl, ?_⟩
    have hstop : (lang.firstSegment (crlf content) (content.crlfOffset o)).stop =
        content.crlfOffset o + (lang.firstTaken (crlf content) (content.crlfOffset o)).length := rfl
    rw [hstop, crlfOffset_stop]
    rcases htaken with heq | ⟨htakes, hget, heq⟩
    · exact Or.inl (by rw [heq])
    · refine Or.inr ⟨htakes, hget, ?_⟩
      rw [heq, List.length_append, List.length_singleton, Nat.add_assoc]
  · obtain ⟨hcode, hcode', -⟩ := firstTaken_newline hl h.characters hn
    refine ⟨by rw [hcode', hcode]; rfl, fun hne => absurd hcode hne, ?_⟩
    exact Or.inl (stop_newline hl h.characters hn)

lemma segments_crlf (hl : lang.Legible) (h : lang.KeepsLines content o) (ho : o ≤ content.length)
    (ho' : StandsAt content o o') :
    List.Forall₂ (lang.Returned content) (lang.segments content o)
      (lang.segments (crlf content) o') := by
  induction hs : lang.segments content o generalizing o o' with
  | nil =>
    have hend := Nat.le_antisymm ho (length_le_of_segments_eq_nil hs)
    have hlength : o' = (crlf content).length := by
      rcases ho' with rfl | ⟨hn, -⟩
      · rw [hend, crlfOffset_length]
      · have := (List.getElem?_eq_some_iff.mp hn).1
        omega
    rw [segments_of_length_le hlength.ge]
    exact .nil
  | cons s ss ih =>
    obtain ⟨hlt, rfl, rfl⟩ := segments_eq_cons hs
    have hfirst := returned_first hl h hlt ho'
    have hle := stop_le_length (lang.firstSegment_mem hlt)
    rw [segments_of_lt (ho'.lt_length hlt)]
    exact .cons hfirst (ih (h.stop (firstSegment_mem hlt)) hle (hfirst.stop_eq.imp_right And.right) rfl)

end Language

end TrustRegions
