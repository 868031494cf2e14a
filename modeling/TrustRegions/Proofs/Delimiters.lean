import TrustRegions.Proofs.Lexing

/-! How strings and comments begin and end: with delimiters, which have no blanks in them. Only the
end of a line or of the content can take the place of a closing delimiter. -/

namespace TrustRegions

namespace Bytes

def IsWord (d : Bytes) : Prop := d ≠ [] ∧ ∀ c ∈ d, isBlank c = false

instance (d : Bytes) : Decidable (IsWord d) := inferInstanceAs (Decidable (_ ∧ _))

def EndsAt (text : Bytes) (n : Nat) : Prop :=
  text.length ≤ n ∨ text[n]? = some newline ∨
    ∃ c, 0 < n ∧ text[n - 1]? = some c ∧ isBlank c = false

variable {text : Bytes} {n k : Nat}

lemma prefix_append_cons_iff {w : Bytes} {c : UInt8} (hc : c ∉ w) (a t : Bytes) :
    w <+: a ++ c :: t ↔ w <+: a := by
  refine ⟨fun h => ?_, fun h => h.trans (List.prefix_append _ _)⟩
  rcases Nat.lt_or_ge a.length w.length with hlt | hle
  · have hin : a ++ [c] <+: w := by
      refine List.prefix_of_prefix_length_le ⟨t, by simp⟩ h ?_
      rwa [List.length_append, List.length_singleton]
    exact absurd (hin.subset (by simp)) hc
  · exact List.prefix_of_prefix_length_le h (List.prefix_append _ _) hle

lemma isPrefixOf_append_cons {w : Bytes} {c : UInt8} (hc : c ∉ w) (a t u : Bytes) :
    w.isPrefixOf (a ++ c :: t) = w.isPrefixOf (a ++ c :: u) := by
  rw [Bool.eq_iff_iff, List.isPrefixOf_iff_prefix, List.isPrefixOf_iff_prefix,
    prefix_append_cons_iff hc, prefix_append_cons_iff hc]

lemma startsWithWord_append_cons {w : Bytes} {c : UInt8} (hc : c ∉ w) (a t u : Bytes) :
    startsWithWord w (a ++ c :: t) = startsWithWord w (a ++ c :: u) := by
  rw [startsWithWord, startsWithWord, isPrefixOf_append_cons hc a t u]
  by_cases h : w.isPrefixOf (a ++ c :: u) = true
  · rw [List.isPrefixOf_iff_prefix, prefix_append_cons_iff hc] at h
    have hnext : ((a ++ c :: t).drop w.length).head? = ((a ++ c :: u).drop w.length).head? := by
      rw [List.drop_append_of_le_length h.length_le, List.drop_append_of_le_length h.length_le]
      cases a.drop w.length <;> rfl
    rw [hnext]
  · simp [h]

lemma endsAt_length (text : Bytes) : EndsAt text text.length := Or.inl (Nat.le_refl _)

lemma EndsAt.cons (h : EndsAt text n) (c : UInt8) : EndsAt (c :: text) (n + 1) := by
  rcases h with h | h | ⟨d, hn, hd, hb⟩
  · exact Or.inl (Nat.succ_le_succ h)
  · exact Or.inr (Or.inl (by rwa [List.getElem?_cons_succ]))
  · obtain ⟨m, rfl⟩ := Nat.exists_eq_succ_of_ne_zero (Nat.pos_iff_ne_zero.mp hn)
    exact Or.inr (Or.inr ⟨d, Nat.succ_pos _, by simpa using hd, hb⟩)

lemma EndsAt.of_drop (h : EndsAt (text.drop k) n) : EndsAt text (k + n) := by
  induction k generalizing text with
  | zero => simpa using h
  | succ k ih =>
    cases text with
    | nil => exact Or.inl (Nat.zero_le _)
    | cons c text =>
      rw [Nat.add_right_comm]
      exact (ih h).cons c

lemma IsWord.takeWhile_append {w : Bytes} (hw : IsWord w) (t : Bytes) :
    (w ++ t).takeWhile (· ≠ newline) = w ++ t.takeWhile (· ≠ newline) := by
  have hline : ∀ c ∈ w, decide (c ≠ newline) = true := by
    intro c hc
    have hb := hw.2 c hc
    by_contra hn
    obtain rfl : c = newline := by simpa using hn
    exact absurd hb (by decide)
  rw [List.takeWhile_append_of_pos hline]

lemma endsAt_length_word {w : Bytes} (h : w <+: text) (hw : IsWord w) : EndsAt text w.length := by
  have hpos := List.length_pos_of_ne_nil hw.1
  refine Or.inr (Or.inr ⟨w.getLast hw.1, hpos, ?_, hw.2 _ (List.getLast_mem hw.1)⟩)
  obtain ⟨rest, rfl⟩ := h
  rw [List.getElem?_append_left (by omega), ← List.getLast?_eq_getElem?,
    List.getLast?_eq_some_getLast hw.1]

lemma endsAt_takeWhile (text : Bytes) :
    EndsAt text (text.takeWhile (· ≠ newline)).length := by
  induction text with
  | nil => exact endsAt_length []
  | cons c text ih =>
    by_cases hc : c = newline
    · exact Or.inr (Or.inl (by simp [hc]))
    · rw [List.takeWhile_cons_of_pos (by simpa using hc)]
      exact ih.cons c

end Bytes

open Bytes

namespace Language

structure Legible (lang : Language) : Prop where
  lineComments : ∀ d ∈ lang.lineComments, IsWord d
  block : ∀ b ∈ lang.block, IsWord b.opener ∧ IsWord b.closer
  quotes : ∀ q ∈ lang.quotes, isBlank q = false ∧ q ≠ byte '@'

lemma ofTag_mem (tag : Bytes) : ofTag tag ∈ generic :: known := by
  rw [ofTag, find?]
  cases h : known.find? fun l => l.tag == tag with
  | none => exact List.mem_cons_self
  | some l => exact List.mem_cons_of_mem _ (List.mem_of_find?_eq_some h)

lemma legible_ofTag (tag : Bytes) : (ofTag tag).Legible where
  lineComments := (by decide +kernel :
    ∀ l ∈ generic :: known, ∀ d ∈ l.lineComments, IsWord d) _ (ofTag_mem tag)
  block := (by decide +kernel :
    ∀ l ∈ generic :: known, ∀ b ∈ l.block, IsWord b.opener ∧ IsWord b.closer) _ (ofTag_mem tag)
  quotes := (by decide +kernel :
    ∀ l ∈ generic :: known, ∀ q ∈ l.quotes, isBlank q = false ∧ q ≠ byte '@') _ (ofTag_mem tag)

variable {lang : Language} {text : Bytes} {b : Bool} {c : UInt8}

def Opens (lang : Language) (text : Bytes) : Opening → Prop
  | .code => True
  | .string => ∃ q rest, text = q :: rest ∧ (q ∈ lang.quotes ∨ q = apostrophe)
  | .lineComment d => d ∈ lang.lineComments ∧ d <+: text
  | .blockComment d => d ∈ lang.block ∧ d.opener <+: text

lemma opens_openingAt (lang : Language) (b : Bool) (text : Bytes) :
    lang.Opens text (lang.openingAt b text) := by
  fun_cases openingAt lang b text with
  | case1 _ d hd =>
    obtain ⟨hmem, hopen⟩ := Option.filter_eq_some_iff.mp hd
    exact ⟨hmem, List.isPrefixOf_iff_prefix.mp (Bool.and_eq_true_iff.mp hopen).1⟩
  | case2 _ _ d hd =>
    have hpre := List.find?_some hd
    exact ⟨List.mem_of_find?_eq_some hd, List.isPrefixOf_iff_prefix.mp hpre⟩
  | case3 => trivial
  | case4 q rest hq => exact ⟨q, rest, rfl, Or.inr hq.1⟩
  | case5 => trivial
  | case6 q rest _ hq => exact ⟨q, rest, rfl, Or.inl hq⟩
  | case7 => trivial

lemma head_not_blank {d : Bytes} {c : UInt8} (hd : IsWord d) (h : d <+: c :: text) :
    isBlank c = false := by
  obtain ⟨b, d, rfl⟩ := List.exists_cons_of_ne_nil hd.1
  obtain ⟨rfl, -⟩ := List.cons_prefix_cons.mp h
  exact hd.2 b List.mem_cons_self

def openerBytes (lang : Language) : Bytes :=
  apostrophe :: lang.quotes ++
    (lang.lineComments ++ lang.block.toList.map (·.opener)).filterMap List.head?

lemma mem_openerBytes (hl : lang.Legible) (h : lang.openingAt b (c :: text) ≠ .code) :
    c ∈ lang.openerBytes := by
  have hopens := lang.opens_openingAt b (c :: text)
  have hhead {d : Bytes} (hd : IsWord d) (hpre : d <+: c :: text) : d.head? = some c := by
    obtain ⟨x, d, rfl⟩ := List.exists_cons_of_ne_nil hd.1
    rw [(List.cons_prefix_cons.mp hpre).1]
    rfl
  rw [openerBytes, List.mem_append, List.mem_filterMap]
  cases ho : lang.openingAt b (c :: text) with
  | code => exact absurd ho h
  | string =>
    rw [ho] at hopens
    obtain ⟨q, rest, htext, hq⟩ := hopens
    obtain ⟨rfl, -⟩ := List.cons.inj htext
    exact Or.inl (List.mem_cons.mpr hq.symm)
  | lineComment d =>
    rw [ho] at hopens
    exact Or.inr ⟨d, List.mem_append_left _ hopens.1, hhead (hl.lineComments d hopens.1) hopens.2⟩
  | blockComment d =>
    rw [ho] at hopens
    refine Or.inr ⟨d.opener, List.mem_append_right _ (List.mem_map_of_mem ?_),
      hhead (hl.block d hopens.1).1 hopens.2⟩
    exact Option.mem_toList.mpr hopens.1

lemma not_blank_of_mem_openerBytes (hl : lang.Legible) (h : c ∈ lang.openerBytes) :
    isBlank c = false := by
  have hhead {d : Bytes} (hd : IsWord d) (hc : d.head? = some c) : isBlank c = false :=
    hd.2 c (List.mem_of_head? hc)
  rw [openerBytes, List.mem_append, List.mem_cons, List.mem_filterMap] at h
  rcases h with (rfl | hq) | ⟨d, hd, hc⟩
  · decide
  · exact (hl.quotes c hq).1
  · rcases List.mem_append.mp hd with hd | hd
    · exact hhead (hl.lineComments d hd) hc
    · obtain ⟨e, he, rfl⟩ := List.mem_map.mp hd
      exact hhead (hl.block e (Option.mem_toList.mp he)).1 hc

lemma openingAt_of_blank (hl : lang.Legible) (hc : isBlank c = true) (b : Bool) (text : Bytes) :
    lang.openingAt b (c :: text) = .code := by
  by_contra hne
  rw [not_blank_of_mem_openerBytes hl (mem_openerBytes hl hne)] at hc
  cases hc

lemma quotedLength_cons {c q : UInt8} {raw multiline : Bool}
    (h : ¬(c == backslash && !raw) = true) (t : Bytes) :
    quotedLength q raw multiline (c :: t) =
      if c = q then 1
      else if c = newline ∧ ¬multiline then 0 else quotedLength q raw multiline t + 1 := by
  cases t <;> conv_lhs => rw [quotedLength, if_neg h]

lemma quotedLength_escaped {c q : UInt8} {raw multiline : Bool}
    (h : (c == backslash && !raw) = true) (d : UInt8) (t : Bytes) :
    quotedLength q raw multiline (c :: d :: t) = quotedLength q raw multiline t + 2 := by
  rw [quotedLength, if_pos h]

lemma tripleQuotedLength_cons {c q : UInt8} (h : c ≠ backslash) (t : Bytes) :
    tripleQuotedLength q (c :: t) =
      if [q, q, q].isPrefixOf (c :: t) then 3 else tripleQuotedLength q t + 1 := by
  cases t <;> conv_lhs => rw [tripleQuotedLength, if_neg h]

lemma endsAt_quotedLength {q : UInt8} (hq : isBlank q = false) (raw multiline : Bool)
    (text : Bytes) : EndsAt text (quotedLength q raw multiline text) := by
  fun_induction quotedLength q raw multiline text with
  | case1 => exact endsAt_length []
  | case2 c hc => exact endsAt_length [c]
  | case3 c _ d rest ih => exact (ih.cons d).cons c
  | case4 rest h => exact Or.inr (Or.inr ⟨q, Nat.one_pos, rfl, hq⟩)
  | case5 c rest _ _ hc => exact Or.inr (Or.inl (by simp [hc.1]))
  | case6 c rest _ _ _ ih => exact ih.cons c

lemma endsAt_tripleQuotedLength {q : UInt8} (hq : isBlank q = false) (text : Bytes) :
    EndsAt text (tripleQuotedLength q text) := by
  fun_induction tripleQuotedLength q text with
  | case1 => exact endsAt_length []
  | case2 => exact endsAt_length [backslash]
  | case3 d rest ih => exact (ih.cons d).cons backslash
  | case4 c rest _ h =>
    exact endsAt_length_word (List.isPrefixOf_iff_prefix.mp h) ⟨List.cons_ne_nil _ _, by simp [hq]⟩
  | case5 c rest _ _ ih => exact ih.cons c

lemma endsAt_stringLength {q : UInt8} (hq : isBlank q = false) (rest : Bytes) :
    EndsAt (q :: rest) (lang.stringLength (q :: rest)) := by
  rw [stringLength]
  split
  · have h := (endsAt_tripleQuotedLength hq (rest.drop 2)).of_drop.cons q
    rwa [Nat.add_comm 2] at h
  · exact (endsAt_quotedLength hq _ _ rest).cons q

lemma stringLength_pos (lang : Language) (q : UInt8) (rest : Bytes) :
    0 < lang.stringLength (q :: rest) := by
  rw [stringLength]
  split <;> exact Nat.succ_pos _

lemma prefix_drop_of_map_succ {w rest : Bytes} {next : Option Nat} {n : Nat} (c : UInt8)
    (h : next.map (· + 1) = some n) (hw : ∀ m, next = some m → w <+: rest.drop m) :
    w <+: (c :: rest).drop n := by
  obtain ⟨m, hm, rfl⟩ := Option.map_eq_some_iff.mp h
  exact hw m hm

lemma closer_of_bodyLength? {d : BlockComment} {depth skip n : Nat}
    (h : bodyLength? d depth skip text = some n) : d.closer <+: text.drop n := by
  induction text generalizing depth skip n with
  | nil => simp [bodyLength?] at h
  | cons c rest ih =>
    rw [bodyLength?] at h
    split at h
    · exact prefix_drop_of_map_succ c h fun m hm => ih hm
    · split at h
      · exact prefix_drop_of_map_succ c h fun m hm => ih hm
      · split at h
        · next hclose =>
          split at h
          · obtain rfl := Option.some.inj h
            exact List.isPrefixOf_iff_prefix.mp hclose
          · exact prefix_drop_of_map_succ c h fun m hm => ih hm
        · exact prefix_drop_of_map_succ c h fun m hm => ih hm

lemma endsAt_blockBody {d : BlockComment} (hd : IsWord d.closer) (text : Bytes) :
    EndsAt text ((blockBody d text).1 + (blockBody d text).2) := by
  rw [blockBody]
  split
  · split
    · exact (endsAt_takeWhile _).of_drop
    · exact endsAt_length text
  · split
    · next n hn => exact (endsAt_length_word (closer_of_bodyLength? hn) hd).of_drop
    · exact endsAt_length text

end Language

def Segment.Kind.Looks (text : Bytes) (n : Nat) : Segment.Kind → Prop
  | .code => True
  | .string => 0 < n ∧ EndsAt text n ∧ ∃ q rest, text = q :: rest ∧ isBlank q = false ∧ q ≠ byte '@'
  | .comment style d _ => 0 < n ∧ EndsAt text n ∧ d <+: text ∧ IsWord d ∧ d.length ≤ n ∧
      (style = .line → n = (text.takeWhile (· ≠ newline)).length)

lemma Segment.Kind.Looks.endsAt {kind : Segment.Kind} {text : Bytes} {n : Nat}
    (h : kind.Looks text n) (hkind : kind.layer ≠ .code) : EndsAt text n := by
  cases kind with
  | code => exact absurd rfl hkind
  | string => exact h.2.1
  | comment => exact h.2.1

lemma Segment.Kind.Looks.length_take {kind : Segment.Kind} {text : Bytes} {n : Nat}
    (h : kind.Looks text n) : kind.Looks text (text.take (max 1 n)).length := by
  have hlength : 0 < n → (text.take (max 1 n)).length = n ∨
      (text.take (max 1 n)).length = text.length ∧ text.length ≤ n := by
    rw [List.length_take]
    omega
  cases kind with
  | code => trivial
  | string =>
    obtain ⟨hn, hends, q, rest, rfl, hq⟩ := h
    rcases hlength hn with he | ⟨he, -⟩ <;> rw [he]
    · exact ⟨hn, hends, q, rest, rfl, hq⟩
    · exact ⟨Nat.succ_pos _, endsAt_length _, q, rest, rfl, hq⟩
  | comment style d body =>
    obtain ⟨hn, hends, hpre, hword, hle, hline⟩ := h
    rcases hlength hn with he | ⟨he, hlen⟩ <;> rw [he]
    · exact ⟨hn, hends, hpre, hword, hle, hline⟩
    · have hpos := List.length_pos_of_ne_nil hword.1
      have hdl := hpre.length_le
      refine ⟨by omega, endsAt_length _, hpre, hword, hdl, fun hs => ?_⟩
      have hle : (text.takeWhile (· ≠ newline)).length ≤ text.length :=
        (List.takeWhile_prefix _).length_le
      have := hline hs
      omega

namespace Language

variable {lang : Language} {text : Bytes}

lemma length_takeWhile_of_prefix {d : Bytes} (h : d <+: text) (hd : IsWord d) :
    d.length + ((text.drop d.length).takeWhile (· ≠ newline)).length =
      (text.takeWhile (· ≠ newline)).length := by
  obtain ⟨rest, rfl⟩ := h
  rw [List.drop_left, hd.takeWhile_append, List.length_append]

lemma looks_segmentAt (hl : lang.Legible) (b : Bool) (text : Bytes) :
    (lang.segmentAt b text).1.Looks text (lang.segmentAt b text).2 := by
  have hopens := lang.opens_openingAt b text
  rw [segmentAt]
  cases h : lang.openingAt b text with
  | code => trivial
  | string =>
    rw [h] at hopens
    obtain ⟨q, rest, rfl, hq⟩ := hopens
    have hq : isBlank q = false ∧ q ≠ byte '@' := by
      rcases hq with hq | rfl
      · exact hl.quotes q hq
      · decide
    exact ⟨lang.stringLength_pos q rest, endsAt_stringLength hq.1 rest, q, rest, rfl, hq⟩
  | lineComment d =>
    rw [h] at hopens
    have hword := hl.lineComments d hopens.1
    have hpos := List.length_pos_of_ne_nil hword.1
    exact ⟨Nat.add_pos_left hpos _, (endsAt_takeWhile _).of_drop, hopens.2, hword,
      Nat.le_add_right _ _, fun _ => length_takeWhile_of_prefix hopens.2 hword⟩
  | blockComment d =>
    rw [h] at hopens
    obtain ⟨hopener, hcloser⟩ := hl.block d hopens.1
    have hpos := List.length_pos_of_ne_nil hopener.1
    have hends := (endsAt_blockBody hcloser (text.drop d.opener.length)).of_drop
    rw [← Nat.add_assoc] at hends
    refine ⟨?_, hends, hopens.2, hopener, ?_, by simp⟩ <;> dsimp only <;> omega

lemma looks_of_mem {content : Bytes} {o : Nat} {s : Segment} (hl : lang.Legible)
    (h : s ∈ lang.segments content o) : s.kind.Looks (content.drop s.start) s.length := by
  obtain ⟨-, -, hs⟩ := mem_segments h
  have hlooks := lang.looks_segmentAt hl (startsLine content s.start) (content.drop s.start)
  have hkind : s.kind = (lang.segmentAt (startsLine content s.start) (content.drop s.start)).1 :=
    congrArg Segment.kind hs
  have hlength : s.length = (lang.firstTaken content s.start).length := by
    rw [hs]
    exact Nat.add_sub_cancel_left _ _
  rw [hkind, hlength]
  exact hlooks.length_take

lemma layers_of_blanks {content : Bytes} {o n : Nat} (hl : lang.Legible) (hn : o + n ≤ content.length)
    (h : ∀ b ∈ (content.drop o).take n, isBlank b = true) :
    lang.layers content o =
      ((content.drop o).take n).map (·, .code) ++ lang.layers content (o + n) := by
  refine layers_of_codes hn fun k hk hlt => ?_
  have hkl : k < content.length := by omega
  rw [List.drop_eq_getElem_cons hkl]
  refine openingAt_of_blank hl (h _ (List.mem_of_getElem? (i := k - o) ?_)) _ _
  rw [List.getElem?_take_of_lt (by omega), List.getElem?_drop, Nat.add_sub_cancel' hk,
    List.getElem?_eq_getElem hkl]

end Language

end TrustRegions
