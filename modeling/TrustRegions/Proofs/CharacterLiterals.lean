import Mathlib.Data.List.TakeWhile
import TrustRegions.Proofs.Tiling

/-! Where an apostrophe opens a character literal, and where the string that it opens ends. The literal is
told by its first backslash and by its first byte alone, the string by all of them. -/

namespace TrustRegions

open Bytes

inductive Inside (q : UInt8) : Bytes → Prop
  | nil : Inside q []
  | escaped (c : UInt8) {w : Bytes} : Inside q w → Inside q (backslash :: c :: w)
  | plain {c : UInt8} {w : Bytes} : c ≠ backslash → c ≠ q → c ≠ newline → Inside q w → Inside q (c :: w)

namespace Language

variable {lang : Language} {content : Bytes} {q c : UInt8} {o k n : Nat} {s : Segment}
  {w t text body after : Bytes}

section Strings

lemma quotedLength_le (q : UInt8) (raw multiline : Bool) (text : Bytes) :
    quotedLength q raw multiline text ≤ text.length := by
  fun_induction quotedLength q raw multiline text with
  | case1 => exact le_rfl
  | case2 => exact le_rfl
  | case3 c _ d rest ih => exact Nat.add_le_add_right ih 2
  | case4 rest => exact Nat.succ_le_succ (Nat.zero_le _)
  | case5 => exact Nat.zero_le _
  | case6 c rest _ _ _ ih => exact Nat.succ_le_succ ih

lemma quotedLength_inside (h : Inside q w) (t : Bytes) :
    quotedLength q false false (w ++ t) = w.length + quotedLength q false false t := by
  induction h with
  | nil => simp
  | escaped c _ ih =>
    rw [List.cons_append, List.cons_append, quotedLength_escaped (by simp), ih]
    simp only [List.length_cons]
    omega
  | plain hb hq hn _ ih =>
    rw [List.cons_append, quotedLength_cons (by simpa using hb), if_neg hq, if_neg (by simp [hn]), ih]
    simp only [List.length_cons]
    omega

lemma exists_inside (q : UInt8) (w : Bytes) :
    ∃ v u, w = v ++ u ∧ Inside q v ∧
      (u = [] ∨ u = [backslash] ∨ ∃ c u', u = c :: u' ∧ c ≠ backslash ∧ (c = q ∨ c = newline)) := by
  fun_induction quotedLength q false false w with
  | case1 => exact ⟨[], [], rfl, .nil, Or.inl rfl⟩
  | case2 c hc =>
    obtain rfl : c = backslash := by simpa using hc
    exact ⟨[], _, rfl, .nil, Or.inr (Or.inl rfl)⟩
  | case3 c hc d rest ih =>
    obtain rfl : c = backslash := by simpa using hc
    obtain ⟨v, u, rfl, hv, hu⟩ := ih
    exact ⟨backslash :: d :: v, u, rfl, .escaped d hv, hu⟩
  | case4 rest hc => exact ⟨[], _, rfl, .nil, Or.inr (Or.inr ⟨q, rest, rfl, by simpa using hc, Or.inl rfl⟩)⟩
  | case5 c rest hc _ hn =>
    exact ⟨[], _, rfl, .nil, Or.inr (Or.inr ⟨c, rest, rfl, by simpa using hc, Or.inr hn.1⟩)⟩
  | case6 c rest hc hq hn ih =>
    obtain ⟨v, u, rfl, hv, hu⟩ := ih
    exact ⟨c :: v, u, rfl, .plain (by simpa using hc) hq (by simpa using hn) hv, hu⟩

lemma quotedLength_eq_zero_iff (hn : q ≠ newline) :
    quotedLength q false false t = 0 ↔ ∀ c ∈ t.head?, c = newline := by
  fun_cases quotedLength q false false t with
  | case1 => simp
  | case2 c hc =>
    obtain rfl : c = backslash := by simpa using hc
    simp [show backslash ≠ newline by decide]
  | case3 c hc d rest =>
    obtain rfl : c = backslash := by simpa using hc
    simp [show backslash ≠ newline by decide]
  | case4 rest hc => simp [hn]
  | case5 c rest hc hq hc' => simp [hc'.1]
  | case6 c rest hc hq hc' =>
    have hne : c ≠ newline := by simpa using hc'
    simp [hne]

lemma quotedLength_closing (hb : q ≠ backslash) (hn : q ≠ newline) (body after : Bytes) :
    quotedLength q false false (body ++ q :: after) = body.length + 1 ↔
      Inside q body ∨
        ∃ w, body = w ++ [backslash] ∧ Inside q w ∧ ∀ c ∈ after.head?, c = newline := by
  have hquote : quotedLength q false false (q :: after) = 1 := by
    rw [quotedLength_cons (by simpa using hb), if_pos rfl]
  have hhidden : quotedLength q false false (backslash :: q :: after) =
      quotedLength q false false after + 2 := quotedLength_escaped (by simp) q after
  constructor
  · intro h
    obtain ⟨v, u, rfl, hv, hu⟩ := exists_inside q body
    rw [List.append_assoc, quotedLength_inside hv, List.length_append] at h
    rcases hu with rfl | rfl | ⟨c, u, rfl, hc, hends⟩
    · exact Or.inl (by rwa [List.append_nil])
    · rw [List.singleton_append, hhidden, List.length_singleton] at h
      exact Or.inr ⟨v, rfl, hv, (quotedLength_eq_zero_iff hn).mp (by omega)⟩
    · rw [List.cons_append, quotedLength_cons (by simpa using hc), List.length_cons] at h
      rcases hends with rfl | rfl
      · rw [if_pos rfl] at h
        omega
      · rw [if_neg hn.symm, if_pos ⟨rfl, by simp⟩] at h
        omega
  · rintro (h | ⟨w, rfl, hw, hafter⟩)
    · rw [quotedLength_inside h, hquote]
    · have hzero := (quotedLength_eq_zero_iff hn).mpr hafter
      rw [List.append_assoc, List.singleton_append, quotedLength_inside hw, hhidden, hzero,
        List.length_append, List.length_singleton]

end Strings

section Literals

inductive LiteralBody : Bytes → Prop
  | escape {c : UInt8} {w : Bytes} : apostrophe ∉ w → newline ∉ c :: w → w.length ≤ 10 →
      LiteralBody (backslash :: c :: w)
  | character {c : UInt8} {w : Bytes} : c ≠ backslash → c ≠ apostrophe → c ≠ newline →
      (c :: w).length = characterLength c → LiteralBody (c :: w)

lemma exists_escape (h : escapeLength? text = some n) :
    ∃ c w after, text = c :: (w ++ apostrophe :: after) ∧ n = w.length + 2 ∧ apostrophe ∉ w ∧
      newline ∉ c :: w ∧ w.length ≤ 10 := by
  rw [escapeLength?] at h
  obtain ⟨j, hj, rfl⟩ := Option.map_eq_some_iff.mp h
  generalize he : (text.take 12).takeWhile (· ≠ newline) = escape at hj
  have hnewline : newline ∉ escape := by
    intro hmem
    rw [← he] at hmem
    simpa using List.mem_takeWhile_imp hmem
  have hdozen : escape.length ≤ 12 := by
    rw [← he]
    exact (List.takeWhile_prefix _).length_le.trans (List.length_take_le 12 text)
  obtain ⟨r, hr⟩ : escape <+: text := he ▸ (List.takeWhile_prefix _).trans (List.take_prefix 12 text)
  cases escape with
  | nil => simp at hj
  | cons c l =>
    rw [List.tail_cons] at hj
    obtain ⟨hlt, hquote, hbefore⟩ := List.findIdx?_eq_some_iff_getElem.mp hj
    have hsplit : l = l.take j ++ apostrophe :: l.drop (j + 1) := by
      rw [← (by simpa using hquote : l[j] = apostrophe), ← List.drop_eq_getElem_cons hlt,
        List.take_append_drop]
    rw [List.length_cons] at hdozen
    refine ⟨c, l.take j, l.drop (j + 1) ++ r, ?_, ?_, ?_, ?_, ?_⟩
    · rw [← hr, List.cons_append]
      conv_lhs => rw [hsplit]
      simp
    · rw [List.length_take, Nat.min_eq_left hlt.le]
    · intro hmem
      obtain ⟨i, hi, hget⟩ := List.mem_take_iff_getElem.mp hmem
      have hne := hbefore i (by omega)
      simp [hget] at hne
    · intro hmem
      exact hnewline (List.cons_subset_cons c (List.take_subset j l) hmem)
    · rw [List.length_take]
      omega

lemma exists_literalBody (h : charLiteralLength? text = some n) :
    ∃ body after, text = body ++ apostrophe :: after ∧ n = body.length + 2 ∧ LiteralBody body := by
  rw [charLiteralLength?.eq_def] at h
  split at h
  · cases h
  · next c rest =>
    split at h
    · cases h
    · next hc =>
      rw [not_or] at hc
      split at h
      · next hb =>
        subst hb
        obtain ⟨m, hm, rfl⟩ := Option.map_eq_some_iff.mp h
        obtain ⟨d, w, after, rfl, rfl, hquote, hnewline, hlength⟩ := exists_escape hm
        exact ⟨backslash :: d :: w, after, by simp, by simp, .escape hquote hnewline hlength⟩
      · next hb =>
        dsimp only at h
        split at h
        · next hget =>
          obtain rfl := Option.some.inj h
          obtain ⟨hlt, hget⟩ := List.getElem?_eq_some_iff.mp hget
          have hpos : 0 < characterLength c := by
            rw [characterLength]
            repeat' split
            all_goals exact Nat.succ_pos _
          obtain ⟨m, hm⟩ := Nat.exists_eq_succ_of_ne_zero hpos.ne'
          have hlength : ((c :: rest).take (characterLength c)).length = characterLength c := by
            rw [List.length_take, Nat.min_eq_left hlt.le]
          refine ⟨(c :: rest).take (characterLength c), (c :: rest).drop (characterLength c + 1), ?_,
            by rw [hlength], ?_⟩
          · rw [← hget, ← List.drop_eq_getElem_cons hlt, List.take_append_drop]
          · rw [hm, List.take_succ_cons] at hlength ⊢
            exact .character hb hc.2 hc.1 (hlength.trans hm.symm)
        · cases h

lemma openingAt_apostrophe (hchars : lang.charLiterals = true) {b : Bool}
    (h : lang.openingAt b (apostrophe :: t) = .code ∨ lang.openingAt b (apostrophe :: t) = .string) :
    lang.openingAt b (apostrophe :: t) =
      if (charLiteralLength? t).isSome then .string else .code := by
  rw [openingAt] at h ⊢
  split
  · next hblock => simp [hblock] at h
  · next hblock =>
    rw [hblock] at h
    dsimp only at h
    split
    · next hline => simp [hline] at h
    · exact if_pos ⟨rfl, hchars⟩

lemma LiteralBody.head? (h : LiteralBody body) : ∃ c w, body = c :: w ∧ c ≠ apostrophe := by
  cases h with
  | escape => exact ⟨_, _, rfl, by decide⟩
  | character _ hc => exact ⟨_, _, rfl, hc⟩

lemma stringLength_literal (lang : Language) (h : LiteralBody body) (after : Bytes) :
    lang.stringLength (apostrophe :: (body ++ apostrophe :: after)) =
      quotedLength apostrophe false false (body ++ apostrophe :: after) + 1 := by
  obtain ⟨c, w, rfl, hc⟩ := h.head?
  have hone : (apostrophe == backquote) = false := by decide
  have htriple : [apostrophe, apostrophe].isPrefixOf (c :: w ++ apostrophe :: after) = false := by
    rw [List.cons_append, List.isPrefixOf_cons_cons, beq_false_of_ne hc.symm, Bool.false_and]
  rw [stringLength, htriple, if_neg (by simp)]
  simp only [hone, Bool.false_and]

lemma firstSegment_of_string (h : lang.opensAt content o = .string)
    (hpos : 0 < lang.stringLength (content.drop o))
    (hle : lang.stringLength (content.drop o) ≤ (content.drop o).length) :
    lang.firstSegment content o = ⟨.string, o, o + lang.stringLength (content.drop o)⟩ := by
  refine firstSegment_eq ?_ hpos hle
  rw [segmentAt, ← opensAt, h]

inductive Proper : Bytes → Prop
  | escape {c : UInt8} {w : Bytes} : backslash ∉ w → Proper (backslash :: c :: w)
  | character {c : UInt8} {w : Bytes} : c ≠ backslash → (∀ d ∈ w, 128 ≤ d) → Proper (c :: w)

lemma inside_of_forall (h : ∀ c ∈ w, c ≠ backslash ∧ c ≠ q ∧ c ≠ newline) : Inside q w := by
  induction w with
  | nil => exact .nil
  | cons c w ih =>
    obtain ⟨⟨hb, hq, hn⟩, hw⟩ := List.forall_mem_cons.mp h
    exact .plain hb hq hn (ih hw)

lemma LiteralBody.inside (h : LiteralBody body) (hproper : Proper body) :
    Inside apostrophe body ∧ newline ∉ body := by
  cases h with
  | @escape c w hquote hnewline _ =>
    cases hproper with
    | escape hb =>
      refine ⟨.escaped c (inside_of_forall fun d hd => ⟨?_, ?_, ?_⟩), ?_⟩
      · exact fun heq => hb (heq ▸ hd)
      · exact fun heq => hquote (heq ▸ hd)
      · exact fun heq => hnewline (List.mem_cons_of_mem c (heq ▸ hd))
      · exact List.not_mem_cons_of_ne_of_not_mem (by decide) hnewline
    | character hb => exact absurd rfl hb
  | @character c w hb hquote hnewline _ =>
    cases hproper with
    | escape => exact absurd rfl hb
    | character _ hw =>
      have hplain : ∀ d ∈ c :: w, d ≠ backslash ∧ d ≠ apostrophe ∧ d ≠ newline := by
        refine List.forall_mem_cons.mpr ⟨⟨hb, hquote, hnewline⟩, fun d hd => ?_⟩
        have hge := hw d hd
        refine ⟨?_, ?_, ?_⟩ <;> rintro rfl <;> exact absurd hge (by decide)
      exact ⟨inside_of_forall hplain, fun hmem => (hplain newline hmem).2.2 rfl⟩

/-- Where no comment opens at an apostrophe, a string does if it is accepted as that of a literal. The
string ends with the apostrophe that was accepted as the closing one if nothing before that ends it, or if
that is hidden by a backslash and the line ends behind it; so it does for each literal as it should be. -/
theorem stop_charLiteral (lang : Language) (content : Bytes) (o k : Nat) (s : Segment)
    (hchars : lang.charLiterals = true) (hquote : content[o]? = some apostrophe)
    (hopens : lang.opensAt content o = .code ∨ lang.opensAt content o = .string)
    (hs : s ∈ lang.segments content k) (hstart : s.start = o) :
    (s.kind = .string ↔ (charLiteralLength? (content.drop (o + 1))).isSome = true) ∧
    ∀ n, charLiteralLength? (content.drop (o + 1)) = some n →
      ∃ body after, content.drop o = apostrophe :: (body ++ apostrophe :: after) ∧
        n = body.length + 2 ∧ LiteralBody body ∧
        (s.stop = o + n ↔ Inside apostrophe body ∨
          ∃ w, body = w ++ [backslash] ∧ Inside apostrophe w ∧ ∀ c ∈ after.head?, c = newline) ∧
        (Proper body → s.stop = o + n ∧ newline ∉ (content.drop o).take s.length) := by
  obtain ⟨-, hlt, hfirst⟩ := mem_segments hs
  rw [hstart] at hlt hfirst
  have hdrop : content.drop o = apostrophe :: content.drop (o + 1) := by
    rw [List.drop_eq_getElem_cons hlt, (List.getElem?_eq_some_iff.mp hquote).2]
  have hopening : lang.opensAt content o =
      if (charLiteralLength? (content.drop (o + 1))).isSome then .string else .code := by
    rw [opensAt, hdrop] at hopens ⊢
    exact openingAt_apostrophe hchars hopens
  have hcode : s.kind = .code ↔ lang.opensAt content o = .code := by
    rw [hfirst]
    exact lang.kind_firstSegment_eq_code_iff content o
  cases hn : charLiteralLength? (content.drop (o + 1)) with
  | none =>
    rw [hn] at hopening
    exact ⟨by simp [hcode.mpr hopening], by simp⟩
  | some n =>
    rw [hn] at hopening
    obtain ⟨body, after, htext, hlength, hbody⟩ := exists_literalBody hn
    rw [htext] at hdrop
    have hstring := lang.stringLength_literal hbody after
    have hle := quotedLength_le apostrophe false false (body ++ apostrophe :: after)
    have hsegment := firstSegment_of_string hopening (by rw [hdrop, hstring]; exact Nat.succ_pos _)
      (by rw [hdrop, hstring]; exact Nat.succ_le_succ hle)
    rw [hdrop, hstring] at hsegment
    have hstop : s.stop = o + n ↔
        quotedLength apostrophe false false (body ++ apostrophe :: after) = body.length + 1 := by
      rw [hfirst, hsegment]
      dsimp only
      omega
    rw [quotedLength_closing (by decide) (by decide)] at hstop
    refine ⟨by simp [hfirst, hsegment], fun m hm => ?_⟩
    obtain rfl := Option.some.inj hm
    refine ⟨body, after, hdrop, hlength, hbody, hstop, fun hproper => ?_⟩
    obtain ⟨hinside, hnewline⟩ := hbody.inside hproper
    have hends := hstop.mpr (Or.inl hinside)
    have htake : (content.drop o).take s.length = apostrophe :: (body ++ [apostrophe]) := by
      rw [hdrop, Segment.length, hends, hstart, hlength, Nat.add_sub_cancel_left, List.take_succ_cons,
        List.take_length_add_append]
      simp
    rw [htake]
    refine ⟨hends, ?_⟩
    simp [hnewline, show newline ≠ apostrophe by decide]

def escapedApostrophe : Bytes := ascii "'a '\\'' b"

theorem stop_charLiteral_escapedApostrophe :
    rust.charLiterals = true ∧ escapedApostrophe[3]? = some apostrophe ∧
    (rust.opensAt escapedApostrophe 3 = .code ∨ rust.opensAt escapedApostrophe 3 = .string) ∧
    ⟨.string, 3, 7⟩ ∈ rust.segments escapedApostrophe 0 ∧
    charLiteralLength? (escapedApostrophe.drop 4) = some 4 ∧
    newline ∉ (escapedApostrophe.drop 3).take 4 := by
  have hquote : escapedApostrophe[3]? = some apostrophe := by decide
  have hopens : rust.opensAt escapedApostrophe 3 = .string := by decide +kernel
  have hmem : ⟨.string, 3, 7⟩ ∈ rust.segments escapedApostrophe 0 := by decide +kernel
  have hlength : charLiteralLength? (escapedApostrophe.drop 4) = some 4 := by decide +kernel
  obtain ⟨-, haccepted⟩ :=
    stop_charLiteral rust escapedApostrophe 3 0 _ rfl hquote (Or.inr hopens) hmem rfl
  obtain ⟨body, after, htext, hn, -, -, hproper⟩ := haccepted 4 hlength
  have hbody : body = [backslash, apostrophe] := by
    have htail := congrArg List.tail htext
    have htwo : body.length = 2 := by omega
    rw [List.tail_cons] at htail
    have htake := congrArg (List.take 2) htail
    rw [List.take_append_of_le_length htwo.ge, List.take_of_length_le htwo.le] at htake
    exact htake.symm.trans (by decide)
  exact ⟨rfl, hquote, Or.inr hopens, hmem, hlength, (hproper (hbody ▸ .escape (by simp))).2⟩

-- A second backslash hides the apostrophe that is accepted, and so the string goes on behind it. A byte
-- that announces more than two others is followed by an apostrophe, and so the string ends before it.
example : charLiteralLength? (ascii "\\a\\'b'") = some 5 ∧
    rust.segments (ascii "'\\a\\'b'") 0 = [⟨.string, 0, 7⟩] ∧
    charLiteralLength? (0xE2 :: ascii "'x'") = some 5 ∧
    rust.segments (apostrophe :: 0xE2 :: ascii "'x'") 0 = [⟨.string, 0, 3⟩, ⟨.code, 3, 5⟩] := by
  decide +kernel

end Literals

end Language

end TrustRegions
