import TrustRegions.Proofs.CharacterLiterals
import TrustRegions.Proofs.MaskedLayers
import TrustRegions.Proofs.TextPositions

/-! Where a string ends that may not span lines: with its quote, at a newline, or with the content, whichever
comes first and is not escaped. What is escaped is told from the backslashes before it, back to the quote
that the string opens with. -/

namespace TrustRegions

open Bytes

def escapedAt (content : Bytes) (opening : Nat) : Nat → Bool
  | 0 => false
  | k + 1 => decide (opening < k) && content[k]? == some backslash && !escapedAt content opening k

def EscapedOnly (content : Bytes) (opening stop : Nat) (c : UInt8) : Prop :=
  ∀ k, opening < k → k < stop → content[k]? = some c → escapedAt content opening k = true

variable {content v t : Bytes} {opening o k n : Nat} {q c : UInt8}

section Escapes

lemma escapedAt_succ_of_backslash (ho : opening < k) (hc : content[k]? = some backslash)
    (h : escapedAt content opening k = false) : escapedAt content opening (k + 1) = true := by
  simp [escapedAt, ho, hc, h]

lemma escapedAt_succ_of_ne (hc : content[k]? = some c) (hne : c ≠ backslash) :
    escapedAt content opening (k + 1) = false := by
  simp [escapedAt, hc, hne]

lemma escapedAt_succ_of_escapedAt (h : escapedAt content opening k = true) :
    escapedAt content opening (k + 1) = false := by
  simp [escapedAt, h]

lemma backslash_of_escapedAt (h : escapedAt content opening k = true) :
    ∃ j, opening < j ∧ k = j + 1 ∧ content[j]? = some backslash := by
  cases k with
  | zero => cases h
  | succ j =>
    simp only [escapedAt, Bool.and_eq_true, decide_eq_true_eq, beq_iff_eq] at h
    exact ⟨j, h.1.1, rfl, h.1.2⟩

lemma getElem?_of_drop_eq_cons (h : content.drop o = c :: t) : content[o]? = some c := by
  rw [← Nat.add_zero o, ← List.getElem?_drop, h, List.getElem?_cons_zero]

lemma drop_succ_of_drop_eq_cons (h : content.drop o = c :: t) : content.drop (o + 1) = t := by
  rw [← List.drop_drop, h, List.drop_one, List.tail_cons]

lemma Inside.escapes (h : Inside q v) (hq : q ≠ backslash) (ho : opening < o)
    (hdrop : content.drop o = v ++ t) (hstart : escapedAt content opening o = false) :
    escapedAt content opening (o + v.length) = false ∧
      ∀ k, o ≤ k → k < o + v.length → content[k]? = some q ∨ content[k]? = some newline →
        escapedAt content opening k = true := by
  induction h generalizing o with
  | nil => exact ⟨hstart, fun k hk hlt => absurd hlt hk.not_gt⟩
  | @escaped c w _ ih =>
    have hslash := getElem?_of_drop_eq_cons hdrop
    have hdrop' := drop_succ_of_drop_eq_cons hdrop
    have hescaped := escapedAt_succ_of_backslash ho hslash hstart
    obtain ⟨hend, hall⟩ := ih (show opening < o + 1 + 1 by omega) (drop_succ_of_drop_eq_cons hdrop')
      (escapedAt_succ_of_escapedAt hescaped)
    rw [List.length_cons, List.length_cons, show o + (w.length + 1 + 1) = o + 1 + 1 + w.length by omega]
    refine ⟨hend, fun k hk hlt hends => ?_⟩
    obtain rfl | rfl | hle : k = o ∨ k = o + 1 ∨ o + 1 + 1 ≤ k := by omega
    · rw [hslash, Option.some.injEq, Option.some.injEq] at hends
      rcases hends with rfl | hnewline
      · exact absurd rfl hq
      · exact absurd hnewline (by decide)
    · exact hescaped
    · exact hall k hle hlt hends
  | @plain c w hb hne hn _ ih =>
    have hplain := getElem?_of_drop_eq_cons hdrop
    obtain ⟨hend, hall⟩ := ih (show opening < o + 1 by omega) (drop_succ_of_drop_eq_cons hdrop)
      (escapedAt_succ_of_ne hplain hb)
    rw [List.length_cons, show o + (w.length + 1) = o + 1 + w.length by omega]
    refine ⟨hend, fun k hk hlt hends => ?_⟩
    obtain rfl | hle : k = o ∨ o + 1 ≤ k := by omega
    · rw [hplain, Option.some.injEq, Option.some.injEq] at hends
      exact absurd hends (not_or.mpr ⟨hne, hn⟩)
    · exact hall k hle hlt hends

inductive StringEnd (content : Bytes) (opening : Nat) (q : UInt8) (stop : Nat) : Prop
  | quote (k : Nat) : opening < k → stop = k + 1 → content[k]? = some q →
      escapedAt content opening k = false → EscapedOnly content opening k q →
      StringEnd content opening q stop
  | newline : content[stop]? = some newline → escapedAt content opening stop = false →
      EscapedOnly content opening stop q → StringEnd content opening q stop
  | content : stop = content.length → EscapedOnly content opening stop q →
      StringEnd content opening q stop

lemma EscapedOnly.succ (h : EscapedOnly content opening k c) (hk : content[k]? = some q) (hne : q ≠ c) :
    EscapedOnly content opening (k + 1) c := by
  intro j hj hlt hc
  rcases Nat.lt_succ_iff_lt_or_eq.mp hlt with hbefore | rfl
  · exact h j hj hbefore hc
  · exact absurd (Option.some.inj (hk.symm.trans hc)) hne

end Escapes

namespace Source

variable {source : Source}

lemma exists_newline_of_line_lt (ho : (source.positionAt o).line ≤ n)
    (hk : n < (source.positionAt k).line) :
    ∃ j, o ≤ j ∧ j < k ∧ source.content[j]? = some newline ∧ (source.positionAt j).line = n := by
  induction k with
  | zero => exact absurd (source.line_le_of_le (Nat.zero_le o)) (by omega)
  | succ k ih =>
    rcases Nat.lt_or_ge n (source.positionAt k).line with hlt | hge
    · obtain ⟨j, hle, hj, hget, hline⟩ := ih hlt
      exact ⟨j, hle, hj.trans (Nat.lt_succ_self k), hget, hline⟩
    · have hok : o ≤ k := by
        by_contra hlt
        have := source.line_le_of_le (show k + 1 ≤ o by omega)
        omega
      cases hget : source.content[k]? with
      | none =>
        have hlength := List.getElem?_eq_none_iff.mp hget
        rw [positionAt_of_length_le (Nat.le_succ_of_le hlength),
          ← positionAt_of_length_le hlength] at hk
        omega
      | some c =>
        rw [positionAt_succ hget, Position.advance] at hk
        split at hk
        · next hc => exact ⟨k, hok, Nat.lt_succ_self k, by rw [hget, hc], by dsimp only at hk; omega⟩
        · dsimp only at hk
          omega

lemma rawLines_of_newline (hk : source.content[k]? = some newline) :
    source.rawLines[(source.positionAt k).line - 1]? = some (source.lineHead k) := by
  obtain ⟨hlt, hget⟩ := List.getElem?_eq_some_iff.mp hk
  have htail : source.lineTail k = [] := by
    rw [lineTail, List.drop_eq_getElem_cons hlt, hget, List.takeWhile_cons_of_neg (by simp)]
  obtain ⟨lines, -, -, hp, more, hraw⟩ := source.exists_lines_before k
  rw [hp, hraw, htail]
  simp

lemma getLast?_lineHead_succ (hc : source.content[k]? = some c) (hne : c ≠ newline) :
    (source.lineHead (k + 1)).getLast? = some c := by
  obtain ⟨hlt, rfl⟩ := List.getElem?_eq_some_iff.mp hc
  rw [lineHead, List.take_add_one, hc, Option.toList_some,
    List.rtakeWhile_concat_pos _ _ _ (by simpa using hne), List.getLast?_concat]

end Source

namespace Language

variable {lang : Language} {s : Segment}

lemma stringEnd_quotedLength (hq : isQuote q = true) (hdrop : content.drop opening = q :: t) :
    EscapedOnly content opening (opening + 1 + quotedLength q false false t) newline ∧
      StringEnd content opening q (opening + 1 + quotedLength q false false t) := by
  have hslash : q ≠ backslash := by
    rintro rfl
    exact absurd hq (by decide)
  have hnewline := ne_newline_of_isQuote hq
  have hlength := congrArg List.length hdrop
  obtain ⟨v, u, rfl, hv, hu⟩ := exists_inside q t
  have hinside := drop_succ_of_drop_eq_cons hdrop
  have hbehind : content.drop (opening + 1 + v.length) = u := by
    rw [← List.drop_drop, hinside, List.drop_left]
  rw [List.length_drop, List.length_cons, List.length_append] at hlength
  obtain ⟨hend, hall⟩ := hv.escapes hslash (Nat.lt_succ_self opening) hinside (by simp [escapedAt])
  have hquotes : EscapedOnly content opening (opening + 1 + v.length) q :=
    fun k hk hlt hc => hall k hk hlt (Or.inl hc)
  have hnewlines : EscapedOnly content opening (opening + 1 + v.length) newline :=
    fun k hk hlt hc => hall k hk hlt (Or.inr hc)
  rw [quotedLength_inside hv, ← Nat.add_assoc]
  rcases hu with rfl | rfl | ⟨c, u, rfl, hc, rfl | rfl⟩
  · rw [List.length_nil] at hlength
    have hover : opening + 1 + v.length = content.length := by omega
    exact ⟨hnewlines, .content hover hquotes⟩
  · have hget := getElem?_of_drop_eq_cons hbehind
    rw [List.length_singleton] at hlength
    have hover : opening + 1 + v.length + 1 = content.length := by omega
    exact ⟨hnewlines.succ hget (by decide), .content hover (hquotes.succ hget hslash.symm)⟩
  · have hget := getElem?_of_drop_eq_cons hbehind
    rw [quotedLength_cons (by simpa using hc), if_pos rfl]
    have hlt : opening < opening + 1 + v.length := by omega
    exact ⟨hnewlines.succ hget hnewline, .quote _ hlt rfl hget hend hquotes⟩
  · have hget := getElem?_of_drop_eq_cons hbehind
    rw [quotedLength_cons (by simpa using hc), if_neg hnewline.symm, if_pos ⟨rfl, by simp⟩]
    exact ⟨hnewlines, .newline hget hend hquotes⟩

lemma stop_eq_quotedLength (hs : s ∈ lang.segments content o) (hk : s.kind = .string)
    (hdrop : content.drop s.start = q :: t) (hback : q ≠ backquote)
    (htriple : ¬(lang.tripleQuotes = true ∧ [q, q, q] <+: content.drop s.start)) :
    s.stop = s.start + 1 + quotedLength q false false t := by
  obtain ⟨-, -, hfirst⟩ := mem_segments hs
  have hlength : lang.stringLength (content.drop s.start) = quotedLength q false false t + 1 := by
    rw [hdrop, List.cons_prefix_cons] at htriple
    rw [hdrop, stringLength, if_neg (by simpa using htriple)]
    simp only [beq_false_of_ne hback, Bool.false_and]
  have hle := quotedLength_le q false false t
  have hsegment := firstSegment_of_string (opensAt_of_mem_string hs hk)
    (by rw [hlength]; exact Nat.succ_pos _)
    (by rw [hlength, hdrop]; exact Nat.succ_le_succ hle)
  rw [hfirst, hsegment, hlength]
  dsimp only
  omega

/-- In a string that opens with one quote other than a backquote, each newline is escaped. It ends with the
first such quote that is not, or else at a newline that is not, or with the content. So it goes on behind no
line that ends with anything but a backslash. -/
theorem string_ends (tag : Bytes) (source : Source) (o : Nat) (s : Segment) (q : UInt8)
    (hs : s ∈ (ofTag tag).segments source.content o) (hk : s.kind = .string)
    (hquote : source.content[s.start]? = some q) (hback : q ≠ backquote)
    (htriple : ¬((ofTag tag).tripleQuotes = true ∧ [q, q, q] <+: source.content.drop s.start)) :
    (∀ k, s.start ≤ k → k < s.stop → source.content[k]? = some newline →
      escapedAt source.content s.start k = true) ∧
    StringEnd source.content s.start q s.stop ∧
    ∀ n l, source.rawLines[n]? = some l → (source.positionAt s.start).line ≤ n + 1 →
      l.getLast? ≠ some backslash → (source.positionAt s.stop).line ≤ n + 1 := by
  obtain ⟨q', rest, hdrop, hq, -⟩ := exists_quote_of_mem (quoted_ofTag tag) hs hk
  obtain rfl := Option.some.inj ((getElem?_of_drop_eq_cons hdrop).symm.trans hquote)
  have hstop := stop_eq_quotedLength hs hk hdrop hback htriple
  obtain ⟨hnewlines, hend⟩ := stringEnd_quotedLength hq hdrop
  rw [← hstop] at hnewlines hend
  have hescaped : ∀ k, s.start ≤ k → k < s.stop → source.content[k]? = some newline →
      escapedAt source.content s.start k = true := by
    intro k hle hlt hc
    rcases hle.lt_or_eq with hbehind | rfl
    · exact hnewlines k hbehind hlt hc
    · exact absurd (Option.some.inj (hquote.symm.trans hc)) (ne_newline_of_isQuote hq)
  refine ⟨hescaped, hend, fun n l hl hstart hlast => ?_⟩
  by_contra hover
  obtain ⟨k, hle, hklt, hnewline, hline⟩ :=
    Source.exists_newline_of_line_lt hstart (Nat.lt_of_not_le hover)
  obtain ⟨j, -, rfl, hslash⟩ := backslash_of_escapedAt (hescaped k hle hklt hnewline)
  have hraw := Source.rawLines_of_newline hnewline
  rw [hline, Nat.add_sub_cancel, hl] at hraw
  rw [Option.some.inj hraw, Source.getLast?_lineHead_succ hslash (by decide)] at hlast
  exact hlast rfl

def continuedString : Source := ⟨ascii "\"a\\\\\\\"\\\nb\nc"⟩

theorem string_ends_continuedString :
    ⟨.string, 0, 9⟩ ∈ (ofTag (ascii "rust")).segments continuedString.content 0 ∧
    continuedString.content[0]? = some doubleQuote ∧ doubleQuote ≠ backquote ∧
    ¬((ofTag (ascii "rust")).tripleQuotes = true ∧
      [doubleQuote, doubleQuote, doubleQuote] <+: continuedString.content.drop 0) ∧
    escapedAt continuedString.content 0 7 = true ∧ StringEnd continuedString.content 0 doubleQuote 9 ∧
    (continuedString.positionAt 9).line ≤ 2 := by
  have hmem : ⟨.string, 0, 9⟩ ∈ (ofTag (ascii "rust")).segments continuedString.content 0 := by
    decide +kernel
  have htriple : ¬((ofTag (ascii "rust")).tripleQuotes = true ∧
      [doubleQuote, doubleQuote, doubleQuote] <+: continuedString.content.drop 0) := by decide +kernel
  obtain ⟨hnewlines, hend, hlines⟩ := string_ends (ascii "rust") continuedString 0 _ doubleQuote hmem rfl
    rfl (by decide) htriple
  have hescaped := hnewlines 7 (by decide) (by decide) rfl
  have hline := hlines 1 (ascii "b") (by decide +kernel) (by decide) (by decide)
  exact ⟨hmem, rfl, by decide, htriple, hescaped, hend, hline⟩

-- An escaped backslash hides no quote, and an escaped newline ends no string.
example : rust.segments (ascii "\"a\\\\\"b") 0 = [⟨.string, 0, 5⟩, ⟨.code, 5, 6⟩] ∧
    rust.segments (ascii "\"a\\\nb\"c") 0 = [⟨.string, 0, 6⟩, ⟨.code, 6, 7⟩] := by
  decide +kernel

end Language

end TrustRegions
