import TrustRegions.Proofs.Provenance
import TrustRegions.Proofs.Tiling

/-! What the scope of a trailing directive leaves out at the front of its line: closers and words that
close a block, but also what looks like them in a string or a comment from a line above. -/

namespace TrustRegions

namespace Bytes

def WholeAt (word text : Bytes) (j : Nat) : Prop :=
  startsWithWord word (text.drop j) = true ∧ ∀ c ∈ (text.take j).getLast?, isWordByte c = false

variable {word text l a t u : Bytes} {j : Nat} {c : UInt8}

lemma exists_of_startsWithWord (h : startsWithWord word text = true) :
    ∃ rest, text = word ++ rest ∧ 0 < word.length ∧ ∀ c ∈ rest.head?, isWordByte c = false := by
  simp only [startsWithWord, Bool.and_eq_true, Bool.not_eq_true', List.isEmpty_eq_false_iff] at h
  obtain ⟨⟨hne, hpre⟩, hnext⟩ := h
  obtain ⟨rest, rfl⟩ := List.isPrefixOf_iff_prefix.mp hpre
  rw [List.drop_left] at hnext
  exact ⟨rest, rfl, List.length_pos_of_ne_nil hne, fun c hc => by simpa [Option.mem_def.mp hc] using hnext⟩

lemma wholeAt_zero (h : startsWithWord word text = true) : WholeAt word text 0 := ⟨h, by simp⟩

lemma WholeAt.append_left (h : WholeAt word t j)
    (hl : j = 0 → ∀ c ∈ l.getLast?, isWordByte c = false) : WholeAt word (l ++ t) (l.length + j) := by
  refine ⟨by rw [List.drop_length_add_append]; exact h.1, fun c hc => ?_⟩
  rw [List.take_length_add_append, List.getLast?_append] at hc
  cases hlast : (t.take j).getLast? with
  | some d =>
    rw [hlast, Option.some_or] at hc
    exact h.2 c (hlast ▸ hc)
  | none =>
    rw [hlast, Option.none_or] at hc
    refine hl ?_ c hc
    obtain ⟨rest, hdrop, hpos, -⟩ := exists_of_startsWithWord h.1
    rcases List.take_eq_nil_iff.mp (List.getLast?_eq_none_iff.mp hlast) with hj | rfl
    · exact hj
    · have hlength := congrArg List.length hdrop
      simp only [List.drop_nil, List.length_nil, List.length_append] at hlength
      omega

lemma WholeAt.congr (h : WholeAt word (a ++ c :: t) j) (hc : c ∉ word) (hj : j ≤ a.length) :
    WholeAt word (a ++ c :: u) j := by
  obtain ⟨hword, hbefore⟩ := h
  rw [List.drop_append_of_le_length hj, startsWithWord_append_cons hc _ t u] at hword
  rw [List.take_append_of_le_length hj] at hbefore
  refine ⟨?_, ?_⟩
  · rwa [List.drop_append_of_le_length hj]
  · rwa [List.take_append_of_le_length hj]

end Bytes

section Closers

variable {word : Bytes} {i j limit column : Nat} {c : UInt8} {content : Bytes}

def ClosesAt (word content : Bytes) (k : Nat) : Prop :=
  ∃ c, content[k]? = some c ∧
    (isLeadingCloser c = true ∨ ∃ j ≤ k, k < j + word.length ∧ word.WholeAt content j)

lemma isWordByte_of_isLeadingCloser (h : isLeadingCloser c = true) : isWordByte c = false := by
  simp only [isLeadingCloser, Bool.or_eq_true, beq_iff_eq] at h
  rcases h with ((((((rfl | rfl) | rfl) | rfl) | rfl) | rfl) | rfl) | rfl <;> decide

lemma isLeadingCloser_of_isIndent (h : isIndent c = true) : isLeadingCloser c = true := by
  simp only [isIndent, Bool.or_eq_true, beq_iff_eq] at h
  rcases h with rfl | rfl <;> decide

lemma ClosesAt.congr {a t u : Bytes} (h : ClosesAt word (a ++ c :: t) i) (hc : c ∉ word)
    (hi : i < a.length) : ClosesAt word (a ++ c :: u) i := by
  obtain ⟨x, hx, hcloses⟩ := h
  rw [List.getElem?_append_left hi] at hx
  refine ⟨x, by rwa [List.getElem?_append_left hi], hcloses.imp_right ?_⟩
  rintro ⟨j, hj, hlt, hword⟩
  exact ⟨j, hj, hlt, hword.congr hc (by omega)⟩

lemma ClosesAt.append_left {l t : Bytes} (h : ClosesAt word t i)
    (hl : ∀ c ∈ l.getLast?, word.WholeAt t 0 → isWordByte c = false) :
    ClosesAt word (l ++ t) (l.length + i) := by
  obtain ⟨c, hc, hcloses⟩ := h
  refine ⟨c, by rwa [List.getElem?_append_right (Nat.le_add_right _ _), Nat.add_sub_cancel_left], ?_⟩
  refine hcloses.imp_right ?_
  rintro ⟨j, hj, hlt, hword⟩
  refine ⟨l.length + j, by omega, by omega, hword.append_left ?_⟩
  rintro rfl c hc
  exact hl c hc hword

lemma closesAt_of_lt_closersEnd (hword : ∀ c ∈ word.head?, isWordByte c = true) (text : Bytes)
    (h : column + i < closersEnd word limit column text) : ClosesAt word text i := by
  fun_induction closersEnd word limit column text generalizing i with
  | case1 => omega
  | case2 => omega
  | case3 column c rest _ hc ih =>
    cases i with
    | zero => exact ⟨c, rfl, Or.inl hc⟩
    | succ i =>
      have hrest := (ih (i := i) (by omega)).append_left (l := [c]) ?_
      · rwa [List.length_singleton, Nat.add_comm] at hrest
      · intro d hd _
        obtain rfl : c = d := by simpa using hd
        exact isWordByte_of_isLeadingCloser hc
  | case4 column c rest _ _ hstarts ih =>
    obtain ⟨tail, htext, hpos, hnext⟩ := Bytes.exists_of_startsWithWord hstarts
    obtain rfl : rest.drop (word.length - 1) = tail := by
      rw [← List.drop_succ_cons, Nat.sub_add_cancel hpos, htext, List.drop_left]
    rcases Nat.lt_or_ge i word.length with hlt | hle
    · refine ⟨word[i], ?_, Or.inr ⟨0, Nat.zero_le i, by omega, Bytes.wholeAt_zero hstarts⟩⟩
      rw [htext, List.getElem?_append_left hlt, List.getElem?_eq_getElem hlt]
    · obtain ⟨i, rfl⟩ := Nat.exists_eq_add_of_le hle
      rw [htext]
      refine (ih (i := i) (by omega)).append_left fun d _ hagain => ?_
      -- After a whole word comes a byte that goes on with no word, so no other word begins there.
      obtain ⟨more, hmore, -⟩ := Bytes.exists_of_startsWithWord hagain.1
      obtain ⟨w, ws, rfl⟩ := List.exists_cons_of_ne_nil (List.ne_nil_of_length_pos hpos)
      rw [List.drop_zero] at hmore
      have hw := hnext w (by rw [hmore]; rfl)
      rw [hword w rfl] at hw
      cases hw
  | case5 => omega

lemma closersEnd_stops {text rest : Bytes} (h : closersEnd word limit column text < limit)
    (hc : text.drop (closersEnd word limit column text - column) = c :: rest) :
    isLeadingCloser c = false ∧ Bytes.startsWithWord word (c :: rest) = false := by
  fun_induction closersEnd word limit column text with
  | case1 => simp at hc
  | case2 column _ _ hle => exact absurd h hle.not_gt
  | case3 column d text _ _ ih =>
    have hle := le_closersEnd word limit (column + 1) text
    have hsub : closersEnd word limit (column + 1) text - column =
        closersEnd word limit (column + 1) text - (column + 1) + 1 := by omega
    rw [hsub, List.drop_succ_cons] at hc
    exact ih h hc
  | case4 column d text _ _ hword ih =>
    obtain ⟨-, -, hpos, -⟩ := Bytes.exists_of_startsWithWord hword
    have hle := le_closersEnd word limit (column + word.length) (text.drop (word.length - 1))
    have hsub : closersEnd word limit (column + word.length) (text.drop (word.length - 1)) - column =
        word.length - 1 + (closersEnd word limit (column + word.length)
          (text.drop (word.length - 1)) - (column + word.length)) + 1 := by omega
    rw [hsub, List.drop_succ_cons, ← List.drop_drop] at hc
    exact ih h hc
  | case5 column d text _ hd hword =>
    rw [Nat.sub_self, List.drop_zero] at hc
    obtain ⟨rfl, rfl⟩ := List.cons.inj hc
    exact ⟨by simpa using hd, by simpa using hword⟩

def leftOut (word : Bytes) (indent : Nat) (code rest : Bytes) : Nat :=
  min (closersEnd word (indent + 1 + code.length) (indent + 1) (code ++ rest) - (indent + 1)) code.length

variable {indent : Nat} {code rest : Bytes}

lemma leftOut_le (word : Bytes) (indent : Nat) (code rest : Bytes) :
    leftOut word indent code rest ≤ code.length := Nat.min_le_right _ _

lemma closesAt_of_lt_leftOut (hword : ∀ c ∈ word.head?, isWordByte c = true)
    (h : i < leftOut word indent code rest) : ClosesAt word (code ++ rest) i := by
  have hlt : indent + 1 + i < closersEnd word (indent + 1 + code.length) (indent + 1) (code ++ rest) := by
    rw [leftOut] at h
    omega
  exact closesAt_of_lt_closersEnd hword _ hlt

lemma leftOut_stops (h : leftOut word indent code rest < code.length) :
    ∃ x more, code.drop (leftOut word indent code rest) = x :: more ∧ isLeadingCloser x = false ∧
      Bytes.startsWithWord word (x :: (more ++ rest)) = false := by
  have hle := le_closersEnd word (indent + 1 + code.length) (indent + 1) (code ++ rest)
  have hend : leftOut word indent code rest =
      closersEnd word (indent + 1 + code.length) (indent + 1) (code ++ rest) - (indent + 1) := by
    rw [leftOut] at h ⊢
    omega
  have hdrop := List.drop_eq_getElem_cons h
  refine ⟨_, _, hdrop, ?_⟩
  have hlt : closersEnd word (indent + 1 + code.length) (indent + 1) (code ++ rest) <
      indent + 1 + code.length := by
    omega
  refine closersEnd_stops hlt ?_
  rw [← hend, List.drop_append_of_le_length h.le, hdrop, List.cons_append]

end Closers

namespace Language

variable {lang : Language} {content text : Bytes} {k : Nat} {b : Bool} {c : UInt8} {s : Segment}

structure ClosesPlainly (lang : Language) : Prop extends lang.Legible where
  terminator : ∀ c ∈ lang.blockTerminator, isWordByte c = true
  openers : ∀ c ∈ lang.openerBytes, isLeadingCloser c = false ∧ isWordByte c = false

lemma closesPlainly_ofTag (tag : Bytes) : (ofTag tag).ClosesPlainly where
  toLegible := legible_ofTag tag
  terminator := (by decide +kernel :
    ∀ l ∈ generic :: known, ∀ c ∈ l.blockTerminator, isWordByte c = true) _ (ofTag_mem tag)
  openers := (by decide +kernel : ∀ l ∈ generic :: known,
    ∀ c ∈ l.openerBytes, isLeadingCloser c = false ∧ isWordByte c = false) _ (ofTag_mem tag)

lemma opensAt_of_closes (hp : lang.ClosesPlainly) (hc : content[k]? = some c)
    (h : isLeadingCloser c = true ∨ c ∈ lang.blockTerminator) : lang.opensAt content k = .code := by
  obtain ⟨hk, hget⟩ := List.getElem?_eq_some_iff.mp hc
  by_contra hne
  rw [opensAt, List.drop_eq_getElem_cons hk, hget] at hne
  obtain ⟨hcloser, hword⟩ := hp.openers c (mem_openerBytes hp.toLegible hne)
  rcases h with h | h
  · rw [h] at hcloser
    cases hcloser
  · rw [hp.terminator c h] at hword
    cases hword

lemma kind_eq_code_of_closes (hp : lang.ClosesPlainly) (hs : s ∈ lang.segments content 0)
    (hc : content[s.start]? = some c) (h : isLeadingCloser c = true ∨ c ∈ lang.blockTerminator) :
    s.kind = .code := by
  rw [(mem_segments hs).2.2]
  exact (lang.kind_firstSegment_eq_code_iff content s.start).mpr (opensAt_of_closes hp hc h)

end Language

lemma ClosesAt.exists_byte {word content : Bytes} {k : Nat} (h : ClosesAt word content k) :
    ∃ c, content[k]? = some c ∧ (isLeadingCloser c = true ∨ c ∈ word) := by
  obtain ⟨c, hc, hcloses⟩ := h
  refine ⟨c, hc, hcloses.imp_right ?_⟩
  rintro ⟨j, hj, hlt, hword⟩
  obtain ⟨rest, hdrop, -⟩ := Bytes.exists_of_startsWithWord hword.1
  obtain ⟨i, rfl⟩ := Nat.exists_eq_add_of_le hj
  rw [← List.getElem?_drop, hdrop, List.getElem?_append_left (by omega)] at hc
  exact List.mem_of_getElem? hc

namespace Source

structure LineSplit (s : Source) (o : Nat) (before lead code : Bytes) : Prop where
  take_eq : s.content.take o = before ++ (lead ++ code)
  lineHead_eq : s.lineHead o = lead ++ code
  ends : ∀ x ∈ before.getLast?, x = newline
  indent : ∀ x ∈ lead, isIndent x = true
  shows : ∀ x ∈ code.head?, isIndent x = false

variable {s : Source} {lang : Language} {o k : Nat} {c : UInt8} {t : Span} {before lead code : Bytes}

lemma exists_lineSplit (s : Source) (o : Nat) : ∃ before lead code, s.LineSplit o before lead code := by
  obtain ⟨before, htake, hlast⟩ := s.take_eq_append_lineHead o
  have hsplit := List.takeWhile_append_dropWhile (p := isIndent) (l := s.lineHead o)
  refine ⟨before, _, _, htake.trans (congrArg _ hsplit.symm), hsplit.symm, hlast,
    fun x hx => List.mem_takeWhile_imp hx, fun x hx => ?_⟩
  have hnot := List.head?_dropWhile_not isIndent (s.lineHead o)
  rw [Option.mem_def.mp hx] at hnot
  simpa using hnot

namespace LineSplit

lemma length_eq (h : s.LineSplit o before lead code) (ho : o ≤ s.content.length) :
    before.length + (lead.length + code.length) = o := by
  have hlength := congrArg List.length h.take_eq
  rw [List.length_take, Nat.min_eq_left ho, List.length_append, List.length_append] at hlength
  exact hlength.symm

lemma positionAt_eq (h : s.LineSplit o before lead code) (ho : o ≤ s.content.length)
    (hk : k ≤ lead.length + code.length) :
    s.positionAt (before.length + k) = ⟨(s.positionAt o).line, k + 1⟩ := by
  have hlength := h.length_eq ho
  have hhead : (s.lineHead o).length = lead.length + code.length := by
    rw [h.lineHead_eq, List.length_append]
  rw [← positionAt_lineHead ho (hhead ▸ hk), hhead]
  congr 2
  omega

lemma line_eq (h : s.LineSplit o before lead code) (hc : s.content[o]? = some c)
    (hb : isBlank c = false) :
    s.line (s.positionAt o).line = lead ++ (code ++ c :: chomp (s.lineTail (o + 1))) := by
  rw [line_of_not_blank hc hb, h.lineHead_eq, List.append_assoc]

lemma firstCodeColumn_eq (h : s.LineSplit o before lead code) (hc : s.content[o]? = some c)
    (hb : isBlank c = false) : s.firstCodeColumn (s.positionAt o).line = lead.length + 1 := by
  have hbehind : (code ++ c :: chomp (s.lineTail (o + 1))).takeWhile isIndent = [] := by
    rw [List.takeWhile_eq_nil_iff]
    intro hpos
    cases code with
    | nil => simp [not_indent_of_not_blank hb]
    | cons x code => simp [h.shows x rfl]
  rw [firstCodeColumn, leadLength, h.line_eq hc hb, List.takeWhile_append_of_pos h.indent, hbehind,
    List.append_nil]

lemma content_eq (h : s.LineSplit o before lead code) (hc : s.content[o]? = some c) :
    s.content = (before ++ lead) ++ (code ++ c :: s.content.drop (o + 1)) := by
  obtain ⟨ho, hget⟩ := List.getElem?_eq_some_iff.mp hc
  conv_lhs => rw [← List.take_append_drop o s.content, h.take_eq, List.drop_eq_getElem_cons ho, hget]
  simp only [List.append_assoc]

lemma drop_eq (h : s.LineSplit o before lead code) (hc : s.content[o]? = some c)
    (hk : k ≤ code.length) :
    s.content.drop (before.length + lead.length + k) = code.drop k ++ c :: s.content.drop (o + 1) := by
  conv_lhs => rw [h.content_eq hc, ← List.length_append, List.drop_length_add_append,
    List.drop_append_of_le_length hk]

lemma not_wordByte (h : s.LineSplit o before lead code) :
    ∀ x ∈ (before ++ lead).getLast?, isWordByte x = false := by
  intro x hx
  rw [List.getLast?_append] at hx
  cases hlead : lead.getLast? with
  | none =>
    rw [hlead, Option.none_or] at hx
    rw [h.ends x hx]
    decide
  | some y =>
    rw [hlead, Option.some_or] at hx
    obtain rfl := Option.some.inj hx
    have hindent := h.indent y (List.mem_of_getLast? hlead)
    exact isWordByte_of_isLeadingCloser (isLeadingCloser_of_isIndent hindent)

lemma le_of_line_eq (h : s.LineSplit o before lead code) (ho : o ≤ s.content.length)
    (hk : (s.positionAt k).line = (s.positionAt o).line) : before.length ≤ k := by
  by_contra hlt
  have hlength := h.length_eq ho
  have hbegins := h.positionAt_eq ho (Nat.zero_le _)
  have hbefore := s.positionAt_lt (not_le.mp hlt) (by omega)
  have hcolumn := s.column_positionAt k
  rw [Nat.add_zero] at hbegins
  rw [hbegins] at hbefore
  rcases Position.lt_iff.mp hbefore with hline | ⟨-, hless⟩ <;> dsimp only at * <;> omega

lemma start_trailingScope (h : s.LineSplit o before lead code) (lang : Language)
    (hc : s.content[o]? = some c) (hb : isBlank c = false) (ht : t.start = s.positionAt o) :
    (s.trailingScope lang t).start = s.positionAt (before.length + (lead.length +
      leftOut lang.blockTerminator lead.length code (c :: chomp (s.lineTail (o + 1))))) := by
  have ho := (List.getElem?_eq_some_iff.mp hc).1.le
  have hcolumn : (s.positionAt o).column = lead.length + 1 + code.length := by
    rw [column_eq, h.lineHead_eq, List.length_append, Nat.add_right_comm]
  have hend := le_closersEnd lang.blockTerminator (lead.length + 1 + code.length) (lead.length + 1)
    (code ++ c :: chomp (s.lineTail (o + 1)))
  rw [h.positionAt_eq ho (Nat.add_le_add_left (leftOut_le _ _ _ _) _), trailingScope, ht, hcolumn,
    h.firstCodeColumn_eq hc hb, h.line_eq hc hb, Nat.add_sub_cancel, List.drop_left, leftOut]
  simp only [Position.mk.injEq, true_and]
  omega

lemma exists_start (h : s.LineSplit o before lead code) (hp : lang.ClosesPlainly)
    (hc : s.content[o]? = some c) (hb : isBlank c = false) (hnot : c ∉ lang.blockTerminator)
    (ht : t.start = s.positionAt o) :
    ∃ start, before.length + lead.length ≤ start ∧ start ≤ o ∧
      (s.trailingScope lang t).start = s.positionAt start ∧
      (∀ k, before.length + lead.length ≤ k → k < start →
        ClosesAt lang.blockTerminator s.content k) ∧
      (start = o ∨ ∃ x, s.content[start]? = some x ∧ isLeadingCloser x = false ∧
        ¬lang.blockTerminator.WholeAt s.content start) := by
  have hlength := h.length_eq (List.getElem?_eq_some_iff.mp hc).1.le
  have hcontent := h.content_eq hc
  have hstart := h.start_trailingScope lang hc hb ht
  generalize chomp (s.lineTail (o + 1)) = rest at hstart
  have hle := leftOut_le lang.blockTerminator lead.length code (c :: rest)
  rw [← Nat.add_assoc] at hstart
  refine ⟨_, Nat.le_add_right _ _, by omega, hstart, fun k hk hlt => ?_, ?_⟩
  · obtain ⟨i, rfl⟩ := Nat.exists_eq_add_of_le hk
    have hi := Nat.lt_of_add_lt_add_left hlt
    have hcloses := closesAt_of_lt_leftOut (fun w hw => hp.terminator w (List.mem_of_head? hw)) hi
    have hwhole := (hcloses.congr (u := s.content.drop (o + 1)) hnot (hi.trans_le hle)).append_left
      fun x hx _ => h.not_wordByte x hx
    rwa [← hcontent, List.length_append] at hwhole
  · rcases hle.lt_or_eq with hlt | heq
    · obtain ⟨x, more, hdrop, hcloser, hword⟩ := leftOut_stops hlt
      have hbehind := h.drop_eq hc hle
      rw [hdrop] at hbehind
      refine Or.inr ⟨x, ?_, hcloser, fun hwhole => ?_⟩
      · rw [← List.head?_drop, hbehind]
        rfl
      · have hstands := hwhole.1
        rw [hbehind, Bytes.startsWithWord_append_cons hnot _ _ rest] at hstands
        exact Bool.false_ne_true (hword.symm.trans hstands)
    · exact Or.inl (by omega)

lemma code_or_above (h : s.LineSplit o before lead code) (hp : lang.ClosesPlainly)
    (ho : o ≤ s.content.length) (hko : k < o) {stop : Nat} (hlt : k < stop)
    (hcloses : ∀ i, before.length + lead.length ≤ i → i < stop →
      ClosesAt lang.blockTerminator s.content i) {g : Segment}
    (hg : g ∈ lang.segments s.content 0) (hle : g.start ≤ k) :
    g.kind = .code ∨ (s.positionAt g.start).line < (s.positionAt o).line := by
  rcases (s.line_le_of_le (hle.trans hko.le)).lt_or_eq with habove | hsame
  · exact Or.inr habove
  · left
    obtain ⟨m, hm⟩ := Nat.exists_eq_add_of_le (h.le_of_line_eq ho hsame)
    rcases Nat.lt_or_ge m lead.length with hin | hpast
    · have hbyte : s.content[g.start]? = some lead[m] := by
        rw [← List.getElem?_take_of_lt (hle.trans_lt hko), h.take_eq, hm,
          List.getElem?_append_right (Nat.le_add_right _ _), Nat.add_sub_cancel_left,
          List.getElem?_append_left hin, List.getElem?_eq_getElem hin]
      exact Language.kind_eq_code_of_closes hp hg hbyte
        (Or.inl (isLeadingCloser_of_isIndent (h.indent _ (List.getElem_mem hin))))
    · obtain ⟨x, hx, hbyte⟩ := (hcloses g.start (by omega) (by omega)).exists_byte
      exact Language.kind_eq_code_of_closes hp hg hx hbyte

end LineSplit

end Source

namespace Scan

variable {tag content : Bytes}

/-- The scope of a directive that trails its line starts on that line, behind bytes that each close
something: closers, separators, blanks and zero bytes, or whole words that close a block. They are code, or
part of a string or a comment that began on a line above. Where the scope starts before the directive, it
starts at a byte that closes nothing. -/
theorem trailing_scope_behind_closers (path tag content : Bytes) :
    let source : Source := ⟨content⟩
    let lang := Language.ofTag tag
    ∀ d ∈ (scan path tag content).directives,
      let t := source.trailingScope lang d.source
      let n := d.source.start.line
      let first := source.offsetAt ⟨n, source.firstCodeColumn n⟩
      let start := source.offsetAt t.start
      t.start.line = n ∧ t.start ≤ d.source.start ∧ first ≤ start ∧
      (∀ k, first ≤ k → k < start → ClosesAt lang.blockTerminator content k ∧
        ∃ s ∈ lang.segments content 0, s.start ≤ k ∧ k < s.stop ∧
          (s.kind = .code ∨ (source.positionAt s.start).line < n)) ∧
      (t.start = d.source.start ∨ ∃ c, content[start]? = some c ∧ isLeadingCloser c = false ∧
        ¬lang.blockTerminator.WholeAt content start) := by
  intro source lang d hd t n first start
  have hp : lang.ClosesPlainly := Language.closesPlainly_ofTag tag
  have horderly := (source.of_reading lang).orderly (source.inOrder_comments hp.toLegible)
  obtain ⟨comment, hcomment, last, -, hspans⟩ :=
    horderly.spans d ((Source.mem_directives hp.toLegible).mp hd).1
  obtain ⟨g, hg, stop, hfills⟩ := Source.fills_of_mem_comments hp.toLegible hcomment
  obtain ⟨c, hc, hb⟩ := hfills.shows
  have ht : d.source.start = source.positionAt g.start := by rw [hspans.source_eq, ← hfills.start_eq]
  have hnot : c ∉ lang.blockTerminator := by
    intro hmem
    have hcode := Language.kind_eq_code_of_closes hp hg hc (Or.inr hmem)
    have hlayer := hfills.layer
    rw [hcode] at hlayer
    cases hlayer
  obtain ⟨before, lead, code, hsplit⟩ := source.exists_lineSplit g.start
  have ho := (List.getElem?_eq_some_iff.mp hc).1.le
  obtain ⟨a, hfirst, hao, hta, hcloses, hstops⟩ := hsplit.exists_start hp hc hb hnot ht
  have hlength := hsplit.length_eq ho
  have hposition {k : Nat} (hk : k ≤ lead.length + code.length) :
      source.positionAt (before.length + k) = ⟨n, k + 1⟩ := by
    rw [hsplit.positionAt_eq ho hk, ← ht]
  have hstart : start = a := (congrArg _ hta).trans (source.offsetAt_positionAt (hao.trans ho))
  have hfirst' : first = before.length + lead.length := by
    have hcolumn := hsplit.firstCodeColumn_eq hc hb
    rw [← ht] at hcolumn
    rw [← source.offsetAt_positionAt (o := before.length + lead.length) (by omega),
      hposition (Nat.le_add_right _ _), ← hcolumn]
  rw [hstart, hfirst']
  refine ⟨rfl, ?_, hfirst, fun k hk hlt => ⟨hcloses k hk hlt, ?_⟩, ?_⟩
  · rw [ht]
    exact hta.le.trans (source.positionAt_mono hao)
  · obtain ⟨s, hs, hle, hin⟩ : ∃ s ∈ lang.segments content 0, s.start ≤ k ∧ k < s.stop :=
      Language.exists_segment (Nat.zero_le k) (show k < source.content.length by omega)
    refine ⟨s, hs, hle, hin, ?_⟩
    have hcases := hsplit.code_or_above hp ho (by omega) hlt hcloses hs hle
    rwa [← ht] at hcases
  · refine hstops.imp (fun heq => ?_) id
    rw [ht, ← heq]
    exact hta

def closedByWord : Bytes := ascii "def f\n  x\n  end; y # @collab owner=core\n"

theorem trailing_scope_behind_closers_end :
    let source : Source := ⟨closedByWord⟩
    let lang := Language.ofTag (ascii "ruby")
    ∃ d ∈ (scan [] (ascii "ruby") closedByWord).directives,
      d.trailing = true ∧ d.source.start = ⟨3, 10⟩ ∧
      (source.trailingScope lang d.source).start = ⟨3, 8⟩ ∧
      (∀ k, 12 ≤ k → k < 17 → ClosesAt lang.blockTerminator closedByWord k) ∧
      ¬lang.blockTerminator.WholeAt closedByWord 17 := by
  intro source lang
  have hfound : ∃ d ∈ (scan [] (ascii "ruby") closedByWord).directives,
      d.trailing = true ∧ d.source.start = ⟨3, 10⟩ ∧
      (source.trailingScope lang d.source).start = ⟨3, 8⟩ := by
    decide +kernel
  have hfirst : source.offsetAt ⟨3, source.firstCodeColumn 3⟩ = 12 := by decide +kernel
  have hbehind : source.offsetAt ⟨3, 8⟩ = 17 := by decide +kernel
  obtain ⟨d, hd, htrailing, hsource, hstart⟩ := hfound
  obtain ⟨-, -, -, hcloses, hstops⟩ :=
    trailing_scope_behind_closers [] (ascii "ruby") closedByWord d hd
  rw [hsource, hfirst, hstart, hbehind] at hcloses
  rw [hsource, hstart, hbehind] at hstops
  refine ⟨d, hd, htrailing, hsource, hstart, fun k hk hlt => (hcloses k hk hlt).1, ?_⟩
  obtain ⟨c, -, -, hnot⟩ := hstops.resolve_left (by decide)
  exact hnot

def stringTail : Bytes := ascii "s = \"\"\"\n), x\"\"\" + y # @collab owner=core\n"

-- The line is read as it stands: a bracket and a comma at the end of a string from the line above are left
-- out of the scope as if they were code, and so is a zero byte.
example : ⟨.string, 4, 15⟩ ∈ Language.python.segments stringTail 0 ∧
    (scan [] (ascii "python") stringTail).directives.map (fun d =>
      (Source.trailingScope ⟨stringTail⟩ Language.python d.source).start) = [⟨2, 4⟩] ∧
    (scan [] (ascii "rust") (0 :: ascii "x // @collab owner=core\n")).directives.map (fun d =>
      (Source.trailingScope ⟨0 :: ascii "x // @collab owner=core\n"⟩ Language.rust d.source).start) =
        [⟨1, 2⟩] := by
  decide +kernel

end Scan

end TrustRegions
