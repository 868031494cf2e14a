import TrustRegions.Directive.Reader
import TrustRegions.Proofs.Comments
import TrustRegions.Proofs.TextPositions

/-! Two contents with the same bytes in the same places outside some of their comments. What follows a
comment on its line is clear in both or in neither, and both end in the same place. -/

namespace TrustRegions

lemma takeWhile_eq_of_getElem? {α : Type} {p : α → Bool} {l l' : List α}
    (h : ∀ j ≤ (l.takeWhile p).length, l'[j]? = l[j]?) : l'.takeWhile p = l.takeWhile p := by
  induction l generalizing l' with
  | nil =>
    have hnil : l'[0]? = none := h 0 le_rfl
    rw [List.eq_nil_of_length_eq_zero (Nat.le_zero.mp (List.getElem?_eq_none_iff.mp hnil))]
  | cons a l ih =>
    obtain ⟨l', rfl⟩ : ∃ t, l' = a :: t := by
      have hhead : l'[0]? = some a := h 0 (Nat.zero_le _)
      exact List.head?_eq_some_iff.mp (List.head?_eq_getElem? ▸ hhead)
    cases ha : p a with
    | false => rw [List.takeWhile_cons_of_neg (by simp [ha]), List.takeWhile_cons_of_neg (by simp [ha])]
    | true =>
      rw [List.takeWhile_cons_of_pos ha, List.length_cons] at h
      rw [List.takeWhile_cons_of_pos ha, List.takeWhile_cons_of_pos ha,
        ih fun j hj => h (j + 1) (Nat.succ_le_succ hj)]

namespace Source

variable {s s' : Source} {spans : List Span} {lang : Language} {c : Comment} {o o' n k : Nat} {b : UInt8}

lemma positionAt_eq_of_newlines (h : s'.content.map (· == newline) = s.content.map (· == newline))
    (o : Nat) : s'.positionAt o = s.positionAt o := by
  have hfold (t : Bytes) : t.foldl Position.advance .first = (t.map (· == newline)).foldl
      (fun p isNewline => if isNewline then ⟨p.line + 1, 1⟩ else ⟨p.line, p.column + 1⟩) .first := by
    simp only [List.foldl_map, beq_iff_eq]
    rfl
  rw [positionAt, positionAt, hfold, hfold, List.map_take, List.map_take, h]

lemma isClearAfter_positionAt (s : Source) (o : Nat) :
    s.isClearAfter (s.positionAt o) = (s.lineTail o).all isBlank := by
  rw [isClearAfter, line_positionAt, column_eq, Nat.add_sub_cancel, chomp]
  split
  · next hlast =>
    rcases List.eq_nil_or_concat' (s.lineTail o) with hnil | ⟨tail, b, htail⟩
    · rw [hnil, List.append_nil, List.drop_of_length_le (by simp)]
    · have hb : b = carriageReturn := by simpa [htail] using hlast
      rw [htail, ← List.append_assoc, List.dropLast_concat, List.drop_left, List.all_append, hb]
      simp [isBlank]
  · rw [List.drop_left]

lemma isBlank_of_lineTail (hk : k ≤ (s.lineTail o).length) (hblank : (s.lineTail o).all isBlank = true)
    (hb : s.content[o + k]? = some b) : isBlank b = true := by
  rw [lineTail] at hk hblank
  rw [← List.getElem?_drop, ← List.takeWhile_append_dropWhile (p := (· ≠ newline)) (l := s.content.drop o)]
    at hb
  rcases hk.lt_or_eq with hlt | rfl
  · rw [List.getElem?_append_left hlt] at hb
    exact List.all_eq_true.mp hblank b (List.mem_of_getElem? hb)
  · rw [List.getElem?_append_right le_rfl, Nat.sub_self, ← List.head?_eq_getElem?] at hb
    have hnot := List.head?_dropWhile_not (· ≠ newline) (s.content.drop o)
    rw [hb] at hnot
    obtain rfl : b = newline := by simpa using hnot
    rfl

def AgreesOutside (spans : List Span) (s s' : Source) : Prop :=
  ∀ o ≤ s.content.length, ∀ o' ≤ s'.content.length, s'.positionAt o' = s.positionAt o →
    (∀ t ∈ spans, s.positionAt o ∉ t) → s'.content[o']? = s.content[o]?

namespace AgreesOutside

lemma symm (h : AgreesOutside spans s s') : AgreesOutside spans s' s :=
  fun o' ho' o ho heq hout => (h o ho o' ho' heq.symm fun t ht => heq ▸ hout t ht).symm

lemma of_newlines (hnewlines : s'.content.map (· == newline) = s.content.map (· == newline))
    (hbyte : ∀ o < s.content.length,
      s'.content[o]? = s.content[o]? ∨ ∃ t ∈ spans, s.positionAt o ∈ t) : AgreesOutside spans s s' := by
  have hlength : s'.content.length = s.content.length := by simpa using congrArg List.length hnewlines
  intro o ho o' ho' heq hout
  obtain rfl : o' = o := by
    rw [← s.offsetAt_positionAt ho, ← heq, positionAt_eq_of_newlines hnewlines,
      s.offsetAt_positionAt (hlength ▸ ho')]
  rcases ho.lt_or_eq with hlt | rfl
  · refine (hbyte o' hlt).resolve_right ?_
    rintro ⟨t, ht, hin⟩
    exact hout t ht hin
  · rw [List.getElem?_eq_none le_rfl, List.getElem?_eq_none hlength.le]

lemma walk (h : AgreesOutside spans s s') (ho' : o' ≤ s'.content.length)
    (heq : s'.positionAt o' = s.positionAt o) (hn : o + n ≤ s.content.length)
    (hout : ∀ j ≤ n, ∀ t ∈ spans, s.positionAt (o + j) ∉ t) (hk : k ≤ n) :
    o' + k ≤ s'.content.length ∧ s'.positionAt (o' + k) = s.positionAt (o + k) ∧
      s'.content[o' + k]? = s.content[o + k]? := by
  induction k with
  | zero => exact ⟨ho', heq, h o (by omega) o' ho' heq (hout 0 hk)⟩
  | succ k ih =>
    obtain ⟨-, hposition, hbyte⟩ := ih (by omega)
    obtain ⟨b, hb⟩ : ∃ b, s.content[o + k]? = some b := by
      rw [List.getElem?_eq_getElem (by omega)]
      exact ⟨_, rfl⟩
    rw [hb] at hbyte
    have hlt := (List.getElem?_eq_some_iff.mp hbyte).1
    have hnext : s'.positionAt (o' + k + 1) = s.positionAt (o + k + 1) := by
      rw [positionAt_succ hbyte, positionAt_succ hb, hposition]
    exact ⟨hlt, hnext, h _ (by omega) _ hlt hnext (hout (k + 1) hk)⟩

lemma lineTail_eq (h : AgreesOutside spans s s') (ho : o ≤ s.content.length)
    (ho' : o' ≤ s'.content.length) (heq : s'.positionAt o' = s.positionAt o)
    (hout : ∀ j ≤ (s.lineTail o).length, ∀ t ∈ spans, s.positionAt (o + j) ∉ t) :
    s'.lineTail o' = s.lineTail o := by
  refine takeWhile_eq_of_getElem? fun j hj => ?_
  rw [List.getElem?_drop, List.getElem?_drop]
  exact (h.walk ho' heq (add_lineTail_le ho) hout hj).2.2

end AgreesOutside

lemma notMem_span_of_blank (hl : lang.Legible) (hc : c ∈ s.comments lang)
    (ho : s.positionAt o = c.span.stop) (hlength : o ≤ s.content.length)
    (hblank : (s.lineTail o).all isBlank = true) (hk : k ≤ (s.lineTail o).length) {a : Comment}
    (ha : a ∈ s.comments lang) : s.positionAt (o + k) ∉ a.span := by
  rintro ⟨hstart, hstop⟩
  have hin := s.inOrder_comments hl
  have hle : c.span.stop ≤ s.positionAt (o + k) := ho ▸ s.positionAt_mono (Nat.le_add_right o k)
  rcases lt_or_ge c.span.start a.span.start with hlt | hge
  · obtain ⟨g, hg, stop, hfills⟩ := fills_of_mem_comments hl ha
    obtain ⟨b, hb, hnot⟩ := hfills.shows
    have hgl := (List.getElem?_eq_some_iff.mp hb).1
    have hbehind := hin.stop_le_of_start_lt hc ha hlt
    rw [hfills.start_eq, ← ho] at hbehind
    rw [hfills.start_eq] at hstart
    have hog : o ≤ g.start := by
      by_contra hgo
      exact absurd (positionAt_lt (Nat.lt_of_not_le hgo) hlength) hbehind.not_gt
    have hgk : g.start ≤ o + k := by
      by_contra hko
      exact absurd (positionAt_lt (Nat.lt_of_not_le hko) hgl.le) hstart.not_gt
    obtain ⟨j, hj⟩ := Nat.exists_eq_add_of_le hog
    rw [hj] at hb
    rw [isBlank_of_lineTail (by omega) hblank hb] at hnot
    exact absurd hnot (by decide)
  · have hbefore : a.span.stop ≤ c.span.stop := by
      rcases hge.lt_or_eq with hlt | heq
      · exact (hin.stop_le_of_start_lt ha hc hlt).trans (hin.nonempty c hc).le
      · rw [hin.eq_of_start_eq ha hc heq]
    exact (hstop.trans_le hbefore).not_ge hle

lemma exists_stop (hl : lang.Legible) (hc : c ∈ s.comments lang) :
    ∃ o ≤ s.content.length, s.positionAt o = c.span.stop := by
  obtain ⟨g, hg, stop, hfills⟩ := fills_of_mem_comments hl hc
  exact ⟨stop, hfills.stop_le_length hg, hfills.stop_eq.symm⟩

section

variable (hl : lang.Legible) (h : AgreesOutside spans s s')
  (hspans : ∀ t ∈ spans, ∃ a ∈ s.comments lang, a.span = t)

include hl h hspans

lemma isClearAfter_of_agreesOutside (hc : c ∈ s.comments lang)
    (hc' : ∃ a ∈ s'.comments lang, a.span = c.span) (hclear : s.isClearAfter c.span.stop = true) :
    s'.isClearAfter c.span.stop = true := by
  obtain ⟨o, ho, hstop⟩ := exists_stop hl hc
  obtain ⟨c', hmem, hspan⟩ := hc'
  obtain ⟨o', ho', hstop'⟩ := exists_stop hl hmem
  have heq : s'.positionAt o' = s.positionAt o := by rw [hstop', hspan, hstop]
  rw [← hstop, isClearAfter_positionAt] at hclear
  rw [← hstop, ← heq, isClearAfter_positionAt, h.lineTail_eq ho ho' heq fun j hj t ht => ?_]
  · exact hclear
  · obtain ⟨a, ha, rfl⟩ := hspans t ht
    exact notMem_span_of_blank hl hc hstop ho hclear hj ha

lemma positionAt_length_eq (hsame : ∀ c ∈ s.comments lang, ∃ a ∈ s'.comments lang, a.span = c.span) :
    s'.positionAt s'.content.length = s.positionAt s.content.length := by
  obtain ⟨o, ho, o', ho', heq, hbehind⟩ : ∃ o ≤ s.content.length, ∃ o' ≤ s'.content.length,
      s'.positionAt o' = s.positionAt o ∧ ∀ a ∈ s.comments lang, a.span.stop ≤ s.positionAt o := by
    have hin := s.inOrder_comments hl
    rcases List.eq_nil_or_concat' (s.comments lang) with hnil | ⟨cs, c, hcs⟩
    · exact ⟨0, Nat.zero_le _, 0, Nat.zero_le _, rfl, by simp [hnil]⟩
    · have hc : c ∈ s.comments lang := by simp [hcs]
      obtain ⟨o, ho, hstop⟩ := exists_stop hl hc
      obtain ⟨c', hmem, hspan⟩ := hsame c hc
      obtain ⟨o', ho', hstop'⟩ := exists_stop hl hmem
      refine ⟨o, ho, o', ho', by rw [hstop', hspan, hstop], fun a ha => ?_⟩
      rw [hcs] at ha hin
      rw [hstop]
      rcases List.mem_append.mp ha with ha | ha
      · exact (hin.stop_le ha).trans (hin.nonempty c (by simp)).le
      · rw [List.mem_singleton.mp ha]
  have hwalk := h.walk (n := s.content.length - o) ho' heq (by omega) (fun j _ t ht => ?_) le_rfl
  · rw [Nat.add_sub_cancel' ho] at hwalk
    obtain ⟨hle, hposition, hend⟩ := hwalk
    rw [List.getElem?_eq_none le_rfl, List.getElem?_eq_none_iff] at hend
    rw [← hposition, Nat.le_antisymm hle hend]
  · obtain ⟨a, ha, rfl⟩ := hspans t ht
    rintro ⟨-, hlt⟩
    exact (hlt.trans_le ((hbehind a ha).trans (s.positionAt_mono (Nat.le_add_right o j)))).false

end

end Source

end TrustRegions
