import Mathlib.Data.Set.Function
import Mathlib.Order.Interval.Set.Defs
import TrustRegions.Proofs.TextPositions

/-! Offsets and positions tell each other: the positions of a content are the columns of its lines, each
line up to the one behind its last byte, and the offsets go through them in order. -/

namespace TrustRegions

lemma Bytes.length_pieces (sep : UInt8) (t : Bytes) : (t.pieces sep).length = t.count sep + 1 := by
  induction t with
  | nil => rfl
  | cons c t ih =>
    by_cases hc : c = sep
    · rw [pieces, if_pos hc, List.length_cons, ih, hc, List.count_cons_self]
    · rw [pieces, if_neg hc, List.length_modifyHead, ih, List.count_cons_of_ne hc]

namespace Source

variable {s : Source} {o n : Nat}

def rawLine (s : Source) (n : Nat) : Bytes := s.lineTail (s.lineStart n)

def positions (s : Source) : Set Position :=
  {p | (1 ≤ p.line ∧ p.line ≤ s.lineCount) ∧ 1 ≤ p.column ∧ p.column ≤ (s.rawLine p.line).length + 1}

lemma lineCount_eq (s : Source) : s.lineCount = s.content.count newline + 1 :=
  Bytes.length_pieces newline s.content

lemma drop_lineStart (ho : o ≤ s.content.length) :
    s.content.drop (s.lineStart (s.positionAt o).line) = s.lineHead o ++ s.content.drop o := by
  obtain ⟨before, htake, -⟩ := s.take_eq_append_lineHead o
  have hlength := congrArg List.length htake
  rw [List.length_take, Nat.min_eq_left ho, List.length_append] at hlength
  have hstart := lineStart_positionAt_line ho
  have hbefore : s.lineStart (s.positionAt o).line = before.length := by omega
  rw [hbefore]
  conv_lhs => rw [← List.take_append_drop o s.content, htake, List.append_assoc, List.drop_left]

lemma rawLine_positionAt (ho : o ≤ s.content.length) :
    s.rawLine (s.positionAt o).line = s.lineHead o ++ s.lineTail o := by
  have hhead : ∀ c ∈ s.lineHead o, decide (c ≠ newline) = true := by
    intro c hc
    refine decide_eq_true ?_
    rintro rfl
    exact s.newline_notMem_lineHead o hc
  rw [rawLine, lineTail, drop_lineStart ho, List.takeWhile_append_of_pos hhead, lineTail]

lemma lineStart_le (s : Source) (n : Nat) : s.lineStart n ≤ s.content.length := Nat.min_le_left _ _

lemma positionAt_lineStart (hpos : 1 ≤ n) (hle : n ≤ s.lineCount) :
    s.positionAt (s.lineStart n) = ⟨n, 1⟩ := by
  obtain ⟨o, ho⟩ := exists_lineStart hpos hle
  obtain ⟨k, hk, hp⟩ := has_iff.mp (ho ▸ s.has_positionAt o)
  have hcolumn := s.column_eq k
  have hstart := lineStart_positionAt_line hk
  rw [hp] at hcolumn hstart
  dsimp only at hcolumn hstart
  rw [← hp]
  congr 1
  omega

lemma line_eq_chomp (hpos : 1 ≤ n) (hle : n ≤ s.lineCount) : s.line n = chomp (s.rawLine n) := by
  have hp := positionAt_lineStart hpos hle
  have hline := s.line_positionAt (s.lineStart n)
  have hraw := rawLine_positionAt (s.lineStart_le n)
  rw [hp] at hline hraw
  rw [hline, hraw]

lemma endOfLine_eq (hpos : 1 ≤ n) (hle : n ≤ s.lineCount) :
    s.endOfLine n = s.positionAt (s.lineStart n + (s.line n).length) := by
  have hlength : (s.line n).length ≤ (s.lineTail (s.lineStart n)).length := by
    rw [line_eq_chomp hpos hle]
    exact (isPrefix_chomp _).length_le
  rw [positionAt_add_lineTail s hlength, positionAt_lineStart hpos hle, endOfLine, Nat.add_comm]

lemma positionAt_mem_positions (ho : o ≤ s.content.length) : s.positionAt o ∈ s.positions := by
  have h := s.has_positionAt o
  refine ⟨⟨h.line_pos, h.line_le⟩, h.column_pos, ?_⟩
  rw [column_eq, rawLine_positionAt ho, List.length_append]
  omega

lemma exists_positionAt {p : Position} (h : p ∈ s.positions) :
    ∃ o ≤ s.content.length, s.positionAt o = p := by
  obtain ⟨⟨hpos, hle⟩, hcolumn, hlast⟩ := h
  have htail := add_lineTail_le (s.lineStart_le p.line)
  rw [rawLine] at hlast
  refine ⟨s.lineStart p.line + (p.column - 1), by omega, ?_⟩
  rw [positionAt_add_lineTail s (by omega), positionAt_lineStart hpos hle]
  exact Position.ext rfl (Nat.add_sub_cancel' hcolumn)

lemma strictMonoOn_positionAt (s : Source) : StrictMonoOn s.positionAt (Set.Iic s.content.length) :=
  fun _ _ _ hb hab => positionAt_lt hab hb

lemma bijOn_positionAt (s : Source) :
    Set.BijOn s.positionAt (Set.Iic s.content.length) s.positions :=
  ⟨fun _ ho => positionAt_mem_positions ho, s.strictMonoOn_positionAt.injOn,
    fun _ hp => exists_positionAt hp⟩

lemma invOn_offsetAt (s : Source) :
    Set.InvOn s.offsetAt s.positionAt (Set.Iic s.content.length) s.positions := by
  refine ⟨fun o ho => offsetAt_positionAt ho, fun p hp => ?_⟩
  obtain ⟨o, ho, rfl⟩ := exists_positionAt hp
  rw [offsetAt_positionAt ho]

/-- The offsets of a content, its end with them, are in order and one to one the columns of its lines,
of which there is one more than newlines, and where a line shows from and up to is told by offsets. -/
theorem positionAt_columns (s : Source) :
    let offsets := Set.Iic s.content.length
    StrictMonoOn s.positionAt offsets ∧ Set.BijOn s.positionAt offsets s.positions ∧
      Set.InvOn s.offsetAt s.positionAt offsets s.positions ∧
      (∀ o, s.content.length ≤ o → s.positionAt o = s.positionAt s.content.length) ∧
      s.lineCount = s.content.count newline + 1 ∧
      ∀ n, 1 ≤ n → n ≤ s.lineCount →
        s.positionAt (s.lineStart n) = ⟨n, 1⟩ ∧
        s.line n = chomp ((s.content.drop (s.lineStart n)).takeWhile (· ≠ newline)) ∧
        s.endOfLine n = s.positionAt (s.lineStart n + (s.line n).length) := by
  intro offsets
  refine ⟨s.strictMonoOn_positionAt, s.bijOn_positionAt, s.invOn_offsetAt,
    fun o => positionAt_of_length_le, s.lineCount_eq, fun n hpos hle => ?_⟩
  exact ⟨positionAt_lineStart hpos hle, line_eq_chomp hpos hle, endOfLine_eq hpos hle⟩

end Source

end TrustRegions
