import TrustRegions.Proofs.Offsets

/-! The positions of a text: those of its offsets, which are the columns of its lines up to the one
behind the last byte that shows there. -/

namespace TrustRegions

namespace Source

variable {s : Source} {p : Position} {n c : Nat}

structure Has (s : Source) (p : Position) : Prop where
  line_pos : 1 ≤ p.line
  line_le : p.line ≤ s.lineCount
  positionAt_offsetAt : s.positionAt (s.offsetAt p) = p

lemma positionAt_of_length_le {o : Nat} (h : s.content.length ≤ o) :
    s.positionAt o = s.positionAt s.content.length := by
  rw [positionAt, positionAt, List.take_of_length_le h, List.take_length]

lemma has_positionAt (s : Source) (o : Nat) : s.Has (s.positionAt o) := by
  wlog hle : o ≤ s.content.length generalizing o
  · rw [positionAt_of_length_le (Nat.le_of_not_le hle)]
    exact this _ le_rfl
  obtain ⟨lines, -, -, hp, more, hraw⟩ := s.exists_lines_before o
  have hline := congrArg Position.line hp
  have hcount := congrArg List.length hraw
  rw [List.length_append, List.length_cons] at hcount
  dsimp only at hline
  exact ⟨by omega, by rw [lineCount]; omega, by rw [offsetAt_positionAt hle]⟩

lemma offsetAt_le (s : Source) (p : Position) : s.offsetAt p ≤ s.content.length := by
  rw [offsetAt]
  split
  · exact Nat.zero_le _
  split
  · exact le_rfl
  dsimp only
  split
  · assumption
  · exact Nat.min_le_right _ _

lemma has_iff : s.Has p ↔ ∃ o ≤ s.content.length, s.positionAt o = p := by
  refine ⟨fun h => ⟨_, s.offsetAt_le p, h.positionAt_offsetAt⟩, ?_⟩
  rintro ⟨o, -, rfl⟩
  exact s.has_positionAt o

lemma exists_lineStart (hpos : 1 ≤ n) (hle : n ≤ s.lineCount) : ∃ o, s.positionAt o = ⟨n, 1⟩ := by
  obtain ⟨lines, last, h, hlines, hlast⟩ := Bytes.exists_lines newline s.content
  have hcount : s.lineCount = lines.length + 1 := by
    have hraw := Bytes.pieces_append hlast []
    rw [List.append_nil] at hraw
    rw [lineCount, rawLines, h, Bytes.pieces_lines hlines, hraw, List.length_append]
    rfl
  obtain ⟨before, after, rfl, hbefore⟩ :
      ∃ before after, lines = before ++ after ∧ before.length = n - 1 :=
    ⟨lines.take (n - 1), lines.drop (n - 1), (List.take_append_drop _ _).symm,
      by rw [List.length_take]; omega⟩
  refine ⟨(before.flatMap (· ++ [newline])).length, ?_⟩
  rw [positionAt, h, List.flatMap_append, List.append_assoc, List.take_left]
  refine (Position.foldl_advance_lines .first fun l hl => hlines l (List.mem_append_left _ hl)).trans ?_
  rw [hbefore]
  exact Position.ext (Nat.add_sub_cancel' hpos) rfl

lemma has_of_column (hpos : 1 ≤ n) (hle : n ≤ s.lineCount) (hc : 1 ≤ c)
    (hcl : c ≤ (s.line n).length + 1) : s.Has ⟨n, c⟩ := by
  obtain ⟨o, ho⟩ := exists_lineStart hpos hle
  have hline := s.line_positionAt o
  have hhead := s.column_eq o
  rw [ho] at hline hhead
  have htail := (isPrefix_chomp (s.lineHead o ++ s.lineTail o)).length_le
  rw [← hline, List.length_append] at htail
  dsimp only at hhead htail
  have hp : s.positionAt (o + (c - 1)) = ⟨n, c⟩ := by
    rw [positionAt_add_lineTail s (by omega), ho, Nat.add_sub_cancel' hc]
  exact hp ▸ s.has_positionAt _

lemma has_endOfLine (hpos : 1 ≤ n) (hle : n ≤ s.lineCount) : s.Has (s.endOfLine n) :=
  has_of_column hpos hle (Nat.le_add_left 1 _) le_rfl

lemma Has.endOfLine (h : s.Has p) : s.Has (s.endOfLine p.line) := has_endOfLine h.line_pos h.line_le

lemma Has.firstCodeColumn (h : s.Has p) : s.Has ⟨p.line, s.firstCodeColumn p.line⟩ := by
  refine has_of_column h.line_pos h.line_le (Nat.le_add_left 1 _) (Nat.succ_le_succ ?_)
  exact (List.takeWhile_prefix _).length_le

lemma Has.column_pos (h : s.Has p) : 1 ≤ p.column := by
  obtain ⟨o, -, rfl⟩ := has_iff.mp h
  rw [column_eq]
  exact Nat.le_add_left 1 _

lemma Has.left (h : s.Has p) (hc : 1 ≤ c) (hle : c ≤ p.column) : s.Has ⟨p.line, c⟩ := by
  obtain ⟨o, ho, rfl⟩ := has_iff.mp h
  rw [column_eq] at hle
  have hp := positionAt_lineHead ho (show c - 1 ≤ (s.lineHead o).length by omega)
  rw [Nat.sub_add_cancel hc] at hp
  exact hp ▸ s.has_positionAt _

end Source

end TrustRegions
