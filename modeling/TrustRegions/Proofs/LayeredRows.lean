import TrustRegions.Proofs.OffsideBlocks
import TrustRegions.Proofs.TextPositions

/-! The rows below a line are told by the layers behind it alone. Layers in two parts, the second one from
the end of a line on, give the rows of the first part and those of the second. -/

namespace TrustRegions

variable {s : Source} {lang : Language} {line d o : Nat} {l p t : List (UInt8 × Layer)} {r : Row}

def lineText (l : List (UInt8 × Layer)) : Bytes := (l.map (·.1)).takeWhile (· ≠ newline)

def rowsBelow (line d : Nat) : List (UInt8 × Layer) → List Row
  | [] => []
  | b :: l =>
    if b.1 = newline then
      ⟨line + 1, Source.chomp (lineText l), lineStartOf d b.2⟩ :: rowsBelow (line + 1) d l
    else rowsBelow line (depthAfter d [b]) l

lemma lineText_newline (layer : Layer) (l : List (UInt8 × Layer)) :
    lineText ((newline, layer) :: l) = [] := by
  rw [lineText, List.map_cons, List.takeWhile_cons_of_neg (by simp)]

lemma lineText_cons {b : UInt8 × Layer} (h : b.1 ≠ newline) (l : List (UInt8 × Layer)) :
    lineText (b :: l) = b.1 :: lineText l := by
  rw [lineText, List.map_cons, List.takeWhile_cons_of_pos (by simpa using h), lineText]

lemma rowsBelow_newline (line d : Nat) (layer : Layer) (l : List (UInt8 × Layer)) :
    rowsBelow line d ((newline, layer) :: l) =
      ⟨line + 1, Source.chomp (lineText l), lineStartOf d layer⟩ :: rowsBelow (line + 1) d l := by
  rw [rowsBelow, if_pos rfl]

lemma rowsBelow_cons {b : UInt8 × Layer} (h : b.1 ≠ newline) (line d : Nat)
    (l : List (UInt8 × Layer)) :
    rowsBelow line d (b :: l) = rowsBelow line (depthAfter d [b]) l := by
  rw [rowsBelow, if_neg h]

def EndsLine (t : List (UInt8 × Layer)) : Prop := ∀ b ∈ t.head?, b.1 = newline

lemma lineText_append (ht : EndsLine t) : lineText (p ++ t) = lineText p := by
  induction p with
  | nil =>
    cases t with
    | nil => rfl
    | cons b t =>
      obtain ⟨c, layer⟩ := b
      obtain rfl : c = newline := ht _ rfl
      exact lineText_newline layer t
  | cons b p ih =>
    obtain ⟨c, layer⟩ := b
    by_cases hc : c = newline
    · subst hc
      rw [List.cons_append, lineText_newline, lineText_newline]
    · rw [List.cons_append, lineText_cons hc, lineText_cons hc, ih]

lemma rowsBelow_append (ht : EndsLine t) (line d : Nat) :
    rowsBelow line d (p ++ t) =
      rowsBelow line d p ++ rowsBelow (line + breaks p) (depthAfter d p) t := by
  induction p generalizing line d with
  | nil => rfl
  | cons b p ih =>
    obtain ⟨c, layer⟩ := b
    by_cases hc : c = newline
    · subst hc
      have hbreaks : breaks ((newline, layer) :: p) = breaks p + 1 := by
        rw [breaks, List.map_cons, List.count_cons_self, breaks]
      rw [List.cons_append, rowsBelow_newline, rowsBelow_newline, lineText_append ht, ih,
        depthAfter_newline, hbreaks, List.cons_append]
      congr 3
      omega
    · have hbreaks : breaks ((c, layer) :: p) = breaks p := by
        rw [breaks, List.map_cons, List.count_cons_of_ne hc, breaks]
      rw [List.cons_append, rowsBelow_cons hc, rowsBelow_cons hc, ih, ← depthAfter_append,
        List.singleton_append, hbreaks]

namespace Source

lemma lineHead_of_newline (h : s.content[o]? = some newline) : s.lineHead (o + 1) = [] := by
  have hcolumn := s.column_eq (o + 1)
  rw [positionAt_succ h, Position.advance, if_pos rfl] at hcolumn
  exact List.eq_nil_of_length_eq_zero (Nat.succ.inj hcolumn).symm

lemma rowsFrom_eq (h : l.map (·.1) = s.content.drop o) (d : Nat) :
    s.rowsFrom (s.positionAt o).line d l = rowsBelow (s.positionAt o).line d l := by
  induction l generalizing o d with
  | nil => simp [rowsFrom, lineStarts, rowsBelow]
  | cons b l ih =>
    obtain ⟨c, layer⟩ := b
    have hc : s.content[o]? = some c := by
      rw [← Nat.add_zero o, ← List.getElem?_drop, ← h]
      rfl
    have hl : l.map (·.1) = s.content.drop (o + 1) := by
      rw [← List.drop_drop, ← h]
      rfl
    have hnext := ih hl
    rw [positionAt_succ hc] at hnext
    by_cases hn : c = newline
    · subst hn
      rw [Position.advance, if_pos rfl] at hnext
      have hline : s.line ((s.positionAt o).line + 1) = chomp (lineText l) := by
        have htext := s.line_positionAt (o + 1)
        rwa [positionAt_succ hc, Position.advance, if_pos rfl, lineHead_of_newline hc, List.nil_append,
          lineTail, ← hl] at htext
      have hcount := (s.has_positionAt (o + 1)).line_le
      rw [positionAt_succ hc, Position.advance, if_pos rfl] at hcount
      rw [s.rowsFrom_newline hcount, hnext, rowsBelow_newline, hline]
    · rw [Position.advance, if_neg hn] at hnext
      rw [s.rowsFrom_cons hn, hnext, rowsBelow_cons hn]

lemma rowsAfter_eq (h : l.map (·.1) = s.content.drop o) :
    s.rowsAfter (s.positionAt o).line l = rowsBelow (s.positionAt o).line 0 l :=
  rowsFrom_eq h 0

lemma text_of_mem_rowsAfter (h : r ∈ s.rowsAfter line l) : r.text = s.line r.number := by
  obtain ⟨⟨⟨text, start⟩, n⟩, hx, rfl⟩ := List.mem_map.mp h
  obtain ⟨hle, hlt, heq⟩ := List.mem_zipIdx hx
  obtain ⟨i, rfl⟩ := Nat.exists_eq_add_of_le hle
  simp only [Nat.add_sub_cancel_left, List.length_zip, List.length_map, List.length_drop] at hlt heq
  have htext := congrArg Prod.fst heq
  simp only [List.getElem_zip, List.getElem_map, List.getElem_drop] at htext
  rw [htext, ← s.line_eq_getElem, Nat.add_right_comm]

end Source

end TrustRegions
