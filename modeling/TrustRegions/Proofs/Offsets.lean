import Mathlib.Data.List.DropRight
import TrustRegions.Proofs.Span
import TrustRegions.Source

/-! The positions of a content stand in the order of its offsets and tell them, and what a column counts
is what comes before it on its line. -/

namespace TrustRegions

namespace Position

lemma lt_advance (p : Position) (c : UInt8) : p < p.advance c := by
  rw [advance, lt_iff]
  split
  · exact Or.inl (Nat.lt_succ_self _)
  · exact Or.inr ⟨rfl, Nat.lt_succ_self _⟩

lemma le_foldl_advance (p : Position) (t : Bytes) : p ≤ t.foldl advance p := by
  induction t generalizing p with
  | nil => exact le_rfl
  | cons c t ih => exact (p.lt_advance c).le.trans (ih _)

lemma foldl_advance_of_notMem (p : Position) {t : Bytes} (h : newline ∉ t) :
    t.foldl advance p = ⟨p.line, p.column + t.length⟩ := by
  induction t generalizing p with
  | nil => rfl
  | cons c t ih =>
    simp only [List.mem_cons, not_or] at h
    rw [List.foldl_cons, ih _ h.2, advance, if_neg (Ne.symm h.1), List.length_cons, Nat.add_assoc,
      Nat.add_comm 1]

lemma line_foldl_advance (p : Position) (t : Bytes) :
    (t.foldl advance p).line = p.line + t.count newline := by
  induction t generalizing p with
  | nil => rfl
  | cons c t ih =>
    rw [List.foldl_cons, ih, advance]
    by_cases hc : c = newline
    · rw [if_pos hc, hc, List.count_cons_self, Nat.add_assoc, Nat.add_comm 1]
    · rw [if_neg hc, List.count_cons_of_ne hc]

lemma foldl_advance_lines (p : Position) {lines : List Bytes} (h : ∀ l ∈ lines, newline ∉ l) :
    (lines.flatMap (· ++ [newline])).foldl advance ⟨p.line, 1⟩ = ⟨p.line + lines.length, 1⟩ := by
  induction lines generalizing p with
  | nil => rfl
  | cons l lines ih =>
    have hnext : (l ++ [newline]).foldl advance ⟨p.line, 1⟩ = ⟨p.line + 1, 1⟩ := by
      rw [List.foldl_append, foldl_advance_of_notMem _ (h l List.mem_cons_self)]
      rfl
    rw [List.flatMap_cons, List.foldl_append, hnext,
      ih ⟨p.line + 1, 1⟩ fun m hm => h m (List.mem_cons_of_mem l hm), List.length_cons, Nat.add_assoc,
      Nat.add_comm 1]

end Position

namespace Bytes

variable {sep : UInt8}

lemma pieces_eq_cons (sep : UInt8) (t : Bytes) :
    ∃ more, t.pieces sep = t.takeWhile (· ≠ sep) :: more := by
  induction t with
  | nil => exact ⟨[], rfl⟩
  | cons c t ih =>
    obtain ⟨more, ht⟩ := ih
    by_cases hc : c = sep
    · exact ⟨pieces sep t, by simp [pieces, hc]⟩
    · exact ⟨more, by simp [pieces, hc, ht]⟩

lemma pieces_append {head : Bytes} (h : sep ∉ head) (t : Bytes) :
    Bytes.pieces sep (head ++ t) = (t.pieces sep).modifyHead (head ++ ·) := by
  obtain ⟨more, ht⟩ := pieces_eq_cons sep t
  induction head with
  | nil => simp [ht]
  | cons c head ih =>
    simp only [List.mem_cons, not_or] at h
    rw [List.cons_append, pieces, if_neg (Ne.symm h.1), ih h.2, ht]
    rfl

lemma pieces_lines {lines : List Bytes} (h : ∀ l ∈ lines, sep ∉ l) (t : Bytes) :
    Bytes.pieces sep (lines.flatMap (· ++ [sep]) ++ t) = lines ++ t.pieces sep := by
  induction lines with
  | nil => rfl
  | cons l lines ih =>
    have hl := pieces_append (h l List.mem_cons_self)
      (sep :: (lines.flatMap (· ++ [sep]) ++ t))
    have hmore := ih fun m hm => h m (List.mem_cons_of_mem l hm)
    simpa [pieces, hmore] using hl

lemma exists_lines (sep : UInt8) (t : Bytes) :
    ∃ (lines : List Bytes) (last : Bytes), t = lines.flatMap (· ++ [sep]) ++ last ∧
      (∀ l ∈ lines, sep ∉ l) ∧ sep ∉ last := by
  induction t with
  | nil => exact ⟨[], [], by simp⟩
  | cons c t ih =>
    obtain ⟨lines, last, rfl, hlines, hlast⟩ := ih
    by_cases hc : c = sep
    · exact ⟨[] :: lines, last, by simp [hc], by simpa using hlines, hlast⟩
    · cases lines with
      | nil => exact ⟨[], c :: last, by simp, by simp, by simp [hlast, Ne.symm hc]⟩
      | cons l lines =>
        refine ⟨(c :: l) :: lines, last, by simp, ?_, hlast⟩
        simpa [Ne.symm hc] using hlines

lemma rtakeWhile_append_cons (head : Bytes) {last : Bytes} (h : sep ∉ last) :
    (head ++ sep :: last).rtakeWhile (· ≠ sep) = last := by
  have hlast : ∀ c ∈ last.reverse, decide (c ≠ sep) = true := by
    intro c hc
    refine decide_eq_true ?_
    rintro rfl
    exact h (List.mem_reverse.mp hc)
  rw [List.rtakeWhile, List.reverse_append, List.reverse_cons, List.append_assoc,
    List.takeWhile_append_of_pos hlast, List.singleton_append, List.takeWhile_cons_of_neg (by simp),
    List.append_nil, List.reverse_reverse]

lemma rtakeWhile_lines (lines : List Bytes) {last : Bytes} (h : sep ∉ last) :
    (lines.flatMap (· ++ [sep]) ++ last).rtakeWhile (· ≠ sep) = last := by
  induction last using List.reverseRecOn with
  | nil =>
    induction lines using List.reverseRecOn with
    | nil => rfl
    | append_singleton lines l _ =>
      simp [← List.append_assoc]
  | append_singleton last c ih =>
    simp only [List.mem_append, List.mem_singleton, not_or] at h
    rw [← List.append_assoc, List.rtakeWhile_concat_pos _ _ _ (by simpa using Ne.symm h.2), ih h.1]

end Bytes

namespace Source

variable {s : Source} {o k : Nat} {c : UInt8}

lemma positionAt_add (s : Source) (o k : Nat) :
    s.positionAt (o + k) = ((s.content.drop o).take k).foldl Position.advance (s.positionAt o) := by
  rw [positionAt, positionAt, ← List.foldl_append, List.take_add]

lemma positionAt_mono (s : Source) {a b : Nat} (h : a ≤ b) : s.positionAt a ≤ s.positionAt b := by
  obtain ⟨k, rfl⟩ := Nat.exists_eq_add_of_le h
  rw [positionAt_add]
  exact Position.le_foldl_advance _ _

lemma positionAt_lt {a b : Nat} (h : a < b) (hb : b ≤ s.content.length) :
    s.positionAt a < s.positionAt b := by
  have hnext : s.positionAt a < s.positionAt (a + 1) := by
    rw [positionAt_add, List.drop_eq_getElem_cons (h.trans_le hb)]
    exact Position.lt_advance _ _
  exact hnext.trans_le (s.positionAt_mono h)

lemma lt_of_positionAt_lt {a b : Nat} (h : s.positionAt a < s.positionAt b) : a < b :=
  lt_of_not_ge fun hle => (s.positionAt_mono hle).not_gt h

lemma positionAt_succ (hc : s.content[o]? = some c) :
    s.positionAt (o + 1) = (s.positionAt o).advance c := by
  obtain ⟨ho, rfl⟩ := List.getElem?_eq_some_iff.mp hc
  rw [positionAt_add, List.drop_eq_getElem_cons ho]
  rfl

lemma line_le_of_le (s : Source) (h : o ≤ k) : (s.positionAt o).line ≤ (s.positionAt k).line := by
  rcases Position.le_iff.mp (s.positionAt_mono h) with h | h
  · exact h.le
  · exact h.1.le

def lineHead (s : Source) (o : Nat) : Bytes := (s.content.take o).rtakeWhile (· ≠ newline)

def lineTail (s : Source) (o : Nat) : Bytes := (s.content.drop o).takeWhile (· ≠ newline)

lemma newline_notMem_lineHead (s : Source) (o : Nat) : newline ∉ s.lineHead o :=
  fun h => by simpa using List.mem_rtakeWhile_imp h

lemma newline_notMem_lineTail (s : Source) (o : Nat) : newline ∉ s.lineTail o :=
  fun h => by simpa using List.mem_takeWhile_imp h

lemma add_lineTail_le (ho : o ≤ s.content.length) :
    o + (s.lineTail o).length ≤ s.content.length := by
  have hle : (s.lineTail o).length ≤ (s.content.drop o).length := (List.takeWhile_prefix _).length_le
  rw [List.length_drop] at hle
  omega

lemma exists_lines_before (s : Source) (o : Nat) :
    ∃ lines : List Bytes, s.content.take o = lines.flatMap (· ++ [newline]) ++ s.lineHead o ∧
      (∀ l ∈ lines, newline ∉ l) ∧ s.positionAt o = ⟨lines.length + 1, (s.lineHead o).length + 1⟩ ∧
      ∃ more, s.rawLines = lines ++ (s.lineHead o ++ s.lineTail o) :: more := by
  obtain ⟨lines, last, h, hlines, hlast⟩ := Bytes.exists_lines newline (s.content.take o)
  have hhead : s.lineHead o = last := by rw [lineHead, h, Bytes.rtakeWhile_lines lines hlast]
  refine ⟨lines, hhead ▸ h, hlines, ?_, ?_⟩
  · rw [positionAt, h, List.foldl_append]
    have hfirst := Position.foldl_advance_lines .first hlines
    rw [Position.foldl_advance_of_notMem _ hlast, hhead]
    simp only [Position.first] at hfirst ⊢
    simp only [hfirst, Position.mk.injEq]
    omega
  · obtain ⟨more, hmore⟩ := Bytes.pieces_eq_cons newline (s.content.drop o)
    refine ⟨more, ?_⟩
    rw [rawLines, ← List.take_append_drop o s.content, h, List.append_assoc,
      Bytes.pieces_lines hlines, Bytes.pieces_append hlast, hmore, hhead]
    rfl

lemma column_eq (s : Source) (o : Nat) : (s.positionAt o).column = (s.lineHead o).length + 1 := by
  obtain ⟨_, -, -, hp, -⟩ := s.exists_lines_before o
  rw [hp]

lemma line_positionAt (s : Source) (o : Nat) :
    s.line (s.positionAt o).line = chomp (s.lineHead o ++ s.lineTail o) := by
  obtain ⟨lines, -, -, hp, more, hraw⟩ := s.exists_lines_before o
  rw [hp, line, if_neg (Nat.succ_ne_zero _), hraw]
  simp

lemma lineStart_positionAt_line (h : o ≤ s.content.length) :
    s.lineStart (s.positionAt o).line + (s.lineHead o).length = o := by
  obtain ⟨lines, htake, -, hp, more, hraw⟩ := s.exists_lines_before o
  have hlength : (lines.flatMap (· ++ [newline])).length + (s.lineHead o).length = o := by
    rw [← List.length_append, ← htake, List.length_take, Nat.min_eq_left h]
  rw [hp, lineStart, hraw, Nat.add_sub_cancel, List.take_left, Nat.min_eq_right (by omega), hlength]

lemma offsetAt_positionAt (h : o ≤ s.content.length) : s.offsetAt (s.positionAt o) = o := by
  obtain ⟨lines, -, -, hp, more, hraw⟩ := s.exists_lines_before o
  have hstart := lineStart_positionAt_line h
  have hcount : ¬s.lineCount < lines.length + 1 := by
    rw [lineCount, hraw, List.length_append, List.length_cons]
    omega
  rw [hp] at hstart
  rw [hp, offsetAt, if_neg (Nat.succ_ne_zero _), if_neg hcount]
  simp only [Nat.add_sub_cancel, hstart, if_pos h]

lemma take_eq_append_lineHead (s : Source) (o : Nat) :
    ∃ before, s.content.take o = before ++ s.lineHead o ∧ ∀ c ∈ before.getLast?, c = newline := by
  refine ⟨(s.content.take o).rdropWhile (· ≠ newline), List.rdropWhile_append_rtakeWhile.symm, ?_⟩
  intro c hc
  obtain ⟨hne, rfl⟩ := List.mem_getLast?_eq_getLast hc
  simpa using List.rdropWhile_last_not _ _ hne

lemma getElem?_lineHead (ho : o ≤ s.content.length) (hk : k < (s.lineHead o).length) :
    s.content[o - (s.lineHead o).length + k]? = (s.lineHead o)[k]? := by
  obtain ⟨before, htake, -⟩ := s.take_eq_append_lineHead o
  have hlength := congrArg List.length htake
  rw [List.length_take, Nat.min_eq_left ho, List.length_append] at hlength
  have hget : (s.content.take o)[before.length + k]? = (s.lineHead o)[k]? := by
    rw [htake, List.getElem?_append_right (Nat.le_add_right _ _), Nat.add_sub_cancel_left]
  rw [← hget, List.getElem?_take_of_lt (by omega)]
  congr 1
  omega

lemma positionAt_lineHead (ho : o ≤ s.content.length) (hk : k ≤ (s.lineHead o).length) :
    s.positionAt (o - (s.lineHead o).length + k) = ⟨(s.positionAt o).line, k + 1⟩ := by
  obtain ⟨lines, htake, hlines, hp, -⟩ := s.exists_lines_before o
  have hlength := congrArg List.length htake
  rw [List.length_take, Nat.min_eq_left ho, List.length_append] at hlength
  have hprefix : s.content.take (o - (s.lineHead o).length + k) =
      lines.flatMap (· ++ [newline]) ++ (s.lineHead o).take k := by
    have hmin : o - (s.lineHead o).length + k = min (o - (s.lineHead o).length + k) o := by omega
    rw [hmin, ← List.take_take, htake, List.take_append]
    congr 1
    · exact List.take_of_length_le (by omega)
    · congr 1
      omega
  have hnot : newline ∉ (s.lineHead o).take k :=
    fun hmem => s.newline_notMem_lineHead o (List.mem_of_mem_take hmem)
  have hfirst := Position.foldl_advance_lines .first hlines
  rw [positionAt, hprefix, List.foldl_append, Position.foldl_advance_of_notMem _ hnot, hp,
    List.length_take, Nat.min_eq_left hk]
  simp only [Position.first] at hfirst ⊢
  simp only [hfirst, Position.mk.injEq]
  omega

lemma mem_lineHead (hc : s.content[k]? = some c) (hlt : k < o) (ho : o ≤ s.content.length)
    (hline : (s.positionAt k).line = (s.positionAt o).line) : c ∈ s.lineHead o := by
  obtain ⟨before, htake, hlast⟩ := s.take_eq_append_lineHead o
  have hget {i : Nat} (hi : i < o) : s.content[i]? = (before ++ s.lineHead o)[i]? := by
    rw [← htake, List.getElem?_take_of_lt hi]
  have hlength := congrArg List.length htake
  rw [List.length_take, Nat.min_eq_left ho, List.length_append] at hlength
  rcases Nat.lt_or_ge k before.length with hk | hk
  · -- The newline that ends the lines before comes after the byte.
    have hne : before ≠ [] := List.ne_nil_of_length_pos (by omega)
    have hend : s.content[before.length - 1]? = some newline := by
      have hnewline := hlast _ (List.getLast?_eq_some_getLast hne)
      rw [hget (by omega), List.getElem?_append_left (by omega), ← List.getLast?_eq_getElem?,
        List.getLast?_eq_some_getLast hne, hnewline]
    have hnext := s.line_le_of_le (show before.length - 1 + 1 ≤ o by omega)
    have hprevious := s.line_le_of_le (show k ≤ before.length - 1 by omega)
    rw [positionAt_succ hend, Position.advance, if_pos rfl] at hnext
    dsimp only at hnext
    omega
  · rw [hget hlt, List.getElem?_append_right hk] at hc
    exact List.mem_of_getElem? hc

lemma positionAt_add_lineTail (s : Source) (h : k ≤ (s.lineTail o).length) :
    s.positionAt (o + k) = ⟨(s.positionAt o).line, (s.positionAt o).column + k⟩ := by
  have hpre : s.lineTail o <+: s.content.drop o := List.takeWhile_prefix _
  have hlen := hpre.length_le
  rw [List.length_drop] at hlen
  have htake : (s.content.drop o).take k = (s.lineTail o).take k := by
    obtain ⟨rest, hrest⟩ := hpre
    rw [← hrest, List.take_append_of_le_length h]
  rw [positionAt_add, htake, Position.foldl_advance_of_notMem, List.length_take, Nat.min_eq_left h]
  exact fun hmem => s.newline_notMem_lineTail o (List.mem_of_mem_take hmem)

lemma isPrefix_chomp (t : Bytes) : chomp t <+: t := by
  rw [chomp]
  split
  · exact List.dropLast_prefix _
  · exact List.prefix_rfl

lemma chomp_append {c : UInt8} (hc : c ≠ carriageReturn) (a t : Bytes) :
    chomp (a ++ c :: t) = a ++ c :: chomp t := by
  have hlast : (a ++ c :: t).getLast? = some carriageReturn ↔ t.getLast? = some carriageReturn := by
    cases t <;> simp [List.getLast?_append, List.getLast?_cons, hc]
  by_cases ht : t.getLast? = some carriageReturn
  · have hne : t ≠ [] := by
      rintro rfl
      simp at ht
    rw [chomp, if_pos (hlast.mpr ht), chomp, if_pos ht, List.dropLast_append_of_ne_nil (by simp),
      List.dropLast_cons_of_ne_nil hne]
  · rw [chomp, if_neg (mt hlast.mp ht), chomp, if_neg ht]

lemma ne_of_not_blank {c : UInt8} (hb : isBlank c = false) : c ≠ newline ∧ c ≠ carriageReturn := by
  constructor <;> rintro rfl <;> exact absurd hb (by decide)

lemma lineTail_eq_cons {c : UInt8} (hc : s.content[o]? = some c) (hb : isBlank c = false) :
    s.lineTail o = c :: s.lineTail (o + 1) := by
  obtain ⟨ho, rfl⟩ := List.getElem?_eq_some_iff.mp hc
  rw [lineTail, List.drop_eq_getElem_cons ho,
    List.takeWhile_cons_of_pos (by simpa using (ne_of_not_blank hb).1), lineTail]

lemma line_of_not_blank {c : UInt8} (hc : s.content[o]? = some c) (hb : isBlank c = false) :
    s.line (s.positionAt o).line = s.lineHead o ++ c :: chomp (s.lineTail (o + 1)) := by
  rw [line_positionAt, lineTail_eq_cons hc hb, chomp_append (ne_of_not_blank hb).2]

lemma exists_endOfLine {c : UInt8} (hc : s.content[o]? = some c) (hb : isBlank c = false) :
    ∃ a, o < a ∧ s.endOfLine (s.positionAt o).line = s.positionAt a ∧
      (a = o + (s.lineTail o).length ∨
        a + 1 = o + (s.lineTail o).length ∧ s.content[a]? = some carriageReturn) := by
  have htail := lineTail_eq_cons hc hb
  have hchomp := (isPrefix_chomp (s.lineTail (o + 1))).length_le
  refine ⟨o + (1 + (chomp (s.lineTail (o + 1))).length), by omega, ?_, ?_⟩
  · rw [positionAt_add_lineTail, column_eq, endOfLine, line_of_not_blank hc hb]
    · simp only [List.length_append, List.length_cons, Position.mk.injEq, true_and]
      omega
    · rw [htail, List.length_cons]
      omega
  · rw [htail, List.length_cons]
    by_cases hlast : (s.lineTail (o + 1)).getLast? = some carriageReturn
    · right
      have hpos : 0 < (s.lineTail (o + 1)).length := by
        rw [List.length_pos_iff]
        rintro hnil
        simp [hnil] at hlast
      rw [chomp, if_pos hlast, List.length_dropLast]
      refine ⟨by omega, ?_⟩
      obtain ⟨rest, hrest⟩ : s.lineTail (o + 1) <+: s.content.drop (o + 1) := List.takeWhile_prefix _
      rw [← Nat.add_assoc, ← List.getElem?_drop, ← hrest, List.getElem?_append_left (by omega),
        ← List.getLast?_eq_getElem?, hlast]
    · left
      rw [chomp, if_neg hlast]
      omega

end Source

end TrustRegions
