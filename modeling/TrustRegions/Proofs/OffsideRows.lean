import TrustRegions.Proofs.LineStarts

/-! The rows below a line. Bytes of a text in two parts give the rows of the first part and those of the
second one, with the brackets that are open in between. -/

namespace TrustRegions

variable {s : Source} {line d n m : Nat} {b : UInt8 × Layer} {l t : List (UInt8 × Layer)}
  {rows pre : List Row} {r : Row}

def Below (n : Nat) (rows : List Row) : Prop := (n :: rows.map (·.number)).Pairwise (· < ·)

def depthAfter (d : Nat) (l : List (UInt8 × Layer)) : Nat :=
  (l.filter fun b => b.2 == .code).foldl (fun depth b => bracketDepth depth b.1) d

lemma depthAfter_append (d : Nat) (l t : List (UInt8 × Layer)) :
    depthAfter d (l ++ t) = depthAfter (depthAfter d l) t := by
  rw [depthAfter, List.filter_append, List.foldl_append]
  rfl

lemma depthAfter_of_leading (h : ∀ b ∈ l, isLeading b = true) : depthAfter d l = d := by
  induction l with
  | nil => rfl
  | cons b l ih =>
    obtain ⟨hb, hl⟩ := List.forall_mem_cons.mp h
    have hone : depthAfter d [b] = d := by
      obtain ⟨c, layer⟩ := b
      cases layer with
      | string => rfl
      | comment => rfl
      | code =>
        have hblank : isBlank c = true := by simpa [isLeading] using hb
        have hne {x : UInt8} (hx : isBlank x = false) : c ≠ x := by
          rintro rfl
          exact absurd hblank (by simp [hx])
        have hopen : ¬(c = byte '(' ∨ c = byte '[' ∨ c = openBrace) := by
          simp only [not_or]
          exact ⟨hne (by decide), hne (by decide), hne (by decide)⟩
        have hclose : ¬(c = byte ')' ∨ c = byte ']' ∨ c = closeBrace) := by
          simp only [not_or]
          exact ⟨hne (by decide), hne (by decide), hne (by decide)⟩
        simp only [depthAfter, List.filter_cons, beq_self_eq_true, if_true, List.filter_nil,
          List.foldl_cons, List.foldl_nil, bracketDepth, if_neg hopen, if_neg hclose]
    rw [← List.singleton_append, depthAfter_append, hone, ih hl]

def Source.rowsFrom (s : Source) (line d : Nat) (layers : List (UInt8 × Layer)) : List Row :=
  let texts := (s.rawLines.drop line).map Source.chomp
  ((texts.zip (lineStarts d layers)).zipIdx (line + 1)).map fun x => ⟨x.2, x.1.1, x.1.2⟩

def lineStartOf (d : Nat) : Layer → LineStart
  | .code => if 0 < d then .continuation else .plain
  | .string => .continuation
  | .comment => .comment

lemma lineStarts_newline (d : Nat) (layer : Layer) (l : List (UInt8 × Layer)) :
    lineStarts d ((newline, layer) :: l) = lineStartOf d layer :: lineStarts d l := by
  cases layer <;> simp [lineStarts, lineStartOf]

lemma lineStarts_cons (h : b.1 ≠ newline) :
    lineStarts d (b :: l) = lineStarts (depthAfter d [b]) l := by
  obtain ⟨c, layer⟩ := b
  cases layer <;> simp_all [lineStarts, depthAfter]

lemma depthAfter_newline (d : Nat) (layer : Layer) (l : List (UInt8 × Layer)) :
    depthAfter d ((newline, layer) :: l) = depthAfter d l := by
  cases layer with
  | code => exact depthAfter_append d [(newline, .code)] l
  | string => rfl
  | comment => rfl

lemma Source.line_eq_getElem (s : Source) (h : line < s.rawLines.length) :
    s.line (line + 1) = chomp s.rawLines[line] := by
  rw [Source.line, if_neg (Nat.succ_ne_zero _), Nat.add_sub_cancel, List.getD_eq_getElem?_getD,
    List.getElem?_eq_getElem h, Option.getD_some]

lemma Source.rowsFrom_newline (s : Source) {line : Nat} (h : line < s.lineCount) (d : Nat)
    (layer : Layer) (l : List (UInt8 × Layer)) :
    s.rowsFrom line d ((newline, layer) :: l) =
      ⟨line + 1, s.line (line + 1), lineStartOf d layer⟩ :: s.rowsFrom (line + 1) d l := by
  rw [rowsFrom, lineStarts_newline, List.drop_eq_getElem_cons h, List.map_cons, List.zip_cons_cons,
    List.zipIdx_cons, List.map_cons, s.line_eq_getElem h]
  rfl

lemma Source.rowsFrom_cons (s : Source) (h : b.1 ≠ newline) (line d : Nat)
    (l : List (UInt8 × Layer)) :
    s.rowsFrom line d (b :: l) = s.rowsFrom line (depthAfter d [b]) l := by
  rw [rowsFrom, lineStarts_cons h, rowsFrom]

def breaks (l : List (UInt8 × Layer)) : Nat := (l.map (·.1)).count newline

lemma breaks_newline (p : List (UInt8 × Layer)) {q : List (UInt8 × Layer)}
    (hq : ∀ x ∈ q, x.1 ≠ newline) : breaks (p ++ (newline, .code) :: q) = breaks p + 1 := by
  have hnone : (q.map (·.1)).count newline = 0 := by
    refine List.count_eq_zero.mpr fun hmem => ?_
    obtain ⟨x, hx, heq⟩ := List.mem_map.mp hmem
    exact hq x hx heq
  rw [breaks, List.map_append, List.count_append, List.map_cons, List.count_cons_self, hnone, breaks]

lemma Source.exists_rowsFrom_append (s : Source) (l t : List (UInt8 × Layer))
    (line d : Nat) (h : line + breaks l ≤ s.lineCount) :
    ∃ pre, s.rowsFrom line d (l ++ t) = pre ++ s.rowsFrom (line + breaks l) (depthAfter d l) t := by
  induction l generalizing line d with
  | nil => exact ⟨[], rfl⟩
  | cons b l ih =>
    obtain ⟨c, layer⟩ := b
    rw [List.cons_append]
    by_cases hc : c = newline
    · subst hc
      have hbreaks : breaks ((newline, layer) :: l) = breaks l + 1 := by
        rw [breaks, List.map_cons, List.count_cons_self, breaks]
      rw [hbreaks] at h ⊢
      obtain ⟨pre, hpre⟩ := ih (line + 1) d (by omega)
      rw [s.rowsFrom_newline (by omega), depthAfter_newline, hpre,
        show line + (breaks l + 1) = line + 1 + breaks l by omega]
      exact ⟨_ :: pre, rfl⟩
    · have hbreaks : breaks ((c, layer) :: l) = breaks l := by
        rw [breaks, List.map_cons, List.count_cons_of_ne hc, breaks]
      rw [hbreaks] at h ⊢
      obtain ⟨pre, hpre⟩ := ih line (depthAfter d [(c, layer)]) h
      refine ⟨pre, ?_⟩
      rw [s.rowsFrom_cons hc, hpre, ← depthAfter_append, List.singleton_append]

lemma Source.rowsFrom_leading (s : Source) (hlead : ∀ b ∈ l, isLeading b = true)
    (hline : ∀ b ∈ l, b.1 ≠ newline) (line d : Nat) (t : List (UInt8 × Layer)) :
    s.rowsFrom line d (l ++ t) = s.rowsFrom line d t := by
  induction l with
  | nil => rfl
  | cons b l ih =>
    obtain ⟨hb, hlead⟩ := List.forall_mem_cons.mp hlead
    obtain ⟨hne, hline⟩ := List.forall_mem_cons.mp hline
    rw [List.cons_append, s.rowsFrom_cons hne, depthAfter_of_leading (by simpa using hb),
      ih hlead hline]

lemma below_cons : Below n (r :: rows) ↔ n < r.number ∧ Below r.number rows := by
  constructor
  · intro h
    obtain ⟨hlt, hrows⟩ := List.pairwise_cons.mp h
    exact ⟨hlt _ List.mem_cons_self, hrows⟩
  · rintro ⟨hlt, h⟩
    refine List.pairwise_cons.mpr ⟨fun k hk => ?_, h⟩
    rcases List.mem_cons.mp hk with rfl | hk
    · exact hlt
    · exact hlt.trans ((List.pairwise_cons.mp h).1 k hk)

lemma Below.lt (h : Below n rows) (hr : r ∈ rows) : n < r.number :=
  (List.pairwise_cons.mp h).1 _ (List.mem_map_of_mem hr)

lemma Below.mono (h : Below n rows) (hle : m ≤ n) : Below m rows :=
  List.pairwise_cons.mpr ⟨fun k hk => hle.trans_lt ((List.pairwise_cons.mp h).1 k hk),
    (List.pairwise_cons.mp h).2⟩

lemma Below.lt_of_append (h : Below n (pre ++ r :: rows)) :
    Below r.number rows ∧ n < r.number ∧ ∀ x ∈ pre, x.number < r.number := by
  induction pre generalizing n with
  | nil =>
    obtain ⟨hlt, hrows⟩ := below_cons.mp h
    exact ⟨hrows, hlt, by simp⟩
  | cons x pre ih =>
    obtain ⟨hlt, h⟩ := below_cons.mp h
    obtain ⟨hrows, hx, hpre⟩ := ih h
    exact ⟨hrows, hlt.trans hx, List.forall_mem_cons.mpr ⟨hx, hpre⟩⟩

lemma below_rowsAfter (s : Source) (line : Nat) (l : List (UInt8 × Layer)) :
    Below line (s.rowsAfter line l) := by
  rw [Source.rowsAfter]
  generalize ((s.rawLines.drop line).map Source.chomp).zip (lineStarts 0 l) = texts
  induction texts generalizing line with
  | nil => exact List.pairwise_singleton _ _
  | cons x texts ih =>
    rw [List.zipIdx_cons, List.map_cons]
    exact below_cons.mpr ⟨Nat.lt_succ_self _, ih (line + 1)⟩

end TrustRegions
