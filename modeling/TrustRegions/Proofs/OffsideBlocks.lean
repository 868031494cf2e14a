import TrustRegions.Proofs.Extents
import TrustRegions.Proofs.OffsideRows

/-! Indented blocks over the rows of a content, in languages where nothing but indentation ends a block.
A block that starts with a row of another one ends no later than that one. -/

namespace TrustRegions

structure Language.ByIndentation (lang : Language) : Prop where
  style : lang.style = .indentation
  block : lang.block = none
  blockTerminator : lang.blockTerminator = []
  clauseKeywords : lang.clauseKeywords = []

def offsideFrom (lang : Language) (base line : Nat) (decorated : Bool) (rows : List Row) :
    OffsideBlock :=
  let header := if decorated then headerEnd lang base line rows rows else (line, rows)
  offsideBlock lang base header.1 false header.2

variable {lang : Language} {base base' last stop n : Nat} {hasBody : Bool}
  {rows below pre : List Row} {r : Row}

def OffsideBlock.outcome (lang : Language) (line depth : Nat) (b : OffsideBlock) :
    Except ScopeFault Nat :=
  if b.atEnd ∧ 0 < depth then .error (.openStatement line)
  else if lang.blockTerminator ≠ [] ∧ b.hasBody ∧ ¬b.closed then
    .error (.missingTerminator line lang.blockTerminator)
  else .ok b.lastLine

lemma OffsideBlock.eq_of_outcome {b : OffsideBlock} {line depth : Nat}
    (h : b.outcome lang line depth = .ok stop) : stop = b.lastLine := by
  rw [outcome] at h
  split at h
  · cases h
  split at h
  · cases h
  exact (Except.ok.inj h).symm

namespace Source

lemma offsideEnd_def (s : Source) (lang : Language) (line : Nat) (l : List (UInt8 × Layer)) :
    s.offsideEnd lang line l = (offsideFrom lang (indentWidth (s.line line)) line
      (isDecorated (s.line line)) (s.rowsAfter line l)).outcome lang line (openBrackets l) := rfl

lemma offsideEnd_eq {s : Source} {line : Nat} {l : List (UInt8 × Layer)}
    (h : s.offsideEnd lang line l = .ok stop) :
    stop = (offsideFrom lang (indentWidth (s.line line)) line (isDecorated (s.line line))
      (s.rowsAfter line l)).lastLine :=
  OffsideBlock.eq_of_outcome h

end Source

section Block

lemma start_of_opensStatement (hs : r.opensStatement lang = true) : r.start ≠ .continuation := by
  simp only [Row.opensStatement, Bool.and_eq_true, beq_iff_eq] at hs
  rw [hs.1.1]
  exact LineStart.noConfusion

inductive RowCase (lang : Language) (base : Nat) (r : Row) : Prop
  | continuation : r.start = .continuation → RowCase lang base r
  | skip : r.start ≠ .continuation → r.opensStatement lang = false → RowCase lang base r
  | deeper : r.opensStatement lang = true → base < indentWidth r.text → RowCase lang base r
  | shallow : r.opensStatement lang = true → indentWidth r.text ≤ base → RowCase lang base r

lemma rowCase (lang : Language) (base : Nat) (r : Row) : RowCase lang base r := by
  by_cases hc : r.start = .continuation
  · exact .continuation hc
  cases hs : r.opensStatement lang with
  | false => exact .skip hc hs
  | true =>
    rcases Nat.lt_or_ge base (indentWidth r.text) with h | h
    · exact .deeper hs h
    · exact .shallow hs h

lemma offsideBlock_continuation (h : r.start = .continuation) :
    offsideBlock lang base last hasBody (r :: rows) = offsideBlock lang base r.number hasBody rows := by
  rw [offsideBlock, if_pos h]

lemma offsideBlock_skip (h : r.start ≠ .continuation) (hs : r.opensStatement lang = false) :
    offsideBlock lang base last hasBody (r :: rows) = offsideBlock lang base last hasBody rows := by
  rw [offsideBlock, if_neg h, if_pos (by simp [hs])]

lemma offsideBlock_deeper (hs : r.opensStatement lang = true) (h : base < indentWidth r.text) :
    offsideBlock lang base last hasBody (r :: rows) = offsideBlock lang base r.number true rows := by
  rw [offsideBlock, if_neg (start_of_opensStatement hs), if_neg (by simp [hs]), if_pos h]

lemma offsideBlock_shallow (hl : lang.ByIndentation) (hs : r.opensStatement lang = true)
    (h : indentWidth r.text ≤ base) :
    (offsideBlock lang base last hasBody (r :: rows)).lastLine = last := by
  rw [offsideBlock, if_neg (start_of_opensStatement hs), if_neg (by simp [hs]),
    if_neg (Nat.not_lt.mpr h)]
  simp [hl.blockTerminator, hl.clauseKeywords, Bytes.startsWithWord]

lemma offsideBlock_append (hl : lang.ByIndentation) (hpre : ∀ x ∈ pre, x.number < n)
    (hlast : last < n) :
    (offsideBlock lang base last hasBody (pre ++ rows)).lastLine < n ∨
      ∃ last' hasBody', last' < n ∧ offsideBlock lang base last hasBody (pre ++ rows) =
        offsideBlock lang base last' hasBody' rows := by
  induction pre generalizing last hasBody with
  | nil => exact Or.inr ⟨last, hasBody, hlast, rfl⟩
  | cons x pre ih =>
    obtain ⟨hx, hpre⟩ := List.forall_mem_cons.mp hpre
    rw [List.cons_append]
    cases rowCase lang base x with
    | continuation hc => rw [offsideBlock_continuation hc]; exact ih hpre hx
    | skip hc hs => rw [offsideBlock_skip hc hs]; exact ih hpre hlast
    | deeper hs hd => rw [offsideBlock_deeper hs hd]; exact ih hpre hx
    | shallow hs hd => exact Or.inl (by rwa [offsideBlock_shallow hl hs hd])

end Block

section Inner

def Around (lang : Language) (base stop n : Nat) (rows : List Row) : Prop :=
  Below n rows ∧ ∃ last hasBody, n ≤ last ∧ (offsideBlock lang base last hasBody rows).lastLine = stop

lemma Around.le (h : Around lang base stop n rows) : n ≤ stop := by
  obtain ⟨hbelow, last, hasBody, hle, rfl⟩ := h
  exact lastLine_offsideBlock (P := (_ ≤ ·)) hle fun r hr => (hbelow.lt hr).le

lemma Around.skip (h : Around lang base stop n (r :: rows)) (hs : r.opensStatement lang = false) :
    Around lang base stop n rows := by
  obtain ⟨hbelow, last, hasBody, hle, hstop⟩ := h
  obtain ⟨hlt, hrows⟩ := below_cons.mp hbelow
  refine ⟨hrows.mono hlt.le, ?_⟩
  by_cases hc : r.start = .continuation
  · exact ⟨r.number, hasBody, hlt.le, offsideBlock_continuation hc ▸ hstop⟩
  · exact ⟨last, hasBody, hle, offsideBlock_skip hc hs ▸ hstop⟩

lemma Around.deeper (h : Around lang base stop n (r :: rows)) (hs : r.opensStatement lang = true)
    (hd : base < indentWidth r.text) : Around lang base stop r.number rows := by
  obtain ⟨hbelow, last, hasBody, -, hstop⟩ := h
  exact ⟨(below_cons.mp hbelow).2, r.number, true, le_rfl, offsideBlock_deeper hs hd ▸ hstop⟩

lemma Around.lastLine_le (hl : lang.ByIndentation) (h : Around lang base stop n rows)
    (hbase : base < base') : (offsideBlock lang base' n hasBody rows).lastLine ≤ stop := by
  induction rows generalizing n hasBody with
  | nil => exact h.le
  | cons r rows ih =>
    cases rowCase lang base' r with
    | continuation hc =>
      obtain ⟨hbelow, last, hasBody', -, hstop⟩ := h
      rw [offsideBlock_continuation hc] at hstop ⊢
      exact ih ⟨(below_cons.mp hbelow).2, r.number, hasBody', le_rfl, hstop⟩
    | skip hc hs => rw [offsideBlock_skip hc hs]; exact ih (h.skip hs)
    | deeper hs hd => rw [offsideBlock_deeper hs hd]; exact ih (h.deeper hs (hbase.trans hd))
    | shallow hs hd => rw [offsideBlock_shallow hl hs hd]; exact h.le

lemma Around.headerEnd (hbase : base < base') (hbelow : Around lang base stop n below)
    (h : Around lang base stop n rows) :
    Around lang base stop (headerEnd lang base' n below rows).1
      (headerEnd lang base' n below rows).2 := by
  induction rows generalizing n below with
  | nil => exact hbelow
  | cons r rows ih =>
    rw [TrustRegions.headerEnd]
    split
    · next hs => exact ih hbelow (h.skip (by simpa using hs))
    · next hs =>
      have hs : r.opensStatement lang = true := by simpa using hs
      split
      · exact hbelow
      · next hindent =>
        have hrows := h.deeper hs (by omega)
        split
        · exact ih hrows hrows
        · exact hrows

lemma Around.offsideFrom_le (hl : lang.ByIndentation) (hbase : base < base')
    (h : Around lang base stop n rows) (decorated : Bool) :
    (offsideFrom lang base' n decorated rows).lastLine ≤ stop := by
  rw [offsideFrom]
  cases decorated with
  | false => exact h.lastLine_le hl hbase
  | true => exact (Around.headerEnd hbase h h).lastLine_le hl hbase

end Inner

lemma headerEnd_append (base : Nat) (hs : r.opensStatement lang = true) (hlast : last < r.number)
    (hbelow : ∀ x ∈ below, x.number < r.number) (hpre : ∀ x ∈ pre, x.number < r.number) :
    (∃ last' below', headerEnd lang base last (below ++ r :: rows) (pre ++ r :: rows) =
        (last', below' ++ r :: rows) ∧ last' < r.number ∧ ∀ x ∈ below', x.number < r.number) ∨
      indentWidth r.text = base ∧
        headerEnd lang base last (below ++ r :: rows) (pre ++ r :: rows) =
          if isDecorated r.text then headerEnd lang base r.number rows rows else (r.number, rows) := by
  induction pre generalizing last below with
  | nil =>
    rw [List.nil_append, headerEnd, if_neg (by simp [hs])]
    split
    · exact Or.inl ⟨last, below, rfl, hlast, hbelow⟩
    · next hindent => exact Or.inr ⟨by simpa using hindent, rfl⟩
  | cons x pre ih =>
    obtain ⟨hx, hpre⟩ := List.forall_mem_cons.mp hpre
    rw [List.cons_append, headerEnd]
    split
    · exact ih hlast hbelow hpre
    split
    · exact Or.inl ⟨last, below, rfl, hlast, hbelow⟩
    split
    · exact ih hx hpre hpre
    · exact Or.inl ⟨x.number, pre, rfl, hx, hpre⟩

lemma offsideFrom_append (hl : lang.ByIndentation) (hs : r.opensStatement lang = true)
    (h : Below n (pre ++ r :: rows)) (base : Nat) (decorated : Bool) :
    (offsideFrom lang base n decorated (pre ++ r :: rows)).lastLine < r.number ∨
      (offsideFrom lang (indentWidth r.text) r.number (isDecorated r.text) rows).lastLine ≤
        (offsideFrom lang base n decorated (pre ++ r :: rows)).lastLine := by
  obtain ⟨hrows, hlast, hpre⟩ := h.lt_of_append
  have hblock {last : Nat} {below : List Row} (hlast : last < r.number)
      (hbelow : ∀ x ∈ below, x.number < r.number) :
      (offsideBlock lang base last false (below ++ r :: rows)).lastLine < r.number ∨
        (offsideFrom lang (indentWidth r.text) r.number (isDecorated r.text) rows).lastLine ≤
          (offsideBlock lang base last false (below ++ r :: rows)).lastLine := by
    rcases offsideBlock_append hl hbelow hlast with hlt | ⟨last', hasBody', hlt, heq⟩
    · exact Or.inl hlt
    rw [heq]
    rcases Nat.lt_or_ge base (indentWidth r.text) with hd | hd
    · rw [offsideBlock_deeper hs hd]
      exact Or.inr (Around.offsideFrom_le hl hd ⟨hrows, r.number, true, le_rfl, rfl⟩ _)
    · rw [offsideBlock_shallow hl hs hd]
      exact Or.inl hlt
  cases decorated with
  | false => exact hblock hlast hpre
  | true =>
    rcases headerEnd_append base hs hlast hpre hpre with
      ⟨last', below', heq, hlt, hbelow'⟩ | ⟨hindent, heq⟩
    · rw [offsideFrom, if_pos rfl, heq]
      exact hblock hlt hbelow'
    · refine Or.inr (Nat.le_of_eq ?_)
      rw [offsideFrom, offsideFrom, if_pos rfl, heq, hindent]

end TrustRegions
