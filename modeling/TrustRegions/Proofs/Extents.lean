import TrustRegions.Proofs.BraceWalks
import TrustRegions.Proofs.Comments
import TrustRegions.Proofs.ScanRegions

/-! Each scope that is not that of a block has text in it: it starts no later than a byte that shows, be
that of the directive or of the declaration, and goes on past it. -/

namespace TrustRegions

lemma length_takeWhile_append_le {α : Type} {p : α → Bool} {x : α} (h : p x = false) (l t : List α) :
    ((l ++ x :: t).takeWhile p).length ≤ l.length := by
  induction l with
  | nil => simp [h]
  | cons a l ih =>
    rw [List.cons_append, List.takeWhile_cons]
    split
    · simpa using ih
    · exact Nat.zero_le _

lemma isBlank_of_isIndent {c : UInt8} (h : isIndent c = true) : isBlank c = true := by
  rw [isIndent, Bool.or_eq_true] at h
  simp only [isBlank, Bool.or_eq_true]
  tauto

namespace Source

variable {s : Source} {lang : Language} {o n : Nat} {c : UInt8} {t : Span}

lemma positionAt_lt_endOfLine (hc : s.content[o]? = some c) (hb : isBlank c = false)
    (hn : (s.positionAt o).line ≤ n) : s.positionAt o < s.endOfLine n := by
  rcases hn.lt_or_eq with hlt | rfl
  · exact Or.inl hlt
  · refine Or.inr ⟨rfl, ?_⟩
    simp only [endOfLine, line_of_not_blank hc hb, column_eq, List.length_append, List.length_cons]
    omega

lemma not_indent_of_not_blank {c : UInt8} (hb : isBlank c = false) : isIndent c = false := by
  cases h : isIndent c with
  | false => rfl
  | true => rw [isBlank_of_isIndent h] at hb; cases hb

lemma firstCodeColumn_le (hc : s.content[o]? = some c) (hb : isBlank c = false) :
    s.firstCodeColumn (s.positionAt o).line ≤ (s.positionAt o).column := by
  rw [firstCodeColumn, leadLength, line_of_not_blank hc hb, column_eq]
  exact Nat.succ_le_succ (length_takeWhile_append_le (not_indent_of_not_blank hb) _ _)

lemma column_le_firstCodeColumn (hc : s.content[o]? = some c) (hb : isBlank c = false)
    (hindent : ∀ x ∈ s.lineHead o, isIndent x = true) :
    (s.positionAt o).column ≤ s.firstCodeColumn (s.positionAt o).line := by
  rw [firstCodeColumn, leadLength, line_of_not_blank hc hb, column_eq,
    List.takeWhile_append_of_pos hindent, List.length_append]
  omega

def Shown (s : Source) (t : Span) : Prop :=
  t.start < t.stop ∧ ∃ o c, s.content[o]? = some c ∧ isBlank c = false ∧ t.start = s.positionAt o

lemma Shown.start_lt_endOfLine (h : s.Shown t) : t.start < s.endOfLine t.stop.line := by
  obtain ⟨hlt, o, c, hc, hb, hstart⟩ := h
  rw [hstart] at hlt ⊢
  refine positionAt_lt_endOfLine hc hb ?_
  rcases Position.lt_iff.mp hlt with h | h
  · exact h.le
  · exact h.1.le

lemma nonempty_ownLineScope (h : s.Shown t) : ¬(s.ownLineScope t).Empty := by
  have hend := h.start_lt_endOfLine
  obtain ⟨-, o, c, hc, hb, hstart⟩ := h
  have hle : (s.ownLineScope t).start ≤ t.start := by
    refine Or.inr ⟨rfl, ?_⟩
    rw [ownLineScope, hstart]
    exact firstCodeColumn_le hc hb
  exact not_not.mpr (hle.trans_lt hend)

lemma nonempty_trailingScope (h : s.Shown t) : ¬(s.trailingScope lang t).Empty := by
  have hle : (s.trailingScope lang t).start ≤ t.start := Or.inr ⟨rfl, Nat.min_le_right _ _⟩
  exact not_not.mpr (hle.trans_lt h.start_lt_endOfLine)

end Source

namespace Language

variable {lang : Language} {content : Bytes} {a : Nat} {b : UInt8 × Layer}
  {rest : List (UInt8 × Layer)}

lemma getElem?_of_dropWhile_layers (h : (lang.layers content a).dropWhile isLeading = b :: rest) :
    content[a + ((lang.layers content a).takeWhile isLeading).length]? = some b.1 := by
  have hdrop := congrArg (List.map (·.1)) (drop_length_takeWhile isLeading (lang.layers content a))
  rw [h, List.map_drop, map_fst_layers, List.drop_drop] at hdrop
  rw [← Nat.add_zero (a + _), ← List.getElem?_drop, hdrop]
  rfl

lemma isLeading_of_dropWhile {l : List (UInt8 × Layer)} (h : l.dropWhile isLeading = b :: rest) :
    isLeading b = false := by
  have hnot := List.head?_dropWhile_not isLeading l
  rwa [h] at hnot

lemma string_of_dropWhile_layers (hl : lang.Legible)
    (h : (lang.layers content a).dropWhile isLeading = b :: rest) (hb : b.2 = .string) :
    isBlank b.1 = false ∧ b.1 ≠ byte '@' := by
  induction hs : lang.segments content a generalizing a with
  | nil => simp [layers, hs] at h
  | cons s ss ih =>
    obtain ⟨ha, rfl, hss⟩ := segments_eq_cons hs
    rw [layers_of_lt ha, List.dropWhile_append] at h
    split at h
    · exact ih h hss.symm
    · next hne =>
      -- The byte belongs to the first segment; a string has it as its first byte.
      obtain ⟨b', t, hb'⟩ := List.exists_cons_of_ne_nil (mt List.isEmpty_iff.mpr hne)
      rw [hb'] at h
      obtain ⟨rfl, -⟩ := List.cons.inj h
      obtain ⟨c, hc, hcb⟩ := List.mem_map.mp
        ((List.dropWhile_sublist _).subset (hb' ▸ List.mem_cons_self))
      have hlayer : (lang.firstSegment content a).kind.layer = .string := by rw [← hb, ← hcb]
      have hlooks := lang.looks_of_mem hl (hs ▸ List.mem_cons_self)
      cases hk : (lang.firstSegment content a).kind with
      | code => simp [hk, Segment.Kind.layer] at hlayer
      | comment => simp [hk, Segment.Kind.layer] at hlayer
      | string =>
        rw [hk] at hlooks
        obtain ⟨-, -, q, text, hq, hshows⟩ := hlooks
        obtain ⟨q', taken, htaken⟩ :=
          List.exists_cons_of_ne_nil (List.ne_nil_of_length_pos (lang.length_firstTaken_pos ha))
        have happend := lang.drop_eq_firstTaken_append content a
        rw [htaken, show content.drop a = q :: text from hq] at happend
        obtain ⟨rfl, -⟩ := List.cons.inj happend
        rw [htaken, hlayer, List.map_cons, List.dropWhile_cons_of_neg (by simp [isLeading])] at hb'
        obtain ⟨rfl, -⟩ := List.cons.inj hb'
        exact hshows

lemma shows_of_dropWhile_layers (hl : lang.Legible)
    (h : (lang.layers content a).dropWhile isLeading = b :: rest) : isBlank b.1 = false := by
  have hlead := isLeading_of_dropWhile h
  obtain ⟨c, layer⟩ := b
  cases layer with
  | comment => simp [isLeading] at hlead
  | code => simpa [isLeading] using hlead
  | string => exact (string_of_dropWhile_layers hl h rfl).1

end Language

section Offside

variable {lang : Language} {base lastLine line : Nat} {hasBody : Bool} {rows below : List Row}
  {P : Nat → Prop}

lemma lastLine_offsideBlock (hlast : P lastLine) (h : ∀ r ∈ rows, P r.number) :
    P (offsideBlock lang base lastLine hasBody rows).lastLine := by
  induction rows generalizing lastLine hasBody with
  | nil => exact hlast
  | cons r rows ih =>
    obtain ⟨hr, hrows⟩ := List.forall_mem_cons.mp h
    rw [offsideBlock]
    split
    · exact ih hr hrows
    split
    · exact ih hlast hrows
    split
    · exact ih hr hrows
    dsimp only
    split
    · exact ih hr hrows
    split
    · exact hr
    · exact hlast

lemma forall_headerEnd (lang : Language) (base : Nat) (hlast : P lastLine)
    (hbelow : ∀ r ∈ below, P r.number) (h : ∀ r ∈ rows, P r.number) :
    P (headerEnd lang base lastLine below rows).1 ∧
      ∀ r ∈ (headerEnd lang base lastLine below rows).2, P r.number := by
  induction rows generalizing lastLine below with
  | nil => exact ⟨hlast, hbelow⟩
  | cons r rows ih =>
    obtain ⟨hr, hrows⟩ := List.forall_mem_cons.mp h
    rw [headerEnd]
    split
    · exact ih hlast hbelow hrows
    split
    · exact ⟨hlast, hbelow⟩
    split
    · exact ih hr hrows hrows
    · exact ⟨hr, hrows⟩

namespace Source

variable {s : Source} {stop : Nat} {layers : List (UInt8 × Layer)}

lemma number_of_mem_rowsAfter {r : Row} (h : r ∈ s.rowsAfter line layers) :
    line < r.number ∧ r.number ≤ s.lineCount := by
  obtain ⟨x, hx, rfl⟩ := List.mem_map.mp h
  obtain ⟨hle, hlt, -⟩ := List.mem_zipIdx hx
  simp only [List.length_zip, List.length_map, List.length_drop] at hlt
  dsimp only
  rw [lineCount]
  omega

lemma offsideEnd_of_forall (h : s.offsideEnd lang line layers = .ok stop) (hline : P line)
    (hrows : ∀ r ∈ s.rowsAfter line layers, P r.number) : P stop := by
  rw [offsideEnd] at h
  generalize hp : (if isDecorated (s.line line) then headerEnd lang (indentWidth (s.line line)) line
    (s.rowsAfter line layers) (s.rowsAfter line layers) else (line, s.rowsAfter line layers)) = p at h
  obtain ⟨header, below⟩ := p
  have hfrom : P header ∧ ∀ r ∈ below, P r.number := by
    split at hp
    · have := forall_headerEnd lang (indentWidth (s.line line)) hline hrows hrows
      rwa [hp] at this
    · obtain ⟨rfl, rfl⟩ := Prod.mk.inj hp
      exact ⟨hline, hrows⟩
  dsimp only at h
  split at h
  · cases h
  split at h
  · cases h
  obtain rfl := Except.ok.inj h
  exact lastLine_offsideBlock hfrom.1 hfrom.2

lemma le_offsideEnd (h : s.offsideEnd lang line layers = .ok stop) : line ≤ stop :=
  offsideEnd_of_forall h le_rfl fun _ hr => (number_of_mem_rowsAfter hr).1.le

end Source

end Offside

namespace Source

variable {s : Source} {lang : Language} {anchor : Position} {t : Span}

def declarationStart (s : Source) (lang : Language) (a : Nat) : Nat :=
  a + ((lang.layers s.content a).takeWhile isLeading).length

lemma exists_of_declarationScope? (h : s.declarationScope? lang anchor = .ok (some t)) :
    ∃ b rest, (lang.layers s.content (s.offsetAt anchor)).dropWhile isLeading = b :: rest ∧
      t.start = s.positionAt (s.declarationStart lang (s.offsetAt anchor)) ∧
      (lang.style = .brace ∧ ¬(b.1 = closeBrace ∨ b.1 = byte ')' ∨ b.1 = byte ']') ∧
        (∃ stop, lang.bracedEnd t.start.line (s.declarationStart lang (s.offsetAt anchor))
          (b :: rest) = .ok stop ∧ t.stop = s.positionAt stop) ∨
      lang.style ≠ .brace ∧ ∃ line, s.offsideEnd lang t.start.line (b :: rest) = .ok line ∧
        t.stop = s.endOfLine line) := by
  rw [declarationScope?] at h
  split at h
  · cases h
  dsimp only at h
  split at h
  · cases h
  next c layer rest hdrop =>
  refine ⟨(c, layer), rest, hdrop, ?_⟩
  split at h
  · next hstyle =>
    split at h
    · cases h
    next hcloser =>
    obtain ⟨stop, hstop, ht⟩ := exists_of_map_eq_ok h
    obtain rfl := Option.some.inj ht
    exact ⟨rfl, Or.inl ⟨hstyle, hcloser, stop, hstop, rfl⟩⟩
  · next hstyle =>
    obtain ⟨line, hline, ht⟩ := exists_of_map_eq_ok h
    obtain rfl := Option.some.inj ht
    exact ⟨rfl, Or.inr ⟨hstyle, line, hline, rfl⟩⟩

lemma nonempty_declarationScope (hl : lang.Legible)
    (h : s.declarationScope? lang anchor = .ok (some t)) : ¬t.Empty := by
  obtain ⟨b, rest, hdrop, hstart, ⟨-, hcloser, stop, hstop, hts⟩ | ⟨-, line, hline, hts⟩⟩ :=
    exists_of_declarationScope? h
  all_goals
    rw [not_not, hstart, hts]
    have hget := Language.getElem?_of_dropWhile_layers hdrop
  · have hlt := Language.lt_bracedEnd (Language.isLeading_of_dropWhile hdrop) hcloser hstop
    have hle := Language.bracedEnd_le hstop
    have hlength := (List.getElem?_eq_some_iff.mp hget).1
    have hrest := congrArg List.length hdrop
    rw [← drop_length_takeWhile, List.length_drop, Language.length_layers] at hrest
    refine positionAt_lt hlt ?_
    rw [declarationStart] at hle
    omega
  · refine positionAt_lt_endOfLine hget (Language.shows_of_dropWhile_layers hl hdrop) ?_
    rw [hstart] at hline
    exact le_offsideEnd hline

end Source

end TrustRegions
