import TrustRegions.Marker
import TrustRegions.Proofs.AttributeGrammar
import TrustRegions.Proofs.Delimiters

/-! The words of a comment are those of its lines, and the decoration of a line is none of them: texts
mean the same on one line as on several, and in any decoration. -/

namespace TrustRegions

namespace Bytes

variable {b s w line : Bytes} {sep : UInt8} {lines : List Bytes}

lemma trim_blank_append (hb : Blank b) (s : Bytes) : trim (b ++ s) = trim s := by
  rw [trim, List.dropWhile_append_of_pos hb, trim]

lemma exists_trim (s : Bytes) :
    ∃ b b', Blank b ∧ Blank b' ∧ s = b ++ (trim s ++ b') ∧ Trimmed (trim s) := by
  obtain ⟨b, hb, hs⟩ := exists_blank s
  obtain ⟨b', hb', hrest, htrimmed⟩ := exists_trimmed (head?_dropWhile isBlank s)
  have htrim : trim s = trim (s.dropWhile isBlank) := by
    conv_lhs => rw [hs, trim_blank_append hb]
  rw [htrim]
  exact ⟨b, b', hb, hb', by rw [← hrest, ← hs], htrimmed⟩

lemma trimmed_trim (s : Bytes) : Trimmed (trim s) := by
  obtain ⟨-, -, -, -, -, htrimmed⟩ := exists_trim s
  exact htrimmed

lemma trim_of_trimmed (hw : Trimmed w) : trim w = w := by
  simpa using trim_append hw blank_nil

lemma infix_trim (s : Bytes) : trim s <:+: s := by
  obtain ⟨b, b', -, -, hs, -⟩ := exists_trim s
  exact ⟨b, b', by rw [List.append_assoc, ← hs]⟩

lemma trim_append_blank (s : Bytes) (hb : Blank b) : trim (s ++ b) = trim s := by
  obtain ⟨c, c', hc, hc', hs, htrimmed⟩ := exists_trim s
  conv_lhs => rw [hs, List.append_assoc, trim_blank_append hc, List.append_assoc]
  exact trim_append htrimmed (hc'.append hb)

lemma trim_dropWhile_blank (s : Bytes) : trim (s.dropWhile isBlank) = trim s := by
  obtain ⟨b, hb, hs⟩ := exists_blank s
  conv_rhs => rw [hs, trim_blank_append hb]

lemma head?_of_trim {p : UInt8 → Bool} (hp : ∀ c, isBlank c = true → p c = false)
    (hs : ∀ c ∈ (trim s).head?, p c = false) (hb : Blank b) :
    ∀ c ∈ (b ++ s).head?, p c = false := by
  -- The first byte is a blank in front, the first of the trimmed text, or a blank behind where that is
  -- empty.
  obtain ⟨b₁, b₂, hb₁, hb₂, htext, -⟩ := exists_trim s
  intro c hc
  rw [htext, List.head?_append, List.head?_append, List.head?_append] at hc
  have hblank {w : Bytes} (hw : Blank w) (h : w.head? = some c) : p c = false :=
    hp c (hw c (List.mem_of_head? h))
  cases h : b.head? with
  | some d => exact hblank hb (by simpa [h] using hc)
  | none =>
    cases h₁ : b₁.head? with
    | some d => exact hblank hb₁ (by simpa [h, h₁] using hc)
    | none =>
      cases h₂ : (trim s).head? with
      | some d => exact hs c (by simpa [h, h₁, h₂] using hc)
      | none => exact hblank hb₂ (by simpa [h, h₁, h₂] using hc)

lemma pieces_eq_splitOn (sep : UInt8) (t : Bytes) : pieces sep t = t.splitOn sep := by
  induction t with
  | nil => rfl
  | cons c t ih =>
    rw [pieces, List.splitOn, List.splitOnP_cons_eq_if_modifyHead, ← List.splitOn, ih]
    simp

lemma pieces_intercalate (h : ∀ l ∈ lines, sep ∉ l) (hne : lines ≠ []) :
    pieces sep ([sep].intercalate lines) = lines := by
  rw [pieces_eq_splitOn, List.splitOn_intercalate sep h hne]

lemma intercalate_ne_nil (hw : w ≠ []) (ws : List Bytes) : [sep].intercalate (w :: ws) ≠ [] := by
  cases ws with
  | nil => simpa using hw
  | cons v ws => simp [List.intercalate_cons_cons]

lemma head?_intercalate (hw : w ≠ []) (ws : List Bytes) :
    ([sep].intercalate (w :: ws)).head? = w.head? := by
  cases ws with
  | nil => simp
  | cons v ws => rw [List.intercalate_cons_cons, List.append_assoc, List.head?_append_of_ne_nil _ hw]

lemma infix_of_mem_intercalate {ws : List Bytes} (h : w ∈ ws) : w <:+: [sep].intercalate ws := by
  induction ws with
  | nil => cases h
  | cons v ws ih =>
    cases ws with
    | nil =>
      obtain rfl := List.mem_singleton.mp h
      exact List.intercalate_singleton ▸ List.infix_rfl
    | cons u ws =>
      rw [List.intercalate_cons_cons]
      rcases List.mem_cons.mp h with rfl | h
      · rw [List.append_assoc]
        exact (List.prefix_append _ _).isInfix
      · exact (ih h).trans (List.suffix_append _ _).isInfix

lemma infix_of_mem_pieces {t : Bytes} (h : w ∈ t.pieces sep) : w <:+: t := by
  rw [pieces_eq_splitOn] at h
  have hpart : w <:+: [sep].intercalate (t.splitOn sep) := infix_of_mem_intercalate h
  rwa [List.intercalate_splitOn] at hpart

lemma mem_intercalate {c : UInt8} {ws : List Bytes} (h : c ∈ [sep].intercalate ws) :
    c = sep ∨ ∃ w ∈ ws, c ∈ w := by
  induction ws with
  | nil => simp at h
  | cons w ws ih =>
    cases ws with
    | nil => exact Or.inr ⟨w, List.mem_cons_self, by simpa using h⟩
    | cons v ws =>
      rw [List.intercalate_cons_cons, List.mem_append, List.mem_append, List.mem_singleton] at h
      rcases h with (hw | rfl) | h
      · exact Or.inr ⟨w, List.mem_cons_self, hw⟩
      · exact Or.inl rfl
      · exact (ih h).imp_right fun ⟨x, hx, hc⟩ => ⟨x, List.mem_cons_of_mem w hx, hc⟩

lemma trimmed_intercalate {ws : List Bytes} (h : ∀ w ∈ ws, Trimmed w ∧ w ≠ []) :
    Trimmed ([sep].intercalate ws) := by
  induction ws with
  | nil => simp [Trimmed]
  | cons w ws ih =>
    obtain ⟨hw, hws⟩ := List.forall_mem_cons.mp h
    cases ws with
    | nil => simpa using hw.1
    | cons v ws =>
      have hne : [sep].intercalate (v :: ws) ≠ [] :=
        intercalate_ne_nil (hws v List.mem_cons_self).2 ws
      refine ⟨?_, ?_⟩
      · rw [head?_intercalate hw.2]
        exact hw.1.1
      · rw [List.intercalate_cons_cons, List.getLast?_append_of_ne_nil _ hne]
        exact (ih hws).2

end Bytes

open Bytes

namespace Marker

def Decorates (marks d : Bytes) : Prop :=
  ∃ b m b', (∀ c ∈ b ++ b', isBlank c = true ∧ c ≠ newline) ∧ (∀ c ∈ m, c ∈ marks) ∧
    d = b ++ (m ++ b')

inductive Carries : List Bytes → List Bytes → Prop
  | nil : Carries [] []
  | filler {d : Bytes} {lines texts : List Bytes} : Decorates (ascii "*") d → Carries lines texts →
      Carries (d :: lines) texts
  | text {d t : Bytes} {lines texts : List Bytes} : Decorates (ascii "*!") d → Carries lines texts →
      Carries ((d ++ t) :: lines) (t :: texts)

structure Says (t : Bytes) : Prop where
  line : newline ∉ t
  nonempty : trim t ≠ []
  head : ∀ c ∈ (trim t).head?, c ≠ byte '*' ∧ c ≠ byte '!'

variable {style : CommentStyle} {marks d t text : Bytes} {lines texts : List Bytes}

lemma isBlank_of_isDecoration {c : UInt8} (h : isDecoration style c = true) : isBlank c = false := by
  have hc : c = byte '/' ∨ c = byte '*' ∨ c = byte '!' := by
    cases style <;> simp only [isDecoration, Bool.or_eq_true, beq_iff_eq] at h <;> tauto
  rcases hc with rfl | rfl | rfl <;> decide

lemma not_isDecoration_of_isBlank {c : UInt8} (h : isBlank c = true) :
    isDecoration style c = false := by
  by_contra hne
  rw [isBlank_of_isDecoration (eq_true_of_ne_false hne)] at h
  cases h

lemma Decorates.newline_notMem (h : Decorates marks d) (hmarks : newline ∉ marks) : newline ∉ d := by
  obtain ⟨b, m, b', hblank, hm, rfl⟩ := h
  intro hmem
  rcases List.mem_append.mp hmem with hb | hmem
  · exact (hblank _ (List.mem_append_left _ hb)).2 rfl
  rcases List.mem_append.mp hmem with hmem | hb
  · exact hmarks (hm _ hmem)
  · exact (hblank _ (List.mem_append_right _ hb)).2 rfl

lemma undecorate_eq (style : CommentStyle) (line : Bytes) :
    undecorate style line = trim ((line.dropWhile isBlank).dropWhile (isDecoration style)) := by
  -- The blanks behind the line are no decoration, so they can stay until the words are trimmed.
  obtain ⟨b, hb, hline, -⟩ := exists_trimmed (head?_dropWhile isBlank line)
  rw [trim_dropWhile_blank] at hline
  have hkeep : b.dropWhile (isDecoration style) = b :=
    dropWhile_append_of_head (w := []) (by simp) fun c hc =>
      not_isDecoration_of_isBlank (hb c (List.mem_of_head? hc))
  have hdrop : (trim line ++ b).dropWhile (isDecoration style) =
      (trim line).dropWhile (isDecoration style) ++ b := by
    rw [List.dropWhile_append, hkeep]
    split
    · next hnil => rw [List.isEmpty_iff.mp hnil, List.nil_append]
    · rfl
  rw [undecorate, hline, hdrop, trim_append_blank _ hb]

lemma undecorate_append (hd : Decorates marks d) (hmarks : ∀ c ∈ marks, isDecoration style c = true)
    (hhead : ∀ c ∈ (trim t).head?, isDecoration style c = false) :
    undecorate style (d ++ t) = trim t := by
  obtain ⟨b, m, b', hblank, hm, rfl⟩ := hd
  have hb : Blank b := fun c hc => (hblank c (List.mem_append_left _ hc)).1
  have hb' : Blank b' := fun c hc => (hblank c (List.mem_append_right _ hc)).1
  have hnot : ∀ c, isBlank c = true → isDecoration style c = false :=
    fun c hc => not_isDecoration_of_isBlank hc
  have hm : ∀ c ∈ m, isDecoration style c = true := fun c hc => hmarks c (hm c hc)
  rw [undecorate_eq, List.append_assoc, List.append_assoc, List.dropWhile_append_of_pos hb]
  -- Without marks the blanks that should stand behind them go with those in front.
  cases m with
  | nil =>
    have hrest : trim (t.dropWhile isBlank) = trim t := trim_dropWhile_blank t
    have hstart := head?_of_trim hnot (hrest ▸ hhead) blank_nil
    have hkeep : (t.dropWhile isBlank).dropWhile (isDecoration style) = t.dropWhile isBlank :=
      dropWhile_append_of_head (w := []) (by simp) hstart
    rw [List.nil_append, List.dropWhile_append_of_pos hb', hkeep, hrest]
  | cons x m =>
    have hx : isBlank x = false := isBlank_of_isDecoration (hm x List.mem_cons_self)
    have hstart := head?_of_trim hnot hhead hb'
    rw [List.cons_append, List.dropWhile_cons_of_neg (by simp [hx]), ← List.cons_append,
      dropWhile_append_of_head hm hstart, trim_blank_append hb']

lemma words_block (text : Bytes) :
    words .block text =
      [space].intercalate (((text.pieces newline).map (undecorate .block)).filter (· ≠ [])) := rfl

lemma words_line (h : text.pieces newline = t :: lines) :
    words .line text =
      [space].intercalate ((undecorate .line t :: lines.map trim).filter (· ≠ [])) := by
  unfold words
  rw [h]
  rfl

lemma words_of_notMem (h : newline ∉ text) : words .line text = undecorate .line text := by
  have hpieces : pieces newline ([newline].intercalate [text]) = [text] :=
    pieces_intercalate (by simpa using h) (List.cons_ne_nil _ _)
  rw [List.intercalate_singleton] at hpieces
  rw [words_line hpieces]
  by_cases hnil : undecorate .line text = []
  · simp [hnil]
  · simp [hnil]

lemma Carries.newline_notMem (h : Carries lines texts) (htexts : ∀ t ∈ texts, newline ∉ t) :
    ∀ l ∈ lines, newline ∉ l := by
  induction h with
  | nil => simp
  | filler hd _ ih => exact List.forall_mem_cons.mpr ⟨hd.newline_notMem (by decide), ih htexts⟩
  | text hd _ ih =>
    obtain ⟨ht, htexts⟩ := List.forall_mem_cons.mp htexts
    refine List.forall_mem_cons.mpr ⟨fun hmem => ?_, ih htexts⟩
    exact (List.mem_append.mp hmem).elim (hd.newline_notMem (by decide)) ht

lemma Carries.undecorated (h : Carries lines texts) (htexts : ∀ t ∈ texts, Says t) :
    (lines.map (undecorate .block)).filter (· ≠ []) = texts.map trim := by
  induction h with
  | nil => rfl
  | @filler d lines texts hd _ ih =>
    have hnil : undecorate .block d = [] := by
      simpa [trim_blank blank_nil] using
        undecorate_append (t := []) hd (by decide +kernel) (by simp [trim])
    rw [List.map_cons, hnil, List.filter_cons_of_neg (by simp), ih htexts]
  | @text d t lines texts hd _ ih =>
    obtain ⟨ht, htexts⟩ := List.forall_mem_cons.mp htexts
    have hhead : ∀ c ∈ (trim t).head?, isDecoration .block c = false := fun c hc => by
      simpa [isDecoration] using ht.head c hc
    rw [List.map_cons, undecorate_append hd (by decide +kernel) hhead,
      List.filter_cons_of_pos (by simpa using ht.nonempty), ih htexts, List.map_cons]

/-- Texts on one line, joined by single spaces, mean the same as on the lines of a block comment, in
whatever decoration. -/
theorem ofText_decorated (first : Bytes) (more : List Bytes) (d : Bytes) (lines : List Bytes)
    (htexts : ∀ t ∈ first :: more, Says t) (hfirst : (trim first).head? = some (byte '@'))
    (hd : Decorates (ascii "/!") d) (hlines : Carries lines (first :: more)) :
    let text := [space].intercalate ((first :: more).map trim)
    words .line (d ++ text) = text ∧ words .block ([newline].intercalate lines) = text ∧
      ofText .line (d ++ text) = ofText .block ([newline].intercalate lines) := by
  intro text
  have hne : trim first ≠ [] := (htexts first List.mem_cons_self).nonempty
  have hline : words .line (d ++ text) = text := by
    have hmap : ∀ w ∈ (first :: more).map trim, Trimmed w ∧ w ≠ [] ∧ newline ∉ w := by
      intro w hw
      obtain ⟨t, ht, rfl⟩ := List.mem_map.mp hw
      exact ⟨trimmed_trim t, (htexts t ht).nonempty,
        fun hmem => (htexts t ht).line ((infix_trim t).subset hmem)⟩
    have htrim : trim text = text :=
      trim_of_trimmed (trimmed_intercalate fun w hw => ⟨(hmap w hw).1, (hmap w hw).2.1⟩)
    have hnewline : newline ∉ d ++ text := by
      intro hmem
      rcases List.mem_append.mp hmem with hmem | hmem
      · exact hd.newline_notMem (by decide) hmem
      rcases mem_intercalate hmem with heq | ⟨w, hw, hc⟩
      · exact absurd heq (by decide)
      · exact (hmap w hw).2.2 hc
    have hhead : ∀ c ∈ (trim text).head?, isDecoration .line c = false := by
      have hstart : text.head? = some (byte '@') := (head?_intercalate hne _).trans hfirst
      intro c hc
      rw [htrim, hstart] at hc
      obtain rfl := Option.some.inj hc
      decide
    rw [words_of_notMem hnewline, undecorate_append hd (by decide +kernel) hhead, htrim]
  have hblock : words .block ([newline].intercalate lines) = text := by
    have hne : lines ≠ [] := by
      rintro rfl
      cases hlines
    rw [words_block, pieces_intercalate (hlines.newline_notMem fun t ht => (htexts t ht).line) hne,
      hlines.undecorated htexts]
  refine ⟨hline, hblock, ?_⟩
  rw [ofText, ofText, hline, hblock]

def starredBody : Bytes := ascii "*\n * @collab:begin trust=READ_ONLY \n *\n *! owner=a\n "

theorem ofText_decorated_starredBody :
    let first := ascii "@collab:begin trust=READ_ONLY "
    let lines := ["*", " * @collab:begin trust=READ_ONLY ", " *", " *! owner=a", " "].map ascii
    (∀ t ∈ [first, ascii "owner=a"], Says t) ∧ (trim first).head? = some (byte '@') ∧
      Decorates (ascii "/!") (ascii "/! ") ∧ Carries lines [first, ascii "owner=a"] ∧
      ofText .line (ascii "/! @collab:begin trust=READ_ONLY owner=a") = ofText .block starredBody := by
  intro first lines
  have hfirst : Says first := ⟨by decide, by decide, by decide +kernel⟩
  have howner : Says (ascii "owner=a") := ⟨by decide, by decide, by decide +kernel⟩
  have htexts : ∀ t ∈ [first, ascii "owner=a"], Says t := by
    simpa using ⟨hfirst, howner⟩
  have hhead : (trim first).head? = some (byte '@') := by decide
  have hspace : isBlank space = true ∧ space ≠ newline := by decide
  have hd : Decorates (ascii "/!") (ascii "/! ") :=
    ⟨[], ascii "/!", [space], by simpa using hspace, fun _ => id, rfl⟩
  have hlines : Carries lines [first, ascii "owner=a"] := by
    refine .filler ⟨[], ascii "*", [], by simp, fun _ => id, rfl⟩ ?_
    refine .text (d := ascii " * ") ⟨[space], ascii "*", [space], by simpa using hspace,
      by decide +kernel, rfl⟩ ?_
    refine .filler ⟨[space], ascii "*", [], by simpa using hspace, fun _ => id, rfl⟩ ?_
    refine .text (d := ascii " *! ") ⟨[space], ascii "*!", [space], by simpa using hspace,
      fun _ => id, rfl⟩ ?_
    exact .filler ⟨[space], [], [], by simpa using hspace, by simp, rfl⟩ .nil
  exact ⟨htexts, hhead, hd, hlines, (ofText_decorated first _ _ lines htexts hhead hd hlines).2.2⟩

end Marker

end TrustRegions
