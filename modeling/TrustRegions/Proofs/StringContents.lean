import TrustRegions.Proofs.Anchors
import TrustRegions.Proofs.LayeredRows
import TrustRegions.Proofs.MaskedLayers
import TrustRegions.Proofs.Retexting

/-! What stands in a string has no part in the scope of a declaration. A line that starts outside of all
strings shows what it is before the first quote on it, and the lines that start within one are all alike. -/

namespace TrustRegions

def TextAlike (t t' : Bytes) : Prop :=
  t' = t ∨ ∃ a q u u', isQuote q = true ∧ t = a ++ q :: u ∧ t' = a ++ q :: u'

namespace TextAlike

variable {t t' w : Bytes} {c : UInt8}

lemma cons (h : TextAlike t t') (c : UInt8) : TextAlike (c :: t) (c :: t') := by
  rcases h with rfl | ⟨a, q, u, u', hq, rfl, rfl⟩
  · exact Or.inl rfl
  · exact Or.inr ⟨c :: a, q, u, u', hq, rfl, rfl⟩

lemma chomp (h : TextAlike t t') : TextAlike (Source.chomp t) (Source.chomp t') := by
  rcases h with rfl | ⟨a, q, u, u', hq, rfl, rfl⟩
  · exact Or.inl rfl
  · have hne := (Source.ne_of_not_blank (isBlank_of_isQuote hq)).2
    exact Or.inr ⟨a, q, _, _, hq, Source.chomp_append hne a u, Source.chomp_append hne a u'⟩

lemma takeWhile_append_stop {p : UInt8 → Bool} {q : UInt8} (hq : p q = false) (a u : Bytes) :
    (a ++ q :: u).takeWhile p = a.takeWhile p := by
  induction a with
  | nil => simp [hq]
  | cons c a ih => rw [List.cons_append, List.takeWhile_cons, List.takeWhile_cons, ih]

lemma takeWhile_isIndent (h : TextAlike t t') : t'.takeWhile isIndent = t.takeWhile isIndent := by
  rcases h with rfl | ⟨a, q, u, u', hq, rfl, rfl⟩
  · rfl
  · have hindent := not_indent_of_isQuote hq
    rw [takeWhile_append_stop hindent, takeWhile_append_stop hindent]

lemma indentWidth (h : TextAlike t t') : TrustRegions.indentWidth t' = TrustRegions.indentWidth t := by
  rw [TrustRegions.indentWidth, TrustRegions.indentWidth, h.takeWhile_isIndent]

lemma isBlankLine (h : TextAlike t t') : TrustRegions.isBlankLine t' = TrustRegions.isBlankLine t := by
  rcases h with rfl | ⟨a, q, u, u', hq, rfl, rfl⟩
  · rfl
  · have hblank := isBlank_of_isQuote hq
    simp only [isBlank, Bool.or_eq_false_iff] at hblank
    have hnot : (isIndent q || q == formFeed || q == verticalTab) = false := by
      simp [not_indent_of_isQuote hq, hblank]
    simp only [TrustRegions.isBlankLine, List.all_append, List.all_cons, hnot, Bool.false_and,
      Bool.and_false]

lemma leadLength_le_of_quote {q : UInt8} (hq : isQuote q = true) (a u : Bytes) :
    leadLength (a ++ q :: u) ≤ a.length := by
  rw [leadLength, takeWhile_append_stop (not_indent_of_isQuote hq)]
  exact (List.takeWhile_prefix _).length_le

lemma code (h : TextAlike t t') :
    TextAlike (t.drop (leadLength t)) (t'.drop (leadLength t')) := by
  have hlead : leadLength t' = leadLength t := by rw [leadLength, leadLength, h.takeWhile_isIndent]
  rw [hlead]
  rcases h with rfl | ⟨a, q, u, u', hq, rfl, rfl⟩
  · exact Or.inl rfl
  · have hle := leadLength_le_of_quote hq a u
    refine Or.inr ⟨a.drop (leadLength (a ++ q :: u)), q, u, u', hq, ?_, ?_⟩
    · rw [List.drop_append_of_le_length hle]
    · rw [List.drop_append_of_le_length hle]

lemma head?_eq (h : TextAlike t t') : t'.head? = t.head? := by
  rcases h with rfl | ⟨a, q, u, u', -, rfl, rfl⟩
  · rfl
  · cases a <;> rfl

lemma isDecorated (h : TextAlike t t') : TrustRegions.isDecorated t' = TrustRegions.isDecorated t := by
  rw [TrustRegions.isDecorated, TrustRegions.isDecorated, h.code.head?_eq]

lemma notMem_of_quote (hw : ∀ c ∈ w, isQuote c = false) {q : UInt8} (hq : isQuote q = true) : q ∉ w := by
  intro hmem
  rw [hw q hmem] at hq
  cases hq

lemma isPrefixOf (h : TextAlike t t') (hw : ∀ c ∈ w, isQuote c = false) :
    w.isPrefixOf t' = w.isPrefixOf t := by
  rcases h with rfl | ⟨a, q, u, u', hq, rfl, rfl⟩
  · rfl
  · exact Bytes.isPrefixOf_append_cons (notMem_of_quote hw hq) a u' u

lemma startsWithWord (h : TextAlike t t') (hw : ∀ c ∈ w, isQuote c = false) :
    Bytes.startsWithWord w t' = Bytes.startsWithWord w t := by
  rcases h with rfl | ⟨a, q, u, u', hq, rfl, rfl⟩
  · rfl
  · exact Bytes.startsWithWord_append_cons (notMem_of_quote hw hq) a u' u

end TextAlike

def EndsInString : List (UInt8 × Layer) → Prop
  | [] => False
  | b :: l => if b.1 = newline then b.2 = .string else EndsInString l

def NoContinuation (rows : List Row) : Prop := ∀ r ∈ rows.head?, r.start ≠ .continuation

lemma not_endsInString {l : List (UInt8 × Layer)} {line d : Nat}
    (h : NoContinuation (rowsBelow line d l)) : ¬EndsInString l := by
  induction l generalizing d with
  | nil => exact id
  | cons b l ih =>
    obtain ⟨c, layer⟩ := b
    by_cases hc : c = newline
    · subst hc
      rw [rowsBelow_newline] at h
      rw [EndsInString, if_pos rfl]
      rintro rfl
      exact h _ rfl rfl
    · rw [rowsBelow_cons hc] at h
      rw [EndsInString, if_neg hc]
      exact ih h

namespace Masked

variable {lang : Language} {inside : Bool} {l l' : List (UInt8 × Layer)}

lemma textAlike (h : Masked lang false l l') : TextAlike (lineText l) (lineText l') := by
  induction l generalizing l' with
  | nil =>
    cases h
    exact Or.inl rfl
  | cons b l ih =>
    cases h with
    | shown _ h =>
      obtain ⟨c, layer⟩ := b
      by_cases hc : c = newline
      · subst hc
        rw [lineText_newline, lineText_newline]
        exact Or.inl rfl
      · rw [lineText_cons hc, lineText_cons hc]
        exact (ih h).cons c
    | @opens q _ _ hq h =>
      have hne := ne_newline_of_isQuote hq
      exact Or.inr ⟨[], q, _, _, hq, lineText_cons hne _, lineText_cons hne _⟩

lemma length_lineText (h : Masked lang inside l l') : (lineText l').length = (lineText l).length := by
  induction h with
  | nil => rfl
  | @shown _ b _ _ _ _ ih =>
    obtain ⟨c, layer⟩ := b
    by_cases hc : c = newline
    · subst hc
      rw [lineText_newline, lineText_newline]
    · rw [lineText_cons hc, lineText_cons hc, List.length_cons, List.length_cons, ih]
  | opens hq _ ih =>
    have hc := ne_newline_of_isQuote hq
    rw [lineText_cons hc, lineText_cons hc, List.length_cons, List.length_cons, ih]
  | @within c c' _ _ hnewline _ _ ih =>
    by_cases hc : c = newline
    · obtain rfl := hc
      obtain rfl := hnewline.mpr rfl
      rw [lineText_newline, lineText_newline]
    · rw [lineText_cons (mt hnewline.mp hc), lineText_cons hc, List.length_cons, List.length_cons, ih]

lemma getLast?_lineText (h : Masked lang inside l l') (hend : ¬EndsInString l ∨ lang.SingleLine) :
    (lineText l').getLast? = (lineText l).getLast? := by
  have hrest {b : UInt8 × Layer} {l : List (UInt8 × Layer)} (hb : b.1 ≠ newline)
      (hend : ¬EndsInString (b :: l) ∨ lang.SingleLine) : ¬EndsInString l ∨ lang.SingleLine := by
    rwa [EndsInString, if_neg hb] at hend
  induction h with
  | nil => rfl
  | @shown _ b _ _ _ _ ih =>
    obtain ⟨c, layer⟩ := b
    by_cases hc : c = newline
    · subst hc
      rw [lineText_newline, lineText_newline]
    · rw [lineText_cons hc, lineText_cons hc, List.getLast?_cons, List.getLast?_cons, ih (hrest hc hend)]
  | opens hq _ ih =>
    have hc := ne_newline_of_isQuote hq
    rw [lineText_cons hc, lineText_cons hc, List.getLast?_cons, List.getLast?_cons, ih (hrest hc hend)]
  | @within c c' l _ hnewline hsame _ ih =>
    by_cases hc : c = newline
    · obtain rfl := hc
      obtain rfl := hnewline.mpr rfl
      rw [lineText_newline, lineText_newline]
    rw [lineText_cons (mt hnewline.mp hc), lineText_cons hc, List.getLast?_cons, List.getLast?_cons,
      ih (hrest hc hend)]
    rcases hsame with rfl | ⟨x, hx, hsingle⟩
    · rfl
    -- A byte that is not the same has one of the string behind it on the line.
    obtain ⟨l, rfl⟩ := List.head?_eq_some_iff.mp hx
    have hx : x ≠ newline := by
      rcases hend with hend | hl
      · rw [EndsInString, if_neg hc, EndsInString] at hend
        exact fun heq => hend (by rw [if_pos heq])
      · exact hsingle hl
    rw [lineText_cons hx, List.getLast?_cons, Option.getD_some, Option.getD_some]

lemma length_chomp_lineText (h : Masked lang inside l l') (hend : ¬EndsInString l ∨ lang.SingleLine) :
    (Source.chomp (lineText l')).length = (Source.chomp (lineText l)).length := by
  rw [Source.chomp, Source.chomp, h.getLast?_lineText hend]
  split
  · rw [List.length_dropLast, List.length_dropLast, h.length_lineText]
  · exact h.length_lineText

end Masked

structure Row.Alike (r r' : Row) : Prop where
  number : r'.number = r.number
  start : r'.start = r.start
  text : r.start = .plain → TextAlike r.text r'.text

inductive RowsAlike (lang : Language) : List Row → List Row → Prop
  | nil : RowsAlike lang [] []
  | cons {r r' : Row} {rows rows' : List Row} : r.Alike r' →
      (NoContinuation rows ∨ lang.SingleLine → r'.text.length = r.text.length) →
      RowsAlike lang rows rows' → RowsAlike lang (r :: rows) (r' :: rows')

lemma depthAfter_string (d : Nat) (c : UInt8) : depthAfter d [(c, .string)] = d := rfl

lemma Masked.rowsAlike {lang : Language} {inside : Bool} {l l' : List (UInt8 × Layer)}
    (h : Masked lang inside l l') (line d : Nat) :
    RowsAlike lang (rowsBelow line d l) (rowsBelow line d l') := by
  induction h generalizing line d with
  | nil => exact .nil
  | @shown _ b l _ hb h ih =>
    obtain ⟨c, layer⟩ := b
    by_cases hc : c = newline
    · subst hc
      rw [rowsBelow_newline, rowsBelow_newline]
      exact .cons ⟨rfl, rfl, fun _ => h.textAlike.chomp⟩
        (fun hend => h.length_chomp_lineText (hend.imp_left not_endsInString)) (ih _ _)
    · rw [rowsBelow_cons hc, rowsBelow_cons hc]
      exact ih _ _
  | opens hq _ ih =>
    have hc := ne_newline_of_isQuote hq
    rw [rowsBelow_cons hc, rowsBelow_cons hc]
    exact ih _ _
  | @within c c' l _ hnewline _ h ih =>
    by_cases hc : c = newline
    · obtain rfl := hc
      obtain rfl := hnewline.mpr rfl
      rw [rowsBelow_newline, rowsBelow_newline]
      exact .cons ⟨rfl, rfl, fun hplain => absurd hplain LineStart.noConfusion⟩
        (fun hend => h.length_chomp_lineText (hend.imp_left not_endsInString)) (ih _ _)
    · rw [rowsBelow_cons hc, rowsBelow_cons (mt hnewline.mp hc), depthAfter_string, depthAfter_string]
      exact ih _ _

section Blocks

variable {lang : Language} {base last line : Nat} {hasBody : Bool} {rows rows' below below' : List Row}
  {r r' : Row}

lemma Row.Alike.opensStatement (hq : lang.Quoted) (h : r.Alike r') :
    r'.opensStatement lang = r.opensStatement lang := by
  rw [Row.opensStatement, Row.opensStatement, h.start]
  by_cases hplain : r.start = .plain
  · have htext := h.text hplain
    have hcomments : lang.lineComments.any (·.isPrefixOf r'.code) =
        lang.lineComments.any (·.isPrefixOf r.code) := by
      rw [Bool.eq_iff_iff, List.any_eq_true, List.any_eq_true]
      refine exists_congr fun w => and_congr_right fun hw => ?_
      rw [Row.code, Row.code, htext.code.isPrefixOf (hq.words w (List.mem_append_right _ hw))]
    rw [htext.isBlankLine, hcomments]
  · rw [beq_eq_false_iff_ne.mpr hplain, Bool.false_and, Bool.false_and, Bool.false_and, Bool.false_and]

lemma Row.Alike.textAlike (h : r.Alike r') (hs : r.opensStatement lang = true) :
    TextAlike r.text r'.text := by
  simp only [Row.opensStatement, Bool.and_eq_true, beq_iff_eq] at hs
  exact h.text hs.1.1

lemma offsideBlock_congr (hq : lang.Quoted) (h : RowsAlike lang rows rows') :
    offsideBlock lang base last hasBody rows' = offsideBlock lang base last hasBody rows := by
  induction h generalizing last hasBody with
  | nil => rfl
  | @cons r r' rows rows' hr _ _ ih =>
    rw [offsideBlock, offsideBlock, hr.start, hr.opensStatement hq, hr.number]
    cases hs : r.opensStatement lang with
    | false => simp only [ih, Bool.not_false, if_true]
    | true =>
      have htext := hr.textAlike hs
      have hclause : lang.clauseKeywords.any (Bytes.startsWithWord · r'.code) =
          lang.clauseKeywords.any (Bytes.startsWithWord · r.code) := by
        rw [Bool.eq_iff_iff, List.any_eq_true, List.any_eq_true]
        refine exists_congr fun w => and_congr_right fun hw => ?_
        rw [Row.code, Row.code, htext.code.startsWithWord
          (hq.words w (List.mem_append_left _ (List.mem_cons_of_mem _ hw)))]
      have hcloses : Bytes.startsWithWord lang.blockTerminator r'.code =
          Bytes.startsWithWord lang.blockTerminator r.code :=
        htext.code.startsWithWord (hq.words _ List.mem_cons_self)
      simp only [ih, htext.indentWidth, hclause, hcloses]

lemma headerEnd_congr (hq : lang.Quoted) (hbelow : RowsAlike lang below below')
    (h : RowsAlike lang rows rows') :
    (headerEnd lang base line below' rows').1 = (headerEnd lang base line below rows).1 ∧
      RowsAlike lang (headerEnd lang base line below rows).2 (headerEnd lang base line below' rows').2 := by
  induction h generalizing line below below' with
  | nil => exact ⟨rfl, hbelow⟩
  | @cons r r' rows rows' hr _ hrows ih =>
    rw [headerEnd, headerEnd, hr.opensStatement hq, hr.number]
    cases hs : r.opensStatement lang with
    | false => exact ih hbelow
    | true =>
      have htext := hr.textAlike hs
      rw [htext.indentWidth, htext.isDecorated]
      split
      · exact ih hbelow
      split
      · exact ⟨rfl, hbelow⟩
      split
      · exact ih hrows
      · exact ⟨rfl, hrows⟩

lemma offsideFrom_congr (hq : lang.Quoted) (h : RowsAlike lang rows rows') (base line : Nat)
    (decorated : Bool) :
    offsideFrom lang base line decorated rows' = offsideFrom lang base line decorated rows := by
  rw [offsideFrom, offsideFrom]
  cases decorated with
  | false => exact offsideBlock_congr hq h
  | true =>
    obtain ⟨hline, hbelow⟩ : _ ∧ RowsAlike lang (headerEnd lang base line rows rows).2
        (headerEnd lang base line rows' rows').2 := headerEnd_congr hq h h
    simp only [if_true, hline]
    exact offsideBlock_congr hq hbelow

def Settled (lang : Language) (P : Nat → Prop) (rows : List Row) : Prop :=
  ∀ r t, r :: t <:+ rows → NoContinuation t ∨ lang.SingleLine → P r.number

variable {P : Nat → Prop}

lemma Settled.tail (h : Settled lang P (r :: rows)) : Settled lang P rows :=
  fun x t hsuffix => h x t (hsuffix.trans (List.suffix_cons r rows))

lemma Settled.head (h : Settled lang P (r :: rows)) (hend : NoContinuation rows ∨ lang.SingleLine) :
    P r.number := h r rows List.suffix_rfl hend

lemma lastLine_of_settled (hq : lang.Quoted) (hlast : NoContinuation rows ∨ lang.SingleLine → P last)
    (h : Settled lang P rows) : P (offsideBlock lang base last hasBody rows).lastLine := by
  induction rows generalizing last hasBody with
  | nil => exact hlast (Or.inl (by simp [NoContinuation]))
  | cons r rows ih =>
    have hkeep (hc : r.start ≠ .continuation) : P last :=
      hlast (Or.inl fun x hx => Option.some.inj hx ▸ hc)
    rw [offsideBlock]
    split
    · exact ih h.head h.tail
    next hc =>
    split
    · exact ih (fun _ => hkeep hc) h.tail
    split
    · exact ih h.head h.tail
    dsimp only
    split
    · exact ih h.head h.tail
    split
    · next hcloses =>
      refine h.head (Or.inr (hq.singleLine ?_))
      rintro hnil
      simp [Bytes.startsWithWord, hnil] at hcloses
    · exact hkeep hc

lemma headerEnd_of_settled (hlast : NoContinuation below ∨ lang.SingleLine → P line)
    (hbelow : Settled lang P below) (h : Settled lang P rows) :
    (NoContinuation (headerEnd lang base line below rows).2 ∨ lang.SingleLine →
        P (headerEnd lang base line below rows).1) ∧
      Settled lang P (headerEnd lang base line below rows).2 := by
  induction rows generalizing line below with
  | nil => exact ⟨hlast, hbelow⟩
  | cons r rows ih =>
    rw [headerEnd]
    split
    · exact ih hlast hbelow h.tail
    split
    · exact ⟨hlast, hbelow⟩
    split
    · exact ih h.head h.tail h.tail
    · exact ⟨h.head, h.tail⟩

lemma offsideFrom_of_settled (hq : lang.Quoted) (hlast : NoContinuation rows ∨ lang.SingleLine → P line)
    (h : Settled lang P rows) (base : Nat) (decorated : Bool) :
    P (offsideFrom lang base line decorated rows).lastLine := by
  rw [offsideFrom]
  cases decorated with
  | false => exact lastLine_of_settled hq hlast h
  | true =>
    obtain ⟨hlast, hbelow⟩ : _ ∧ Settled lang P (headerEnd lang base line rows rows).2 :=
      headerEnd_of_settled hlast h h
    exact lastLine_of_settled hq hlast hbelow

end Blocks

lemma Masked.depthAfter_eq {lang : Language} {inside : Bool} {l l' : List (UInt8 × Layer)}
    (h : Masked lang inside l l') (d : Nat) : depthAfter d l' = depthAfter d l := by
  induction h generalizing d with
  | nil => rfl
  | @shown _ b l l' _ _ ih =>
    rw [← List.singleton_append, depthAfter_append, ih, ← depthAfter_append, List.singleton_append]
  | opens _ _ ih | within _ _ _ ih => exact ih d

lemma endsInString_append {q : List (UInt8 × Layer)} (hq : ∀ b ∈ q, b.1 ≠ newline)
    (l : List (UInt8 × Layer)) : EndsInString (q ++ l) ↔ EndsInString l := by
  induction q with
  | nil => rfl
  | cons b q ih =>
    obtain ⟨hb, hq⟩ := List.forall_mem_cons.mp hq
    rw [List.cons_append, EndsInString, if_neg hb, ih hq]

open BraceWalk in
lemma exists_line_of_fresh {l : List (UInt8 × Layer)} (h : l.foldl freshAfter true = true) :
    ∃ p q, l = p ++ q ∧ (∀ b ∈ p.getLast?, b.1 = newline ∧ b.2 ≠ .string) ∧
      ∀ b ∈ q, b.1 ≠ newline := by
  induction l using List.reverseRecOn with
  | nil => exact ⟨[], [], rfl, by simp, by simp⟩
  | append_singleton l x ih =>
    rw [List.foldl_append, List.foldl_cons, List.foldl_nil, freshAfter, Bool.or_eq_true,
      Bool.and_eq_true, beq_iff_eq] at h
    have hshown : x.2 ≠ .string := by
      rcases h with rfl | ⟨-, hlead⟩
      · decide
      · rintro hs
        simp [isLeading, hs] at hlead
    by_cases hx : x.1 = newline
    · exact ⟨l ++ [x], [], by simp, by simp [hx, hshown], by simp⟩
    · obtain ⟨hfresh, -⟩ := h.resolve_left fun heq => hx (congrArg Prod.fst heq)
      obtain ⟨p, q, rfl, hp, hq⟩ := ih hfresh
      refine ⟨p, q ++ [x], by simp, hp, fun b hb => ?_⟩
      rcases List.mem_append.mp hb with hb | hb
      · exact hq b hb
      · exact List.mem_singleton.mp hb ▸ hx

namespace Source

variable {s s' : Source} {lang : Language} {o line : Nat} {p q l l' before : List (UInt8 × Layer)}
  {rows rows' : List Row}

lemma line_eq_lineText (s : Source) (hbytes : (p ++ l).map (·.1) = s.content)
    (hlast : ∀ b ∈ p.getLast?, b.1 = newline) :
    s.line (s.positionAt p.length).line = chomp (lineText l) := by
  have hdrop : s.content.drop p.length = l.map (·.1) := by
    rw [← hbytes, List.map_append, List.drop_left' (List.length_map _)]
  have hhead : s.lineHead p.length = [] := by
    rcases List.eq_nil_or_concat' p with rfl | ⟨p, b, rfl⟩
    · rfl
    · rw [List.length_append]
      refine lineHead_of_newline ?_
      rw [← hbytes, List.getElem?_map, List.append_assoc, List.getElem?_append_right le_rfl,
        Nat.sub_self, ← hlast b (by simp)]
      rfl
  rw [line_positionAt, hhead, List.nil_append, lineTail, hdrop, lineText]

lemma settled_rows (h : RowsAlike lang rows rows') (hs : ∀ r ∈ rows, r.text = s.line r.number)
    (hs' : ∀ r ∈ rows', r.text = s'.line r.number) :
    Settled lang (fun n => (s'.line n).length = (s.line n).length) rows := by
  induction h with
  | nil => intro r t hsuffix; simp at hsuffix
  | @cons r r' rows rows' hr hlength _ ih =>
    obtain ⟨hrs, hs⟩ := List.forall_mem_cons.mp hs
    obtain ⟨hrs', hs'⟩ := List.forall_mem_cons.mp hs'
    intro x t hsuffix hend
    rcases List.suffix_cons_iff.mp hsuffix with heq | hsuffix
    · obtain ⟨rfl, rfl⟩ := List.cons.inj heq
      rw [← hrs, ← hr.number, ← hrs']
      exact hlength hend
    · exact ih hs hs' x t hsuffix hend

section Declarations

variable (hq : lang.Quoted) (h : SameButStrings lang s.content s'.content)

include hq h

lemma masked_whole (inside : Bool) :
    Masked lang inside (lang.layers s.content 0) (lang.layers s'.content 0) :=
  h.masked_layers hq (List.Subset.refl _) (List.Subset.refl _) h.extents inside

open BraceWalk in
lemma line_alike (hlayers : lang.layers s.content 0 = before ++ l)
    (hfresh : before.foldl freshAfter true = true) (hline : line = (s.positionAt before.length).line) :
    TextAlike (s.line line) (s'.line line) ∧
      (¬EndsInString l ∨ lang.SingleLine → (s'.line line).length = (s.line line).length) := by
  obtain ⟨p, q, rfl, hp, hq'⟩ := exists_line_of_fresh hfresh
  have hmasked := masked_whole hq h false
  rw [hlayers, List.append_assoc] at hmasked
  obtain ⟨p', m, hm, hlength, hlast, hmasked⟩ := hmasked.of_append fun b hb => (hp b hb).2
  have hbytes := Language.map_fst_layers lang s.content 0
  rw [List.drop_zero, hlayers, List.append_assoc] at hbytes
  have hbytes' := Language.map_fst_layers lang s'.content 0
  rw [List.drop_zero, hm] at hbytes'
  have hbreaks : breaks q = 0 := by
    refine List.count_eq_zero.mpr fun hmem => ?_
    obtain ⟨b, hb, heq⟩ := List.mem_map.mp hmem
    exact hq' b hb heq
  have hp' : ∀ b ∈ p'.getLast?, b.1 = newline := fun b hb => (hp b (hlast ▸ hb)).1
  rw [(s.line_positionAt_append hlayers).1, hbreaks, Nat.add_zero] at hline
  have htext := s.line_eq_lineText hbytes fun b hb => (hp b hb).1
  have htext' := s'.line_eq_lineText hbytes' hp'
  rw [hlength, positionAt_eq_of_newlines h.newlines, ← hline] at htext'
  rw [← hline] at htext
  rw [htext, htext']
  refine ⟨hmasked.textAlike.chomp, fun hend => hmasked.length_chomp_lineText ?_⟩
  rwa [endsInString_append hq']

omit hq in
lemma rowsAlike_rowsAfter (hl : Masked lang false l l') (hbytes : l.map (·.1) = s.content.drop o)
    (hbytes' : l'.map (·.1) = s'.content.drop o) (hline : line = (s.positionAt o).line) :
    RowsAlike lang (s.rowsAfter line l) (s'.rowsAfter line l') := by
  have hrows := rowsAfter_eq hbytes
  have hrows' := rowsAfter_eq hbytes'
  rw [positionAt_eq_of_newlines h.newlines, ← hline] at hrows'
  rw [← hline] at hrows
  rw [hrows, hrows']
  exact hl.rowsAlike line 0

open BraceWalk in
lemma offsideEnd_alike (hlayers : lang.layers s.content 0 = before ++ l)
    (hfresh : before.foldl freshAfter true = true) (hline : line = (s.positionAt before.length).line)
    (hl : Masked lang false l l') (hbytes' : l'.map (·.1) = s'.content.drop before.length) :
    s'.offsideEnd lang line l' = s.offsideEnd lang line l ∧
      ∀ stop, s.offsideEnd lang line l = .ok stop → s'.endOfLine stop = s.endOfLine stop := by
  obtain ⟨htext, hlength⟩ := line_alike hq h hlayers hfresh hline
  have hbytes : l.map (·.1) = s.content.drop before.length := by
    have hwhole := Language.map_fst_layers lang s.content 0
    rw [List.drop_zero, hlayers, List.map_append] at hwhole
    rw [← hwhole, List.drop_left' (List.length_map _)]
  have hrows := rowsAlike_rowsAfter h hl hbytes hbytes' hline
  constructor
  · have hopen : openBrackets l' = openBrackets l := hl.depthAfter_eq 0
    rw [offsideEnd_def, offsideEnd_def, htext.indentWidth, htext.isDecorated,
      offsideFrom_congr hq hrows, hopen]
  · intro stop hstop
    have hsettled := settled_rows hrows (fun r hr => text_of_mem_rowsAfter hr)
      fun r hr => text_of_mem_rowsAfter hr
    have hlast : NoContinuation (s.rowsAfter line l) ∨ lang.SingleLine →
        (s'.line line).length = (s.line line).length := by
      rw [hline, rowsAfter_eq hbytes, ← hline]
      exact fun hend => hlength (hend.imp_left not_endsInString)
    have hend : (s'.line stop).length = (s.line stop).length := by
      rw [offsideEnd_eq hstop]
      exact offsideFrom_of_settled (P := fun n => (s'.line n).length = (s.line n).length) hq hlast
        hsettled _ _
    rw [endOfLine, endOfLine, hend]

open BraceWalk in
lemma declaredAt?_alike (hlayers : lang.layers s.content 0 = before ++ l)
    (hfresh : before.foldl freshAfter true = true) (hl : Masked lang false l l')
    (hbytes' : l'.map (·.1) = s'.content.drop before.length) :
    s'.declaredAt? lang before.length l' = s.declaredAt? lang before.length l := by
  have hposition := positionAt_eq_of_newlines h.newlines
  have hhead := hl.head?_eq
  cases l with
  | nil =>
    cases hl
    rfl
  | cons b rest =>
    obtain ⟨rest', rfl⟩ := List.head?_eq_some_iff.mp hhead
    rw [declaredAt?, declaredAt?, hposition]
    by_cases hstyle : lang.style = .brace
    · rw [if_pos hstyle, if_pos hstyle, hl.bracedEnd_eq]
      simp only [hposition]
    · rw [if_neg hstyle, if_neg hstyle]
      obtain ⟨heq, hend⟩ := offsideEnd_alike hq h hlayers hfresh rfl hl hbytes'
      rw [heq]
      cases hresult : s.offsideEnd lang (s.positionAt before.length).line (b :: rest) with
      | error e => rfl
      | ok stop => exact congrArg (Except.ok ∘ some ∘ Span.mk _) (hend stop hresult)

omit hq in
lemma masked_declaration (hl : lang.Legible) (hq : lang.Quoted) {g : Segment} {c : Comment} {stop : Nat}
    (hg : g ∈ lang.segments s.content 0) (hfills : c.Fills s g stop) :
    Masked lang false ((lang.layers s.content stop).dropWhile isLeading)
      ((lang.layers s'.content stop).dropWhile isLeading) := by
  obtain ⟨n, hn, hblank⟩ := hfills.exists_blanks
  have hle := Language.stop_le_length hg
  obtain ⟨g', hg', hextent⟩ : ∃ g' ∈ lang.segments s'.content 0, g'.extent = g.extent := by
    have hmem := List.mem_map_of_mem (f := Segment.extent) hg
    rw [← h.extents] at hmem
    exact List.mem_map.mp hmem
  have hstop : g'.stop = g.stop := congrArg (·.2.2) hextent
  have hkind : g.kind ≠ .string := by
    intro hk
    have hlayer := hfills.layer
    rw [hk] at hlayer
    cases hlayer
  have hblank' : ∀ b ∈ (s'.content.drop stop).take n, isBlank b = true := by
    rwa [h.taken_eq hg hkind hfills.start_lt.le hn.le]
  rw [dropWhile_layers_of_blanks hl (by omega) hblank, hn,
    dropWhile_layers_of_blanks hl (by rw [h.length_eq]; omega) hblank', hn]
  refine Masked.dropWhile_isLeading ?_
  rw [Language.layers_stop hg, ← hstop, Language.layers_stop hg', hstop, Nat.sub_zero]
  have hmasked := masked_whole hq h false
  rw [← List.take_append_drop g.stop (lang.layers s.content 0)] at hmasked
  have hlt := Language.start_lt_stop hg
  have hcount : (lang.layers s.content 0).length = s.content.length := Language.length_layers _ _ _
  have hlast : ∀ b ∈ ((lang.layers s.content 0).take g.stop).getLast?, b.2 ≠ .string := by
    intro b hb
    obtain ⟨x, hx⟩ : ∃ x, (lang.layers s.content 0)[g.stop - 1]? = some x := by
      rw [List.getElem?_eq_getElem (by omega)]
      exact ⟨_, rfl⟩
    rw [List.getLast?_take, if_neg (by omega), hx] at hb
    obtain rfl : x = b := by simpa using hb
    rw [Language.layer_of_mem hg (by omega) (by omega) hx, hfills.layer]
    exact Layer.noConfusion
  obtain ⟨p', l', hm, hlength, -, hmasked⟩ := hmasked.of_append hlast
  rw [hm, List.drop_left' (by rw [hlength, List.length_take]; omega)]
  exact hmasked

lemma declarationScope?_alike (hl : lang.Legible) {d : Directive} (hd : d ∈ (s.directives lang).1)
    (htrailing : d.trailing = false) :
    s'.declarationScope? lang d.anchor = s.declarationScope? lang d.anchor := by
  obtain ⟨c, g, stop, hg, hfills, hanchor, hc⟩ := exists_last_comment hl hd
  have hstop := hfills.stop_le_length hg
  have hlength := h.length_eq
  have hmasked := masked_declaration h hl hq hg hfills
  have hstart : s'.declarationStart lang stop = s.declarationStart lang stop := by
    rw [declarationStart_eq hstop, declarationStart_eq (hlength ▸ hstop), hlength, hmasked.length_eq]
  rw [hanchor, declarationScope?_eq hstop, ← positionAt_eq_of_newlines h.newlines,
    declarationScope?_eq (hlength ▸ hstop), hstart]
  split
  · rfl
  cases hdrop : (lang.layers s.content stop).dropWhile isLeading with
  | nil =>
    rw [hdrop] at hmasked
    rw [List.eq_nil_of_length_eq_zero hmasked.length_eq]
    rfl
  | cons b rest =>
    obtain ⟨before, hlayers, hfresh, hbefore⟩ := exists_before hl hg hfills (hc ▸ htrailing) hdrop
    have hbytes' := map_fst_dropWhile_layers s' lang stop
    rw [hdrop] at hmasked
    rw [hstart, ← hbefore] at hbytes'
    rw [← hbefore]
    exact declaredAt?_alike hq h hlayers hfresh hmasked hbytes'

end Declarations

end Source

namespace Scan

variable {tag content content' : Bytes}

/-- Bytes within strings never bear on the scope of the declaration that a directive stands above. -/
theorem string_contents_never_scope (path : Bytes)
    (h : SameButStrings (Language.ofTag tag) content content') :
    let lang := Language.ofTag tag
    ∀ d ∈ (scan path tag content).directives, d.trailing = false →
      Source.declarationScope? ⟨content'⟩ lang d.anchor =
        Source.declarationScope? ⟨content⟩ lang d.anchor := by
  intro lang d hd htrailing
  have hsame : SameButStrings lang (Source.mk content).content (Source.mk content').content := h
  exact Source.declarationScope?_alike (Language.quoted_ofTag tag) hsame (Language.legible_ofTag tag) hd
    htrailing

def spokenMethod : Bytes := ascii "# @collab owner=core\ndef f\n  say 'a\\\nb c'\nend\n"

def misspokenMethod : Bytes := ascii "# @collab owner=core\ndef f\n  say '(\\\nend'\nend\n"

theorem string_contents_never_scope_method :
    let ruby := Language.ofTag (ascii "ruby")
    SameButStrings ruby spokenMethod misspokenMethod ∧
    ∃ d ∈ (scan [] (ascii "ruby") spokenMethod).directives, d.trailing = false ∧ d.anchor = ⟨1, 21⟩ ∧
      Source.declarationScope? ⟨misspokenMethod⟩ ruby d.anchor =
        Source.declarationScope? ⟨spokenMethod⟩ ruby d.anchor ∧
      Source.declarationScope? ⟨spokenMethod⟩ ruby d.anchor = .ok (some ⟨⟨2, 1⟩, ⟨5, 4⟩⟩) := by
  intro ruby
  have hsame : SameButStrings ruby spokenMethod misspokenMethod :=
    ⟨by decide +kernel, by decide +kernel, by decide +kernel⟩
  obtain ⟨d, hd, htrailing, hanchor, hscope⟩ :
      ∃ d ∈ (scan [] (ascii "ruby") spokenMethod).directives, d.trailing = false ∧ d.anchor = ⟨1, 21⟩ ∧
        Source.declarationScope? ⟨spokenMethod⟩ ruby d.anchor = .ok (some ⟨⟨2, 1⟩, ⟨5, 4⟩⟩) := by
    decide +kernel
  exact ⟨hsame, d, hd, htrailing, hanchor, string_contents_never_scope [] hsame d hd htrailing, hscope⟩

end Scan

end TrustRegions
