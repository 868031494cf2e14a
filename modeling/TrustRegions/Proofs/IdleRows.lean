import TrustRegions.Proofs.LayeredRows

/-! Rows that a block passes over: they open no statement, and where brackets are open what follows them
goes on with the statement before. A block comes to the same end without them. -/

namespace TrustRegions

variable {lang : Language} {base last line depth d : Nat} {hasBody : Bool} {mid post pre bpre : List Row}
  {r : Row}

structure Idle (lang : Language) (depth total : Nat) (mid post : List Row) : Prop where
  opens : ∀ r ∈ mid, r.opensStatement lang = false
  outside : depth = 0 → ∀ r ∈ mid, r.start ≠ .continuation
  inside : 0 < depth → post = [] ∧ 0 < total ∨ ∃ r t, post = r :: t ∧ r.start = .continuation

lemma offsideBlock_outside (hopens : ∀ r ∈ mid, r.opensStatement lang = false)
    (hstart : ∀ r ∈ mid, r.start ≠ .continuation) :
    offsideBlock lang base last hasBody (mid ++ post) = offsideBlock lang base last hasBody post := by
  induction mid with
  | nil => rfl
  | cons r mid ih =>
    obtain ⟨hr, hopens⟩ := List.forall_mem_cons.mp hopens
    obtain ⟨hc, hstart⟩ := List.forall_mem_cons.mp hstart
    rw [List.cons_append, offsideBlock_skip hc hr, ih hopens hstart]

lemma exists_offsideBlock_idle (hopens : ∀ r ∈ mid, r.opensStatement lang = false) (post : List Row) :
    ∃ last', offsideBlock lang base last hasBody (mid ++ post) =
      offsideBlock lang base last' hasBody post := by
  induction mid generalizing last with
  | nil => exact ⟨last, rfl⟩
  | cons r mid ih =>
    obtain ⟨hr, hopens⟩ := List.forall_mem_cons.mp hopens
    rw [List.cons_append]
    by_cases hc : r.start = .continuation
    · rw [offsideBlock_continuation hc]
      exact ih hopens
    · rw [offsideBlock_skip hc hr]
      exact ih hopens

namespace Idle

variable {total : Nat} (h : Idle lang depth total mid post)

include h

lemma outcome_eq (base last : Nat) (hasBody : Bool) (line : Nat) :
    (offsideBlock lang base last hasBody (mid ++ post)).outcome lang line total =
      (offsideBlock lang base last hasBody post).outcome lang line total := by
  rcases Nat.eq_zero_or_pos depth with hzero | hpos
  · rw [offsideBlock_outside h.opens (h.outside hzero)]
  · obtain ⟨last', hlast⟩ : ∃ last', offsideBlock lang base last hasBody (mid ++ post) =
        offsideBlock lang base last' hasBody post := exists_offsideBlock_idle h.opens post
    rw [hlast]
    rcases h.inside hpos with ⟨rfl, htotal⟩ | ⟨r, t, rfl, hr⟩
    · simp only [offsideBlock, OffsideBlock.outcome, htotal, and_self, if_true]
    · rw [offsideBlock_continuation hr, offsideBlock_continuation hr]

lemma outcome_append (pre : List Row) (base last : Nat) (hasBody : Bool) (line : Nat) :
    (offsideBlock lang base last hasBody (pre ++ (mid ++ post))).outcome lang line total =
      (offsideBlock lang base last hasBody (pre ++ post)).outcome lang line total := by
  induction pre generalizing last hasBody with
  | nil => exact h.outcome_eq base last hasBody line
  | cons r pre ih =>
    rw [List.cons_append, List.cons_append, offsideBlock, offsideBlock]
    split
    · exact ih _ _
    split
    · exact ih _ _
    split
    · exact ih _ _
    dsimp only
    split
    · exact ih _ _
    split <;> rfl

omit h in
lemma headerEnd_idle (hopens : ∀ r ∈ mid, r.opensStatement lang = false) (below : List Row) :
    headerEnd lang base line below (mid ++ post) = headerEnd lang base line below post := by
  induction mid with
  | nil => rfl
  | cons r mid ih =>
    obtain ⟨hr, hopens⟩ := List.forall_mem_cons.mp hopens
    rw [List.cons_append, headerEnd, if_pos (by simp [hr]), ih hopens]

omit h in
lemma headerEnd_cases (lang : Language) (base line : Nat) (rows : List Row) :
    (∀ below, headerEnd lang base line below rows = (line, below)) ∨
      ∃ n t, ∀ below, headerEnd lang base line below rows = (n, t) := by
  induction rows with
  | nil => exact Or.inl fun _ => rfl
  | cons r rows ih =>
    simp only [headerEnd]
    split
    · exact ih
    split
    · exact Or.inl fun _ => rfl
    split
    · exact Or.inr ⟨_, _, fun _ => rfl⟩
    · exact Or.inr ⟨_, _, fun _ => rfl⟩

lemma outcome_headerEnd (pre bpre : List Row) (base number line : Nat) :
    let header := headerEnd lang base number (bpre ++ (mid ++ post)) (pre ++ (mid ++ post))
    let header' := headerEnd lang base number (bpre ++ post) (pre ++ post)
    (offsideBlock lang base header.1 false header.2).outcome lang line total =
      (offsideBlock lang base header'.1 false header'.2).outcome lang line total := by
  dsimp only
  induction pre generalizing number bpre with
  | nil =>
    rw [List.nil_append, List.nil_append, headerEnd_idle h.opens]
    rcases headerEnd_cases lang base number post with hkeep | ⟨n, t, hmoves⟩
    · rw [hkeep, hkeep]
      exact h.outcome_append bpre base number false line
    · rw [hmoves, hmoves]
  | cons r pre ih =>
    rw [List.cons_append, List.cons_append, headerEnd, headerEnd]
    split
    · exact ih bpre number
    split
    · exact h.outcome_append bpre base number false line
    split
    · exact ih pre r.number
    · exact h.outcome_append pre base r.number false line

lemma outcome_offsideFrom (pre : List Row) (base line : Nat) (decorated : Bool) :
    (offsideFrom lang base line decorated (pre ++ (mid ++ post))).outcome lang line total =
      (offsideFrom lang base line decorated (pre ++ post)).outcome lang line total := by
  rw [offsideFrom, offsideFrom]
  cases decorated with
  | false => exact h.outcome_append pre base line false line
  | true => exact h.outcome_headerEnd pre pre base line line

end Idle

lemma lastLine_offsideFrom {P : Nat → Prop} {rows : List Row} (base : Nat) (decorated : Bool)
    (hline : P line) (hrows : ∀ r ∈ rows, P r.number) :
    P (offsideFrom lang base line decorated rows).lastLine := by
  rw [offsideFrom]
  cases decorated with
  | false => exact lastLine_offsideBlock hline hrows
  | true =>
    obtain ⟨hheader, hbelow⟩ := forall_headerEnd lang base hline hrows hrows
    exact lastLine_offsideBlock hheader hbelow

section Stretch

variable {n m total : Nat} {b : UInt8 × Layer} {l U V X Y : List (UInt8 × Layer)}

lemma not_continuation_of_leading (hl : ∀ b ∈ l, isLeading b = true) (hr : r ∈ rowsBelow n 0 l) :
    r.start ≠ .continuation := by
  induction l generalizing n with
  | nil => cases hr
  | cons b l ih =>
    obtain ⟨c, layer⟩ := b
    obtain ⟨hb, hrest⟩ := List.forall_mem_cons.mp hl
    by_cases hc : c = newline
    · subst hc
      rw [rowsBelow_newline] at hr
      rcases List.mem_cons.mp hr with rfl | hr
      · cases layer with
        | string => simp [isLeading] at hb
        | code | comment => exact LineStart.noConfusion
      · exact ih hrest hr
    · rw [rowsBelow_cons hc, depthAfter_of_leading (by simpa using hb)] at hr
      exact ih hrest hr

lemma comment_of_mem_rowsBelow (hl : ∀ b ∈ l, b.1 = newline → b.2 = .comment)
    (hr : r ∈ rowsBelow n d l) : r.start = .comment := by
  induction l generalizing n d with
  | nil => cases hr
  | cons b l ih =>
    obtain ⟨c, layer⟩ := b
    obtain ⟨hb, hrest⟩ := List.forall_mem_cons.mp hl
    by_cases hc : c = newline
    · subst hc
      obtain rfl : layer = .comment := hb rfl
      rw [rowsBelow_newline] at hr
      rcases List.mem_cons.mp hr with rfl | hr
      · rfl
      · exact ih hrest hr
    · rw [rowsBelow_cons hc] at hr
      exact ih hrest hr

lemma chomp_cons_indent {c : UInt8} (hc : isIndent c = true) (t : Bytes) :
    Source.chomp (c :: t) = c :: Source.chomp t := by
  refine Source.chomp_append ?_ [] t
  rintro rfl
  exact absurd hc (by decide)

lemma isBlankLine_lineText (hU : ∀ b ∈ U, b.1 = newline ∨ isIndent b.1 = true)
    (hV : isBlankLine (Source.chomp (lineText V)) = true) :
    isBlankLine (Source.chomp (lineText (U ++ V))) = true := by
  induction U with
  | nil => exact hV
  | cons b U ih =>
    obtain ⟨c, layer⟩ := b
    obtain ⟨hb, hrest⟩ := List.forall_mem_cons.mp hU
    by_cases hc : c = newline
    · subst hc
      rw [List.cons_append, lineText_newline]
      rfl
    · have hindent : isIndent c = true := hb.resolve_left hc
      rw [List.cons_append, lineText_cons hc, chomp_cons_indent hindent, isBlankLine, List.all_cons,
        hindent, Bool.true_or, Bool.true_or, Bool.true_and]
      exact ih hrest

lemma isBlankLine_of_mem_rowsBelow (hU : ∀ b ∈ U, b.1 = newline ∨ isIndent b.1 = true)
    (hV : ∀ b ∈ V, b.1 ≠ newline) (hblank : isBlankLine (Source.chomp (lineText V)) = true)
    (hr : r ∈ rowsBelow n d (U ++ V)) : isBlankLine r.text = true := by
  induction U generalizing n d with
  | nil =>
    have hnone : ∀ n d, rowsBelow n d V = [] := by
      clear hblank hr
      induction V with
      | nil => exact fun _ _ => rfl
      | cons b V ih =>
        obtain ⟨hb, hV⟩ := List.forall_mem_cons.mp hV
        exact fun n d => (rowsBelow_cons hb n d V).trans (ih hV n _)
    rw [List.nil_append, hnone] at hr
    cases hr
  | cons b U ih =>
    obtain ⟨c, layer⟩ := b
    obtain ⟨hb, hrest⟩ := List.forall_mem_cons.mp hU
    rw [List.cons_append] at hr
    by_cases hc : c = newline
    · subst hc
      rw [rowsBelow_newline] at hr
      rcases List.mem_cons.mp hr with rfl | hr
      · exact isBlankLine_lineText hrest hblank
      · exact ih hrest hr
    · rw [rowsBelow_cons hc] at hr
      exact ih hrest hr

structure Stretch (lang : Language) (V : List (UInt8 × Layer)) : Prop where
  head : V.head? = some (newline, .code)
  leads : ∀ b ∈ V, isLeading b = true
  opens : ∀ n d, ∀ r ∈ rowsBelow n d V, r.opensStatement lang = false

def EndsCode (Y : List (UInt8 × Layer)) : Prop := ∀ b ∈ Y.head?, b = (newline, .code)

lemma EndsCode.endsLine (h : EndsCode Y) : EndsLine Y := fun b hb => congrArg Prod.fst (h b hb)

lemma Stretch.endsLine (h : Stretch lang V) (Y : List (UInt8 × Layer)) : EndsLine (V ++ Y) := by
  obtain ⟨W, rfl⟩ := List.head?_eq_some_iff.mp h.head
  intro b hb
  obtain rfl : (newline, Layer.code) = b := by simpa using hb
  rfl

lemma Stretch.rowsBelow_eq (h : Stretch lang V) (hY : EndsCode Y) (X : List (UInt8 × Layer))
    (line : Nat) : rowsBelow line 0 (X ++ (V ++ Y)) = rowsBelow line 0 X ++
      (rowsBelow (line + breaks X) (depthAfter 0 X) V ++
        rowsBelow (line + breaks X + breaks V) (depthAfter 0 X) Y) := by
  rw [rowsBelow_append (h.endsLine Y), rowsBelow_append hY.endsLine, depthAfter_of_leading h.leads]

lemma Stretch.idle (h : Stretch lang V) (hY : EndsCode Y) (X : List (UInt8 × Layer)) (n m : Nat) :
    Idle lang (depthAfter 0 X) (openBrackets (X ++ (V ++ Y))) (rowsBelow n (depthAfter 0 X) V)
      (rowsBelow m (depthAfter 0 X) Y) where
  opens := h.opens n _
  outside hzero r hr := not_continuation_of_leading h.leads (hzero ▸ hr)
  inside hpos := by
    have hopen : openBrackets (X ++ (V ++ Y)) = depthAfter (depthAfter 0 X) Y := by
      refine (depthAfter_append 0 X _).trans ?_
      rw [depthAfter_append, depthAfter_of_leading h.leads]
    rcases Y with _ | ⟨b, Y⟩
    · exact Or.inl ⟨rfl, hopen ▸ hpos⟩
    · obtain rfl : b = (newline, .code) := hY b rfl
      rw [rowsBelow_newline]
      exact Or.inr ⟨_, _, rfl, if_pos hpos⟩

end Stretch

namespace Source

variable {s s' : Source} {o : Nat} {l l' V V' X Y : List (UInt8 × Layer)}

lemma offsideEnd_of_idle {mid mid' : List Row}
    (hrows : s.rowsAfter line l = pre ++ (mid ++ post))
    (hrows' : s'.rowsAfter line l' = pre ++ (mid' ++ post))
    (hidle : Idle lang depth (openBrackets l) mid post)
    (hidle' : Idle lang depth (openBrackets l') mid' post) (hopen : openBrackets l' = openBrackets l)
    (hline : s'.line line = s.line line) :
    s'.offsideEnd lang line l' = s.offsideEnd lang line l ∧
      ∀ stop, s.offsideEnd lang line l = .ok stop → s'.line stop = s.line stop := by
  rw [hopen] at hidle'
  have hsame : s.offsideEnd lang line l = (offsideFrom lang (indentWidth (s.line line)) line
      (isDecorated (s.line line)) (pre ++ post)).outcome lang line (openBrackets l) := by
    rw [offsideEnd_def, hrows, hidle.outcome_offsideFrom]
  refine ⟨?_, fun stop hstop => ?_⟩
  · rw [hsame, offsideEnd_def, hrows', hopen, hline, hidle'.outcome_offsideFrom]
  · rw [hsame] at hstop
    rw [OffsideBlock.eq_of_outcome hstop]
    refine lastLine_offsideFrom (P := fun n => s'.line n = s.line n) _ _ hline fun r hr => ?_
    have hmem {mid : List Row} : r ∈ pre ++ (mid ++ post) := by
      rcases List.mem_append.mp hr with hr | hr
      · exact List.mem_append_left _ hr
      · exact List.mem_append_right _ (List.mem_append_right _ hr)
    rw [← text_of_mem_rowsAfter (hrows ▸ hmem : r ∈ s.rowsAfter line l),
      ← text_of_mem_rowsAfter (hrows' ▸ hmem : r ∈ s'.rowsAfter line l')]

lemma offsideEnd_of_stretch (hV : Stretch lang V) (hV' : Stretch lang V') (hY : EndsCode Y)
    (hbreaks : breaks V' = breaks V) (hline : line = (s.positionAt o).line)
    (hline' : line = (s'.positionAt o).line)
    (hbytes : (X ++ (V ++ Y)).map (·.1) = s.content.drop o)
    (hbytes' : (X ++ (V' ++ Y)).map (·.1) = s'.content.drop o) (hbase : s'.line line = s.line line) :
    s'.offsideEnd lang line (X ++ (V' ++ Y)) = s.offsideEnd lang line (X ++ (V ++ Y)) ∧
      ∀ stop, s.offsideEnd lang line (X ++ (V ++ Y)) = .ok stop → s'.line stop = s.line stop := by
  have hrows := rowsAfter_eq hbytes
  have hrows' := rowsAfter_eq hbytes'
  rw [← hline, hV.rowsBelow_eq hY] at hrows
  rw [← hline', hV'.rowsBelow_eq hY, hbreaks] at hrows'
  have hopen : openBrackets (X ++ (V' ++ Y)) = openBrackets (X ++ (V ++ Y)) := by
    refine (depthAfter_append 0 X _).trans (.trans ?_ (depthAfter_append 0 X _).symm)
    rw [depthAfter_append, depthAfter_append, depthAfter_of_leading hV.leads,
      depthAfter_of_leading hV'.leads]
  exact offsideEnd_of_idle hrows hrows' (hV.idle hY X _ _) (hV'.idle hY X _ _) hopen hbase

end Source

end TrustRegions
