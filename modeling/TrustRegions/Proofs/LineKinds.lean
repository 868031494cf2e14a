import TrustRegions.Proofs.BlankedComments
import TrustRegions.Proofs.IndentedScopes
import TrustRegions.Proofs.LinesAndColumns
import TrustRegions.Proofs.OpenBrackets

/-! The lines behind the start of a declaration, as the lexer tells them: blank ones, comments, those that
go on from the line above, and those that start a statement. The rows of a block tell the same. -/

namespace TrustRegions

namespace Language

variable {lang : Language} {content : Bytes} {s : Segment} {x y : UInt8 × Layer} {k m : Nat}

lemma exists_opensAt_lineComment_iff (hblock : lang.block = none) (content : Bytes) (k : Nat) :
    (∃ d, lang.opensAt content k = .lineComment d) ↔ ∃ w ∈ lang.lineComments, w <+: content.drop k := by
  have hopens := lang.opens_openingAt (startsLine content k) (content.drop k)
  rw [← opensAt] at hopens
  constructor
  · rintro ⟨d, hd⟩
    rw [hd] at hopens
    exact ⟨d, hopens⟩
  · rintro ⟨w, hw, hpre⟩
    cases ho : lang.opensAt content k with
    | code => exact absurd hpre (not_prefix_of_opening (Or.inl ho) hw)
    | string => exact absurd hpre (not_prefix_of_opening (Or.inr ho) hw)
    | lineComment d => exact ⟨d, rfl⟩
    | blockComment d =>
      rw [ho] at hopens
      exact absurd hopens.1 (by simp [hblock])

lemma kind_lineComment_iff (hs : s ∈ lang.segments content 0) :
    (∃ d n, s.kind = .comment .line d n) ↔ ∃ d, lang.opensAt content s.start = .lineComment d := by
  obtain ⟨-, -, heq⟩ := mem_segments hs
  rw [heq, firstSegment, segmentAt, ← opensAt]
  cases lang.opensAt content s.start <;> simp

lemma start_eq_or_code (hs : s ∈ lang.segments content 0) (hx : (lang.layers content 0)[k]? = some x)
    (hcode : x.2 = .code) (hle : s.start ≤ k + 1) (hlt : k + 1 < s.stop) :
    s.start = k + 1 ∨ s.kind = .code := by
  rcases hle.eq_or_lt with heq | hlt'
  · exact Or.inl heq
  · right
    have hlayer := layer_of_mem hs (Nat.le_of_lt_succ hlt') (Nat.lt_of_succ_lt hlt) hx
    cases hk : s.kind with
    | code => rfl
    | string | comment => simp [hk, hcode, Segment.Kind.layer] at hlayer

lemma code_of_blank (hl : lang.Legible) (hx : (lang.layers content 0)[k]? = some x) (hcode : x.2 = .code)
    (hy : (lang.layers content 0)[k + 1]? = some y) (hblank : isBlank y.1 = true) : y.2 = .code := by
  have hlt := (List.getElem?_eq_some_iff.mp hy).1
  rw [length_layers] at hlt
  obtain ⟨s, hs, hle, hstop⟩ := lang.exists_segment (Nat.zero_le _) hlt
  have hlayer := layer_of_mem hs hle hstop hy
  rcases start_eq_or_code hs hx hcode hle hstop with hstart | hkind
  · obtain ⟨-, -, heq⟩ := mem_segments hs
    have hget : content[k + 1]? = some y.1 := by
      rw [getElem?_layers, hy]
      rfl
    obtain ⟨_, hbyte⟩ := List.getElem?_eq_some_iff.mp hget
    have hopens : lang.opensAt content s.start = .code := by
      rw [opensAt, hstart, List.drop_eq_getElem_cons hlt, hbyte]
      exact openingAt_of_blank hl hblank _ _
    rw [hlayer, heq, (lang.kind_firstSegment_eq_code_iff content s.start).mpr hopens]
    rfl
  · rw [hlayer, hkind]
    rfl

lemma exists_code_of_indents (hl : lang.Legible) (hx : (lang.layers content 0)[k]? = some x)
    (hcode : x.2 = .code) (h : ∀ i < m, ∃ c, content[k + 1 + i]? = some c ∧ isIndent c = true) :
    ∃ y, (lang.layers content 0)[k + m]? = some y ∧ y.2 = .code := by
  induction m with
  | zero => exact ⟨x, hx, hcode⟩
  | succ m ih =>
    obtain ⟨y, hy, hycode⟩ := ih fun i hi => h i (Nat.lt_succ_of_lt hi)
    obtain ⟨c, hc, hindent⟩ := h m (Nat.lt_succ_self m)
    rw [Nat.add_right_comm, getElem?_layers] at hc
    obtain ⟨z, hz, rfl⟩ := Option.map_eq_some_iff.mp hc
    exact ⟨z, hz, code_of_blank hl hy hycode hz (isBlank_of_isIndent hindent)⟩

lemma exists_lineComment_of_delimiter (hblock : lang.block = none)
    (hx : (lang.layers content 0)[k]? = some x) (hcode : x.2 = .code) {w : Bytes}
    (hw : w ∈ lang.lineComments) (hword : Bytes.IsWord w) (hpre : w <+: content.drop (k + 1)) :
    ∃ s ∈ lang.segments content 0, (∃ d n, s.kind = .comment .line d n) ∧ s.start = k + 1 := by
  have hlt : k + 1 < content.length := by
    have hlength := hpre.length_le
    have hpos := List.length_pos_of_ne_nil hword.1
    rw [List.length_drop] at hlength
    omega
  have hopens := (exists_opensAt_lineComment_iff hblock content (k + 1)).mpr ⟨w, hw, hpre⟩
  obtain ⟨s, hs, hle, hstop⟩ := lang.exists_segment (Nat.zero_le _) hlt
  rcases start_eq_or_code hs hx hcode hle hstop with hstart | hkind
  · exact ⟨s, hs, (kind_lineComment_iff hs).mpr (hstart ▸ hopens), hstart⟩
  · rw [opensAt_of_mem_code hs hkind hle hstop] at hopens
    obtain ⟨d, hd⟩ := hopens
    cases hd

end Language

namespace Source

/-! ### Kinds of lines -/

def Continues (source : Source) (lang : Language) (o n : Nat) : Prop :=
  (∃ g ∈ lang.segments source.content 0, g.kind = .string ∧ o ≤ g.start ∧
      g.start < source.lineStart n ∧ source.lineStart n ≤ g.stop) ∨
    LeavesOpen (((lang.layers source.content 0).take (source.lineStart n)).drop o)

def IsComment (source : Source) (lang : Language) (n : Nat) : Prop :=
  ∃ g ∈ lang.segments source.content 0,
    (∃ delimiter bodyLength, g.kind = .comment .line delimiter bodyLength) ∧
      g.start = source.lineStart n + leadLength (source.line n)

structure OpensStatement (source : Source) (lang : Language) (o n : Nat) : Prop where
  shows : isBlankLine (source.line n) = false
  not_comment : ¬source.IsComment lang n
  not_continues : ¬source.Continues lang o n

section Breaks

variable {source : Source} {lang : Language} {layer : Layer} {before p pre l : List (UInt8 × Layer)}
  {r : Row} {n : Nat}

lemma rawLine_eq_lead_append (hpos : 1 ≤ n) (hle : n ≤ source.lineCount) :
    source.rawLine n = (source.line n).takeWhile isIndent ++
      source.lineTail (source.lineStart n + leadLength (source.line n)) := by
  have hlead : (source.line n).takeWhile isIndent <+: source.content.drop (source.lineStart n) := by
    rw [line_eq_chomp hpos hle]
    exact ((List.takeWhile_prefix _).trans (isPrefix_chomp _)).trans (List.takeWhile_prefix _)
  obtain ⟨rest, hrest⟩ := hlead
  have htail : source.content.drop (source.lineStart n + leadLength (source.line n)) = rest := by
    rw [← List.drop_drop, ← hrest, leadLength, List.drop_left]
  have hindent : ∀ c ∈ (source.line n).takeWhile isIndent, decide (c ≠ newline) = true :=
    fun c hc => decide_eq_true (ne_newline_of_isIndent (List.mem_takeWhile_imp hc))
  rw [rawLine, lineTail, lineTail, htail, ← hrest, List.takeWhile_append_of_pos hindent]

lemma opensStatement_of_isComment (hl : lang.Legible) (hblock : lang.block = none) (hpos : 1 ≤ n)
    (hle : n ≤ source.lineCount) (h : source.IsComment lang n) (htext : r.text = source.line n) :
    r.opensStatement lang = false := by
  obtain ⟨g, hg, hkind, hstart⟩ := h
  obtain ⟨w, hw, hpre⟩ :=
    (Language.exists_opensAt_lineComment_iff hblock _ _).mp ((Language.kind_lineComment_iff hg).mp hkind)
  have hword := hl.lineComments w hw
  rw [hstart] at hpre
  have hindent : ∀ c ∈ (source.line n).takeWhile isIndent, isIndent c = true :=
    fun c hc => List.mem_takeWhile_imp hc
  refine opensStatement_of_comment hw hword hindent (word_prefix_lineTail hword hpre) ?_
  rw [htext, ← rawLine_eq_lead_append hpos hle, line_eq_chomp hpos hle]

section

variable (h : lang.layers source.content 0 = pre ++ (newline, layer) :: l)

include h

lemma positionAt_break :
    source.positionAt (pre.length + 1) = ⟨(source.positionAt pre.length).line + 1, 1⟩ := by
  rw [positionAt_succ (Language.content_of_layers_eq h), Position.advance, if_pos rfl]

lemma drop_break : source.content.drop (pre.length + 1) = l.map (·.1) := by
  have hsplit : lang.layers source.content 0 = (pre ++ [(newline, layer)]) ++ l := by
    rw [h, List.append_assoc, List.singleton_append]
  rw [Language.map_fst_of_layers_eq hsplit, List.length_append, List.length_singleton]

lemma lineStart_break :
    source.lineStart ((source.positionAt pre.length).line + 1) = pre.length + 1 := by
  have hlt := (List.getElem?_eq_some_iff.mp (Language.content_of_layers_eq h)).1
  have hstart := lineStart_positionAt_line (s := source) (Nat.succ_le_of_lt hlt)
  rwa [positionAt_break h, lineHead_of_newline (Language.content_of_layers_eq h)] at hstart

lemma line_break_le : (source.positionAt pre.length).line + 1 ≤ source.lineCount := by
  have hle := (source.has_positionAt (pre.length + 1)).line_le
  rwa [positionAt_break h] at hle

lemma line_break :
    source.line ((source.positionAt pre.length).line + 1) = chomp (lineText l) := by
  have htext := source.line_positionAt (pre.length + 1)
  rwa [positionAt_break h, lineHead_of_newline (Language.content_of_layers_eq h), List.nil_append,
    lineTail, drop_break h] at htext

lemma layer_break_ne_comment (hl : lang.Legible) (hblock : lang.block = none) : layer ≠ .comment :=
  fun hlayer => Language.ne_newline_of_comment hl hblock (Language.getElem?_of_layers_eq h) hlayer rfl

lemma isComment_of_delimiter (hl : lang.Legible) (hblock : lang.block = none) (hlayer : layer = .code)
    {w : Bytes} (hw : w ∈ lang.lineComments) (hn : n = (source.positionAt pre.length).line + 1)
    (hpre : w <+: (source.line n).drop (leadLength (source.line n))) : source.IsComment lang n := by
  subst hn hlayer
  have hstart := lineStart_break h
  have hline : source.line ((source.positionAt pre.length).line + 1) <+:
      source.content.drop (pre.length + 1) := by
    rw [line_break h, drop_break h]
    exact (isPrefix_chomp _).trans (List.takeWhile_prefix _)
  generalize hn : (source.positionAt pre.length).line + 1 = n at *
  have hindents : ∀ i < leadLength (source.line n),
      ∃ c, source.content[pre.length + 1 + i]? = some c ∧ isIndent c = true := by
    intro i hi
    obtain ⟨rest, hrest⟩ := (List.takeWhile_prefix isIndent).trans hline
    have hget : source.content[pre.length + 1 + i]? = ((source.line n).takeWhile isIndent)[i]? := by
      rw [← List.getElem?_drop, ← hrest, List.getElem?_append_left hi]
    exact ⟨_, hget.trans (List.getElem?_eq_getElem hi), List.mem_takeWhile_imp (List.getElem_mem hi)⟩
  obtain ⟨y, hy, hcode⟩ :=
    Language.exists_code_of_indents hl (Language.getElem?_of_layers_eq h) rfl hindents
  have hbehind : w <+: source.content.drop (pre.length + leadLength (source.line n) + 1) := by
    rw [Nat.add_right_comm, ← List.drop_drop]
    exact hpre.trans (hline.drop _)
  obtain ⟨g, hg, hkind, hgstart⟩ :=
    Language.exists_lineComment_of_delimiter hblock hy hcode hw (hl.lineComments w hw) hbehind
  exact ⟨g, hg, hkind, by rw [hgstart, hstart, Nat.add_right_comm]⟩

end

open BraceWalk in
lemma le_start_of_fresh (h : lang.layers source.content 0 = before ++ l)
    (hfresh : before.foldl freshAfter true = true) {g : Segment}
    (hg : g ∈ lang.segments source.content 0) (hkind : g.kind = .string)
    (hstop : before.length < g.stop) : before.length ≤ g.start := by
  by_contra hlt
  rcases List.eq_nil_or_concat' before with rfl | ⟨q, x, rfl⟩
  · exact hlt (Nat.zero_le _)
  rw [List.length_append, List.length_singleton] at hlt hstop
  rw [List.append_assoc] at h
  have hx := Language.getElem?_of_layers_eq h
  have hlayer := Language.layer_of_mem hg (show g.start ≤ q.length by omega) (by omega) hx
  rw [hkind] at hlayer
  rw [List.foldl_concat, freshAfter, Bool.or_eq_true, Bool.and_eq_true, beq_iff_eq] at hfresh
  rcases hfresh with heq | ⟨-, hlead⟩
  · rw [heq] at hlayer
    cases hlayer
  · rw [isLeading, hlayer] at hlead
    cases hlead

variable (h : lang.layers source.content 0 = before ++ p ++ (newline, layer) :: l)
  (hn : n = (source.positionAt (before ++ p).length).line + 1)

include h hn

lemma leavesOpen_break_iff :
    LeavesOpen (((lang.layers source.content 0).take (source.lineStart n)).drop before.length) ↔
      0 < depthAfter 0 p := by
  have htake : (lang.layers source.content 0).take (source.lineStart n) =
      before ++ (p ++ [(newline, layer)]) := by
    rw [hn, lineStart_break h, h, ← List.append_assoc, ← List.singleton_append, ← List.append_assoc]
    exact List.take_left' (by simp [Nat.add_assoc])
  rw [htake, List.drop_left, ← depthAfter_pos_iff, depthAfter_append, depthAfter_newline]
  rfl

lemma exists_string_break_iff (hfresh : before.foldl BraceWalk.freshAfter true = true) :
    (∃ g ∈ lang.segments source.content 0, g.kind = .string ∧ before.length ≤ g.start ∧
      g.start < source.lineStart n ∧ source.lineStart n ≤ g.stop) ↔ layer = .string := by
  have hbyte := Language.getElem?_of_layers_eq h
  rw [hn, lineStart_break h]
  constructor
  · rintro ⟨g, hg, hkind, -, hlt, hstop⟩
    have hlayer := Language.layer_of_mem hg (Nat.le_of_lt_succ hlt) hstop hbyte
    rwa [hkind] at hlayer
  · intro hlayer
    have hlt := (List.getElem?_eq_some_iff.mp (Language.content_of_layers_eq h)).1
    obtain ⟨g, hg, hle, hstop⟩ := lang.exists_segment (Nat.zero_le _) hlt
    have hkind := Language.layer_of_mem hg hle hstop hbyte
    have hkind : g.kind = .string := by
      cases hk : g.kind with
      | string => rfl
      | code | comment => simp [hk, hlayer, Segment.Kind.layer] at hkind
    rw [List.append_assoc] at h
    have hbefore : before.length ≤ (before ++ p).length := by simp
    exact ⟨g, hg, hkind, le_start_of_fresh h hfresh hg hkind (hbefore.trans_lt hstop),
      Nat.lt_succ_of_le hle, hstop⟩

lemma continuation_break_iff (hl : lang.Legible) (hblock : lang.block = none)
    (hfresh : before.foldl BraceWalk.freshAfter true = true) :
    lineStartOf (depthAfter 0 p) layer = .continuation ↔ source.Continues lang before.length n := by
  rw [Continues, exists_string_break_iff h hn hfresh, leavesOpen_break_iff h hn]
  have hne := layer_break_ne_comment h hl hblock
  cases layer with
  | code => simp [lineStartOf]
  | string => simp [lineStartOf]
  | comment => exact absurd rfl hne

lemma opensStatement_break_iff (hl : lang.Legible) (hblock : lang.block = none)
    (hfresh : before.foldl BraceWalk.freshAfter true = true)
    (hstart : r.start = lineStartOf (depthAfter 0 p) layer) (htext : r.text = source.line n) :
    r.opensStatement lang = true ↔ source.OpensStatement lang before.length n := by
  have hle : n ≤ source.lineCount := hn ▸ line_break_le h
  have hcontinues := continuation_break_iff h hn hl hblock hfresh
  rw [← hstart] at hcontinues
  constructor
  · intro hs
    refine ⟨?_, fun hcomment => ?_, mt hcontinues.mpr (start_of_opensStatement hs)⟩
    · simp only [Row.opensStatement, Bool.and_eq_true, Bool.not_eq_true'] at hs
      exact htext ▸ hs.1.2
    · rw [opensStatement_of_isComment hl hblock (by omega) hle hcomment htext] at hs
      cases hs
  · rintro ⟨hshows, hcomment, hnot⟩
    have hplain : r.start = .plain ∧ layer = .code := by
      have hne := layer_break_ne_comment h hl hblock
      have hstart' := mt hcontinues.mp hnot
      rw [hstart] at hstart' ⊢
      cases layer with
      | code => exact ⟨by simpa [lineStartOf] using hstart', rfl⟩
      | string => exact absurd rfl hstart'
      | comment => exact absurd rfl hne
    have hany : lang.lineComments.any (·.isPrefixOf r.code) = false := by
      rw [List.any_eq_false]
      intro w hw hpre
      have hpre := List.isPrefixOf_iff_prefix.mp hpre
      rw [Row.code, htext] at hpre
      exact hcomment (isComment_of_delimiter h hl hblock hplain.2 hw hn hpre)
    rw [Row.opensStatement, hplain.1, hany, htext, hshows]
    rfl

end Breaks

/-! ### Rows -/

inductive Tells (source : Source) (lang : Language) (o : Nat) : Nat → List Row → Prop
  | nil : Tells source lang o source.lineCount []
  | cons {n : Nat} {r : Row} {rows : List Row} : r.number = n + 1 → r.text = source.line (n + 1) →
      (r.start = .continuation ↔ source.Continues lang o (n + 1)) →
      (r.opensStatement lang = true ↔ source.OpensStatement lang o (n + 1)) →
      Tells source lang o (n + 1) rows → Tells source lang o n (r :: rows)

lemma line_positionAt_length (source : Source) :
    (source.positionAt source.content.length).line = source.lineCount := by
  rw [positionAt, List.take_length, Position.line_foldl_advance, lineCount_eq, Nat.add_comm]
  rfl

variable {source : Source} {lang : Language} {before p l rest : List (UInt8 × Layer)} {b : UInt8 × Layer}
  {t : Span}

lemma tells_rowsBelow (hl : lang.Legible) (hblock : lang.block = none)
    (hfresh : before.foldl BraceWalk.freshAfter true = true)
    (h : lang.layers source.content 0 = before ++ p ++ l) :
    source.Tells lang before.length (source.positionAt (before ++ p).length).line
      (rowsBelow (source.positionAt (before ++ p).length).line (depthAfter 0 p) l) := by
  -- By induction on what is left; of the bytes `p` before it the rows keep the open brackets only.
  induction l generalizing p with
  | nil =>
    have hlength := congrArg List.length h
    rw [Language.length_layers, List.append_nil, Nat.sub_zero] at hlength
    rw [← hlength, line_positionAt_length]
    exact .nil
  | cons b l ih =>
    obtain ⟨c, layer⟩ := b
    have hnext := ih (p := p ++ [(c, layer)]) (by rw [h]; simp)
    rw [← List.append_assoc, List.length_append, List.length_singleton] at hnext
    by_cases hc : c = newline
    · subst hc
      rw [positionAt_break h, depthAfter_append, depthAfter_newline] at hnext
      rw [rowsBelow_newline]
      exact .cons rfl (line_break h).symm (continuation_break_iff h rfl hl hblock hfresh)
        (opensStatement_break_iff h rfl hl hblock hfresh rfl (line_break h).symm) hnext
    · rw [positionAt_succ (Language.content_of_layers_eq h), Position.advance, if_neg hc,
        depthAfter_append] at hnext
      rwa [rowsBelow_cons hc]

lemma Indents.tells (hl : lang.Legible) (hblock : lang.block = none)
    (h : source.Indents lang before b rest t) :
    source.Tells lang before.length t.start.line (source.rowsAfter t.start.line (b :: rest)) := by
  have hsplit : lang.layers source.content 0 = before ++ [] ++ b :: rest := by
    rw [List.append_nil, h.layers_eq]
  have htells := tells_rowsBelow hl hblock h.fresh hsplit
  rw [List.append_nil] at htells
  rw [h.start_eq, rowsAfter_eq (Language.map_fst_of_layers_eq h.layers_eq)]
  exact htells

end Source

end TrustRegions
