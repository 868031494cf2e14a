import TrustRegions.Proofs.DeclarationScopes
import TrustRegions.Proofs.OffsideBlocks
import TrustRegions.Proofs.Tiling

/-! In languages where nothing but indentation ends a block, two declarations outside of all brackets
have scopes that are nested or disjoint: the later one starts a line of its own, and both see the same
rows below it. -/

namespace TrustRegions

open BraceWalk

section Lines

variable {lang : Language} {content : Bytes} {b x : UInt8 × Layer}
  {before l rest : List (UInt8 × Layer)}

lemma exists_newline_of_fresh (h : l.foldl freshAfter false = true) :
    ∃ p q, l = p ++ (newline, .code) :: q ∧ (∀ b ∈ q, isLeading b = true) ∧
      ∀ b ∈ q, b.2 = .code → b.1 ≠ newline := by
  induction l using List.reverseRecOn with
  | nil => cases h
  | append_singleton l x ih =>
    by_cases hx : x = (newline, .code)
    · exact ⟨l, [], by rw [hx], by simp, by simp⟩
    rw [List.foldl_append, List.foldl_cons, List.foldl_nil, freshAfter, Bool.or_eq_true,
      Bool.and_eq_true, beq_iff_eq] at h
    obtain ⟨hfresh, hlead⟩ := h.resolve_left hx
    obtain ⟨p, q, rfl, hq, hline⟩ := ih hfresh
    refine ⟨p, q ++ [x], by simp, ?_, ?_⟩
    · intro b hb
      rcases List.mem_append.mp hb with hb | hb
      · exact hq b hb
      · exact List.mem_singleton.mp hb ▸ hlead
    · intro b hb hcode heq
      rcases List.mem_append.mp hb with hb | hb
      · exact hline b hb hcode heq
      · obtain rfl := List.mem_singleton.mp hb
        exact hx (Prod.ext heq hcode)

namespace Language

lemma style_eq_line (hblock : lang.block = none) {s : Segment} {style : CommentStyle} {delimiter : Bytes}
    {bodyLength : Nat} (hs : s ∈ lang.segments content 0)
    (hk : s.kind = .comment style delimiter bodyLength) : style = .line := by
  obtain ⟨-, -, heq⟩ := mem_segments hs
  have hopens := lang.opens_openingAt (startsLine content s.start) (content.drop s.start)
  rw [heq, firstSegment, segmentAt] at hk
  cases ho : lang.openingAt (startsLine content s.start) (content.drop s.start) with
  | code => simp [ho] at hk
  | string => simp [ho] at hk
  | lineComment d =>
    simp only [ho, Segment.Kind.comment.injEq] at hk
    exact hk.1.symm
  | blockComment d =>
    rw [ho] at hopens
    exact absurd hopens.1 (by simp [hblock])

lemma ends_of_comment (hl : lang.Legible) (hblock : lang.block = none) {s : Segment}
    (hs : s ∈ lang.segments content 0) (hc : s.kind.layer = .comment) :
    newline ∉ (content.drop s.start).take s.length ∧
      (s.stop < content.length → content[s.stop]? = some newline) := by
  have hlooks := looks_of_mem hl hs
  have hlt := start_lt_stop hs
  cases hk : s.kind with
  | code => simp [hk, Segment.Kind.layer] at hc
  | string => simp [hk, Segment.Kind.layer] at hc
  | comment style delimiter body =>
    rw [hk] at hlooks
    obtain ⟨-, -, -, -, -, hline⟩ := hlooks
    have hlength := hline (style_eq_line hblock hs hk)
    have htake : (content.drop s.start).take s.length =
        (content.drop s.start).takeWhile (· ≠ newline) := by
      rw [hlength]
      exact (List.prefix_iff_eq_take.mp (List.takeWhile_prefix _)).symm
    refine ⟨?_, fun hend => ?_⟩
    · rw [htake]
      exact fun hmem => by simpa using List.mem_takeWhile_imp hmem
    · have hdrop : (content.drop s.start).drop s.length =
          (content.drop s.start).dropWhile (· ≠ newline) := by
        rw [hlength]
        exact drop_length_takeWhile _ _
      have hstop : s.start + s.length = s.stop := Nat.add_sub_cancel' hlt.le
      rw [List.drop_drop, hstop, List.drop_eq_getElem_cons hend] at hdrop
      have hhead := List.head?_dropWhile_not (· ≠ newline) (content.drop s.start)
      rw [← hdrop, List.head?_cons] at hhead
      rw [List.getElem?_eq_getElem hend]
      exact congrArg some (by simpa using hhead)

lemma ne_newline_of_comment (hl : lang.Legible) (hblock : lang.block = none) {k : Nat}
    (hx : (lang.layers content 0)[k]? = some x) (hc : x.2 = .comment) : x.1 ≠ newline := by
  obtain ⟨s, hs, hle, hlt, hlayer⟩ := exists_comment_segment hx hc
  intro heq
  refine (ends_of_comment hl hblock hs hlayer).1 (List.mem_of_getElem? (i := k - s.start) ?_)
  rw [List.getElem?_take_of_lt (by rw [Segment.length]; omega), List.getElem?_drop,
    Nat.add_sub_cancel' hle, getElem?_layers, hx, Option.map_some, heq]

lemma code_of_leading (hl : lang.Legible) (hblock : lang.block = none)
    (h : lang.layers content 0 = before ++ (l ++ b :: rest)) (hb : b.2 ≠ .comment)
    (hshows : isBlank b.1 = false) (hlead : ∀ x ∈ l, isLeading x = true)
    (hline : ∀ x ∈ l, x.2 = .code → x.1 ≠ newline) : ∀ x ∈ l, x.2 = .code ∧ x.1 ≠ newline := by
  have hget (k : Nat) : (lang.layers content 0)[before.length + k]? = (l ++ b :: rest)[k]? := by
    rw [h, List.getElem?_append_right (Nat.le_add_right _ _), Nat.add_sub_cancel_left]
  have hnewline {k : Nat} {y : UInt8 × Layer} (hk : l[k]? = some y) : y.1 ≠ newline := by
    have hy := List.mem_of_getElem? hk
    have hlayers := hget k
    rw [List.getElem?_append_left (List.getElem?_eq_some_iff.mp hk).1, hk] at hlayers
    by_cases hcode : y.2 = .code
    · exact hline y hy hcode
    · have hcomment : y.2 = .comment := by simpa [isLeading, hcode] using hlead y hy
      exact ne_newline_of_comment hl hblock hlayers hcomment
  intro x hx
  obtain ⟨k, hk⟩ := List.mem_iff_getElem?.mp hx
  refine ⟨?_, hnewline hk⟩
  by_contra hcode
  have hcomment : x.2 = .comment := by simpa [isLeading, hcode] using hlead x hx
  have hlayers := hget k
  have hkl := (List.getElem?_eq_some_iff.mp hk).1
  rw [List.getElem?_append_left hkl, hk] at hlayers
  obtain ⟨s, hs, hle, hlt, hlayer⟩ := exists_comment_segment hlayers hcomment
  have hlast : (lang.layers content 0)[before.length + l.length]? = some b := by
    rw [hget, List.getElem?_append_right le_rfl, Nat.sub_self]
    rfl
  have hstop : s.stop ≤ before.length + l.length := by
    by_contra hover
    exact hb (layer_of_mem hs (by omega) (by omega) hlast ▸ hlayer)
  have hend := (List.getElem?_eq_some_iff.mp hlast).1
  rw [length_layers] at hend
  have hnext := (ends_of_comment hl hblock hs hlayer).2 (by omega)
  rw [getElem?_layers] at hnext
  obtain ⟨y, hy, heq⟩ := Option.map_eq_some_iff.mp hnext
  rcases hstop.lt_or_eq with hbefore | hat
  · obtain ⟨j, hj⟩ := Nat.exists_eq_add_of_le (show before.length ≤ s.stop by omega)
    rw [hj, hget, List.getElem?_append_left (by omega)] at hy
    exact hnewline hy heq
  · rw [hat, hlast] at hy
    obtain rfl := Option.some.inj hy
    rw [heq] at hshows
    exact absurd hshows (by decide)

lemma not_prefix_of_opening {fresh : Bool} {text d : Bytes}
    (h : lang.openingAt fresh text = .code ∨ lang.openingAt fresh text = .string)
    (hd : d ∈ lang.lineComments) : ¬d <+: text := by
  intro hpre
  unfold openingAt at h
  split at h
  · rcases h with h | h <;> cases h
  · split at h
    · rcases h with h | h <;> cases h
    · next hnone =>
      have hfind := List.find?_eq_none.mp hnone d hd
      exact hfind (List.isPrefixOf_iff_prefix.mpr hpre)

lemma opensAt_of_mem_string {s : Segment} {o : Nat} (hs : s ∈ lang.segments content o)
    (hk : s.kind = .string) : lang.opensAt content s.start = .string := by
  obtain ⟨-, -, heq⟩ := mem_segments hs
  rw [heq, firstSegment, segmentAt] at hk
  rw [opensAt]
  cases ho : lang.openingAt (startsLine content s.start) (content.drop s.start) with
  | string => rfl
  | code => simp [ho] at hk
  | lineComment d => simp [ho] at hk
  | blockComment d => simp [ho] at hk

lemma not_prefix_of_layers {d : Bytes} (h : lang.layers content 0 = before ++ b :: rest)
    (hlast : before.getLast? = some x) (hx : x.2 = .code) (hb : b.2 ≠ .comment)
    (hd : d ∈ lang.lineComments) : ¬d <+: content.drop before.length := by
  have hpos : 0 < before.length := by
    rw [List.length_pos_iff]
    rintro rfl
    cases hlast
  have hprevious : (lang.layers content 0)[before.length - 1]? = some x := by
    rw [h, List.getElem?_append_left (by omega), ← List.getLast?_eq_getElem?, hlast]
  have hget := getElem?_of_layers_eq h
  have hlt := (List.getElem?_eq_some_iff.mp hget).1
  rw [length_layers] at hlt
  obtain ⟨s, hs, hle, hstop⟩ := lang.exists_segment (Nat.zero_le _) hlt
  have hlayer := layer_of_mem hs hle hstop hget
  have hopens : lang.opensAt content before.length = .code ∨
      lang.opensAt content before.length = .string := by
    cases hk : s.kind with
    | comment => exact absurd (by rw [hlayer, hk]; rfl) hb
    | code => exact Or.inl (opensAt_of_mem_code hs hk hle hstop)
    | string =>
      have hstart : s.start = before.length := by
        by_contra hne
        have hwithin := layer_of_mem hs (show s.start ≤ before.length - 1 by omega) (by omega) hprevious
        rw [hx, hk] at hwithin
        cases hwithin
      exact Or.inr (hstart ▸ opensAt_of_mem_string hs hk)
  exact not_prefix_of_opening hopens hd

end Language

end Lines

namespace Source

section Statements

variable {source : Source} {lang : Language} {before q rest : List (UInt8 × Layer)}
  {b x : UInt8 × Layer}

lemma lineHead_eq (h : lang.layers source.content 0 = before ++ (newline, .code) :: q ++ b :: rest)
    (hq : ∀ x ∈ q, x.1 ≠ newline) :
    source.lineHead (before ++ (newline, .code) :: q).length = q.map (·.1) := by
  have hbytes := Language.map_fst_layers lang source.content 0
  rw [List.drop_zero, h, List.map_append] at hbytes
  have htake : source.content.take (before ++ (newline, .code) :: q).length =
      before.map (·.1) ++ ([newline] ++ q.map (·.1)) := by
    rw [← hbytes, ← List.length_map (·.1), List.take_left, List.map_append]
    rfl
  have hnot : newline ∉ q.map (·.1) := by
    intro hmem
    obtain ⟨x, hx, heq⟩ := List.mem_map.mp hmem
    exact hq x hx heq
  rw [lineHead, htake, List.singleton_append, Bytes.rtakeWhile_append_cons _ hnot]

lemma prefix_of_prefix_dropWhile {head tail d : Bytes} {c : UInt8} (hd : Bytes.IsWord d)
    (hhead : ∀ x ∈ head, isBlank x = true) (hc : isIndent c = false)
    (h : d <+: (head ++ c :: tail).dropWhile isIndent) : d <+: c :: tail := by
  rw [List.dropWhile_append] at h
  split at h
  · rwa [List.dropWhile_cons_of_neg (by simp [hc])] at h
  · next hne =>
    obtain ⟨y, more, hy⟩ := List.exists_cons_of_ne_nil (mt List.isEmpty_iff.mpr hne)
    rw [hy] at h
    have hshow := Language.head_not_blank hd h
    rw [hhead y ((List.dropWhile_sublist _).subset (hy ▸ List.mem_cons_self : y ∈ _))] at hshow
    cases hshow

lemma opensStatement_of_layers (hl : lang.Legible)
    (h : lang.layers source.content 0 = before ++ (newline, .code) :: q ++ b :: rest)
    (hb : b.2 ≠ .comment) (hshows : isBlank b.1 = false) (hq : ∀ x ∈ q, x.2 = .code ∧ x.1 ≠ newline)
    (hblank : ∀ x ∈ q, isBlank x.1 = true) {n : Nat}
    (hn : n = (source.positionAt (before ++ (newline, .code) :: q).length).line) :
    (⟨n, source.line n, .plain⟩ : Row).opensStatement lang = true := by
  have hhead := lineHead_eq h fun x hx => (hq x hx).2
  have hlast : ∃ x, (before ++ (newline, .code) :: q).getLast? = some x ∧ x.2 = .code := by
    rcases List.eq_nil_or_concat q with rfl | ⟨q, x, rfl⟩
    · exact ⟨(newline, .code), by simp, rfl⟩
    · exact ⟨x, by simp [List.getLast?_cons], (hq x (by simp)).1⟩
  obtain ⟨x, hlast, hx⟩ := hlast
  have hnot {d : Bytes} (hd : d ∈ lang.lineComments) :=
    Language.not_prefix_of_layers h hlast hx hb hd
  have hget := Language.content_of_layers_eq h
  generalize (before ++ (newline, .code) :: q).length = o at hhead hn hnot hget
  obtain ⟨ho, hbyte⟩ := List.getElem?_eq_some_iff.mp hget
  have hline : source.line n = q.map (·.1) ++ b.1 :: chomp (source.lineTail (o + 1)) := by
    rw [hn, line_of_not_blank hget hshows, hhead]
  have hindent : isIndent b.1 = false := not_indent_of_not_blank hshows
  have hblankLine : isBlankLine (source.line n) = false := by
    rw [isBlankLine, List.all_eq_false]
    refine ⟨b.1, by rw [hline]; simp, ?_⟩
    simp only [isBlank, Bool.or_eq_false_iff] at hshows
    simp [hindent, hshows]
  have hcomment : lang.lineComments.any (·.isPrefixOf
      (⟨n, source.line n, .plain⟩ : Row).code) = false := by
    rw [List.any_eq_false]
    intro d hd hpre
    have hpre := List.isPrefixOf_iff_prefix.mp hpre
    rw [Row.code, leadLength, drop_length_takeWhile, hline] at hpre
    have hbytes : ∀ y ∈ q.map (·.1), isBlank y = true := by simpa using fun c layer => hblank (c, layer)
    have hpre := prefix_of_prefix_dropWhile (hl.lineComments d hd) hbytes hindent hpre
    refine hnot hd (hpre.trans ?_)
    rw [List.drop_eq_getElem_cons ho, hbyte]
    refine List.cons_prefix_cons.mpr ⟨rfl, (isPrefix_chomp _).trans (List.takeWhile_prefix _)⟩
  rw [Row.opensStatement, hcomment]
  simp [hblankLine]

end Statements

structure Indents (source : Source) (lang : Language) (before : List (UInt8 × Layer))
    (b : UInt8 × Layer) (rest : List (UInt8 × Layer)) (t : Span) : Prop where
  layers_eq : lang.layers source.content 0 = before ++ b :: rest
  leads : isLeading b = false
  shows : isBlank b.1 = false
  fresh : before.foldl freshAfter true = true
  start_eq : t.start = source.positionAt before.length
  ends : ∃ line, source.offsideEnd lang t.start.line (b :: rest) = .ok line ∧
    t.stop = source.endOfLine line

variable {source : Source} {lang : Language} {t t' x y : Span} {d e : Directive}
  {b b' : UInt8 × Layer} {before before' between rest rest' : List (UInt8 × Layer)} {line stop : Nat}

lemma line_positionAt_append (source : Source)
    (h : lang.layers source.content 0 = before ++ between ++ rest) :
    (source.positionAt (before ++ between).length).line =
        (source.positionAt before.length).line + breaks between ∧
      (source.positionAt (before ++ between).length).line ≤ source.lineCount := by
  have hbetween : (source.content.drop before.length).take between.length = between.map (·.1) := by
    rw [List.append_assoc] at h
    rw [← Language.map_fst_of_layers_eq h, List.map_append, List.take_left' (List.length_map _)]
  constructor
  · rw [List.length_append, positionAt_add, hbetween, Position.line_foldl_advance, breaks]
  · obtain ⟨lines, -, -, hp, more, hraw⟩ := source.exists_lines_before (before ++ between).length
    rw [hp, lineCount, hraw]
    simp

lemma Indents.exists_newline (hl : lang.Legible) (hblock : lang.block = none)
    (h : source.Indents lang before b rest t)
    (h' : source.Indents lang (before ++ b :: between) b' rest' t') :
    ∃ p q, b :: between = p ++ (newline, .code) :: q ∧
      lang.layers source.content 0 = before ++ p ++ (newline, .code) :: q ++ b' :: rest' ∧
      (∀ x ∈ q, x.2 = .code ∧ x.1 ≠ newline) ∧ ∀ x ∈ q, isLeading x = true := by
  have hfresh : (b :: between).foldl freshAfter false = true := by
    have hfirst (fresh : Bool) : freshAfter fresh b = freshAfter false b := by
      simp [freshAfter, h.leads]
    have hfresh := h'.fresh
    rwa [List.foldl_append, List.foldl_cons, hfirst] at hfresh
  obtain ⟨p, q, hsplit, hlead, hline⟩ := exists_newline_of_fresh hfresh
  have hlayers := h'.layers_eq
  rw [hsplit] at hlayers
  have hb : b'.2 ≠ .comment := by
    intro hc
    have hleads := h'.leads
    simp [isLeading, hc] at hleads
  have hbehind : lang.layers source.content 0 =
      before ++ p ++ [(newline, .code)] ++ (q ++ b' :: rest') := by
    rw [hlayers]
    simp
  refine ⟨p, q, hsplit, ?_, Language.code_of_leading hl hblock hbehind hb h'.shows hlead hline, hlead⟩
  rw [hlayers]
  simp

lemma Indents.rowsAfter (hl : lang.Legible) (hblock : lang.block = none)
    (h : source.Indents lang before b rest t)
    (h' : source.Indents lang (before ++ b :: between) b' rest' t')
    (hdepth : openBrackets before = 0) (hdepth' : openBrackets (before ++ b :: between) = 0) :
    ∃ pre r, source.rowsAfter t.start.line (b :: rest) =
        pre ++ r :: source.rowsAfter t'.start.line (b' :: rest') ∧
      r.opensStatement lang = true ∧ r.number = t'.start.line ∧
        r.text = source.line t'.start.line := by
  obtain ⟨p, q, hsplit, hlayers, hq, hlead⟩ := h.exists_newline hl hblock h'
  have hrest : b :: rest = p ++ (newline, .code) :: (q ++ b' :: rest') := by
    have heq := h.layers_eq.symm.trans hlayers
    simp only [List.append_assoc, List.cons_append] at heq
    exact List.append_cancel_left heq
  have hblank : ∀ x ∈ q, isBlank x.1 = true := by
    intro x hx
    simpa [isLeading, (hq x hx).1] using hlead x hx
  have hdepthAfter : depthAfter 0 p = 0 := by
    have hopen : openBrackets (before ++ (p ++ (newline, .code) :: q)) =
        depthAfter (openBrackets before) (p ++ (newline, .code) :: q) := depthAfter_append 0 _ _
    rw [hsplit, hopen, hdepth, depthAfter_append, depthAfter_newline,
      depthAfter_of_leading hlead] at hdepth'
    exact hdepth'
  have hstart : t'.start = source.positionAt (before ++ p ++ (newline, .code) :: q).length := by
    rw [h'.start_eq, hsplit, List.append_assoc]
  obtain ⟨hline, hcount⟩ := source.line_positionAt_append (List.append_assoc before p _ ▸ hlayers)
  rw [← List.append_assoc, ← hstart, ← h.start_eq,
    breaks_newline p (fun x hx => (hq x hx).2), ← Nat.add_assoc] at hline
  rw [← List.append_assoc, ← hstart] at hcount
  have hbelow : t.start.line + breaks p < source.lineCount := by omega
  obtain ⟨pre, hpre⟩ := source.exists_rowsFrom_append p ((newline, .code) :: (q ++ b' :: rest'))
    t.start.line 0 hbelow.le
  have hopens := opensStatement_of_layers hl hlayers
    (fun hc => by simpa [isLeading, hc] using h'.leads) h'.shows hq hblank
    (n := t'.start.line) (by rw [hstart])
  refine ⟨pre, _, ?_, hopens, rfl, rfl⟩
  rw [hdepthAfter, source.rowsFrom_newline hbelow, source.rowsFrom_leading hlead
    fun x hx => (hq x hx).2, ← hline] at hpre
  rw [hrest]
  exact hpre

lemma Indents.leads_of_le (hl : lang.Legible) (hi : lang.ByIndentation)
    (h : source.Indents lang before b rest t) (h' : source.Indents lang before' b' rest' t')
    (hdepth : openBrackets before = 0) (hdepth' : openBrackets before' = 0)
    (hle : before.length ≤ before'.length) : t.Leads t' := by
  obtain ⟨line, hend, hstop⟩ := h.ends
  obtain ⟨line', hend', hstop'⟩ := h'.ends
  obtain ⟨between, rfl⟩ :=
    List.prefix_of_prefix_length_le ⟨_, h.layers_eq.symm⟩ ⟨_, h'.layers_eq.symm⟩ hle
  have hrest : b :: rest = between ++ b' :: rest' := by
    have hlayers := h.layers_eq.symm.trans h'.layers_eq
    rw [List.append_assoc] at hlayers
    exact List.append_cancel_left hlayers
  cases between with
  | nil =>
    obtain ⟨rfl, rfl⟩ := List.cons.inj hrest
    rw [List.append_nil] at h'
    have hstart : t'.start = t.start := h'.start_eq.trans h.start_eq.symm
    rw [hstart, hend] at hend'
    obtain rfl := Except.ok.inj hend'
    exact Or.inl ⟨hstart.ge, (hstop'.trans hstop.symm).le⟩
  | cons x between =>
    obtain ⟨rfl, -⟩ := List.cons.inj hrest
    obtain ⟨pre, r, hrows, hopens, hnumber, htext⟩ := h.rowsAfter hl hi.block h' hdepth hdepth'
    have hbelow := below_rowsAfter source t.start.line (b :: rest)
    rw [hrows] at hbelow
    have hblocks := offsideFrom_append hi hopens hbelow (indentWidth (source.line t.start.line))
      (isDecorated (source.line t.start.line))
    rw [← hrows, ← offsideEnd_eq hend, hnumber, htext, ← offsideEnd_eq hend'] at hblocks
    rcases hblocks with hlt | hle
    · refine Or.inr (le_of_lt ?_)
      rw [hstop]
      exact Or.inl hlt
    · refine Or.inl ⟨?_, ?_⟩
      · rw [h.start_eq, h'.start_eq, List.length_append]
        exact source.positionAt_mono (Nat.le_add_right _ _)
      · rw [hstop, hstop']
        rcases hle.lt_or_eq with hlt | heq
        · exact Or.inl hlt
        · rw [heq]

lemma exists_indents_of_mem (hl : lang.Legible) (hstyle : lang.style = .indentation)
    (hd : d ∈ (source.directives lang).1) (htrailing : d.trailing = false)
    (h : source.declarationScope? lang d.anchor = .ok (some x)) :
    ∃ before b rest, source.Indents lang before b rest x := by
  obtain ⟨_, g, stop, hg, hfills, hanchor, hc⟩ := exists_last_comment hl hd
  rw [hanchor] at h
  obtain ⟨b, rest, hdrop, hstart, ⟨hbrace, -⟩ | ⟨-, line, hline, hstop⟩⟩ := exists_of_declarationScope? h
  · rw [hstyle] at hbrace
    cases hbrace
  rw [offsetAt_positionAt (hfills.stop_le_length hg)] at hdrop hstart
  obtain ⟨before, hlayers, hfresh, hlength⟩ :=
    exists_before hl hg hfills (hc ▸ htrailing) hdrop
  rw [← hlength] at hstart
  exact ⟨before, b, rest, hlayers, Language.isLeading_of_dropWhile hdrop,
    Language.shows_of_dropWhile_layers hl hdrop, hfresh, hstart, line, hline, hstop⟩

lemma Indents.offsetAt_start (h : source.Indents lang before b rest t) :
    source.offsetAt t.start = before.length := by
  have hlength := congrArg List.length h.layers_eq
  rw [Language.length_layers, List.length_append, Nat.sub_zero] at hlength
  rw [h.start_eq, offsetAt_positionAt (by omega)]

lemma Indents.take_eq (h : source.Indents lang before b rest t) :
    (lang.layers source.content 0).take (source.offsetAt t.start) = before := by
  rw [h.offsetAt_start, h.layers_eq, List.take_left]

lemma indentedScopes_nested_or_disjoint (hl : lang.Legible) (hi : lang.ByIndentation)
    (hd : d ∈ (source.directives lang).1) (he : e ∈ (source.directives lang).1)
    (hdt : d.trailing = false) (het : e.trailing = false)
    (hx : source.declarationScope? lang d.anchor = .ok (some x))
    (hy : source.declarationScope? lang e.anchor = .ok (some y))
    (hxd : openBrackets ((lang.layers source.content 0).take (source.offsetAt x.start)) = 0)
    (hyd : openBrackets ((lang.layers source.content 0).take (source.offsetAt y.start)) = 0) :
    x.Covers y ∨ y.Covers x ∨ ¬x.Overlaps y := by
  obtain ⟨before, _, _, h⟩ := exists_indents_of_mem hl hi.style hd hdt hx
  obtain ⟨before', _, _, h'⟩ := exists_indents_of_mem hl hi.style he het hy
  rw [h.take_eq] at hxd
  rw [h'.take_eq] at hyd
  rcases Nat.le_total before.length before'.length with hle | hle
  · exact (h.leads_of_le hl hi h' hxd hyd hle).nested_or_disjoint.imp_right Or.inr
  · rcases (h'.leads_of_le hl hi h hyd hxd hle).nested_or_disjoint with hcovers | hdisjoint
    · exact Or.inr (Or.inl hcovers)
    · exact Or.inr (Or.inr (mt And.symm hdisjoint))

end Source

lemma Language.byIndentation_ofTag {tag : Bytes} (h : tag = ascii "python" ∨ tag = ascii "yaml") :
    (ofTag tag).ByIndentation := by
  rcases h with rfl | rfl
  · exact ⟨by decide +kernel, by decide +kernel, by decide +kernel, by decide +kernel⟩
  · exact ⟨by decide +kernel, by decide +kernel, by decide +kernel, by decide +kernel⟩

namespace Scan

variable {tag content : Bytes}

/-- Where only indentation ends a block, declarations that start outside of all brackets do not cross. -/
theorem indented_declarations_nested_or_disjoint (path : Bytes)
    (htag : tag = ascii "python" ∨ tag = ascii "yaml") :
    let source : Source := ⟨content⟩
    let lang := Language.ofTag tag
    let result := scan path tag content
    ∀ d ∈ result.directives, ∀ e ∈ result.directives, d.trailing = false → e.trailing = false →
      ∀ x y, source.declarationScope? lang d.anchor = .ok (some x) →
        source.declarationScope? lang e.anchor = .ok (some y) →
        openBrackets ((lang.layers content 0).take (source.offsetAt x.start)) = 0 →
        openBrackets ((lang.layers content 0).take (source.offsetAt y.start)) = 0 →
        x.Covers y ∨ y.Covers x ∨ ¬x.Overlaps y := by
  intro source lang result d hd e he hdt het x y hx hy hxd hyd
  exact Source.indentedScopes_nested_or_disjoint (Language.legible_ofTag tag)
    (Language.byIndentation_ofTag htag) hd he hdt het hx hy hxd hyd

def decoratedMethod : Bytes :=
  ascii "# @collab owner=core\nclass A:\n    # @collab trust=READ_ONLY\n    @cached\n" ++
    ascii "    def f(self, x=(\n1)):\n\n        return x\n\ny = 2\n"

theorem indented_declarations_nested_or_disjoint_decorated :
    let source : Source := ⟨decoratedMethod⟩
    let lang := Language.ofTag (ascii "python")
    let directives := (scan [] (ascii "python") decoratedMethod).directives
    let x : Span := ⟨⟨2, 1⟩, ⟨8, 17⟩⟩
    let y : Span := ⟨⟨4, 5⟩, ⟨8, 17⟩⟩
    (ascii "python" = ascii "python" ∨ ascii "python" = ascii "yaml") ∧
    openBrackets ((lang.layers decoratedMethod 0).take (source.offsetAt x.start)) = 0 ∧
    openBrackets ((lang.layers decoratedMethod 0).take (source.offsetAt y.start)) = 0 ∧
    ∃ d ∈ directives, ∃ e ∈ directives, d.trailing = false ∧ e.trailing = false ∧
      source.declarationScope? lang d.anchor = .ok (some x) ∧
      source.declarationScope? lang e.anchor = .ok (some y) ∧
      (x.Covers y ∨ y.Covers x ∨ ¬x.Overlaps y) := by
  intro source lang directives x y
  have hx₀ : openBrackets ((lang.layers decoratedMethod 0).take (source.offsetAt x.start)) = 0 := by
    decide +kernel
  have hy₀ : openBrackets ((lang.layers decoratedMethod 0).take (source.offsetAt y.start)) = 0 := by
    decide +kernel
  have hfound : ∃ d ∈ directives, ∃ e ∈ directives, d.trailing = false ∧ e.trailing = false ∧
      source.declarationScope? lang d.anchor = .ok (some x) ∧
      source.declarationScope? lang e.anchor = .ok (some y) := by
    decide +kernel
  obtain ⟨d, hd, e, he, hdt, het, hx, hy⟩ := hfound
  refine ⟨Or.inl rfl, hx₀, hy₀, d, hd, e, he, hdt, het, hx, hy, ?_⟩
  exact indented_declarations_nested_or_disjoint [] (Or.inl rfl) d hd e he hdt het x y hx hy hx₀ hy₀

end Scan

end TrustRegions
