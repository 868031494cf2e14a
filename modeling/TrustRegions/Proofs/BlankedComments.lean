import TrustRegions.Proofs.Anchors
import TrustRegions.Proofs.IdleRows
import TrustRegions.Proofs.LexedPrefixes
import TrustRegions.Proofs.Retexting
import TrustRegions.Proofs.Tiling

/-! An indented scope is the same without the comments on lines of their own: without one its lines are
blank, and the lexer finds the same around it. -/

namespace TrustRegions

def blanked (t : Bytes) : Bytes := t.map fun c => if c = newline then newline else space

def Source.withoutComment (s : Source) (c : Comment) : Source :=
  let start := s.offsetAt c.span.start
  let stop := s.offsetAt c.span.stop
  ⟨s.content.take start ++ (blanked ((s.content.drop start).take (stop - start)) ++ s.content.drop stop)⟩

lemma map_newline_blanked (t : Bytes) : (blanked t).map (· == newline) = t.map (· == newline) := by
  rw [blanked, List.map_map]
  refine List.map_congr_left fun c _ => ?_
  by_cases hc : c = newline
  · simp [hc]
  · simp only [Function.comp_apply, if_neg hc]
    rw [beq_false_of_ne hc]
    rfl

lemma ne_newline_of_isIndent {c : UInt8} (h : isIndent c = true) : c ≠ newline := by
  rintro rfl
  exact absurd h (by decide)

lemma newline_or_indent_of_mem_blanked {b : UInt8} {t : Bytes} (hb : b ∈ blanked t) :
    b = newline ∨ isIndent b = true := by
  obtain ⟨c, -, rfl⟩ := List.mem_map.mp hb
  split
  · exact Or.inl rfl
  · exact Or.inr rfl

lemma isBlank_of_isBlankLine {b : UInt8} {t : Bytes} (h : isBlankLine (Source.chomp t) = true)
    (hb : b ∈ t) : isBlank b = true := by
  have hall {b : UInt8} (hb : b ∈ Source.chomp t) : isBlank b = true := by
    have hblank := List.all_eq_true.mp h b hb
    simp only [isIndent, isBlank, Bool.or_eq_true] at hblank ⊢
    tauto
  rw [Source.chomp] at hall
  split at hall
  · next hlast =>
    obtain ⟨t, rfl⟩ := List.getLast?_eq_some_iff.mp hlast
    rw [List.dropLast_concat] at hall
    rcases List.mem_append.mp hb with hb | hb
    · exact hall hb
    · rw [List.mem_singleton.mp hb]
      rfl
  · exact hall hb

section Rows

variable {lang : Language} {w q t : Bytes} {head W : List (UInt8 × Layer)} {r : Row}

lemma opensStatement_of_comment (hw : w ∈ lang.lineComments) (hword : Bytes.IsWord w)
    (hq : ∀ b ∈ q, isIndent b = true) (hpre : w <+: t) (htext : r.text = Source.chomp (q ++ t)) :
    r.opensStatement lang = false := by
  obtain ⟨t, rfl⟩ := hpre
  obtain ⟨v, b, rfl⟩ := (List.eq_nil_or_concat' w).resolve_left hword.1
  have hb := hword.2 b (by simp)
  have hcode : r.code = v ++ [b] ++ Source.chomp t := by
    have hchomp : Source.chomp (q ++ (v ++ [b] ++ t)) = q ++ (v ++ [b] ++ Source.chomp t) := by
      simpa using Source.chomp_append (Source.ne_of_not_blank hb).2 (q ++ v) t
    obtain ⟨a, u, hu⟩ := List.exists_cons_of_ne_nil hword.1
    have ha : isIndent a = false :=
      Source.not_indent_of_not_blank (hword.2 a (by rw [hu]; exact List.mem_cons_self))
    rw [Row.code, leadLength, drop_length_takeWhile, htext, hchomp, List.dropWhile_append_of_pos hq, hu,
      List.cons_append, List.dropWhile_cons_of_neg (by simp [ha])]
  have hany : lang.lineComments.any (·.isPrefixOf r.code) = true :=
    List.any_eq_true.mpr ⟨_, hw, List.isPrefixOf_iff_prefix.mpr (hcode ▸ List.prefix_append _ _)⟩
  rw [Row.opensStatement, hany, Bool.not_true, Bool.and_false]

lemma lineText_append_of_indent (hhead : ∀ b ∈ head, isIndent b.1 = true) (l : List (UInt8 × Layer)) :
    lineText (head ++ l) = head.map (·.1) ++ lineText l := by
  rw [lineText, List.map_append, List.takeWhile_append_of_pos, lineText]
  intro c hc
  obtain ⟨b, hb, rfl⟩ := List.mem_map.mp hc
  exact decide_eq_true (ne_newline_of_isIndent (hhead b hb))

lemma stretch_of_comment (hw : w ∈ lang.lineComments) (hword : Bytes.IsWord w)
    (hhead : ∀ b ∈ head, b.2 = .code ∧ isIndent b.1 = true) (hleads : ∀ b ∈ W, isLeading b = true)
    (hline : ∀ b ∈ W, b.1 = newline → b.2 = .comment) (hpre : w <+: lineText W) :
    Stretch lang ((newline, .code) :: (head ++ W)) where
  head := rfl
  leads := by
    refine List.forall_mem_cons.mpr ⟨rfl, fun b hb => ?_⟩
    rcases List.mem_append.mp hb with hb | hb
    · exact isLeading_of_indent (hhead b hb)
    · exact hleads b hb
  opens n d r hr := by
    have hindent : ∀ b ∈ head, isIndent b.1 = true := fun b hb => (hhead b hb).2
    rw [rowsBelow_newline] at hr
    rcases List.mem_cons.mp hr with rfl | hr
    · have hbytes : ∀ c ∈ head.map (·.1), isIndent c = true := by
        simpa using fun c layer => hindent (c, layer)
      refine opensStatement_of_comment hw hword hbytes hpre ?_
      rw [lineText_append_of_indent hindent]
    · have hcomment : r.start = .comment := by
        refine comment_of_mem_rowsBelow (fun b hb hn => ?_) hr
        rcases List.mem_append.mp hb with hb | hb
        · exact absurd hn (ne_newline_of_isIndent (hindent b hb))
        · exact hline b hb hn
      simp [Row.opensStatement, hcomment]

lemma stretch_of_blanks (hhead : ∀ b ∈ head, b.2 = .code ∧ isIndent b.1 = true)
    (hq : ∀ b ∈ q, b = newline ∨ isIndent b = true) (ht : newline ∉ t)
    (hblank : isBlankLine (Source.chomp t) = true) :
    Stretch lang ((newline, .code) :: (head ++ (q ++ t).map (·, .code))) where
  head := rfl
  leads := by
    refine List.forall_mem_cons.mpr ⟨rfl, fun b hb => ?_⟩
    rcases List.mem_append.mp hb with hb | hb
    · exact isLeading_of_indent (hhead b hb)
    obtain ⟨c, hc, rfl⟩ := List.mem_map.mp hb
    have hc : isBlank c = true := by
      rcases List.mem_append.mp hc with hc | hc
      · rcases hq c hc with rfl | hindent
        · rfl
        · exact isBlank_of_isIndent hindent
      · exact isBlank_of_isBlankLine hblank hc
    simp [isLeading, hc]
  opens n d r hr := by
    have hU : ∀ b ∈ (newline, Layer.code) :: (head ++ q.map (·, .code)),
        b.1 = newline ∨ isIndent b.1 = true := by
      refine List.forall_mem_cons.mpr ⟨Or.inl rfl, fun b hb => ?_⟩
      rcases List.mem_append.mp hb with hb | hb
      · exact Or.inr (hhead b hb).2
      · obtain ⟨c, hc, rfl⟩ := List.mem_map.mp hb
        exact hq c hc
    have hV : ∀ b ∈ t.map (·, Layer.code), b.1 ≠ newline := by
      intro b hb heq
      obtain ⟨c, hc, rfl⟩ := List.mem_map.mp hb
      exact ht (heq ▸ hc)
    have htext : lineText (t.map (·, Layer.code)) = t := by
      have hbytes : (t.map (·, Layer.code)).map (·.1) = t := by
        rw [List.map_map]
        exact List.map_id _
      rw [lineText, hbytes, List.takeWhile_eq_self_iff]
      exact fun c hc => decide_eq_true fun heq => ht (heq ▸ hc)
    rw [List.map_append, ← List.append_assoc, ← List.cons_append] at hr
    have hrow := isBlankLine_of_mem_rowsBelow hU hV (htext.symm ▸ hblank) hr
    simp [Row.opensStatement, hrow]

end Rows

section Comments

variable {source : Source} {lang : Language} {g : Segment} {c : Comment} {stop o : Nat}

lemma drop_add_lineTail (source : Source) (o : Nat) :
    source.content.drop (o + (source.lineTail o).length) =
      (source.content.drop o).dropWhile (· ≠ newline) := by
  rw [← List.drop_drop, Source.lineTail, drop_length_takeWhile]

lemma endsCode_layers (hl : lang.Legible) (source : Source) (o : Nat) :
    EndsCode (lang.layers source.content (o + (source.lineTail o).length)) := by
  have hdrop := drop_add_lineTail source o
  intro b hb
  generalize o + (source.lineTail o).length = k at hdrop hb
  have hk : k < source.content.length := by
    by_contra hle
    rw [Language.layers_of_length_le (Nat.le_of_not_lt hle)] at hb
    cases hb
  have hhead := List.head?_dropWhile_not (· ≠ newline) (source.content.drop o)
  rw [← hdrop, List.drop_eq_getElem_cons hk, List.head?_cons] at hhead
  have hnewline : source.content[k] = newline := by simpa using hhead
  have hopening : lang.openingAt (Language.startsLine source.content k) (source.content.drop k) =
      .code := by
    rw [List.drop_eq_getElem_cons hk, hnewline]
    exact Language.openingAt_of_blank hl rfl _ _
  rw [Language.layers_of_code (List.getElem?_eq_getElem hk) hopening, List.head?_cons, hnewline] at hb
  exact (Option.some.inj hb).symm

namespace Comment.Fills

lemma exists_tail (h : c.Fills source g stop) : ∃ n, g.stop + n = stop + (source.lineTail stop).length ∧
    ∀ b ∈ (source.content.drop g.stop).take n, b ∈ source.lineTail stop := by
  obtain ⟨k, hk, hle⟩ : ∃ k, g.stop = stop + k ∧ k ≤ (source.lineTail stop).length := by
    rcases h.reaches with heq | ⟨heq, hcr⟩
    · exact ⟨0, heq.symm, Nat.zero_le _⟩
    · obtain ⟨hlt, hget⟩ := List.getElem?_eq_some_iff.mp hcr
      refine ⟨1, heq.symm, ?_⟩
      rw [Source.lineTail, List.drop_eq_getElem_cons hlt, hget, List.takeWhile_cons_of_pos (by decide)]
      exact Nat.le_add_left 1 _
  obtain ⟨n, hn⟩ := Nat.exists_eq_add_of_le hle
  refine ⟨n, by omega, fun b hb => ?_⟩
  obtain ⟨rest, hrest⟩ : source.lineTail stop <+: source.content.drop stop := List.takeWhile_prefix _
  rw [hk, ← List.drop_drop, ← hrest, List.drop_append_of_le_length hle,
    List.take_append_of_le_length (by rw [List.length_drop]; omega)] at hb
  exact List.mem_of_mem_drop (List.mem_of_mem_take hb)

lemma exists_layers (h : c.Fills source g stop) (hl : lang.Legible)
    (hg : g ∈ lang.segments source.content 0)
    (hblank : isBlankLine (Source.chomp (source.lineTail stop)) = true) :
    ∃ W, lang.layers source.content g.start =
        W ++ lang.layers source.content (stop + (source.lineTail stop).length) ∧
      (∀ b ∈ W, isLeading b = true) ∧ ∀ b ∈ W, b.1 = newline → b.2 = .comment := by
  obtain ⟨n, hn, htail⟩ := h.exists_tail
  have hblanks : ∀ b ∈ (source.content.drop g.stop).take n, isBlank b = true := fun b hb =>
    isBlank_of_isBlankLine hblank (htail b hb)
  have hle : g.stop + n ≤ source.content.length :=
    hn ▸ Source.add_lineTail_le (h.stop_le_length hg)
  refine ⟨((source.content.drop g.start).take g.length).map (·, g.kind.layer) ++
    ((source.content.drop g.stop).take n).map (·, .code), ?_, ?_, ?_⟩
  · rw [Language.layers_segment hg, Language.layers_of_blanks hl hle hblanks, hn, List.append_assoc]
  · intro b hb
    rcases List.mem_append.mp hb with hb | hb <;> obtain ⟨x, hx, rfl⟩ := List.mem_map.mp hb
    · simp [isLeading, h.layer]
    · simp [isLeading, hblanks x hx]
  · intro b hb hnewline
    rcases List.mem_append.mp hb with hb | hb <;> obtain ⟨x, hx, rfl⟩ := List.mem_map.mp hb
    · exact h.layer
    · exact absurd (hnewline ▸ htail x hx) (source.newline_notMem_lineTail stop)

section Without

variable (h : c.Fills source g stop) (hg : g ∈ lang.segments source.content 0)

include h

lemma drop_start : source.content.drop g.start =
    (source.content.drop g.start).take (stop - g.start) ++ source.content.drop stop := by
  conv_lhs => rw [← List.take_append_drop (stop - g.start) (source.content.drop g.start),
    List.drop_drop, Nat.add_sub_cancel' h.start_lt.le]

include hg

lemma content_withoutComment : (source.withoutComment c).content =
    source.content.take g.start ++ (blanked ((source.content.drop g.start).take (stop - g.start)) ++
      source.content.drop stop) := by
  have hstop := h.stop_le_length hg
  rw [Source.withoutComment, h.start_eq, h.stop_eq, Source.offsetAt_positionAt hstop,
    Source.offsetAt_positionAt (h.start_lt.le.trans hstop)]

lemma newlines_withoutComment : (source.withoutComment c).content.map (· == newline) =
    source.content.map (· == newline) := by
  rw [h.content_withoutComment hg, List.map_append, List.map_append, map_newline_blanked,
    ← List.map_append, ← h.drop_start, ← List.map_append, List.take_append_drop]

lemma positionAt_withoutComment (o : Nat) :
    (source.withoutComment c).positionAt o = source.positionAt o :=
  Source.positionAt_eq_of_newlines (h.newlines_withoutComment hg) o

lemma length_withoutComment : (source.withoutComment c).content.length = source.content.length := by
  simpa using congrArg List.length (h.newlines_withoutComment hg)

lemma length_take_start : (source.content.take g.start).length = g.start := by
  rw [List.length_take, Nat.min_eq_left (h.start_lt.le.trans (h.stop_le_length hg))]

lemma take_withoutComment (ho : o ≤ g.start) :
    (source.withoutComment c).content.take o = source.content.take o := by
  rw [h.content_withoutComment hg, List.take_append_of_le_length (by rwa [h.length_take_start hg]),
    List.take_take, Nat.min_eq_left ho]

lemma drop_withoutComment (ho : stop ≤ o) :
    (source.withoutComment c).content.drop o = source.content.drop o := by
  have hlength : (source.content.take g.start ++
      blanked ((source.content.drop g.start).take (stop - g.start))).length = stop := by
    have hlt := h.start_lt
    have hstop := h.stop_le_length hg
    rw [List.length_append, h.length_take_start hg, blanked, List.length_map, List.length_take,
      List.length_drop]
    omega
  obtain ⟨k, rfl⟩ := Nat.exists_eq_add_of_le ho
  rw [← List.drop_drop, h.content_withoutComment hg, ← List.append_assoc, List.drop_left' hlength,
    List.drop_drop]

lemma layers_withoutComment (hl : lang.Legible)
    (hblank : isBlankLine (Source.chomp (source.lineTail stop)) = true) :
    lang.layers (source.withoutComment c).content g.start =
      (blanked ((source.content.drop g.start).take (stop - g.start)) ++ source.lineTail stop).map
          (·, .code) ++
        lang.layers source.content (stop + (source.lineTail stop).length) := by
  have hrest : source.content.drop stop =
      source.lineTail stop ++ source.content.drop (stop + (source.lineTail stop).length) := by
    rw [drop_add_lineTail, Source.lineTail, List.takeWhile_append_dropWhile]
  have hdrop : (source.withoutComment c).content.drop g.start =
      blanked ((source.content.drop g.start).take (stop - g.start)) ++ source.lineTail stop ++
        source.content.drop (stop + (source.lineTail stop).length) := by
    rw [h.content_withoutComment hg, List.drop_left' (h.length_take_start hg), hrest, List.append_assoc]
  have hlength : g.start + (blanked ((source.content.drop g.start).take (stop - g.start)) ++
      source.lineTail stop).length = stop + (source.lineTail stop).length := by
    have hlt := h.start_lt
    have hstop := h.stop_le_length hg
    rw [List.length_append, blanked, List.length_map, List.length_take, List.length_drop]
    omega
  have hbytes : ∀ b ∈ blanked ((source.content.drop g.start).take (stop - g.start)) ++
      source.lineTail stop, isBlank b = true := by
    intro b hb
    rcases List.mem_append.mp hb with hb | hb
    · rcases newline_or_indent_of_mem_blanked hb with rfl | hindent
      · rfl
      · exact isBlank_of_isIndent hindent
    · exact isBlank_of_isBlankLine hblank hb
  have hend : stop ≤ stop + (source.lineTail stop).length := Nat.le_add_right _ _
  have hsame : lang.layers (source.withoutComment c).content _ = lang.layers source.content _ :=
    Language.layers_congr (h.drop_withoutComment hg hend)
      (Language.startsLine_of_newlines (h.newlines_withoutComment hg) _)
  have hle := hlength.trans_le
    ((Source.add_lineTail_le (h.stop_le_length hg)).trans (h.length_withoutComment hg).ge)
  generalize blanked ((source.content.drop g.start).take (stop - g.start)) ++ source.lineTail stop = t
    at hdrop hlength hbytes hle ⊢
  have htake : ((source.withoutComment c).content.drop g.start).take t.length = t := by
    rw [hdrop, List.take_left]
  rw [Language.layers_of_blanks hl hle (htake.symm ▸ hbytes), htake, hlength, hsame]

end Without

end Comment.Fills

end Comments

section Ahead

variable {lines head T X Y : List (UInt8 × Layer)}

lemma exists_line_end (hlast : ∀ b ∈ lines.getLast?, b = (newline, .code))
    (hhead : ∀ b ∈ head, isLeading b = true) (hX : X <:+ lines ++ head)
    (hfirst : ∃ b ∈ X.head?, isLeading b = false) : ∃ X₀, X = X₀ ++ (newline, .code) :: head := by
  obtain ⟨b, hb, hshows⟩ := hfirst
  have hnot : ¬X <:+ head := by
    intro hsuffix
    have hlead := hhead b (hsuffix.subset (List.mem_of_mem_head? hb))
    rw [hshows] at hlead
    cases hlead
  obtain ⟨X, rfl⟩ :=
    (List.suffix_or_suffix_of_suffix hX (List.suffix_append lines head)).resolve_left hnot
  obtain ⟨before, hbefore⟩ := hX
  rw [← List.append_assoc] at hbefore
  obtain rfl := List.append_cancel_right hbefore
  rcases List.eq_nil_or_concat' X with rfl | ⟨X, x, rfl⟩
  · exact absurd (List.suffix_refl head) hnot
  · rw [hlast x (by simp)]
    exact ⟨X, by simp⟩

lemma exists_dropWhile_append (hlast : ∀ b ∈ lines.getLast?, b = (newline, .code))
    (hhead : ∀ b ∈ head, isLeading b = true) (hT : T <:+ lines ++ head)
    (hlt : ((T ++ Y).takeWhile isLeading).length < T.length) :
    ∃ X, ∀ Y, (T ++ Y).dropWhile isLeading = X ++ ((newline, .code) :: (head ++ Y)) := by
  have hne : T.dropWhile isLeading ≠ [] := by
    intro hnil
    rw [List.takeWhile_append_of_pos (List.dropWhile_eq_nil_iff.mp hnil), List.length_append] at hlt
    omega
  obtain ⟨b, rest, hrest⟩ := List.exists_cons_of_ne_nil hne
  have hfirst : ∃ b ∈ (T.dropWhile isLeading).head?, isLeading b = false :=
    ⟨b, by rw [hrest]; rfl, Language.isLeading_of_dropWhile hrest⟩
  obtain ⟨X, hX⟩ := exists_line_end hlast hhead ((List.dropWhile_suffix _).trans hT) hfirst
  refine ⟨X, fun Y => ?_⟩
  rw [List.dropWhile_append, if_neg (mt List.isEmpty_iff.mp hne), hX, List.append_assoc,
    List.cons_append]

end Ahead

namespace Source

variable {source : Source} {lang : Language} {g s : Segment} {c : Comment} {d : Directive} {stop : Nat}
  {l : List (UInt8 × Layer)} {w : Bytes}

lemma declaredAt?_of_indentation (hstyle : lang.style = .indentation) (hl : l ≠ []) (source : Source)
    (o : Nat) : source.declaredAt? lang o l =
      (source.offsideEnd lang (source.positionAt o).line l).map fun line =>
        some ⟨source.positionAt o, source.endOfLine line⟩ := by
  cases l with
  | nil => exact absurd rfl hl
  | cons b l => rw [declaredAt?, if_neg (by rw [hstyle]; decide)]

lemma exists_delimited (hl : lang.Legible) (hc : c ∈ source.comments lang) :
    ∃ g ∈ lang.segments source.content 0, ∃ stop, c.Fills source g stop ∧
      c.delimiter <+: source.content.drop g.start := by
  obtain ⟨g, hg, hgc⟩ := List.mem_filterMap.mp hc
  obtain ⟨stop, h⟩ := Comment.exists_fills hl hg hgc
  refine ⟨g, hg, stop, h, ?_⟩
  rw [Comment.ofSegment?] at hgc
  split at hgc
  · next style delimiter body hkind =>
    obtain rfl := Option.some.inj hgc
    exact (Language.holdsComment_of_mem hg _ _ _ hkind).1
  · cases hgc

lemma word_prefix_lineTail {o : Nat} (hw : Bytes.IsWord w) (h : w <+: source.content.drop o) :
    w <+: source.lineTail o := by
  obtain ⟨rest, hrest⟩ := h
  rw [lineTail, ← hrest, hw.takeWhile_append]
  exact List.prefix_append _ _

section

variable (hl : lang.Legible) (hstyle : lang.style = .indentation) (hchar : lang.charLiterals = false)
  (hg : g ∈ lang.segments source.content 0) (h : c.Fills source g stop) (hc : c.trailing = false)
  (hw : w ∈ lang.lineComments) (hpre : w <+: source.content.drop g.start)
  (hblank : isBlankLine (chomp (source.lineTail stop)) = true)

include h hl hg hc in
lemma endsBlank_take (hpos : 0 < g.start) : Bytes.EndsBlank (source.content.take g.start) := by
  obtain ⟨lines, head, hsplit, hlast, hhead⟩ := h.exists_line_before hl hg hc
  have hbytes : source.content.take g.start = (lines ++ head).map (·.1) := by
    rw [← hsplit, List.map_take, Language.map_fst_layers, List.drop_zero]
  have hne : lines ++ head ≠ [] := by
    intro hnil
    have hlength := h.length_take_start hg
    rw [hbytes, hnil, List.map_nil, List.length_nil] at hlength
    omega
  obtain ⟨before, b, hb⟩ := (List.eq_nil_or_concat' _).resolve_left hne
  refine ⟨b.1, by simp [hbytes, hb], ?_⟩
  rcases List.eq_nil_or_concat' head with rfl | ⟨head, x, rfl⟩
  · rw [hlast b (by simpa using congrArg List.getLast? hb)]
    rfl
  · obtain rfl : x = b := by simpa using congrArg List.getLast? hb
    exact isBlank_of_isIndent (hhead x (by simp)).2

include hl hchar hg h hc in
lemma exists_ahead (hs : s ∈ lang.segments source.content 0) (hle : s.stop ≤ g.start)
    (hpos : 0 < g.start) :
    ∃ T, lang.layers source.content s.stop = T ++ lang.layers source.content g.start ∧
      lang.layers (source.withoutComment c).content s.stop =
        T ++ lang.layers (source.withoutComment c).content g.start := by
  have hshows : ∃ b, (source.content.drop g.start).head? = some b ∧ isBlank b = false := by
    obtain ⟨b, hb, hshows⟩ := h.shows
    exact ⟨b, by rw [List.head?_drop, hb], hshows⟩
  have hmem := Language.mem_segments_stop hs hg hle
  have hstart := h.length_take_start hg
  rw [← List.take_append_drop g.start source.content] at hmem
  have hsame := Language.layers_append hl hchar (endsBlank_take hl hg h hc hpos) hshows
    (blanked ((source.content.drop g.start).take (stop - g.start)) ++ source.content.drop stop) hmem
    hstart.symm
  rwa [List.take_append_drop, hstart, ← h.content_withoutComment hg] at hsame

include hl hchar hg h hc in
lemma exists_line_ahead (hs : s ∈ lang.segments source.content 0)
    (hbelow : source.declarationStart lang s.stop < g.start) :
    ∃ X head, (∀ b ∈ head, b.2 = .code ∧ isIndent b.1 = true) ∧
      (lang.layers source.content s.stop).dropWhile isLeading =
        X ++ ((newline, .code) :: (head ++ lang.layers source.content g.start)) ∧
      (lang.layers (source.withoutComment c).content s.stop).dropWhile isLeading =
        X ++ ((newline, .code) :: (head ++ lang.layers (source.withoutComment c).content g.start)) := by
  have hle : s.stop ≤ g.start := (Nat.le_add_right _ _).trans hbelow.le
  obtain ⟨lines, head, hsplit, hlast, hhead⟩ := h.exists_line_before hl hg hc
  obtain ⟨T, hT, hT'⟩ := exists_ahead hl hchar hg h hc hs hle (Nat.zero_lt_of_lt hbelow)
  have hlines : T = (lines ++ head).drop s.stop := by
    have hwhole : lang.layers source.content 0 =
        lines ++ head ++ lang.layers source.content g.start := by
      rw [← hsplit, Language.layers_start hg, Nat.sub_zero, List.take_append_drop]
    have hlength := congrArg List.length hsplit
    rw [List.length_take, Language.length_layers, Nat.sub_zero,
      Nat.min_eq_left (h.start_lt.le.trans (h.stop_le_length hg))] at hlength
    have hlayers := Language.layers_stop hs
    rw [hT, hwhole, Nat.sub_zero, List.drop_append_of_le_length (hlength ▸ hle)] at hlayers
    exact List.append_cancel_right hlayers
  have hshort : ((T ++ lang.layers source.content g.start).takeWhile isLeading).length < T.length := by
    have hlength := congrArg List.length hT
    have hend := (h.start_lt.le.trans (h.stop_le_length hg))
    rw [List.length_append, Language.length_layers, Language.length_layers] at hlength
    rw [declarationStart, hT] at hbelow
    omega
  obtain ⟨X, hX⟩ := exists_dropWhile_append hlast (fun b hb => isLeading_of_indent (hhead b hb))
    (hlines ▸ List.drop_suffix _ _) hshort
  exact ⟨X, head, hhead, hT ▸ hX _, hT' ▸ hX _⟩

include hl h hg hw hpre hblank in
lemma exists_lines :
    ∃ W W' Y, lang.layers source.content g.start = W ++ Y ∧
      lang.layers (source.withoutComment c).content g.start = W' ++ Y ∧ EndsCode Y ∧
      ∀ head, (∀ b ∈ head, b.2 = .code ∧ isIndent b.1 = true) →
        Stretch lang ((newline, .code) :: (head ++ W)) ∧
          Stretch lang ((newline, .code) :: (head ++ W')) := by
  obtain ⟨W, hW, hleads, hline⟩ := h.exists_layers hl hg hblank
  have hY := endsCode_layers hl source stop
  have hword := hl.lineComments w hw
  have hcomment : w <+: lineText W := by
    rw [← lineText_append hY.endsLine, ← hW, lineText, Language.map_fst_layers]
    exact word_prefix_lineTail hword hpre
  refine ⟨W, _, _, hW, h.layers_withoutComment hg hl hblank, hY, fun head hhead => ⟨?_, ?_⟩⟩
  · exact stretch_of_comment hw hword hhead hleads hline hcomment
  · exact stretch_of_blanks hhead (fun _ => newline_or_indent_of_mem_blanked)
      (source.newline_notMem_lineTail stop) hblank

lemma breaks_eq_of_newlines {l l' : List (UInt8 × Layer)}
    (h : l'.map (·.1 == newline) = l.map (·.1 == newline)) : breaks l' = breaks l := by
  have hcount (l : List (UInt8 × Layer)) : breaks l = (l.map (·.1 == newline)).count true := by
    rw [breaks, List.count, List.countP_map, List.count, List.countP_map]
    exact List.countP_congr fun b _ => by simp
  rw [hcount, hcount, h]

include hl hchar hg h hc hw hpre hblank in
lemma exists_stretch (hs : s ∈ lang.segments source.content 0)
    (hbelow : source.declarationStart lang s.stop < g.start) :
    ∃ X V V' Y, Stretch lang V ∧ Stretch lang V' ∧ EndsCode Y ∧
      V'.map (·.1 == newline) = V.map (·.1 == newline) ∧
      (lang.layers source.content s.stop).dropWhile isLeading = X ++ (V ++ Y) ∧
      (lang.layers (source.withoutComment c).content s.stop).dropWhile isLeading = X ++ (V' ++ Y) := by
  obtain ⟨X, head, hhead, hX, hX'⟩ := exists_line_ahead hl hchar hg h hc hs hbelow
  obtain ⟨W, W', Y, hW, hW', hY, hstretch⟩ := exists_lines hl hg h hw hpre hblank
  obtain ⟨hV, hV'⟩ := hstretch head hhead
  refine ⟨X, _, _, Y, hV, hV', hY, ?_, ?_, ?_⟩
  · have hnewlines {s : Source} {l : List (UInt8 × Layer)}
        (hl : lang.layers s.content g.start = l) :
        l.map (·.1 == newline) = (s.content.map (· == newline)).drop g.start := by
      rw [← hl, ← List.map_drop, ← Language.map_fst_layers lang, List.map_map]
      rfl
    have hrest := (hnewlines hW').trans (h.newlines_withoutComment hg ▸ (hnewlines hW).symm)
    rw [List.map_append, List.map_append] at hrest
    simp only [List.map_cons, List.map_append, List.append_cancel_right hrest]
  · rw [hX, hW, List.cons_append, List.append_assoc]
  · rw [hX', hW', List.cons_append, List.append_assoc]

include hg h in
lemma line_withoutComment {o : Nat} (ho : o ≤ g.start)
    (htail : (source.withoutComment c).lineTail o = source.lineTail o) :
    (source.withoutComment c).line (source.positionAt o).line = source.line (source.positionAt o).line := by
  rw [← h.positionAt_withoutComment hg, line_positionAt, h.positionAt_withoutComment hg, line_positionAt,
    htail, lineHead, lineHead, h.take_withoutComment hg ho]

include hl hstyle hchar hg h hc hw hpre hblank in
lemma declarationScope?_behind (hs : s ∈ lang.segments source.content 0)
    (hbelow : source.declarationStart lang s.stop < g.start) :
    (source.withoutComment c).declarationScope? lang (source.positionAt s.stop) =
      source.declarationScope? lang (source.positionAt s.stop) := by
  have hlength := h.length_withoutComment hg
  have hstop := Language.stop_le_length hs
  obtain ⟨X, V, V', Y, hV, hV', hY, hnewlines, hX, hX'⟩ :=
    exists_stretch hl hchar hg h hc hw hpre hblank hs hbelow
  have hstart : (source.withoutComment c).declarationStart lang s.stop =
      source.declarationStart lang s.stop := by
    have hsame : V'.length = V.length := by simpa using congrArg List.length hnewlines
    rw [declarationStart_eq hstop, declarationStart_eq (hlength ▸ hstop), hX, hX', hlength]
    simp only [List.length_append, hsame]
  have hbytes := map_fst_dropWhile_layers source lang s.stop
  have hbytes' := map_fst_dropWhile_layers (source.withoutComment c) lang s.stop
  rw [hX] at hbytes
  rw [hstart, hX'] at hbytes'
  have htail : (source.withoutComment c).lineTail (source.declarationStart lang s.stop) =
      source.lineTail (source.declarationStart lang s.stop) := by
    rw [lineTail, lineTail, ← hbytes, ← hbytes']
    exact (lineText_append (hV'.endsLine _)).trans (lineText_append (hV.endsLine _)).symm
  obtain ⟨hsame, hlines⟩ := offsideEnd_of_stretch hV hV' hY (breaks_eq_of_newlines hnewlines) rfl
    (congrArg Position.line (h.positionAt_withoutComment hg _).symm) hbytes hbytes'
    (line_withoutComment hg h hbelow.le htail)
  have hne {V : List (UInt8 × Layer)} (hV : Stretch lang V) : X ++ (V ++ Y) ≠ [] := by
    intro hnil
    rw [(List.append_eq_nil_iff.mp (List.append_eq_nil_iff.mp hnil).2).1] at hV
    exact absurd hV.head (by simp)
  rw [← h.positionAt_withoutComment hg, declarationScope?_eq (hlength ▸ hstop),
    h.positionAt_withoutComment hg, declarationScope?_eq hstop, hstart, hX, hX',
    declaredAt?_of_indentation hstyle (hne hV'), declaredAt?_of_indentation hstyle (hne hV),
    h.positionAt_withoutComment hg, hsame]
  cases hend : source.offsideEnd lang (source.positionAt (source.declarationStart lang s.stop)).line
      (X ++ (V ++ Y)) with
  | error => rfl
  | ok line => simp only [Except.map, endOfLine, hlines line hend]

include hl hstyle hchar hg h hc hw hpre hblank in
lemma declarationScope?_withoutComment (hd : d ∈ (source.directives lang).1)
    (hbelow : source.declarationStart lang (source.offsetAt d.anchor) < g.start) :
    (source.withoutComment c).declarationScope? lang d.anchor =
      source.declarationScope? lang d.anchor := by
  obtain ⟨_, s, k, hs, hfills, hanchor, -⟩ := exists_last_comment hl hd
  have hk := hfills.stop_le_length hs
  have hstop := Language.stop_le_length hs
  have hlength := h.length_withoutComment hg
  obtain ⟨n, hn, hblanks⟩ := hfills.exists_blanks
  have hahead := dropWhile_layers_of_blanks hl (hn.trans_le hstop) hblanks
  rw [hanchor, offsetAt_positionAt hk, declarationStart_eq hk, hahead, hn, ← declarationStart_eq hstop]
    at hbelow
  have hle : s.stop ≤ g.start := (Nat.le_add_right _ _).trans hbelow.le
  have hblanks' : ∀ b ∈ ((source.withoutComment c).content.drop k).take n, isBlank b = true := by
    rwa [List.take_drop, hn, h.take_withoutComment hg hle, ← hn, ← List.take_drop]
  have hahead' := dropWhile_layers_of_blanks hl (hn.trans_le (hlength ▸ hstop)) hblanks'
  rw [hn] at hahead hahead'
  have hsame := declarationScope?_congr (hlength ▸ hk) (hlength ▸ hstop) hahead'
  rw [h.positionAt_withoutComment hg, h.positionAt_withoutComment hg] at hsame
  rw [hanchor, hsame, declarationScope?_congr hk hstop hahead]
  exact declarationScope?_behind hl hstyle hchar hg h hc hw hpre hblank hs hbelow

end

end Source

namespace Scan

variable {tag content : Bytes}

/-- A comment on lines of its own never ends an indented declaration that starts before it, if a line
comment could open as it does. -/
theorem comments_never_end_scope (path : Bytes) (hstyle : (Language.ofTag tag).style = .indentation) :
    let source : Source := ⟨content⟩
    let lang := Language.ofTag tag
    ∀ d ∈ (scan path tag content).directives, ∀ c ∈ source.comments lang,
      source.declarationStart lang (source.offsetAt d.anchor) < source.offsetAt c.span.start →
      c.trailing = false → (∃ w ∈ lang.lineComments, w <+: c.delimiter) →
      isBlankLine (Source.chomp (source.lineTail (source.offsetAt c.span.stop))) = true →
      (source.withoutComment c).declarationScope? lang d.anchor =
        source.declarationScope? lang d.anchor := by
  rintro source lang d hd c hc hbelow htrailing ⟨w, hw, hwc⟩ hblank
  have hl : lang.Legible := Language.legible_ofTag tag
  have hchar : lang.charLiterals = false :=
    (by decide +kernel : ∀ l ∈ Language.generic :: Language.known,
      l.style = .indentation → l.charLiterals = false) _ (Language.ofTag_mem tag) hstyle
  obtain ⟨g, hg, stop, h, hpre⟩ := Source.exists_delimited hl hc
  have hstop := h.stop_le_length hg
  rw [h.start_eq, Source.offsetAt_positionAt (h.start_lt.le.trans hstop)] at hbelow
  rw [h.stop_eq, Source.offsetAt_positionAt hstop] at hblank
  exact Source.declarationScope?_withoutComment hl hstyle hchar hg h htrailing hw (hwc.trans hpre) hblank
    hd hbelow

def commentedBody : Bytes :=
  ascii "-- @collab owner=core\nfunction f()\n--[[ one\n  two ]] \n  g()\nend\n"

theorem comments_never_end_scope_body :
    let source : Source := ⟨commentedBody⟩
    let lang := Language.ofTag (ascii "lua")
    lang.style = .indentation ∧
    ∃ d ∈ (scan [] (ascii "lua") commentedBody).directives, ∃ c ∈ source.comments lang,
      d.anchor = ⟨1, 22⟩ ∧ c.span = ⟨⟨3, 1⟩, ⟨4, 9⟩⟩ ∧
      source.declarationStart lang (source.offsetAt d.anchor) < source.offsetAt c.span.start ∧
      c.trailing = false ∧ (∃ w ∈ lang.lineComments, w <+: c.delimiter) ∧
      isBlankLine (Source.chomp (source.lineTail (source.offsetAt c.span.stop))) = true ∧
      (source.withoutComment c).declarationScope? lang d.anchor =
        source.declarationScope? lang d.anchor ∧
      source.declarationScope? lang d.anchor = .ok (some ⟨⟨2, 1⟩, ⟨6, 4⟩⟩) := by
  intro source lang
  have hstyle : lang.style = .indentation := by decide +kernel
  obtain ⟨d, hd, c, hc, hanchor, hspan, hbelow, htrailing, hw, hblank, hscope⟩ :
      ∃ d ∈ (scan [] (ascii "lua") commentedBody).directives, ∃ c ∈ source.comments lang,
        d.anchor = ⟨1, 22⟩ ∧ c.span = ⟨⟨3, 1⟩, ⟨4, 9⟩⟩ ∧
        source.declarationStart lang (source.offsetAt d.anchor) < source.offsetAt c.span.start ∧
        c.trailing = false ∧ (∃ w ∈ lang.lineComments, w <+: c.delimiter) ∧
        isBlankLine (Source.chomp (source.lineTail (source.offsetAt c.span.stop))) = true ∧
        source.declarationScope? lang d.anchor = .ok (some ⟨⟨2, 1⟩, ⟨6, 4⟩⟩) := by
    decide +kernel
  have hsame := comments_never_end_scope [] hstyle d hd c hc hbelow htrailing hw hblank
  exact ⟨hstyle, d, hd, c, hc, hanchor, hspan, hbelow, htrailing, hw, hblank, hsame, hscope⟩

end Scan

end TrustRegions
