import TrustRegions.Proofs.Provenance

/-! What a directive stands above is told by the layers of the whole content behind its anchor. So
directives with only comments and blanks between their anchors stand above the same declaration. -/

namespace TrustRegions

lemma dropWhile_drop_eq {α : Type} {p : α → Bool} {l : List α} {o o' : Nat} (hle : o ≤ o')
    (h : ∀ k x, l[k]? = some x → o ≤ k → k < o' → p x = true) :
    (l.drop o).dropWhile p = (l.drop o').dropWhile p := by
  obtain ⟨n, rfl⟩ := Nat.exists_eq_add_of_le hle
  rw [← List.take_append_drop n (l.drop o), List.drop_drop, List.dropWhile_append_of_pos]
  intro x hx
  obtain ⟨i, hi⟩ := List.mem_iff_getElem?.mp hx
  have hlt : i < n := by
    have := (List.getElem?_eq_some_iff.mp hi).1
    rw [List.length_take] at this
    omega
  rw [List.getElem?_take_of_lt hlt, List.getElem?_drop] at hi
  exact h (o + i) x hi (Nat.le_add_right o i) (by omega)

namespace Source

def declaredAt? (s : Source) (lang : Language) (offset : Nat) :
    List (UInt8 × Layer) → Except ScopeFault (Option Span)
  | [] => .ok none
  | b :: rest =>
    let start := s.positionAt offset
    if lang.style = .brace then
      if b.1 = closeBrace ∨ b.1 = byte ')' ∨ b.1 = byte ']' then .ok none
      else (lang.bracedEnd start.line offset (b :: rest)).map fun stop => some ⟨start, s.positionAt stop⟩
    else (s.offsideEnd lang start.line (b :: rest)).map fun line => some ⟨start, s.endOfLine line⟩

variable {source : Source} {lang : Language} {g : Segment} {c : Comment} {o o' n stop : Nat}
  {d e : Directive}

lemma declarationStart_eq (ho : o ≤ source.content.length) :
    source.declarationStart lang o =
      source.content.length - ((lang.layers source.content o).dropWhile isLeading).length := by
  have hlength := congrArg List.length
    (List.takeWhile_append_dropWhile (p := isLeading) (l := lang.layers source.content o))
  rw [List.length_append, Language.length_layers] at hlength
  rw [declarationStart]
  omega

lemma map_fst_dropWhile_layers (source : Source) (lang : Language) (o : Nat) :
    ((lang.layers source.content o).dropWhile isLeading).map (·.1) =
      source.content.drop (source.declarationStart lang o) := by
  rw [← drop_length_takeWhile, List.map_drop, Language.map_fst_layers, List.drop_drop, declarationStart]

lemma declarationScope?_eq (ho : o ≤ source.content.length) :
    source.declarationScope? lang (source.positionAt o) =
      if lang.style = .explicit then .ok none
      else source.declaredAt? lang (source.declarationStart lang o)
        ((lang.layers source.content o).dropWhile isLeading) := by
  rw [declarationScope?, offsetAt_positionAt ho, declarationStart]
  dsimp only
  generalize (lang.layers source.content o).dropWhile isLeading = layers
  split
  · rfl
  · cases layers <;> rfl

lemma declarationScope?_congr (ho : o ≤ source.content.length) (ho' : o' ≤ source.content.length)
    (h : (lang.layers source.content o).dropWhile isLeading =
      (lang.layers source.content o').dropWhile isLeading) :
    source.declarationScope? lang (source.positionAt o) =
      source.declarationScope? lang (source.positionAt o') := by
  rw [declarationScope?_eq ho, declarationScope?_eq ho', declarationStart_eq ho,
    declarationStart_eq ho', h]

lemma dropWhile_layers_of_blanks (hl : lang.Legible) (hn : o + n ≤ source.content.length)
    (h : ∀ b ∈ (source.content.drop o).take n, isBlank b = true) :
    (lang.layers source.content o).dropWhile isLeading =
      (lang.layers source.content (o + n)).dropWhile isLeading := by
  rw [Language.layers_of_blanks hl hn h, List.dropWhile_append_of_pos]
  rintro x hx
  obtain ⟨b, hb, rfl⟩ := List.mem_map.mp hx
  simp [isLeading, h b hb]

lemma dropWhile_layers_stop (hl : lang.Legible) (hg : g ∈ lang.segments source.content 0)
    (h : c.Fills source g stop) :
    (lang.layers source.content stop).dropWhile isLeading =
      ((lang.layers source.content 0).drop stop).dropWhile isLeading := by
  obtain ⟨n, hn, hblank⟩ := h.exists_blanks
  have hle := Language.stop_le_length hg
  rw [dropWhile_layers_of_blanks hl (by omega) hblank, hn, Language.layers_stop hg, Nat.sub_zero,
    dropWhile_drop_eq h.stop_le]
  intro k x hx hk hlt
  have hlayer := Language.layer_of_mem hg (h.start_lt.le.trans hk) hlt hx
  simp [isLeading, hlayer, h.layer]

def OnlyLeading (source : Source) (lang : Language) (o o' : Nat) : Prop :=
  ∀ k x, (lang.layers source.content 0)[k]? = some x → o ≤ k → k < o' →
    x.2 = .comment ∨ x.2 = .code ∧ isBlank x.1 = true

lemma declarationScope?_of_onlyLeading (hl : lang.Legible) (hd : d ∈ (source.directives lang).1)
    (he : e ∈ (source.directives lang).1) (hle : source.offsetAt d.anchor ≤ source.offsetAt e.anchor)
    (h : source.OnlyLeading lang (source.offsetAt d.anchor) (source.offsetAt e.anchor)) :
    source.declarationScope? lang d.anchor = source.declarationScope? lang e.anchor := by
  obtain ⟨_, g, stop, hg, hfills, hanchor, -⟩ := exists_last_comment hl hd
  obtain ⟨_, g', stop', hg', hfills', hanchor', -⟩ := exists_last_comment hl he
  have hstop := hfills.stop_le_length hg
  have hstop' := hfills'.stop_le_length hg'
  rw [hanchor, hanchor', offsetAt_positionAt hstop, offsetAt_positionAt hstop'] at h hle
  rw [hanchor, hanchor']
  refine declarationScope?_congr hstop hstop' ?_
  rw [dropWhile_layers_stop hl hg hfills, dropWhile_layers_stop hl hg' hfills',
    dropWhile_drop_eq hle]
  intro k x hx hk hlt
  rcases h k x hx hk hlt with hc | ⟨hc, hb⟩
  · simp [isLeading, hc]
  · simp [isLeading, hc, hb]

end Source

namespace Scan

variable {tag content : Bytes}

/-- Directives with nothing but comments and blanks between their anchors stand above the same code. -/
theorem stacked_directives_agree (path : Bytes) :
    let source : Source := ⟨content⟩
    let lang := Language.ofTag tag
    let result := scan path tag content
    ∀ d ∈ result.directives, ∀ e ∈ result.directives,
      source.OnlyLeading lang (min (source.offsetAt d.anchor) (source.offsetAt e.anchor))
        (max (source.offsetAt d.anchor) (source.offsetAt e.anchor)) →
      source.declarationScope? lang d.anchor = source.declarationScope? lang e.anchor := by
  intro source lang result d hd e he h
  have hl : lang.Legible := Language.legible_ofTag tag
  rcases Nat.le_total (source.offsetAt d.anchor) (source.offsetAt e.anchor) with hle | hle
  · rw [Nat.min_eq_left hle, Nat.max_eq_right hle] at h
    exact Source.declarationScope?_of_onlyLeading hl hd he hle h
  · rw [Nat.min_eq_right hle, Nat.max_eq_left hle] at h
    exact (Source.declarationScope?_of_onlyLeading hl he hd hle h).symm

def stackedDirectives : Bytes :=
  ascii "// @collab owner=core\r\n\n/* note */ // that\n// @collab trust=READ_ONLY\nf(x) \x7b\n\x7d\n"

theorem stacked_directives_agree_note :
    let source : Source := ⟨stackedDirectives⟩
    let lang := Language.ofTag (ascii "cpp")
    let directives := (scan [] (ascii "cpp") stackedDirectives).directives
    source.OnlyLeading lang 21 69 ∧
    ∃ d ∈ directives, ∃ e ∈ directives, d.anchor = ⟨1, 22⟩ ∧ e.anchor = ⟨4, 27⟩ ∧
      source.offsetAt d.anchor = 21 ∧ source.offsetAt e.anchor = 69 ∧
      source.declarationScope? lang d.anchor = source.declarationScope? lang e.anchor ∧
      source.declarationScope? lang e.anchor = .ok (some ⟨⟨5, 1⟩, ⟨6, 2⟩⟩) := by
  intro source lang directives
  have hbetween : source.OnlyLeading lang 21 69 := by
    have hall : ∀ x ∈ ((lang.layers source.content 0).take 69).drop 21,
        x.2 = .comment ∨ x.2 = .code ∧ isBlank x.1 = true := by
      decide +kernel
    intro k x hx hk hlt
    refine hall x (List.mem_of_getElem? (i := k - 21) ?_)
    rw [List.getElem?_drop, Nat.add_sub_cancel' hk, List.getElem?_take_of_lt hlt, hx]
  obtain ⟨d, hd, e, he, hda, hea, hdo, heo, hscope⟩ :
      ∃ d ∈ directives, ∃ e ∈ directives, d.anchor = ⟨1, 22⟩ ∧ e.anchor = ⟨4, 27⟩ ∧
        source.offsetAt d.anchor = 21 ∧ source.offsetAt e.anchor = 69 ∧
        source.declarationScope? lang e.anchor = .ok (some ⟨⟨5, 1⟩, ⟨6, 2⟩⟩) := by
    decide +kernel
  have hsame := stacked_directives_agree [] d hd e he (by rw [hdo, heo]; exact hbetween)
  exact ⟨hbetween, d, hd, e, he, hda, hea, hdo, heo, hsame, hscope⟩

end Scan

end TrustRegions
