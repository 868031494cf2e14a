import TrustRegions.Proofs.Extents
import TrustRegions.Proofs.LexedLineEndings

/-! The declaration after a comment is the same with either kind of line endings. A walk along it sees a
carriage return as part of the code, string or comment around, and that changes nothing for it. -/

namespace TrustRegions

open Bytes

inductive Widened (lang : Language) : Layer → List (UInt8 × Layer) → List (UInt8 × Layer) → Prop
  | nil {p : Layer} : Widened lang p [] []
  | byte {p : Layer} {b : UInt8 × Layer} {l l' : List (UInt8 × Layer)} : b.1 ≠ newline →
      Widened lang b.2 l l' → Widened lang p (b :: l) (b :: l')
  | newline {p x y : Layer} {l l' : List (UInt8 × Layer)} :
      x = y ∨ y = .code ∧ x = p ∧ (p = .string → lang.style ≠ .brace) →
      (y = .string → p = .string) → Widened lang y l l' →
      Widened lang p ((newline, y) :: l) ((carriageReturn, x) :: (newline, y) :: l')

section Layers

variable {lang : Language} {content t : Bytes} {o : Nat} {p y : Layer}
  {l l' rest : List (UInt8 × Layer)} {b : UInt8 × Layer}

lemma widened_map (hp : t = [] → p = y) (hy : y = .string → p = .string ∨ t.head? ≠ some newline)
    (h : Widened lang y l l') :
    Widened lang p (t.map (·, y) ++ l) ((crlf t).map (·, y) ++ l') := by
  induction t generalizing p with
  | nil => exact hp rfl ▸ h
  | cons c t ih =>
    have hrest := ih (p := y) (fun _ => rfl) Or.inl
    by_cases hc : c = newline
    · subst hc
      exact .newline (Or.inl rfl) (fun hs => (hy hs).resolve_right (by simp)) hrest
    · rw [crlf_cons hc]
      exact .byte hc hrest

lemma Segment.Kind.layer_crlf (kind : Segment.Kind) (t : Bytes) :
    (kind.crlf t).layer = kind.layer := by
  cases kind <;> rfl

namespace Language

structure WidensFrom (lang : Language) (content : Bytes) (o : Nat) : Prop where
  before : ∀ p, Widened lang p (lang.layers content o)
    (lang.layers (crlf content) (content.crlfOffset o))
  behind : content[o]? = some newline → ∀ p, (p = .string → lang.style ≠ .brace) →
    Widened lang p (lang.layers content o)
      ((carriageReturn, p) :: lang.layers (crlf content) (content.crlfOffset o + 1))

lemma firstTaken_head (lang : Language) (ho : o < content.length) :
    ∃ taken, lang.firstTaken content o = content[o] :: taken := by
  obtain ⟨c, taken, hcons⟩ :=
    List.exists_cons_of_ne_nil (List.ne_nil_of_length_pos (lang.length_firstTaken_pos ho))
  have happend := lang.drop_eq_firstTaken_append content o
  rw [hcons, List.drop_eq_getElem_cons ho] at happend
  obtain ⟨rfl, -⟩ := List.cons.inj happend
  exact ⟨taken, hcons⟩

lemma head_ne_newline_of_string (hl : lang.Legible) (ho : o < content.length)
    (hs : (lang.firstSegment content o).kind.layer = .string) :
    (lang.firstTaken content o).head? ≠ some newline := by
  have hlooks := lang.looks_of_mem hl (firstSegment_mem ho)
  cases hk : (lang.firstSegment content o).kind with
  | code => simp [hk, Segment.Kind.layer] at hs
  | comment => simp [hk, Segment.Kind.layer] at hs
  | string =>
    rw [hk] at hlooks
    obtain ⟨-, -, q, text, hq, hshows, -⟩ := hlooks
    obtain ⟨taken, htaken⟩ := firstTaken_head lang ho
    rw [show content.drop (lang.firstSegment content o).start = content.drop o from rfl,
      List.drop_eq_getElem_cons ho] at hq
    obtain ⟨rfl, -⟩ := List.cons.inj hq
    rw [htaken, List.head?_cons]
    exact fun heq => (Source.ne_of_not_blank hshows).1 (Option.some.inj heq)

lemma widened_before (hl : lang.Legible) (h : lang.KeepsLines content o) (ho : o < content.length)
    (hrest : lang.WidensFrom content (lang.firstSegment content o).stop) (p : Layer) :
    Widened lang p (lang.layers content o)
      (lang.layers (crlf content) (content.crlfOffset o)) := by
  obtain ⟨hkind, htaken⟩ := firstTaken_crlf hl h ho
  have hstop := crlfOffset_stop lang content o
  have hstop' : (lang.firstSegment (crlf content) (content.crlfOffset o)).stop =
      content.crlfOffset o + (lang.firstTaken (crlf content) (content.crlfOffset o)).length := rfl
  have hhead (hs : (lang.firstSegment content o).kind.layer = .string) :=
    Or.inr (a := p = .string) (head_ne_newline_of_string hl ho hs)
  have hne : lang.firstTaken content o ≠ [] :=
    List.ne_nil_of_length_pos (lang.length_firstTaken_pos ho)
  rw [layers_of_lt ho, layers_of_lt (StandsAt.lt_length (Or.inl rfl) ho), hkind,
    Segment.Kind.layer_crlf, hstop']
  rcases htaken with heq | ⟨htakes, hget, heq⟩
  · rw [heq, ← hstop]
    exact widened_map (fun hnil => absurd hnil hne) hhead (hrest.before _)
  · rw [heq, List.length_append, List.length_singleton, ← Nat.add_assoc, ← hstop, List.map_append,
      List.append_assoc]
    refine widened_map (fun hnil => absurd hnil hne) hhead (hrest.behind hget _ fun hstring => ?_)
    cases hk : (lang.firstSegment content o).kind with
    | string =>
      rw [hk] at htakes
      exact htakes
    | code => simp [hk, Segment.Kind.layer] at hstring
    | comment => simp [hk, Segment.Kind.layer] at hstring

lemma widened_behind (hl : lang.Legible) (h : lang.KeepsLines content o)
    (hn : content[o]? = some newline)
    (hrest : lang.WidensFrom content (lang.firstSegment content o).stop)
    (hp : p = .string → lang.style ≠ .brace) :
    Widened lang p (lang.layers content o)
      ((carriageReturn, p) :: lang.layers (crlf content) (content.crlfOffset o + 1)) := by
  obtain ⟨ho, hget⟩ := List.getElem?_eq_some_iff.mp hn
  obtain ⟨hcode, hcode', htaken⟩ := firstTaken_newline hl h.characters hn
  obtain ⟨taken, hcons⟩ := firstTaken_head lang ho
  rw [hget] at hcons
  rw [hcons, crlf_newline] at htaken
  rw [layers_of_lt ho, layers_of_lt (StandsAt.lt_length (Or.inr ⟨hn, rfl⟩) ho), hcode, hcode',
    stop_newline hl h.characters hn, hcons, ← (List.cons.inj htaken).2]
  refine .newline (Or.inr ⟨rfl, rfl, hp⟩) (by simp [Segment.Kind.layer]) ?_
  exact widened_map (fun _ => rfl) (by simp [Segment.Kind.layer]) (hrest.before _)

lemma widensFrom (hl : lang.Legible) (h : lang.KeepsLines content o) (ho : o ≤ content.length) :
    lang.WidensFrom content o := by
  induction hs : lang.segments content o generalizing o with
  | nil =>
    have hend := Nat.le_antisymm ho (length_le_of_segments_eq_nil hs)
    refine ⟨fun p => ?_, fun hn => ?_⟩
    · rw [layers_of_length_le hend.ge, layers_of_length_le (by rw [hend, crlfOffset_length])]
      exact .nil
    · have := (List.getElem?_eq_some_iff.mp hn).1
      omega
  | cons s ss ih =>
    obtain ⟨hlt, rfl, rfl⟩ := segments_eq_cons hs
    have hmem := lang.firstSegment_mem hlt
    have hrest := ih (h.stop hmem) (stop_le_length hmem) rfl
    exact ⟨widened_before hl h hlt hrest, fun hn p => widened_behind hl h hn hrest⟩

end Language

lemma Widened.dropWhile (h : Widened lang p l l') (hp : p ≠ .string) :
    (l.dropWhile isLeading = [] → l'.dropWhile isLeading = []) ∧
      ∀ b rest, l.dropWhile isLeading = b :: rest → b.1 ≠ TrustRegions.newline →
        ∃ rest', l'.dropWhile isLeading = b :: rest' ∧ Widened lang b.2 rest rest' ∧
          (l'.takeWhile isLeading).length =
            crlfOffset (l.map (·.1)) (l.takeWhile isLeading).length := by
  induction h with
  | nil => exact ⟨fun _ => rfl, by simp⟩
  | @byte p b l l' hb h ih =>
    by_cases hlead : isLeading b = true
    · have hnext : b.2 ≠ .string := by
        rintro hs
        simp [isLeading, hs] at hlead
      simp only [List.dropWhile_cons_of_pos hlead, List.takeWhile_cons_of_pos hlead, List.map_cons,
        List.length_cons, crlfOffset_cons hb, Nat.add_right_cancel_iff]
      exact ih hnext
    · simp only [List.dropWhile_cons_of_neg hlead, List.takeWhile_cons_of_neg hlead]
      refine ⟨fun hnil => absurd hnil (List.cons_ne_nil _ _), fun b' rest heq _ => ?_⟩
      obtain ⟨rfl, rfl⟩ := List.cons.inj heq
      exact ⟨l', rfl, h, rfl⟩
  | @newline p x y l l' hx hy h ih =>
    by_cases hlead : isLeading (TrustRegions.newline, y) = true
    · have hnext : y ≠ .string := by
        rintro rfl
        simp [isLeading] at hlead
      have hreturn : isLeading (carriageReturn, x) = true := by
        have hxs : x ≠ .string := by
          rcases hx with rfl | ⟨-, rfl, -⟩
          · exact hnext
          · exact hp
        cases x with
        | string => exact absurd rfl hxs
        | comment => rfl
        | code => rfl
      simp only [List.dropWhile_cons_of_pos hlead, List.dropWhile_cons_of_pos hreturn,
        List.takeWhile_cons_of_pos hlead, List.takeWhile_cons_of_pos hreturn, List.map_cons,
        List.length_cons, crlfOffset_newline, Nat.add_right_cancel_iff]
      exact ih hnext
    · have hstring : y = .string := by
        cases y with
        | string => rfl
        | comment => exact absurd rfl hlead
        | code => exact absurd rfl hlead
      exact absurd (hy hstring) hp

end Layers

namespace BraceWalk

variable {lang : Language} {content : Bytes} {line k : Nat} {p : Layer} {w w' : BraceWalk}
  {l l' rest rest' : List (UInt8 × Layer)} {b : UInt8 × Layer} {c : UInt8} {stop : Nat}

def moved (w : BraceWalk) (content : Bytes) : BraceWalk :=
  { w with codeEnd := content.crlfOffset w.codeEnd }

lemma next_moved (hk : content.crlfOffset (k + 1) = content.crlfOffset k + 1) (hb : b.1 ≠ newline)
    (w : BraceWalk) (rest rest' : List (UInt8 × Layer)) :
    (w.moved content).next lang (content.crlfOffset k) b rest' =
      ((w.next lang k b rest).map (moved · content)).mapError content.crlfOffset := by
  rw [next_of_ne_newline hb rest rest']
  exact next_carried hk w b rest'

lemma endsAtNewline_widened (h : Widened lang p rest rest') (w : BraceWalk) :
    (w.moved content).endsAtNewline lang rest' = w.endsAtNewline lang rest := by
  have hhead : ((rest'.dropWhile fun b => isIndent b.1).head?.all fun b => b.1 != byte '.') =
      (rest.dropWhile fun b => isIndent b.1).head?.all fun b => b.1 != byte '.' := by
    induction h with
    | nil => rfl
    | @byte p b l l' hb _ ih =>
      rw [List.dropWhile_cons, List.dropWhile_cons]
      split
      · exact ih
      · rfl
    | newline _ _ _ _ =>
      rw [List.dropWhile_cons_of_neg (by simp [isIndent]; decide),
        List.dropWhile_cons_of_neg (by simp [isIndent]; decide)]
      rfl
  simp only [endsAtNewline, endsStatement, hhead]
  rfl

structure Remembers (w : BraceWalk) (p : Layer) : Prop where
  string : p = .string → w.last = doubleQuote ∧ w.lineHasContent = true ∧ w.lineHasCode = true
  comment : p = .comment → w.lineHasContent = true

lemma remembers_next (h : w.next lang k b rest = .ok w') : w'.Remembers b.2 := by
  obtain ⟨c, layer⟩ := b
  cases layer with
  | comment =>
    obtain rfl := Except.ok.inj h
    exact ⟨by simp, fun _ => rfl⟩
  | string =>
    obtain rfl := Except.ok.inj h
    exact ⟨fun _ => ⟨rfl, rfl, rfl⟩, by simp⟩
  | code => exact ⟨by simp, by simp⟩

lemma of_cons_eq_drop {α : Type} {b : α} {l t : List α} (h : b :: l = t.drop k) :
    t[k]? = some b ∧ l = t.drop (k + 1) := by
  constructor
  · rw [← Nat.add_zero k, ← List.getElem?_drop, ← h]
    rfl
  · rw [← List.drop_drop, ← h]
    rfl

lemma finish_return {x : Layer} (hw : w.Remembers p) (hx : x = .code ∨ x = p ∧ x ≠ .string) (k : Nat)
    (l : List (UInt8 × Layer)) :
    finish lang line w k ((carriageReturn, x) :: l) = finish lang line w (k + 1) l := by
  cases x with
  | code => rw [finish, if_neg (by decide), if_pos (by decide)]
  | string => simp at hx
  | comment =>
    obtain ⟨rfl, -⟩ := hx.resolve_left (by simp)
    have hseen : { w with lineHasContent := true } = w := by rw [← hw.comment rfl]
    rw [finish, hseen]

lemma finish_widened (hstyle : lang.style = .brace) (h : Widened lang p l l')
    (hl : l.map (·.1) = content.drop k) (hw : w.Remembers p) :
    finish lang line (w.moved content) (content.crlfOffset k) l' =
      (finish lang line w k l).map content.crlfOffset := by
  induction h generalizing w k with
  | nil =>
    rw [finish, finish]
    change (if 0 < w.braces then _ else if 0 < w.parens then _ else _) = _
    split_ifs <;> rfl
  | @byte p b l l' hb h ih =>
    obtain ⟨hget, hdrop⟩ := of_cons_eq_drop hl
    have hk := crlfOffset_succ hget
    rw [if_neg hb] at hk
    rw [finish_cons, finish_cons, next_moved hk hb w l l']
    cases hn : w.next lang k b l with
    | error stop => rfl
    | ok w' =>
      rw [← hk]
      exact ih hdrop (remembers_next hn)
  | @newline p x y l l' hx hy h ih =>
    obtain ⟨hget, hdrop⟩ := of_cons_eq_drop hl
    have hk : content.crlfOffset (k + 1) = content.crlfOffset k + 1 + 1 := crlfOffset_succ hget
    cases y with
    | comment =>
      obtain rfl : x = .comment := hx.resolve_right (by simp)
      rw [finish, finish, finish, ← hk]
      exact ih (w := { w with lineHasContent := true }) hdrop ⟨by simp, fun _ => rfl⟩
    | string =>
      obtain rfl : x = .string := hx.resolve_right (by simp)
      have hlast := (hw.string (hy rfl)).1
      have hseen : ((w.moved content).seeString (content.crlfOffset k)).seeString
          (content.crlfOffset k + 1) = (w.seeString k).moved content := by
        simp only [seeString, moved, hlast, hk]
      rw [finish, finish, finish, hseen, ← hk]
      exact ih hdrop ⟨fun _ => ⟨rfl, rfl, rfl⟩, by simp⟩
    | code =>
      have hpassed : x = .code ∨ x = p ∧ x ≠ .string := by
        rcases hx with rfl | ⟨-, rfl, hbrace⟩
        · exact Or.inl rfl
        · exact Or.inr ⟨rfl, fun hs => hbrace hs hstyle⟩
      have hw' : (w.moved content).Remembers p := ⟨hw.string, hw.comment⟩
      rw [finish_return hw' hpassed, finish, if_pos rfl, finish, if_pos rfl, endsAtNewline_widened h]
      split
      · rfl
      · have hline : (w.moved content).newLine = w.newLine.moved content := newLine_carried _ w
        rw [hline, ← hk]
        exact ih hdrop ⟨by simp, by simp⟩

end BraceWalk

section Declarations

variable {lang : Language} {content : Bytes} {line o : Nat} {p : Layer}
  {l l' rest rest' : List (UInt8 × Layer)} {b : UInt8 × Layer} {s : Source}

lemma Language.bracedEnd_widened (hstyle : lang.style = .brace) (hb : b.1 ≠ newline)
    (h : Widened lang b.2 rest rest') (hl : (b :: rest).map (·.1) = content.drop o) :
    lang.bracedEnd line (content.crlfOffset o) (b :: rest') =
      (lang.bracedEnd line o (b :: rest)).map content.crlfOffset := by
  rw [bracedEnd, bracedEnd]
  exact BraceWalk.finish_widened (p := .code)
    (w := { decorated := (b :: rest).head?.map (·.1) == some (byte '@'), codeEnd := o })
    hstyle (.byte hb h) hl ⟨by simp, by simp⟩

lemma lineStarts_widened (h : Widened lang p l l') (depth : Nat) :
    lineStarts depth l' = lineStarts depth l := by
  induction h generalizing depth with
  | nil => rfl
  | @byte p b l l' _ _ ih =>
    obtain ⟨c, layer⟩ := b
    cases layer <;> simp only [lineStarts, ih]
  | @newline p x y l l' _ _ _ ih =>
    have hreturn (t : List (UInt8 × Layer)) :
        lineStarts depth ((carriageReturn, x) :: t) = lineStarts depth t := by
      cases x <;> rfl
    rw [hreturn]
    cases y <;> simp only [lineStarts, ih]

lemma openBrackets_widened (h : Widened lang p l l') : openBrackets l' = openBrackets l := by
  have hfold (depth : Nat) :
      (l'.filter fun b => b.2 == .code).foldl (fun depth b => bracketDepth depth b.1) depth =
        (l.filter fun b => b.2 == .code).foldl (fun depth b => bracketDepth depth b.1) depth := by
    induction h generalizing depth with
    | nil => rfl
    | @byte p b l l' _ _ ih =>
      obtain ⟨c, layer⟩ := b
      cases layer <;> exact ih _
    | @newline p x y l l' _ _ _ ih => cases x <;> cases y <;> exact ih _
  exact hfold 0

namespace Source

lemma offsideEnd_widened (hplain : carriageReturn ∉ s.content) (h : Widened lang p l l') :
    s.crlf.offsideEnd lang line l' = s.offsideEnd lang line l := by
  have hrows : s.crlf.rowsAfter line l' = s.rowsAfter line l := by
    rw [rowsAfter, rowsAfter, List.map_drop, List.map_drop, map_chomp_crlf hplain, lineStarts_widened h]
  simp only [offsideEnd, hrows, line_crlf hplain, openBrackets_widened h]

lemma declarationScope?_crlf (hl : lang.Legible) (h : lang.KeepsLines s.content o)
    (ho : o ≤ s.content.length) :
    s.crlf.declarationScope? lang (s.positionAt o) = s.declarationScope? lang (s.positionAt o) := by
  have hlayers : lang.layers s.crlf.content (s.content.crlfOffset o) =
      lang.layers (Bytes.crlf s.content) (s.content.crlfOffset o) := rfl
  obtain ⟨hnil, hcons⟩ := ((Language.widensFrom hl h ho).before .code).dropWhile (by simp)
  simp only [declarationScope?, offsetAt_crlf, offsetAt_positionAt ho, hlayers]
  split
  · rfl
  cases hd : (lang.layers s.content o).dropWhile isLeading with
  | nil => rw [hnil hd]
  | cons b rest =>
    obtain ⟨c, layer⟩ := b
    have hb := (ne_of_not_blank (Language.shows_of_dropWhile_layers hl hd)).1
    obtain ⟨rest', hd', hrest, hlength⟩ := hcons _ rest hd hb
    have hdrop := congrArg (List.map (·.1)) (drop_length_takeWhile isLeading (lang.layers s.content o))
    rw [hd, List.map_drop, Language.map_fst_layers, List.drop_drop, ← declarationStart] at hdrop
    rw [Language.map_fst_layers] at hlength
    have hstart : s.content.crlfOffset o +
          ((lang.layers (Bytes.crlf s.content) (s.content.crlfOffset o)).takeWhile isLeading).length =
        s.content.crlfOffset (s.declarationStart lang o) := by
      rw [hlength, declarationStart, Bytes.crlfOffset_add]
    have hend (line : Nat) : s.crlf.endOfLine line = s.endOfLine line := by
      rw [endOfLine, endOfLine, line_crlf h.plain]
    rw [hd', hstart, positionAt_crlf, ← declarationStart]
    dsimp only
    split
    · next hstyle =>
      split
      · rfl
      · rw [Language.bracedEnd_widened hstyle hb hrest hdrop.symm]
        cases lang.bracedEnd _ (s.declarationStart lang o) ((c, layer) :: rest) with
        | error fault => rfl
        | ok stop =>
          simp only [Except.map, positionAt_crlf]
    · rw [offsideEnd_widened (p := .code) h.plain (.byte hb hrest)]
      simp only [hend]

end Source

end Declarations

end TrustRegions
