import TrustRegions.Proofs.IndentedScopes

/-! Contents with the same segments and the same bytes but for those inside of strings. Byte for byte they
stay alike: a string shows where it opens, and what ends a line within it can be hidden by a backslash
only, unless the string may span lines. -/

namespace TrustRegions

def isQuote (c : UInt8) : Bool := c == doubleQuote || c == apostrophe || c == backquote

namespace Language

structure SingleLine (lang : Language) : Prop where
  tripleQuotes : lang.tripleQuotes = false
  quotes : backquote ∉ lang.quotes

structure Quoted (lang : Language) : Prop where
  quotes : ∀ q ∈ lang.quotes, isQuote q = true
  words : ∀ w ∈ lang.blockTerminator :: lang.clauseKeywords ++ lang.lineComments,
    ∀ c ∈ w, isQuote c = false
  singleLine : lang.blockTerminator ≠ [] → lang.SingleLine

lemma quoted_ofTag (tag : Bytes) : (ofTag tag).Quoted where
  quotes := (by decide +kernel :
    ∀ l ∈ generic :: known, ∀ q ∈ l.quotes, isQuote q = true) _ (ofTag_mem tag)
  words := (by decide +kernel : ∀ l ∈ generic :: known,
    ∀ w ∈ l.blockTerminator :: l.clauseKeywords ++ l.lineComments, ∀ c ∈ w, isQuote c = false) _
      (ofTag_mem tag)
  singleLine h :=
    have hline := (by decide +kernel : ∀ l ∈ generic :: known, l.blockTerminator ≠ [] →
      l.tripleQuotes = false ∧ backquote ∉ l.quotes) _ (ofTag_mem tag) h
    ⟨hline.1, hline.2⟩

end Language

variable {c q x : UInt8} {b : UInt8 × Layer} {inside : Bool}

lemma isBlank_of_isQuote (h : isQuote c = true) : isBlank c = false := by
  simp only [isQuote, Bool.or_eq_true, beq_iff_eq] at h
  rcases h with (rfl | rfl) | rfl <;> decide

lemma ne_newline_of_isQuote (h : isQuote c = true) : c ≠ newline :=
  (Source.ne_of_not_blank (isBlank_of_isQuote h)).1

lemma not_indent_of_isQuote (h : isQuote c = true) : isIndent c = false :=
  Source.not_indent_of_not_blank (isBlank_of_isQuote h)

section Strings

variable {lang : Language} {content : Bytes} {s t : Segment} {text u : Bytes} {o k : Nat}

def Hidden (a b : UInt8) : Prop := b = newline → a = backslash

namespace Language

lemma isChain_quotedLength (hq : q ≠ newline) (a : UInt8) (text : Bytes) :
    (a :: text.take (quotedLength q false false text)).IsChain Hidden := by
  fun_induction quotedLength q false false text generalizing a with
  | case1 => exact .singleton a
  | case2 c hc =>
    obtain rfl : c = backslash := by simpa using hc
    exact .cons_cons (fun h => absurd h (by decide)) (.singleton _)
  | case3 c hc d rest ih =>
    obtain rfl : c = backslash := by simpa using hc
    exact .cons_cons (fun h => absurd h (by decide)) (.cons_cons (fun _ => rfl) (ih d))
  | case4 rest _ => exact .cons_cons (fun h => absurd h hq) (.singleton _)
  | case5 => exact .singleton a
  | case6 c rest _ _ hc ih => exact .cons_cons (fun h => absurd ⟨h, by simp⟩ hc) (ih c)

lemma exists_quote_of_mem (hq : lang.Quoted) (hs : s ∈ lang.segments content o)
    (hk : s.kind = .string) : ∃ q rest, content.drop s.start = q :: rest ∧ isQuote q = true ∧
      (lang.SingleLine → q ≠ backquote) := by
  have hopens := lang.opens_openingAt (startsLine content s.start) (content.drop s.start)
  rw [← opensAt, opensAt_of_mem_string hs hk] at hopens
  obtain ⟨q, rest, hdrop, hmem | rfl⟩ := hopens
  · exact ⟨q, rest, hdrop, hq.quotes q hmem, fun hl heq => hl.quotes (heq ▸ hmem)⟩
  · exact ⟨_, rest, hdrop, rfl, fun _ => by decide⟩

lemma isChain_string (hq : lang.Quoted) (hl : lang.SingleLine) (hs : s ∈ lang.segments content o)
    (hk : s.kind = .string) : ((content.drop s.start).take s.length).IsChain Hidden := by
  obtain ⟨q, rest, hdrop, hquote, hne⟩ := exists_quote_of_mem hq hs hk
  obtain ⟨-, hlt, heq⟩ := mem_segments hs
  have hstring := opensAt_of_mem_string hs hk
  have hlength : s.length = (lang.firstTaken content s.start).length := by
    rw [heq]
    exact Nat.add_sub_cancel_left _ _
  have htake : (content.drop s.start).take s.length = lang.firstTaken content s.start := by
    rw [hlength, drop_eq_firstTaken_append lang, List.take_left]
  have hmultiline : (q == backquote) = false := by simpa using hne hl
  rw [opensAt] at hstring
  rw [htake, firstTaken, segmentAt, hstring]
  simp only [hdrop, stringLength, hl.tripleQuotes, hmultiline, Bool.false_and, Bool.false_eq_true,
    false_and, if_false, Nat.max_eq_right (Nat.le_add_left 1 _), List.take_succ_cons]
  exact isChain_quotedLength (ne_newline_of_isQuote hquote) q rest

lemma eq_of_mem_of_mem (hs : s ∈ lang.segments content o) (ht : t ∈ lang.segments content o)
    (hsk : s.start ≤ k ∧ k < s.stop) (htk : t.start ≤ k ∧ k < t.stop) : s = t := by
  rcases Nat.lt_trichotomy s.start t.start with hlt | heq | hlt
  · have := stop_le_of_start_lt hs ht hlt
    omega
  · rw [(mem_segments hs).2.2, heq, ← (mem_segments ht).2.2]
  · have := stop_le_of_start_lt ht hs hlt
    omega

end Language

end Strings

def Segment.extent (s : Segment) : Layer × Nat × Nat := (s.kind.layer, s.start, s.stop)

/-- The contents have the same segments and newlines, and differ strictly inside of strings only. -/
structure SameButStrings (lang : Language) (content content' : Bytes) : Prop where
  extents : (lang.segments content' 0).map Segment.extent = (lang.segments content 0).map Segment.extent
  newlines : content'.map (· == newline) = content.map (· == newline)
  bytes : ∀ k < content.length, content'[k]? = content[k]? ∨
    ∃ s ∈ lang.segments content 0, s.kind = .string ∧ s.start < k ∧ k + 1 < s.stop

def GoesOn (lang : Language) (l : List (UInt8 × Layer)) : Prop :=
  ∃ x, l.head? = some (x, .string) ∧ (lang.SingleLine → x ≠ newline)

/-- Layers that are alike but for bytes of strings behind the opening quote and before the last one;
`inside` tells that a byte of a string comes right before. -/
inductive Masked (lang : Language) : Bool → List (UInt8 × Layer) → List (UInt8 × Layer) → Prop
  | nil {inside : Bool} : Masked lang inside [] []
  | shown {inside : Bool} {b : UInt8 × Layer} {l l' : List (UInt8 × Layer)} : b.2 ≠ .string →
      Masked lang false l l' → Masked lang inside (b :: l) (b :: l')
  | opens {q : UInt8} {l l' : List (UInt8 × Layer)} : isQuote q = true → Masked lang true l l' →
      Masked lang false ((q, .string) :: l) ((q, .string) :: l')
  | within {c c' : UInt8} {l l' : List (UInt8 × Layer)} : (c' = newline ↔ c = newline) →
      (c' = c ∨ GoesOn lang l) → Masked lang true l l' →
      Masked lang true ((c, .string) :: l) ((c', .string) :: l')

namespace Masked

variable {lang : Language} {l l' m p : List (UInt8 × Layer)} {u u' : Bytes}

lemma append_shown (hp : ∀ b ∈ p, b.2 ≠ .string) (h : ∀ i, Masked lang i l l') :
    Masked lang inside (p ++ l) (p ++ l') := by
  induction p generalizing inside with
  | nil => exact h inside
  | cons b p ih =>
    obtain ⟨hb, hp⟩ := List.forall_mem_cons.mp hp
    exact .shown hb (ih hp)

lemma append_within (hnewlines : u'.map (· == newline) = u.map (· == newline))
    (hlast : u'.getLast? = u.getLast?) (hu : lang.SingleLine → u.IsChain Hidden)
    (hu' : lang.SingleLine → u'.IsChain Hidden) (h : Masked lang true l l') :
    Masked lang true (u.map (·, .string) ++ l) (u'.map (·, .string) ++ l') := by
  induction u generalizing u' with
  | nil =>
    obtain rfl : u' = [] := by simpa using hnewlines
    exact h
  | cons c u ih =>
    obtain ⟨c', u', rfl⟩ : ∃ c' t, u' = c' :: t := by
      refine List.exists_cons_of_ne_nil ?_
      rintro rfl
      simp at hnewlines
    rw [List.map_cons, List.map_cons] at hnewlines
    obtain ⟨hc, hnewlines⟩ := List.cons.inj hnewlines
    have hc : c' = newline ↔ c = newline := by simpa using hc
    have hlength : u'.length = u.length := by simpa using congrArg List.length hnewlines
    have htail : u'.getLast? = u.getLast? := by
      have heq : (c' :: u').tail.getLast? = (c :: u).tail.getLast? := by
        rw [List.getLast?_tail, List.getLast?_tail, hlast, List.length_cons, List.length_cons, hlength]
      exact heq
    refine .within hc ?_ (ih hnewlines htail (fun hl => (hu hl).tail) fun hl => (hu' hl).tail)
    rcases u with _ | ⟨x, u⟩
    · obtain rfl := List.eq_nil_of_length_eq_zero hlength
      exact Or.inl (by simpa using hlast)
    · by_cases hsame : c' = c
      · exact Or.inl hsame
      refine Or.inr ⟨x, rfl, fun hl hx => hsame ?_⟩
      obtain ⟨x', u', rfl⟩ := List.exists_cons_of_length_eq_add_one hlength
      have hx' : x' = newline := by
        have hhead := (List.cons.inj hnewlines).1
        simpa [hx] using hhead
      rw [(List.isChain_cons_cons.mp (hu' hl)).1 hx', (List.isChain_cons_cons.mp (hu hl)).1 hx]

lemma append_string {t t' : Bytes} (hquote : isQuote q = true)
    (hnewlines : t'.map (· == newline) = t.map (· == newline)) (hlast : t'.getLast? = t.getLast?)
    (ht : lang.SingleLine → (q :: t).IsChain Hidden) (ht' : lang.SingleLine → (q :: t').IsChain Hidden)
    (h : Masked lang true l l') :
    Masked lang inside ((q :: t).map (·, .string) ++ l) ((q :: t').map (·, .string) ++ l') := by
  have htail : Masked lang true (t.map (·, .string) ++ l) (t'.map (·, .string) ++ l') :=
    h.append_within hnewlines hlast (fun hl => (ht hl).tail) fun hl => (ht' hl).tail
  cases inside with
  | false => exact .opens hquote htail
  | true => exact .within Iff.rfl (Or.inl rfl) htail

lemma of_append_cons (h : Masked lang inside (p ++ b :: l) m) (hb : b.2 ≠ .string) :
    ∃ p' l', m = p' ++ b :: l' ∧ p'.length = p.length ∧ Masked lang false l l' := by
  induction p generalizing inside m with
  | nil =>
    cases h with
    | shown _ h => exact ⟨[], _, rfl, rfl, h⟩
    | opens => exact absurd rfl hb
    | within => exact absurd rfl hb
  | cons a p ih =>
    cases h with
    | shown _ h | opens _ h | within _ _ h =>
      obtain ⟨p', l', rfl, hlength, h⟩ := ih h
      exact ⟨_ :: p', l', rfl, by simp [hlength], h⟩

lemma of_append (h : Masked lang false (p ++ l) m) (hp : ∀ b ∈ p.getLast?, b.2 ≠ .string) :
    ∃ p' l', m = p' ++ l' ∧ p'.length = p.length ∧ p'.getLast? = p.getLast? ∧
      Masked lang false l l' := by
  rcases List.eq_nil_or_concat' p with rfl | ⟨p, b, rfl⟩
  · exact ⟨[], m, rfl, rfl, rfl, h⟩
  · rw [List.append_assoc, List.singleton_append] at h
    obtain ⟨p', l', rfl, hlength, h⟩ := of_append_cons h (hp b (by simp))
    exact ⟨p' ++ [b], l', by simp, by simp [hlength], by simp, h⟩

lemma dropWhile_isLeading (h : Masked lang false l l') :
    Masked lang false (l.dropWhile isLeading) (l'.dropWhile isLeading) := by
  induction l generalizing l' with
  | nil =>
    cases h
    exact .nil
  | cons b l ih =>
    cases h with
    | shown hb h =>
      cases hlead : isLeading b with
      | true =>
        rw [List.dropWhile_cons_of_pos hlead, List.dropWhile_cons_of_pos hlead]
        exact ih h
      | false =>
        rw [List.dropWhile_cons_of_neg (by simp [hlead]), List.dropWhile_cons_of_neg (by simp [hlead])]
        exact .shown hb h
    | opens hq h => exact .opens hq h

lemma length_eq (h : Masked lang inside l l') : l'.length = l.length := by
  induction h with
  | nil => rfl
  | shown _ _ ih | opens _ _ ih | within _ _ _ ih => simp [ih]

lemma head?_eq (h : Masked lang false l l') : l'.head? = l.head? := by
  cases h <;> rfl

lemma head?_dropWhile_isIndent (h : Masked lang false l l') :
    (l'.dropWhile fun b => isIndent b.1).head? = (l.dropWhile fun b => isIndent b.1).head? := by
  induction l generalizing l' with
  | nil =>
    cases h
    rfl
  | cons b l ih =>
    cases h with
    | shown _ h =>
      cases hindent : isIndent b.1 with
      | true => rw [List.dropWhile_cons, if_pos hindent, List.dropWhile_cons, if_pos hindent, ih h]
      | false => simp [hindent]
    | opens hq h => simp [not_indent_of_isQuote hq]

lemma finish_eq (h : Masked lang inside l l') (line : Nat) (w : BraceWalk) (k : Nat) :
    BraceWalk.finish lang line w k l' = BraceWalk.finish lang line w k l := by
  induction h generalizing w k with
  | nil => rfl
  | @shown _ b l l' hb h ih =>
    have hends : w.endsAtNewline lang l' = w.endsAtNewline lang l := by
      rw [BraceWalk.endsAtNewline, BraceWalk.endsAtNewline, BraceWalk.endsStatement,
        BraceWalk.endsStatement, h.head?_dropWhile_isIndent]
    have hnext : w.next lang k b l' = w.next lang k b l := by
      rw [BraceWalk.next, BraceWalk.next, hends]
    rw [BraceWalk.finish_cons, BraceWalk.finish_cons, hnext]
    cases w.next lang k b l with
    | error stop => rfl
    | ok w' => exact ih w' (k + 1)
  | opens _ _ ih | within _ _ _ ih =>
    rw [BraceWalk.finish, BraceWalk.finish]
    exact ih _ _

lemma bracedEnd_eq (h : Masked lang false l l') (line k : Nat) :
    lang.bracedEnd line k l' = lang.bracedEnd line k l := by
  rw [Language.bracedEnd, Language.bracedEnd, h.head?_eq]
  exact h.finish_eq line _ k

end Masked

namespace SameButStrings

variable {lang : Language} {content content' : Bytes} {s s' : Segment} {o k : Nat}

lemma length_eq (h : SameButStrings lang content content') : content'.length = content.length := by
  simpa using congrArg List.length h.newlines

lemma getElem?_of_mem (h : SameButStrings lang content content') (hs : s ∈ lang.segments content 0)
    (hk : s.start ≤ k) (hlt : k < s.stop) :
    content'[k]? = content[k]? ∨ s.kind = .string ∧ s.start < k ∧ k + 1 < s.stop := by
  refine (h.bytes k (hlt.trans_le (Language.stop_le_length hs))).imp_right ?_
  rintro ⟨t, ht, hkind, hstart, hstop⟩
  obtain rfl := Language.eq_of_mem_of_mem hs ht ⟨hk, hlt⟩ ⟨hstart.le, by omega⟩
  exact ⟨hkind, hstart, hstop⟩

lemma getElem?_taken {content : Bytes} {i n : Nat} (hi : i < n) :
    ((content.drop o).take n)[i]? = content[o + i]? := by
  rw [List.getElem?_take_of_lt hi, List.getElem?_drop]

lemma getLast?_taken {content : Bytes} {n : Nat} (hn : 0 < n) (hle : o + n ≤ content.length) :
    ((content.drop o).take n).getLast? = content[o + n - 1]? := by
  rw [List.getLast?_eq_getElem?, List.length_take, List.length_drop,
    Nat.min_eq_left (Nat.le_sub_of_add_le' hle), getElem?_taken (Nat.sub_lt hn Nat.one_pos),
    Nat.add_sub_assoc hn]

lemma taken_eq (h : SameButStrings lang content content') (hs : s ∈ lang.segments content 0)
    (hk : s.kind ≠ .string) {n : Nat} (ho : s.start ≤ o) (hn : o + n ≤ s.stop) :
    (content'.drop o).take n = (content.drop o).take n := by
  refine List.ext_getElem? fun i => ?_
  rcases Nat.lt_or_ge i n with hi | hi
  · rw [getElem?_taken hi, getElem?_taken hi]
    exact (h.getElem?_of_mem hs (by omega) (by omega)).resolve_right fun hin => hk hin.1
  · rw [List.getElem?_eq_none (by simp; omega), List.getElem?_eq_none (by simp; omega)]

lemma masked_string (hq : lang.Quoted) (h : SameButStrings lang content content')
    (hs : s ∈ lang.segments content 0) (hs' : s' ∈ lang.segments content' 0)
    (hk : s.kind = .string) (hk' : s'.kind = .string) (hstart : s'.start = s.start)
    (hlength : s'.length = s.length) {l l' : List (UInt8 × Layer)} (hl : Masked lang true l l') :
    Masked lang inside (((content.drop s.start).take s.length).map (·, .string) ++ l)
      (((content'.drop s.start).take s.length).map (·, .string) ++ l') := by
  have hlt := Language.start_lt_stop hs
  have hle := Language.stop_le_length hs
  have hle' := Language.stop_le_length hs'
  have hlt' := Language.start_lt_stop hs'
  rw [Segment.length, Segment.length] at hlength
  obtain ⟨n, hn⟩ : ∃ n, s.length = n + 1 := Nat.exists_eq_add_one.mpr (Nat.sub_pos_of_lt hlt)
  have hchain (hsingle : lang.SingleLine) := Language.isChain_string hq hsingle hs hk
  have hchain' (hsingle : lang.SingleLine) := Language.isChain_string hq hsingle hs' hk'
  obtain ⟨q, rest, hdrop, hquote, -⟩ := Language.exists_quote_of_mem hq hs hk
  have hfirst : content'[s.start]? = content[s.start]? :=
    (h.getElem?_of_mem hs le_rfl hlt).resolve_right fun hin => hin.2.1.false
  have hcons : content.drop s.start = q :: content.drop (s.start + 1) := by
    rw [hdrop, ← List.drop_drop, hdrop, List.drop_one, List.tail_cons]
  have hcons' : content'.drop s.start = q :: content'.drop (s.start + 1) := by
    rw [List.drop_eq_getElem_cons (by omega)]
    rw [List.getElem?_eq_getElem (by omega), List.getElem?_eq_getElem (by omega)] at hfirst
    rw [List.drop_eq_getElem_cons (by omega)] at hcons
    rw [Option.some.inj hfirst, (List.cons.inj hcons).1]
  rw [Segment.length] at hn
  have hlast : ((content'.drop (s.start + 1)).take n).getLast? =
      ((content.drop (s.start + 1)).take n).getLast? := by
    rcases Nat.eq_zero_or_pos n with rfl | hpos
    · rw [List.take_zero, List.take_zero]
    rw [getLast?_taken hpos (by omega), getLast?_taken hpos (by omega)]
    refine (h.getElem?_of_mem hs (by omega) (by omega)).resolve_right ?_
    rintro ⟨-, -, hin⟩
    omega
  rw [hstart, Segment.length, hlength, hn, hcons', List.take_succ_cons] at hchain'
  rw [Segment.length, hn, hcons, List.take_succ_cons] at hchain ⊢
  rw [hcons', List.take_succ_cons]
  refine Masked.append_string hquote ?_ hlast hchain hchain' hl
  rw [List.map_take, List.map_drop, h.newlines, List.map_take, List.map_drop]

lemma masked_of_mem (hq : lang.Quoted) (h : SameButStrings lang content content')
    (hs : s ∈ lang.segments content 0) (hs' : s' ∈ lang.segments content' 0)
    (hextent : s'.extent = s.extent) {l l' : List (UInt8 × Layer)} (hl : ∀ i, Masked lang i l l') :
    Masked lang inside (((content.drop s.start).take s.length).map (·, s.kind.layer) ++ l)
      (((content'.drop s'.start).take s'.length).map (·, s'.kind.layer) ++ l') := by
  obtain ⟨hlayer, hstart, hstop⟩ : s'.kind.layer = s.kind.layer ∧ s'.start = s.start ∧ s'.stop = s.stop := by
    simpa [Segment.extent] using hextent
  have hlength : s'.length = s.length := by rw [Segment.length, Segment.length, hstart, hstop]
  rw [hstart, hlength, hlayer]
  by_cases hk : s.kind = .string
  · have hk' : s'.kind = .string := by
      cases hkind : s'.kind <;> simp [hk, hkind, Segment.Kind.layer] at hlayer ⊢
    rw [hk]
    exact h.masked_string hq hs hs' hk hk' hstart hlength (hl true)
  · have hlt := Language.start_lt_stop hs
    rw [h.taken_eq hs hk le_rfl (by rw [Segment.length]; omega)]
    refine Masked.append_shown ?_ hl
    intro b hb
    obtain ⟨c, -, rfl⟩ := List.mem_map.mp hb
    cases hkind : s.kind <;> simp [hkind, Segment.Kind.layer] at hk ⊢

lemma masked_layers (hq : lang.Quoted) (h : SameButStrings lang content content')
    (hsub : lang.segments content o ⊆ lang.segments content 0)
    (hsub' : lang.segments content' o ⊆ lang.segments content' 0)
    (hextents : (lang.segments content' o).map Segment.extent =
      (lang.segments content o).map Segment.extent) (inside : Bool) :
    Masked lang inside (lang.layers content o) (lang.layers content' o) := by
  induction hss : lang.segments content o generalizing o inside with
  | nil =>
    rw [hss, List.map_nil, List.map_eq_nil_iff] at hextents
    rw [Language.layers, Language.layers, hss, hextents]
    simpa using Masked.nil
  | cons s ss ih =>
    rw [hss, List.map_cons] at hextents
    obtain ⟨s', ss', hss', hextent, hrest⟩ := List.map_eq_cons_iff.mp hextents
    rw [hss] at hsub
    rw [hss'] at hsub'
    obtain ⟨hs, hsub⟩ := List.cons_subset.mp hsub
    obtain ⟨hs', hsub'⟩ := List.cons_subset.mp hsub'
    obtain ⟨-, hfirst, rfl⟩ := Language.segments_eq_cons hss
    obtain ⟨-, hfirst', rfl⟩ := Language.segments_eq_cons hss'
    have hstart : s.start = o := by rw [hfirst]; rfl
    have hstart' : s'.start = o := by rw [hfirst']; rfl
    have hstop : s'.stop = s.stop := congrArg (·.2.2) hextent
    rw [hstop] at hsub' hrest
    have hl := Language.layers_segment hs
    have hl' := Language.layers_segment hs'
    rw [hstart] at hl
    rw [hstart', hstop] at hl'
    rw [hl, hl']
    have hmasked : Masked lang inside _ _ := h.masked_of_mem hq hs hs' hextent
      fun i => ih hsub hsub' hrest i rfl
    rwa [hstart, hstart'] at hmasked

end SameButStrings

end TrustRegions
