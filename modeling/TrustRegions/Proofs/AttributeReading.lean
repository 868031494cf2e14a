import TrustRegions.Proofs.AttributeGrammar

/-! The readers of attributes take exactly the texts of the grammar: each reads a text of its kind and
leaves what comes after it, and reads nothing else. -/

namespace TrustRegions

open Bytes

namespace Attribute

variable {q c d : UInt8} {key opening s w b rest : Bytes}

lemma isBlank_of_isQuote (h : isQuote q = true) : isBlank q = false := by
  rw [isQuote, Bool.or_eq_true, beq_iff_eq, beq_iff_eq] at h
  rcases h with rfl | rfl <;> decide

lemma ne_backslash_of_isQuote (h : isQuote q = true) : q ≠ backslash := by
  rintro rfl
  exact absurd h (by decide)

lemma isQuote_of_isBlank (h : isBlank c = true) : isQuote c = false := by
  refine Bool.eq_false_iff.mpr fun hq => ?_
  rw [isBlank_of_isQuote hq] at h
  exact Bool.false_ne_true h

lemma isBareItemByte_of_isBlank (h : isBlank c = true) : isBareItemByte c = true := by
  rw [isBareItemByte, Bool.and_eq_true, bne_iff_ne, bne_iff_ne]
  constructor <;> rintro rfl <;> exact absurd h (by decide)

lemma readQuoted_append {v : Bytes} (hq : q ≠ backslash) (h : Escapes q w v) :
    readQuoted q (w ++ q :: rest) = some (v, rest) := by
  induction h with
  | nil =>
    rw [List.nil_append, readQuoted.eq_def]
    simp [hq]
  | escaped c h ih =>
    rw [List.cons_append, List.cons_append, readQuoted.eq_def]
    simp [ih]
  | plain hb hq' h ih =>
    rw [List.cons_append, readQuoted.eq_def]
    simp [hb, hq', ih]

lemma exists_escapes {r : Bytes × Bytes} (h : readQuoted q s = some r) :
    ∃ w, Escapes q w r.1 ∧ s = w ++ q :: r.2 := by
  fun_induction readQuoted q s generalizing r with
  | case1 => simp at h
  | case2 => simp at h
  | case3 c rest ih =>
    obtain ⟨u, hu, rfl⟩ := Option.map_eq_some_iff.mp h
    obtain ⟨w, hw, rfl⟩ := ih hu
    exact ⟨backslash :: c :: w, .escaped c hw, rfl⟩
  | case4 rest =>
    obtain rfl := Option.some.inj h
    exact ⟨[], .nil, rfl⟩
  | case5 c rest hb hq ih =>
    obtain ⟨u, hu, rfl⟩ := Option.map_eq_some_iff.mp h
    obtain ⟨w, hw, rfl⟩ := ih hu
    exact ⟨c :: w, .plain hb hq hw, rfl⟩

def Stops (d : UInt8) : Prop := d = byte ',' ∨ d = byte ']'

lemma Stops.isBlank (hd : Stops d) : isBlank d = false := by
  rcases hd with rfl | rfl <;> decide

lemma Stops.isQuote (hd : Stops d) : isQuote d = false := by
  rcases hd with rfl | rfl <;> decide

lemma isBareItemByte_eq_false_iff : isBareItemByte c = false ↔ Stops c := by
  rw [isBareItemByte, Stops, Bool.and_eq_false_iff, bne_eq_false_iff_eq, bne_eq_false_iff_eq]

lemma isBareItemByte_iff : isBareItemByte c = true ↔ c ≠ byte ',' ∧ c ≠ byte ']' := by
  rw [isBareItemByte, Bool.and_eq_true, bne_iff_ne, bne_iff_ne]

lemma readItem_bare (hs : ∀ c ∈ s.head?, isQuote c = false) :
    readItem key s = .ok (trim (s.takeWhile isBareItemByte), s.dropWhile isBareItemByte) := by
  cases s with
  | nil => rfl
  | cons c s => simp [readItem, hs c rfl]

lemma ItemText.head? (h : ItemText w s) : ∀ c ∈ w.head?, isBlank c = false ∧ c ≠ byte ']' := by
  intro c hc
  cases h with
  | quoted h =>
    obtain ⟨hq, -⟩ := h
    obtain rfl := Option.some.inj hc
    refine ⟨isBlank_of_isQuote hq, ?_⟩
    rintro rfl
    exact absurd hq (by decide)
  | bare ht _ hw => exact ⟨ht.1 c hc, (hw c (List.mem_of_mem_head? hc)).2⟩

lemma exists_readItem (key rest : Bytes) (hw : ItemText w s) (hb : Blank b) (hd : Stops d) :
    ∃ after, readItem key (w ++ (b ++ d :: rest)) = .ok (s, after) ∧
      after.dropWhile isBlank = d :: rest := by
  have hstop : ∀ c ∈ (d :: rest).head?, isBlank c = false := fun c hc =>
    Option.some.inj hc ▸ hd.isBlank
  cases hw with
  | quoted h =>
    obtain ⟨hq, he⟩ := h
    refine ⟨b ++ d :: rest, ?_, dropWhile_append_of_head hb hstop⟩
    simp [readItem, hq, readQuoted_append (ne_backslash_of_isQuote hq) he]
  | bare ht hquote hitem =>
    have hbare : ∀ c ∈ s ++ b, isBareItemByte c = true := fun c hc =>
      (List.mem_append.mp hc).elim (fun hc => isBareItemByte_iff.mpr (hitem c hc))
        (fun hc => isBareItemByte_of_isBlank (hb c hc))
    have hend : ∀ c ∈ (d :: rest).head?, isBareItemByte c = false := fun c hc =>
      Option.some.inj hc ▸ isBareItemByte_eq_false_iff.mpr hd
    have hhead : ∀ c ∈ (s ++ (b ++ d :: rest)).head?, isQuote c = false := by
      intro c hc
      rw [List.head?_append, Option.mem_def, Option.or_eq_some_iff] at hc
      rcases hc with hc | ⟨-, hc⟩
      · exact hquote c hc
      · exact hb.head?_append (fun e he => isQuote_of_isBlank he) hd.isQuote c hc
    refine ⟨d :: rest, ?_, dropWhile_blank hstop⟩
    rw [readItem_bare hhead, ← List.append_assoc, takeWhile_append_of_head hbare hend,
      dropWhile_append_of_head hbare hend, trim_append ht hb]

lemma exists_itemText {r : Bytes × Bytes} (h : readItem key s = .ok r)
    (hs : ∀ c ∈ s.head?, isBlank c = false) :
    ∃ w b, ItemText w r.1 ∧ Blank b ∧ s = w ++ (b ++ r.2) := by
  by_cases hquote : ∃ q ∈ s.head?, isQuote q = true
  · obtain ⟨q, hq, hquote⟩ := hquote
    obtain ⟨s, rfl⟩ := List.head?_eq_some_iff.mp hq
    rw [readItem, if_pos hquote] at h
    split at h
    · cases h
    · next r' hr =>
      obtain rfl := Except.ok.inj h
      obtain ⟨w, hw, rfl⟩ := exists_escapes hr
      exact ⟨_, [], .quoted (.quote hquote hw), blank_nil, by simp⟩
  · have hbare : ∀ c ∈ s.head?, isQuote c = false := fun c hc =>
      Bool.eq_false_iff.mpr fun hq => hquote ⟨c, hc, hq⟩
    rw [readItem_bare hbare] at h
    obtain rfl := Except.ok.inj h
    have hsplit := List.takeWhile_append_dropWhile (p := isBareItemByte) (l := s)
    have hhead : ∀ c ∈ (s.takeWhile isBareItemByte).head?, c ∈ s.head? := by
      intro c hc
      rw [← hsplit, List.head?_append, Option.mem_def.mp hc]
      rfl
    obtain ⟨b, hb, htake, ht⟩ := exists_trimmed fun c hc => hs c (hhead c hc)
    refine ⟨_, b, .bare ht (fun c hc => ?_) (fun c hc => ?_), hb, ?_⟩
    · refine hbare c (hhead c ?_)
      rw [htake, List.head?_append, Option.mem_def.mp hc]
      rfl
    · refine isBareItemByte_iff.mp (of_mem_takeWhile _ s c ?_)
      rw [htake]
      exact List.mem_append_left _ hc
    · rw [← List.append_assoc, ← htake, hsplit]

inductive StepText : Bytes → ListStep → Prop where
  | close {b : Bytes} (hb : Blank b) : StepText (b ++ [byte ']']) (.close [])
  | last {b w b' v : Bytes} (hb : Blank b) (hw : ItemText w v) (hne : w ≠ []) (hb' : Blank b') :
    StepText (b ++ (w ++ (b' ++ [byte ']']))) (.close [v])
  | item {b w b' v : Bytes} (hb : Blank b) (hw : ItemText w v) (hb' : Blank b') :
    StepText (b ++ (w ++ (b' ++ [byte ',']))) (.item v)

lemma readStep_item {v : Bytes} (hb : Blank b) (hw : ItemText w v) {b' : Bytes} (hb' : Blank b')
    (hd : d = byte ',' ∨ d = byte ']' ∧ w ≠ []) :
    readStep key opening (b ++ (w ++ (b' ++ d :: rest))) =
      .ok (if d = byte ']' then .close [v] else .item v, rest) := by
  have hstop : Stops d := hd.imp_right And.left
  -- Blanks around an empty item are all in front of what follows it.
  obtain ⟨b₁, c, t, hb₁, ht, hdrop, hc⟩ : ∃ b₁ c t, Blank b₁ ∧ w ++ (b₁ ++ d :: rest) = c :: t ∧
      (b ++ (w ++ (b' ++ d :: rest))).dropWhile isBlank = c :: t ∧ c ≠ byte ']' := by
    cases w with
    | nil =>
      obtain rfl : d = byte ',' := hd.resolve_right fun h => h.2 rfl
      refine ⟨[], _, rest, blank_nil, rfl, ?_, by decide⟩
      rw [List.nil_append, ← List.append_assoc]
      exact dropWhile_append_of_head (hb.append hb') fun c hc => Option.some.inj hc ▸ hstop.isBlank
    | cons c w =>
      obtain ⟨hblank, hne⟩ := hw.head? c rfl
      exact ⟨b', c, _, hb', rfl,
        dropWhile_append_of_head hb fun e he => Option.some.inj he ▸ hblank, hne⟩
  obtain ⟨after, hread, hafter⟩ := exists_readItem key rest hw hb₁ hstop
  rw [ht] at hread
  rw [readStep, hdrop]
  simp only [if_neg hc, hread, hafter]
  rcases hd with rfl | ⟨rfl, -⟩
  · rw [if_neg (by decide), if_pos rfl, if_neg (by decide)]
  · rw [if_pos rfl, if_pos rfl]

lemma readStep_append {step : ListStep} (h : StepText w step) :
    readStep key opening (w ++ rest) = .ok (step, rest) := by
  cases h with
  | close hb =>
    have hdrop := dropWhile_append_of_head hb (s := byte ']' :: rest) (p := isBlank)
      fun c hc => Option.some.inj hc ▸ by decide
    rw [List.append_assoc, List.singleton_append, readStep, hdrop]
    exact if_pos rfl
  | last hb hw hne hb' =>
    simpa using readStep_item hb hw hb' (Or.inr ⟨rfl, hne⟩)
  | item hb hw hb' =>
    simpa [show byte ',' ≠ byte ']' by decide] using readStep_item hb hw hb' (Or.inl rfl)

lemma exists_stepText {r : ListStep × Bytes} (h : readStep key opening s = .ok r) :
    ∃ w, StepText w r.1 ∧ s = w ++ r.2 := by
  obtain ⟨b, hb, hs⟩ := exists_blank s
  have hhead := head?_dropWhile isBlank s
  rw [readStep] at h
  split at h
  · cases h
  · next c t ht =>
    rw [ht] at hs hhead
    split at h
    · next hc =>
      obtain rfl := Except.ok.inj h
      exact ⟨_, .close hb, by simp [hs, hc]⟩
    · next hc =>
      split at h
      · cases h
      · next v after hread =>
        obtain ⟨w, b₁, hw, hb₁, hct⟩ := exists_itemText hread hhead
        obtain ⟨b₂, hb₂, hafter⟩ := exists_blank after
        split at h
        · cases h
        · next d rest hd =>
          rw [hd] at hafter
          split at h
          · next hclose =>
            obtain rfl := Except.ok.inj h
            refine ⟨_, .last hb hw ?_ (hb₁.append hb₂), by simp [hs, hct, hafter, hclose]⟩
            -- An empty item would leave the closing bracket as the first byte that shows.
            rintro rfl
            have hdrop := congrArg (List.dropWhile isBlank) hct
            rw [List.nil_append, List.dropWhile_append_of_pos hb₁, hd, dropWhile_blank hhead,
              hclose] at hdrop
            exact hc (List.cons.inj hdrop).1
          · split at h
            · next hcomma =>
              obtain rfl := Except.ok.inj h
              exact ⟨_, .item hb hw (hb₁.append hb₂), by simp [hs, hct, hafter, hcomma]⟩
            · cases h

lemma readItems_close {last : List Bytes} (h : readStep key opening s = .ok (.close last, rest)) :
    readItems key opening s = .ok (last, rest) := by
  rw [readItems]
  split
  · next he => cases h.symm.trans he
  · next hr =>
    cases h.symm.trans hr
    rfl
  · next hr => cases h.symm.trans hr

lemma readItems_item {v after : Bytes} {items : List Bytes}
    (h : readStep key opening s = .ok (.item v, after))
    (hitems : readItems key opening after = .ok (items, rest)) :
    readItems key opening s = .ok (v :: items, rest) := by
  rw [readItems]
  split
  · next he => cases h.symm.trans he
  · next hr => cases h.symm.trans hr
  · next hr =>
    cases h.symm.trans hr
    simp only [hitems]

lemma readItems_append {items : List Bytes} (h : ItemsText w items) :
    readItems key opening (w ++ rest) = .ok (items, rest) := by
  induction h with
  | close hb => exact readItems_close (readStep_append (.close hb))
  | last hb hw hne hb' => exact readItems_close (readStep_append (.last hb hw hne hb'))
  | item hb hw hb' _ ih =>
    refine readItems_item ?_ ih
    simpa using readStep_append (.item hb hw hb')

lemma exists_itemsText {r : List Bytes × Bytes} (h : readItems key opening s = .ok r) :
    ∃ w, ItemsText w r.1 ∧ s = w ++ r.2 := by
  fun_induction readItems key opening s generalizing r with
  | case1 => cases h
  | case2 s last rest hs =>
    obtain rfl := Except.ok.inj h
    obtain ⟨w, hw, rfl⟩ := exists_stepText hs
    refine ⟨w, ?_, rfl⟩
    cases hw with
    | close hb => exact .close hb
    | last hb hw hne hb' => exact .last hb hw hne hb'
  | case3 => cases h
  | case4 s text after hs _ items rest hr ih =>
    obtain rfl := Except.ok.inj h
    obtain ⟨w, hw, rfl⟩ := exists_stepText hs
    obtain ⟨w', hw', rfl⟩ := ih hr
    cases hw with
    | item hb hw hb' => exact ⟨_, .item hb hw hb' hw', by simp⟩

lemma readValue_append {v : Value} (h : ValueText w v) (hrest : ∀ c ∈ rest.head?, isBlank c = true) :
    readValue key (w ++ rest) = .ok (v, rest) := by
  cases h with
  | quoted h =>
    obtain ⟨hq, he⟩ := h
    simp [readValue, hq, readQuoted_append (ne_backslash_of_isQuote hq) he]
  | list h =>
    rw [List.cons_append, readValue, if_neg (by decide), if_pos rfl, readItems_append h]
  | @bare c w hquote hlist hw =>
    have hend : ∀ d ∈ rest.head?, (!isBlank d) = false := fun d hd => by simp [hrest d hd]
    have hshown : ∀ d ∈ c :: w, (!isBlank d) = true := fun d hd => by simp [hw d hd]
    rw [List.cons_append, readValue, hquote, if_neg Bool.false_ne_true, if_neg hlist,
      ← List.cons_append, takeWhile_append_of_head hshown hend, dropWhile_append_of_head hshown hend]

lemma exists_valueText {r : Value × Bytes} (h : readValue key s = .ok r)
    (hs : ∀ c ∈ s.head?, isBlank c = false) : ∃ w, ValueText w r.1 ∧ s = w ++ r.2 := by
  rw [readValue.eq_def] at h
  split at h
  · cases h
  · next c s =>
    split at h
    · next hq =>
      split at h
      · cases h
      · next hr =>
        obtain rfl := Except.ok.inj h
        obtain ⟨w, hw, rfl⟩ := exists_escapes hr
        exact ⟨_, .quoted (.quote hq hw), by simp⟩
    · next hq =>
      split at h
      · next hc =>
        split at h
        · cases h
        · next hr =>
          obtain rfl := Except.ok.inj h
          obtain ⟨w, hw, rfl⟩ := exists_itemsText hr
          exact ⟨_, .list hw, by simp [hc]⟩
      · next hc =>
        obtain rfl := Except.ok.inj h
        have hshown := of_mem_takeWhile (fun d => !isBlank d) (c :: s)
        have hcons : (c :: s).takeWhile (fun d => !isBlank d) =
            c :: s.takeWhile fun d => !isBlank d :=
          List.takeWhile_cons_of_pos (by simp [hs c rfl])
        refine ⟨(c :: s).takeWhile fun d => !isBlank d, ?_, List.takeWhile_append_dropWhile.symm⟩
        rw [hcons] at hshown ⊢
        exact .bare (by simpa using hq) hc fun d hd => by simpa using hshown d hd

lemma isNameByte_of_isBlank (h : isBlank c = true) : isNameByte c = false := by
  simp only [isBlank, Bool.or_eq_true, beq_iff_eq] at h
  rcases h with ((((rfl | rfl) | rfl) | rfl) | rfl) | rfl <;> decide

lemma isBlank_of_isNameStart (h : isNameStart c = true) : isBlank c = false := by
  refine Bool.eq_false_iff.mpr fun hb => ?_
  simp only [isBlank, Bool.or_eq_true, beq_iff_eq] at hb
  rcases hb with ((((rfl | rfl) | rfl) | rfl) | rfl) | rfl <;> exact absurd h (by decide)

lemma ValueText.head? {v : Value} (h : ValueText w v) : ∃ c, w.head? = some c ∧ isBlank c = false := by
  cases h with
  | quoted h =>
    obtain ⟨hq, -⟩ := h
    exact ⟨_, rfl, isBlank_of_isQuote hq⟩
  | list h => exact ⟨_, rfl, by decide⟩
  | bare _ _ hw => exact ⟨_, rfl, hw _ List.mem_cons_self⟩

lemma PairText.head? {p : Bytes × Value} (h : PairText w p) :
    ∃ c, w.head? = some c ∧ isBlank c = false := by
  obtain ⟨⟨hc, -⟩, -⟩ := h
  exact ⟨_, rfl, isBlank_of_isNameStart hc⟩

lemma readPair_append {p : Bytes × Value} (h : PairText w p)
    (hrest : ∀ c ∈ rest.head?, isBlank c = true) : readPair (w ++ rest) = .ok (p, rest) := by
  obtain @⟨key, b, b', w, v, @⟨c, k, hc, hk⟩, hb, hb', hv⟩ := h
  have hname : ∀ d ∈ (b ++ byte '=' :: (b' ++ (w ++ rest))).head?, isNameByte d = false :=
    hb.head?_append (fun d hd => isNameByte_of_isBlank hd) (by decide)
  have hequals : (b ++ byte '=' :: (b' ++ (w ++ rest))).dropWhile isBlank =
      byte '=' :: (b' ++ (w ++ rest)) :=
    dropWhile_append_of_head hb fun d hd => Option.some.inj hd ▸ by decide
  have hvalue : (b' ++ (w ++ rest)).dropWhile isBlank = w ++ rest := by
    obtain ⟨d, hd, hblank⟩ := hv.head?
    refine dropWhile_append_of_head hb' fun e he => ?_
    rw [List.head?_append, hd] at he
    exact Option.some.inj he ▸ hblank
  have htext : c :: k ++ (b ++ byte '=' :: (b' ++ w)) ++ rest =
      c :: (k ++ (b ++ byte '=' :: (b' ++ (w ++ rest)))) := by simp
  rw [htext, readPair, hc, Bool.not_true, if_neg Bool.false_ne_true]
  simp only [takeWhile_append_of_head hk hname, dropWhile_append_of_head hk hname, hequals, hvalue,
    readValue_append hv hrest]
  cases rest with
  | nil => simp
  | cons e rest => simp [hrest e rfl]

lemma exists_pairText {r : (Bytes × Value) × Bytes} (h : readPair s = .ok r) :
    ∃ w, PairText w r.1 ∧ s = w ++ r.2 ∧ ∀ c ∈ r.2.head?, isBlank c = true := by
  rw [readPair.eq_def] at h
  split at h
  · cases h
  · next c s =>
    obtain ⟨b, hb, hs⟩ := exists_blank (s.dropWhile isNameByte)
    have hkey := List.takeWhile_append_dropWhile (p := isNameByte) (l := s)
    split at h
    · cases h
    · next hc =>
      dsimp only at h
      split at h
      · cases h
      · next d t hd =>
        split at h
        · cases h
        · next heq =>
          obtain rfl := Decidable.not_not.mp heq
          obtain ⟨b', hb', ht⟩ := exists_blank t
          have hk := of_mem_takeWhile isNameByte s
          split at h
          · cases h
          · next v hv =>
            obtain rfl := Except.ok.inj h
            obtain ⟨w, hw, hw'⟩ := exists_valueText hv (head?_dropWhile isBlank t)
            refine ⟨_, .pair (.name (by simpa using hc) hk) hb hb' hw, ?_, by simp⟩
            rw [hs, hd, ht, hw'] at hkey
            simpa using hkey.symm
          · next v e after hv =>
            obtain ⟨w, hw, hw'⟩ := exists_valueText hv (head?_dropWhile isBlank t)
            split at h
            · next he =>
              obtain rfl := Except.ok.inj h
              refine ⟨_, .pair (.name (by simpa using hc) hk) hb hb' hw, ?_, by simpa using he⟩
              rw [hs, hd, ht, hw'] at hkey
              simpa using hkey.symm
            · cases h

lemma readPairs_eq (s : Bytes) :
    readPairs s =
      if s.dropWhile isBlank = [] then .ok []
      else (readPair (s.dropWhile isBlank)).bind fun r => (readPairs r.2).map (r.1 :: ·) := by
  rw [readPairs.eq_def]
  split
  · next hs => rw [if_pos hs]
  · next c t hs =>
    rw [if_neg (by simp [hs])]
    split
    · next he =>
      rw [hs, he]
      rfl
    · next after hr =>
      simp only [hs, hr, Except.bind]
      cases readPairs after <;> rfl

lemma readPairs_blank_append (hb : Blank b) (s : Bytes) : readPairs (b ++ s) = readPairs s := by
  rw [readPairs_eq, List.dropWhile_append_of_pos hb, ← readPairs_eq]

lemma readPairs_blank (hs : Blank s) : readPairs s = .ok [] := by
  rw [← List.append_nil s, readPairs_blank_append hs, readPairs_eq]
  rfl

lemma readPairs_cons {p : Bytes × Value} (hb : Blank b) (hw : PairText w p)
    (hrest : ∀ c ∈ rest.head?, isBlank c = true) :
    readPairs (b ++ (w ++ rest)) = (readPairs rest).map (p :: ·) := by
  obtain ⟨c, hc, hblank⟩ := hw.head?
  have hhead : (w ++ rest).head? = some c := by rw [List.head?_append, hc]; rfl
  have hne : w ++ rest ≠ [] := fun h => by simp [h] at hhead
  have hdrop : (w ++ rest).dropWhile isBlank = w ++ rest :=
    dropWhile_blank fun d hd => Option.some.inj (hhead.symm.trans hd) ▸ hblank
  rw [readPairs_blank_append hb, readPairs_eq, hdrop, if_neg hne, readPair_append hw hrest]
  rfl

lemma head?_append_blank (hb : Blank b) (hne : b ≠ []) (s : Bytes) :
    ∀ c ∈ (b ++ s).head?, isBlank c = true := by
  intro c hc
  obtain ⟨d, b, rfl⟩ := List.exists_cons_of_ne_nil hne
  exact Option.some.inj hc ▸ hb d List.mem_cons_self

lemma readPairs_append {ps : List (Bytes × Value)} (h : PairsText w ps) (hb : Blank b)
    (hrest : ∀ c ∈ rest.head?, isBlank c = true) :
    readPairs (b ++ (w ++ rest)) = (readPairs rest).map (ps ++ ·) := by
  induction h generalizing b with
  | single h => exact readPairs_cons hb h hrest
  | @cons w b₁ w' p ps h hb₁ hne _ ih =>
    rw [List.append_assoc, List.append_assoc, readPairs_cons hb h (head?_append_blank hb₁ hne _),
      ih hb₁]
    cases readPairs rest <;> rfl

lemma PairsText.head? {ps : List (Bytes × Value)} (h : PairsText w ps) :
    ∃ c, w.head? = some c ∧ isBlank c = false := by
  cases h with
  | single h => exact h.head?
  | cons h =>
    obtain ⟨c, hc, hblank⟩ := h.head?
    exact ⟨c, by rw [List.head?_append, hc]; rfl, hblank⟩

end Attribute

open Attribute

namespace Attributes

variable {s : Bytes} {ps : List (Bytes × Value)}

lemma Text.cons {b w rest : Bytes} {p : Bytes × Value} (hb : Blank b) (hw : PairText w p)
    (hrest : ∀ c ∈ rest.head?, isBlank c = true) (h : Text rest ps) :
    Text (b ++ (w ++ rest)) (p :: ps) := by
  cases h with
  | blank hb' => exact .pairs hb (.single hw) hb'
  | @pairs b₁ w₁ b₂ ps hb₁ h hb₂ =>
    have hne : b₁ ≠ [] := by
      rintro rfl
      obtain ⟨c, hc, hblank⟩ := h.head?
      have := hrest c (by rw [List.nil_append, List.head?_append, hc]; rfl)
      rw [hblank] at this
      exact Bool.false_ne_true this
    simpa using Text.pairs hb (.cons hw hb₁ hne h) hb₂

lemma text_of_readPairs (h : readPairs s = .ok ps) : Text s ps := by
  fun_induction readPairs s generalizing ps with
  | case1 s hs =>
    obtain rfl := Except.ok.inj h
    obtain ⟨b, hb, hsb⟩ := exists_blank s
    rw [hs, List.append_nil] at hsb
    exact .blank (hsb ▸ hb)
  | case2 => cases h
  | case3 => cases h
  | case4 s c rest hs p after hp _ ps' hps ih =>
    obtain rfl := Except.ok.inj h
    obtain ⟨b, hb, hsb⟩ := exists_blank s
    obtain ⟨w, hw, hsplit, hafter⟩ := exists_pairText hp
    rw [hs, hsplit] at hsb
    exact hsb ▸ .cons hb hw hafter (ih hps)

lemma Text.readPairs_append {rest : Bytes} (h : Text s ps)
    (hrest : ∀ c ∈ rest.head?, isBlank c = true) :
    readPairs (s ++ rest) = (readPairs rest).map (ps ++ ·) := by
  cases h with
  | blank hb =>
    rw [readPairs_blank_append hb]
    cases readPairs rest <;> rfl
  | @pairs b w b' ps hb h hb' =>
    have hhead : ∀ c ∈ (b' ++ rest).head?, isBlank c = true := by
      cases b' with
      | nil => exact hrest
      | cons c b' => exact head?_append_blank hb' (List.cons_ne_nil c b') rest
    rw [List.append_assoc, List.append_assoc, Attribute.readPairs_append h hb hhead,
      readPairs_blank_append hb']

lemma readPairs_of_text (h : Text s ps) : readPairs s = .ok ps := by
  have hnone : ∀ c ∈ ([] : Bytes).head?, isBlank c = true := by simp
  have happend := h.readPairs_append hnone
  rw [readPairs_blank blank_nil, List.append_nil] at happend
  simpa [Except.map] using happend

end Attributes

end TrustRegions
