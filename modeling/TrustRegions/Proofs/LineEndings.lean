import TrustRegions.Marker
import TrustRegions.Proofs.Delimiters
import TrustRegions.Proofs.Offsets

/-! A content with a carriage return before each newline. Its lines and positions are those of the content
without, and so are the words that its comments say. -/

namespace TrustRegions

namespace Bytes

def crlf (t : Bytes) : Bytes := t.flatMap fun c => if c = newline then [carriageReturn, newline] else [c]

variable {t word : Bytes} {c : UInt8} {n k : Nat}

@[simp] lemma crlf_nil : crlf [] = [] := rfl

@[simp] lemma crlf_append (a b : Bytes) : crlf (a ++ b) = crlf a ++ crlf b := List.flatMap_append

lemma crlf_newline (t : Bytes) : crlf (newline :: t) = carriageReturn :: newline :: crlf t := rfl

lemma crlf_cons (h : c ≠ newline) (t : Bytes) : crlf (c :: t) = c :: crlf t := by
  rw [crlf, List.flatMap_cons, if_neg h]
  rfl

lemma crlf_of_notMem (h : newline ∉ t) : crlf t = t := by
  induction t with
  | nil => rfl
  | cons c t ih =>
    simp only [List.mem_cons, not_or] at h
    rw [crlf_cons (Ne.symm h.1), ih h.2]

lemma crlf_eq_nil_iff : crlf t = [] ↔ t = [] := by
  cases t with
  | nil => simp
  | cons c t =>
    by_cases hc : c = newline
    · simp [hc, crlf_newline]
    · simp [crlf_cons hc]

lemma getLast?_crlf (t : Bytes) : (crlf t).getLast? = t.getLast? := by
  rcases List.eq_nil_or_concat t with rfl | ⟨t, c, rfl⟩
  · rfl
  · rw [List.concat_eq_append, crlf_append]
    by_cases hc : c = newline
    · simp [hc, crlf_newline]
    · simp [crlf_cons hc]

def crlfOffset (t : Bytes) (k : Nat) : Nat := (crlf (t.take k)).length

lemma crlf_split (t : Bytes) (k : Nat) : crlf t = crlf (t.take k) ++ crlf (t.drop k) := by
  rw [← crlf_append, List.take_append_drop]

lemma take_crlf (t : Bytes) (k : Nat) : (crlf t).take (t.crlfOffset k) = crlf (t.take k) := by
  rw [crlf_split t k, crlfOffset, List.take_left]

lemma drop_crlf (t : Bytes) (k : Nat) : (crlf t).drop (t.crlfOffset k) = crlf (t.drop k) := by
  rw [crlf_split t k, crlfOffset, List.drop_left]

@[simp] lemma crlfOffset_zero (t : Bytes) : t.crlfOffset 0 = 0 := rfl

lemma crlfOffset_length (t : Bytes) : t.crlfOffset t.length = (crlf t).length := by
  rw [crlfOffset, List.take_length]

lemma crlfOffset_le (t : Bytes) (k : Nat) : t.crlfOffset k ≤ (crlf t).length := by
  rw [crlf_split t k, List.length_append]
  exact Nat.le_add_right _ _

lemma crlfOffset_append (a t : Bytes) : crlfOffset (a ++ t) a.length = (crlf a).length := by
  rw [crlfOffset, List.take_left]

lemma crlfOffset_add (t : Bytes) (k n : Nat) :
    t.crlfOffset (k + n) = t.crlfOffset k + crlfOffset (t.drop k) n := by
  rw [crlfOffset, List.take_add, crlf_append, List.length_append, crlfOffset, crlfOffset]

lemma crlfOffset_newline (t : Bytes) (k : Nat) :
    crlfOffset (newline :: t) (k + 1) = t.crlfOffset k + 2 := rfl

lemma crlfOffset_cons (h : c ≠ newline) (t : Bytes) (k : Nat) :
    crlfOffset (c :: t) (k + 1) = t.crlfOffset k + 1 := by
  rw [crlfOffset, List.take_succ_cons, crlf_cons h]
  rfl

lemma crlfOffset_succ (h : t[k]? = some c) :
    t.crlfOffset (k + 1) = t.crlfOffset k + if c = newline then 2 else 1 := by
  obtain ⟨hk, rfl⟩ := List.getElem?_eq_some_iff.mp h
  rw [crlfOffset_add, List.drop_eq_getElem_cons hk]
  split
  · next hc => rw [hc, crlfOffset_newline, crlfOffset_zero]
  · next hc => rw [crlfOffset_cons hc, crlfOffset_zero]

lemma crlfOffset_of_notMem (h : newline ∉ t.take k) (hk : k ≤ t.length) : t.crlfOffset k = k := by
  rw [crlfOffset, crlf_of_notMem h, List.length_take, Nat.min_eq_left hk]

lemma le_crlfOffset (hk : k ≤ t.length) : k ≤ t.crlfOffset k := by
  induction t generalizing k with
  | nil => exact hk.trans (Nat.zero_le _)
  | cons c t ih =>
    cases k with
    | zero => exact Nat.zero_le _
    | succ k =>
      have := ih (Nat.le_of_succ_le_succ hk)
      by_cases hc : c = newline
      · rw [hc, crlfOffset_newline]
        omega
      · rw [crlfOffset_cons hc]
        omega

lemma crlfOffset_lt (h : k < n) (hn : n ≤ t.length) : t.crlfOffset k < t.crlfOffset n := by
  obtain ⟨m, rfl⟩ := Nat.exists_eq_add_of_lt h
  have hle := le_crlfOffset (t := t.drop k) (k := m + 1) (by rw [List.length_drop]; omega)
  rw [Nat.add_assoc, crlfOffset_add]
  omega

section Words

variable (hw : ∀ b ∈ word, isBlank b = false)

include hw

lemma prefix_crlf_iff : word <+: crlf t ↔ word <+: t := by
  induction word generalizing t with
  | nil => simp
  | cons b word ih =>
    obtain ⟨hb, hw⟩ := List.forall_mem_cons.mp hw
    cases t with
    | nil => rfl
    | cons c t =>
      by_cases hc : c = newline
      · obtain ⟨hnewline, hreturn⟩ := Source.ne_of_not_blank hb
        simp [hc, crlf_newline, List.cons_prefix_cons, hnewline, hreturn]
      · simp [crlf_cons hc, List.cons_prefix_cons, ih hw]

lemma isPrefixOf_crlf (t : Bytes) : word.isPrefixOf (crlf t) = word.isPrefixOf t := by
  rw [Bool.eq_iff_iff, List.isPrefixOf_iff_prefix, List.isPrefixOf_iff_prefix, prefix_crlf_iff hw]

lemma includes_crlf (hne : word ≠ []) (t : Bytes) : includes word (crlf t) = includes word t := by
  have hblank {c : UInt8} (hc : isBlank c = true) (t : Bytes) : word.isPrefixOf (c :: t) = false := by
    obtain ⟨b, word, rfl⟩ := List.exists_cons_of_ne_nil hne
    have hbc : b ≠ c := by
      rintro rfl
      rw [hw b List.mem_cons_self] at hc
      cases hc
    rw [List.isPrefixOf_cons_cons, beq_eq_false_iff_ne.mpr hbc, Bool.false_and]
  induction t with
  | nil => rfl
  | cons c t ih =>
    by_cases hc : c = newline
    · subst hc
      rw [crlf_newline, includes, includes, includes, hblank (by decide), hblank (by decide),
        hblank (by decide), ih, Bool.false_or, Bool.false_or]
    · have hpre := isPrefixOf_crlf hw (c :: t)
      rw [crlf_cons hc] at hpre ⊢
      rw [includes, includes, hpre, ih]

end Words

section Lines

def returned : List Bytes → List Bytes
  | [] => []
  | [l] => [l]
  | l :: l' :: lines => (l ++ [carriageReturn]) :: returned (l' :: lines)

lemma pieces_crlf (t : Bytes) : pieces newline (crlf t) = returned (pieces newline t) := by
  induction t with
  | nil => rfl
  | cons c t ih =>
    obtain ⟨more, hmore⟩ := pieces_eq_cons newline t
    by_cases hc : c = newline
    · rw [hc, crlf_newline, pieces, if_neg (by decide), pieces, if_pos rfl, ih, pieces,
        if_pos rfl, hmore]
      rfl
    · rw [crlf_cons hc, pieces, if_neg hc, ih, pieces, if_neg hc, hmore]
      cases more <;> rfl

lemma map_returned {α : Type} {f : Bytes → α} {lines : List Bytes}
    (h : ∀ l ∈ lines, f (l ++ [carriageReturn]) = f l) : (returned lines).map f = lines.map f := by
  induction lines with
  | nil => rfl
  | cons l lines ih =>
    obtain ⟨hl, hlines⟩ := List.forall_mem_cons.mp h
    cases lines with
    | nil => rfl
    | cons l' lines =>
      rw [returned, List.map_cons, hl, ih hlines]
      rfl

lemma pieces_subset (h : word ∈ pieces newline t) : word ⊆ t := by
  induction t generalizing word with
  | nil =>
    obtain rfl := List.mem_singleton.mp h
    exact List.Subset.refl _
  | cons c t ih =>
    rw [pieces] at h
    split at h
    · rcases List.mem_cons.mp h with rfl | h
      · exact List.nil_subset _
      · exact List.subset_cons_of_subset c (ih h)
    · obtain ⟨more, hmore⟩ := pieces_eq_cons newline t
      rw [hmore, List.modifyHead_cons] at h
      rcases List.mem_cons.mp h with rfl | h
      · exact List.cons_subset_cons c (ih (hmore ▸ List.mem_cons_self))
      · exact List.subset_cons_of_subset c (ih (hmore ▸ List.mem_cons_of_mem _ h))

lemma takeWhile_crlf (t : Bytes) :
    (crlf t).takeWhile (· ≠ newline) =
      t.takeWhile (· ≠ newline) ++ if newline ∈ t then [carriageReturn] else [] := by
  induction t with
  | nil => rfl
  | cons c t ih =>
    by_cases hc : c = newline
    · simp [hc, crlf_newline, show carriageReturn ≠ newline by decide]
    · rw [crlf_cons hc, List.takeWhile_cons_of_pos (by simpa using hc),
        List.takeWhile_cons_of_pos (by simpa using hc), ih]
      simp [Ne.symm hc]

lemma crlfOffset_takeWhile (t : Bytes) :
    t.crlfOffset (t.takeWhile (· ≠ newline)).length = (t.takeWhile (· ≠ newline)).length := by
  have hpre := List.takeWhile_prefix (l := t) (· ≠ newline)
  refine crlfOffset_of_notMem (fun hmem => ?_) hpre.length_le
  rw [← List.prefix_iff_eq_take.mp hpre] at hmem
  simpa using List.mem_takeWhile_imp hmem

lemma trim_concat (hc : isBlank c = true) (t : Bytes) : trim (t ++ [c]) = trim t := by
  rw [trim, List.dropWhile_append]
  split
  · next hnil =>
    rw [trim, List.isEmpty_iff.mp hnil, List.dropWhile_cons_of_pos hc]
    rfl
  · rw [List.reverse_append, List.reverse_singleton, List.singleton_append,
      List.dropWhile_cons_of_pos hc, trim]

end Lines

end Bytes

namespace Marker

lemma words_crlf (text : Bytes) : words .block (Bytes.crlf text) = words .block text := by
  have hlines (l : Bytes) : undecorate .block (l ++ [carriageReturn]) = undecorate .block l := by
    rw [undecorate, Bytes.trim_concat (by decide), undecorate]
  have hmap : (Bytes.returned (text.pieces newline)).map (undecorate .block) =
      (text.pieces newline).map (undecorate .block) := Bytes.map_returned fun l _ => hlines l
  simp only [words, Bytes.pieces_crlf, hmap]

lemma ofText_crlf (text : Bytes) : ofText .block (Bytes.crlf text) = ofText .block text := by
  rw [ofText, words_crlf, ofText]

end Marker

namespace Source

def crlf (s : Source) : Source := ⟨s.content.crlf⟩

variable {s : Source} {k : Nat}

lemma positionAt_crlf (s : Source) (k : Nat) :
    s.crlf.positionAt (s.content.crlfOffset k) = s.positionAt k := by
  have hfold (t : Bytes) (p : Position) :
      t.crlf.foldl Position.advance p = t.foldl Position.advance p := by
    induction t generalizing p with
    | nil => rfl
    | cons c t ih =>
      by_cases hc : c = newline
      · rw [hc, Bytes.crlf_newline, List.foldl_cons, List.foldl_cons, List.foldl_cons, ih]
        rfl
      · rw [Bytes.crlf_cons hc, List.foldl_cons, List.foldl_cons, ih]
  rw [positionAt, crlf, Bytes.take_crlf, hfold, positionAt]

lemma offsetAt_crlf (s : Source) (k : Nat) :
    s.crlf.offsetAt (s.positionAt k) = s.content.crlfOffset k := by
  rw [← positionAt_crlf]
  exact offsetAt_positionAt (Bytes.crlfOffset_le _ _)

lemma chomp_concat (l : Bytes) : chomp (l ++ [carriageReturn]) = l := by
  rw [chomp, if_pos (by simp), List.dropLast_concat]

lemma chomp_of_notMem {l : Bytes} (h : carriageReturn ∉ l) : chomp l = l :=
  if_neg fun hlast => h (List.mem_of_getLast? hlast)

lemma chomp_takeWhile_crlf {t : Bytes} (h : carriageReturn ∉ t) :
    chomp (t.crlf.takeWhile (· ≠ newline)) = t.takeWhile (· ≠ newline) := by
  rw [Bytes.takeWhile_crlf]
  split
  · exact chomp_concat _
  · rw [List.append_nil]
    exact chomp_of_notMem fun hmem => h ((List.takeWhile_prefix _).subset hmem)

lemma map_chomp_crlf (h : carriageReturn ∉ s.content) :
    s.crlf.rawLines.map chomp = s.rawLines.map chomp := by
  rw [rawLines, crlf, Bytes.pieces_crlf]
  refine Bytes.map_returned fun l hl => ?_
  rw [chomp_concat, chomp_of_notMem fun hmem => h (Bytes.pieces_subset hl hmem)]

lemma line_crlf (h : carriageReturn ∉ s.content) (n : Nat) : s.crlf.line n = s.line n := by
  have hget (s : Source) (i : Nat) :
      chomp (s.rawLines.getD i []) = (s.rawLines.map chomp).getD i [] := by
    rw [List.getD_eq_getElem?_getD, List.getD_eq_getElem?_getD, List.getElem?_map]
    cases s.rawLines[i]? <;> rfl
  rw [line, hget, map_chomp_crlf h, ← hget, line]

end Source

end TrustRegions
