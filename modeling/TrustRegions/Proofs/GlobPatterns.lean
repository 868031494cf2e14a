import TrustRegions.Proofs.AttributeGrammar
import TrustRegions.Trust.Glob

/-! The texts that a glob pattern stands for, said of the pattern itself, and that the matcher finds just
these. -/

namespace TrustRegions

namespace Glob

inductive Denotes : Bytes → Bytes → Prop
  | nil : Denotes [] []
  | stars {n : Nat} {pattern text rest : Bytes} : 2 ≤ n → pattern.head? ≠ some (byte '*') →
      Denotes pattern rest → Denotes (List.replicate n (byte '*') ++ pattern) (text ++ rest)
  | noFolder {n : Nat} {pattern text : Bytes} : 2 ≤ n → Denotes pattern text →
      Denotes (List.replicate n (byte '*') ++ byte '/' :: pattern) text
  | star {pattern text rest : Bytes} : pattern.head? ≠ some (byte '*') → byte '/' ∉ text →
      Denotes pattern rest → Denotes (byte '*' :: pattern) (text ++ rest)
  | anyByte {c : UInt8} {pattern text : Bytes} : Denotes pattern text →
      Denotes (byte '?' :: pattern) (c :: text)
  | exactly {c : UInt8} {pattern text : Bytes} : c ≠ byte '*' → c ≠ byte '?' →
      Denotes pattern text → Denotes (c :: pattern) (c :: text)

variable {p : UInt8 → Bool} {test : Bytes → Bool} {c : UInt8} {n : Nat}
  {pattern text rest s : Bytes} {ps : List Piece}

lemma isStar_iff : isStar c = true ↔ c = byte '*' := beq_iff_eq

lemma anyEnd_iff : anyEnd p test s = true ↔
    ∃ text rest, s = text ++ rest ∧ (∀ c ∈ text, p c = true) ∧ test rest = true := by
  induction s with
  | nil =>
    rw [anyEnd]
    constructor
    · exact fun h => ⟨[], [], rfl, by simp, h⟩
    · rintro ⟨text, rest, h, -, htest⟩
      obtain ⟨-, rfl⟩ := List.append_eq_nil_iff.mp h.symm
      exact htest
  | cons c s ih =>
    rw [anyEnd, Bool.or_eq_true, Bool.and_eq_true, ih]
    constructor
    · rintro (h | ⟨hc, text, rest, rfl, htext, htest⟩)
      · exact ⟨[], c :: s, rfl, by simp, h⟩
      · exact ⟨c :: text, rest, rfl, List.forall_mem_cons.mpr ⟨hc, htext⟩, htest⟩
    · rintro ⟨text, rest, h, htext, htest⟩
      cases text with
      | nil =>
        rw [List.nil_append] at h
        exact Or.inl (h ▸ htest)
      | cons b text =>
        obtain ⟨rfl, rfl⟩ := List.cons.inj h
        obtain ⟨hb, htext⟩ := List.forall_mem_cons.mp htext
        exact Or.inr ⟨hb, text, rest, rfl, htext, htest⟩

section Pieces

lemma pieces_star (h : pattern.head? ≠ some (byte '*')) :
    pieces (byte '*' :: pattern) = .star :: pieces pattern := by
  have hnone : pattern.head?.any isStar = false := by
    cases pattern with
    | nil => rfl
    | cons c pattern => simpa [isStar] using h
  rw [pieces, if_pos (by decide), hnone, if_neg (by decide)]

lemma pieces_anyByte (pattern : Bytes) : pieces (byte '?' :: pattern) = .anyByte :: pieces pattern := by
  rw [pieces, if_neg (by decide), if_pos rfl]

lemma pieces_exactly (hstar : c ≠ byte '*') (hany : c ≠ byte '?') (pattern : Bytes) :
    pieces (c :: pattern) = .exactly c :: pieces pattern := by
  rw [pieces, if_neg (mt isStar_iff.mp hstar), if_neg hany]

lemma pieces_stars (hn : 2 ≤ n) (h : pattern.head? ≠ some (byte '*')) :
    pieces (List.replicate n (byte '*') ++ pattern) =
      if pattern.head? = some (byte '/') then .deepSlash :: pieces pattern.tail
      else .deep :: pieces pattern := by
  obtain ⟨n, rfl⟩ := Nat.exists_eq_add_of_le' hn
  have hafter : (List.replicate (n + 1) (byte '*') ++ pattern).dropWhile isStar = pattern := by
    refine Bytes.dropWhile_append_of_head (by simp [isStar]) fun c hc => ?_
    rw [Option.mem_def.mp hc] at h
    simpa [isStar] using h
  rw [List.replicate_succ, List.cons_append, pieces, if_pos (by decide), if_pos (by rfl), hafter]

lemma exists_stars (hc : isStar c = true) (hrest : rest.head?.any isStar = true) :
    ∃ n, 2 ≤ n ∧ c :: rest = List.replicate n (byte '*') ++ rest.dropWhile isStar := by
  have hrow : rest.takeWhile isStar = List.replicate (rest.takeWhile isStar).length (byte '*') :=
    List.eq_replicate_of_mem fun b hb => isStar_iff.mp (Bytes.of_mem_takeWhile isStar rest b hb)
  refine ⟨(rest.takeWhile isStar).length + 1, ?_, ?_⟩
  · cases rest with
    | nil => simp at hrest
    | cons b rest =>
      rw [List.takeWhile_cons_of_pos (by simpa using hrest), List.length_cons]
      omega
  · rw [List.replicate_succ, ← hrow, isStar_iff.mp hc, List.cons_append, List.takeWhile_append_dropWhile]

end Pieces

lemma matchesPieces_of_denotes (h : Denotes pattern s) : matchesPieces (pieces pattern) s = true := by
  induction h with
  | nil => simp [pieces, matchesPieces]
  | @stars n pattern text rest hn hhead _ ih =>
    rw [pieces_stars hn hhead]
    split
    · -- The piece holds the slash as well, which the rest of the pattern matches on its own here.
      next hslash =>
      obtain ⟨pattern, rfl⟩ := List.head?_eq_some_iff.mp hslash
      rw [pieces_exactly (by decide) (by decide), matchesPieces] at ih
      rw [matchesPieces, Bool.or_eq_true]
      exact Or.inr (anyEnd_iff.mpr ⟨text, rest, rfl, fun _ _ => rfl, ih⟩)
    · exact anyEnd_iff.mpr ⟨text, rest, rfl, fun _ _ => rfl, ih⟩
  | noFolder hn _ ih =>
    have hslash : byte '/' ≠ byte '*' := by decide
    rw [pieces_stars hn (by simpa using hslash), List.head?_cons, if_pos rfl, matchesPieces,
      Bool.or_eq_true]
    exact Or.inl ih
  | @star pattern text rest hhead htext _ ih =>
    rw [pieces_star hhead]
    refine anyEnd_iff.mpr ⟨text, rest, rfl, fun c hc => ?_, ih⟩
    simpa using ne_of_mem_of_not_mem hc htext
  | anyByte _ ih => simp [pieces_anyByte, matchesPieces, ih]
  | exactly hstar hany _ ih => simp [pieces_exactly hstar hany, matchesPieces, ih]

lemma denotes_of_matchesPieces (h : matchesPieces (pieces pattern) s = true) : Denotes pattern s := by
  fun_induction pieces pattern generalizing s with
  | case1 =>
    obtain rfl : s = [] := List.isEmpty_iff.mp h
    exact .nil
  | case2 c rest hc hrest _ after hslash =>
    rename_i ih
    obtain ⟨n, hn, hrow⟩ := exists_stars hc hrest
    obtain ⟨below, hbelow⟩ := List.head?_eq_some_iff.mp hslash
    have htail : after.tail = below := congrArg List.tail hbelow
    rw [hrow, show rest.dropWhile isStar = byte '/' :: below from hbelow]
    rw [htail] at h ih
    rw [matchesPieces, Bool.or_eq_true] at h
    rcases h with h | h
    · exact .noFolder hn (ih h)
    · obtain ⟨text, s, rfl, -, hs⟩ := anyEnd_iff.mp h
      simp only [Bool.and_eq_true, beq_iff_eq] at hs
      obtain ⟨s, rfl⟩ := List.head?_eq_some_iff.mp hs.1
      have hne : byte '/' ≠ byte '*' := by decide
      exact .stars hn (by simpa using hne) (.exactly hne (by decide) (ih hs.2))
  | case3 c rest hc hrest _ after hslash =>
    rename_i ih
    obtain ⟨n, hn, hrow⟩ := exists_stars hc hrest
    obtain ⟨text, s, rfl, -, hs⟩ := anyEnd_iff.mp h
    rw [hrow]
    refine .stars hn (fun hhead => ?_) (ih hs)
    exact absurd (Bytes.head?_dropWhile isStar rest _ hhead) (by decide)
  | case4 c rest hc hrest ih =>
    obtain ⟨text, s, rfl, htext, hs⟩ := anyEnd_iff.mp h
    obtain rfl := isStar_iff.mp hc
    refine .star (fun hhead => hrest ?_) (fun hmem => ?_) (ih hs)
    · rw [hhead]
      rfl
    · exact absurd (htext _ hmem) (by decide)
  | case5 rest _ ih =>
    simp only [matchesPieces, Bool.and_eq_true] at h
    cases s with
    | nil => simp at h
    | cons c s => exact .anyByte (ih h.2)
  | case6 c rest hstar hany ih =>
    simp only [matchesPieces, Bool.and_eq_true, beq_iff_eq] at h
    obtain ⟨s, rfl⟩ := List.head?_eq_some_iff.mp h.1
    exact .exactly (mt isStar_iff.mpr hstar) hany (ih h.2)

/-- A path matches a pattern exactly if it is one of the texts that the pattern stands for, where
backslashes count as slashes in both. -/
theorem matchesPath_iff_denotes (pattern path : Bytes) :
    matchesPath pattern path = true ↔ Denotes pattern.toSlashes path.toSlashes :=
  ⟨denotes_of_matchesPieces, matchesPieces_of_denotes⟩

end Glob

end TrustRegions
