import TrustRegions.Proofs.Offsets
import TrustRegions.Proofs.Precedence

/-! The files that a rule for lines is for. Its file stands at the end of their paths, name by name, but the
first of its names can be the end of a longer one. -/

namespace TrustRegions

namespace Bytes

def EndsWhole (file path : Bytes) : Prop :=
  file = path ∨ file <:+ path ∧ (file.head? = some (byte '/') ∨
    (path.take (path.length - file.length)).getLast? = some (byte '/'))

instance (file path : Bytes) : Decidable (file.EndsWhole path) :=
  inferInstanceAs (Decidable (_ ∨ _ ∧ (_ ∨ _)))

variable {sep : UInt8} {s t name : Bytes} {names : List Bytes}

lemma pieces_append_piece {lines : List Bytes} {last : Bytes} (hlines : ∀ l ∈ lines, sep ∉ l)
    (hlast : sep ∉ last) (h : s.pieces sep = name :: names) :
    Bytes.pieces sep (lines.flatMap (· ++ [sep]) ++ last ++ s) = lines ++ (last ++ name) :: names := by
  rw [List.append_assoc, pieces_lines hlines, pieces_append hlast, h]
  rfl

lemma head?_eq_sep_iff (h : s.pieces sep = name :: names) :
    s.head? = some sep ↔ name = [] ∧ names ≠ [] := by
  cases s with
  | nil =>
    obtain ⟨rfl, rfl⟩ := List.cons.inj h
    simp
  | cons c s =>
    obtain ⟨more, hmore⟩ := pieces_eq_cons sep s
    rw [pieces, hmore] at h
    split at h
    · next hc =>
      obtain ⟨rfl, rfl⟩ := List.cons.inj h
      simp [hc]
    · next hc =>
      obtain ⟨rfl, rfl⟩ := List.cons.inj h
      simpa using hc

lemma getLast?_lines {lines : List Bytes} {last : Bytes} (hlast : sep ∉ last) :
    (lines.flatMap (· ++ [sep]) ++ last).getLast? = some sep ↔ last = [] ∧ lines ≠ [] := by
  rcases List.eq_nil_or_concat last with rfl | ⟨last, c, rfl⟩
  · rcases List.eq_nil_or_concat lines with rfl | ⟨lines, l, rfl⟩ <;> simp
  · have hc : c ≠ sep := by
      rintro rfl
      exact hlast (by simp)
    simp [hc]

lemma exists_names {file path : Bytes} (h : file <:+ path) :
    ∃ folders front name names, file.pieces (byte '/') = name :: names ∧
      path.pieces (byte '/') = folders ++ (front ++ name) :: names ∧
      (file.EndsWhole path ↔ front = [] ∨ name = [] ∧ names ≠ []) := by
  -- What is cut off the path is some whole names and the front of one more, which `file` goes on with.
  obtain ⟨before, rfl⟩ := h
  obtain ⟨folders, front, rfl, hfolders, hfront⟩ := exists_lines (byte '/') before
  obtain ⟨names, hnames⟩ := pieces_eq_cons (byte '/') file
  refine ⟨folders, front, _, names, hnames, pieces_append_piece hfolders hfront hnames, ?_⟩
  rw [EndsWhole, head?_eq_sep_iff hnames, List.length_append, Nat.add_sub_cancel, List.take_left,
    getLast?_lines hfront]
  constructor
  · rintro (heq | ⟨-, hslash | ⟨rfl, -⟩⟩)
    · have hbefore := List.self_eq_append_left.mp heq
      exact Or.inl (List.append_eq_nil_iff.mp hbefore).2
    · exact Or.inr hslash
    · exact Or.inl rfl
  · rintro (rfl | hslash)
    · rcases eq_or_ne folders [] with rfl | hne
      · exact Or.inl rfl
      · exact Or.inr ⟨List.suffix_append _ _, Or.inr ⟨rfl, hne⟩⟩
    · exact Or.inr ⟨List.suffix_append _ _, Or.inl hslash⟩

end Bytes

namespace TrustRules

/-- A verdict of a rule for lines comes from the first rule that has some of the lines and whose file ends the
path. The names of its file are then the last ones of the path, but the first of them can stand within a longer
name; just where it does not, the path ends with the file as a whole. -/
theorem lineRule_names (rules : TrustRules) (path : Bytes) (regions : Option RegionIndex)
    (lines : Option LineRange) (h : (rules.verdict path regions lines).authority = .lines) :
    ∃ range before rule after, lines = some range ∧ rules.lines = before ++ rule :: after ∧
      (∀ r ∈ before, r.applies path range = false) ∧ rules.verdict path regions lines = rule.verdict ∧
      (range.lo ≤ rule.last ∧ rule.first ≤ range.hi) ∧
      ∃ folders front name names, rule.file.toSlashes.pieces (byte '/') = name :: names ∧
        path.toSlashes.pieces (byte '/') = folders ++ (front ++ name) :: names ∧
        (rule.file.toSlashes.EndsWhole path.toSlashes ↔ front = [] ∨ name = [] ∧ names ≠ []) := by
  have hv := rules.decides_verdict path regions lines
  generalize rules.verdict path regions lines = v at h hv ⊢
  cases hv with
  | directive hd => exact absurd ((authority_directiveVerdict? hd).symm.trans h) (by decide)
  | @lineRule range before after rule _ hrange hlines hbefore hrule =>
    simp only [LineRule.applies, Bool.and_eq_true, List.isSuffixOf_iff_suffix, decide_eq_true_eq] at hrule
    obtain ⟨⟨hfile, hlast⟩, hfirst⟩ := hrule
    exact ⟨range, before, rule, after, hrange, hlines, hbefore, rfl, ⟨hlast, hfirst⟩,
      Bytes.exists_names hfile⟩
  | _ => cases h

def keyRules : TrustRules := { lines := [⟨ascii "key.rs", 1, 9, .autonomous, ascii "fixture"⟩] }

theorem lineRule_names_monkey :
    (keyRules.verdict (ascii "src/monkey.rs") none (some ⟨2, 1⟩)).authority = .lines ∧
    ¬(ascii "key.rs").EndsWhole (ascii "src/monkey.rs") ∧
    ∃ folders front name names, (ascii "key.rs").pieces (byte '/') = name :: names ∧
      (ascii "src/monkey.rs").pieces (byte '/') = folders ++ (front ++ name) :: names ∧ front ≠ [] := by
  have hauthority : (keyRules.verdict (ascii "src/monkey.rs") none (some ⟨2, 1⟩)).authority = .lines := by
    decide +kernel
  have hpart : ¬(ascii "key.rs").EndsWhole (ascii "src/monkey.rs") := by decide +kernel
  obtain ⟨_, before, rule, after, -, hlines, -, -, -, folders, front, name, names, hfile, hpath, hwhole⟩ :=
    lineRule_names keyRules (ascii "src/monkey.rs") none (some ⟨2, 1⟩) hauthority
  have hrule : rule ∈ keyRules.lines := by simp [hlines]
  obtain rfl := List.mem_singleton.mp hrule
  rw [show (ascii "src/monkey.rs").toSlashes = ascii "src/monkey.rs" by decide +kernel] at hpath hwhole
  refine ⟨hauthority, hpart, folders, front, name, names, hfile, hpath, fun hfront => ?_⟩
  exact hpart (hwhole.mpr (Or.inl hfront))

end TrustRules

end TrustRegions
