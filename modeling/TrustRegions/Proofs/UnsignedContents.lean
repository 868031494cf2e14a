import TrustRegions.Proofs.CommentWords
import TrustRegions.Proofs.Lookup
import TrustRegions.Proofs.Offsets
import TrustRegions.Proofs.ScanRegions

/-! A content without the sign of a directive has no effect. The words of a comment are put together from
parts of its lines with spaces in between, and the sign has no space in it. -/

namespace TrustRegions

open Bytes

namespace Bytes

variable {sep : UInt8} {word t p : Bytes}

lemma includes_iff : includes word t = true ↔ word <:+: t := by
  induction t with
  | nil => simp [includes]
  | cons c t ih =>
    rw [includes, Bool.or_eq_true, ih, List.isPrefixOf_iff_prefix, List.infix_cons_iff]

lemma prefix_of_prefix_intercalate {w : Bytes} {ws : List Bytes} (hsep : sep ∉ word)
    (h : word <+: [sep].intercalate (w :: ws)) : word <+: w := by
  cases ws with
  | nil => simpa using h
  | cons v ws =>
    rw [List.intercalate_cons_cons, List.append_assoc, List.singleton_append,
      prefix_append_cons_iff hsep] at h
    exact h

end Bytes

namespace Marker

variable {style : CommentStyle} {text line : Bytes}

lemma infix_undecorate (style : CommentStyle) (line : Bytes) : undecorate style line <:+: line :=
  (infix_trim _).trans ((List.dropWhile_suffix _).isInfix.trans (infix_trim line))

lemma sign_infix_of_prefix_words (h : sign <+: words style text) : sign <:+: text := by
  -- In both styles the words are parts of the lines, and the sign fits into the first that is left.
  obtain ⟨ls, hwords, hls⟩ : ∃ ls : List Bytes,
      words style text = [space].intercalate (ls.filter (· ≠ [])) ∧
      ∀ l ∈ ls, ∃ p ∈ text.pieces newline, l <:+: p := by
    cases style with
    | block =>
      refine ⟨_, words_block text, fun l hl => ?_⟩
      obtain ⟨p, hp, rfl⟩ := List.mem_map.mp hl
      exact ⟨p, hp, infix_undecorate .block p⟩
    | line =>
      obtain ⟨more, hpieces⟩ := pieces_eq_cons newline text
      refine ⟨_, words_line hpieces, fun l hl => ?_⟩
      rw [hpieces]
      rcases List.mem_cons.mp hl with rfl | hl
      · exact ⟨_, List.mem_cons_self, infix_undecorate .line _⟩
      · obtain ⟨p, hp, rfl⟩ := List.mem_map.mp hl
        exact ⟨p, List.mem_cons_of_mem _ hp, infix_trim p⟩
  cases hfilter : ls.filter (· ≠ []) with
  | nil =>
    rw [hwords, hfilter] at h
    exact absurd (List.prefix_nil.mp h) (by decide)
  | cons l more =>
    rw [hwords, hfilter] at h
    have hl : l ∈ ls := List.mem_of_mem_filter (hfilter ▸ List.mem_cons_self)
    obtain ⟨p, hp, hpart⟩ := hls l hl
    exact (prefix_of_prefix_intercalate (by decide) h).isInfix.trans
      (hpart.trans (infix_of_mem_pieces hp))

lemma ofText_of_unsigned (h : ¬sign <:+: text) : ofText style text = .none := by
  rw [ofText]
  exact if_neg fun hpre => h (sign_infix_of_prefix_words (List.isPrefixOf_iff_prefix.mp hpre))

end Marker

namespace Source

variable {source : Source} {lang : Language} {c : Comment}

lemma text_infix_of_mem_comments (hc : c ∈ source.comments lang) : c.text <:+: source.content := by
  obtain ⟨s, -, hs⟩ := List.mem_filterMap.mp hc
  rw [Comment.ofSegment?] at hs
  split at hs
  · obtain rfl := Option.some.inj hs
    exact (List.take_prefix _ _).isInfix.trans (List.drop_suffix _ _).isInfix
  · cases hs

lemma foldl_read_unmarked (source : Source) {cs : List Comment}
    (h : ∀ c ∈ cs, Marker.ofComment c = .none) : cs.foldl (DirectiveReader.read source) {} = {} := by
  induction cs with
  | nil => rfl
  | cons c cs ih =>
    obtain ⟨hc, hcs⟩ := List.forall_mem_cons.mp h
    have hstep : DirectiveReader.read source {} c = {} := by
      rw [DirectiveReader.read, hc]
      rfl
    rw [List.foldl_cons, hstep, ih hcs]

lemma directives_of_unmarked (h : ∀ c ∈ source.comments lang, Marker.ofComment c = .none) :
    source.directives lang = ([], []) := by
  rw [directives, Directive.ofComments, foldl_read_unmarked source h]
  rfl

end Source

lemma Region.resolve_nil : resolve [] = ([], []) := by
  simp [resolve, resolveOrdered, Placement.ordered, Placement.nestable, Placement.crossings, Placement.regionsFrom]

namespace Scan

/-- A content that never has the sign says nothing to a scan, in any language. -/
theorem scan_without_sign (path tag content : Bytes) (h : ¬ascii "@collab" <:+: content) :
    let s := scan path tag content
    s.directives = [] ∧ s.regions = [] ∧ s.diagnostics = [] ∧ ∀ p, s.index.governance? p = none := by
  intro s
  have hsilent : ∀ c ∈ (Source.mk content).comments (Language.ofTag tag),
      Marker.ofComment c = .none := fun c hc =>
    Marker.ofText_of_unsigned fun hsign => h (hsign.trans (Source.text_infix_of_mem_comments hc))
  have hdirectives := Source.directives_of_unmarked hsilent
  have hlanguage : unknownLanguageDiagnostics tag content = [] :=
    if_neg fun hunknown => h (includes_iff.mp hunknown.2)
  have hscan : s = ⟨path, (Language.ofTag tag).tag, [], [], []⟩ := by
    simp [s, scan, hdirectives, hlanguage, Region.resolve_nil]
  have hforest : Region.Forest s.regions := forest_scan path tag content
  rw [hscan] at hforest ⊢
  refine ⟨rfl, rfl, rfl, fun p => RegionIndex.governance?_eq_none hforest fun i hi => ?_⟩
  obtain ⟨r, hr, -⟩ := hi
  simp at hr

def splitSign : Bytes := ascii "/* @\n * collab trust=READ_ONLY */\n// @ collab:begin\nlet x\n"

theorem scan_without_sign_splitSign :
    ¬ascii "@collab" <:+: splitSign ∧
      (scan (ascii "a.rs") (ascii "rust") splitSign).directives = [] ∧
      (scan (ascii "a.rs") (ascii "rust") splitSign).diagnostics = [] := by
  have hsign : ¬ascii "@collab" <:+: splitSign := by
    rw [← includes_iff]
    decide
  obtain ⟨hdirectives, -, hdiagnostics, -⟩ :=
    scan_without_sign (ascii "a.rs") (ascii "rust") splitSign hsign
  exact ⟨hsign, hdirectives, hdiagnostics⟩

end Scan

end TrustRegions
