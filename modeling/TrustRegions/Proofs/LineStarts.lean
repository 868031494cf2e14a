import TrustRegions.Proofs.Extents
import TrustRegions.Proofs.NestedWalks

/-! A comment that comes first on its line has only blanks of code before it there, and a declaration
after it has only blanks and comments. -/

namespace TrustRegions

namespace Language

variable {lang : Language} {content : Bytes} {g s : Segment} {x : UInt8 × Layer}
  {before after : List (UInt8 × Layer)}

lemma stop_le_of_start_lt {o : Nat} (hs : s ∈ lang.segments content o)
    (hg : g ∈ lang.segments content o) (hlt : s.start < g.start) : s.stop ≤ g.start := by
  have hsorted := lang.pairwise_segments content o
  refine List.Pairwise.forall_of_forall_of_flip
    (R := fun s g => s.start < g.start → s.stop ≤ g.start)
    (fun _ _ h => absurd h (Nat.lt_irrefl _)) (hsorted.imp ?_) (hsorted.imp_of_mem ?_) hs hg hlt
  · exact fun h _ => h
  · intro s g hs _ hle hlt
    have := start_lt_stop hs
    omega

lemma code_before (hl : lang.Legible) (hg : g ∈ lang.segments content 0)
    (hshows : ∃ c, content[g.start]? = some c ∧ isBlank c = false)
    (h : (lang.layers content 0).take g.start = before ++ x :: after)
    (hblank : ∀ y ∈ x :: after, isBlank y.1 = true) (hline : ∀ y ∈ after, y.1 ≠ newline) :
    x.2 = .code := by
  obtain ⟨c₀, hc₀, hb₀⟩ := hshows
  have hlength := congrArg List.length h
  have hend := (List.getElem?_eq_some_iff.mp hc₀).1
  rw [List.length_take, length_layers, List.length_append, List.length_cons, Nat.sub_zero,
    Nat.min_eq_left hend.le] at hlength
  have hget {j : Nat} (hj : before.length ≤ j) (hlt : j < g.start) :
      (lang.layers content 0)[j]? = (x :: after)[j - before.length]? := by
    rw [← List.getElem?_append_right hj, ← h, List.getElem?_take_of_lt hlt]
  have hbyte {j : Nat} : content[j]? = (lang.layers content 0)[j]?.map (·.1) := by
    rw [← List.getElem?_map, map_fst_layers, List.drop_zero]
  have hx : (lang.layers content 0)[before.length]? = some x := by
    rw [hget le_rfl (by omega), Nat.sub_self]
    rfl
  obtain ⟨s, hs, hle, hlt⟩ := lang.exists_segment (Nat.zero_le before.length)
    (show before.length < content.length by omega)
  rw [layer_of_mem hs hle hlt hx]
  by_contra hkind
  have hstop := stop_le_of_start_lt hs hg (by omega)
  rcases (looks_of_mem hl hs).endsAt hkind with hover | hnext | ⟨c, hpos, hlast, hc⟩
  · rw [List.length_drop, Segment.length] at hover
    omega
  · rw [List.getElem?_drop, Segment.length, show s.start + (s.stop - s.start) = s.stop by omega]
      at hnext
    rcases hstop.lt_or_eq with hbefore | heq
    · obtain ⟨j, hj⟩ : ∃ j, s.stop - before.length = j + 1 := ⟨s.stop - before.length - 1, by omega⟩
      rw [hbyte, hget hlt.le hbefore, hj, List.getElem?_cons_succ] at hnext
      obtain ⟨y, hy, hyn⟩ := Option.map_eq_some_iff.mp hnext
      exact hline y (List.mem_of_getElem? hy) hyn
    · rw [heq, hc₀] at hnext
      obtain rfl := Option.some.inj hnext
      exact absurd hb₀ (by decide)
  · rw [List.getElem?_drop, Segment.length, hbyte, hget (by omega) (by omega)] at hlast
    obtain ⟨y, hy, rfl⟩ := Option.map_eq_some_iff.mp hlast
    rw [hblank y (List.mem_of_getElem? hy)] at hc
    exact absurd hc (by decide)

end Language

open BraceWalk

lemma foldl_freshAfter_of_leading {l : List (UInt8 × Layer)} (h : ∀ b ∈ l, isLeading b = true) :
    l.foldl freshAfter true = true := by
  induction l with
  | nil => rfl
  | cons b l ih =>
    obtain ⟨hb, hl⟩ := List.forall_mem_cons.mp h
    rw [List.foldl_cons, freshAfter, hb, Bool.and_self, Bool.or_true, ih hl]

section Declarations

variable {source : Source} {lang : Language} {g : Segment} {c : Comment} {stop : Nat} {t : Span}

lemma Comment.Fills.exists_line_before (h : c.Fills source g stop) (hl : lang.Legible)
    (hg : g ∈ lang.segments source.content 0) (hc : c.trailing = false) :
    ∃ lines head, (lang.layers source.content 0).take g.start = lines ++ head ∧
      (∀ b ∈ lines.getLast?, b = (newline, .code)) ∧
      ∀ b ∈ head, b.2 = .code ∧ isIndent b.1 = true := by
  obtain ⟨before, hbefore, hlast⟩ := source.take_eq_append_lineHead g.start
  have hmap : ((lang.layers source.content 0).take g.start).map (·.1) =
      before ++ source.lineHead g.start := by
    rw [List.map_take, Language.map_fst_layers, List.drop_zero, hbefore]
  obtain ⟨lines, head, hsplit, rfl, hhead⟩ := List.map_eq_append_iff.mp hmap
  have hindent : ∀ b ∈ head, isIndent b.1 = true := fun b hb =>
    h.isIndent_before hc (hhead ▸ List.mem_map_of_mem hb)
  have hblank : ∀ b ∈ head, isBlank b.1 = true := fun b hb => isBlank_of_isIndent (hindent b hb)
  have hline : ∀ b ∈ head, b.1 ≠ newline := by
    rintro b hb heq
    refine source.newline_notMem_lineHead g.start ?_
    rw [← hhead, ← heq]
    exact List.mem_map_of_mem hb
  refine ⟨lines, head, hsplit, ?_, ?_⟩
  · intro b hb
    obtain ⟨lines, rfl⟩ := List.getLast?_eq_some_iff.mp hb
    have hnewline : b.1 = newline := hlast b.1 (by simp)
    rw [List.append_assoc] at hsplit
    have hlayer : b.2 = .code := by
      refine Language.code_before hl hg h.shows hsplit ?_ hline
      exact List.forall_mem_cons.mpr ⟨by rw [hnewline]; rfl, hblank⟩
    exact Prod.ext hnewline hlayer
  · intro b hb
    refine ⟨?_, hindent b hb⟩
    obtain ⟨head₁, head₂, rfl⟩ := List.append_of_mem hb
    rw [← List.append_assoc] at hsplit
    exact Language.code_before hl hg h.shows hsplit
      (fun y hy => hblank y (List.mem_append_right _ hy))
      (fun y hy => hline y (List.mem_append_right _ (List.mem_cons_of_mem b hy)))

lemma isLeading_of_indent {b : UInt8 × Layer} (h : b.2 = .code ∧ isIndent b.1 = true) :
    isLeading b = true := by
  simp [isLeading, h.1, isBlank_of_isIndent h.2]

lemma Comment.Fills.fresh (h : c.Fills source g stop) (hl : lang.Legible)
    (hg : g ∈ lang.segments source.content 0) (hc : c.trailing = false) :
    ((lang.layers source.content 0).take g.start).foldl freshAfter true = true := by
  obtain ⟨lines, head, hsplit, hlast, hhead⟩ := h.exists_line_before hl hg hc
  have hlines : lines.foldl freshAfter true = true := by
    rcases List.eq_nil_or_concat' lines with rfl | ⟨lines, b, rfl⟩
    · rfl
    · rw [hlast b (by simp), List.foldl_concat]
      rfl
  rw [hsplit, List.foldl_append, hlines]
  exact foldl_freshAfter_of_leading fun b hb => isLeading_of_indent (hhead b hb)

end Declarations

end TrustRegions
