import Mathlib.Data.List.Nodup
import TrustRegions.Comment
import TrustRegions.Proofs.Delimiters
import TrustRegions.Proofs.Offsets

/-! The comments of a content come one after the other, and each shows on the line that it starts on. -/

namespace TrustRegions

namespace Comment

/-- The comment is made from a segment. Its text shows up to the offset `stop`, which only a carriage
return can separate from the end of the segment. -/
structure Fills (source : Source) (g : Segment) (stop : Nat) (c : Comment) : Prop where
  layer : g.kind.layer = .comment
  start_eq : c.span.start = source.positionAt g.start
  stop_eq : c.span.stop = source.positionAt stop
  start_lt : g.start < stop
  reaches : stop = g.stop ∨
    stop + 1 = g.stop ∧ source.content[stop]? = some carriageReturn
  shows : ∃ b, source.content[g.start]? = some b ∧ isBlank b = false
  trailing_eq : c.trailing = (source.lineHead g.start).any fun b => !isIndent b

variable {source : Source} {lang : Language} {g : Segment} {c : Comment} {stop : Nat}

lemma Fills.stop_le (h : c.Fills source g stop) : stop ≤ g.stop := by
  rcases h.reaches with h | h <;> omega

lemma Fills.stop_le_length (h : c.Fills source g stop) (hg : g ∈ lang.segments source.content 0) :
    stop ≤ source.content.length := h.stop_le.trans (Language.stop_le_length hg)

lemma Fills.exists_blanks (h : c.Fills source g stop) :
    ∃ n, stop + n = g.stop ∧ ∀ b ∈ (source.content.drop stop).take n, isBlank b = true := by
  rcases h.reaches with heq | ⟨heq, hcr⟩
  · exact ⟨0, heq, by simp⟩
  · obtain ⟨hlt, hget⟩ := List.getElem?_eq_some_iff.mp hcr
    refine ⟨1, heq, ?_⟩
    rw [List.drop_eq_getElem_cons hlt, hget]
    simp [isBlank]

lemma shows_of_prefix {content d : Bytes} {o : Nat} (hd : Bytes.IsWord d) (h : d <+: content.drop o) :
    ∃ b, content[o]? = some b ∧ isBlank b = false := by
  obtain ⟨b, d', rfl⟩ := List.exists_cons_of_ne_nil hd.1
  obtain ⟨rest, hrest⟩ := h
  refine ⟨b, ?_, hd.2 b List.mem_cons_self⟩
  rw [← Nat.add_zero o, ← List.getElem?_drop, ← hrest]
  rfl

lemma exists_fills (hl : lang.Legible) (hg : g ∈ lang.segments source.content 0)
    (hc : ofSegment? source g = some c) : ∃ stop, c.Fills source g stop := by
  rw [ofSegment?] at hc
  split at hc
  · next style d body hkind =>
    obtain rfl := Option.some.inj hc
    have hlooks := lang.looks_of_mem hl hg
    rw [hkind] at hlooks
    obtain ⟨-, -, hpre, hword, -, hline⟩ := hlooks
    have hlayer : g.kind.layer = .comment := by rw [hkind]; rfl
    obtain ⟨b, hb, hblank⟩ := shows_of_prefix hword hpre
    have hlt := Language.start_lt_stop hg
    have hhead : (source.line (source.positionAt g.start).line).take
        ((source.positionAt g.start).column - 1) = source.lineHead g.start := by
      rw [source.line_of_not_blank hb hblank, source.column_eq, Nat.add_sub_cancel, List.take_left]
    cases style with
    | block =>
      exact ⟨g.stop, hlayer, rfl, rfl, hlt, Or.inl rfl, ⟨b, hb, hblank⟩, by rw [hhead]⟩
    | line =>
      obtain ⟨a, ha, hstop, hreaches⟩ := Source.exists_endOfLine hb hblank
      have hend : g.start + (source.lineTail g.start).length = g.stop := by
        rw [Source.lineTail, ← hline rfl]
        exact Nat.add_sub_cancel' hlt.le
      rw [hend] at hreaches
      exact ⟨a, hlayer, rfl, hstop, ha, hreaches, ⟨b, hb, hblank⟩, by rw [hhead]⟩
  · simp at hc

lemma Fills.start_lt_stop (h : c.Fills source g stop) (hg : g ∈ lang.segments source.content 0) :
    c.span.start < c.span.stop := by
  rw [h.start_eq, h.stop_eq]
  exact Source.positionAt_lt h.start_lt (h.stop_le_length hg)

lemma Fills.isIndent_before {b : UInt8} (h : c.Fills source g stop) (hc : c.trailing = false)
    (hb : b ∈ source.lineHead g.start) : isIndent b = true := by
  rw [h.trailing_eq] at hc
  simpa using List.any_eq_false.mp hc b hb

structure InOrder (cs : List Comment) : Prop where
  nonempty : ∀ c ∈ cs, c.span.start < c.span.stop
  sorted : cs.Pairwise fun a b => a.span.stop ≤ b.span.start

namespace InOrder

variable {cs more : List Comment} {a b : Comment}

lemma left (h : InOrder (cs ++ more)) : InOrder cs where
  nonempty a ha := h.nonempty a (List.mem_append_left _ ha)
  sorted := (List.pairwise_append.mp h.sorted).1

lemma stop_le (h : InOrder (cs ++ [c])) (ha : a ∈ cs) : a.span.stop ≤ c.span.start :=
  (List.pairwise_append.mp h.sorted).2.2 a ha c List.mem_cons_self

lemma start_lt (h : InOrder (cs ++ [c])) (ha : a ∈ cs) : a.span.start < c.span.start :=
  (h.nonempty a (List.mem_append_left _ ha)).trans_le (h.stop_le ha)

lemma notMem (h : InOrder (cs ++ [c])) : c ∉ cs := fun hc => (h.start_lt hc).false

lemma pairwise_start (h : InOrder cs) : cs.Pairwise fun a b => a.span.start < b.span.start :=
  h.sorted.imp_of_mem fun ha _ hab => (h.nonempty _ ha).trans_le hab

lemma eq_of_start_eq (h : InOrder cs) (ha : a ∈ cs) (hb : b ∈ cs)
    (he : a.span.start = b.span.start) : a = b := by
  have hnodup : (cs.map (·.span.start)).Nodup :=
    List.pairwise_map.mpr (h.pairwise_start.imp fun hlt => hlt.ne)
  exact List.inj_on_of_nodup_map hnodup ha hb he

lemma nodup (h : InOrder cs) : cs.Nodup := h.pairwise_start.imp fun hlt he => (he ▸ hlt).false

lemma stop_le_of_start_lt (h : InOrder cs) (ha : a ∈ cs) (hb : b ∈ cs)
    (hlt : a.span.start < b.span.start) : a.span.stop ≤ b.span.start := by
  refine List.Pairwise.forall_of_forall_of_flip
    (R := fun a b => a.span.start < b.span.start → a.span.stop ≤ b.span.start)
    (fun _ _ hlt => absurd hlt (lt_irrefl _)) (h.sorted.imp ?_) (h.pairwise_start.imp ?_) ha hb hlt
  · exact fun hle _ => hle
  · exact fun hba hab => absurd hab hba.not_gt

end InOrder

end Comment

namespace Source

variable {source : Source} {lang : Language} {c : Comment}

lemma fills_of_mem_comments (hl : lang.Legible) (hc : c ∈ source.comments lang) :
    ∃ g ∈ lang.segments source.content 0, ∃ stop, c.Fills source g stop := by
  obtain ⟨g, hg, hgc⟩ := List.mem_filterMap.mp hc
  exact ⟨g, hg, Comment.exists_fills hl hg hgc⟩

lemma inOrder_comments (source : Source) (hl : lang.Legible) :
    Comment.InOrder (source.comments lang) where
  nonempty c hc := by
    obtain ⟨g, hg, stop, hfills⟩ := fills_of_mem_comments hl hc
    exact hfills.start_lt_stop hg
  sorted := by
    have hsegments : (lang.segments source.content 0).Pairwise fun g g' =>
        g.stop ≤ g'.start ∧ g ∈ lang.segments source.content 0 ∧
          g' ∈ lang.segments source.content 0 :=
      (lang.pairwise_segments source.content 0).imp_of_mem fun hg hg' hle => ⟨hle, hg, hg'⟩
    refine hsegments.filterMap _ ?_
    rintro g g' ⟨hle, hg, hg'⟩ a ha b hb
    obtain ⟨stop, h⟩ := Comment.exists_fills hl hg ha
    obtain ⟨stop', h'⟩ := Comment.exists_fills hl hg' hb
    rw [h.stop_eq, h'.start_eq]
    exact source.positionAt_mono (h.stop_le.trans hle)

end Source

end TrustRegions
