import TrustRegions.Proofs.Blocks
import TrustRegions.Proofs.LineEndingScopes
import TrustRegions.Proofs.LoweredReading

/-! A content scans the same with either kind of line endings, unless one of its strings, its characters or
its block comments takes in how a line ends. -/

namespace TrustRegions

open Bytes

namespace Language

variable {lang : Language} {content : Bytes} {o : Nat} {g : Segment}

lemma newline_notMem_of_line {delimiter : Bytes} {bodyLength : Nat} (hl : lang.Legible)
    (hg : g ∈ lang.segments content o) (hkind : g.kind = .comment .line delimiter bodyLength) :
    newline ∉ (content.drop (g.start + delimiter.length)).take bodyLength := by
  have hlooks := lang.looks_of_mem hl hg
  rw [hkind] at hlooks
  have hlength : g.stop - g.start = _ := hlooks.2.2.2.2.2 rfl
  have hbody := (holdsComment_of_mem hg _ _ _ hkind).2
  have htake := List.prefix_iff_eq_take.mp
    (List.takeWhile_prefix (l := content.drop g.start) (· ≠ newline))
  have hpart : (content.drop (g.start + delimiter.length)).take bodyLength <:+
      ((content.drop g.start).takeWhile (· ≠ newline)).take (delimiter.length + bodyLength) := by
    rw [htake, List.take_take, Nat.min_eq_left (by omega), ← List.drop_drop, List.take_drop]
    exact List.drop_suffix _ _
  intro hmem
  simpa using List.mem_takeWhile_imp (List.mem_of_mem_take (hpart.subset hmem))

end Language

namespace Comment

structure Agrees (c c' : Comment) : Prop where
  style_eq : c'.style = c.style
  delimiter_eq : c'.delimiter = c.delimiter
  marker_eq : Marker.ofComment c' = Marker.ofComment c
  start_eq : c'.span.start = c.span.start
  stop_eq : c.role ≠ .plain → c'.span.stop = c.span.stop
  trailing_eq : c'.trailing = c.trailing

variable {c c' : Comment}

lemma Agrees.lowers (h : Agrees c c') : c.Lowers 0 c' :=
  ⟨h.style_eq, h.delimiter_eq, h.marker_eq, h.start_eq, h.stop_eq, h.trailing_eq⟩

end Comment

namespace Source

variable {s : Source} {lang : Language} {g g' : Segment} {c : Comment} {d : Directive}

/-- In a language whose block comments take the rest of their last line, those that another line follows
make no directive. -/
def MarkersKeepLines (s : Source) (lang : Language) : Prop :=
  (∃ d ∈ lang.block, d.atLineStart = true) →
    ∀ c ∈ s.comments lang, c.style = .block →
      s.content[s.offsetAt c.span.stop]? = some newline → c.role = .plain

lemma ofSegment?_crlf (hl : lang.Legible) (hplain : carriageReturn ∉ s.content)
    (hs : s.MarkersKeepLines lang) (hg : g ∈ lang.segments s.content 0)
    (h : lang.Returned s.content g g') :
    Option.Rel Comment.Agrees (Comment.ofSegment? s g) (Comment.ofSegment? s.crlf g') := by
  have hlooks := lang.looks_of_mem hl hg
  have hkind' := h.kind_eq
  cases hkind : g.kind with
  | code =>
    rw [hkind] at hkind'
    simp only [Comment.ofSegment?, hkind, hkind', Segment.Kind.crlf]
    exact .none
  | string =>
    rw [hkind] at hkind'
    simp only [Comment.ofSegment?, hkind, hkind', Segment.Kind.crlf]
    exact .none
  | comment style delimiter body =>
    rw [hkind] at hlooks hkind'
    obtain ⟨-, -, hpre, hword, -⟩ := hlooks
    obtain ⟨hdrop, -⟩ := Language.drop_crlf_word hword.2 hpre
    have hstart := h.start_eq (by simp [hkind])
    have hposition : s.crlf.positionAt g'.start = s.positionAt g.start := by
      rw [hstart, positionAt_crlf]
    have htext : (s.crlf.content.drop (g'.start + delimiter.length)).take
          (crlfOffset ((s.content.drop g.start).drop delimiter.length) body) =
        Bytes.crlf ((s.content.drop (g.start + delimiter.length)).take body) := by
      rw [hstart, ← List.drop_drop, crlf, drop_crlf, hdrop, take_crlf, List.drop_drop]
    have hmem {c : Comment} (hc : Comment.ofSegment? s g = some c) : c ∈ s.comments lang :=
      List.mem_filterMap.mpr ⟨g, hg, hc⟩
    simp only [Comment.ofSegment?, hkind] at hmem
    simp only [Comment.ofSegment?, hkind, hkind', Segment.Kind.crlf, hposition, htext, line_crlf hplain]
    refine .some ⟨rfl, rfl, ?_, rfl, fun hrole => ?_, rfl⟩
    · rw [Marker.ofComment, Marker.ofComment]
      cases style with
      | block => exact Marker.ofText_crlf _
      | line =>
        rw [crlf_of_notMem (Language.newline_notMem_of_line hl hg hkind)]
    · cases style with
      | line => simp only [if_true, endOfLine, line_crlf hplain]
      | block =>
        rcases h.stop_eq with hstop | ⟨htakes, hget, -⟩
        · simp only [reduceCtorEq, if_false, hstop, positionAt_crlf]
        · rw [hkind] at htakes
          have hoff := offsetAt_positionAt (Language.stop_le_length hg)
          refine absurd (hs htakes _ (hmem rfl) rfl ?_) hrole
          simpa [hoff] using hget

lemma comments_crlf (hl : lang.Legible) (h : lang.KeepsLines s.content 0)
    (hs : s.MarkersKeepLines lang) :
    List.Forall₂ Comment.Agrees (s.comments lang) (s.crlf.comments lang) := by
  have hsegments := Language.segments_crlf hl h (Nat.zero_le _) (Or.inl rfl)
  have hmem := (List.forall₂_and_left (p := (· ∈ lang.segments s.content 0)) _ _).mpr
    ⟨fun g hg => hg, hsegments⟩
  exact List.rel_filterMap (fun g g' hg => ofSegment?_crlf hl h.plain hs hg.1 hg.2) hmem

lemma directives_crlf (hl : lang.Legible) (h : lang.KeepsLines s.content 0)
    (hs : s.MarkersKeepLines lang) : s.crlf.directives lang = s.directives lang := by
  have hend := s.positionAt_crlf s.content.length
  rw [crlfOffset_length] at hend
  rw [directives, Directive.ofComments_lowers (line_crlf h.plain) hend
    ((comments_crlf hl h hs).imp fun _ _ hc => hc.lowers), Directive.down_zero, Diagnostic.down_zero,
    List.map_id, List.map_id, directives]

lemma exists_anchor (hl : lang.Legible) (hplain : carriageReturn ∉ s.content)
    (hd : d ∈ (s.directives lang).1) :
    ∃ g ∈ lang.segments s.content 0, d.anchor = s.positionAt g.stop := by
  obtain ⟨_, g, stop, hg, hfills, hanchor, -⟩ := exists_last_comment hl hd
  refine ⟨g, hg, ?_⟩
  rw [hanchor]
  rcases hfills.reaches with rfl | ⟨-, hreturn⟩
  · rfl
  · exact absurd (List.mem_of_getElem? hreturn) hplain

lemma place?_crlf (hl : lang.Legible) (h : lang.KeepsLines s.content 0) (all : List Directive)
    (hd : d ∈ (s.directives lang).1) : s.crlf.place? lang all d = s.place? lang all d := by
  have hline : s.crlf.line = s.line := funext (line_crlf h.plain)
  obtain ⟨g, hg, hanchor⟩ := exists_anchor hl h.plain hd
  have hscope := declarationScope?_crlf hl (h.stop hg) (Language.stop_le_length hg)
  rw [← hanchor] at hscope
  have htrailing : s.crlf.trailingScope lang d.source = s.trailingScope lang d.source := by
    simp only [trailingScope, firstCodeColumn, endOfLine, hline]
  have hown : s.crlf.ownLineScope d.source = s.ownLineScope d.source := by
    simp only [ownLineScope, firstCodeColumn, endOfLine, hline]
  simp only [place?, fallback, htrailing, hown, hscope, hline]

end Source

/-- A content scans the same with a carriage return before each newline, in all that a scan gives, where
its characters and strings keep to their lines and no marker stands in a block comment that takes the rest
of a line. -/
theorem Scan.scan_crlf {tag content : Bytes} (path : Bytes)
    (h : (Language.ofTag tag).KeepsLines content 0)
    (hs : Source.MarkersKeepLines ⟨content⟩ (Language.ofTag tag)) :
    scan path tag content.crlf = scan path tag content := by
  have hl := Language.legible_ofTag tag
  have hdirectives := Source.directives_crlf (s := ⟨content⟩) hl h hs
  have hplaced := List.filterMap_congr fun d hd => Source.place?_crlf (s := ⟨content⟩) (d := d) hl h
    (Source.directives ⟨content⟩ (Language.ofTag tag)).1 hd
  have hsign : ∀ b ∈ Marker.sign, isBlank b = false := by decide +kernel
  have hunknown : unknownLanguageDiagnostics tag content.crlf =
      unknownLanguageDiagnostics tag content := by
    rw [unknownLanguageDiagnostics, Bytes.includes_crlf hsign (List.cons_ne_nil _ _),
      unknownLanguageDiagnostics]
  rw [Source.crlf] at hdirectives hplaced
  simp only [scan, hdirectives, hplaced, hunknown]

namespace Scan

def proseAboveMethod : Bytes :=
  ascii "=begin\nnotes\n=end\n# @collab trust=READ_ONLY\ndef f\n  \"a\"\nend\n"

theorem scan_crlf_prose :
    (Language.ofTag (ascii "ruby")).KeepsLines proseAboveMethod 0 ∧
    Source.MarkersKeepLines ⟨proseAboveMethod⟩ (Language.ofTag (ascii "ruby")) ∧
    scan [] (ascii "ruby") proseAboveMethod.crlf = scan [] (ascii "ruby") proseAboveMethod := by
  have hlines : (Language.ofTag (ascii "ruby")).KeepsLines proseAboveMethod 0 := by
    refine ⟨by decide +kernel, fun hchars => ?_, by decide +kernel⟩
    exact absurd hchars (by decide +kernel)
  have hprose : ∀ c ∈ Source.comments ⟨proseAboveMethod⟩ (Language.ofTag (ascii "ruby")),
      c.style = .block → Marker.ofComment c = .none := by
    decide +kernel
  have hmarkers : Source.MarkersKeepLines ⟨proseAboveMethod⟩ (Language.ofTag (ascii "ruby")) := by
    intro _ c hc hstyle _
    rw [Comment.role, hprose c hc hstyle]
  exact ⟨hlines, hmarkers, scan_crlf [] hlines hmarkers⟩

-- a marker in a comment that takes the rest of its line: its end takes the carriage return with it
example :
    (Source.directives ⟨ascii "=begin\n@collab owner=a\n=end\nx = 1\n"⟩ Language.ruby).1.map (·.anchor) =
      [⟨3, 5⟩] ∧
    (Source.directives ⟨ascii "=begin\r\n@collab owner=a\r\n=end\r\nx = 1\r\n"⟩
      Language.ruby).1.map (·.anchor) = [⟨3, 6⟩] := by
  decide +kernel

end Scan

end TrustRegions
