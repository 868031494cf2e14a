import TrustRegions.Proofs.Offsets
import TrustRegions.Proofs.Tiling
import TrustRegions.Comment

/-! A text with empty lines put above it. Its lines and positions are those of the text, so many lines
further down, and so are its comments. -/

namespace TrustRegions

namespace Position

variable {p q : Position} {k : Nat}

def down (k : Nat) (p : Position) : Position := ⟨p.line + k, p.column⟩

@[simp] lemma line_down (k : Nat) (p : Position) : (p.down k).line = p.line + k := rfl

@[simp] lemma column_down (k : Nat) (p : Position) : (p.down k).column = p.column := rfl

@[simp] lemma down_inj : p.down k = q.down k ↔ p = q := by
  simp only [Position.ext_iff, line_down, column_down, Nat.add_right_cancel_iff]

@[simp] lemma down_lt_down : p.down k < q.down k ↔ p < q := by
  simp only [lt_iff, line_down, column_down, Nat.add_lt_add_iff_right, Nat.add_right_cancel_iff]

@[simp] lemma down_le_down : p.down k ≤ q.down k ↔ p ≤ q := by
  simp only [le_iff, line_down, column_down, Nat.add_lt_add_iff_right, Nat.add_right_cancel_iff]

lemma advance_down (p : Position) (c : UInt8) : (p.down k).advance c = (p.advance c).down k := by
  rw [advance, advance]
  split
  · exact Position.ext (Nat.add_right_comm _ _ _) rfl
  · rfl

lemma foldl_advance_down (p : Position) (t : Bytes) :
    t.foldl advance (p.down k) = (t.foldl advance p).down k := by
  induction t generalizing p with
  | nil => rfl
  | cons c t ih => rw [List.foldl_cons, advance_down, ih, List.foldl_cons]

end Position

namespace Span

variable {a b : Span} {k : Nat}

def down (k : Nat) (a : Span) : Span := ⟨a.start.down k, a.stop.down k⟩

@[simp] lemma start_down (k : Nat) (a : Span) : (a.down k).start = a.start.down k := rfl

@[simp] lemma stop_down (k : Nat) (a : Span) : (a.down k).stop = a.stop.down k := rfl

@[simp] lemma down_inj : a.down k = b.down k ↔ a = b := by
  cases a
  cases b
  simp [down]

end Span

namespace Bytes

def lowered (k : Nat) (t : Bytes) : Bytes := List.replicate k newline ++ t

lemma length_lowered (k : Nat) (t : Bytes) : (t.lowered k).length = k + t.length := by
  rw [lowered, List.length_append, List.length_replicate]

lemma drop_lowered (k : Nat) (t : Bytes) (o : Nat) : (t.lowered k).drop (k + o) = t.drop o := by
  rw [lowered, List.drop_append, List.length_replicate, Nat.add_sub_cancel_left,
    List.drop_of_length_le (by simp), List.nil_append]

lemma getElem?_lowered (k : Nat) (t : Bytes) (o : Nat) : (t.lowered k)[k + o]? = t[o]? := by
  rw [← Nat.add_zero (k + o), ← List.getElem?_drop, drop_lowered, List.getElem?_drop, Nat.add_zero]

lemma getElem?_lowered_of_lt {k o : Nat} (h : o < k) (t : Bytes) :
    (t.lowered k)[o]? = some newline := by
  rw [lowered, List.getElem?_append_left (by simpa using h), List.getElem?_replicate_of_lt h]

lemma pieces_lowered (k : Nat) (t : Bytes) :
    pieces newline (t.lowered k) = List.replicate k [] ++ pieces newline t := by
  induction k with
  | zero => rfl
  | succ k ih =>
    rw [lowered, List.replicate_succ, List.cons_append, pieces, if_pos rfl, ← lowered, ih,
      List.replicate_succ, List.cons_append]

end Bytes

namespace Source

def lowered (k : Nat) (s : Source) : Source := ⟨s.content.lowered k⟩

variable {s : Source} {k o : Nat}

@[simp] lemma content_lowered (k : Nat) (s : Source) :
    (s.lowered k).content = s.content.lowered k := rfl

lemma positionAt_lowered (s : Source) (k o : Nat) :
    (s.lowered k).positionAt (k + o) = (s.positionAt o).down k := by
  have hlines : (List.replicate k newline).foldl Position.advance .first = Position.first.down k := by
    induction k with
    | zero => rfl
    | succ k ih =>
      rw [List.replicate_succ', List.foldl_concat, ih]
      rfl
  have htake : (s.content.lowered k).take (k + o) =
      List.replicate k newline ++ s.content.take o := by
    rw [Bytes.lowered, List.take_append, List.length_replicate, Nat.add_sub_cancel_left,
      List.take_of_length_le (by simp)]
  rw [positionAt, content_lowered, htake, List.foldl_append, hlines, Position.foldl_advance_down, positionAt]

lemma offsetAt_lowered (h : o ≤ s.content.length) :
    (s.lowered k).offsetAt ((s.positionAt o).down k) = k + o := by
  rw [← positionAt_lowered]
  refine offsetAt_positionAt ?_
  rw [content_lowered, Bytes.length_lowered]
  exact Nat.add_le_add_left h k

lemma rawLines_lowered (s : Source) (k : Nat) :
    (s.lowered k).rawLines = List.replicate k [] ++ s.rawLines := Bytes.pieces_lowered k s.content

lemma drop_rawLines_lowered (s : Source) (k n : Nat) :
    (s.lowered k).rawLines.drop (n + k) = s.rawLines.drop n := by
  rw [rawLines_lowered, Nat.add_comm, List.drop_append, List.length_replicate,
    Nat.add_sub_cancel_left, List.drop_of_length_le (by simp), List.nil_append]

lemma line_lowered (s : Source) (k n : Nat) : (s.lowered k).line (n + k) = s.line n := by
  cases n with
  | zero =>
    cases k with
    | zero => rfl
    | succ k => simp [line, rawLines_lowered, List.replicate_succ', chomp]
  | succ n =>
    have hget : (s.lowered k).rawLines[n + k]? = s.rawLines[n]? := by
      rw [← Nat.add_zero (n + k), ← List.getElem?_drop, drop_rawLines_lowered, List.getElem?_drop,
        Nat.add_zero]
    rw [line, if_neg (by omega), line, if_neg (by omega), List.getD_eq_getElem?_getD,
      List.getD_eq_getElem?_getD, show n + 1 + k - 1 = n + k by omega, hget, Nat.add_sub_cancel]

lemma endOfLine_lowered (s : Source) (k n : Nat) :
    (s.lowered k).endOfLine (n + k) = (s.endOfLine n).down k := by
  rw [endOfLine, line_lowered]
  rfl

end Source

def Segment.later (k : Nat) (g : Segment) : Segment := ⟨g.kind, k + g.start, k + g.stop⟩

namespace Language

variable {lang : Language} {content : Bytes} {k o : Nat} {s : Segment}

lemma startsLine_lowered (content : Bytes) (k o : Nat) :
    startsLine (content.lowered k) (k + o) = startsLine content o := by
  cases o with
  | zero =>
    cases k with
    | zero => rfl
    | succ k => simp [startsLine, Bytes.getElem?_lowered_of_lt]
  | succ o => simp [startsLine, ← Nat.add_assoc, Bytes.getElem?_lowered]

lemma firstTaken_lowered (lang : Language) (content : Bytes) (k o : Nat) :
    lang.firstTaken (content.lowered k) (k + o) = lang.firstTaken content o := by
  rw [firstTaken, startsLine_lowered, Bytes.drop_lowered, firstTaken]

lemma firstSegment_lowered (lang : Language) (content : Bytes) (k o : Nat) :
    lang.firstSegment (content.lowered k) (k + o) = (lang.firstSegment content o).later k := by
  rw [firstSegment, startsLine_lowered, Bytes.drop_lowered, firstTaken_lowered, Nat.add_assoc]
  rfl

lemma segments_lowered (lang : Language) (content : Bytes) (k o : Nat) :
    lang.segments (content.lowered k) (k + o) = (lang.segments content o).map (Segment.later k) := by
  induction hs : lang.segments content o generalizing o with
  | nil =>
    have hle := length_le_of_segments_eq_nil hs
    rw [segments_of_length_le (by rw [Bytes.length_lowered]; omega), List.map_nil]
  | cons s ss ih =>
    obtain ⟨ho, rfl, hss⟩ := segments_eq_cons hs
    rw [segments_of_lt (by rw [Bytes.length_lowered]; omega), firstSegment_lowered, List.map_cons]
    congr 1
    exact ih _ hss.symm

lemma layers_lowered (lang : Language) (content : Bytes) (k o : Nat) :
    lang.layers (content.lowered k) (k + o) = lang.layers content o := by
  have hlength (g : Segment) : (g.later k).length = g.length := Nat.add_sub_add_left _ _ _
  rw [layers, segments_lowered, Bytes.drop_lowered, List.flatMap_map, layers]
  simp only [hlength]
  rfl

lemma kind_of_start_lt (hl : lang.Legible) (hs : s ∈ lang.segments (content.lowered k) 0)
    (hlt : s.start < k) : s.kind = .code := by
  obtain ⟨-, hlength, heq⟩ := mem_segments hs
  have hnewline := Bytes.getElem?_lowered_of_lt hlt content
  obtain ⟨_, hget⟩ := List.getElem?_eq_some_iff.mp hnewline
  rw [heq, kind_firstSegment_eq_code_iff, opensAt, List.drop_eq_getElem_cons hlength, hget]
  exact openingAt_of_blank hl (by decide) _ _

lemma filterMap_segments_lowered {α : Type} {f : Segment → Option α} (hl : lang.Legible)
    (hf : ∀ s, s.kind = .code → f s = none) (content : Bytes) (k : Nat) :
    (lang.segments (content.lowered k) 0).filterMap f =
      (lang.segments content 0).filterMap fun s => f (s.later k) := by
  have hcut : lang.segments (content.lowered k) k = Segment.cutAt k (lang.segments (content.lowered k) 0) :=
    segments_eq_cutAt (Nat.zero_le k) (by rw [Bytes.length_lowered]; omega)
      fun s hs hlt _ => kind_of_start_lt hl hs hlt
  have hrest := lang.segments_lowered content k 0
  rw [Nat.add_zero, hcut] at hrest
  rw [← Function.comp_def, ← List.filterMap_map, ← hrest, Segment.cutAt, List.filterMap_map,
    List.filterMap_filter]
  refine List.filterMap_congr fun s hs => ?_
  rcases Nat.lt_or_ge s.start k with hlt | hge
  · have hkind := kind_of_start_lt hl hs hlt
    have hcode := hf { s with start := max k s.start } hkind
    rw [hf s hkind]
    split
    · exact hcode.symm
    · rfl
  · have hstop := start_lt_stop hs
    rw [if_pos (by simp; omega), Function.comp_apply, Nat.max_eq_right hge]

end Language

def Comment.down (k : Nat) (c : Comment) : Comment := { c with span := c.span.down k }

namespace Source

variable {lang : Language}

lemma ofSegment?_lowered (s : Source) (k : Nat) (g : Segment) :
    Comment.ofSegment? (s.lowered k) (g.later k) = (Comment.ofSegment? s g).map (Comment.down k) := by
  simp only [Comment.ofSegment?, Segment.later]
  cases g.kind with
  | code => rfl
  | string => rfl
  | comment style delimiter bodyLength =>
    simp only [positionAt_lowered, line_lowered, endOfLine_lowered, Position.line_down,
      Position.column_down, Nat.add_assoc, content_lowered, Bytes.drop_lowered, Option.map_some, Comment.down,
      Span.down]
    cases style <;> rfl

lemma comments_lowered (hl : lang.Legible) (s : Source) (k : Nat) :
    (s.lowered k).comments lang = (s.comments lang).map (Comment.down k) := by
  have hcode (g : Segment) (hg : g.kind = .code) : Comment.ofSegment? (s.lowered k) g = none := by
    simp only [Comment.ofSegment?, hg]
  rw [comments, comments, content_lowered, Language.filterMap_segments_lowered hl hcode,
    List.map_filterMap]
  exact List.filterMap_congr fun g _ => ofSegment?_lowered s k g

end Source

end TrustRegions
