import Mathlib.Data.List.Basic
import Mathlib.Tactic.Lemma
import TrustRegions.Segment.Lexer

/-! The segments from an offset on are the first one there and the segments from its end on. So the
bytes from the start or the end of a segment on are part of the same things wherever the lexer
started. -/

namespace TrustRegions

lemma drop_length_takeWhile {α : Type} (p : α → Bool) (l : List α) :
    l.drop (l.takeWhile p).length = l.dropWhile p := by
  have h : (l.takeWhile p ++ l.dropWhile p).drop (l.takeWhile p).length = l.dropWhile p :=
    List.drop_left
  rwa [List.takeWhile_append_dropWhile] at h

namespace Language

variable {lang : Language} {content : Bytes} {o k : Nat} {s t : Segment} {ss : List Segment}

lemma segmentsFrom_eq (lang : Language) (b : Bool) (o : Nat) {text : Bytes} (h : text ≠ []) :
    lang.segmentsFrom b o text =
      let first := lang.segmentAt b text
      let taken := text.take (max 1 first.2)
      ⟨first.1, o, o + taken.length⟩ ::
        lang.segmentsFrom (taken.getLast? = some newline) (o + taken.length)
          (text.drop taken.length) := by
  obtain ⟨c, rest, rfl⟩ := List.exists_cons_of_ne_nil h
  have htaken (n : Nat) : (c :: rest).take (max 1 n) = c :: rest.take (n - 1) := by
    obtain ⟨m, hm⟩ : ∃ m, max 1 n = m + 1 := ⟨n - 1, by omega⟩
    rw [hm, List.take_succ_cons]
    congr 2
    omega
  have hdrop (n : Nat) : (c :: rest).drop (c :: rest.take n).length = rest.drop n := by
    rw [List.length_cons, List.drop_succ_cons, List.length_take]
    rcases Nat.le_total n rest.length with hle | hle
    · rw [Nat.min_eq_left hle]
    · rw [Nat.min_eq_right hle, List.drop_length, List.drop_of_length_le hle]
  simp only [segmentsFrom, htaken, hdrop]

def firstTaken (lang : Language) (content : Bytes) (o : Nat) : Bytes :=
  (content.drop o).take (max 1 (lang.segmentAt (startsLine content o) (content.drop o)).2)

def firstSegment (lang : Language) (content : Bytes) (o : Nat) : Segment :=
  ⟨(lang.segmentAt (startsLine content o) (content.drop o)).1, o,
    o + (lang.firstTaken content o).length⟩

lemma firstSegment_eq {kind : Segment.Kind} {n : Nat}
    (h : lang.segmentAt (startsLine content o) (content.drop o) = (kind, n)) (hpos : 0 < n)
    (hle : n ≤ (content.drop o).length) : lang.firstSegment content o = ⟨kind, o, o + n⟩ := by
  rw [firstSegment, firstTaken, h, Nat.max_eq_right hpos, List.length_take, Nat.min_eq_left hle]

lemma length_firstTaken_pos (lang : Language) (h : o < content.length) :
    0 < (lang.firstTaken content o).length := by
  rw [firstTaken, List.length_take, List.length_drop]
  omega

lemma length_firstTaken_le (lang : Language) (content : Bytes) (o : Nat) :
    (lang.firstTaken content o).length ≤ content.length - o := by
  rw [firstTaken, List.length_take, List.length_drop]
  exact Nat.min_le_right _ _

lemma drop_eq_firstTaken_append (lang : Language) (content : Bytes) (o : Nat) :
    content.drop o =
      lang.firstTaken content o ++ content.drop (lang.firstSegment content o).stop := by
  have h := List.prefix_iff_eq_append.mp
    (List.take_prefix (max 1 (lang.segmentAt (startsLine content o) (content.drop o)).2)
      (content.drop o))
  rw [List.drop_drop] at h
  exact h.symm

lemma getLast?_eq_getElem?_append {a : Bytes} (h : a ≠ []) (b : Bytes) :
    a.getLast? = (a ++ b)[a.length - 1]? := by
  have hpos := List.length_pos_of_ne_nil h
  rw [List.getLast?_eq_getElem?, List.getElem?_append_left (by omega)]

lemma startsLine_stop (lang : Language) (h : o < content.length) :
    startsLine content (lang.firstSegment content o).stop =
      decide ((lang.firstTaken content o).getLast? = some newline) := by
  have hpos := lang.length_firstTaken_pos h
  have hstop : (lang.firstSegment content o).stop ≠ 0 := by
    simp only [firstSegment]
    omega
  have hlast : (lang.firstTaken content o).getLast? =
      content[(lang.firstSegment content o).stop - 1]? := by
    rw [getLast?_eq_getElem?_append (List.ne_nil_of_length_pos hpos),
      ← drop_eq_firstTaken_append, List.getElem?_drop]
    congr 1
    simp only [firstSegment]
    omega
  rw [startsLine, hlast, decide_eq_false hstop, Bool.false_or]

lemma segments_of_length_le (h : content.length ≤ o) : lang.segments content o = [] := by
  rw [segments, List.drop_of_length_le h, segmentsFrom]

lemma segments_of_lt (h : o < content.length) :
    lang.segments content o =
      lang.firstSegment content o :: lang.segments content (lang.firstSegment content o).stop := by
  rw [segments, segmentsFrom_eq lang _ o (by simpa using h), segments, startsLine_stop lang h,
    firstSegment]
  dsimp only
  rw [List.drop_drop]
  rfl

lemma length_le_of_segments_eq_nil (h : lang.segments content o = []) : content.length ≤ o := by
  by_contra hlt
  rw [segments_of_lt (Nat.lt_of_not_le hlt)] at h
  exact absurd h (List.cons_ne_nil _ _)

lemma firstSegment_mem (h : o < content.length) :
    lang.firstSegment content o ∈ lang.segments content o :=
  segments_of_lt h ▸ List.mem_cons_self

lemma segments_eq_cons (h : lang.segments content o = s :: ss) :
    o < content.length ∧ s = lang.firstSegment content o ∧ ss = lang.segments content s.stop := by
  have ho : o < content.length := by
    by_contra hle
    rw [segments_of_length_le (Nat.le_of_not_lt hle)] at h
    simp at h
  rw [segments_of_lt ho] at h
  obtain ⟨rfl, rfl⟩ := List.cons.inj h
  exact ⟨ho, rfl, rfl⟩

lemma mem_segments (h : s ∈ lang.segments content o) :
    o ≤ s.start ∧ s.start < content.length ∧ s = lang.firstSegment content s.start := by
  induction hs : lang.segments content o generalizing o with
  | nil => simp [hs] at h
  | cons t ss ih =>
    obtain ⟨ho, rfl, hss⟩ := segments_eq_cons hs
    rw [hs] at h
    rcases List.mem_cons.mp h with rfl | h
    · exact ⟨Nat.le_refl _, ho, rfl⟩
    · obtain ⟨hle, hrest⟩ := ih (hss ▸ h) hss.symm
      exact ⟨Nat.le_trans (Nat.le_add_right _ _) hle, hrest⟩

lemma start_lt_stop (h : s ∈ lang.segments content o) : s.start < s.stop := by
  obtain ⟨-, hlt, hs⟩ := mem_segments h
  rw [hs]
  exact Nat.lt_add_of_pos_right (lang.length_firstTaken_pos hlt)

lemma stop_le_length (h : s ∈ lang.segments content o) : s.stop ≤ content.length := by
  obtain ⟨-, hlt, hs⟩ := mem_segments h
  rw [hs]
  have hle := lang.length_firstTaken_le content s.start
  simp only [firstSegment]
  omega

lemma mem_segments_stop {g : Segment} (hs : s ∈ lang.segments content o)
    (hg : g ∈ lang.segments content o)
    (h : s.stop ≤ g.start) : g ∈ lang.segments content s.stop := by
  induction hss : lang.segments content o generalizing o with
  | nil => rw [hss] at hs; cases hs
  | cons t ss ih =>
    obtain ⟨-, htfirst, rfl⟩ := segments_eq_cons hss
    have hnext {x : Segment} (hx : x ∈ lang.segments content o) (hne : x ≠ t) :
        x ∈ lang.segments content t.stop :=
      (List.mem_cons.mp (hss ▸ hx)).resolve_left hne
    have hgt : g ≠ t := by
      rintro rfl
      have hstart : g.start = o := by rw [htfirst]; rfl
      have hle := (mem_segments hs).1
      have hlt := start_lt_stop hs
      omega
    by_cases hst : s = t
    · exact hst ▸ hnext hg hgt
    · exact ih (hnext hs hst) (hnext hg hgt) rfl

lemma pairwise_segments (lang : Language) (content : Bytes) (o : Nat) :
    (lang.segments content o).Pairwise fun s t => s.stop ≤ t.start := by
  induction hs : lang.segments content o generalizing o with
  | nil => exact .nil
  | cons s ss ih =>
    obtain ⟨-, rfl, hss⟩ := segments_eq_cons hs
    refine List.pairwise_cons.mpr ⟨fun t ht => (mem_segments (hss ▸ ht)).1, ih _ hss.symm⟩

lemma exists_segment (hk : o ≤ k) (h : k < content.length) :
    ∃ s ∈ lang.segments content o, s.start ≤ k ∧ k < s.stop := by
  induction hs : lang.segments content o generalizing o with
  | nil =>
    rw [segments_of_lt (Nat.lt_of_le_of_lt hk h)] at hs
    simp at hs
  | cons s ss ih =>
    obtain ⟨-, rfl, hss⟩ := segments_eq_cons hs
    rcases Nat.lt_or_ge k (lang.firstSegment content o).stop with hlt | hge
    · exact ⟨_, List.mem_cons_self, hk, hlt⟩
    · obtain ⟨t, ht, hkt⟩ := ih hge hss.symm
      exact ⟨t, List.mem_cons_of_mem _ (hss ▸ ht), hkt⟩

lemma zip_replicate {α β : Type} (l : List α) (b : β) :
    l.zip (List.replicate l.length b) = l.map (·, b) := by
  induction l with
  | nil => rfl
  | cons a l ih => rw [List.length_cons, List.replicate_succ, List.zip_cons_cons, ih, List.map_cons]

lemma layers_of_length_le (h : content.length ≤ o) : lang.layers content o = [] := by
  rw [layers, segments_of_length_le h, List.flatMap_nil, List.zip_nil_right]

lemma layers_of_lt (h : o < content.length) :
    lang.layers content o =
      (lang.firstTaken content o).map (·, (lang.firstSegment content o).kind.layer) ++
        lang.layers content (lang.firstSegment content o).stop := by
  have hlength : (lang.firstSegment content o).length = (lang.firstTaken content o).length :=
    Nat.add_sub_cancel_left _ _
  rw [layers, segments_of_lt h, List.flatMap_cons, drop_eq_firstTaken_append lang, hlength,
    List.zip_append (by simp)]
  rw [zip_replicate, layers]

lemma startsLine_of_newlines {content' : Bytes}
    (h : content'.map (· == newline) = content.map (· == newline)) (o : Nat) :
    startsLine content' o = startsLine content o := by
  have hget (t : Bytes) : (t[o - 1]? = some newline) ↔ (t.map (· == newline))[o - 1]? = some true := by
    simp [List.getElem?_map]
  rw [startsLine, startsLine, decide_eq_decide.mpr ((hget content').trans (h ▸ (hget content).symm))]

lemma layers_congr {content' : Bytes} (hdrop : content'.drop o = content.drop o)
    (hstarts : startsLine content' o = startsLine content o) :
    lang.layers content' o = lang.layers content o := by
  rw [layers, layers, segments, segments, hdrop, hstarts]

lemma map_fst_layers (lang : Language) (content : Bytes) (o : Nat) :
    (lang.layers content o).map (·.1) = content.drop o := by
  induction hs : lang.segments content o generalizing o with
  | nil =>
    have hle := length_le_of_segments_eq_nil hs
    rw [layers_of_length_le hle, List.drop_of_length_le hle, List.map_nil]
  | cons s ss ih =>
    obtain ⟨ho, rfl, hss⟩ := segments_eq_cons hs
    rw [layers_of_lt ho, drop_eq_firstTaken_append lang, List.map_append, ih _ hss.symm,
      List.map_map]
    congr 1
    exact List.map_id _

lemma getElem?_layers (lang : Language) (content : Bytes) (k : Nat) :
    content[k]? = (lang.layers content 0)[k]?.map (·.1) := by
  rw [← List.getElem?_map, map_fst_layers, List.drop_zero]

lemma length_layers (lang : Language) (content : Bytes) (o : Nat) :
    (lang.layers content o).length = content.length - o := by
  rw [← List.length_map (·.1), map_fst_layers, List.length_drop]

section Split

variable {pre l : List (UInt8 × Layer)} {b : UInt8 × Layer}

lemma map_fst_of_layers_eq (h : lang.layers content 0 = pre ++ l) :
    l.map (·.1) = content.drop pre.length := by
  have hbytes := map_fst_layers lang content 0
  rw [List.drop_zero, h, List.map_append] at hbytes
  rw [← hbytes, List.drop_left' (List.length_map _)]

lemma getElem?_of_layers_eq (h : lang.layers content 0 = pre ++ b :: l) :
    (lang.layers content 0)[pre.length]? = some b := by
  rw [h, List.getElem?_append_right (Nat.le_refl _), Nat.sub_self]
  rfl

lemma content_of_layers_eq (h : lang.layers content 0 = pre ++ b :: l) :
    content[pre.length]? = some b.1 := by
  rw [getElem?_layers, getElem?_of_layers_eq h, Option.map_some]

end Split

lemma layers_start (h : s ∈ lang.segments content o) :
    lang.layers content s.start = (lang.layers content o).drop (s.start - o) := by
  induction hs : lang.segments content o generalizing o with
  | nil => simp [hs] at h
  | cons t ss ih =>
    obtain ⟨ho, rfl, hss⟩ := segments_eq_cons hs
    rw [hs] at h
    rcases List.mem_cons.mp h with rfl | h
    · simp [firstSegment]
    · have hle := (mem_segments (hss ▸ h)).1
      have hsub : s.start - o =
          ((lang.firstTaken content o).map (·, (lang.firstSegment content o).kind.layer)).length +
            (s.start - (lang.firstSegment content o).stop) := by
        simp only [firstSegment, List.length_map] at hle ⊢
        omega
      rw [ih (hss ▸ h) hss.symm, layers_of_lt ho, hsub, List.drop_length_add_append]

lemma layers_segment (h : s ∈ lang.segments content o) :
    lang.layers content s.start =
      ((content.drop s.start).take s.length).map (·, s.kind.layer) ++
        lang.layers content s.stop := by
  obtain ⟨-, hlt, hs⟩ := mem_segments h
  have htaken : lang.firstTaken content s.start = (content.drop s.start).take s.length := by
    have happ := drop_eq_firstTaken_append lang content s.start
    have hlength : s.length = (lang.firstTaken content s.start).length := by
      rw [hs]
      exact Nat.add_sub_cancel_left _ _
    rw [hlength, happ, List.take_left]
  rw [layers_of_lt hlt, htaken, ← hs]

lemma layers_stop {g : Segment} (hg : g ∈ lang.segments content o) :
    lang.layers content g.stop = (lang.layers content o).drop (g.stop - o) := by
  have hlt := start_lt_stop hg
  have hle := stop_le_length hg
  have ho := (mem_segments hg).1
  have hlength : (((content.drop g.start).take g.length).map (·, g.kind.layer)).length = g.length := by
    rw [List.length_map, List.length_take, List.length_drop, Segment.length]
    omega
  have hlayers := congrArg (List.drop g.length) ((layers_start hg).symm.trans (layers_segment hg))
  rw [List.drop_drop, List.drop_left' hlength] at hlayers
  rw [← hlayers, Segment.length]
  congr 1
  omega

lemma layer_of_mem (h : s ∈ lang.segments content 0) (hk : s.start ≤ k) (hlt : k < s.stop)
    {b : UInt8 × Layer} (hb : (lang.layers content 0)[k]? = some b) : b.2 = s.kind.layer := by
  have hstart := layers_start h
  rw [layers_segment h, Nat.sub_zero] at hstart
  have hget : ((lang.layers content 0).drop s.start)[k - s.start]? = some b := by
    rw [List.getElem?_drop, Nat.add_sub_cancel' hk, hb]
  have hlength := stop_le_length h
  rw [← hstart, List.getElem?_append_left (by simp [Segment.length]; omega)] at hget
  simp only [List.getElem?_map, Option.map_eq_some_iff] at hget
  obtain ⟨c, -, rfl⟩ := hget
  rfl

lemma exists_comment_segment {b : UInt8 × Layer} (hb : (lang.layers content 0)[k]? = some b)
    (hc : b.2 = .comment) :
    ∃ s ∈ lang.segments content 0, s.start ≤ k ∧ k < s.stop ∧ s.kind.layer = .comment := by
  have hlt := (List.getElem?_eq_some_iff.mp hb).1
  rw [length_layers] at hlt
  obtain ⟨s, hs, hle, hstop⟩ := lang.exists_segment (Nat.zero_le k) hlt
  exact ⟨s, hs, hle, hstop, layer_of_mem hs hle hstop hb ▸ hc⟩

lemma codeLength_le (lang : Language) (b : Bool) (text : Bytes) :
    lang.codeLength b text ≤ text.length := by
  induction text generalizing b with
  | nil => exact Nat.le_refl 0
  | cons c rest ih =>
    rw [codeLength]
    split
    · exact Nat.succ_le_succ (ih _)
    · exact Nat.zero_le _

lemma opening_of_codeLength_pos {b : Bool} {text : Bytes} (h : 0 < lang.codeLength b text) :
    lang.openingAt b text = .code := by
  cases text with
  | nil => simp [codeLength] at h
  | cons c rest =>
    by_contra hn
    simp [codeLength, hn] at h

lemma layers_codeLength (lang : Language) (content : Bytes) (o : Nat) :
    let n := lang.codeLength (startsLine content o) (content.drop o)
    lang.layers content o =
      ((content.drop o).take n).map (·, .code) ++ lang.layers content (o + n) := by
  intro n
  rcases Nat.eq_zero_or_pos n with hn | hn
  · rw [hn]
    rfl
  · have hcode := opening_of_codeLength_pos hn
    have hle := lang.codeLength_le (startsLine content o) (content.drop o)
    have hfirst : lang.segmentAt (startsLine content o) (content.drop o) = (.code, n) := by
      rw [segmentAt, hcode]
    have htaken : lang.firstTaken content o = (content.drop o).take n := by
      rw [firstTaken, hfirst, Nat.max_eq_right hn]
    have hstop : (lang.firstSegment content o).stop = o + n := by
      rw [firstSegment, htaken, List.length_take, Nat.min_eq_left hle]
    have hkind : (lang.firstSegment content o).kind = .code := by
      rw [firstSegment, hfirst]
    have ho : o < content.length := by
      rw [List.length_drop] at hle
      omega
    rw [layers_of_lt ho, hkind, hstop, htaken]
    rfl

lemma layers_of_code {c : UInt8} (hc : content[o]? = some c)
    (h : lang.openingAt (startsLine content o) (content.drop o) = .code) :
    lang.layers content o = (c, .code) :: lang.layers content (o + 1) := by
  obtain ⟨ho, rfl⟩ := List.getElem?_eq_some_iff.mp hc
  have hdrop := List.drop_eq_getElem_cons ho
  have hnext : startsLine content (o + 1) = decide (content[o] = newline) := by
    simp [startsLine, List.getElem?_eq_getElem ho]
  have hlength : lang.codeLength (startsLine content o) (content.drop o) =
      lang.codeLength (startsLine content (o + 1)) (content.drop (o + 1)) + 1 := by
    rw [hdrop] at h ⊢
    rw [codeLength, if_pos h, hnext]
  rw [layers_codeLength, hlength, lang.layers_codeLength content (o + 1), hdrop, List.take_succ_cons,
    ← Nat.add_assoc, Nat.add_right_comm]
  rfl

lemma layers_of_codes {n : Nat} (hn : o + n ≤ content.length)
    (h : ∀ k, o ≤ k → k < o + n → lang.openingAt (startsLine content k) (content.drop k) = .code) :
    lang.layers content o =
      ((content.drop o).take n).map (·, .code) ++ lang.layers content (o + n) := by
  induction n generalizing o with
  | zero => rfl
  | succ n ih =>
    have ho : o < content.length := by omega
    rw [layers_of_code (List.getElem?_eq_getElem ho) (h o (Nat.le_refl o) (by omega)),
      ih (by omega) fun k hk hlt => h k (by omega) (by omega), List.drop_eq_getElem_cons ho,
      List.take_succ_cons, List.map_cons, List.cons_append, Nat.add_right_comm, Nat.add_assoc]

end Language

end TrustRegions
