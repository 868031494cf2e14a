import Mathlib.Data.List.Chain
import TrustRegions.Proofs.Delimiters

/-! The segments from an offset on cover the content to its end, without gaps and with as much code in
one piece as there is. A lexer that starts between two segments, or within code, finds what the one
before it found there. -/

namespace TrustRegions

namespace Segment

inductive Tiles (stop : Nat) : Nat → List Segment → Prop
  | nil : Tiles stop stop []
  | cons {s : Segment} {ss : List Segment} : s.start < s.stop → Tiles stop s.stop ss →
      Tiles stop s.start (s :: ss)

def cutAt (k : Nat) (ss : List Segment) : List Segment :=
  (ss.filter (k < ·.stop)).map fun s => { s with start := max k s.start }

def HoldsComment (content : Bytes) (s : Segment) : Prop :=
  ∀ style delimiter bodyLength, s.kind = .comment style delimiter bodyLength →
    delimiter <+: content.drop s.start ∧ s.start + delimiter.length + bodyLength ≤ s.stop

variable {k : Nat} {s : Segment}

lemma cutAt_cons_of_lt (h : k < s.stop) (ss : List Segment) :
    cutAt k (s :: ss) = { s with start := max k s.start } :: cutAt k ss := by
  rw [cutAt, List.filter_cons_of_pos (by simpa using h), List.map_cons, cutAt]

lemma cutAt_cons_of_le (h : s.stop ≤ k) (ss : List Segment) : cutAt k (s :: ss) = cutAt k ss := by
  rw [cutAt, List.filter_cons_of_neg (by simpa using h), cutAt]

end Segment

namespace Language

variable {lang : Language} {content text : Bytes} {o k n : Nat} {s : Segment} {d : BlockComment}

def opensAt (lang : Language) (content : Bytes) (o : Nat) : Opening :=
  lang.openingAt (startsLine content o) (content.drop o)

def codeFrom (lang : Language) (content : Bytes) (o : Nat) : Nat :=
  lang.codeLength (startsLine content o) (content.drop o)

section Code

lemma codeFrom_eq (lang : Language) (h : o < content.length) :
    lang.codeFrom content o =
      if lang.opensAt content o = .code then lang.codeFrom content (o + 1) + 1 else 0 := by
  have hnext : startsLine content (o + 1) = decide (content[o] = newline) := by
    simp [startsLine, List.getElem?_eq_getElem h]
  rw [codeFrom, codeFrom, opensAt, hnext, List.drop_eq_getElem_cons h, codeLength]

lemma codeFrom_of_length_le (h : content.length ≤ o) : lang.codeFrom content o = 0 := by
  rw [codeFrom, List.drop_of_length_le h, codeLength]

lemma lt_length_of_codeFrom_pos (h : 0 < lang.codeFrom content o) : o < content.length := by
  by_contra hle
  rw [codeFrom_of_length_le (Nat.le_of_not_lt hle)] at h
  exact Nat.lt_irrefl 0 h

lemma codeFrom_add (h : k ≤ lang.codeFrom content o) :
    lang.codeFrom content (o + k) + k = lang.codeFrom content o := by
  induction k with
  | zero => rfl
  | succ k ih =>
    have ih := ih (Nat.le_of_succ_le h)
    have hlt := lt_length_of_codeFrom_pos (show 0 < lang.codeFrom content (o + k) by omega)
    rw [codeFrom_eq lang hlt] at ih
    split at ih
    · rw [← ih, Nat.add_assoc o]
      omega
    · omega

lemma opensAt_of_lt_codeFrom (h : k < lang.codeFrom content o) :
    lang.opensAt content (o + k) = .code := by
  have hadd := codeFrom_add (Nat.le_of_lt h)
  have hlt := lt_length_of_codeFrom_pos (show 0 < lang.codeFrom content (o + k) by omega)
  rw [codeFrom_eq lang hlt] at hadd
  split at hadd
  · assumption
  · omega

lemma opensAt_ne_code_of_codeFrom (h : o + lang.codeFrom content o < content.length) :
    lang.opensAt content (o + lang.codeFrom content o) ≠ .code := by
  have hadd := codeFrom_add (Nat.le_refl (lang.codeFrom content o))
  rw [codeFrom_eq lang h] at hadd
  split at hadd
  · omega
  · assumption

lemma kind_firstSegment_eq_code_iff (lang : Language) (content : Bytes) (o : Nat) :
    (lang.firstSegment content o).kind = .code ↔ lang.opensAt content o = .code := by
  rw [firstSegment, segmentAt, opensAt]
  cases lang.openingAt (startsLine content o) (content.drop o) <;> simp

lemma firstSegment_of_code (h : o < content.length) (hcode : lang.opensAt content o = .code) :
    lang.firstSegment content o = ⟨.code, o, o + lang.codeFrom content o⟩ := by
  have hfirst : lang.segmentAt (startsLine content o) (content.drop o) =
      (.code, lang.codeFrom content o) := by
    rw [segmentAt, ← opensAt, hcode]
    rfl
  have hpos : 0 < lang.codeFrom content o := by
    rw [codeFrom_eq lang h, if_pos hcode]
    exact Nat.succ_pos _
  exact firstSegment_eq hfirst hpos (lang.codeLength_le _ _)

lemma firstSegment_within (h : (lang.firstSegment content o).kind = .code) (ho : o < content.length)
    (hk : o ≤ k) (hlt : k < (lang.firstSegment content o).stop) :
    k < content.length ∧ lang.firstSegment content k = { lang.firstSegment content o with start := k } := by
  have hcode := (lang.kind_firstSegment_eq_code_iff content o).mp h
  rw [firstSegment_of_code ho hcode] at hlt ⊢
  obtain ⟨j, rfl⟩ := Nat.exists_eq_add_of_le hk
  have hj : j < lang.codeFrom content o := by simpa using hlt
  have hadd := codeFrom_add (Nat.le_of_lt hj)
  have hlength := lt_length_of_codeFrom_pos (show 0 < lang.codeFrom content (o + j) by omega)
  refine ⟨hlength, ?_⟩
  rw [firstSegment_of_code hlength (opensAt_of_lt_codeFrom hj), ← hadd]
  simp only [Segment.mk.injEq, true_and]
  omega

lemma opensAt_of_mem_code (hs : s ∈ lang.segments content o) (hcode : s.kind = .code)
    (hk : s.start ≤ k) (hlt : k < s.stop) : lang.opensAt content k = .code := by
  obtain ⟨-, hlength, heq⟩ := mem_segments hs
  rw [heq] at hcode hlt
  have hwithin := (firstSegment_within hcode hlength hk hlt).2
  rw [← kind_firstSegment_eq_code_iff, hwithin]
  exact hcode

lemma isChain_segments (lang : Language) (content : Bytes) (o : Nat) :
    (lang.segments content o).IsChain fun s t => ¬(s.kind = .code ∧ t.kind = .code) := by
  induction hs : lang.segments content o generalizing o with
  | nil => exact .nil
  | cons s ss ih =>
    obtain ⟨ho, rfl, hss⟩ := segments_eq_cons hs
    refine List.IsChain.cons (ih _ hss.symm) fun t ht => ?_
    obtain ⟨ts, rfl⟩ := List.head?_eq_some_iff.mp (Option.mem_def.mp ht)
    obtain ⟨hlt, rfl, -⟩ := segments_eq_cons hss.symm
    rintro ⟨hcode, hnext⟩
    rw [kind_firstSegment_eq_code_iff] at hcode hnext
    rw [firstSegment_of_code ho hcode] at hlt hnext
    exact opensAt_ne_code_of_codeFrom hlt hnext

end Code

section Comments

lemma le_of_map_succ {next : Option Nat} {m : Nat} (h : next.map (· + 1) = some n)
    (hle : ∀ i, next = some i → i ≤ m) : n ≤ m + 1 := by
  obtain ⟨i, hi, rfl⟩ := Option.map_eq_some_iff.mp h
  exact Nat.succ_le_succ (hle i hi)

lemma bodyLength?_le {depth skip : Nat} (h : bodyLength? d depth skip text = some n) :
    n ≤ text.length := by
  induction text generalizing depth skip n with
  | nil => simp [bodyLength?] at h
  | cons c rest ih =>
    rw [bodyLength?] at h
    split at h
    · exact le_of_map_succ h fun i hi => ih hi
    split at h
    · exact le_of_map_succ h fun i hi => ih hi
    split at h
    · split at h
      · obtain rfl := Option.some.inj h
        exact Nat.zero_le _
      · exact le_of_map_succ h fun i hi => ih hi
    · exact le_of_map_succ h fun i hi => ih hi

lemma bodyLinesLength?_le {closer : Bytes} (h : bodyLinesLength? closer text = some n) :
    n ≤ text.length := by
  induction text generalizing n with
  | nil => simp [bodyLinesLength?] at h
  | cons c rest ih =>
    rw [bodyLinesLength?] at h
    split at h
    · obtain rfl := Option.some.inj h
      exact Nat.succ_le_succ (Nat.zero_le _)
    · exact le_of_map_succ h fun i hi => ih hi

lemma blockBody_le (d : BlockComment) (text : Bytes) :
    (blockBody d text).1 + (blockBody d text).2 ≤ text.length := by
  rw [blockBody]
  split
  · split
    · next n hn =>
      have hline : restOfLine (text.drop n) ≤ (text.drop n).length :=
        (List.takeWhile_prefix _).length_le
      have hle := bodyLinesLength?_le hn
      rw [List.length_drop] at hline
      dsimp only
      omega
    · exact Nat.le_refl _
  · split
    · next n hn =>
      have hcloser := (closer_of_bodyLength? hn).length_le
      have hle := bodyLength?_le hn
      rw [List.length_drop] at hcloser
      dsimp only
      omega
    · exact Nat.le_refl _

lemma segmentAt_comment {b : Bool} {style : CommentStyle} {delimiter : Bytes} {bodyLength : Nat}
    (h : lang.segmentAt b text = (.comment style delimiter bodyLength, n)) :
    delimiter <+: text ∧ delimiter.length + bodyLength ≤ n ∧ n ≤ text.length := by
  have hopens := lang.opens_openingAt b text
  rw [segmentAt] at h
  cases ho : lang.openingAt b text with
  | code => simp [ho] at h
  | string => simp [ho] at h
  | lineComment l =>
    simp only [ho, Prod.mk.injEq, Segment.Kind.comment.injEq] at h
    rw [ho] at hopens
    obtain ⟨⟨-, rfl, rfl⟩, rfl⟩ := h
    have hbody : ((text.drop l.length).takeWhile (· ≠ newline)).length ≤ (text.drop l.length).length :=
      (List.takeWhile_prefix _).length_le
    have hpre := hopens.2.length_le
    rw [List.length_drop] at hbody
    refine ⟨hopens.2, Nat.add_le_add_left ?_ _, by omega⟩
    split
    · exact (List.dropLast_prefix _).length_le
    · exact Nat.le_refl _
  | blockComment c =>
    simp only [ho, Prod.mk.injEq, Segment.Kind.comment.injEq] at h
    rw [ho] at hopens
    obtain ⟨⟨-, rfl, rfl⟩, rfl⟩ := h
    have hbody := blockBody_le c (text.drop c.opener.length)
    have hpre := hopens.2.length_le
    rw [List.length_drop] at hbody
    exact ⟨hopens.2, Nat.le_add_right _ _, by omega⟩

lemma holdsComment_of_mem (hs : s ∈ lang.segments content o) : s.HoldsComment content := by
  intro style delimiter bodyLength hkind
  obtain ⟨-, -, heq⟩ := mem_segments hs
  generalize hseg : lang.segmentAt (startsLine content s.start) (content.drop s.start) = found
  obtain ⟨kind, n⟩ := found
  have hstop := congrArg Segment.stop heq
  rw [heq, firstSegment, hseg] at hkind
  obtain rfl : kind = .comment style delimiter bodyLength := hkind
  obtain ⟨hpre, hbody, hlength⟩ := segmentAt_comment hseg
  simp only [firstSegment, firstTaken, hseg, List.length_take] at hstop
  exact ⟨hpre, by omega⟩

end Comments

lemma tiles_segments (lang : Language) (ho : o ≤ content.length) :
    Segment.Tiles content.length o (lang.segments content o) := by
  induction hs : lang.segments content o generalizing o with
  | nil =>
    obtain rfl := Nat.le_antisymm ho (length_le_of_segments_eq_nil hs)
    exact .nil
  | cons s ss ih =>
    have hmem : s ∈ lang.segments content o := hs ▸ List.mem_cons_self
    obtain ⟨-, rfl, hss⟩ := segments_eq_cons hs
    exact .cons (start_lt_stop hmem) (ih (stop_le_length hmem) hss.symm)

lemma cutAt_segments (h : k ≤ o) :
    Segment.cutAt k (lang.segments content o) = lang.segments content o := by
  have hbehind : ∀ s ∈ lang.segments content o, k ≤ s.start ∧ k < s.stop := by
    intro s hs
    have hstart := (mem_segments hs).1
    have hlt := start_lt_stop hs
    omega
  rw [Segment.cutAt, List.filter_eq_self.mpr fun s hs => by simpa using (hbehind s hs).2]
  refine (List.map_congr_left fun s hs => ?_).trans (List.map_id _)
  rw [Nat.max_eq_right (hbehind s hs).1]
  rfl

lemma segments_eq_cutAt (ho : o ≤ k) (hk : k ≤ content.length)
    (h : ∀ s ∈ lang.segments content o, s.start < k → k < s.stop → s.kind = .code) :
    lang.segments content k = Segment.cutAt k (lang.segments content o) := by
  induction hs : lang.segments content o generalizing o with
  | nil =>
    have hle := length_le_of_segments_eq_nil hs
    rw [segments_of_length_le (Nat.le_trans hle ho)]
    rfl
  | cons s ss ih =>
    have hlt := start_lt_stop (hs ▸ List.mem_cons_self : s ∈ lang.segments content o)
    rw [hs] at h
    obtain ⟨hfirst, hrest⟩ := List.forall_mem_cons.mp h
    obtain ⟨hlength, rfl, rfl⟩ := segments_eq_cons hs
    rcases Nat.lt_or_ge k (lang.firstSegment content o).stop with hin | hpast
    · have hstart : max k (lang.firstSegment content o).start = k := Nat.max_eq_left ho
      rw [Segment.cutAt_cons_of_lt hin, cutAt_segments (Nat.le_of_lt hin), hstart]
      rcases Nat.eq_or_lt_of_le ho with rfl | hinside
      · exact segments_of_lt hlength
      · obtain ⟨hk, hwithin⟩ := firstSegment_within (hfirst hinside hin) hlength ho hin
        rw [segments_of_lt hk, hwithin]
    · rw [Segment.cutAt_cons_of_le hpast]
      exact ih hpast hrest rfl

/-- From any offset on the segments cover the content to its end, in pieces as large as can be; from an
offset between the segments of the whole content, or within code of it, they are the rest of those. -/
theorem segments_tile (lang : Language) (content : Bytes) (o : Nat) (ho : o ≤ content.length) :
    let segments := lang.segments content o
    let whole := lang.segments content 0
    Segment.Tiles content.length o segments ∧
    (∀ s ∈ segments, s.HoldsComment content) ∧
    (segments.IsChain fun s t => ¬(s.kind = .code ∧ t.kind = .code)) ∧
    (∀ s ∈ segments, s.kind = .code → ∀ k, s.start ≤ k → k < s.stop →
      lang.openingAt (startsLine content k) (content.drop k) = .code) ∧
    ((∀ s ∈ whole, s.start < o → o < s.stop → s.kind = .code) →
      segments = Segment.cutAt o whole) := by
  intro segments whole
  refine ⟨lang.tiles_segments ho, fun s hs => holdsComment_of_mem hs, lang.isChain_segments content o,
    fun s hs hcode k hk hlt => opensAt_of_mem_code hs hcode hk hlt, fun h => ?_⟩
  exact segments_eq_cutAt (Nat.zero_le o) ho h

def lifetimes : Bytes := ascii "&'a/*/*b*/*/'\\''c\"d\\"

theorem segments_tile_lifetimes :
    2 ≤ lifetimes.length ∧
    (∀ s ∈ rust.segments lifetimes 0, s.start < 2 → 2 < s.stop → s.kind = .code) ∧
    rust.segments lifetimes 2 =
      [⟨.code, 2, 3⟩, ⟨.comment .block (ascii "/*") 5, 3, 12⟩, ⟨.string, 12, 16⟩, ⟨.code, 16, 17⟩,
        ⟨.string, 17, 20⟩] := by
  have hlength : 2 ≤ lifetimes.length := by decide
  have hcode : ∀ s ∈ rust.segments lifetimes 0, s.start < 2 → 2 < s.stop → s.kind = .code := by
    decide +kernel
  obtain ⟨-, -, -, -, hresume⟩ := segments_tile rust lifetimes 2 hlength
  exact ⟨hlength, hcode, (hresume hcode).trans (by decide +kernel)⟩

end Language

end TrustRegions
