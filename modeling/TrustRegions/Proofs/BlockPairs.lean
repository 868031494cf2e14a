import TrustRegions.Proofs.Reading

/-! Which end marker belongs to which begin marker: what stands between the two is balanced in itself.
A stack of the markers still open finds the pairs. -/

namespace TrustRegions

namespace Comment

def opensBlock (c : Comment) : Bool :=
  match c.role with
  | .begins _ => true
  | _ => false

def closesBlock (c : Comment) : Bool :=
  match c.role with
  | .ends => true
  | _ => false

inductive Balanced : List Comment → Prop
  | nil : Balanced []
  | other {c : Comment} {w : List Comment} : c.opensBlock = false → c.closesBlock = false →
      Balanced w → Balanced (c :: w)
  | pair {b e : Comment} {inner rest : List Comment} : b.opensBlock = true → e.closesBlock = true →
      Balanced inner → Balanced rest → Balanced (b :: inner ++ e :: rest)

def Pairs (cs : List Comment) (b e : Comment) : Prop :=
  ∃ before inner after, cs = before ++ b :: inner ++ e :: after ∧ b.opensBlock = true ∧
    e.closesBlock = true ∧ Balanced inner

def Unpaired (cs : List Comment) (c : Comment) : Prop :=
  c ∈ cs ∧ (c.opensBlock = true ∧ (∀ e, ¬Pairs cs c e) ∨ c.closesBlock = true ∧ ∀ b, ¬Pairs cs b c)

def push (stack : List Comment) (c : Comment) : List Comment :=
  if c.opensBlock then c :: stack else if c.closesBlock then stack.tail else stack

def openMarkers (cs : List Comment) : List Comment := cs.foldl push []

variable {cs w v before after stack : List Comment} {b c d e x : Comment}

lemma closesBlock_of_opensBlock (h : c.opensBlock = true) : c.closesBlock = false := by
  rw [opensBlock] at h
  rw [closesBlock]
  cases hr : c.role <;> simp [hr] at h ⊢

lemma opensBlock_of_closesBlock (h : c.closesBlock = true) : c.opensBlock = false := by
  by_contra ho
  rw [Bool.not_eq_false] at ho
  simp [closesBlock_of_opensBlock ho] at h

lemma openMarkers_concat (cs : List Comment) (c : Comment) :
    openMarkers (cs ++ [c]) = push (openMarkers cs) c := List.foldl_concat ..

lemma push_of_opens (h : c.opensBlock = true) : push stack c = c :: stack := if_pos h

lemma push_of_closes (h : c.closesBlock = true) : push stack c = stack.tail := by
  rw [push, opensBlock_of_closesBlock h, h]
  rfl

lemma push_of_other (ho : c.opensBlock = false) (hc : c.closesBlock = false) :
    push stack c = stack := by
  rw [push, ho, hc]
  rfl

lemma Balanced.append (h : Balanced w) (hv : Balanced v) : Balanced (w ++ v) := by
  induction h with
  | nil => exact hv
  | other ho hc _ ih => exact .other ho hc ih
  | pair hb he hi _ _ ih =>
    rw [List.append_assoc, List.cons_append]
    exact .pair hb he hi ih

lemma Balanced.foldl_push (h : Balanced w) (stack : List Comment) :
    w.foldl push stack = stack := by
  induction h generalizing stack with
  | nil => rfl
  | other ho hc _ ih => rw [List.foldl_cons, push_of_other ho hc, ih]
  | pair hb he _ _ ihi ihr =>
    simp only [List.foldl_append, List.foldl_cons, push_of_opens hb, ihi, push_of_closes he,
      List.tail_cons, ihr]

lemma exists_balanced (h : openMarkers cs = b :: stack) : ∃ before inner,
    cs = before ++ b :: inner ∧ b.opensBlock = true ∧ Balanced inner ∧
      openMarkers before = stack := by
  -- The induction is on the length: where a marker has ended, the two parts around it are shorter.
  induction hn : cs.length using Nat.strongRecOn generalizing cs b stack with
  | ind n ih =>
    subst hn
    rcases List.eq_nil_or_concat' cs with rfl | ⟨cs, c, rfl⟩
    · simp [openMarkers] at h
    rw [openMarkers_concat] at h
    have hlt : cs.length < (cs ++ [c]).length := by simp
    by_cases ho : c.opensBlock = true
    · rw [push_of_opens ho] at h
      obtain ⟨rfl, rfl⟩ := List.cons.inj h
      exact ⟨cs, [], rfl, ho, .nil, rfl⟩
    rw [Bool.not_eq_true] at ho
    by_cases hc : c.closesBlock = true
    · -- The marker that ends here and all in it are one more part of what follows `b`.
      rw [push_of_closes hc] at h
      obtain ⟨b', hb'⟩ : ∃ b', openMarkers cs = b' :: b :: stack := by
        cases hcs : openMarkers cs with
        | nil => simp [hcs] at h
        | cons b' st => exact ⟨b', by rw [← h, hcs, List.tail_cons]⟩
      obtain ⟨mid, inner', rfl, hopen', hinner', hmid⟩ := ih _ hlt hb' rfl
      obtain ⟨before, inner, rfl, hopen, hinner, hbefore⟩ := ih mid.length (by simp) hmid rfl
      refine ⟨before, inner ++ (b' :: inner' ++ [c]), by simp, hopen, ?_, hbefore⟩
      exact hinner.append (.pair hopen' hc hinner' .nil)
    · rw [Bool.not_eq_true] at hc
      rw [push_of_other ho hc] at h
      obtain ⟨before, inner, rfl, hopen, hinner, hbefore⟩ := ih _ hlt h rfl
      exact ⟨before, inner ++ [c], by simp, hopen, hinner.append (.other ho hc .nil), hbefore⟩

lemma pairs_concat : Pairs (cs ++ [c]) b e ↔
    Pairs cs b e ∨ e = c ∧ c.closesBlock = true ∧ (openMarkers cs).head? = some b := by
  constructor
  · rintro ⟨before, inner, after, hcs, hb, he, hinner⟩
    rcases List.eq_nil_or_concat' after with rfl | ⟨after, c', rfl⟩
    · obtain ⟨rfl, hc⟩ := List.append_inj' hcs rfl
      obtain rfl : c = e := by simpa using hc
      refine Or.inr ⟨rfl, he, ?_⟩
      rw [openMarkers, List.foldl_append, List.foldl_cons, push_of_opens hb, hinner.foldl_push]
      rfl
    · rw [← List.cons_append, ← List.append_assoc] at hcs
      obtain ⟨rfl, -⟩ := List.append_inj' hcs rfl
      exact Or.inl ⟨before, inner, after, rfl, hb, he, hinner⟩
  · rintro (⟨before, inner, after, rfl, h⟩ | ⟨rfl, he, hhead⟩)
    · exact ⟨before, inner, after ++ [c], by simp, h⟩
    · obtain ⟨stack, hstack⟩ := List.head?_eq_some_iff.mp hhead
      obtain ⟨before, inner, rfl, hb, hinner, -⟩ := exists_balanced hstack
      exact ⟨before, inner, [], rfl, hb, he, hinner⟩

lemma Pairs.mem (h : Pairs cs b e) : b ∈ cs ∧ e ∈ cs := by
  obtain ⟨before, inner, after, rfl, -⟩ := h
  simp

lemma Pairs.opens (h : Pairs cs b e) : b.opensBlock = true := by
  obtain ⟨-, -, -, -, hb, -⟩ := h
  exact hb

lemma Pairs.closes (h : Pairs cs b e) : e.closesBlock = true := by
  obtain ⟨-, -, -, -, -, he, -⟩ := h
  exact he

lemma Pairs.lift (h : Pairs w b e) (before after : List Comment) :
    Pairs (before ++ w ++ after) b e := by
  obtain ⟨before', inner, after', rfl, h⟩ := h
  exact ⟨before ++ before', inner, after' ++ after, by simp, h⟩

lemma pairs_of_head?_openMarkers (hc : c.closesBlock = true) (hb : (openMarkers before).head? = some b) :
    Pairs (before ++ c :: after) b c := by
  have hpairs : Pairs (before ++ [c]) b c := pairs_concat.mpr (Or.inr ⟨rfl, hc, hb⟩)
  simpa using hpairs.lift [] after

lemma reverse_openMarkers_sublist (cs : List Comment) : (openMarkers cs).reverse.Sublist cs := by
  induction cs using List.reverseRecOn with
  | nil => exact .slnil
  | append_singleton cs c ih =>
    rw [openMarkers_concat, push]
    split
    · rw [List.reverse_cons]
      exact ih.append (.refl _)
    · split
      · exact (List.reverse_sublist.mpr (List.tail_sublist _)).trans
          (ih.trans (List.sublist_append_left _ _))
      · exact ih.trans (List.sublist_append_left _ _)

lemma nodup_openMarkers (h : cs.Nodup) : (openMarkers cs).Nodup :=
  List.nodup_reverse.mp (h.sublist (reverse_openMarkers_sublist cs))

lemma notMem_of_nodup_concat (h : (cs ++ [c]).Nodup) : c ∉ cs :=
  fun hc => (List.nodup_append.mp h).2.2 c hc c List.mem_cons_self rfl

lemma mem_openMarkers (h : cs.Nodup) :
    b ∈ openMarkers cs ↔ b ∈ cs ∧ b.opensBlock = true ∧ ∀ e, ¬Pairs cs b e := by
  induction cs using List.reverseRecOn with
  | nil => simp [openMarkers]
  | append_singleton cs c ih =>
    have hcs : cs.Nodup := (List.nodup_append.mp h).1
    have hnot := notMem_of_nodup_concat h
    have hc : ∀ e, ¬Pairs cs c e := fun e he => hnot he.mem.1
    simp only [openMarkers_concat, pairs_concat, List.mem_append, List.mem_singleton]
    by_cases ho : c.opensBlock = true
    · rw [push_of_opens ho, List.mem_cons, ih hcs]
      simp only [closesBlock_of_opensBlock ho]
      grind
    rw [Bool.not_eq_true] at ho
    by_cases hcl : c.closesBlock = true
    · have hnodup := nodup_openMarkers hcs
      have hmem := ih hcs
      rw [push_of_closes hcl, hcl]
      cases hstack : openMarkers cs with
      | nil =>
        rw [hstack] at hmem
        grind
      | cons x stack =>
        rw [hstack] at hmem hnodup
        grind
    · rw [Bool.not_eq_true] at hcl
      rw [push_of_other ho hcl, ih hcs]
      grind

lemma pairs_concat_of_mem (hc : c ∉ cs) (he : e ∈ cs) : Pairs (cs ++ [c]) b e ↔ Pairs cs b e := by
  rw [pairs_concat, or_iff_left]
  rintro ⟨rfl, -⟩
  exact hc he

lemma head?_openMarkers_of_pairs (h : (before ++ c :: after).Nodup)
    (hp : Pairs (before ++ c :: after) b c) : (openMarkers before).head? = some b := by
  induction after using List.reverseRecOn with
  | nil =>
    rcases pairs_concat.mp hp with hp | ⟨-, -, hhead⟩
    · exact absurd hp.mem.2 (notMem_of_nodup_concat h)
    · exact hhead
  | append_singleton after x ih =>
    rw [← List.cons_append, ← List.append_assoc] at h hp
    refine ih (List.nodup_append.mp h).1 ?_
    exact (pairs_concat_of_mem (notMem_of_nodup_concat h) (by simp)).mp hp

lemma pairs_concat_of_not_closes (h : c.closesBlock = false) :
    Pairs (cs ++ [c]) b e ↔ Pairs cs b e := by
  rw [pairs_concat, h]
  simp

def Stray (cs : List Comment) (e : Comment) : Prop :=
  e ∈ cs ∧ e.closesBlock = true ∧ ∀ b, ¬Pairs cs b e

lemma stray_concat (hc : c ∉ cs) :
    Stray (cs ++ [c]) e ↔ Stray cs e ∨ e = c ∧ c.closesBlock = true ∧ openMarkers cs = [] := by
  have hlast : (∀ b, ¬Pairs (cs ++ [c]) b c) ↔ c.closesBlock = true → openMarkers cs = [] := by
    have hnot (b : Comment) : ¬Pairs cs b c := fun h => hc h.mem.2
    simp only [pairs_concat, hnot, false_or, true_and, not_and]
    cases hstack : openMarkers cs <;> simp
  by_cases he : e = c
  · subst he
    simp only [Stray, hlast, hc, List.mem_append, List.mem_singleton]
    tauto
  · by_cases hmem : e ∈ cs
    · simp [Stray, pairs_concat_of_mem hc hmem, he]
    · simp [Stray, hmem, he]

lemma unpaired_iff (h : cs.Nodup) : Unpaired cs c ↔ Stray cs c ∨ c ∈ openMarkers cs := by
  rw [mem_openMarkers h, Unpaired, Stray]
  tauto

lemma Pairs.right_unique (h : cs.Nodup) (hd : Pairs cs b d) (he : Pairs cs b e) : d = e := by
  induction cs using List.reverseRecOn with
  | nil => exact absurd hd.mem.1 (List.not_mem_nil)
  | append_singleton cs c ih =>
    have hcs : cs.Nodup := (List.nodup_append.mp h).1
    -- With its end marker gone by, `b` is open no longer.
    have hnot {e : Comment} (he : Pairs cs b e) : (openMarkers cs).head? ≠ some b :=
      fun hhead => ((mem_openMarkers hcs).mp (List.mem_of_mem_head? hhead)).2.2 e he
    rcases pairs_concat.mp hd with hd' | ⟨hdc, -, hd'⟩ <;>
      rcases pairs_concat.mp he with he' | ⟨hec, -, he'⟩
    · exact ih hcs hd' he'
    · exact absurd he' (hnot hd')
    · exact absurd hd' (hnot he')
    · exact hdc.trans hec.symm

lemma Balanced.exists_pairs (h : Balanced w) (hc : c ∈ w) :
    (c.opensBlock = true → ∃ e, Pairs w c e) ∧ (c.closesBlock = true → ∃ b, Pairs w b c) := by
  induction h with
  | nil => exact absurd hc List.not_mem_nil
  | @other x w ho hcl _ ih =>
    have hlift {b e : Comment} (h : Pairs w b e) : Pairs (x :: w) b e := by
      simpa using h.lift [x] []
    rcases List.mem_cons.mp hc with rfl | hc
    · simp [ho, hcl]
    · obtain ⟨hopens, hcloses⟩ := ih hc
      exact ⟨fun h => (hopens h).imp fun e => hlift, fun h => (hcloses h).imp fun b => hlift⟩
  | @pair x y inner rest hx hy hi hr ihi ihr =>
    have hinner {b e : Comment} (h : Pairs inner b e) : Pairs (x :: inner ++ y :: rest) b e := by
      simpa using h.lift [x] (y :: rest)
    have hrest {b e : Comment} (h : Pairs rest b e) : Pairs (x :: inner ++ y :: rest) b e := by
      simpa using h.lift (x :: inner ++ [y]) []
    have hself : Pairs (x :: inner ++ y :: rest) x y := ⟨[], inner, rest, rfl, hx, hy, hi⟩
    rw [List.mem_append, List.mem_cons, List.mem_cons] at hc
    rcases hc with (rfl | hc) | rfl | hc
    · exact ⟨fun _ => ⟨y, hself⟩, by simp [closesBlock_of_opensBlock hx]⟩
    · obtain ⟨hopens, hcloses⟩ := ihi hc
      exact ⟨fun h => (hopens h).imp fun e => hinner, fun h => (hcloses h).imp fun b => hinner⟩
    · exact ⟨by simp [opensBlock_of_closesBlock hy], fun _ => ⟨x, hself⟩⟩
    · obtain ⟨hopens, hcloses⟩ := ihr hc
      exact ⟨fun h => (hopens h).imp fun e => hrest, fun h => (hcloses h).imp fun b => hrest⟩

lemma Pairs.start_lt (ho : InOrder cs) (h : Pairs cs b e) : b.span.start < e.span.start := by
  obtain ⟨before, inner, after, rfl, -⟩ := h
  have hsorted := ho.pairwise_start
  rw [List.append_assoc, List.pairwise_append, List.cons_append, List.pairwise_cons] at hsorted
  exact hsorted.2.1.1 e (by simp)

lemma Pairs.within (ho : InOrder cs) (h : Pairs cs b e) (hx : x ∈ cs)
    (hbx : b.span.start < x.span.start) (hxe : x.span.start < e.span.start) :
    (x.opensBlock = true → ∃ d, Pairs cs x d ∧ d.span.start < e.span.start) ∧
      (x.closesBlock = true → ∃ d, Pairs cs d x) := by
  obtain ⟨before, inner, after, rfl, -, -, hbalanced⟩ := h
  have hsorted := ho.pairwise_start
  rw [List.pairwise_append, List.pairwise_append, List.pairwise_cons, List.pairwise_cons] at hsorted
  obtain ⟨⟨-, ⟨hb, -⟩, hbefore⟩, ⟨he, -⟩, hleft⟩ := hsorted
  have hinner : x ∈ inner := by
    simp only [List.mem_append, List.mem_cons] at hx
    rcases hx with (hx | rfl | hx) | rfl | hx
    · exact absurd (hbefore x hx b List.mem_cons_self) hbx.not_gt
    · exact absurd hbx (lt_irrefl _)
    · exact hx
    · exact absurd hxe (lt_irrefl _)
    · exact absurd (he x hx) hxe.not_gt
  -- What stands between the two is balanced, so a partner of `x` is there as well.
  have hlift {c d : Comment} (h : Pairs inner c d) :
      Pairs (before ++ b :: inner ++ e :: after) c d := by
    simpa using h.lift (before ++ [b]) (e :: after)
  obtain ⟨hopens, hcloses⟩ := hbalanced.exists_pairs hinner
  refine ⟨fun h => ?_, fun h => (hcloses h).imp fun d => hlift⟩
  obtain ⟨d, hd⟩ := hopens h
  exact ⟨d, hlift hd, hleft d (by simp [hd.mem.2]) e List.mem_cons_self⟩

lemma Pairs.nested_or_disjoint {b' e' : Comment} (ho : InOrder cs) (h : Pairs cs b e)
    (h' : Pairs cs b' e') (hlt : b.span.start < b'.span.start) :
    e.span.stop ≤ b'.span.start ∨
      b.span.stop ≤ b'.span.start ∧ e'.span.stop ≤ e.span.start := by
  rcases lt_trichotomy b'.span.start e.span.start with hin | heq | hafter
  · obtain ⟨d, hd, hde⟩ := (h.within ho h'.mem.1 hlt hin).1 h'.opens
    obtain rfl := hd.right_unique ho.nodup h'
    exact Or.inr ⟨ho.stop_le_of_start_lt h.mem.1 h'.mem.1 hlt,
      ho.stop_le_of_start_lt hd.mem.2 h.mem.2 hde⟩
  · obtain rfl := ho.eq_of_start_eq h'.mem.1 h.mem.2 heq
    exact absurd h.closes (by simp [closesBlock_of_opensBlock h'.opens])
  · exact Or.inl (ho.stop_le_of_start_lt h.mem.2 h'.mem.1 hafter)

lemma Pairs.start_lt_of_unpaired {u : Comment} (ho : InOrder cs) (h : Pairs cs b e)
    (hu : Unpaired cs u) (hlt : b.span.start < u.span.start) :
    e.span.start < u.span.start := by
  obtain ⟨hmem, hu⟩ := hu
  by_contra hle
  rcases (not_lt.mp hle).eq_or_lt with heq | hin
  · obtain rfl := ho.eq_of_start_eq hmem h.mem.2 heq
    rcases hu with ⟨hopens, -⟩ | ⟨-, hnot⟩
    · exact absurd h.closes (by simp [closesBlock_of_opensBlock hopens])
    · exact hnot b h
  · obtain ⟨hopens, hcloses⟩ := h.within ho hmem hlt hin
    rcases hu with ⟨hu, hnot⟩ | ⟨hu, hnot⟩
    · obtain ⟨d, hd, -⟩ := hopens hu
      exact hnot d hd
    · obtain ⟨d, hd⟩ := hcloses hu
      exact hnot d hd

lemma exists_pairs_of_start_lt (hc : c ∈ cs) (hopens : c.opensBlock = true)
    (h : ∀ u, Unpaired cs u → c.span.start < u.span.start) : ∃ e, Pairs cs c e := by
  by_contra hnone
  exact (h c ⟨hc, Or.inl ⟨hopens, not_exists.mp hnone⟩⟩).false

end Comment

end TrustRegions
