import Mathlib.Logic.Relation
import TrustRegions.Proofs.LineKinds

/-! How far the scope of a declaration goes in a language where nothing but indentation ends a block, told
line by line: behind the lines of its header come those indented deeper, with what goes on from them and
what is blank or a comment in between. -/

namespace TrustRegions

namespace Source

variable {source : Source} {lang : Language} {o base first last number n m h : Nat}
  {rows below : List Row}

/-! ### Headers -/

structure HeaderStep (source : Source) (lang : Language) (o base n m : Nat) : Prop where
  decorated : isDecorated (source.line n) = true
  lt : n < m
  le : m ≤ source.lineCount
  opens : source.OpensStatement lang o m
  next : ∀ k, n < k → k < m → ¬source.OpensStatement lang o k
  indent : indentWidth (source.line m) = base

def Header (source : Source) (lang : Language) (o base first h : Nat) : Prop :=
  Relation.ReflTransGen (source.HeaderStep lang o base) first h ∧ ∀ m, ¬source.HeaderStep lang o base h m

lemma HeaderStep.eq (h : source.HeaderStep lang o base n m) {k : Nat}
    (h' : source.HeaderStep lang o base n k) : m = k := by
  rcases lt_trichotomy m k with hlt | heq | hlt
  · exact absurd h.opens (h'.next m h.lt hlt)
  · exact heq
  · exact absurd h'.opens (h.next k h'.lt hlt)

lemma Header.eq {k : Nat} (hh : source.Header lang o base first h)
    (hk : source.Header lang o base first k) : h = k := by
  have hunique : Relator.RightUnique (source.HeaderStep lang o base) := fun _ _ _ h h' => h.eq h'
  rcases Relation.ReflTransGen.total_of_right_unique hunique hh.1 hk.1 with hto | hto
  · exact (hto.cases_head.resolve_right fun ⟨m, hm, _⟩ => hh.2 m hm)
  · exact (hto.cases_head.resolve_right fun ⟨m, hm, _⟩ => hk.2 m hm).symm

lemma Tells.le (h : source.Tells lang o n rows) : n ≤ source.lineCount := by
  induction h with
  | nil => exact le_rfl
  | cons _ _ _ _ _ ih => exact Nat.le_of_succ_le ih

lemma Tells.header (base : Nat) (hbelow : source.Tells lang o number below)
    (h : source.Tells lang o n rows) (hle : number ≤ n) (hidle : ∀ k, number < k → k ≤ n → ¬source.OpensStatement lang o k)
    (hdecorated : isDecorated (source.line number) = true) :
    source.Header lang o base number (headerEnd lang base number below rows).1 ∧
      source.Tells lang o (headerEnd lang base number below rows).1
        (headerEnd lang base number below rows).2 := by
  -- By induction on the rows: a statement among them is the next one after the line `number`.
  induction h generalizing number below with
  | nil =>
    refine ⟨⟨.refl, fun m hm => ?_⟩, hbelow⟩
    exact hidle m hm.lt hm.le hm.opens
  | @cons n r rows hnumber htext hcontinues hopens hrows ih =>
    rw [headerEnd]
    split
    · next hs =>
      refine ih hbelow (by omega) (fun k hk hkn => ?_) hdecorated
      rcases Nat.le_succ_iff.mp hkn with hkn | rfl
      · exact hidle k hk hkn
      · exact fun hk => by simp [hopens.mpr hk] at hs
    next hs =>
    have hs : source.OpensStatement lang o (n + 1) := hopens.mp (by simpa using hs)
    rw [htext, hnumber]
    split
    · next hindent =>
      refine ⟨⟨.refl, fun m hm => hindent ?_⟩, hbelow⟩
      rcases lt_trichotomy m (n + 1) with hlt | rfl | hlt
      · exact absurd hm.opens (hidle m hm.lt (Nat.le_of_lt_succ hlt))
      · exact hm.indent
      · exact absurd hs (hm.next (n + 1) (Nat.lt_succ_of_le hle) hlt)
    next hindent =>
    have hstep : source.HeaderStep lang o base number (n + 1) :=
      ⟨hdecorated, by omega, hrows.le, hs, fun k hk hkn => hidle k hk (by omega), by simpa using hindent⟩
    split
    · next hdec =>
      obtain ⟨hheader, htells⟩ := ih hrows le_rfl (fun k hk hkn => by omega) hdec
      exact ⟨⟨.head hstep hheader.1, hheader.2⟩, htells⟩
    · next hdec =>
      exact ⟨⟨.single hstep, fun m hm => hdec hm.decorated⟩, hrows⟩

lemma header_of_not_decorated (hdecorated : isDecorated (source.line first) = false) :
    source.Header lang o base first first :=
  ⟨.refl, fun m hm => by simp [hm.decorated] at hdecorated⟩

/-! ### Blocks -/

def Belongs (source : Source) (lang : Language) (o base n : Nat) : Prop :=
  source.Continues lang o n ∨ source.OpensStatement lang o n ∧ base < indentWidth (source.line n)

def Idle (source : Source) (lang : Language) (o n : Nat) : Prop :=
  ¬source.Continues lang o n ∧ ¬source.OpensStatement lang o n

structure Extends (source : Source) (lang : Language) (o base first last : Nat) : Prop where
  le : first ≤ last
  last_le : last ≤ source.lineCount
  within : ∀ n, first < n → n ≤ last → source.Idle lang o n ∨ source.Belongs lang o base n
  ends : last = first ∨ source.Belongs lang o base last
  below : ∀ n, last < n → n ≤ source.lineCount → (∀ k, last < k → k < n → source.Idle lang o k) →
    ¬source.Idle lang o n → source.OpensStatement lang o n ∧ indentWidth (source.line n) ≤ base

lemma Extends.of_belongs (h : source.Extends lang o base m last) (hlt : first < m)
    (hm : source.Belongs lang o base m) (hidle : ∀ k, first < k → k < m → source.Idle lang o k) :
    source.Extends lang o base first last where
  le := hlt.le.trans h.le
  last_le := h.last_le
  within n hn hle := by
    rcases lt_trichotomy n m with hnm | rfl | hnm
    · exact Or.inl (hidle n hn hnm)
    · exact Or.inr hm
    · exact h.within n hnm hle
  ends := by
    right
    rcases h.ends with rfl | hends
    · exact hm
    · exact hends
  below := h.below

lemma Tells.extends (base : Nat) (hi : lang.ByIndentation) (h : source.Tells lang o n rows)
    (hle : first ≤ n) (hidle : ∀ k, first < k → k ≤ n → source.Idle lang o k) (hasBody : Bool) :
    source.Extends lang o base first (offsideBlock lang base first hasBody rows).lastLine := by
  induction h generalizing first hasBody with
  | nil =>
    refine ⟨le_rfl, hle, fun k hk hkn => absurd hk hkn.not_gt, Or.inl rfl, fun k hk hkn _ hnot => ?_⟩
    exact absurd (hidle k hk hkn) hnot
  | @cons n r rows hnumber htext hcontinues hopens hrows ih =>
    have hbelongs (hb : source.Belongs lang o base (n + 1)) {last : Nat}
        (h : source.Extends lang o base (n + 1) last) : source.Extends lang o base first last :=
      h.of_belongs (Nat.lt_succ_of_le hle) hb fun k hk hkn => hidle k hk (Nat.le_of_lt_succ hkn)
    cases rowCase lang base r with
    | continuation hc =>
      rw [offsideBlock_continuation hc, hnumber]
      exact hbelongs (Or.inl (hcontinues.mp hc)) (ih le_rfl (fun k hk hkn => absurd hk hkn.not_gt) _)
    | skip hc hs =>
      rw [offsideBlock_skip hc hs]
      refine ih (Nat.le_succ_of_le hle) (fun k hk hkn => ?_) _
      rcases Nat.le_succ_iff.mp hkn with hkn | rfl
      · exact hidle k hk hkn
      · exact ⟨mt hcontinues.mpr hc, mt hopens.mpr (by simp [hs])⟩
    | deeper hs hd =>
      rw [offsideBlock_deeper hs hd, hnumber]
      exact hbelongs (Or.inr ⟨hopens.mp hs, htext ▸ hd⟩)
        (ih le_rfl (fun k hk hkn => absurd hk hkn.not_gt) _)
    | shallow hs hd =>
      rw [offsideBlock_shallow hi hs hd]
      refine ⟨le_rfl, hle.trans (Nat.le_of_succ_le hrows.le), fun k hk hkn => absurd hk hkn.not_gt,
        Or.inl rfl, fun k hk hkn hbetween hnot => ?_⟩
      rcases lt_trichotomy k (n + 1) with hlt | rfl | hlt
      · exact absurd (hidle k hk (Nat.le_of_lt_succ hlt)) hnot
      · exact ⟨hopens.mp hs, htext ▸ hd⟩
      · exact absurd (hopens.mp hs) (hbetween (n + 1) (Nat.lt_succ_of_le hle) hlt).2

/-! ### Scopes -/

lemma Idle.blank_or_comment (h : source.Idle lang o n) :
    isBlankLine (source.line n) = true ∨ source.IsComment lang n := by
  by_contra hnot
  obtain ⟨hshows, hcomment⟩ := not_or.mp hnot
  exact h.2 ⟨by simpa using hshows, hcomment, h.1⟩

lemma not_idle (hshows : ¬isBlankLine (source.line n) = true) (hcomment : ¬source.IsComment lang n) :
    ¬source.Idle lang o n := fun h => h.blank_or_comment.elim hshows hcomment

lemma Extends.idle (h : source.Extends lang o base first last) (hle : n ≤ source.lineCount + 1)
    (hbetween : ∀ k, last < k → k < n → isBlankLine (source.line k) = true ∨ source.IsComment lang k) :
    ∀ k, last < k → k < n → source.Idle lang o k := by
  intro k
  induction k using Nat.strong_induction_on with
  | _ k ih =>
    intro hk hkn
    by_contra hnot
    obtain ⟨hopens, -⟩ := h.below k hk (by omega) (fun i hi hik => ih i hik hi (hik.trans hkn)) hnot
    rcases hbetween k hk hkn with hblank | hcomment
    · simp [hopens.shows] at hblank
    · exact hopens.not_comment hcomment

variable {before rest : List (UInt8 × Layer)} {b : UInt8 × Layer} {t : Span}

lemma Indents.exists_extends (hl : lang.Legible) (hi : lang.ByIndentation)
    (h : source.Indents lang before b rest t) :
    let base := indentWidth (source.line t.start.line)
    ∃ header last, source.Header lang before.length base t.start.line header ∧
      source.Extends lang before.length base header last ∧ t.stop = source.endOfLine last := by
  intro base
  obtain ⟨line, hend, hstop⟩ := h.ends
  have htells := h.tells hl hi.block
  have hline := offsideEnd_eq hend
  rw [offsideFrom] at hline
  cases hdecorated : isDecorated (source.line t.start.line) with
  | false =>
    simp only [hdecorated, Bool.false_eq_true, if_false] at hline
    have hblock := htells.extends base hi le_rfl (fun k hk hkm => absurd hk hkm.not_gt) false
    exact ⟨_, line, header_of_not_decorated hdecorated, hline ▸ hblock, hstop⟩
  | true =>
    simp only [hdecorated, if_true] at hline
    obtain ⟨hheader, hbelow⟩ :=
      htells.header base htells le_rfl (fun k hk hkm => absurd hk hkm.not_gt) hdecorated
    have hblock := hbelow.extends base hi le_rfl (fun k hk hkm => absurd hk hkm.not_gt) false
    exact ⟨_, line, hheader, hline ▸ hblock, hstop⟩

end Source

namespace Scan

variable {tag content : Bytes}

/-- Behind the header of a declaration its scope has lines that are blank, comments, go on from the line
above or are indented deeper, and ends with one of the last two kinds or the header; what comes first
below it, blank lines and comments apart, is neither. -/
theorem indented_scope_extent (path : Bytes) (htag : tag = ascii "python" ∨ tag = ascii "yaml") :
    let source : Source := ⟨content⟩
    let lang := Language.ofTag tag
    ∀ d ∈ (scan path tag content).directives, d.trailing = false →
      ∀ x, source.declarationScope? lang d.anchor = .ok (some x) →
        let o := source.offsetAt x.start
        let base := indentWidth (source.line x.start.line)
        let blank n := isBlankLine (source.line n) = true
        let deeper n := base < indentWidth (source.line n)
        ∃ h last, (∀ k, source.Header lang o base x.start.line k ↔ k = h) ∧
          x.stop = source.endOfLine last ∧ h ≤ last ∧ last ≤ source.lineCount ∧
          (∀ n, h < n → n ≤ last →
            blank n ∨ source.IsComment lang n ∨ source.Continues lang o n ∨ deeper n) ∧
          (last = h ∨ source.Continues lang o last ∨
            deeper last ∧ ¬blank last ∧ ¬source.IsComment lang last) ∧
          ∀ n, last < n → n ≤ source.lineCount → ¬blank n → ¬source.IsComment lang n →
            (∀ k, last < k → k < n → blank k ∨ source.IsComment lang k) →
              ¬source.Continues lang o n ∧ ¬deeper n := by
  intro source lang d hd htrailing x hx o base blank deeper
  have hi : lang.ByIndentation := Language.byIndentation_ofTag htag
  obtain ⟨before, b, rest, hindents⟩ :=
    Source.exists_indents_of_mem (Language.legible_ofTag tag) hi.style hd htrailing hx
  obtain ⟨h, last, hheader, hextends, hstop⟩ :=
    hindents.exists_extends (Language.legible_ofTag tag) hi
  rw [← hindents.offsetAt_start] at hheader hextends
  refine ⟨h, last, fun k => ⟨fun hk => hk.eq hheader, fun hk => hk ▸ hheader⟩, hstop, hextends.le,
    hextends.last_le, fun n hn hle => ?_, ?_, fun n hn hle hshows hcomment hbetween => ?_⟩
  · rcases hextends.within n hn hle with hidle | hcontinues | ⟨-, hdeeper⟩
    · exact hidle.blank_or_comment.imp_right Or.inl
    · exact Or.inr (Or.inr (Or.inl hcontinues))
    · exact Or.inr (Or.inr (Or.inr hdeeper))
  · rcases hextends.ends with heq | hcontinues | ⟨hopens, hdeeper⟩
    · exact Or.inl heq
    · exact Or.inr (Or.inl hcontinues)
    · exact Or.inr (Or.inr ⟨hdeeper, Bool.eq_false_iff.mp hopens.shows, hopens.not_comment⟩)
  · have hidle := hextends.idle (Nat.le_succ_of_le hle) hbetween
    obtain ⟨hopens, hshallow⟩ := hextends.below n hn hle hidle (Source.not_idle hshows hcomment)
    exact ⟨hopens.not_continues, Nat.not_lt.mpr hshallow⟩

def functionOverLines : Bytes :=
  ascii "# @collab trust=READ_ONLY\n@cached\n# how\n\ndef f(x=(\n1)):\n    # body\n" ++
    ascii "    return \"\"\"a\nb\"\"\"\n\n# end\ny = 2\n"

theorem indented_scope_extent_functionOverLines :
    (ascii "python" = ascii "python" ∨ ascii "python" = ascii "yaml") ∧
    let source : Source := ⟨functionOverLines⟩
    let lang := Language.ofTag (ascii "python")
    let x : Span := ⟨⟨2, 1⟩, ⟨9, 5⟩⟩
    (∃ d ∈ (scan [] (ascii "python") functionOverLines).directives, d.trailing = false ∧
      source.declarationScope? lang d.anchor = .ok (some x)) ∧
    ∃ h, (∀ k, source.Header lang (source.offsetAt x.start) 0 2 k ↔ k = h) ∧ h ≤ 9 ∧
      ∀ n, h < n → n ≤ 9 → isBlankLine (source.line n) = true ∨ source.IsComment lang n ∨
        source.Continues lang (source.offsetAt x.start) n ∨ 0 < indentWidth (source.line n) := by
  have hfound : ∃ d ∈ (scan [] (ascii "python") functionOverLines).directives, d.trailing = false ∧
      Source.declarationScope? ⟨functionOverLines⟩ (Language.ofTag (ascii "python")) d.anchor =
        .ok (some ⟨⟨2, 1⟩, ⟨9, 5⟩⟩) := by
    decide +kernel
  obtain ⟨d, hd, htrailing, hx⟩ := hfound
  refine ⟨Or.inl rfl, ⟨d, hd, htrailing, hx⟩, ?_⟩
  obtain ⟨h, last, hheader, hstop, hle, -, hwithin, -⟩ :=
    indented_scope_extent [] (Or.inl rfl) d hd htrailing _ hx
  obtain rfl : 9 = last := congrArg Position.line hstop
  have hbase : indentWidth (Source.line ⟨functionOverLines⟩ 2) = 0 := by decide +kernel
  rw [hbase] at hheader hwithin
  exact ⟨h, hheader, hle, hwithin⟩

end Scan

end TrustRegions
