import TrustRegions.Proofs.LoweredReading
import TrustRegions.Proofs.ScanPositions

/-! A content with empty lines put above it scans as it does without, so many lines further down. -/

namespace TrustRegions

namespace BraceWalk

variable {lang : Language}

lemma finish_later (k line : Nat) (w : BraceWalk) (o : Nat) (l : List (UInt8 × Layer)) :
    finish lang (line + k) (w.carried (k + ·)) (k + o) l =
      ((finish lang line w o l).map (k + ·)).mapError (ScopeFault.down k) := by
  induction l generalizing w o with
  | nil =>
    rw [finish, finish]
    change (if 0 < w.braces then _ else if 0 < w.parens then _ else _) = _
    split_ifs <;> rfl
  | cons b l ih =>
    rw [finish_cons, finish_cons, next_carried (f := (k + ·)) rfl]
    cases w.next lang o b l with
    | error stop => rfl
    | ok w' => exact ih w' (o + 1)

end BraceWalk

lemma Language.bracedEnd_later (lang : Language) (k line o : Nat) (l : List (UInt8 × Layer)) :
    lang.bracedEnd (line + k) (k + o) l =
      ((lang.bracedEnd line o l).map (k + ·)).mapError (ScopeFault.down k) :=
  BraceWalk.finish_later k line { decorated := _, codeEnd := o } o l

def Row.down (k : Nat) (r : Row) : Row := { r with number := r.number + k }

section Offside

variable {lang : Language} {s : Source} {layers : List (UInt8 × Layer)} {k : Nat}

lemma rowsAfter_lowered (s : Source) (k line : Nat) (layers : List (UInt8 × Layer)) :
    (s.lowered k).rowsAfter (line + k) layers = (s.rowsAfter line layers).map (Row.down k) := by
  rw [Source.rowsAfter, Source.rowsAfter, Source.drop_rawLines_lowered, Nat.add_right_comm,
    Nat.add_comm (line + 1) k, ← List.map_snd_add_zipIdx_eq_zipIdx, List.map_map, List.map_map]
  rfl

lemma headerEnd_down (lang : Language) (base number : Nat) (below rows : List Row) :
    headerEnd lang base (number + k) (below.map (Row.down k)) (rows.map (Row.down k)) =
      ((headerEnd lang base number below rows).1 + k,
        (headerEnd lang base number below rows).2.map (Row.down k)) := by
  induction rows generalizing number below with
  | nil => rfl
  | cons r rows ih =>
    have hopens : (r.down k).opensStatement lang = r.opensStatement lang := rfl
    have htext : (r.down k).text = r.text := rfl
    rw [List.map_cons, headerEnd, headerEnd, hopens, htext, ih]
    split_ifs
    · rfl
    · rfl
    · exact ih r.number rows
    · rfl

lemma offsideBlock_down (lang : Language) (base lastLine : Nat) (hasBody : Bool) (rows : List Row) :
    offsideBlock lang base (lastLine + k) hasBody (rows.map (Row.down k)) =
      { offsideBlock lang base lastLine hasBody rows with
        lastLine := (offsideBlock lang base lastLine hasBody rows).lastLine + k } := by
  induction rows generalizing lastLine hasBody with
  | nil => rfl
  | cons r rows ih =>
    have hopens : (r.down k).opensStatement lang = r.opensStatement lang := rfl
    have hcode : (r.down k).code = r.code := rfl
    have htext : (r.down k).text = r.text := rfl
    have hstart : (r.down k).start = r.start := rfl
    have hnumber : (r.down k).number = r.number + k := rfl
    rw [List.map_cons, offsideBlock, offsideBlock, hopens, htext, hstart, hnumber, hcode]
    simp only [ih]
    split_ifs <;> rfl

lemma offsideEnd_lowered (s : Source) (k line : Nat) (layers : List (UInt8 × Layer)) :
    (s.lowered k).offsideEnd lang (line + k) layers =
      ((s.offsideEnd lang line layers).map (· + k)).mapError (ScopeFault.down k) := by
  have hheader (base : Nat) (rows : List Row) :
      (if isDecorated (s.line line) then
          headerEnd lang base (line + k) (rows.map (Row.down k)) (rows.map (Row.down k))
        else (line + k, rows.map (Row.down k))) =
      Prod.map (· + k) (List.map (Row.down k))
        (if isDecorated (s.line line) then headerEnd lang base line rows rows else (line, rows)) := by
    split
    · exact headerEnd_down lang base line rows rows
    · rfl
  rw [Source.offsideEnd, Source.offsideEnd, rowsAfter_lowered, Source.line_lowered]
  dsimp only
  rw [hheader]
  generalize (if isDecorated (s.line line) then _ else _ : Nat × List Row) = p
  simp only [Prod.map, offsideBlock_down]
  split_ifs <;> rfl

end Offside

namespace Source

variable {lang : Language} {s : Source} {k o : Nat} {d : Directive} {all : List Directive}

lemma ownLineScope_lowered (s : Source) (k : Nat) (t : Span) :
    (s.lowered k).ownLineScope (t.down k) = (s.ownLineScope t).down k := by
  simp only [ownLineScope, firstCodeColumn, Span.start_down, Span.stop_down, Position.line_down,
    line_lowered, endOfLine_lowered]
  rfl

lemma trailingScope_lowered (s : Source) (k : Nat) (t : Span) :
    (s.lowered k).trailingScope lang (t.down k) = (s.trailingScope lang t).down k := by
  simp only [trailingScope, firstCodeColumn, Span.start_down, Span.stop_down, Position.line_down,
    Position.column_down, line_lowered, endOfLine_lowered]
  rfl

lemma declarationScope?_lowered (ho : o ≤ s.content.length) :
    (s.lowered k).declarationScope? lang ((s.positionAt o).down k) =
      ((s.declarationScope? lang (s.positionAt o)).map (Option.map (Span.down k))).mapError
        (ScopeFault.down k) := by
  simp only [declarationScope?, offsetAt_lowered ho, offsetAt_positionAt ho, content_lowered,
    Language.layers_lowered]
  split
  · rfl
  cases (lang.layers s.content o).dropWhile isLeading with
  | nil => rfl
  | cons b rest =>
    obtain ⟨c, layer⟩ := b
    dsimp only
    rw [Nat.add_assoc, positionAt_lowered, Position.line_down]
    split
    · split
      · rfl
      · rw [Language.bracedEnd_later]
        cases lang.bracedEnd _ _ ((c, layer) :: rest) with
        | error fault => rfl
        | ok stop =>
          simp only [Except.map, Except.mapError, positionAt_lowered]
          rfl
    · rw [offsideEnd_lowered]
      cases s.offsideEnd lang _ ((c, layer) :: rest) with
      | error fault => rfl
      | ok line =>
        simp only [Except.map, Except.mapError, endOfLine_lowered]
        rfl

end Source

def Placement.down (k : Nat) (p : Placement) : Placement :=
  { p with directive := p.directive.down k, scope := p.scope.down k }

def Reference.down (k : Nat) (f : Reference) : Reference := { f with start := f.start.down k }

def Region.down (k : Nat) (r : Region) : Region :=
  { r with scope := r.scope.down k, provenance := r.provenance.map (Reference.down k) }

def Scan.down (k : Nat) (s : Scan) : Scan :=
  { s with
    directives := s.directives.map (Directive.down k)
    regions := s.regions.map (Region.down k)
    diagnostics := s.diagnostics.map (Diagnostic.down k) }

namespace Source

variable {lang : Language} {s : Source} {k : Nat} {d : Directive} {all : List Directive}

lemma find?_down (all : List Directive) (ordinal : Nat) :
    ((all.map (Directive.down k)).find? fun e => e.ordinal == ordinal) =
      (all.find? fun e => e.ordinal == ordinal).map (Directive.down k) := List.find?_map ..

lemma place?_lowered (hd : s.Has d.anchor) (all : List Directive) :
    (s.lowered k).place? lang (all.map (Directive.down k)) (d.down k) =
      (s.place? lang all d).map (Prod.map (Placement.down k) (List.map (Diagnostic.down k))) := by
  obtain ⟨o, ho, hanchor⟩ := has_iff.mp hd
  have hscope : (s.lowered k).declarationScope? lang (d.anchor.down k) =
      ((s.declarationScope? lang d.anchor).map (Option.map (Span.down k))).mapError (ScopeFault.down k) :=
    hanchor ▸ declarationScope?_lowered ho
  obtain ⟨ordinal, form, attributes, source, anchor, trailing, partner⟩ := d
  rw [place?, place?]
  dsimp only [Directive.down] at hscope ⊢
  cases form with
  | blockEnd => rfl
  | blockBegin =>
    simp only [find?_down]
    cases partner with
    | none => rfl
    | some ordinal =>
      dsimp only [Option.bind_some]
      cases all.find? fun e => e.ordinal == ordinal <;> rfl
  | single | merged =>
    dsimp only
    rw [hscope, trailingScope_lowered, ownLineScope_lowered]
    cases trailing with
    | true => rfl
    | false =>
      cases s.declarationScope? lang anchor with
      | error fault =>
        simp only [Except.map, Except.mapError, fallback, ownLineScope_lowered, line_lowered,
          Span.start_down, Position.line_down]
        rfl
      | ok scope => cases scope <;> rfl

lemma directives_lowered (hl : lang.Legible) (s : Source) (k : Nat) :
    (s.lowered k).directives lang = ((s.directives lang).1.map (Directive.down k),
      (s.directives lang).2.map (Diagnostic.down k)) := by
  have hend := s.positionAt_lowered k s.content.length
  rw [← Bytes.length_lowered] at hend
  refine Directive.ofComments_lowers (s.line_lowered k) hend ?_
  rw [comments_lowered hl, List.forall₂_map_right_iff, List.forall₂_same]
  exact fun c _ => Comment.lowers_down k c

lemma placed_lowered (hl : lang.Legible) (s : Source) (k : Nat) :
    ((s.lowered k).directives lang).1.filterMap
        ((s.lowered k).place? lang ((s.lowered k).directives lang).1) =
      ((s.directives lang).1.filterMap (s.place? lang (s.directives lang).1)).map
        (Prod.map (Placement.down k) (List.map (Diagnostic.down k))) := by
  rw [directives_lowered hl, List.filterMap_map, List.map_filterMap]
  exact List.filterMap_congr fun d hd =>
    place?_lowered (stands_of_mem_directives hl hd).2 (s.directives lang).1

end Source

namespace Placement

variable {k : Nat} {a b : Placement} {l : List Placement}

lemma before_down : (a.down k).Before (b.down k) ↔ a.Before b := by
  have hrank (a : Placement) : (a.down k).rank = a.rank := rfl
  have hordinal (a : Placement) : (a.down k).directive.ordinal = a.directive.ordinal := rfl
  have hscope (a : Placement) : (a.down k).scope = a.scope.down k := rfl
  simp only [Before, hrank, hordinal, hscope, Span.start_down, Span.stop_down, Position.down_lt_down,
    Position.down_inj]

lemma ordered_down (k : Nat) (l : List Placement) :
    ordered (l.map (down k)) = (ordered l).map (down k) := by
  have hempty (a : Placement) : (a.down k).scope.Empty ↔ a.scope.Empty := by
    simp [Span.Empty, down]
  have hfilter : ((l.map (down k)).filter fun a => !decide a.scope.Empty) =
      (l.filter fun a => !decide a.scope.Empty).map (down k) := by
    simp only [List.filter_map, Function.comp_def, hempty]
  rw [ordered, ordered, hfilter]
  refine (List.map_mergeSort fun a _ b _ => ?_).symm
  simp only [before_down]

lemma crossings_down (k : Nat) (l : List Placement) :
    crossings (l.map (down k)) = (crossings l).map (Prod.map (down k) (down k)) := by
  induction l with
  | nil => rfl
  | cons a l ih =>
    have hscope (a : Placement) : (a.down k).scope = a.scope.down k := rfl
    simp only [List.map_cons, crossings, ih, List.takeWhile_map, List.filter_map, List.map_append,
      List.map_map, Function.comp_def, hscope, Span.Covers, Span.start_down, Span.stop_down,
      Position.down_lt_down, Position.down_le_down, Prod.map]

lemma down_injective (k : Nat) : Function.Injective (down k) := by
  rintro ⟨⟨_, _, _, _, _, _, _⟩, _, _⟩ ⟨⟨_, _, _, _, _, _, _⟩, _, _⟩ h
  simpa [down, Directive.down] using h

lemma nestable_down (k : Nat) (l : List Placement) :
    nestable (l.map (down k)) = (nestable l).map (down k) := by
  have hrefused : ((crossings (l.map (down k))).flatMap fun p => [p.1, p.2]) =
      ((crossings l).flatMap fun p => [p.1, p.2]).map (down k) := by
    rw [crossings_down, List.flatMap_map, List.map_flatMap]
    rfl
  rw [nestable, nestable, hrefused, List.filter_map]
  simp only [Function.comp_def, List.mem_map_of_injective (down_injective k)]

lemma region_down (k : Nat) (p : Placement) (parent : Option (Nat × Region)) :
    (p.down k).region (parent.map (Prod.map id (Region.down k))) = (p.region parent).down k := by
  cases parent with
  | none => rfl
  | some q => simp [region, Region.down, down, Directive.reference, Directive.down, Reference.down]

lemma regionsFrom_down (k next : Nat) (around : List (Nat × Region)) (l : List Placement) :
    regionsFrom next (around.map (Prod.map id (Region.down k))) (l.map (down k)) =
      (regionsFrom next around l).map (Region.down k) := by
  induction l generalizing next around with
  | nil => rfl
  | cons p l ih =>
    have hcovers (r : Region) : (r.down k).scope.Covers (p.down k).scope ↔ r.scope.Covers p.scope := by
      simp only [Span.Covers, Region.down, down, Span.start_down, Span.stop_down, Position.down_le_down]
    have haround : (around.map (Prod.map id (Region.down k))).dropWhile
          (fun r => !decide (r.2.scope.Covers (p.down k).scope)) =
        (around.dropWhile fun r => !decide (r.2.scope.Covers p.scope)).map
          (Prod.map id (Region.down k)) := by
      simp only [List.dropWhile_map, Function.comp_def, Prod.map, hcovers]
    rw [List.map_cons, regionsFrom, regionsFrom, haround, List.head?_map, region_down]
    generalize (around.dropWhile fun r => !decide (r.2.scope.Covers p.scope)) = outer
    rw [List.map_cons, ← ih]
    rfl

end Placement

lemma Region.resolve_down (k : Nat) (l : List Placement) :
    resolve (l.map (Placement.down k)) =
      ((resolve l).1.map (Region.down k), (resolve l).2.map (Diagnostic.down k)) := by
  have hregions := Placement.regionsFrom_down k 0 [] (Placement.nestable (Placement.ordered l))
  rw [resolve, resolve, Placement.ordered_down, resolveOrdered, resolveOrdered,
    Placement.nestable_down, Placement.crossings_down]
  rw [List.map_nil] at hregions
  rw [hregions, List.map_map, List.map_map]
  rfl

namespace Scan

/-- A content with empty lines above it scans as it does without, so many lines further down, in all that
a scan gives, the lines that its messages quote included. -/
theorem scan_lowered {tag : Bytes} (h : (Language.find? tag).isSome) (path content : Bytes) (k : Nat) :
    scan path tag (List.replicate k newline ++ content) = (scan path tag content).down k := by
  have hl := Language.legible_ofTag tag
  have hlowered : (⟨List.replicate k newline ++ content⟩ : Source) = Source.lowered k ⟨content⟩ := rfl
  have hunknown (content : Bytes) : unknownLanguageDiagnostics tag content = [] :=
    if_neg fun hnone => by simp [Option.isNone_iff_eq_none.mp hnone.1] at h
  have hplaced := Source.placed_lowered hl ⟨content⟩ k
  have hdirectives := Source.directives_lowered hl ⟨content⟩ k
  simp only [hdirectives] at hplaced
  simp only [scan, hlowered, hdirectives, hplaced, hunknown, down]
  generalize List.filterMap (Source.place? ⟨content⟩ (Language.ofTag tag)
    (Source.directives ⟨content⟩ (Language.ofTag tag)).1) _ = placed
  have hscopes : (placed.map (Prod.map (Placement.down k) (List.map (Diagnostic.down k)))).map (·.1) =
      (placed.map (·.1)).map (Placement.down k) := by
    rw [List.map_map, List.map_map]
    rfl
  have hreports : (placed.map
        (Prod.map (Placement.down k) (List.map (Diagnostic.down k)))).flatMap (·.2) =
      (placed.flatMap (·.2)).map (Diagnostic.down k) := by
    rw [List.flatMap_map, List.map_flatMap]
    rfl
  rw [hscopes, hreports, Region.resolve_down]
  dsimp only
  rw [Scan.mk.injEq]
  refine ⟨rfl, rfl, rfl, rfl, ?_⟩
  rw [List.nil_append, List.nil_append, ← List.map_append, ← List.map_append]
  refine (List.map_mergeSort fun a _ b _ => ?_).symm
  simp only [Diagnostic.down, Position.down_le_down]

def annotatedFunction : Bytes :=
  ascii "// @collab trust=READ_ONLY\nvoid f() \x7b\n\x7d\n"

theorem scan_lowered_annotatedFunction :
    (Language.find? (ascii "cpp")).isSome ∧
    scan [] (ascii "cpp") (List.replicate 3 newline ++ annotatedFunction) =
      (scan [] (ascii "cpp") annotatedFunction).down 3 ∧
    (scan [] (ascii "cpp") annotatedFunction).regions.map (·.scope) =
      [⟨⟨2, 1⟩, ⟨3, 2⟩⟩] :=
  have h : (Language.find? (ascii "cpp")).isSome := by decide +kernel
  ⟨h, scan_lowered h [] annotatedFunction 3, by decide +kernel⟩

end Scan

end TrustRegions
