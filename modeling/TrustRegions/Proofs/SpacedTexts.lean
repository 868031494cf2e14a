import TrustRegions.Proofs.AttributeFaults
import TrustRegions.Proofs.Runs

/-! Texts one behind the other, with blanks in between: the attributes of all of them are those of each,
the later over the earlier. So a run of comments states what one comment with all their texts does. -/

namespace TrustRegions

open Bytes

namespace Bytes

def spaced (l : List (Bytes × Bytes)) : Bytes := l.flatMap fun e => e.1 ++ e.2

def Apart {α : Type} (l : List (Bytes × α)) : Prop :=
  (∀ e ∈ l, Blank e.1) ∧ ∀ e ∈ l.tail, e.1 ≠ []

variable {α β : Type} {c : UInt8} {s : Bytes} {e : Bytes × Bytes} {l : List (Bytes × Bytes)}

lemma Apart.tail (h : Apart (e :: l)) : Apart l :=
  ⟨fun x hx => h.1 x (List.mem_cons_of_mem e hx), fun x hx => h.2 x (List.mem_of_mem_tail hx)⟩

lemma Apart.map {l : List (Bytes × α)} (h : Apart l) (f : α → β) :
    Apart (l.map fun e => (e.1, f e.2)) := by
  constructor
  · intro x hx
    obtain ⟨e, he, rfl⟩ := List.mem_map.mp hx
    exact h.1 e he
  · intro x hx
    rw [← List.map_tail] at hx
    obtain ⟨e, he, rfl⟩ := List.mem_map.mp hx
    exact h.2 e he

lemma Apart.head?_spaced (h : Apart (e :: l)) : ∀ c ∈ (spaced l).head?, isBlank c = true := by
  cases l with
  | nil => simp [spaced]
  | cons x l =>
    have hx : x ∈ x :: l := List.mem_cons_self
    rw [spaced, List.flatMap_cons, List.append_assoc]
    exact Attribute.head?_append_blank (h.1 x (List.mem_cons_of_mem e hx)) (h.2 x hx) _

lemma mem_dropWhile {p : UInt8 → Bool} (hc : c ∈ s) (hp : p c = false) : c ∈ s.dropWhile p := by
  rw [← List.takeWhile_append_dropWhile (p := p) (l := s)] at hc
  refine (List.mem_append.mp hc).resolve_left fun htake => ?_
  rw [of_mem_takeWhile p s c htake] at hp
  cases hp

lemma mem_trim (hc : c ∈ s) (hb : isBlank c = false) : c ∈ trim s :=
  List.mem_reverse.mpr (mem_dropWhile (List.mem_reverse.mpr (mem_dropWhile hc hb)) hb)

end Bytes

lemma KeyedMap.ofList_append {β : Type} (es es' : List (Bytes × β)) :
    ofList (es ++ es') = (ofList es).overlay (ofList es') := by
  refine eq_of_get? fun k => ?_
  rw [get?_overlay, get?_ofList, get?_ofList, get?_ofList, List.reverse_append, List.lookup_append]

lemma KeyedMap.ofList_flatten {β : Type} (ess : List (List (Bytes × β))) :
    ofList ess.flatten = (ess.map ofList).foldl overlay ∅ := by
  induction ess using List.reverseRecOn with
  | nil => rfl
  | append_singleton ess es ih =>
    rw [List.flatten_append, List.flatten_singleton, ofList_append, ih, List.map_append,
      List.foldl_append]
    rfl

open Attribute

namespace Attributes

variable {s t b : Bytes} {a a' : Attributes} {ps : List (Bytes × Value)} {r : Rejection}
  {l : List (Bytes × Bytes)}

lemma read_of_readPairs (h : readPairs s = .ok ps) : read s = .ok (.ofList ps) := by
  rw [read, h]

lemma exists_text_of_read (h : read s = .ok a) : ∃ ps, Text s ps ∧ a = .ofList ps := by
  rw [read] at h
  split at h
  · cases h
  · next ps hps => exact ⟨ps, text_of_readPairs hps, (Except.ok.inj h).symm⟩

lemma readPairs_append_blank (h : Text s ps) (hb : Blank b) (hne : b ≠ []) (t : Bytes) :
    readPairs (s ++ b ++ t) = (readPairs t).map (ps ++ ·) := by
  rw [List.append_assoc, h.readPairs_append (head?_append_blank hb hne t), readPairs_blank_append hb]

lemma read_append (h : read s = .ok a) (h' : read t = .ok a') (hb : Blank b) (hne : b ≠ []) :
    read (s ++ b ++ t) = .ok (a.overlay a') := by
  obtain ⟨ps, hs, rfl⟩ := exists_text_of_read h
  obtain ⟨ps', ht, rfl⟩ := exists_text_of_read h'
  have happend := readPairs_append_blank hs hb hne t
  rw [readPairs_of_text ht] at happend
  rw [read_of_readPairs happend, KeyedMap.ofList_append]

lemma read_append_rejected (h : read s = .ok a) (hr : read t = .error r) (hb : Blank b)
    (hne : b ≠ []) : read (s ++ b ++ t) = .error ⟨r.fault, s.length + b.length + r.offset⟩ := by
  obtain ⟨ps, hs, rfl⟩ := exists_text_of_read h
  have happend := readPairs_append_blank hs hb hne t
  rw [read] at hr
  split at hr
  · next e he =>
    obtain rfl := Except.error.inj hr
    have hle := (within_of_readPairs he).1.length_le
    rw [he] at happend
    rw [read, happend]
    simp only [Except.map, List.length_append, Except.error.injEq, Rejection.mk.injEq, true_and]
    omega
  · cases hr

lemma readPairs_spaced {pss : List (List (Bytes × Value))}
    (h : List.Forall₂ (fun e ps => Text e.2 ps) l pss) (hl : Apart l) :
    readPairs (spaced l) = .ok pss.flatten := by
  induction h with
  | nil => exact readPairs_blank blank_nil
  | @cons e ps l pss he _ ih =>
    have hsplit : spaced (e :: l) = e.1 ++ (e.2 ++ spaced l) := by simp [spaced]
    rw [hsplit, readPairs_blank_append (hl.1 e List.mem_cons_self),
      he.readPairs_append hl.head?_spaced, ih hl.tail]
    rfl

lemma read_spaced {as : List Attributes} (h : List.Forall₂ (fun e a => read e.2 = .ok a) l as)
    (hl : Apart l) : read (spaced l) = .ok (as.foldl KeyedMap.overlay ∅) := by
  obtain ⟨pss, hpss, rfl⟩ : ∃ pss, List.Forall₂ (fun e ps => Text e.2 ps) l pss ∧
      as = pss.map KeyedMap.ofList := by
    clear hl
    induction h with
    | nil => exact ⟨[], .nil, rfl⟩
    | cons ha _ ih =>
      obtain ⟨ps, hps, rfl⟩ := exists_text_of_read ha
      obtain ⟨pss, hpss, rfl⟩ := ih
      exact ⟨ps :: pss, .cons hps hpss, rfl⟩
  rw [read_of_readPairs (readPairs_spaced hpss hl), KeyedMap.ofList_flatten]

lemma Text.isAttributeLike (h : Text s ps) : Marker.isAttributeLike s = true := by
  cases h with
  | blank hb => simp [Marker.isAttributeLike, trim_blank hb]
  | @pairs b w b' ps _ h _ =>
    have hequals : byte '=' ∈ w := by
      cases h with
      | single h => obtain ⟨-, -, -, -⟩ := h; simp
      | cons h => obtain ⟨-, -, -, -⟩ := h; simp
    have hmem : byte '=' ∈ trim (b ++ (w ++ b')) := mem_trim (by simp [hequals]) (by decide)
    have hany : (trim (b ++ (w ++ b'))).any
        (fun c => c == byte '=' || isQuote c || c == byte '[') = true :=
      List.any_eq_true.mpr ⟨_, hmem, by simp⟩
    simp [Marker.isAttributeLike, hany]

end Attributes

namespace Comment

variable {c : Comment} {t : Bytes} {a : Attributes} {run : List Comment}

lemma exists_text_of_attributes? (h : c.attributes? = some a) :
    ∃ t, Marker.ofComment c = .single t ∧ Attributes.read t = .ok a := by
  rw [attributes?, role] at h
  cases hm : Marker.ofComment c with
  | single t =>
    simp only [hm] at h
    split at h
    · next hrole =>
      split at hrole
      · cases hread : Attributes.read t with
        | error r =>
          rw [hread] at hrole
          cases hrole
        | ok a' =>
          rw [hread] at hrole
          obtain rfl := Role.single.inj hrole
          exact ⟨t, rfl, hread.trans (congrArg Except.ok (Option.some.inj h))⟩
      · cases hrole
    · cases h
  | _ => simp [hm] at h

lemma exists_texts (h : isRun run) :
    ∃ texts, List.Forall₂ (fun c t => Marker.ofComment c = .single t) run texts ∧
      List.Forall₂ (fun t a => Attributes.read t = .ok a) texts (run.filterMap attributes?) := by
  induction run with
  | nil => exact ⟨[], .nil, .nil⟩
  | cons c run ih =>
    obtain ⟨hc, hrun⟩ := Bool.and_eq_true_iff.mp ((List.all_cons ..).symm.trans h)
    obtain ⟨texts, hmarkers, hreads⟩ := ih hrun
    obtain ⟨a, ha⟩ := Option.isSome_iff_exists.mp hc
    obtain ⟨t, hmarker, hread⟩ := exists_text_of_attributes? ha
    exact ⟨t :: texts, .cons hmarker hmarkers, by simpa [ha] using ⟨hread, hreads⟩⟩

end Comment

namespace Directive

lemma ofComments_single {c : Comment} {t : Bytes} {a : Attributes} (s : Source)
    (hc : Marker.ofComment c = .single t) (ht : Attributes.read t = .ok a) :
    (ofComments s [c]).1.map (·.attributes) = [a] := by
  obtain ⟨_, htext, -⟩ := Attributes.exists_text_of_read ht
  simp [ofComments, DirectiveReader.read, hc, htext.isAttributeLike, DirectiveReader.readSingle, ht,
    DirectiveReader.endRun, DirectiveReader.directive, DirectiveReader.isReliable,
    DirectiveForm.isBlock]

def StatesAll (texts : List Bytes) (d : Directive) : Prop :=
  ∀ l : List (Bytes × Bytes), l.map (·.2) = texts → Apart l →
    Attributes.read (spaced l) = .ok d.attributes ∧
    ∀ (s : Source) (c : Comment), Marker.ofComment c = .single (spaced l) →
      (ofComments s [c]).1.map (·.attributes) = [d.attributes]

lemma statesAll_of_carries {run : List Comment} {d : Directive} (h : d.Carries run)
    (hrun : Comment.isRun run) :
    ∃ texts, List.Forall₂ (fun c t => Marker.ofComment c = .single t) run texts ∧
      d.StatesAll texts := by
  obtain ⟨texts, hmarkers, hreads⟩ := Comment.exists_texts hrun
  refine ⟨texts, hmarkers, fun l hl hapart => ?_⟩
  rw [← hl, List.forall₂_map_left_iff] at hreads
  have hread : Attributes.read (spaced l) = .ok d.attributes :=
    (Attributes.read_spaced hreads hapart).trans (congrArg Except.ok h.attributes_eq.symm)
  exact ⟨hread, fun s c hc => ofComments_single s hc hread⟩

end Directive

namespace Attributes

/-- Two texts that state attributes state, one behind the other, those of the second over those of the
first, and the fault of the second stays where it is. So the directive of several comments has the
attributes of one comment with all their texts. -/
theorem read_spaced_texts :
    (∀ t₁ t₂ b a₁, read t₁ = .ok a₁ → Blank b → b ≠ [] →
      (∀ a₂, read t₂ = .ok a₂ → read (t₁ ++ b ++ t₂) = .ok (a₁.overlay a₂)) ∧
      (∀ r, read t₂ = .error r →
        read (t₁ ++ b ++ t₂) = .error ⟨r.fault, t₁.length + b.length + r.offset⟩)) ∧
    (∀ tag content : Bytes,
      let source : Source := ⟨content⟩
      let lang := Language.ofTag tag
      List.Forall₂ (fun run d => d.Carries run ∧
          ∃ texts, List.Forall₂ (fun c t => Marker.ofComment c = .single t) run texts ∧
            d.StatesAll texts)
        (Comment.runs source (source.comments lang))
        (Directive.unblocked (source.directives lang).1)) := by
  refine ⟨fun t₁ t₂ b a₁ h hb hne => ⟨fun a₂ h' => read_append h h' hb hne,
    fun r hr => read_append_rejected h hr hb hne⟩, ?_⟩
  intro tag content source lang
  have hruns : ∀ run ∈ Comment.runs source (source.comments lang), Comment.isRun run :=
    fun run hrun => (List.mem_filter.mp hrun).2
  have hcarries := (List.forall₂_and_left _ _).mpr ⟨hruns, source.carries_directives lang⟩
  exact hcarries.imp fun run d h => ⟨h.2, Directive.statesAll_of_carries h.2 h.1⟩

theorem read_spaced_texts_openList :
    let t₁ := ascii "owner=a intent=b\\"
    let t₂ := ascii "owner=\"]\" constraints=[x, 'y\\'z']"
    let t₃ := ascii "owner=c constraints=[x,"
    let b := ascii "\t\n"
    ∃ a₁ a₂ r, read t₁ = .ok a₁ ∧ Blank b ∧ b ≠ [] ∧ read t₂ = .ok a₂ ∧
      read (t₁ ++ b ++ t₂) = .ok (a₁.overlay a₂) ∧ read t₃ = .error r ∧ r.offset = 20 ∧
      read (t₁ ++ b ++ t₃) = .error ⟨.openList (ascii "constraints"), 17 + 2 + 20⟩ := by
  intro t₁ t₂ t₃ b
  have hb : Blank (ascii "\t\n") := by
    rw [Blank]
    decide +kernel
  have h₁ : read t₁ = .ok (.ofList [(ascii "owner", .scalar (ascii "a")),
      (ascii "intent", .scalar (ascii "b\\"))]) := by decide +kernel
  have h₂ : read t₂ = .ok (.ofList [(ascii "owner", .scalar (ascii "]")),
      (ascii "constraints", .list [ascii "x", ascii "y'z"])]) := by decide +kernel
  have h₃ : read t₃ = .error ⟨.openList (ascii "constraints"), 20⟩ := by decide +kernel
  have hjoined := read_spaced_texts.1 t₁
  exact ⟨_, _, _, h₁, hb, by decide, h₂, (hjoined t₂ b _ h₁ hb (by decide)).1 _ h₂, h₃, rfl,
    (hjoined t₃ b _ h₁ hb (by decide)).2 _ h₃⟩

end Attributes

end TrustRegions
