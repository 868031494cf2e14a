import TrustRegions.Bytes

/-!
What is written while others write: texts go out in pieces, and the pieces of several writers can
come in any order that keeps those of each writer in theirs. Lines of the log tell the time.
-/

namespace TrustRegions

/-- What goes out in one go. A stamp stands for a part of the time at which it does. A field is as wide
as said at least, and is for the next piece that is not raw, whoever writes it. -/
inductive Piece where
  | text (s : Bytes)
  | raw (s : Bytes)
  | field (width : Nat)
  | stamp
deriving DecidableEq

structure LogLine where
  component : Bytes
  message : Bytes
deriving DecidableEq

def LogLine.pieces (l : LogLine) : List Piece :=
  [.text (ascii "["), .stamp, .text (ascii "."), .field 3, .stamp, .text (ascii "]["),
    .text l.component, .text (ascii "] "), .raw l.message, .text [newline]]

def logged (verbose : Bool) (lines : List LogLine) : List Piece :=
  if verbose then lines.flatMap LogLine.pieces else []

inductive Interleaves : List (List Piece) → List Piece → Prop
  | done {parts : List (List Piece)} (h : ∀ part ∈ parts, part = []) : Interleaves parts []
  | next {parts : List (List Piece)} {i : Nat} {p : Piece} {rest whole : List Piece}
      (hi : parts[i]? = some (p :: rest)) (h : Interleaves (parts.set i rest) whole) :
      Interleaves parts (p :: whole)

/-- What a run of the program depends on beside its arguments and the files: whether the environment
asks for a log, the time, and how the logs of workers come to be mixed. -/
structure Surroundings where
  verbose : Bool
  clock : Nat → Bytes
  mix : Nat → List (List Piece) → List Piece
  mix_interleaves : ∀ workers parts, Interleaves parts (mix workers parts)
  mix_one : ∀ parts, mix 1 parts = parts.flatten

def padZeros (width : Nat) (s : Bytes) : Bytes := List.replicate (width - s.length) (byte '0') ++ s

namespace Surroundings

def fill (s : Surroundings) (n width : Nat) : List Piece → Bytes
  | [] => []
  | .text t :: l => padZeros width t ++ s.fill n 0 l
  | .raw t :: l => t ++ s.fill n width l
  | .field w :: l => s.fill n w l
  | .stamp :: l => padZeros width (s.clock n) ++ s.fill (n + 1) 0 l

end Surroundings

namespace Interleaves

variable {parts : List (List Piece)} {whole : List Piece}

theorem cons_nil (h : Interleaves parts whole) : Interleaves ([] :: parts) whole := by
  induction h with
  | done h => exact .done (List.forall_mem_cons.mpr ⟨rfl, h⟩)
  | @next parts i p rest whole hi h ih =>
    refine .next (i := i + 1) ?_ ih
    rw [List.getElem?_cons_succ, hi]

theorem append {i : Nat} {l t : List Piece} (hi : parts[i]? = some (l ++ t))
    (h : Interleaves (parts.set i t) whole) : Interleaves parts (l ++ whole) := by
  induction l generalizing parts with
  | nil =>
    obtain ⟨hlt, rfl⟩ := List.getElem?_eq_some_iff.mp hi
    rw [List.set_getElem_self] at h
    exact h
  | cons p l ih =>
    refine .next hi (ih ?_ ?_)
    · exact List.getElem?_set_self (List.getElem?_eq_some_iff.mp hi).1
    · rw [List.set_set]
      exact h

theorem flatten (parts : List (List Piece)) : Interleaves parts parts.flatten := by
  induction parts with
  | nil => exact .done nofun
  | cons l parts ih =>
    refine append (i := 0) (t := []) ?_ ih.cons_nil
    rw [List.append_nil, List.getElem?_cons_zero]

end Interleaves

def Surroundings.still : Surroundings where
  verbose := false
  clock _ := []
  mix _ parts := parts.flatten
  mix_interleaves _ := .flatten
  mix_one _ := rfl

end TrustRegions
