import TrustRegions.Bytes

/-!
Byte strings of doubtful encoding, made fit to be passed on as UTF-8. A sequence counts as a
character if its first byte announces its length and continuation bytes follow in that number.
-/

namespace TrustRegions.Utf8

def announced? (lead : UInt8) : Option Nat :=
  if lead < 0x80 then some 1
  else if lead &&& 0xE0 = 0xC0 then some 2
  else if lead &&& 0xF0 = 0xE0 then some 3
  else if lead &&& 0xF8 = 0xF0 then some 4
  else none

def isContinuation (c : UInt8) : Bool := c &&& 0xC0 == 0x80

def following? (lead : UInt8) (rest : Bytes) : Option Nat :=
  ((announced? lead).map (· - 1)).filter fun n =>
    (rest.take n).length == n && (rest.take n).all isContinuation

def replacement : Bytes := [0xEF, 0xBF, 0xBD]

def repair : Bytes → Bytes
  | [] => []
  | c :: rest =>
    match following? c rest with
    | some n => c :: (rest.take n ++ repair (rest.drop n))
    | none => replacement ++ repair rest
termination_by s => s.length
decreasing_by all_goals simp only [List.length_cons, List.length_drop]; omega

end TrustRegions.Utf8
