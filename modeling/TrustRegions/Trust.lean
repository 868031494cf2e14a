import TrustRegions.Attribute

/-!
Trust levels: how far an assistant may go with a piece of code.
-/

namespace TrustRegions

inductive Trust where
  | readOnly
  | suggestOnly
  | supervised
  | autonomous
deriving DecidableEq, Repr

namespace Trust

def tag : Trust → Bytes
  | readOnly => ascii "READ_ONLY"
  | suggestOnly => ascii "SUGGEST_ONLY"
  | supervised => ascii "SUPERVISED"
  | autonomous => ascii "AUTONOMOUS"

def all : List Trust := [readOnly, suggestOnly, supervised, autonomous]

def ofTag? (s : Bytes) : Option Trust := all.find? fun t => t.tag == s

theorem ofTag?_tag (t : Trust) : ofTag? t.tag = some t := by cases t <;> decide

theorem tag_of_ofTag? {s : Bytes} {t : Trust} (h : ofTag? s = some t) : t.tag = s := by
  simpa using List.find?_some h

def guidance : Trust → Bytes
  | autonomous => ascii "You may edit this region freely."
  | suggestOnly => ascii "Propose the change instead of editing directly."
  | readOnly => ascii <|
      "Do not modify this region. Explain why changes are needed and ask a human to make them."
  | supervised => ascii <|
      "Proceed with caution. Consider proposing significant changes for review."

end Trust

def Attributes.trust? (a : Attributes) : Option Trust :=
  match a.get? (ascii "trust") with
  | some (.scalar s) => Trust.ofTag? s
  | _ => none

end TrustRegions
