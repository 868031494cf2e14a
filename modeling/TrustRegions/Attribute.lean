import TrustRegions.KeyedMap

/-!
Attributes: what a directive says about the code that it governs, as values by key.
-/

namespace TrustRegions

inductive Attribute.Value where
  | scalar (text : Bytes)
  | list (items : List Bytes)
deriving DecidableEq, Repr

abbrev Attributes := KeyedMap Attribute.Value

namespace Attribute.Value

def separator : Bytes := ascii ", "

def addItem (text item : Bytes) : Bytes :=
  if text.isEmpty then item else text ++ separator ++ item

def joined (items : List Bytes) : Bytes := items.foldl addItem []

def text : Value → Bytes
  | scalar s => s
  | list items => joined items

end Attribute.Value

namespace Attributes

def text? (a : Attributes) (key : Bytes) : Option Bytes := (a.get? key).map (·.text)

def owner? (a : Attributes) : Option Bytes := a.text? (ascii "owner")

def intent? (a : Attributes) : Option Bytes := a.text? (ascii "intent")

def constraints (a : Attributes) : List Bytes :=
  match a.get? (ascii "constraints") with
  | none => []
  | some (.scalar s) => [s]
  | some (.list items) => items

end Attributes

end TrustRegions
