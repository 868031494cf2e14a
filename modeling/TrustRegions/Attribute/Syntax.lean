import TrustRegions.Attribute

/-!
How attributes are written: pairs of a key and a value, with an equals sign between them and blanks
around. A value is quoted, a list in brackets, or a bare run of bytes up to the next blank. Readers
return what they read and the text that is left.
-/

namespace TrustRegions.Attribute

inductive Fault where
  | notAName (found : UInt8)
  | missingEquals (key : Bytes)
  | missingValue (key : Bytes)
  | openQuote (key : Bytes)
  | openListQuote (key : Bytes)
  | missingSeparator (key : Bytes)
  | openList (key : Bytes)
  | trailingText (found : UInt8) (key : Bytes)
deriving DecidableEq, Repr

def quoted (s : Bytes) : Bytes := ascii "'" ++ s ++ ascii "'"

def Fault.message : Fault → Bytes
  | notAName c => ascii "expected attribute name, found " ++ quoted [c]
  | missingEquals key => ascii "missing '=' after " ++ quoted key
  | missingValue key => ascii "missing value for " ++ quoted key
  | openQuote key => ascii "unterminated quote in value of " ++ quoted key
  | openListQuote key => ascii "unterminated quote in list " ++ quoted key
  | missingSeparator key => ascii "expected ',' or ']' in list " ++ quoted key
  | openList key => ascii "unterminated list in value of " ++ quoted key
  | trailingText c key => ascii "unexpected " ++ quoted [c] ++ ascii " after value of " ++ quoted key

structure Halt where
  fault : Fault
  rest : Bytes
deriving DecidableEq, Repr

abbrev Reading (α : Type) := Except Halt (α × Bytes)

def isNameStart (c : UInt8) : Bool := isLetter c || c == byte '_'

def isNameByte (c : UInt8) : Bool := isAlphanumeric c || c == byte '_' || c == byte '-'

def isQuote (c : UInt8) : Bool := c == doubleQuote || c == apostrophe

def readQuoted (quote : UInt8) : Bytes → Option (Bytes × Bytes)
  | [] => none
  | c :: rest =>
    if c = backslash then
      match rest with
      | [] => none
      | d :: rest => (readQuoted quote rest).map fun r => (d :: r.1, r.2)
    else if c = quote then some ([], rest)
    else (readQuoted quote rest).map fun r => (c :: r.1, r.2)

theorem length_of_readQuoted {quote : UInt8} {s : Bytes} {r : Bytes × Bytes}
    (h : readQuoted quote s = some r) : r.2.length < s.length := by
  fun_induction readQuoted quote s generalizing r with
  | case1 => simp at h
  | case2 => simp at h
  | case3 d rest ih =>
    obtain ⟨u, hu, rfl⟩ := Option.map_eq_some_iff.mp h
    have := ih hu
    simp only [List.length_cons]
    omega
  | case4 rest => cases h; simp
  | case5 c rest _ _ ih =>
    obtain ⟨u, hu, rfl⟩ := Option.map_eq_some_iff.mp h
    have := ih hu
    simp only [List.length_cons]
    omega

def isBareItemByte (c : UInt8) : Bool := c != byte ',' && c != byte ']'

def readItem (key : Bytes) : Bytes → Reading Bytes
  | [] => .ok ([], [])
  | c :: rest =>
    if isQuote c then
      match readQuoted c rest with
      | none => .error ⟨.openListQuote key, c :: rest⟩
      | some r => .ok r
    else
      let bare := (c :: rest).takeWhile isBareItemByte
      .ok (Bytes.trim bare, (c :: rest).dropWhile isBareItemByte)

theorem length_dropWhile_le (p : UInt8 → Bool) (s : Bytes) : (s.dropWhile p).length ≤ s.length :=
  (List.dropWhile_sublist p).length_le

theorem length_of_readItem {key s : Bytes} {r : Bytes × Bytes} (h : readItem key s = .ok r) :
    r.2.length ≤ s.length := by
  unfold readItem at h
  split at h
  · cases h; simp
  · split at h
    · split at h
      · cases h
      · next r' hr =>
        cases h
        have := length_of_readQuoted hr
        simp only [List.length_cons]
        omega
    · cases h
      exact length_dropWhile_le ..

inductive ListStep where
  | close (last : List Bytes)
  | item (text : Bytes)
deriving DecidableEq, Repr

def readStep (key opening s : Bytes) : Reading ListStep :=
  match s.dropWhile isBlank with
  | [] => .error ⟨.openList key, opening⟩
  | c :: rest =>
    if c = byte ']' then .ok (.close [], rest)
    else
      match readItem key (c :: rest) with
      | .error e => .error e
      | .ok (item, after) =>
        match after.dropWhile isBlank with
        | [] => .error ⟨.openList key, opening⟩
        | d :: rest =>
          if d = byte ']' then .ok (.close [item], rest)
          else if d = byte ',' then .ok (.item item, rest)
          else .error ⟨.missingSeparator key, d :: rest⟩

theorem length_of_readStep {key opening s : Bytes} {r : ListStep × Bytes}
    (h : readStep key opening s = .ok r) : r.2.length < s.length := by
  have hs := length_dropWhile_le isBlank s
  unfold readStep at h
  split at h
  · cases h
  · next c rest hc =>
    rw [hc, List.length_cons] at hs
    split at h
    · cases h
      exact Nat.lt_of_succ_le hs
    · split at h
      · cases h
      · next item after hi =>
        have hi := length_of_readItem hi
        have ha := length_dropWhile_le isBlank after
        simp only [List.length_cons] at hi
        split at h
        · cases h
        · next d rest' hd =>
          rw [hd, List.length_cons] at ha
          have : rest'.length < s.length := by omega
          split at h
          · cases h; exact this
          · split at h
            · cases h; exact this
            · cases h

def readItems (key opening s : Bytes) : Reading (List Bytes) :=
  match h : readStep key opening s with
  | .error e => .error e
  | .ok (.close last, rest) => .ok (last, rest)
  | .ok (.item text, rest) =>
    have := length_of_readStep h
    match readItems key opening rest with
    | .error e => .error e
    | .ok (items, rest) => .ok (text :: items, rest)
termination_by s.length

theorem length_of_readItems {key opening s : Bytes} {r : List Bytes × Bytes}
    (h : readItems key opening s = .ok r) : r.2.length < s.length := by
  fun_induction readItems key opening s generalizing r with
  | case1 => cases h
  | case2 s last rest hs => cases h; exact length_of_readStep hs
  | case3 => cases h
  | case4 s text rest hs _ items rest' hr ih =>
    cases h
    have := ih (r := (items, rest')) hr
    exact Nat.lt_trans this (length_of_readStep hs)

def readValue (key : Bytes) : Bytes → Reading Value
  | [] => .error ⟨.missingValue key, []⟩
  | c :: rest =>
    if isQuote c then
      match readQuoted c rest with
      | none => .error ⟨.openQuote key, c :: rest⟩
      | some (s, r) => .ok (.scalar s, r)
    else if c = byte '[' then
      match readItems key (c :: rest) rest with
      | .error e => .error e
      | .ok (items, r) => .ok (.list items, r)
    else
      .ok (.scalar ((c :: rest).takeWhile fun d => !isBlank d),
        (c :: rest).dropWhile fun d => !isBlank d)

theorem length_of_readValue {key s : Bytes} {r : Value × Bytes} (h : readValue key s = .ok r) :
    r.2.length ≤ s.length := by
  unfold readValue at h
  split at h
  · cases h
  · split at h
    · split at h
      · cases h
      · next hr =>
        cases h
        have := length_of_readQuoted hr
        simp only [List.length_cons]
        simp only at this
        omega
    · split at h
      · split at h
        · cases h
        · next hr =>
          cases h
          have := length_of_readItems hr
          simp only [List.length_cons]
          simp only at this
          omega
      · cases h
        exact length_dropWhile_le ..

def readPair : Bytes → Reading (Bytes × Value)
  | [] => .error ⟨.missingEquals [], []⟩
  | c :: rest =>
    if !isNameStart c then .error ⟨.notAName c, c :: rest⟩
    else
      let key := c :: rest.takeWhile isNameByte
      match (rest.dropWhile isNameByte).dropWhile isBlank with
      | [] => .error ⟨.missingEquals key, []⟩
      | d :: rest =>
        if d ≠ byte '=' then .error ⟨.missingEquals key, d :: rest⟩
        else
          match readValue key (rest.dropWhile isBlank) with
          | .error e => .error e
          | .ok (value, []) => .ok ((key, value), [])
          | .ok (value, e :: after) =>
            if isBlank e then .ok ((key, value), e :: after)
            else .error ⟨.trailingText e key, e :: after⟩

theorem length_of_readPair {s : Bytes} {r : (Bytes × Value) × Bytes} (h : readPair s = .ok r) :
    r.2.length < s.length := by
  unfold readPair at h
  split at h
  · cases h
  · next c rest =>
    have h₁ := length_dropWhile_le isNameByte rest
    have h₂ := length_dropWhile_le isBlank (rest.dropWhile isNameByte)
    split at h
    · cases h
    · simp only at h
      split at h
      · cases h
      · next d after hd =>
        rw [hd, List.length_cons] at h₂
        have h₃ := length_dropWhile_le isBlank after
        split at h
        · cases h
        · split at h
          · cases h
          · cases h; simp
          · next hv =>
            have h₄ := length_of_readValue hv
            simp only [List.length_cons] at h₄ ⊢
            split at h
            · cases h
              simp only [List.length_cons]
              omega
            · cases h

def readPairs (s : Bytes) : Except Halt (List (Bytes × Value)) :=
  match hs : s.dropWhile isBlank with
  | [] => .ok []
  | c :: rest =>
    match h : readPair (c :: rest) with
    | .error e => .error e
    | .ok (pair, after) =>
      have : after.length < s.length :=
        Nat.lt_of_lt_of_le (length_of_readPair h) (hs ▸ length_dropWhile_le isBlank s)
      match readPairs after with
      | .error e => .error e
      | .ok pairs => .ok (pair :: pairs)
termination_by s.length

end TrustRegions.Attribute

namespace TrustRegions.Attributes

structure Rejection where
  fault : Attribute.Fault
  offset : Nat
deriving DecidableEq, Repr

def read (s : Bytes) : Except Rejection Attributes :=
  match Attribute.readPairs s with
  | .error e => .error ⟨e.fault, s.length - e.rest.length⟩
  | .ok pairs => .ok (.ofList pairs)

end TrustRegions.Attributes
