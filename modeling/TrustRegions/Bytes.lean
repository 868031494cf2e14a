/-!
Byte strings. Contents, names and messages are lists of bytes in no particular encoding; letters,
digits and blanks are the ASCII ones.
-/

namespace TrustRegions

abbrev Bytes := List UInt8

def byte (c : Char) : UInt8 := UInt8.ofNat c.toNat

def ascii (s : String) : Bytes := s.toList.map byte

def tab : UInt8 := 9
def newline : UInt8 := 10
def verticalTab : UInt8 := 11
def formFeed : UInt8 := 12
def carriageReturn : UInt8 := 13
def space : UInt8 := 32
def doubleQuote : UInt8 := 34
def apostrophe : UInt8 := 39
def backslash : UInt8 := 92
def backquote : UInt8 := 96
def openBrace : UInt8 := 123
def closeBrace : UInt8 := 125

def isIndent (c : UInt8) : Bool := c == space || c == tab

def isBlank (c : UInt8) : Bool :=
  c == space || c == tab || c == carriageReturn || c == newline || c == formFeed || c == verticalTab

def isDigit (c : UInt8) : Bool := 48 ≤ c && c ≤ 57

def isUpper (c : UInt8) : Bool := 65 ≤ c && c ≤ 90

def isLetter (c : UInt8) : Bool := isUpper c || (97 ≤ c && c ≤ 122)

def isAlphanumeric (c : UInt8) : Bool := isLetter c || isDigit c

def isWordByte (c : UInt8) : Bool := isAlphanumeric c || c == byte '_'

namespace Bytes

def toLower (s : Bytes) : Bytes := s.map fun c => if isUpper c then c + 32 else c

def trim (s : Bytes) : Bytes :=
  ((s.dropWhile isBlank).reverse.dropWhile isBlank).reverse

def pieces (sep : UInt8) : Bytes → List Bytes
  | [] => [[]]
  | c :: rest => if c = sep then [] :: pieces sep rest else (pieces sep rest).modifyHead (c :: ·)

def beforeZero (s : Bytes) : Bytes := s.takeWhile (· ≠ 0)

def afterLast (p : UInt8 → Bool) (s : Bytes) : Bytes :=
  (s.reverse.takeWhile fun c => !p c).reverse

def includes (word : Bytes) : Bytes → Bool
  | [] => word.isEmpty
  | c :: rest => word.isPrefixOf (c :: rest) || includes word rest

def startsWithWord (word s : Bytes) : Bool :=
  !word.isEmpty && word.isPrefixOf s && !(s.drop word.length).head?.any isWordByte

end Bytes

def decimal (n : Nat) : Bytes := (Nat.toDigits 10 n).map byte

end TrustRegions
