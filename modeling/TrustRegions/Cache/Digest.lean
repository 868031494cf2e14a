import TrustRegions.Bytes

/-!
Digests tell contents apart: 64 bits computed from the bytes and their number, as 16 hexadecimal
digits.
-/

namespace TrustRegions.Digest

def fold (content : Bytes) : UInt64 :=
  content.foldl (fun h c => (h <<< 5) + h + c.toUInt64) 5381

def value (content : Bytes) : UInt64 :=
  fold content ^^^ (UInt64.ofNat content.length * 0x9E3779B97F4A7C15)

def hexDigit (d : UInt64) : UInt8 := if d < 10 then 48 + d.toUInt8 else 87 + d.toUInt8

def hex (n : UInt64) : Bytes :=
  (List.range 16).reverse.map fun i => hexDigit (n >>> (4 * UInt64.ofNat i) &&& 15)

end TrustRegions.Digest

namespace TrustRegions

def digest (content : Bytes) : Bytes := Digest.hex (Digest.value content)

end TrustRegions
