import Mathlib.Algebra.Order.Ring.Nat
import Mathlib.Data.UInt
import TrustRegions.Proofs.Reuse

/-! Two contents of one length that differ in one byte have different digests. The two runs of the digest
come apart at that byte and never meet again, since each further step can be undone. -/

namespace TrustRegions

namespace Digest

def absorb (h : UInt64) (c : UInt8) : UInt64 := (h <<< 5) + h + c.toUInt64

def inverse : UInt64 := 0x0F83E0F83E0F83E1

def nibble (n : UInt64) (i : Nat) : UInt64 := n >>> (4 * UInt64.ofNat i) &&& 15

variable {n m h h' : UInt64} {c c' : UInt8} {a b : Bytes}

lemma absorb_eq (h : UInt64) (c : UInt8) : absorb h c = h * 33 + c.toUInt64 := by
  have hshift : h <<< 5 = h * 32 := by
    apply UInt64.toNat_inj.mp
    rw [UInt64.toNat_shiftLeft, UInt64.toNat_mul, Nat.shiftLeft_eq]
    rfl
  rw [absorb, hshift, show (33 : UInt64) = 32 + 1 from rfl, UInt64.mul_add, UInt64.mul_one]

lemma mul_inverse (h : UInt64) : h * 33 * inverse = h := by
  rw [UInt64.mul_assoc, show (33 : UInt64) * inverse = 1 from rfl, UInt64.mul_one]

lemma absorb_left_inj : absorb h c = absorb h' c ↔ h = h' := by
  refine ⟨fun heq => ?_, fun heq => by rw [heq]⟩
  rw [absorb_eq, absorb_eq, UInt64.add_left_inj] at heq
  rw [← mul_inverse h, heq, mul_inverse]

lemma absorb_right_inj : absorb h c = absorb h c' ↔ c = c' := by
  rw [absorb, absorb, UInt64.add_right_inj]
  exact UInt8.toUInt64_inj

lemma foldl_absorb_inj (b : Bytes) : b.foldl absorb h = b.foldl absorb h' ↔ h = h' := by
  induction b generalizing h h' with
  | nil => rfl
  | cons c b ih => rw [List.foldl_cons, List.foldl_cons, ih, absorb_left_inj]

lemma fold_append_cons_inj : fold (a ++ c :: b) = fold (a ++ c' :: b) ↔ c = c' := by
  have hfold (c : UInt8) : fold (a ++ c :: b) = b.foldl absorb (absorb (a.foldl absorb 5381) c) := by
    rw [fold, List.foldl_append, List.foldl_cons]
    rfl
  rw [hfold, hfold, foldl_absorb_inj, absorb_right_inj]

lemma value_inj_of_length (hlength : a.length = b.length) : value a = value b ↔ fold a = fold b := by
  rw [value, value, hlength, UInt64.xor_left_inj]

lemma toNat_nibble (n : UInt64) {i : Nat} (hi : i < 16) :
    (nibble n i).toNat = n.toNat / 16 ^ i % 16 := by
  have hshift : (4 * UInt64.ofNat i).toNat % 64 = 4 * i := by
    rw [UInt64.toNat_mul, UInt64.toNat_ofNat_of_lt' (by rw [UInt64.size]; omega)]
    simp only [UInt64.reduceToNat]
    omega
  have hmask (x : Nat) : x &&& 15 = x % 16 := Nat.and_two_pow_sub_one_eq_mod x 4
  rw [nibble, UInt64.toNat_and, UInt64.toNat_shiftRight, hshift, Nat.shiftRight_eq_div_pow, pow_mul]
  exact hmask _

lemma mod_eq_of_digits {x y k : Nat} (hxy : ∀ i < k, x / 16 ^ i % 16 = y / 16 ^ i % 16) :
    x % 16 ^ k = y % 16 ^ k := by
  induction k with
  | zero => rw [pow_zero, Nat.mod_one, Nat.mod_one]
  | succ k ih =>
    rw [Nat.mod_pow_succ, Nat.mod_pow_succ, ih fun i hi => hxy i (by omega), hxy k (by omega)]

lemma eq_of_nibbles (hnm : ∀ i < 16, nibble n i = nibble m i) : n = m := by
  have hmod : n.toNat % 16 ^ 16 = m.toNat % 16 ^ 16 := by
    apply mod_eq_of_digits
    intro i hi
    rw [← toNat_nibble n hi, hnm i hi, toNat_nibble m hi]
  rw [show 16 ^ 16 = 2 ^ 64 from rfl, Nat.mod_eq_of_lt n.toNat_lt, Nat.mod_eq_of_lt m.toNat_lt] at hmod
  exact UInt64.toNat_inj.mp hmod

lemma hexDigit_inj (hn : n.toNat < 16) (hm : m.toNat < 16) : hexDigit n = hexDigit m ↔ n = m := by
  refine ⟨fun heq => ?_, fun heq => by rw [heq]⟩
  have hdigits : ∀ i j : Fin 16, hexDigit (.ofNat i) = hexDigit (.ofNat j) → i = j := by decide
  have hall := hdigits ⟨n.toNat, hn⟩ ⟨m.toNat, hm⟩
  simp only [UInt64.ofNat_toNat, Fin.mk.injEq, UInt64.toNat_inj] at hall
  exact hall heq

lemma hex_inj : hex n = hex m ↔ n = m := by
  refine ⟨fun heq => eq_of_nibbles fun i hi => ?_, fun heq => by rw [heq]⟩
  have hbound (n : UInt64) : (nibble n i).toNat < 16 := by
    rw [toNat_nibble n hi]
    exact Nat.mod_lt _ (by decide)
  have hdigit : hexDigit (nibble n i) = hexDigit (nibble m i) :=
    List.map_inj_left.mp heq i (by simpa using hi)
  exact (hexDigit_inj (hbound n) (hbound m)).mp hdigit

end Digest

lemma digest_set_inj {content : Bytes} {i : Nat} {b c : UInt8} (hi : i < content.length) :
    digest (content.set i b) = digest (content.set i c) ↔ b = c := by
  have hset (b : UInt8) : content.set i b = content.take i ++ b :: content.drop (i + 1) := by
    rw [List.set_eq_take_append_cons_drop, if_pos hi]
  have hlength : (content.set i b).length = (content.set i c).length := by
    rw [List.length_set, List.length_set]
  rw [digest, digest, Digest.hex_inj, Digest.value_inj_of_length hlength, hset b, hset c,
    Digest.fold_append_cons_inj]

namespace Cache

variable {κ : Type} [DecidableEq κ]

/-- Another byte in one place makes another digest. So an entry that stands for a content is not given out
for the content with that byte, which is scanned instead. -/
theorem scan_edited_content (content : Bytes) (i : Nat) (hi : i < content.length) (b : UInt8)
    (hb : b ≠ content[i]) :
    let edited := content.set i b
    digest edited ≠ digest content ∧
    ∀ (c : Cache κ) (key : κ) (e : CacheEntry), c.get? key = some e → e.digest = digest content →
      ∀ path tag, (c.lookup key (digest edited)).1 = none ∧
        (c.scan key path tag edited).1 ≠ e ∧
        (c.scan key path tag edited).1.scan = TrustRegions.scan path tag edited := by
  intro edited
  have hdigest : digest edited ≠ digest content := by
    intro heq
    apply hb
    rw [← digest_set_inj hi, List.set_getElem_self]
    exact heq
  refine ⟨hdigest, fun c key e he hcontent path tag => ?_⟩
  have hnone : c.match? key (digest edited) = none := by
    rw [match?, he, Option.filter_some, if_neg]
    simpa [hcontent] using hdigest.symm
  obtain ⟨hgiven, hscan, -⟩ := c.scan_spec key path tag edited
  refine ⟨by rw [lookup_fst, hnone], fun heq => ?_, ?_⟩
  · apply hdigest
    rw [← hgiven, heq, hcontent]
  · rw [hscan, hnone]
    rfl

def annotated : Bytes := ascii "# @collab owner=a\nx = 1\n"

theorem scan_edited_content_owner :
    16 < annotated.length ∧ byte 'b' ≠ annotated.get ⟨16, by decide⟩ ∧
    ((({} : Cache Bytes).scan (ascii "a.py") (ascii "a.py") (ascii "python") annotated).2.scan
        (ascii "a.py") (ascii "a.py") (ascii "python") (annotated.set 16 (byte 'b'))).1.scan =
      TrustRegions.scan (ascii "a.py") (ascii "python") (ascii "# @collab owner=b\nx = 1\n") := by
  have hlength : 16 < annotated.length := by decide
  have hbyte : byte 'b' ≠ annotated.get ⟨16, by decide⟩ := by decide
  obtain ⟨-, hedited⟩ := scan_edited_content (κ := Bytes) annotated 16 hlength (byte 'b') hbyte
  obtain ⟨hdigest, -, hget⟩ :=
    ({} : Cache Bytes).scan_spec (ascii "a.py") (ascii "a.py") (ascii "python") annotated
  exact ⟨hlength, hbyte, (hedited _ _ _ ((hget _).trans (if_pos rfl)) hdigest _ _).2.2⟩

end Cache

end TrustRegions
