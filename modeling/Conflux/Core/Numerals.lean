import Mathlib.Algebra.Ring.Nat
import Mathlib.Data.List.Basic
import Mathlib.Data.Nat.Basic
import Mathlib.Data.Nat.Digits.Defs

/-!
# Numbers as bytes

The decimal digits of a number in ASCII, and its big-endian bytes. Both can be read back.
-/

namespace Conflux.Core

/-- The decimal digits of a number. -/
def decimal (n : Nat) : List UInt8 := (Nat.toDigits 10 n).map fun c => UInt8.ofNat c.toNat

/-- An integer in decimal, with a sign in front of it if it is negative. -/
def signedDecimal (n : Int) : List UInt8 := (if n < 0 then [0x2D] else []) ++ decimal n.natAbs

theorem toNat_of_mem_toDigits {n : Nat} {c : Char} (h : c ∈ Nat.toDigits 10 n) :
    48 ≤ c.toNat ∧ c.toNat ≤ 57 :=
  Char.isDigit_iff_toNat.mp (Nat.isDigit_of_mem_toDigits (by decide) (by decide) h)

/-- The bytes are digits. -/
theorem toNat_of_mem_decimal {n : Nat} {u : UInt8} (h : u ∈ decimal n) :
    48 ≤ u.toNat ∧ u.toNat ≤ 57 := by
  obtain ⟨c, hc, rfl⟩ := List.mem_map.mp h
  have hdigit := toNat_of_mem_toDigits hc
  rw [UInt8.toNat_ofNat']
  omega

/-- The digits can be read back. -/
theorem toDigits_of_decimal (n : Nat) :
    (decimal n).map (fun u => Char.ofNat u.toNat) = Nat.toDigits 10 n := by
  rw [decimal, List.map_map]
  conv_rhs => rw [← List.map_id (Nat.toDigits 10 n)]
  apply List.map_congr_left
  intro c hc
  have hdigit := toNat_of_mem_toDigits hc
  have hlt : c.toNat < 256 := Nat.lt_of_le_of_lt hdigit.2 (by decide)
  simp only [Function.comp_apply, id_eq]
  rw [UInt8.toNat_ofNat', Nat.mod_eq_of_lt hlt, Char.ofNat_toNat]

theorem decimal_injective {m n : Nat} (h : decimal m = decimal n) : m = n := by
  have hdigits := congrArg (List.map fun u => Char.ofNat u.toNat) h
  rw [toDigits_of_decimal, toDigits_of_decimal] at hdigits
  have hnat := congrArg (fun cs => Nat.ofDigitChars 10 cs 0) hdigits
  simpa only [Nat.ofDigitChars_ten_toDigits] using hnat

/-! ## Big-endian bytes -/

/-- The two bytes of a number, the high one first. -/
def bytesOfU16 (v : UInt16) : List UInt8 := [(v >>> 8).toUInt8, (v &&& 0xFF).toUInt8]

/-- The number of two bytes. -/
def u16OfBytes (hi lo : UInt8) : UInt16 := hi.toUInt16 <<< 8 ||| lo.toUInt16

/-- The four bytes of a number, the highest one first. -/
def bytesOfU32 (v : UInt32) : List UInt8 :=
  [(v >>> 24).toUInt8, ((v >>> 16) &&& 0xFF).toUInt8, ((v >>> 8) &&& 0xFF).toUInt8,
    (v &&& 0xFF).toUInt8]

/-- The number of four bytes. -/
def u32OfBytes (a b c d : UInt8) : UInt32 :=
  a.toUInt32 <<< 24 ||| b.toUInt32 <<< 16 ||| c.toUInt32 <<< 8 ||| d.toUInt32

/-- Each bit comes back from the byte it went into. -/
theorem u16OfBytes_split (v : UInt16) : u16OfBytes (v >>> 8).toUInt8 (v &&& 0xFF).toUInt8 = v := by
  rw [UInt16.toUInt8_and, show (0xFF : UInt16).toUInt8 = -1 from rfl, UInt8.and_neg_one]
  apply UInt16.toBitVec_inj.mp
  change ((v.toBitVec >>> 8).setWidth 8).setWidth 16 <<< 8 |||
    (v.toBitVec.setWidth 8).setWidth 16 = v.toBitVec
  refine BitVec.eq_of_getLsbD_eq fun i hi => ?_
  simp only [BitVec.getLsbD_or, BitVec.getLsbD_shiftLeft, BitVec.getLsbD_setWidth,
    BitVec.getLsbD_ushiftRight]
  grind

@[inherit_doc u16OfBytes_split]
theorem u32OfBytes_split (v : UInt32) :
    u32OfBytes (v >>> 24).toUInt8 ((v >>> 16) &&& 0xFF).toUInt8 ((v >>> 8) &&& 0xFF).toUInt8
      (v &&& 0xFF).toUInt8 = v := by
  simp only [UInt32.toUInt8_and, show (0xFF : UInt32).toUInt8 = -1 from rfl, UInt8.and_neg_one]
  apply UInt32.toBitVec_inj.mp
  change ((v.toBitVec >>> 24).setWidth 8).setWidth 32 <<< 24 |||
    ((v.toBitVec >>> 16).setWidth 8).setWidth 32 <<< 16 |||
    ((v.toBitVec >>> 8).setWidth 8).setWidth 32 <<< 8 |||
    (v.toBitVec.setWidth 8).setWidth 32 = v.toBitVec
  refine BitVec.eq_of_getLsbD_eq fun i hi => ?_
  simp only [BitVec.getLsbD_or, BitVec.getLsbD_shiftLeft, BitVec.getLsbD_setWidth,
    BitVec.getLsbD_ushiftRight]
  grind

/-! ## Numbers of any width -/

/-- The number that bytes stand for, the first one on top. -/
def natOfBytes (bytes : List UInt8) : Nat :=
  bytes.foldl (fun n b => n * 256 + b.toNat) 0

/-- The low `k` bytes of a number, the highest one first. -/
def bytesOfNat : Nat → Nat → List UInt8
  | 0, _ => []
  | k + 1, n => bytesOfNat k (n / 256) ++ [UInt8.ofNat n]

theorem length_bytesOfNat (k n : Nat) : (bytesOfNat k n).length = k := by
  induction k generalizing n with
  | zero => rfl
  | succ k ih => rw [bytesOfNat, List.length_append, ih, List.length_singleton]

theorem natOfBytes_concat (bytes : List UInt8) (b : UInt8) :
    natOfBytes (bytes ++ [b]) = natOfBytes bytes * 256 + b.toNat := by
  rw [natOfBytes, List.foldl_append]
  rfl

theorem natOfBytes_bytesOfNat {k n : Nat} (h : n < 256 ^ k) : natOfBytes (bytesOfNat k n) = n := by
  induction k generalizing n with
  | zero =>
    rw [Nat.pow_zero] at h
    rw [Nat.lt_one_iff.mp h]
    rfl
  | succ k ih =>
    have hdiv : n / 256 < 256 ^ k := by
      rw [Nat.pow_succ] at h
      exact Nat.div_lt_of_lt_mul (by omega)
    rw [bytesOfNat, natOfBytes_concat, ih hdiv, UInt8.toNat_ofNat']
    exact Nat.div_add_mod' n 256

end Conflux.Core
