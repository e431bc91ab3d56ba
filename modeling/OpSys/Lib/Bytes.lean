import Mathlib.Logic.Function.Basic
import Mathlib.Data.Nat.ModEq

/-! Numbers and single bits in a row of bytes, the low byte first. -/
namespace OpSys.Bytes
open Function

abbrev Row := Nat → UInt8

variable {d d' : Row} {i j n v k : Nat} {bs : List UInt8}

def byteAt (v k : Nat) : UInt8 := UInt8.ofNat (v / 256 ^ k)

def half (d : Row) (i : Nat) : UInt16 := UInt16.ofNat ((d (2 * i)).toNat + 256 * (d (2 * i + 1)).toNat)

def word (d : Row) (i : Nat) : Nat :=
  (d (4 * i)).toNat + 256 * ((d (4 * i + 1)).toNat + 256 * ((d (4 * i + 2)).toNat + 256 * (d (4 * i + 3)).toNat))

def setWord (d : Row) (i v : Nat) : Row := fun k => if k / 4 = i then byteAt v (k % 4) else d k

theorem byteAtNat (v k : Nat) : (byteAt v k).toNat = v / 256 ^ k % 256 := UInt8.toNat_ofNat'

theorem halfOf (v : UInt16) (low : d (2 * i) = byteAt v.toNat 0) (high : d (2 * i + 1) = byteAt v.toNat 1) : half d i = v := by
  have bound := v.toNat_lt
  rw [half, low, high, ← UInt16.toNat_inj, UInt16.toNat_ofNat', byteAtNat, byteAtNat]
  omega

theorem wordOf (fits : v < 2 ^ 32) (bytes : ∀ k < 4, d (4 * i + k) = byteAt v k) : word d i = v := by
  rw [word, ← Nat.add_zero (4 * i), bytes 0 (by decide), Nat.add_zero, bytes 1 (by decide), bytes 2 (by decide), bytes 3 (by decide)]
  simp only [byteAtNat]
  omega

theorem halfCongr (low : d (2 * i) = d' (2 * j)) (high : d (2 * i + 1) = d' (2 * j + 1)) : half d i = half d' j := by
  unfold half
  rw [low, high]

theorem wordCongr (same : ∀ k < 4, d (4 * i + k) = d' (4 * j + k)) : word d i = word d' j := by
  unfold word
  rw [← Nat.add_zero (4 * i), ← Nat.add_zero (4 * j), same 0 (by decide), Nat.add_zero, Nat.add_zero, same 1 (by decide), same 2 (by decide), same 3 (by decide)]

theorem wordLt (d : Row) (i : Nat) : word d i < 2 ^ 32 := by
  have a := (d (4 * i)).toNat_lt
  have b := (d (4 * i + 1)).toNat_lt
  have c := (d (4 * i + 2)).toNat_lt
  have e := (d (4 * i + 3)).toNat_lt
  unfold word
  omega

theorem wordZero (blank : ∀ k < 4, d (4 * i + k) = 0) : word d i = 0 := wordOf (by decide) fun k less => by
  rw [blank k less, byteAt, Nat.zero_div]
  rfl

theorem wordSet (fits : v < 2 ^ 32) : word (setWord d i v) i = v := wordOf fits fun k less => by
  unfold setWord
  rw [if_pos (by omega), show (4 * i + k) % 4 = k by omega]

theorem wordSetOther (other : j ≠ i) : word (setWord d i v) j = word d j := wordCongr fun k less => by
  unfold setWord
  rw [if_neg (by omega)]

/-! ### Bits -/

def mask (n : Nat) : UInt8 := 1 <<< UInt8.ofNat (n % 8)

def bit (d : Row) (n : Nat) : Bool := d (n / 8) &&& mask n != 0

def setBit (d : Row) (n : Nat) : Row := update d (n / 8) (d (n / 8) ||| mask n)

def clearBit (d : Row) (n : Nat) : Row := update d (n / 8) (d (n / 8) &&& ~~~ mask n)

theorem maskBits : ∀ r : Fin 8, ∀ x : BitVec 8, (UInt8.ofBitVec x &&& 1 <<< UInt8.ofNat r != 0) = x.getLsbD r := by decide +kernel

theorem maskBit (n : Nat) (x : UInt8) : (x &&& mask n != 0) = x.toBitVec.getLsbD (n % 8) := maskBits ⟨n % 8, Nat.mod_lt n (by decide)⟩ x.toBitVec

theorem maskAt (n m : Nat) : (mask n).toBitVec.getLsbD (m % 8) = decide (m % 8 = n % 8) := by
  have all : ∀ r s : Fin 8, (1 <<< UInt8.ofNat r).toBitVec.getLsbD s = decide (s.val = r.val) := by decide +kernel
  exact all ⟨n % 8, Nat.mod_lt n (by decide)⟩ ⟨m % 8, Nat.mod_lt m (by decide)⟩

theorem bitSet (d : Row) (n m : Nat) : bit (setBit d n) m = if m = n then true else bit d m := by
  unfold bit setBit
  by_cases byte : m / 8 = n / 8
  · rw [byte, update_self, maskBit, maskBit, UInt8.toBitVec_or, BitVec.getLsbD_or, maskAt]
    split
    · rename_i same
      rw [same, decide_eq_true rfl, Bool.or_true]
    · rw [decide_eq_false (by omega), Bool.or_false]
  · rw [update_of_ne byte, if_neg (by rintro rfl; exact byte rfl)]

theorem bitClear (d : Row) (n m : Nat) : bit (clearBit d n) m = if m = n then false else bit d m := by
  unfold bit clearBit
  by_cases byte : m / 8 = n / 8
  · have less : m % 8 < 8 := Nat.mod_lt m (by decide)
    rw [byte, update_self, maskBit, maskBit, UInt8.toBitVec_and, UInt8.toBitVec_not, BitVec.getLsbD_and, BitVec.getLsbD_not, maskAt, decide_eq_true less,
      Bool.true_and]
    split
    · rename_i same
      rw [same, decide_eq_true rfl, Bool.not_true, Bool.and_false]
    · rw [decide_eq_false (by omega), Bool.not_false, Bool.and_true]
  · rw [update_of_ne byte, if_neg (by rintro rfl; exact byte rfl)]

end OpSys.Bytes
