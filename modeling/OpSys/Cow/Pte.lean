import Mathlib.Data.Nat.Bitwise
import OpSys.Xv6.Base

/-! Addresses and page-table words of `mmu.h`. A physical or linear page is named
by its number, the address divided by `PGSIZE`. -/
namespace OpSys.Cow

abbrev Word := BitVec 32

def pgSize : Nat := 4096
def userTop : Nat := 0xA0000
def physTop : Nat := 0x1000000
def npdEntries : Nat := 1024

/-- `USERTOP / PGSIZE`: the linear pages below it are the user's. -/
def userPages : Nat := 160

def pteP : Word := 0x001
def pteW : Word := 0x002
def pteU : Word := 0x004

def pgRoundUp (sz : Nat) : Nat := (sz + pgSize - 1) % 2 ^ 32 / pgSize * pgSize
def pdx (v : Nat) : Nat := v / 1024

def flagMask : Word := 0xFFF
def pteAddr (w : Word) : Word := w &&& ~~~flagMask
def pteFlags (w : Word) : Word := w &&& flagMask

/-- `w & flag` as a condition. -/
def on (w flag : Word) : Bool := w &&& flag != 0

def paddr (f : Nat) : Word := BitVec.ofNat 32 (f * pgSize)

/-- `PTE_ADDR(w) / PGSIZE`. -/
def pageOf (w : Word) : Nat := (pteAddr w).toNat / pgSize

/-- A user-mode access to the page is allowed to read. -/
def userOn (w : Word) : Bool := on w pteP && on w pteU

def littleEndian (width n : Nat) : List UInt8 := (List.range width).map fun i => UInt8.ofNat (n / 256 ^ i)

theorem onTwoPow (w : Word) {i : Nat} (small : i < 32) : on w (BitVec.twoPow 32 i) = w.getLsbD i := by
  have nonzero : BitVec.twoPow 32 i ≠ 0#32 := fun zero => by
    simpa [small] using congrArg (fun b => b.getLsbD i) zero
  unfold on
  rw [BitVec.and_twoPow]
  split <;> simp_all

@[simp] theorem onP (w : Word) : on w pteP = w.getLsbD 0 := onTwoPow w (i := 0) (by decide)
@[simp] theorem onW (w : Word) : on w pteW = w.getLsbD 1 := onTwoPow w (i := 1) (by decide)
@[simp] theorem onU (w : Word) : on w pteU = w.getLsbD 2 := onTwoPow w (i := 2) (by decide)

theorem smallBits {w : Word} {k i : Nat} (small : w.toNat < 2 ^ k) (high : k ≤ i) : w.getLsbD i = false := by
  rw [← BitVec.testBit_toNat]
  exact Nat.testBit_lt_two_pow (Nat.lt_of_lt_of_le small (Nat.pow_le_pow_right (by decide) high))

theorem pageOfBits (w : Word) (i : Nat) : (pageOf w).testBit i = w.getLsbD (12 + i) := by
  have mask : flagMask.getLsbD (12 + i) = false := smallBits (k := 12) (by decide) (Nat.le_add_right 12 i)
  have split : (pteAddr w).toNat / 2 ^ 12 = pageOf w := rfl
  rw [← split, Nat.testBit_div_two_pow, BitVec.testBit_toNat, Nat.add_comm i 12]
  unfold pteAddr
  rw [BitVec.getLsbD_and, BitVec.getLsbD_not, mask]
  by_cases small : 12 + i < 32
  · simp [small]
  · simp [BitVec.getLsbD_of_ge w (12 + i) (by omega)]

theorem pageOfLt (w : Word) : pageOf w < 2 ^ 20 := by
  apply Nat.lt_pow_two_of_testBit
  intro i big
  rw [pageOfBits]
  exact BitVec.getLsbD_of_ge w (12 + i) (by omega)

theorem paddrBits {f : Nat} (i : Nat) (fits : f < 2 ^ 20) :
    (paddr f).getLsbD i = (decide (12 ≤ i) && f.testBit (i - 12)) := by
  have shift : f * pgSize = f <<< 12 := by rw [Nat.shiftLeft_eq]; rfl
  unfold paddr
  rw [shift, BitVec.getLsbD_ofNat, Nat.testBit_shiftLeft]
  by_cases low : i < 32
  · simp [low]
  · have high : f.testBit (i - 12) = false :=
      Nat.testBit_lt_two_pow (Nat.lt_of_lt_of_le fits (Nat.pow_le_pow_right (by decide) (by omega)))
    simp [low, high]

theorem pageOfOr {f : Nat} {w : Word} (fits : f < 2 ^ 20) (flags : pageOf w = 0) : pageOf (paddr f ||| w) = f := by
  apply Nat.eq_of_testBit_eq
  intro i
  have none : w.getLsbD (12 + i) = false := by rw [← pageOfBits, flags, Nat.zero_testBit]
  rw [pageOfBits, BitVec.getLsbD_or, none, paddrBits _ fits]
  simp

theorem pageOfFlags (w : Word) : pageOf (pteFlags w) = 0 := by
  apply Nat.eq_of_testBit_eq
  intro i
  have mask : flagMask.getLsbD (12 + i) = false := smallBits (k := 12) (by decide) (Nat.le_add_right 12 i)
  rw [pageOfBits, pteFlags, BitVec.getLsbD_and, mask]
  simp

theorem pageOfJoin {w x : Word} (left : pageOf w = 0) (right : pageOf x = 0) : pageOf (w ||| x) = 0 := by
  apply Nat.eq_of_testBit_eq
  intro i
  rw [pageOfBits, BitVec.getLsbD_or, ← pageOfBits, ← pageOfBits, left, right]
  simp

theorem pageOfClear (w : Word) : pageOf (w &&& ~~~pteW) = pageOf w := by
  apply Nat.eq_of_testBit_eq
  intro i
  have mask : pteW.getLsbD (12 + i) = false := smallBits (k := 2) (by decide) (by omega)
  rw [pageOfBits, pageOfBits, BitVec.getLsbD_and, BitVec.getLsbD_not, mask]
  by_cases small : 12 + i < 32
  · simp [small]
  · simp [small, BitVec.getLsbD_of_ge w (12 + i) (by omega)]

theorem flagsBits (w : Word) {i : Nat} (low : i < 3) : (pteFlags w).getLsbD i = w.getLsbD i := by
  have mask : ∀ j : Fin 3, flagMask.getLsbD j = true := by decide
  rw [pteFlags, BitVec.getLsbD_and, mask ⟨i, low⟩, Bool.and_true]

theorem clearBits (w : Word) {i : Nat} (low : i < 3) :
    (w &&& ~~~pteW).getLsbD i = (w.getLsbD i && decide (i ≠ 1)) := by
  have mask : ∀ j : Fin 3, (~~~pteW).getLsbD j = decide (j.val ≠ 1) := by decide
  rw [BitVec.getLsbD_and, mask ⟨i, low⟩]

theorem paddrLow {f i : Nat} (fits : f < 2 ^ 20) (low : i < 3) : (paddr f).getLsbD i = false := by
  rw [paddrBits i fits]
  simp [show ¬ 12 ≤ i by omega]

theorem mappedPage {f : Nat} {perm : Word} (fits : f < 2 ^ 20) (flags : pageOf perm = 0) :
    pageOf (paddr f ||| perm ||| pteP) = f := by
  rw [BitVec.or_assoc]
  exact pageOfOr fits (pageOfJoin flags (by decide))

theorem mappedP (f : Nat) (perm : Word) : on (paddr f ||| perm ||| pteP) pteP = true := by
  rw [onP, BitVec.getLsbD_or]
  simp [pteP]

theorem mappedW {f : Nat} {perm : Word} (fits : f < 2 ^ 20) : on (paddr f ||| perm ||| pteP) pteW = on perm pteW := by
  rw [onW, onW, BitVec.getLsbD_or, BitVec.getLsbD_or, paddrLow fits (by decide)]
  simp [pteP]

theorem mappedU {f : Nat} {perm : Word} (fits : f < 2 ^ 20) : on (paddr f ||| perm ||| pteP) pteU = on perm pteU := by
  rw [onU, onU, BitVec.getLsbD_or, BitVec.getLsbD_or, paddrLow fits (by decide)]
  simp [pteP]

theorem addWrite {w : Word} (clear : on w pteW = false) : w + 2 = w ||| pteW := by
  have disjoint : w &&& 2#32 = 0#32 := by simpa [on, pteW] using clear
  exact BitVec.add_eq_or_of_and_eq_zero w 2#32 disjoint

end OpSys.Cow
