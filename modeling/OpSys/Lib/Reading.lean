import Mathlib.Algebra.Order.Group.Nat
import Mathlib.Data.List.Basic
import Mathlib.Data.Nat.Basic

/-! A file that is read piece by piece through one buffer, each piece written on at
once. A read that meets the end of the file leaves the rest of the buffer as it was. -/
namespace OpSys.Reading

structure File (α : Type*) where
  size : Nat
  byte : Nat → α

/-- `seeks` are the offsets that were sought, in order. -/
structure Cursor (α : Type*) where
  pos : Nat
  buf : Nat → α
  out : List α
  seeks : List Nat

variable {α : Type*} {f : File α} {c : Cursor α} {a k n o t : Nat}

/-- What a read of `n` bytes at `a` leaves in a buffer. -/
def fill (f : File α) (a n : Nat) (buf : Nat → α) : Nat → α := fun i => if i < n ∧ a + i < f.size then f.byte (a + i) else buf i

namespace Cursor

def lseek (c : Cursor α) (a : Nat) : Cursor α := {c with pos := a, seeks := c.seeks ++ [a]}

def skip (f : File α) (n : Nat) (c : Cursor α) : Cursor α := {c with pos := c.pos + min n (f.size - c.pos)}

def read (f : File α) (n : Nat) (c : Cursor α) : Cursor α := {c.skip f n with buf := fill f c.pos n c.buf}
def fwrite (n : Nat) (c : Cursor α) : Cursor α := {c with out := c.out ++ (List.range n).map c.buf}

def copy (f : File α) (n : Nat) (c : Cursor α) : Cursor α := (c.read f n).fwrite n

def copies (f : File α) (n : Nat) : Nat → Cursor α → Cursor α
  | 0, c => c
  | k + 1, c => copies f n k (c.copy f n)

end Cursor

theorem fillInside {buf : Nat → α} (inside : a + n ≤ f.size) (less : o < n) : fill f a n buf o = f.byte (a + o) :=
  if_pos ⟨less, by omega⟩

/-- The position is `a`, or no byte can be read at either of the two. -/
def Stands (f : File α) (a : Nat) (c : Cursor α) : Prop := c.pos = a ∨ f.size ≤ c.pos ∧ f.size ≤ a

theorem lseekStands : Stands f a (c.lseek a) := .inl rfl

theorem Stands.read (h : Stands f a c) : Stands f (a + n) (c.read f n) := by
  have moved : (c.read f n).pos = c.pos + min n (f.size - c.pos) := rfl
  unfold Stands at *
  omega

theorem Stands.buf (h : Stands f a c) (less : o < n) :
    (c.read f n).buf o = if a + o < f.size then f.byte (a + o) else c.buf o := by
  change fill f c.pos n c.buf o = _
  unfold fill
  rcases h with same | ⟨past, past'⟩
  · simp only [less, true_and, same]
  · rw [if_neg (by omega), if_neg (by omega)]

/-! ### Blocks -/

/-- The bytes of the buffer after `k` blocks, where block `k` was read at `place k`. -/
def held (f : File α) (place : Nat → Nat) (first : Nat → α) : Nat → Nat → α
  | 0, o => first o
  | k + 1, o => if place k + o < f.size then f.byte (place k + o) else held f place first k o

/-- Byte `p` of what is written on. -/
def sent (f : File α) (n : Nat) (place : Nat → Nat) (first : Nat → α) (p : Nat) : α := held f place first (p / n + 1) (p % n)

structure Copied (f : File α) (n : Nat) (place : Nat → Nat) (first : Nat → α) (k : Nat) (c : Cursor α) : Prop where
  out : c.out = (List.range (k * n)).map (sent f n place first)
  buf : ∀ o < n, c.buf o = held f place first k o

variable {place : Nat → Nat} {first : Nat → α}

theorem Copied.start (out : c.out = []) : Copied f n place c.buf 0 c := ⟨by rw [out, Nat.zero_mul]; rfl, fun _ _ => rfl⟩

theorem Copied.lseek (h : Copied f n place first k c) : Copied f n place first k (c.lseek a) := ⟨h.out, h.buf⟩
theorem Copied.skip (h : Copied f n place first k c) : Copied f n place first k (c.skip f t) := ⟨h.out, h.buf⟩

theorem Copied.read (h : Copied f n place first k c) (stands : Stands f (place k) c) (less : o < t) (le : t ≤ n) :
    (c.read f t).buf o = held f place first (k + 1) o := by
  rw [stands.buf less, h.buf o (by omega)]
  rfl

theorem Copied.tail (h : Copied f n place first k c) (stands : Stands f (place k) c) (le : t ≤ n) :
    (c.copy f t).out = (List.range (k * n + t)).map (sent f n place first) := by
  change c.out ++ (List.range t).map (c.read f t).buf = _
  rw [h.out, List.range_add, List.map_append, List.map_map]
  refine congrArg _ (List.map_congr_left fun o mem => ?_)
  have less := List.mem_range.mp mem
  rw [h.read stands less le, Function.comp_apply]
  by_cases whole : o < n
  · unfold sent
    rw [Nat.mul_comm k n, Nat.mul_add_div (by omega), Nat.div_eq_of_lt whole, Nat.mul_add_mod, Nat.mod_eq_of_lt whole, Nat.add_zero]
  · omega

theorem Copied.copy (h : Copied f n place first k c) (stands : Stands f (place k) c) : Copied f n place first (k + 1) (c.copy f n) :=
  ⟨by rw [h.tail stands le_rfl, Nat.succ_mul], fun _ less => h.read stands less le_rfl⟩

theorem Stands.copy (h : Stands f a c) : Stands f (a + n) (c.copy f n) := h.read

theorem Copied.copies {m : Nat} (h : Copied f n place first k c) (stands : Stands f a c) (run : ∀ j < m, place (k + j) = a + j * n) :
    Copied f n place first (k + m) (c.copies f n m) ∧ Stands f (a + m * n) (c.copies f n m) := by
  induction m generalizing a k c with
  | zero => exact ⟨h, by rwa [Nat.zero_mul]⟩
  | succ m ih =>
    have here : place k = a := by simpa using run 0 (Nat.succ_pos m)
    have all := ih (h.copy (here ▸ stands)) stands.copy fun j less => by
      have next := run (j + 1) (Nat.succ_lt_succ less)
      rw [Nat.succ_mul] at next
      rw [show k + 1 + j = k + (j + 1) by omega, next]
      omega
    rwa [show k + (m + 1) = k + 1 + m by omega, Nat.succ_mul, Nat.add_comm (m * n), ← Nat.add_assoc]

/-! ### What was meant -/

/-- Byte `p` stands where it is read from, or past the end of the file, and then the
buffer has it from the block before. -/
def Agrees (f : File α) (n : Nat) (place : Nat → Nat) (first want : Nat → α) (p : Nat) : Prop :=
  if place (p / n) + p % n < f.size then f.byte (place (p / n) + p % n) = want p
  else if n ≤ p then want (p - n) = want p else first p = want p

theorem heldBefore (some : 0 < n) {p : Nat} : held f place first (p / n) (p % n) = if n ≤ p then sent f n place first (p - n) else first p := by
  split
  · rename_i le
    unfold sent
    rw [← Nat.mod_eq_sub_mod le, Nat.div_eq_sub_div some le]
  · rename_i less
    rw [Nat.div_eq_of_lt (by omega), Nat.mod_eq_of_lt (by omega)]
    rfl

theorem sentIff (some : 0 < n) {want : Nat → α} {l : Nat} :
    (∀ p < l, sent f n place first p = want p) ↔ ∀ p < l, Agrees f n place first want p := by
  have step : ∀ p, (n ≤ p → sent f n place first (p - n) = want (p - n)) →
      (sent f n place first p = want p ↔ Agrees f n place first want p) := by
    intro p before
    unfold sent Agrees
    unfold held
    split
    · exact Iff.rfl
    · rw [heldBefore some]
      split
      · rename_i le
        rw [before le]
      · exact Iff.rfl
  constructor <;> intro all p
  · exact fun less => (step p fun le => all (p - n) (by omega)).mp (all p less)
  · induction p using Nat.strong_induction_on with
    | _ p ih => exact fun less => (step p fun le => ih (p - n) (by omega) (by omega)).mpr (all p less)

end OpSys.Reading
