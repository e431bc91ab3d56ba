import Mathlib.Data.Nat.ModEq
import Mathlib.Logic.Function.Basic

/-! A queue in a circular array of `size` cells. What has been taken out and what has been
put in is counted by numbers that wrap at a multiple of `size`. -/
namespace OpSys.Ring
open Function

variable {α : Type*}

structure Sizes (size wrap : Nat) : Prop where
  some : 0 < size
  divides : size ∣ wrap
  less : size < wrap

/-- The items between the counter of what is out and that of what is in. -/
structure Holds (size wrap : Nat) (data : Nat → α) (r w : Nat) (xs : List α) : Prop where
  fits : xs.length ≤ size
  low : r < wrap
  ends : w = (r + xs.length) % wrap
  item : ∀ i x, xs[i]? = some x → data ((r + i) % size) = x

variable {size wrap r w i k : Nat} {data : Nat → α} {x : α} {xs ys : List α}

theorem Holds.none (sizes : Sizes size wrap) (data : Nat → α) : Holds size wrap data 0 0 [] :=
  ⟨Nat.zero_le _, Nat.lt_trans sizes.some sizes.less, (Nat.zero_mod _).symm, fun _ _ here => nomatch here⟩

/-- The cell of an item does not depend on whether its number has wrapped. -/
theorem cellOf (sizes : Sizes size wrap) (n : Nat) : n % wrap % size = n % size := Nat.mod_mod_of_dvd n sizes.divides

theorem cellAdd (sizes : Sizes size wrap) (n i : Nat) : (n % wrap + i) % size = (n + i) % size := by
  rw [Nat.add_mod, cellOf sizes, ← Nat.add_mod]

theorem apart (few : i < size) (less : k < i) (n : Nat) : (n + k) % size ≠ (n + i) % size := fun same => by
  have close : size ∣ n + i - (n + k) := (Nat.modEq_iff_dvd' (by omega)).mp same
  rw [Nat.add_sub_add_left] at close
  have far := Nat.le_of_dvd (by omega) close
  omega

theorem sumMod (low : r < wrap) (high : k < wrap) : (r + k) % wrap = if r + k < wrap then r + k else r + k - wrap := by
  split
  · rename_i less
    exact Nat.mod_eq_of_lt less
  · rename_i more
    rw [Nat.mod_eq_sub_mod (by omega), Nat.mod_eq_of_lt (by omega)]

namespace Holds

theorem short (h : Holds size wrap data r w xs) (sizes : Sizes size wrap) : xs.length < wrap := Nat.lt_of_le_of_lt h.fits sizes.less

theorem count (h : Holds size wrap data r w xs) (sizes : Sizes size wrap) : (w + wrap - r) % wrap = xs.length := by
  have low := h.low
  have short := h.short sizes
  have ends := h.ends
  rw [sumMod low short] at ends
  split at ends
  · rw [show w + wrap - r = xs.length + wrap by omega, Nat.add_mod_right, Nat.mod_eq_of_lt short]
  · rw [show w + wrap - r = xs.length by omega, Nat.mod_eq_of_lt short]

theorem empty (h : Holds size wrap data r w xs) (sizes : Sizes size wrap) : r = w ↔ xs = [] := by
  have low := h.low
  have short := h.short sizes
  have ends := h.ends
  rw [sumMod low short] at ends
  rw [← List.length_eq_zero_iff]
  split at ends <;> omega

theorem full (h : Holds size wrap data r w xs) (sizes : Sizes size wrap) : w = (r + size) % wrap ↔ xs.length = size := by
  have low := h.low
  have fits := h.fits
  have less := sizes.less
  have ends := h.ends
  rw [sumMod low (h.short sizes)] at ends
  rw [sumMod low less]
  split at ends <;> split <;> omega

theorem push (h : Holds size wrap data r w xs) (sizes : Sizes size wrap) (room : xs.length < size) (x : α) :
    Holds size wrap (update data (w % size) x) r ((w + 1) % wrap) (xs ++ [x]) := by
  have cell : w % size = (r + xs.length) % size := by rw [h.ends, cellOf sizes]
  refine ⟨by rw [List.length_append, List.length_singleton]; omega, h.low, ?_, fun i y here => ?_⟩
  · rw [h.ends, Nat.mod_add_mod, List.length_append, List.length_singleton, Nat.add_assoc]
  · rw [cell]
    rcases Nat.lt_or_ge i xs.length with old | new
    · rw [List.getElem?_append_left old] at here
      rw [update_of_ne (apart room old r)]
      exact h.item i y here
    · have last : i = xs.length := by
        have less := (List.getElem?_eq_some_iff.mp here).1
        rw [List.length_append, List.length_singleton] at less
        omega
      rw [last, List.getElem?_concat_length] at here
      rw [last, update_self]
      exact Option.some.inj here

theorem pop (h : Holds size wrap data r w (x :: xs)) (sizes : Sizes size wrap) :
    data (r % size) = x ∧ Holds size wrap data ((r + 1) % wrap) w xs := by
  have fits := h.fits
  rw [List.length_cons] at fits
  refine ⟨h.item 0 x rfl, by omega, Nat.mod_lt _ (Nat.zero_lt_of_lt h.low), ?_, fun i y here => ?_⟩
  · rw [h.ends, Nat.mod_add_mod, List.length_cons, Nat.add_assoc, Nat.add_comm 1]
  · rw [cellAdd sizes, Nat.add_assoc, Nat.add_comm 1]
    exact h.item (i + 1) y here

end Holds

end OpSys.Ring
