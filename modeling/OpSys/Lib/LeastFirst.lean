import Mathlib.Algebra.BigOperators.Group.Finset.Basic
import Mathlib.Algebra.Order.BigOperators.Group.Finset
import Mathlib.Algebra.Order.Group.Unbundled.Int
import Mathlib.Order.Defs.LinearOrder

/-! Serving whoever has the least pass, and adding a stride to the pass of the
one that is served. Two that are always there never get further apart than one
stride, and nobody waits longer than it takes those ahead to overtake. -/
namespace OpSys.LeastFirst
open Finset

variable {ι : Type*} [LinearOrder ι] {pass pass' stride : ι → Int} {S : Finset ι} {i j k : ι} {G : Int}

/-- `j` is served before `i`; the order of names decides between equals. -/
def Ahead (pass : ι → Int) (j i : ι) : Prop := pass j < pass i ∨ pass j = pass i ∧ j < i

instance (pass : ι → Int) (j i : ι) : Decidable (Ahead pass j i) := inferInstanceAs (Decidable (_ ∨ _))

structure Serves (S : Finset ι) (stride pass : ι → Int) (k : ι) (pass' : ι → Int) : Prop where
  inside : k ∈ S
  least : ∀ j ∈ S, j ≠ k → Ahead pass k j
  moved : pass' k = pass k + stride k
  same : ∀ j ∈ S, j ≠ k → pass' j = pass j

theorem Serves.le (h : Serves S stride pass k pass') (mem : j ∈ S) : pass k ≤ pass j := by
  by_cases same : j = k
  · rw [same]
  · rcases h.least j mem same with less | ⟨equal, _⟩ <;> omega

theorem Serves.bound (h : Serves S stride pass k pass') (forward : 0 ≤ stride j) (first : i ∈ S) (second : j ∈ S) (some : 0 ≤ G)
    (before : pass i ≤ pass j + stride i + G) : pass' i ≤ pass' j + stride i + G := by
  have low := h.le second
  by_cases same : i = k
  · subst i
    by_cases both : j = k
    · rw [both]
      have := h.moved
      by_cases zero : 0 ≤ stride k
      · omega
      · rw [both] at forward
        omega
    · rw [h.moved, h.same j second both]
      omega
  · rw [h.same i first same]
    by_cases both : j = k
    · rw [both, h.moved]
      rw [both] at before forward
      omega
    · rw [h.same j second both]
      exact before

/-- How often those ahead of `i` can still be served before it. -/
def wait (S : Finset ι) (stride pass : ι → Int) (i : ι) : Nat :=
  ∑ j ∈ S, if Ahead pass j i then ((pass i - pass j) / stride j).toNat + 1 else 0

def Moving (S : Finset ι) (stride pass : ι → Int) (i : ι) : Prop := ∀ j ∈ S, Ahead pass j i → 0 < stride j

theorem Serves.moving (h : Serves S stride pass k pass') (mem : i ∈ S) (other : k ≠ i)
    (moving : Moving S stride pass i) : Moving S stride pass' i := by
  intro j inside ahead
  refine moving j inside ?_
  unfold Ahead at ahead ⊢
  rw [h.same i mem other.symm] at ahead
  by_cases same : j = k
  · subst j
    exact h.least i mem other.symm
  · rwa [h.same j inside same] at ahead

theorem Serves.wait (h : Serves S stride pass k pass') (mem : i ∈ S) (other : k ≠ i) (moving : Moving S stride pass i) :
    LeastFirst.wait S stride pass' i < LeastFirst.wait S stride pass i := by
  have ahead := h.least i mem other.symm
  have step := moving k h.inside ahead
  have fixed := h.same i mem other.symm
  unfold LeastFirst.wait
  refine sum_lt_sum (fun j inside => ?_) ⟨k, h.inside, ?_⟩
  · by_cases same : j = k
    · subst j
      rw [if_pos ahead, fixed, h.moved]
      split
      · have gap : (pass i - (pass k + stride k)) / stride k ≤ (pass i - pass k) / stride k :=
          Int.ediv_le_ediv step (by omega)
        omega
      · omega
    · have place : Ahead pass' j i ↔ Ahead pass j i := by
        unfold Ahead
        rw [fixed, h.same j inside same]
      rw [if_congr place rfl rfl, fixed, h.same j inside same]
  · rw [if_pos ahead, fixed, h.moved]
    split
    · rename_i still
      have gap : (pass i - pass k) / stride k = (pass i - (pass k + stride k)) / stride k + 1 := by
        rw [show pass i - pass k = (pass i - (pass k + stride k)) + 1 * stride k by omega, Int.add_mul_ediv_right _ _ (by omega)]
      have room : 0 ≤ (pass i - (pass k + stride k)) / stride k := by
        refine Int.ediv_nonneg ?_ (by omega)
        unfold Ahead at still
        rw [h.moved, fixed] at still
        omega
      omega
    · omega

theorem Serves.blocked (h : Serves S stride pass k pass') (mem : i ∈ S) (inside : j ∈ S) (other : j ≠ i) (still : stride j = 0)
    (ahead : Ahead pass j i) : k ≠ i ∧ Ahead pass' j i := by
  have away : k ≠ i := by
    rintro rfl
    have behind := h.least j inside other
    unfold Ahead at ahead behind
    rcases ahead with less | ⟨equal, less⟩ <;> rcases behind with less' | ⟨_, less'⟩ <;> first | omega | exact absurd less less'.asymm
  refine ⟨away, ?_⟩
  have place : pass' j = pass j := by
    by_cases same : j = k
    · subst j
      rw [h.moved, still, add_zero]
    · exact h.same j inside same
  unfold Ahead at ahead ⊢
  rwa [place, h.same i mem away.symm]

end OpSys.LeastFirst
