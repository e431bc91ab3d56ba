import Mathlib.Logic.Function.Basic
import Mathlib.Order.Interval.Finset.Nat

/-! Blocks that are given to keys, and the record of those that are taken. A key without a
block has block 0. -/
namespace OpSys.Allotment
open Function

variable {K : Type} {own own' : K → Nat} {taken taken' : Nat → Bool} {first size b : Nat} {k k' : K}

/-- The blocks from `first` on are for the keys. -/
structure Allotted (own : K → Nat) (taken : Nat → Bool) (first size : Nat) : Prop where
  apart : ∀ k k', own k = own k' → own k ≠ 0 → k = k'
  inside : ∀ k, own k ≠ 0 → first ≤ own k ∧ own k < size
  marked : ∀ b, first ≤ b → b < size → (taken b = true ↔ ∃ k, own k = b)
  below : ∀ b < first, taken b = true
  some : 0 < first ∧ first ≤ size

theorem Allotted.owned (h : Allotted own taken first size) (mine : own k ≠ 0) : taken (own k) = true :=
  (h.marked _ (h.inside k mine).1 (h.inside k mine).2).mpr ⟨k, rfl⟩

theorem Allotted.free (h : Allotted own taken first size) (free : taken b = false) : first ≤ b := by
  by_contra less
  rw [h.below b (Nat.not_le.mp less)] at free
  cases free

/-- A block that is not taken is nobody's. -/
theorem Allotted.other (h : Allotted own taken first size) (free : taken b = false) (k : K) (mine : own k ≠ 0) : own k ≠ b := by
  rintro rfl
  rw [h.owned mine] at free
  cases free

theorem Allotted.congr (h : Allotted own taken first size) (same : ∀ k, own' k = own k) (marks : ∀ b < size, taken' b = taken b) :
    Allotted own' taken' first size := by
  obtain rfl := funext same
  exact ⟨h.apart, h.inside, fun b low high => by rw [marks b high]; exact h.marked b low high,
    fun b less => by rw [marks b (Nat.lt_of_lt_of_le less h.some.2)]; exact h.below b less, h.some⟩

/-- As many blocks are taken as keys have one. -/
theorem Allotted.card (h : Allotted own taken first size) (ks : Finset K) (all : ∀ k, own k ≠ 0 → k ∈ ks) :
    (ks.filter fun k => own k ≠ 0).card = ((Finset.Ico first size).filter fun b => taken b = true).card := by
  refine Finset.card_nbij own (fun k mem => ?_) (fun k mem k' _ same => ?_) fun b mem => ?_
  · have some := (Finset.mem_filter.mp mem).2
    exact Finset.mem_filter.mpr ⟨Finset.mem_Ico.mpr (h.inside k some), h.owned some⟩
  · exact h.apart k k' same (Finset.mem_filter.mp mem).2
  · obtain ⟨range, mark⟩ := Finset.mem_filter.mp mem
    obtain ⟨low, high⟩ := Finset.mem_Ico.mp range
    obtain ⟨k, rfl⟩ := (h.marked b low high).mp mark
    have some : own k ≠ 0 := Nat.ne_of_gt (Nat.lt_of_lt_of_le h.some.1 low)
    exact ⟨k, Finset.mem_filter.mpr ⟨all k some, some⟩, rfl⟩

variable [DecidableEq K]

theorem Allotted.give (h : Allotted own taken first size) (free : taken b = false) (inside : b < size) (blank : own k = 0) :
    Allotted (update own k b) (update taken b true) first size := by
  have low := h.free free
  have pos : b ≠ 0 := Nat.ne_of_gt (Nat.lt_of_lt_of_le h.some.1 low)
  refine ⟨fun j j' same some => ?_, fun j some => ?_, fun c low' high => ?_, fun c less => ?_, h.some⟩
  · by_cases here : j = k
    · by_cases there : j' = k
      · exact here.trans there.symm
      · subst here
        rw [update_self, update_of_ne there] at same
        exact absurd same.symm (h.other free j' (same ▸ pos))
    · rw [update_of_ne here] at same some
      by_cases there : j' = k
      · subst there
        rw [update_self] at same
        exact absurd same (h.other free j some)
      · rw [update_of_ne there] at same
        exact h.apart j j' same some
  · by_cases here : j = k
    · subst here
      rw [update_self]
      exact ⟨low, inside⟩
    · rw [update_of_ne here] at some ⊢
      exact h.inside j some
  · by_cases here : c = b
    · subst here
      rw [update_self]
      exact iff_of_true rfl ⟨k, update_self ..⟩
    · rw [update_of_ne here, h.marked c low' high]
      refine exists_congr fun j => ?_
      by_cases same : j = k
      · subst same
        rw [update_self, blank]
        have := h.some.1
        exact iff_of_false (fun zero => by omega) fun bad => here bad.symm
      · rw [update_of_ne same]
  · rw [update_of_ne (by omega)]
    exact h.below c less

theorem Allotted.takeBack (h : Allotted own taken first size) (mine : own k ≠ 0) : Allotted (update own k 0) (update taken (own k) false) first size := by
  have range := h.inside k mine
  refine ⟨fun j j' same some => ?_, fun j some => ?_, fun c low high => ?_, fun c less => ?_, h.some⟩
  · by_cases here : j = k
    · subst here
      rw [update_self] at some
      exact absurd rfl some
    · rw [update_of_ne here] at same some
      by_cases there : j' = k
      · subst there
        rw [update_self] at same
        exact absurd same some
      · rw [update_of_ne there] at same
        exact h.apart j j' same some
  · by_cases here : j = k
    · subst here
      rw [update_self] at some
      exact absurd rfl some
    · rw [update_of_ne here] at some ⊢
      exact h.inside j some
  · by_cases here : c = own k
    · subst here
      rw [update_self]
      refine iff_of_false Bool.false_ne_true ?_
      rintro ⟨j, same⟩
      by_cases there : j = k
      · subst there
        rw [update_self] at same
        exact mine same.symm
      · rw [update_of_ne there] at same
        exact there (h.apart j k same (same ▸ mine))
    · rw [update_of_ne here, h.marked c low high]
      refine exists_congr fun j => ?_
      by_cases there : j = k
      · subst there
        rw [update_self]
        refine iff_of_false (fun bad => here bad.symm) ?_
        rintro rfl
        have := h.some.1
        omega
      · rw [update_of_ne there]
  · rw [update_of_ne (by omega)]
    exact h.below c less

end OpSys.Allotment
