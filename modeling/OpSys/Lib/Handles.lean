import Mathlib.Algebra.Order.BigOperators.Group.Finset
import Mathlib.Data.Fintype.BigOperators

/-! Counted handles on ends. A handle counts the places from which it is held. An end is
open as long as a handle leads to it or a holder has still to shut it. -/
namespace OpSys.Handles
open Function Finset

variable {K F E : Type*}

structure Books (K F E : Type*) where
  share : K → F → ℕ
  ref : F → ℕ
  leads : F → Option E
  owes : K → E → ℕ
  live : E → ℕ

theorem sumExcept [Fintype K] [DecidableEq K] {g h : K → ℕ} (k : K) (same : ∀ j, j ≠ k → g j = h j) : (∑ j, g j) + h k = (∑ j, h j) + g k := by
  have rest : ∑ j ∈ univ.erase k, g j = ∑ j ∈ univ.erase k, h j := sum_congr rfl fun j mem => same j (ne_of_mem_erase mem)
  rw [← add_sum_erase univ g (mem_univ k), ← add_sum_erase univ h (mem_univ k), rest]
  omega

/-- In how many places `x` stands. -/
def tally [Fintype K] [DecidableEq F] (g : K → Option F) (x : F) : ℕ := ∑ k, if g k = some x then 1 else 0

section
variable [Fintype K] [DecidableEq K] [DecidableEq F] {g : K → Option F} {k : K} {x : F}

theorem tallyUpdate (g : K → Option F) (k : K) (v : Option F) (x : F) :
    tally (update g k v) x + (if g k = some x then 1 else 0) = tally g x + if v = some x then 1 else 0 := by
  have moved := sumExcept (g := fun j => if update g k v j = some x then 1 else 0) (h := fun j => if g j = some x then 1 else 0) k
    fun j other => by rw [update_of_ne other]
  rwa [update_self] at moved

omit [DecidableEq K] in
theorem tallyPos : 0 < tally g x ↔ ∃ k, g k = some x := by
  unfold tally
  rw [Finset.sum_pos_iff]
  constructor
  · rintro ⟨k, _, pos⟩
    refine ⟨k, ?_⟩
    by_contra other
    rw [if_neg other] at pos
    exact absurd pos (Nat.lt_irrefl 0)
  · rintro ⟨k, here⟩
    exact ⟨k, mem_univ k, by rw [if_pos here]; exact Nat.one_pos⟩

end

variable [Fintype K] [Fintype F] [DecidableEq E] {b b' : Books K F E} {j k : K} {f g : F} {e : E}

/-- The count of a handle is the number of its holders. -/
def Counted (b : Books K F E) : Prop := ∀ f, b.ref f = ∑ k, b.share k f

/-- An end is open once for each handle that leads to it and each debt. -/
def Settled (b : Books K F E) : Prop := ∀ e, b.live e = tally b.leads e + ∑ k, b.owes k e

omit [Fintype F] [DecidableEq E] in
theorem Counted.shareLe (h : Counted b) (k : K) (f : F) : b.share k f ≤ b.ref f := by
  rw [h f]
  exact single_le_sum (f := (b.share · f)) (fun _ _ => Nat.zero_le _) (mem_univ k)

omit [Fintype F] [DecidableEq E] in
theorem Counted.held (h : Counted b) (some : 0 < b.share k f) : 0 < b.ref f := some.trans_le (h.shareLe k f)

omit [Fintype F] [DecidableEq E] in
omit [Fintype F] [DecidableEq E] in
theorem Counted.holder (h : Counted b) (some : 0 < b.ref f) : ∃ k, 0 < b.share k f := by
  rw [h f, Finset.sum_pos_iff] at some
  obtain ⟨k, _, pos⟩ := some
  exact ⟨k, pos⟩

omit [Fintype F] [DecidableEq E] in
/-- A handle with a single place has a single holder. -/
theorem Counted.alone [DecidableEq K] (h : Counted b) (one : b.ref f ≤ 1) (mine : 0 < b.share k f) (other : j ≠ k) : b.share j f = 0 := by
  by_contra some
  have two : b.share j f + b.share k f ≤ ∑ k, b.share k f := by
    rw [← add_sum_erase univ (b.share · f) (mem_univ k), Nat.add_comm]
    exact Nat.add_le_add_left (single_le_sum (f := (b.share · f)) (fun _ _ => Nat.zero_le _) (mem_erase.mpr ⟨other, mem_univ j⟩)) _
  rw [← h f] at two
  omega

omit [Fintype F] [DecidableEq E] in
theorem Counted.move [DecidableEq K] (h : Counted b) (k : K) (others : ∀ j, j ≠ k → ∀ f, b'.share j f = b.share j f)
    (here : ∀ f, b'.ref f + b.share k f = b.ref f + b'.share k f) : Counted b' := fun f => by
  have sum := sumExcept (g := (b'.share · f)) (h := (b.share · f)) k fun j other => others j other f
  have same := here f
  rw [h f] at same
  omega

omit [Fintype F] [DecidableEq E] in
theorem Counted.same (h : Counted b) (ref : b'.ref = b.ref) (share : ∀ k f, b'.share k f = b.share k f) : Counted b' := fun f => by
  rw [ref, sum_congr rfl fun k _ => share k f]
  exact h f

theorem Settled.leads [DecidableEq F] (h : Settled b) (here : b.leads f = some e) : 0 < b.live e := by
  have pos : 0 < tally b.leads e := tallyPos.mpr ⟨f, here⟩
  rw [h e]
  omega

theorem Settled.owed (h : Settled b) (here : 0 < b.owes k e) : 0 < b.live e := by
  have pos : 0 < ∑ k, b.owes k e := Finset.sum_pos_iff.mpr ⟨k, mem_univ k, here⟩
  rw [h e]
  omega

/-- Whoever keeps an end open. -/
theorem Settled.keeper [DecidableEq F] (h : Settled b) (open' : 0 < b.live e) : (∃ f, b.leads f = some e) ∨ ∃ k, 0 < b.owes k e := by
  rw [h e, Nat.add_pos_iff_pos_or_pos, tallyPos, Finset.sum_pos_iff] at open'
  refine open'.imp_right ?_
  rintro ⟨k, _, pos⟩
  exact ⟨k, pos⟩

theorem Settled.move [DecidableEq K] (h : Settled b) (k : K) (others : ∀ j, j ≠ k → ∀ e, b'.owes j e = b.owes j e)
    (here : ∀ e, b'.live e + tally b.leads e + b.owes k e = b.live e + tally b'.leads e + b'.owes k e) : Settled b' := fun e => by
  have sum := sumExcept (g := (b'.owes · e)) (h := (b.owes · e)) k fun j other => others j other e
  have same := here e
  rw [h e] at same
  omega

theorem Settled.same (h : Settled b) (leads : b'.leads = b.leads) (live : b'.live = b.live) (owes : ∀ k e, b'.owes k e = b.owes k e) : Settled b' := fun e => by
  rw [live, leads, sum_congr rfl fun k _ => owes k e]
  exact h e

end OpSys.Handles
