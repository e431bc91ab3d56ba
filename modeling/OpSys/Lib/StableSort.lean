import Mathlib.Data.List.Basic
import Mathlib.Order.Lattice

/-! The stable sort of a list by a key. -/
namespace OpSys.StableSort

variable {α β κ : Type*} [LinearOrder κ] {key : α → κ} {xs ys zs : List α}

/-- `ys` holds what `xs` does, with keys that do not decrease, and with those of the same
key in the order in which they stand in `xs`. -/
structure Stable (key : α → κ) (xs ys : List α) : Prop where
  perm : ys.Perm xs
  sorted : ys.Pairwise fun a b => key a ≤ key b
  ties : ∀ k, (ys.filter fun a => key a = k) = xs.filter fun a => key a = k

def sort (key : α → κ) (xs : List α) : List α := xs.mergeSort fun a b => key a ≤ key b

theorem sortPerm (key : α → κ) (xs : List α) : (sort key xs).Perm xs := List.mergeSort_perm xs _

theorem sortLength (key : α → κ) (xs : List α) : (sort key xs).length = xs.length := (sortPerm key xs).length_eq

theorem keyTrans (a b c : α) (ab : decide (key a ≤ key b) = true) (bc : decide (key b ≤ key c) = true) : decide (key a ≤ key c) = true :=
  decide_eq_true (le_trans (of_decide_eq_true ab) (of_decide_eq_true bc))

theorem keyTotal (a b : α) : (decide (key a ≤ key b) || decide (key b ≤ key a)) = true := by
  simpa using le_total (key a) (key b)

theorem sortTies (key : α → κ) (xs : List α) (k : κ) : ((sort key xs).filter fun a => key a = k) = xs.filter fun a => key a = k := by
  have same : (xs.filter fun a => key a = k).Pairwise fun a b => decide (key a ≤ key b) = true := by
    refine List.pairwise_of_forall_mem_list fun a mem b mem' => ?_
    have left := of_decide_eq_true (List.mem_filter.mp mem).2
    have right := of_decide_eq_true (List.mem_filter.mp mem').2
    exact decide_eq_true (le_of_eq (left.trans right.symm))
  have sub : (xs.filter fun a => key a = k).Sublist (sort key xs) :=
    List.sublist_mergeSort keyTrans keyTotal same List.filter_sublist
  have kept := sub.filter fun a => key a = k
  rw [List.filter_filter] at kept
  simp only [Bool.and_self] at kept
  exact (kept.eq_of_length ((sortPerm key xs).filter _).length_eq.symm).symm

theorem sortStable (key : α → κ) (xs : List α) : Stable key xs (sort key xs) where
  perm := sortPerm key xs
  sorted := (List.pairwise_mergeSort keyTrans keyTotal xs).imp of_decide_eq_true
  ties := sortTies key xs

theorem leastHead {x y : α} (sorted : (x :: ys).Pairwise fun a b => key a ≤ key b) (mem : y ∈ x :: ys) : key x ≤ key y := by
  cases mem with
  | head => exact le_rfl
  | tail _ mem => exact List.rel_of_pairwise_cons sorted mem

theorem sortedUnique (left : xs.Pairwise fun a b => key a ≤ key b) (right : ys.Pairwise fun a b => key a ≤ key b)
    (ties : ∀ k, (xs.filter fun a => key a = k) = ys.filter fun a => key a = k) : xs = ys := by
  have mems : ∀ a, a ∈ xs ↔ a ∈ ys := fun a => by
    have same := congrArg (a ∈ ·) (ties (key a))
    simpa using same
  induction xs generalizing ys with
  | nil => exact (List.eq_nil_iff_forall_not_mem.mpr fun a mem => List.not_mem_nil ((mems a).mpr mem)).symm
  | cons x xs ih =>
    cases ys with
    | nil => exact absurd ((mems x).mp List.mem_cons_self) List.not_mem_nil
    | cons y ys =>
      have same : key x = key y := le_antisymm (leastHead left ((mems y).mpr List.mem_cons_self))
        (leastHead right ((mems x).mp List.mem_cons_self))
      have here := ties (key y)
      rw [List.filter_cons_of_pos (by simpa using same), List.filter_cons_of_pos (by simp)] at here
      have rest : ∀ k, (xs.filter fun a => key a = k) = ys.filter fun a => key a = k := fun k => by
        have both := ties k
        by_cases mine : key y = k
        · rw [List.filter_cons_of_pos (by simpa using same.trans mine), List.filter_cons_of_pos (by simpa using mine)] at both
          exact (List.cons.inj both).2
        · rw [List.filter_cons_of_neg (by simpa [same] using mine), List.filter_cons_of_neg (by simpa using mine)] at both
          exact both
      rw [(List.cons.inj here).1, ih left.of_cons right.of_cons rest fun a => by simpa using congrArg (a ∈ ·) (rest (key a))]

theorem sortSame (ties : ∀ k, (xs.filter fun a => key a = k) = ys.filter fun a => key a = k) : sort key xs = sort key ys :=
  sortedUnique (sortStable key xs).sorted (sortStable key ys).sorted fun k => by rw [sortTies, sortTies, ties]

theorem sortPieces (pieces : List (List α)) (rest : List α) :
    sort key ((pieces.map (sort key)).flatten ++ rest) = sort key (pieces.flatten ++ rest) := by
  refine sortSame fun k => ?_
  rw [List.filter_append, List.filter_append]
  congr 1
  induction pieces with
  | nil => rfl
  | cons piece pieces ih => rw [List.map_cons, List.flatten_cons, List.flatten_cons, List.filter_append, List.filter_append, sortTies, ih]

theorem sortMap (f : β → α) (xs : List β) : sort key (xs.map f) = (sort (key ∘ f) xs).map f :=
  (List.map_mergeSort (f := f) fun _ _ _ _ => rfl).symm

theorem sortShort (short : xs.length ≤ 1) : sort key xs = xs := by
  cases xs with
  | nil => exact List.mergeSort_nil
  | cons x xs =>
    cases xs with
    | nil => exact List.mergeSort_singleton x
    | cons y ys => simp at short

theorem sortHalves (long : 2 ≤ (ys ++ zs).length) (half : ys.length = ((ys ++ zs).length + 1) / 2) :
    sort key (ys ++ zs) = (sort key ys).merge (sort key zs) fun a b => key a ≤ key b := by
  unfold sort
  generalize whole : ys ++ zs = xs at *
  cases xs with
  | nil => simp at long
  | cons x xs =>
    cases xs with
    | nil => simp at long
    | cons y rest =>
      rw [List.mergeSort]
      simp only [List.MergeSort.Internal.splitInTwo_fst, List.MergeSort.Internal.splitInTwo_snd]
      rw [← whole] at half ⊢
      rw [List.take_left' half, List.drop_left' half]

end OpSys.StableSort
