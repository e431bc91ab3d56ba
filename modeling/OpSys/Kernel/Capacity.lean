import OpSys.Kernel.Truncate
import Mathlib.Algebra.BigOperators.Fin
import Mathlib.Algebra.Order.BigOperators.Group.Finset

/-! How many blocks the files need, and that a block is missing only when there are not as many. -/
namespace OpSys.Fs
open Function OpSys.Blocks OpSys.Bytes OpSys.Allotment Finset

variable {sb : Superblock} {σ τ : Nat → Block} {t : Nat → Inode} {ip jp : Inode} {i j s n : Nat} {f : File}

def blocksFor (n : Nat) : Nat := (n + (BSIZE - 1)) / BSIZE + if NDIRECT * BSIZE < n then 1 else 0

/-- The blocks for all files together. -/
def demand (sb : Superblock) (s : Nat → Option File) : Nat := ∑ i ∈ range sb.ninodes, ((s i).map fun f => blocksFor f.bytes.length).getD 0

def capacity (sb : Superblock) : Nat := sb.size - sb.first

instance (n s : Nat) : Decidable (Needs n s) := by unfold Needs; infer_instance

theorem needsCard (fits : n ≤ MAXFILE * BSIZE) : ((range (MAXFILE + 1)).filter (Needs n)).card = blocksFor n := by
  have data : (range MAXFILE).filter (Needs n) = range ((n + (BSIZE - 1)) / BSIZE) := by
    ext s
    rw [mem_filter, mem_range, mem_range, Needs]
    constructor
    · rintro ⟨less, needs⟩
      rw [if_neg (Nat.ne_of_lt less)] at needs
      unfold BSIZE at *
      omega
    · intro less
      have inside : s < MAXFILE := by
        unfold BSIZE MAXFILE at *
        omega
      refine ⟨inside, ?_⟩
      rw [if_neg (Nat.ne_of_lt inside)]
      unfold BSIZE at *
      omega
  rw [range_add_one, filter_insert, data, blocksFor]
  by_cases table : NDIRECT * BSIZE < n
  · have needs : Needs n MAXFILE := (if_pos rfl).mpr table
    rw [if_pos needs, if_pos table, card_insert_of_notMem, card_range]
    rw [mem_range]
    unfold BSIZE MAXFILE at *
    omega
  · have not : ¬ Needs n MAXFILE := fun needs => table ((if_pos rfl).mp needs)
    rw [if_neg not, if_neg table, card_range, Nat.add_zero]

def count (σ : Nat → Block) (ip : Inode) : Nat := ((range (MAXFILE + 1)).filter fun s => ip.block σ s ≠ 0).card

theorem countSized (h : Sized σ ip) : count σ ip = blocksFor ip.size := by
  rw [← needsCard h.fits, count]
  exact congrArg card (filter_congr fun s mem => h.mapped s (Nat.le_of_lt_succ (mem_range.mp mem)))

theorem usedCard (h : Layout sb σ t) :
    ∑ i ∈ range sb.ninodes, (if InUse sb t i then count σ (t i) else 0) = ((Ico sb.first sb.size).filter fun b => taken sb σ b = true).card := by
  rw [← h.allotted.card (range sb.ninodes ×ˢ range (MAXFILE + 1)) fun k some => ?_, card_filter, sum_product]
  · refine sum_congr rfl fun i _ => ?_
    rw [count, card_filter]
    unfold holds
    dsimp only
    split
    · rfl
    · exact (sum_eq_zero fun s _ => if_neg fun bad => bad rfl).symm
  · obtain ⟨i, s⟩ := k
    unfold holds at some
    split at some
    · rename_i use
      exact mem_product.mpr ⟨mem_range.mpr use.2.1, mem_range.mpr (Nat.lt_succ_of_le (blockEnd some))⟩
    · exact absurd rfl some

theorem demandAt (h : WellFormed sb σ) (i : Nat) :
    ((files sb σ i).map fun f => blocksFor f.bytes.length).getD 0 = if InUse sb (inodes σ) i then count σ (inodes σ i) else 0 := by
  unfold files
  split
  · rename_i use
    rw [countSized (h.sized i use), Option.map_some, Option.getD_some, bytesLength]
  · rfl

/-- Every block that is taken is one that some file needs. -/
theorem demandTaken (h : WellFormed sb σ) : demand sb (files sb σ) = ((Ico sb.first sb.size).filter fun b => taken sb σ b = true).card :=
  (sum_congr rfl fun i _ => demandAt h i).trans (usedCard h.layout)

theorem demandFits (h : WellFormed sb σ) : demand sb (files sb σ) ≤ capacity sb := by
  rw [demandTaken h, capacity, ← Nat.card_Ico]
  exact card_filter_le _ _

theorem countSpent (ext : Extends sb (Needs n) t i σ ip τ jp) (sized : Sized σ ip) (le : ip.size ≤ n) (fits : n ≤ MAXFILE * BSIZE) (needs : Needs n s) (none : jp.block τ s = 0)
    (place : s ≤ MAXFILE) : count τ jp < blocksFor n := by
  rw [← needsCard fits, count]
  refine card_lt_card ((ssubset_iff_of_subset fun s mem => ?_).mpr ⟨s, mem_filter.mpr ⟨mem_range.mpr (Nat.lt_succ_of_le place), needs⟩, fun mem => ?_⟩)
  · obtain ⟨range', some⟩ := mem_filter.mp mem
    refine mem_filter.mpr ⟨range', ?_⟩
    rcases ext.added s some with before | needs
    · exact sizedNeeds sized le before
    · exact needs
  · exact (mem_filter.mp mem).2 none

/-- When a block is missing for a file of `n` bytes, the files with that one do not fit. -/
theorem spentExceeds (h : WellFormed sb σ) (use : InUse sb (inodes σ) i) (spent : Spent sb (Needs n) (inodes σ) i σ (inodes σ i)) (le : (inodes σ i).size ≤ n)
    (fits : n ≤ MAXFILE * BSIZE) (length : f.bytes.length = n) : capacity sb < demand sb (update (files sb σ) i (some f)) := by
  obtain ⟨τ, jp, s, ext, full, needs, none⟩ := spent
  have place : s ≤ MAXFILE := by
    by_contra past
    unfold Needs at needs
    rw [if_neg (by omega)] at needs
    unfold MAXFILE BSIZE at *
    omega
  have self : update (inodes σ) i (inodes σ i) = inodes σ := update_eq_self ..
  have use' := ext.use (by rwa [self])
  have all : capacity sb = ∑ j ∈ range sb.ninodes, if InUse sb (update (inodes σ) i jp) j then count τ (update (inodes σ) i jp j) else 0 := by
    rw [usedCard ext.layout, capacity, ← Nat.card_Ico, filter_true_of_mem fun b mem => full b (mem_Ico.mp mem).2]
  rw [all, demand]
  have mine : (if InUse sb (update (inodes σ) i jp) i then count τ (update (inodes σ) i jp i) else 0) <
      ((update (files sb σ) i (some f) i).map fun f => blocksFor f.bytes.length).getD 0 := by
    rw [if_pos use', update_self, update_self, Option.map_some, Option.getD_some, length]
    exact countSpent ext (h.sized i use) le fits needs none place
  refine sum_lt_sum (fun j _ => ?_) ⟨i, mem_range.mpr use.2.1, mine⟩
  by_cases here : j = i
  · rw [here]
    exact mine.le
  · rw [update_of_ne here, update_of_ne here, demandAt h]
    refine le_of_eq (if_ctx_congr ?_ (fun use'' => ?_) fun _ => rfl)
    · unfold InUse
      rw [update_of_ne here]
    · have same : ∀ s, (inodes σ j).block τ s = (inodes σ j).block σ s := blockSame fun some => ext.others j here use'' MAXFILE some
      unfold count
      simp only [same]

end OpSys.Fs
