import Mathlib.Algebra.BigOperators.Group.Finset.Piecewise
import Mathlib.Algebra.Order.BigOperators.Group.Finset
import OpSys.Kernel.Directories

/-! Directories as their callers see them: an entry is written in one place, and the others stay. -/
namespace OpSys.Fs
open Function OpSys.Bytes Finset

variable {f g : File} {k j i n off inum : Nat} {name : Name} {bs src : List UInt8}

theorem spliceAt (inside : off ≤ bs.length) (p : Nat) :
    chars (splice bs off src) p = if off ≤ p ∧ p < off + src.length then chars src (p - off) else chars bs p := by
  have front : (bs.take off).length = off := by simp [inside]
  unfold chars splice
  simp only [List.getD_eq_getElem?_getD, List.getElem?_append, List.length_append, front, List.getElem?_take, List.getElem?_drop]
  by_cases low : p < off
  · rw [if_pos (by omega), if_pos low, if_pos low, if_neg (by omega)]
  · by_cases high : p < off + src.length
    · rw [if_pos high, if_neg low, if_pos ⟨by omega, high⟩]
    · rw [if_neg high, if_neg (by omega)]
      congr 2
      omega

def File.enter (f : File) (k inum : Nat) (name : Name) : File := {f with bytes := splice f.bytes (16 * k) (dirent inum name)}

theorem direntLength (inum : Nat) (name : Name) : (dirent inum name).length = 16 := by simp [dirent, strncpyLength]

/-- Nothing is cut short. -/
def File.Whole (f : File) : Prop := f.bytes.length % 16 = 0

theorem slotsWhole (whole : f.Whole) : 16 * f.slots = f.bytes.length := by
  unfold File.Whole at whole
  unfold File.slots
  omega

section
variable (whole : f.Whole) (place : k ≤ f.slots)

include whole place

theorem enterByte (inum : Nat) (name : Name) {p : Nat} (small : p < 16) :
    (f.enter k inum name).row (16 * j + p) = if j = k then chars (dirent inum name) p else f.row (16 * j + p) := by
  have inside : 16 * k ≤ f.bytes.length := by
    have := slotsWhole whole
    omega
  unfold File.row File.enter
  rw [spliceAt inside, direntLength]
  by_cases here : j = k
  · rw [if_pos here, if_pos (by omega)]
    congr 1
    omega
  · rw [if_neg here, if_neg (by omega)]

theorem enterInum (fits : inum < 2 ^ 16) (name : Name) (j : Nat) : (f.enter k inum name).inum j = if j = k then inum else f.inum j := by
  unfold File.inum direntInum half
  rw [← Nat.mul_assoc, show 2 * 8 * j = 16 * j + 0 by omega, enterByte whole place inum name (by decide), Nat.add_zero, enterByte whole place inum name (by decide)]
  split
  · have low : chars (dirent inum name) 0 = byteAt inum 0 := rfl
    have high : chars (dirent inum name) 1 = byteAt inum 1 := rfl
    rw [low, high, UInt16.toNat_ofNat', byteAtNat, byteAtNat]
    omega
  · rfl

theorem enterName (inum : Nat) (name : Name) (j : Nat) : (f.enter k inum name).name j = if j = k then text (chars name) DIRSIZ 0 else f.name j := by
  have bytes : ∀ p < DIRSIZ, direntName (f.enter k inum name).row j p = if j = k then chars (strncpy (chars name) DIRSIZ 0) p else direntName f.row j p := by
    intro p less
    unfold direntName
    rw [Nat.add_assoc, enterByte whole place inum name (by unfold DIRSIZ at less; omega)]
    refine if_congr Iff.rfl ?_ rfl
    rw [Nat.add_comm 2 p]
    rfl
  unfold File.name
  split
  · rename_i here
    rw [← textCopy (chars name)]
    exact textCongr fun p less => by rw [Nat.zero_add, bytes p less, if_pos here]
  · rename_i other
    exact textCongr fun p less => by rw [Nat.zero_add, bytes p less, if_neg other]

theorem enterSlots (inum : Nat) (name : Name) : (f.enter k inum name).slots = max f.slots (k + 1) := by
  have length := slotsWhole whole
  unfold File.slots File.enter
  rw [spliceLength (by omega), direntLength]
  unfold File.slots at *
  omega

theorem enterWhole (inum : Nat) (name : Name) : (f.enter k inum name).Whole := by
  have length := slotsWhole whole
  unfold File.Whole File.enter at *
  rw [spliceLength (by omega), direntLength]
  omega

end

abbrev dot : Name := [46]
abbrev dotdot : Name := [46, 46]

/-- The directory `i` as it should be. -/
structure Folder (i : Nat) (f : File) : Prop where
  whole : f.Whole
  long : 2 ≤ f.slots
  self : f.inum 0 = i
  dot : f.name 0 = dot
  up : f.inum 1 ≠ 0
  dotdot : f.name 1 = dotdot
  distinct : ∀ k < f.slots, ∀ j < f.slots, f.inum k ≠ 0 → f.inum j ≠ 0 → f.name k = f.name j → k = j
  proper : ∀ k < f.slots, f.inum k ≠ 0 → Proper (f.name k)

theorem lookupSome (found : f.lookup name = some k) : k < f.slots ∧ f.inum k ≠ 0 ∧ f.name k = name := by
  obtain ⟨hit, less, _⟩ := List.find?_range_eq_some.mp found
  obtain ⟨some, same⟩ := of_decide_eq_true hit
  exact ⟨List.mem_range.mp less, some, same⟩

theorem lookupNone (none : f.lookup name = none) (less : k < f.slots) (some : f.inum k ≠ 0) : f.name k ≠ name := by
  have miss := List.find?_range_eq_none.mp none k less
  exact fun same => by simp [some, same] at miss

theorem Folder.lookup (h : Folder i f) (less : k < f.slots) (live : f.inum k ≠ 0) : f.lookup (f.name k) = some k := by
  cases found : f.lookup (f.name k) with
  | none => exact absurd rfl (lookupNone found less live)
  | some j =>
    obtain ⟨less', live', same⟩ := lookupSome found
    rw [h.distinct j less' k less live' live same]

/-- A new name goes to an empty place. -/
theorem Folder.enter (h : Folder i f) (place : k ≤ f.slots) (high : 2 ≤ k) (fits : inum < 2 ^ 16) (proper : Proper name) (fresh : f.lookup name = none) :
    Folder i (f.enter k inum name) := by
  have inums := enterInum h.whole place fits name
  have names := enterName h.whole place inum name
  have long := h.long
  have before : ∀ j, j < (f.enter k inum name).slots → j ≠ k → j < f.slots := fun j less other => by
    rw [enterSlots h.whole place] at less
    omega
  refine ⟨enterWhole h.whole place inum name, ?_, ?_, ?_, ?_, ?_, fun j less l less' some some' same => ?_, fun j less some => ?_⟩
  · rw [enterSlots h.whole place]
    omega
  · rw [inums, if_neg (by omega), h.self]
  · rw [names, if_neg (by omega), h.dot]
  · rw [inums, if_neg (by omega)]
    exact h.up
  · rw [names, if_neg (by omega), h.dotdot]
  · rw [inums] at some some'
    rw [names, names, textName proper] at same
    by_cases here : j = k
    · by_cases here' : l = k
      · rw [here, here']
      · rw [if_pos here, if_neg here'] at same
        rw [if_neg here'] at some'
        exact absurd same.symm (lookupNone fresh (before l less' here') some')
    · by_cases here' : l = k
      · rw [if_neg here, if_pos here'] at same
        rw [if_neg here] at some
        exact absurd same (lookupNone fresh (before j less here) some)
      · rw [if_neg here, if_neg here'] at same
        rw [if_neg here] at some
        rw [if_neg here'] at some'
        exact h.distinct j (before j less here) l (before l less' here') some some' same
  · rw [inums] at some
    rw [names]
    by_cases here : j = k
    · rw [if_pos here, textName proper]
      exact proper
    · rw [if_neg here] at some ⊢
      exact h.proper j (before j less here) some

theorem Folder.clear (h : Folder i f) (less : k < f.slots) (high : 2 ≤ k) : Folder i (f.enter k 0 []) := by
  have inums := enterInum h.whole less.le (show 0 < 2 ^ 16 by decide) []
  have names := enterName h.whole less.le 0 []
  have long := h.long
  have slots : (f.enter k 0 []).slots = f.slots := by
    rw [enterSlots h.whole less.le]
    omega
  refine ⟨enterWhole h.whole less.le 0 [], slots ▸ long, ?_, ?_, ?_, ?_, fun j less l less' some some' same => ?_, fun j less some => ?_⟩
  · rw [inums, if_neg (by omega), h.self]
  · rw [names, if_neg (by omega), h.dot]
  · rw [inums, if_neg (by omega)]
    exact h.up
  · rw [names, if_neg (by omega), h.dotdot]
  · rw [inums] at some some'
    rw [slots] at less less'
    have here : j ≠ k := fun here => some (if_pos here)
    have here' : l ≠ k := fun here => some' (if_pos here)
    rw [if_neg here] at some
    rw [if_neg here'] at some'
    rw [names, names, if_neg here, if_neg here'] at same
    exact h.distinct j less l less' some some' same
  · rw [inums] at some
    rw [slots] at less
    have here : j ≠ k := fun here => some (if_pos here)
    rw [if_neg here] at some
    rw [names, if_neg here]
    exact h.proper j less some

/-! ### Who names a file -/

/-- How often a directory names `i`. Its own name for itself does not count, and neither does
what is in a directory that has been removed. -/
def File.cites (f : File) (i : Nat) : Nat := if f.type = T_DIR ∧ f.nlink ≠ 0 then ((range f.slots).filter fun k => 1 ≤ k ∧ f.inum k = i).card else 0

theorem sumSwap {ks : Finset Nat} {p q : Nat → Nat} (mem : k ∈ ks) (same : ∀ j ∈ ks, j ≠ k → p j = q j) : ∑ j ∈ ks, p j + q k = ∑ j ∈ ks, q j + p k := by
  rw [← sum_erase_add ks p mem, ← sum_erase_add ks q mem, sum_congr rfl fun j inside => same j (mem_of_mem_erase inside) (ne_of_mem_erase inside)]
  exact Nat.add_right_comm _ _ _

theorem citesEnter (dir : f.type = T_DIR ∧ f.nlink ≠ 0) (whole : f.Whole) (place : k ≤ f.slots) (low : 1 ≤ k) (fits : inum < 2 ^ 16) (name : Name) (i : Nat) :
    (f.enter k inum name).cites i + (if k < f.slots ∧ f.inum k = i then 1 else 0) = f.cites i + if inum = i then 1 else 0 := by
  have inums := enterInum whole place fits name
  have dir' : (f.enter k inum name).type = T_DIR ∧ (f.enter k inum name).nlink ≠ 0 := dir
  unfold File.cites
  rw [if_pos dir, if_pos dir', enterSlots whole place, card_filter, card_filter]
  by_cases inside : k < f.slots
  · have swap := sumSwap (p := fun j => if 1 ≤ j ∧ (f.enter k inum name).inum j = i then 1 else 0) (q := fun j => if 1 ≤ j ∧ f.inum j = i then 1 else 0)
      (mem_range.mpr inside) fun j _ other => by rw [inums, if_neg other]
    rw [inums, if_pos rfl] at swap
    simpa [inside, low, Nat.max_eq_left inside] using swap
  · obtain rfl : k = f.slots := by omega
    have rest : ∑ j ∈ range f.slots, (if 1 ≤ j ∧ (f.enter f.slots inum name).inum j = i then 1 else 0) =
        ∑ j ∈ range f.slots, if 1 ≤ j ∧ f.inum j = i then 1 else 0 := sum_congr rfl fun j mem => by rw [inums, if_neg (mem_range.mp mem).ne]
    rw [Nat.max_eq_right (Nat.le_succ _), sum_range_succ, rest, inums, if_pos rfl]
    simp [low]

theorem citesLinks (major minor nlink : UInt16) (same : nlink = 0 ↔ f.nlink = 0) (i : Nat) :
    ({f with major := major, minor := minor, nlink := nlink} : File).cites i = f.cites i :=
  if_congr (and_congr_right fun _ => not_congr same) rfl rfl

theorem citesPlain (plain : ¬ (f.type = T_DIR ∧ f.nlink ≠ 0)) (i : Nat) : f.cites i = 0 := if_neg plain

theorem citesPos : 0 < f.cites i ↔ f.type = T_DIR ∧ f.nlink ≠ 0 ∧ ∃ k < f.slots, 1 ≤ k ∧ f.inum k = i := by
  unfold File.cites
  split
  · rename_i dir
    rw [card_pos]
    simp only [Finset.Nonempty, mem_filter, mem_range]
    exact ⟨fun h => ⟨dir.1, dir.2, h⟩, fun h => h.2.2⟩
  · rename_i plain
    exact iff_of_false (Nat.lt_irrefl 0) fun h => plain ⟨h.1, h.2.1⟩

theorem citesSlots (f : File) (i : Nat) : f.cites i ≤ f.slots := by
  unfold File.cites
  split
  · exact (card_filter_le _ _).trans (card_range _).le
  · exact Nat.zero_le _

def citesOf (f : Option File) (i : Nat) : Nat := (f.map fun f => f.cites i).getD 0

/-- In how many places the file `i` is named. -/
def links (sb : Superblock) (s : Nat → Option File) (i : Nat) : Nat := ∑ d ∈ range sb.ninodes, citesOf (s d) i

theorem linksUpdate {sb : Superblock} (less : j < sb.ninodes) (s : Nat → Option File) (o : Option File) (i : Nat) :
    links sb (update s j o) i + citesOf (s j) i = links sb s i + citesOf o i := by
  have swap := sumSwap (p := fun d => citesOf (update s j o d) i) (q := fun d => citesOf (s d) i) (mem_range.mpr less)
    fun d _ other => by rw [update_of_ne other]
  rwa [update_self] at swap

end OpSys.Fs
