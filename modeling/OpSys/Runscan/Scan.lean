import OpSys.Lib.Search
import OpSys.Runscan.NameSearch

/-! `name_search` of `runscan.c` as a whole: the slots of the inode tables that it looks
at, next to those of `main`. -/
namespace OpSys.Runscan
open OpSys.Reading OpSys.Search

/-- The local variables of `name_search` that are read into: an inode and the first
block of a directory. -/
structure Locals where
  inode : Bytes
  buffer : Bytes

/-- The product is taken as the integer it stands for. -/
def readInode (img : Image) (offset inodeNo : Nat) (inodeSize : U16) (inode : Bytes) : Bytes :=
  fill img (offset + (inodeNo - 1) * inodeSize.toNat) inodeBytes inode

/-- A slot is a group and an index in its table; `table` is `locate_inode_table`. The
inode number within the table is an `int`. -/
def lookSlot (img : Image) (super : SuperBlock) (table : Nat → Nat) (inodeNo : Int) (m : Locals) (slot : Nat × Nat) :
    Locals × Option Result :=
  let (ngroup, idx) := slot
  if 2 ^ 31 ≤ idx + 1 then (m, some (.fault .overflow))
  else
    let inode := readInode img (table ngroup) (idx + 1) super.inodeSize m.inode
    if sIsdir (inodeAt inode).mode then
      let bs := blockSize super.logBlockSize
      let block := (inodeAt inode).block 0
      (⟨inode, fill img (blockOffset block bs) bs.toNat m.buffer⟩, (searchBlock img bs block inodeNo m.buffer).2)
    else (⟨inode, m.buffer⟩, none)

def slots (groups each : Nat) : List (Nat × Nat) := (List.range groups).flatMap fun ngroup => (List.range each).map (ngroup, ·)

def mainSlots (numGroup : Int) (super : SuperBlock) : List (Nat × Nat) := slots numGroup.toNat super.inodesPerGroup.toInt.toNat

/-- The loops of `name_search`: the inner one has `<=`. -/
def searchSlots (numGroup : Int) (super : SuperBlock) : List (Nat × Nat) :=
  slots numGroup.toNat (super.inodesPerGroup.toInt + 1).toNat

def nameSearch (img : Image) (numGroup : Int) (table : Nat → Nat) (super : SuperBlock) (inodeNo : Int) (m : Locals) :
    List (Nat × Nat) × Option Result := search (lookSlot img super table inodeNo) (searchSlots numGroup super) m

def firstTable (super : SuperBlock) : List (Nat × Nat) := (List.range super.inodesPerGroup.toInt.toNat).map (0, ·)

variable {img : Image} {numGroup inodeNo : Int} {table : Nat → Nat} {super : SuperBlock} {m : Locals} {groups each : Nat}

theorem slotsSucc : slots (groups + 1) each =
    (List.range each).map (0, ·) ++ (List.range groups).flatMap fun ngroup => (List.range each).map (ngroup + 1, ·) := by
  unfold slots
  rw [List.range_succ_eq_map, List.flatMap_cons, List.flatMap_map]

theorem slotsEmpty : slots groups 0 = [] := List.flatMap_eq_nil_iff.mpr fun _ _ => rfl

theorem laterHead {idx : Nat} : ((List.range groups).flatMap fun ngroup => (List.range each).map (ngroup + 1, ·)).head? ≠ some (0, idx) := by
  intro head
  have mem := List.mem_of_mem_head? head
  simp at mem

theorem nameSearchSame : nameSearch img numGroup table super inodeNo m =
      search (lookSlot img super table inodeNo) (mainSlots numGroup super) m ↔
    numGroup ≤ 0 ∨ super.inodesPerGroup.toInt < 0 ∨ Ends (lookSlot img super table inodeNo) (firstTable super) m := by
  unfold nameSearch mainSlots searchSlots
  rcases Int.lt_or_le 0 numGroup with some | none
  · rcases Int.lt_or_le super.inodesPerGroup.toInt 0 with negative | natural
    · rw [Int.toNat_of_nonpos negative.le, Int.toNat_of_nonpos (show super.inodesPerGroup.toInt + 1 ≤ 0 by omega), slotsEmpty]
      exact iff_of_true rfl (.inr (.inl negative))
    · obtain ⟨groups, same⟩ : ∃ groups, numGroup.toNat = groups + 1 := ⟨numGroup.toNat - 1, by omega⟩
      rw [same, slotsSucc, slotsSucc, Int.toNat_add natural (by decide), show (1 : Int).toNat = 1 from rfl, List.range_succ,
        List.map_append, List.append_assoc, or_iff_right (by omega), or_iff_right (by omega)]
      exact searchParts fun head => laterHead head.symm
  · rw [Int.toNat_of_nonpos none]
    exact iff_of_true rfl (.inl none)

/-! ### A block behind the table -/

/-- The table has one slot, at 1024; behind it stands what looks like a directory whose
first block has an entry `x` for inode 1. -/
def strayDirectory : Image where
  size := 4096
  byte a := if a = 1153 then 0x41 else if a = 1192 then 2 else if a = 2048 then 1 else if a = 2054 then 1 else if a = 2056 then 120 else 0

theorem nameSearchStray : ∃ super : SuperBlock, ∃ m : Locals, super.inodesPerGroup = 1 ∧
    nameSearch strayDirectory 1 (fun _ => 1024) super 1 m = ([(0, 0), (0, 1)], some (.found [120])) ∧
    search (lookSlot strayDirectory super (fun _ => 1024) 1) (mainSlots 1 super) m = ([(0, 0)], none) := by
  refine ⟨⟨4, 0, 8192, 1, 128⟩, ⟨fun _ => 0, fun _ => 0⟩, rfl, ?_, ?_⟩ <;> decide +kernel

end OpSys.Runscan
