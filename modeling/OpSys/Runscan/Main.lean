import Mathlib.Algebra.Ring.Int.Defs
import OpSys.Runscan.BlockMap
import OpSys.Runscan.Paths
import OpSys.Runscan.Scan

/-! The loop of `main` of `runscan.c`: every slot of the inode tables has a number, and
an inode whose first block begins like a JPEG file gives three files. -/
namespace OpSys.Runscan
open OpSys.Reading

/-- What uninitialised memory holds when an inode is recovered: the name from `malloc`,
the local variables of `name_search`, and for both copies `data_buf` and the word. -/
structure Garbage where
  name : Bytes
  search : Locals
  data : Bytes × Bytes
  word : Bytes × Bytes

structure Output where
  path : List UInt8
  data : List UInt8

def numGroup (super : SuperBlock) : Int := ((super.blocksCount + super.blocksPerGroup - 1) / super.blocksPerGroup).toInt

def isJpg (b : Bytes) : Bool := b 0 == 0xff && b 1 == 0xd8 && b 2 == 0xff && (b 3 == 0xe0 || b 3 == 0xe1 || b 3 == 0xe8)

def writeDetail (inode : Inode) : List UInt8 :=
  decimal inode.linksCount.toNat ++ ascii ['\n'] ++ decimal inode.size.toInt ++ ascii ['\n'] ++ decimal inode.uid.toNat

/-- The slot as `main` reads it: the first block goes to a buffer of its own, with a
block size of 1024. -/
def lookFile (img : Image) (super : SuperBlock) (table : Nat → Nat) (m : Locals) (slot : Nat × Nat) : Locals × Bool :=
  let (ngroup, idx) := slot
  let inode := readInode img (table ngroup) (idx + 1) super.inodeSize m.inode
  if sIsreg (inodeAt inode).mode then
    let buffer := fill img (blockOffset ((inodeAt inode).block 0) 1024) 1024 m.buffer
    (⟨inode, buffer⟩, isJpg buffer)
  else (⟨inode, m.buffer⟩, false)

def recover (img : Image) (super : SuperBlock) (table : Nat → Nat) (dir : CString) (g : Garbage) (inodeNo : Int) (inode : Inode) :
    Except Fault (List Output) := do
  let written ← match (nameSearch img (numGroup super) table super inodeNo g.search).2 with
    | some (.fault fault) => .error fault
    | some (.found name) => .ok (some name)
    | none => .ok none
  let p ← paths dir inodeNo written g.name
  let bs := blockSize super.logBlockSize
  return [⟨p.name, (dataCopy img inode bs g.word.1 (opened 0 g.data.1)).out⟩,
    ⟨p.nameAct, (dataCopy img inode bs g.word.2 (opened 0 g.data.2)).out⟩, ⟨p.nameDet, writeDetail inode⟩]

def filesOf (img : Image) (super : SuperBlock) (table : Nat → Nat) (dir : CString) (g : Garbage) (inodeNo : Int) (inode : Inode)
    (jpg : Bool) : Except Fault (List Output) := if jpg then recover img super table dir g inodeNo inode else .ok []

/-- `inode_no` is counted up for every slot. -/
def mainLoop (img : Image) (super : SuperBlock) (table : Nat → Nat) (dir : CString) (g : Int → Garbage) :
    List (Nat × Nat) → Int → Locals → Except Fault (List Output)
  | [], _, _ => .ok []
  | slot :: rest, inodeNo, m => do
    let (m, jpg) := lookFile img super table m slot
    let files ← filesOf img super table dir (g inodeNo) inodeNo (inodeAt m.inode) jpg
    if 2 ^ 31 ≤ inodeNo + 1 then .error .overflow
    else
      let later ← mainLoop img super table dir g rest (inodeNo + 1) m
      return files ++ later

def main (img : Image) (super : SuperBlock) (table : Nat → Nat) (dir : CString) (g : Int → Garbage) (m : Locals) :
    Except Fault (List Output) := mainLoop img super table dir g (mainSlots (numGroup super) super) 1 m

/-! ### Inode numbers -/

variable {img : Image} {super : SuperBlock} {table : Nat → Nat} {dir : CString} {g : Int → Garbage} {m : Locals}
  {groups each ngroup idx : Nat}

theorem slotsLength : (slots groups each).length = groups * each := by
  unfold slots
  rw [List.length_flatMap]
  simp

/-- The slots follow one another as ext2 numbers the inodes. -/
theorem slotsAt (group : ngroup < groups) (index : idx < each) : (slots groups each)[ngroup * each + idx]? = some (ngroup, idx) := by
  have whole : slots groups each = slots ngroup each ++ ((List.range (groups - ngroup)).flatMap fun n => (List.range each).map (ngroup + n, ·)) := by
    unfold slots
    rw [show groups = ngroup + (groups - ngroup) by omega, List.range_add, List.flatMap_append, List.flatMap_map]
    rw [Nat.add_sub_cancel_left]
  obtain ⟨more, same⟩ : ∃ more, groups - ngroup = more + 1 := ⟨groups - ngroup - 1, by omega⟩
  rw [whole, List.getElem?_append_right (by rw [slotsLength]; omega), slotsLength, Nat.add_sub_cancel_left, same,
    List.range_succ_eq_map, List.flatMap_cons, List.getElem?_append_left (by simpa using index)]
  simp [index]

/-- The JPEG files that `main` meets, each with its number. -/
def numbered (img : Image) (super : SuperBlock) (table : Nat → Nat) : List (Nat × Nat) → Int → Locals → List (Int × Inode)
  | [], _, _ => []
  | slot :: rest, inodeNo, m =>
    let (m, jpg) := lookFile img super table m slot
    (if jpg then [(inodeNo, inodeAt m.inode)] else []) ++ numbered img super table rest (inodeNo + 1) m

theorem mainLoopCons {slot : Nat × Nat} {rest : List (Nat × Nat)} {n : Int} {outs : List Output}
    (ok : mainLoop img super table dir g (slot :: rest) n m = .ok outs) :
    ∃ here later, outs = here ++ later ∧ mainLoop img super table dir g rest (n + 1) (lookFile img super table m slot).1 = .ok later ∧
      filesOf img super table dir (g n) n (inodeAt (lookFile img super table m slot).1.inode) (lookFile img super table m slot).2 = .ok here := by
  unfold mainLoop at ok
  generalize lookFile img super table m slot = r at *
  obtain ⟨m', jpg⟩ := r
  dsimp only at ok ⊢
  cases first : filesOf img super table dir (g n) n (inodeAt m'.inode) jpg with
  | error fault =>
    rw [first] at ok
    cases ok
  | ok here =>
    simp only [first, bind, Except.bind] at ok
    cases last : mainLoop img super table dir g rest (n + 1) m' with
    | error fault =>
      rw [last] at ok
      split at ok <;> cases ok
    | ok later =>
      rw [last] at ok
      split at ok <;> cases ok
      exact ⟨here, later, rfl, rfl, rfl⟩

/-- What `main` writes is what each of these files gives, in order. -/
theorem mainLoopFiles {is : List (Nat × Nat)} {n : Int} {outs : List Output} (ok : mainLoop img super table dir g is n m = .ok outs) :
    ∃ files, outs = files.flatten ∧
      List.Forall₂ (fun x out => recover img super table dir (g x.1) x.1 x.2 = .ok out) (numbered img super table is n m) files := by
  induction is generalizing n m outs with
  | nil =>
    cases ok
    exact ⟨[], rfl, .nil⟩
  | cons slot rest ih =>
    obtain ⟨here, later, rfl, last, first⟩ := mainLoopCons ok
    obtain ⟨files, rfl, all⟩ := ih last
    unfold numbered
    dsimp only
    split
    · rename_i jpg
      rw [jpg] at first
      exact ⟨here :: files, rfl, .cons first all⟩
    · rename_i other
      rw [Bool.not_eq_true] at other
      rw [other] at first
      cases first
      exact ⟨files, rfl, all⟩

end OpSys.Runscan
