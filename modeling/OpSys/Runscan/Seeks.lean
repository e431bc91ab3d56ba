import OpSys.Lib.Asking
import OpSys.Runscan.Main

/-! The offsets that `runscan.c` passes to `lseek`, as a product of 32 bits and as the
integer it stands for. What is read at one offset decides the next. -/
namespace OpSys.Runscan
open OpSys.Reading OpSys.Asking OpSys.Search
open OpSys.Asking.Asks hiding bind

/-- Word `index` of a block, where blocks have `size` bytes. -/
structure Target where
  size : U32
  block : U32
  index : Nat

namespace Target

def sought (t : Target) : Nat := (t.block * t.size + BitVec.ofNat 32 (4 * t.index)).toNat
def meant (t : Target) : Nat := t.block.toNat * t.size.toNat + 4 * t.index

/-- With the block size of the volume, whatever the caller takes for it. -/
def meantIn (bs : U32) (t : Target) : Nat := t.block.toNat * bs.toNat + 4 * t.index

theorem soughtFirst (bs b : U32) : sought ⟨bs, b, 0⟩ = blockOffset b bs := by
  unfold sought blockOffset
  rw [Nat.mul_zero]
  exact congrArg BitVec.toNat (BitVec.add_zero _)

theorem soughtWraps (t : Target) : t.sought = t.meant % 2 ^ 32 := by
  unfold sought meant
  rw [BitVec.toNat_add, BitVec.toNat_mul, BitVec.toNat_ofNat, ← Nat.add_mod]

theorem soughtIff (t : Target) : t.sought = t.meant ↔ t.meant < 2 ^ 32 := by
  rw [soughtWraps]
  exact ⟨fun same => same ▸ Nat.mod_lt _ (Nat.two_pow_pos 32), Nat.mod_eq_of_lt⟩

end Target

abbrev Seeks := Asks Target Nat

/-! ### `data_copy` -/

def directSeeks (inode : Inode) (bs : U32) : Seeks Unit :=
  let blocks := (inode.size / bs).toNat
  if 1 ≤ blocks then
    let needed := if 12 < blocks then 12 else blocks
    each ((List.range needed).map fun i => ⟨bs, inode.block i, 0⟩)
  else each [⟨bs, inode.block 0, 0⟩]

def indirectSeeks (img : Image) (inode : Inode) (bs : U32) : Seeks Unit :=
  if 12 < (inode.size / bs).toNat then do
    let a ← once ⟨bs, inode.block 12, 0⟩
    let indirBlock := fill img a 4 fun _ => 0
    each [⟨bs, le32 indirBlock 0, 0⟩]
  else return ()

def chaseSeeks (img : Image) (inode : Inode) (bs : U32) (indirBlock : Bytes) (cnt : Nat) : Seeks Bytes := do
  let a ← once ⟨bs, inode.block 13, cnt⟩
  let indirBlock := fill img a 4 indirBlock
  let a ← once ⟨bs, le32 indirBlock 0, 0⟩
  let indirBlock := fill img a 4 indirBlock
  each [⟨bs, le32 indirBlock 0, 0⟩]
  return indirBlock

def tableSeeks (img : Image) (inode : Inode) (bs : U32) (heap : Bytes) : Nat → Seeks Bytes
  | 0 => return heap
  | cnt + 1 => do
    let indirBlock ← tableSeeks img inode bs heap cnt
    chaseSeeks img inode bs indirBlock cnt

def doubleSeeks (img : Image) (inode : Inode) (bs : U32) (heap : Bytes) : Seeks Unit :=
  let blocks := (inode.size / bs).toNat
  if 268 < blocks then do
    let doubleInd := (blocks - 268) / 256
    let indirBlock ← tableSeeks img inode bs heap doubleInd
    let _ ← chaseSeeks img inode bs indirBlock doubleInd
    return ()
  else return ()

def copySeeks (img : Image) (inode : Inode) (bs : U32) (heap : Bytes) : Seeks Unit := do
  directSeeks inode bs
  indirectSeeks img inode bs
  doubleSeeks img inode bs heap

variable {img : Image} {inode : Inode} {bs : U32} {heap : Bytes} {c : Cursor UInt8}

theorem oneSeeks (n : Nat) : (c.copy img n).seeks = c.seeks := rfl

theorem copiesSeeks (n k : Nat) : (c.copies img n k).seeks = c.seeks := by
  induction k generalizing c with
  | zero => rfl
  | succ k ih => exact ih

theorem lastSeeks {last : Prop} [Decidable last] (n : Nat) : (if last then c.copy img n else c).seeks = c.seeks := by
  split <;> rfl

theorem directRanged (is : List Nat) : (is.foldl (fun c i => (c.lseek (blockOffset (inode.block i) bs)).copy img bs.toNat) c).seeks =
    c.seeks ++ is.map fun i => blockOffset (inode.block i) bs := by
  induction is generalizing c with
  | nil => exact (List.append_nil _).symm
  | cons i is ih => exact ih.trans (List.append_assoc c.seeks _ _)

theorem directSought : (copyDirect img inode bs c).seeks = c.seeks ++ (directSeeks inode bs).answers Target.sought := by
  unfold copyDirect directSeeks
  dsimp only
  split
  · rw [answersEach, List.map_map]
    have here : Target.sought ∘ (fun i => (⟨bs, inode.block i, 0⟩ : Target)) = fun i => blockOffset (inode.block i) bs :=
      funext fun i => Target.soughtFirst bs (inode.block i)
    rw [here, lastSeeks, directRanged]
  · rw [answersEach, List.map_singleton, Target.soughtFirst]
    rfl

theorem indirectSought : (copyIndirect img inode bs c).seeks = c.seeks ++ (indirectSeeks img inode bs).answers Target.sought := by
  unfold copyIndirect indirectSeeks
  dsimp only
  split
  · rw [answersBind, answersOnce, valueOnce, answersEach, List.map_singleton, Target.soughtFirst, Target.soughtFirst]
    rw [← List.append_assoc, lastSeeks, copiesSeeks]
    rfl
  · exact (List.append_nil _).symm

theorem chaseSought {indirBlock : Bytes} {cnt : Nat} :
    (chase img inode bs indirBlock cnt c).1 = (chaseSeeks img inode bs indirBlock cnt).value Target.sought ∧
    (chase img inode bs indirBlock cnt c).2.seeks = c.seeks ++ (chaseSeeks img inode bs indirBlock cnt).answers Target.sought := by
  unfold chase chaseSeeks
  simp only [valueBind, valueOnce, valuePure, answersBind, answersOnce, answersEach, answersPure, List.map_singleton, List.append_nil,
    Target.soughtFirst, ← List.append_assoc]
  exact ⟨rfl, rfl⟩

theorem tableSought {cnt : Nat} :
    (copyTables img inode bs heap c cnt).1 = (tableSeeks img inode bs heap cnt).value Target.sought ∧
    (copyTables img inode bs heap c cnt).2.seeks = c.seeks ++ (tableSeeks img inode bs heap cnt).answers Target.sought := by
  induction cnt with
  | zero => exact ⟨rfl, (List.append_nil _).symm⟩
  | succ cnt ih =>
    obtain ⟨word, seeks⟩ := ih
    unfold copyTables tableSeeks
    dsimp only
    rw [valueBind, answersBind, ← List.append_assoc, ← seeks, ← word]
    exact ⟨chaseSought.1, (copiesSeeks _ _).trans chaseSought.2⟩

theorem doubleSought : (copyDouble img inode bs heap c).seeks = c.seeks ++ (doubleSeeks img inode bs heap).answers Target.sought := by
  unfold copyDouble doubleSeeks
  dsimp only
  split
  · obtain ⟨word, seeks⟩ := @tableSought img inode bs heap c (((inode.size / bs).toNat - 268) / 256)
    rw [answersBind, answersBind, answersPure, List.append_nil, ← List.append_assoc, ← seeks, ← word, ← chaseSought.2]
    rw [oneSeeks, copiesSeeks]
  · exact (List.append_nil _).symm

theorem copySought : (dataCopy img inode bs heap c).seeks = c.seeks ++ (copySeeks img inode bs heap).answers Target.sought := by
  unfold dataCopy copySeeks
  rw [doubleSought, indirectSought, directSought, answersBind, answersBind, List.append_assoc, List.append_assoc]

/-! ### `name_search` -/

/-- The part that is done for a directory whose first block stands at `a`. -/
def searchAt (img : Image) (bs : U32) (a : Nat) (inodeNo : Int) (buffer : Bytes) : Option Result :=
  if bufferBytes < min bs.toNat (img.size - a) then some (.fault .outside)
  else (walk (fill img a bs.toNat buffer) inodeNo).2

def slotSeeks (img : Image) (super : SuperBlock) (table : Nat → Nat) (inodeNo : Int) (m : Locals) (slot : Nat × Nat) :
    Seeks (Locals × Option Result) :=
  let (ngroup, idx) := slot
  if 2 ^ 31 ≤ idx + 1 then return (m, some (.fault .overflow))
  else
    let inode := readInode img (table ngroup) (idx + 1) super.inodeSize m.inode
    if sIsdir (inodeAt inode).mode then do
      let bs := blockSize super.logBlockSize
      let a ← once ⟨bs, (inodeAt inode).block 0, 0⟩
      return (⟨inode, fill img a bs.toNat m.buffer⟩, searchAt img bs a inodeNo m.buffer)
    else return (⟨inode, m.buffer⟩, none)

def searchSeeks (img : Image) (super : SuperBlock) (table : Nat → Nat) (inodeNo : Int) :
    List (Nat × Nat) → Locals → Seeks (Option Result)
  | [], _ => return none
  | slot :: rest, m => do match ← slotSeeks img super table inodeNo m slot with
    | (_, some r) => return some r
    | (m, none) => searchSeeks img super table inodeNo rest m

def nameSeeks (img : Image) (numGroup : Int) (table : Nat → Nat) (super : SuperBlock) (inodeNo : Int) (m : Locals) :
    Seeks (Option Result) := searchSeeks img super table inodeNo (searchSlots numGroup super) m

variable {super : SuperBlock} {table : Nat → Nat} {inodeNo groups : Int} {m : Locals} {slot : Nat × Nat} {is : List (Nat × Nat)}
  {dir : CString} {g : Int → Garbage}

theorem slotSought : (slotSeeks img super table inodeNo m slot).value Target.sought = lookSlot img super table inodeNo m slot := by
  obtain ⟨ngroup, idx⟩ := slot
  unfold slotSeeks lookSlot
  dsimp only
  split
  · rfl
  · split
    · rw [valueBind, valueOnce, valuePure, Target.soughtFirst]
      refine congrArg (Prod.mk _) ?_
      unfold searchAt searchBlock
      dsimp only
      split <;> rfl
    · rfl

theorem searchSought : (searchSeeks img super table inodeNo is m).value Target.sought = (search (lookSlot img super table inodeNo) is m).2 := by
  induction is generalizing m with
  | nil => rfl
  | cons slot rest ih =>
    unfold searchSeeks search
    rw [valueBind, slotSought]
    generalize lookSlot img super table inodeNo m slot = r
    obtain ⟨m', _ | r⟩ := r
    · exact ih
    · rfl

theorem nameSought : (nameSeeks img groups table super inodeNo m).value Target.sought =
    (nameSearch img groups table super inodeNo m).2 := searchSought

/-! ### `main` -/

/-- The block size is the local variable of `main`. -/
def fileSeeks (img : Image) (super : SuperBlock) (table : Nat → Nat) (m : Locals) (slot : Nat × Nat) : Seeks (Locals × Bool) :=
  let (ngroup, idx) := slot
  let inode := readInode img (table ngroup) (idx + 1) super.inodeSize m.inode
  if sIsreg (inodeAt inode).mode then do
    let a ← once ⟨1024, (inodeAt inode).block 0, 0⟩
    let buffer := fill img a 1024 m.buffer
    return (⟨inode, buffer⟩, isJpg buffer)
  else return (⟨inode, m.buffer⟩, false)

def named (ends : Option Result) (dir : CString) (inodeNo : Int) (heap : Bytes) : Except Fault Paths :=
  match ends with
  | some (.fault fault) => .error fault
  | some (.found name) => paths dir inodeNo (some name) heap
  | none => paths dir inodeNo none heap

def recoverSeeks (img : Image) (super : SuperBlock) (table : Nat → Nat) (dir : CString) (g : Garbage) (inodeNo : Int) (inode : Inode) :
    Seeks (Except Fault Unit) := do
  match named (← nameSeeks img (numGroup super) table super inodeNo g.search) dir inodeNo g.name with
  | .error fault => return .error fault
  | .ok _ =>
    let bs := blockSize super.logBlockSize
    copySeeks img inode bs g.word.1
    copySeeks img inode bs g.word.2
    return .ok ()

def filesSeeks (img : Image) (super : SuperBlock) (table : Nat → Nat) (dir : CString) (g : Garbage) (inodeNo : Int) (inode : Inode)
    (jpg : Bool) : Seeks (Except Fault Unit) := if jpg then recoverSeeks img super table dir g inodeNo inode else return .ok ()

def loopSeeks (img : Image) (super : SuperBlock) (table : Nat → Nat) (dir : CString) (g : Int → Garbage) :
    List (Nat × Nat) → Int → Locals → Seeks (Except Fault Unit)
  | [], _, _ => return .ok ()
  | slot :: rest, inodeNo, m => do
    let (m, jpg) ← fileSeeks img super table m slot
    match ← filesSeeks img super table dir (g inodeNo) inodeNo (inodeAt m.inode) jpg with
    | .error fault => return .error fault
    | .ok () =>
      if 2 ^ 31 ≤ inodeNo + 1 then return .error .overflow
      else loopSeeks img super table dir g rest (inodeNo + 1) m

def mainSeeks (img : Image) (super : SuperBlock) (table : Nat → Nat) (dir : CString) (g : Int → Garbage) (m : Locals) :
    Seeks (Except Fault Unit) := loopSeeks img super table dir g (mainSlots (numGroup super) super) 1 m

theorem fileSought : (fileSeeks img super table m slot).value Target.sought = lookFile img super table m slot := by
  obtain ⟨ngroup, idx⟩ := slot
  unfold fileSeeks lookFile
  dsimp only
  split
  · rw [valueBind, valueOnce, valuePure, Target.soughtFirst]
  · rfl

def outputs (img : Image) (super : SuperBlock) (g : Garbage) (inode : Inode) (p : Paths) : List Output :=
  let bs := blockSize super.logBlockSize
  [⟨p.name, (dataCopy img inode bs g.word.1 (opened 0 g.data.1)).out⟩, ⟨p.nameAct, (dataCopy img inode bs g.word.2 (opened 0 g.data.2)).out⟩,
    ⟨p.nameDet, writeDetail inode⟩]

theorem recoverNamed {g : Garbage} : recover img super table dir g inodeNo inode =
    (named (nameSearch img (numGroup super) table super inodeNo g.search).2 dir inodeNo g.name).map (outputs img super g inode) := by
  unfold recover named
  obtain _ | name | fault := (nameSearch img (numGroup super) table super inodeNo g.search).2
  · dsimp only [bind, Except.bind]
    cases paths dir inodeNo none g.name <;> rfl
  · dsimp only [bind, Except.bind]
    cases paths dir inodeNo (some name) g.name <;> rfl
  · rfl

theorem recoverSought {g : Garbage} : (recoverSeeks img super table dir g inodeNo inode).value Target.sought =
    (recover img super table dir g inodeNo inode).map fun _ => () := by
  unfold recoverSeeks
  rw [valueBind, nameSought, recoverNamed]
  cases named (nameSearch img (numGroup super) table super inodeNo g.search).2 dir inodeNo g.name with
  | error fault => rfl
  | ok p =>
    dsimp only
    rw [valueBind, valueBind]
    rfl

theorem filesSought {g : Garbage} {jpg : Bool} : (filesSeeks img super table dir g inodeNo inode jpg).value Target.sought =
    (filesOf img super table dir g inodeNo inode jpg).map fun _ => () := by
  unfold filesSeeks filesOf
  split
  · exact recoverSought
  · rfl

theorem loopSought {n : Int} : (loopSeeks img super table dir g is n m).value Target.sought =
    (mainLoop img super table dir g is n m).map fun _ => () := by
  induction is generalizing n m with
  | nil => rfl
  | cons slot rest ih =>
    unfold loopSeeks mainLoop
    rw [valueBind, fileSought]
    generalize lookFile img super table m slot = r
    obtain ⟨m', jpg⟩ := r
    dsimp only
    rw [valueBind, filesSought]
    cases filesOf img super table dir (g n) n (inodeAt m'.inode) jpg with
    | error fault => rfl
    | ok files =>
      dsimp only [Except.map, bind, Except.bind]
      split
      · rfl
      · rw [ih]
        cases mainLoop img super table dir g rest (n + 1) m' <;> rfl

theorem mainSought : (mainSeeks img super table dir g m).value Target.sought = (main img super table dir g m).map fun _ => () := loopSought

/-! ### Sizes -/

theorem chaseWithin {indirBlock : Bytes} {cnt : Nat} : (chaseSeeks img inode bs indirBlock cnt).Within (·.size = bs) := by
  unfold chaseSeeks
  refine Within.bind (withinOnce rfl) fun _ => Within.bind (withinOnce rfl) fun _ => Within.bind (withinEach ?_) fun _ => trivial
  exact List.forall_mem_singleton.mpr rfl

theorem tableWithin {cnt : Nat} : (tableSeeks img inode bs heap cnt).Within (·.size = bs) := by
  induction cnt with
  | zero => trivial
  | succ cnt ih => exact ih.bind fun _ => chaseWithin

theorem copyWithin : (copySeeks img inode bs heap).Within (·.size = bs) := by
  unfold copySeeks
  refine Within.bind ?_ fun _ => Within.bind ?_ fun _ => ?_
  · unfold directSeeks
    dsimp only
    split
    · refine withinEach fun t mem => ?_
      obtain ⟨i, _, rfl⟩ := List.mem_map.mp mem
      rfl
    · exact withinEach (List.forall_mem_singleton.mpr rfl)
  · unfold indirectSeeks
    split
    · exact Within.bind (withinOnce rfl) fun _ => withinEach (List.forall_mem_singleton.mpr rfl)
    · trivial
  · unfold doubleSeeks
    dsimp only
    split
    · exact tableWithin.bind fun _ => chaseWithin.bind fun _ => trivial
    · trivial

theorem nameWithin : (nameSeeks img groups table super inodeNo m).Within (·.size = blockSize super.logBlockSize) := by
  unfold nameSeeks
  generalize searchSlots groups super = is
  induction is generalizing m with
  | nil => trivial
  | cons slot rest ih =>
    unfold searchSeeks
    refine Within.bind ?_ fun (m', r) => ?_
    · obtain ⟨ngroup, idx⟩ := slot
      unfold slotSeeks
      dsimp only
      split
      · trivial
      · split
        · exact Within.bind (withinOnce rfl) fun _ => trivial
        · trivial
    · cases r with
      | none => exact ih
      | some r => trivial

/-- Only `main` takes 1024 for the size of a block. -/
theorem mainWithin : (mainSeeks img super table dir g m).Within fun t => t.size = 1024 ∨ t.size = blockSize super.logBlockSize := by
  unfold mainSeeks
  generalize mainSlots (numGroup super) super = is
  generalize (1 : Int) = n
  induction is generalizing n m with
  | nil => trivial
  | cons slot rest ih =>
    unfold loopSeeks
    refine Within.bind ?_ fun (m', jpg) => Within.bind ?_ fun r => ?_
    · obtain ⟨ngroup, idx⟩ := slot
      unfold fileSeeks
      dsimp only
      split
      · exact Within.bind (withinOnce (.inl rfl)) fun _ => trivial
      · trivial
    · unfold filesSeeks
      split
      · unfold recoverSeeks
        refine Within.bind (nameWithin.imp fun _ => .inr) fun ends => ?_
        cases named ends dir n (g n).name with
        | error fault => trivial
        | ok p => exact Within.bind (copyWithin.imp fun _ => .inr) fun _ => Within.bind (copyWithin.imp fun _ => .inr) fun _ => trivial
      · trivial
    · cases r with
      | error fault => trivial
      | ok _ =>
        dsimp only
        split
        · trivial
        · exact ih (n + 1)

/-! ### Offsets that wrap -/

theorem Target.meantInIff {t : Target} (size : t.size = 1024 ∨ t.size = bs) (least : 1024 ≤ bs.toNat) :
    t.sought = t.meantIn bs ↔ t.meantIn bs < 2 ^ 32 ∧ (t.block = 0 ∨ t.size = bs) := by
  have wraps := t.soughtWraps
  have first : t.size = bs → t.meant = t.meantIn bs := fun same => by
    unfold meant meantIn
    rw [same]
  have zero : t.block = 0 → t.meant = t.meantIn bs := fun none => by
    have nought : t.block.toNat = 0 := congrArg BitVec.toNat none
    unfold meant meantIn
    rw [nought, Nat.zero_mul, Nat.zero_mul]
  constructor
  · intro same
    have few : t.sought < 2 ^ 32 := wraps ▸ Nat.mod_lt _ (Nat.two_pow_pos 32)
    refine ⟨same ▸ few, size.elim (fun own => ?_) .inr⟩
    -- the product is no more than that with 1024, which is no more than that with `bs`
    have le : t.meantIn bs ≤ t.meant := same ▸ wraps ▸ Nat.mod_le _ _
    unfold meantIn meant at le
    have products : t.block.toNat * bs.toNat ≤ t.block.toNat * t.size.toNat := by omega
    rw [own] at products
    rcases Nat.eq_zero_or_pos t.block.toNat with none | some
    · exact .inl (BitVec.eq_of_toNat_eq none)
    · exact .inr (own.trans (BitVec.eq_of_toNat_eq (least.antisymm (Nat.le_of_mul_le_mul_left products some))))
  · rintro ⟨fits, none | same⟩
    · rw [wraps, zero none, Nat.mod_eq_of_lt fits]
    · rw [wraps, first same, Nat.mod_eq_of_lt fits]

/-- Every word of every block below `count` has its offset if and only if the volume
ends at 4 GiB or before. -/
theorem volumeIff {k : Nat} (fits : k < 22) (count : U32) :
    (∀ b : U32, b.toNat < count.toNat → ∀ i, 4 * i < (blockSize k).toNat →
      Target.sought ⟨blockSize k, b, i⟩ = Target.meant ⟨blockSize k, b, i⟩) ↔ count.toNat * (blockSize k).toNat ≤ 2 ^ 32 := by
  obtain ⟨each, whole⟩ : ∃ each, each * (blockSize k).toNat = 2 ^ 32 := by
    refine ⟨2 ^ (22 - k), ?_⟩
    rw [blockSizeNat fits, Nat.mul_left_comm, ← Nat.pow_add, Nat.sub_add_cancel fits.le]
    rfl
  have some : 0 < (blockSize k).toNat := by
    rw [blockSizeNat fits]
    exact Nat.mul_pos (by decide) (Nat.two_pow_pos k)
  have least : count.toNat * (blockSize k).toNat ≤ 2 ^ 32 ↔ count.toNat ≤ each := by
    rw [← whole, Nat.mul_le_mul_right_iff some]
  simp only [Target.soughtIff]
  rw [least]
  constructor
  · intro all
    by_contra more
    have less : each < 2 ^ 32 := by have := count.isLt; omega
    have last := all (BitVec.ofNat 32 each) (by rw [BitVec.toNat_ofNat, Nat.mod_eq_of_lt less]; omega) 0 some
    unfold Target.meant at last
    rw [BitVec.toNat_ofNat, Nat.mod_eq_of_lt less, whole] at last
    omega
  · intro few b below i within
    have : (b.toNat + 1) * (blockSize k).toNat ≤ each * (blockSize k).toNat := Nat.mul_le_mul_right _ (by omega)
    rw [Nat.succ_mul, whole] at this
    unfold Target.meant
    dsimp only
    omega

theorem seeksExactly (img : Image) (super : SuperBlock) (inode : Inode) (heap : Bytes) (c : Cursor UInt8) (groups inodeNo : Int)
    (table : Nat → Nat) (dir : CString) (g : Int → Garbage) (m : Locals) (fits : super.logBlockSize < 22) :
    ((dataCopy img inode (blockSize super.logBlockSize) heap c).seeks =
        c.seeks ++ (copySeeks img inode (blockSize super.logBlockSize) heap).answers Target.meant ↔
      ∀ t ∈ (copySeeks img inode (blockSize super.logBlockSize) heap).asked Target.meant, t.meant < 2 ^ 32) ∧
    ((nameSeeks img groups table super inodeNo m).answers Target.sought = (nameSeeks img groups table super inodeNo m).answers Target.meant ↔
      ∀ t ∈ (nameSeeks img groups table super inodeNo m).asked Target.meant, t.meant < 2 ^ 32) ∧
    ((mainSeeks img super table dir g m).answers Target.sought = (mainSeeks img super table dir g m).answers Target.meant ↔
      ∀ t ∈ (mainSeeks img super table dir g m).asked Target.meant, t.meant < 2 ^ 32) ∧
    ((mainSeeks img super table dir g m).answers Target.sought =
        (mainSeeks img super table dir g m).answers (Target.meantIn (blockSize super.logBlockSize)) ↔
      ∀ t ∈ (mainSeeks img super table dir g m).asked (Target.meantIn (blockSize super.logBlockSize)),
        t.meantIn (blockSize super.logBlockSize) < 2 ^ 32 ∧ (t.block = 0 ∨ t.size = blockSize super.logBlockSize)) ∧
    ((∀ b : U32, b.toNat < super.blocksCount.toNat → ∀ i, 4 * i < (blockSize super.logBlockSize).toNat →
        Target.sought ⟨blockSize super.logBlockSize, b, i⟩ = Target.meant ⟨blockSize super.logBlockSize, b, i⟩) ↔
      super.blocksCount.toNat * (blockSize super.logBlockSize).toNat ≤ 2 ^ 32) := by
  have least : 1024 ≤ (blockSize super.logBlockSize).toNat := by
    rw [blockSizeNat fits]
    exact Nat.le_mul_of_pos_right 1024 (Nat.two_pow_pos _)
  refine ⟨?_, ?_, ?_, ?_, volumeIff fits _⟩
  · rw [copySought, List.append_cancel_left_eq, answersIff]
    exact forall₂_congr fun t _ => t.soughtIff
  · rw [answersIff]
    exact forall₂_congr fun t _ => t.soughtIff
  · rw [answersIff]
    exact forall₂_congr fun t _ => t.soughtIff
  · rw [answersIff]
    exact forall₂_congr fun t mem => Target.meantInIff (mainWithin.asked t mem) least

/-! ### An image of more than 4 GiB -/

/-- Inode 1 is a file, the one behind the table a directory, and both begin with the
block at 4 GiB. -/
def farImage : Image where
  size := 2 ^ 32 + 1024
  byte a := if a = 1025 then 0x80 else if a = 1153 then 0x41 else if a = 1066 ∨ a = 1194 then 0x40 else 0

def farSuper : SuperBlock := ⟨0x400001, 0, 0x400001, 1, 128⟩

def noGarbage : Garbage := ⟨fun _ => 0, ⟨fun _ => 0, fun _ => 0⟩, (fun _ => 0, fun _ => 0), (fun _ => 0, fun _ => 0)⟩

theorem seeksExactlyNear : (dataCopy eightBlocks (twoBlocks 2500 6 7) (blockSize 0) (fun _ => 0) (opened 0 fun _ => 0)).seeks = [6144, 7168] := by
  have all := seeksExactly eightBlocks ⟨8, 0, 8192, 1, 128⟩ (twoBlocks 2500 6 7) (fun _ => 0) (opened 0 fun _ => 0) 1 1 (fun _ => 1024) ⟨[], nofun⟩
    (fun _ => noGarbage) noGarbage.search (by decide)
  exact (all.1.mpr (by decide +kernel)).trans (by decide +kernel)

theorem farWraps : (0x400000 : U32).toNat < farSuper.blocksCount.toNat ∧
    (∀ img heap pos data, (dataCopy img (twoBlocks 512 0x400000 0) (blockSize 0) heap (opened pos data)).seeks = [0] ∧
      (copySeeks img (twoBlocks 512 0x400000 0) (blockSize 0) heap).answers Target.meant = [2 ^ 32]) ∧
    (nameSeeks farImage 1 (fun _ => 1024) farSuper 1 noGarbage.search).answers Target.sought = [0] ∧
    (nameSeeks farImage 1 (fun _ => 1024) farSuper 1 noGarbage.search).answers Target.meant = [2 ^ 32] ∧
    (mainSeeks farImage farSuper (fun _ => 1024) ⟨[], nofun⟩ (fun _ => noGarbage) noGarbage.search).answers Target.sought = [0] ∧
    (mainSeeks farImage farSuper (fun _ => 1024) ⟨[], nofun⟩ (fun _ => noGarbage) noGarbage.search).answers Target.meant = [2 ^ 32] :=
  ⟨by decide, fun _ _ _ _ => ⟨rfl, rfl⟩, by decide +kernel, by decide +kernel, by decide +kernel, by decide +kernel⟩

end OpSys.Runscan
