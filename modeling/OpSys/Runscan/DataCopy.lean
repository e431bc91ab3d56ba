import OpSys.Runscan.Ext2

/-! `data_copy` of `runscan.c`: the blocks of a file in three regions, each found by its
own pointers and the blocks behind the first of a run by where the last read ended. -/
namespace OpSys.Runscan
open OpSys.Reading

variable {img : Image} {inode : Inode} {bs : U32} {heap : Bytes} {c : Cursor UInt8}

def copyDirect (img : Image) (inode : Inode) (bs : U32) (c : Cursor UInt8) : Cursor UInt8 :=
  let lastBlock := (inode.size % bs).toNat
  let blocks := (inode.size / bs).toNat
  if 1 ≤ blocks then
    let needed := if 12 < blocks then 12 else blocks
    let c := (List.range needed).foldl (fun c i => (c.lseek (blockOffset (inode.block i) bs)).copy img bs.toNat) c
    if needed < 12 then c.copy img lastBlock else c
  else (c.lseek (blockOffset (inode.block 0) bs)).copy img lastBlock

/-- `indir_block` is 0 when the word is read into it. -/
def copyIndirect (img : Image) (inode : Inode) (bs : U32) (c : Cursor UInt8) : Cursor UInt8 :=
  let lastBlock := (inode.size % bs).toNat
  let blocks := (inode.size / bs).toNat
  if 12 < blocks then
    let needed := if 256 < blocks - 12 then 256 else blocks - 12
    let c := c.lseek (blockOffset (inode.block 12) bs)
    let indirBlock := fill img c.pos 4 fun _ => 0
    let c := (c.skip img 4).lseek (blockOffset (le32 indirBlock 0) bs)
    let c := c.copies img bs.toNat needed
    if needed < 256 then c.copy img lastBlock else c
  else c

/-- From entry `cnt` of the table of tables to the first block of the table it names;
`indirBlock` is one word of `malloc`. -/
def chase (img : Image) (inode : Inode) (bs : U32) (indirBlock : Bytes) (cnt : Nat) (c : Cursor UInt8) : Bytes × Cursor UInt8 :=
  let c := c.lseek (inode.block 13 * bs + BitVec.ofNat 32 (4 * cnt)).toNat
  let indirBlock := fill img c.pos 4 indirBlock
  let c := (c.skip img 4).lseek (blockOffset (le32 indirBlock 0) bs)
  let indirBlock := fill img c.pos 4 indirBlock
  (indirBlock, (c.skip img 4).lseek (blockOffset (le32 indirBlock 0) bs))

def copyTables (img : Image) (inode : Inode) (bs : U32) (heap : Bytes) (c : Cursor UInt8) : Nat → Bytes × Cursor UInt8
  | 0 => (heap, c)
  | cnt + 1 =>
    let (indirBlock, c) := copyTables img inode bs heap c cnt
    let (indirBlock, c) := chase img inode bs indirBlock cnt c
    (indirBlock, c.copies img bs.toNat 256)

def copyDouble (img : Image) (inode : Inode) (bs : U32) (heap : Bytes) (c : Cursor UInt8) : Cursor UInt8 :=
  let lastBlock := (inode.size % bs).toNat
  let blocks := (inode.size / bs).toNat
  if 268 < blocks then
    let doubleInd := (blocks - 268) / 256
    let blocksLeft := (blocks - 268) % 256
    let (indirBlock, c) := copyTables img inode bs heap c doubleInd
    let (_, c) := chase img inode bs indirBlock doubleInd c
    (c.copies img bs.toNat blocksLeft).copy img lastBlock
  else c

/-- `heap` is what `malloc` leaves in the word for the pointers. -/
def dataCopy (img : Image) (inode : Inode) (bs : U32) (heap : Bytes) (c : Cursor UInt8) : Cursor UInt8 :=
  copyDouble img inode bs heap (copyIndirect img inode bs (copyDirect img inode bs c))

/-! ### Where each block is read -/

def pointer (img : Image) (inode : Inode) (bs : U32) (heap : Bytes) : Nat → Bytes
  | 0 => heap
  | cnt + 1 =>
    let table := fill img (inode.block 13 * bs + BitVec.ofNat 32 (4 * cnt)).toNat 4 (pointer img inode bs heap cnt)
    fill img (blockOffset (le32 table 0) bs) 4 table

def place (img : Image) (inode : Inode) (bs : U32) (heap : Bytes) (n : Nat) : Nat :=
  if n < 12 then
    if n < (inode.size / bs).toNat ∨ n = 0 then blockOffset (inode.block n) bs
    -- no seek before the last piece: it is read on from the last whole block
    else blockOffset (inode.block (n - 1)) bs + bs.toNat
  else if n < 268 then
    blockOffset (le32 (fill img (blockOffset (inode.block 12) bs) 4 fun _ => 0) 0) bs + (n - 12) * bs.toNat
  else
    blockOffset (le32 (pointer img inode bs heap ((n - 268) / 256 + 1)) 0) bs + (n - 268) % 256 * bs.toNat

/-- How many bytes are written: the last piece of a file that ends with the direct
blocks or with the table of pointers is left out. -/
def written (size bs : U32) : Nat :=
  let blocks := (size / bs).toNat
  if blocks = 12 ∨ blocks = 268 then blocks * bs.toNat else blocks * bs.toNat + (size % bs).toNat

theorem chasePos {w : Bytes} (cnt : Nat) : (chase img inode bs w cnt c).2.pos = blockOffset (le32 (chase img inode bs w cnt c).1 0) bs := rfl

/-! ### The blocks in order -/

variable {k : Nat}

def Blocks (img : Image) (inode : Inode) (bs : U32) (heap first : Bytes) (k : Nat) (c : Cursor UInt8) : Prop :=
  Copied img bs.toNat (place img inode bs heap) first k c

def Whole (img : Image) (inode : Inode) (bs : U32) (heap first : Bytes) (c : Cursor UInt8) : Prop :=
  c.out = (List.range ((inode.size / bs).toNat * bs.toNat + (inode.size % bs).toNat)).map
    (sent img bs.toNat (place img inode bs heap) first)

theorem lastShort (some : 0 < bs.toNat) : (inode.size % bs).toNat ≤ bs.toNat := by
  rw [BitVec.toNat_umod]
  exact (Nat.mod_lt _ some).le

theorem Blocks.whole {first : Bytes} (some : 0 < bs.toNat) (h : Blocks img inode bs heap first (inode.size / bs).toNat c)
    (stands : Stands img (place img inode bs heap (inode.size / bs).toNat) c) :
    Whole img inode bs heap first (c.copy img (inode.size % bs).toNat) := h.tail stands (lastShort some)

theorem directRun {first : Bytes} (start : Blocks img inode bs heap first 0 c) (few : k ≤ 12) (le : k ≤ (inode.size / bs).toNat) :
    let c := (List.range k).foldl (fun c i => (c.lseek (blockOffset (inode.block i) bs)).copy img bs.toNat) c
    Blocks img inode bs heap first k c ∧ (1 ≤ k → Stands img (blockOffset (inode.block (k - 1)) bs + bs.toNat) c) := by
  induction k with
  | zero => exact ⟨start, fun bad => by omega⟩
  | succ k ih =>
    have before := (ih (by omega) (by omega)).1
    rw [List.range_succ, List.foldl_append]
    have here : place img inode bs heap k = blockOffset (inode.block k) bs := by
      unfold place
      rw [if_pos (by omega), if_pos (.inl (by omega))]
    exact ⟨Copied.copy before.lseek (here ▸ lseekStands), fun _ => lseekStands.copy⟩

theorem directBlocks {first : Bytes} (start : Blocks img inode bs heap first 0 c) (many : 12 ≤ (inode.size / bs).toNat) :
    Blocks img inode bs heap first 12 (copyDirect img inode bs c) := by
  have run := directRun start le_rfl many
  unfold copyDirect
  dsimp only at run ⊢
  have twelve : (if 12 < (inode.size / bs).toNat then 12 else (inode.size / bs).toNat) = 12 := by
    split <;> omega
  rw [if_pos (by omega), twelve, if_neg (by omega)]
  exact run.1

theorem directWhole {first : Bytes} (some : 0 < bs.toNat) (start : Blocks img inode bs heap first 0 c)
    (few : (inode.size / bs).toNat < 12) : Whole img inode bs heap first (copyDirect img inode bs c) := by
  unfold copyDirect
  dsimp only
  split
  · rename_i one
    have run := directRun start few.le le_rfl
    dsimp only at run
    have all : (if 12 < (inode.size / bs).toNat then 12 else (inode.size / bs).toNat) = (inode.size / bs).toNat := if_neg (by omega)
    rw [all, if_pos few]
    refine run.1.whole some ?_
    have here : place img inode bs heap (inode.size / bs).toNat = blockOffset (inode.block ((inode.size / bs).toNat - 1)) bs + bs.toNat := by
      unfold place
      rw [if_pos few, if_neg (by omega)]
    rw [here]
    exact run.2 one
  · rename_i none
    have zero : (inode.size / bs).toNat = 0 := by omega
    have here : place img inode bs heap (inode.size / bs).toNat = blockOffset (inode.block 0) bs := by
      unfold place
      rw [if_pos few, if_pos (.inr zero), zero]
    refine Blocks.whole some ?_ (here ▸ lseekStands)
    rw [zero]
    exact start.lseek

theorem indirectRun {first : Bytes} (before : Blocks img inode bs heap first 12 c) (few : k ≤ 256) :
    let indirBlock := fill img (blockOffset (inode.block 12) bs) 4 fun _ => 0
    let c := (((c.lseek (blockOffset (inode.block 12) bs)).skip img 4).lseek (blockOffset (le32 indirBlock 0) bs)).copies img bs.toNat k
    Blocks img inode bs heap first (12 + k) c ∧ (k < 256 → Stands img (place img inode bs heap (12 + k)) c) := by
  have run : ∀ j < 256, place img inode bs heap (12 + j) =
      blockOffset (le32 (fill img (blockOffset (inode.block 12) bs) 4 fun _ => 0) 0) bs + j * bs.toNat := by
    intro j less
    unfold place
    rw [if_neg (by omega), if_pos (by omega), show 12 + j - 12 = j by omega]
  dsimp only
  obtain ⟨blocks, stands⟩ := Copied.copies (m := k) before.lseek.skip.lseek lseekStands fun j less => run j (by omega)
  exact ⟨blocks, fun less => run k less ▸ stands⟩

theorem indirectBlocks {first : Bytes} (before : Blocks img inode bs heap first 12 c) (many : 268 ≤ (inode.size / bs).toNat) :
    Blocks img inode bs heap first 268 (copyIndirect img inode bs c) := by
  unfold copyIndirect
  dsimp only
  have all : (if 256 < (inode.size / bs).toNat - 12 then 256 else (inode.size / bs).toNat - 12) = 256 := by
    split <;> omega
  rw [if_pos (by omega), all, if_neg (by omega)]
  exact (indirectRun before le_rfl).1

theorem indirectWhole {first : Bytes} (some : 0 < bs.toNat) (before : Blocks img inode bs heap first 12 c)
    (more : 12 < (inode.size / bs).toNat) (few : (inode.size / bs).toNat < 268) :
    Whole img inode bs heap first (copyIndirect img inode bs c) := by
  unfold copyIndirect
  dsimp only
  have all : (if 256 < (inode.size / bs).toNat - 12 then 256 else (inode.size / bs).toNat - 12) = (inode.size / bs).toNat - 12 :=
    if_neg (by omega)
  have less : (inode.size / bs).toNat - 12 < 256 := by omega
  rw [if_pos more, all, if_pos less]
  obtain ⟨blocks, stands⟩ := indirectRun (k := (inode.size / bs).toNat - 12) before less.le
  rw [Nat.add_sub_cancel' more.le] at blocks stands
  exact blocks.whole some (stands less)

theorem doubleRun {first : Bytes} {cnt : Nat} (before : Blocks img inode bs heap first (268 + 256 * cnt) c) (few : k ≤ 256) :
    let c := (chase img inode bs (pointer img inode bs heap cnt) cnt c).2.copies img bs.toNat k
    Blocks img inode bs heap first (268 + 256 * cnt + k) c ∧
      (k < 256 → Stands img (place img inode bs heap (268 + 256 * cnt + k)) c) := by
  have run : ∀ j < 256, place img inode bs heap (268 + 256 * cnt + j) =
      blockOffset (le32 (pointer img inode bs heap (cnt + 1)) 0) bs + j * bs.toNat := by
    intro j less
    unfold place
    rw [if_neg (by omega), if_neg (by omega), show (268 + 256 * cnt + j - 268) / 256 = cnt by omega,
      show (268 + 256 * cnt + j - 268) % 256 = j by omega]
  have arrived : Blocks img inode bs heap first (268 + 256 * cnt) (chase img inode bs (pointer img inode bs heap cnt) cnt c).2 :=
    before.lseek.skip.lseek.skip.lseek
  dsimp only
  obtain ⟨blocks, stands⟩ := Copied.copies (m := k) arrived (.inl (chasePos cnt)) fun j less => run j (by omega)
  exact ⟨blocks, fun less => run k less ▸ stands⟩

theorem tablesRun {first : Bytes} (before : Blocks img inode bs heap first 268 c) (cnt : Nat) :
    (copyTables img inode bs heap c cnt).1 = pointer img inode bs heap cnt ∧
      Blocks img inode bs heap first (268 + 256 * cnt) (copyTables img inode bs heap c cnt).2 := by
  induction cnt with
  | zero => exact ⟨rfl, before⟩
  | succ cnt ih =>
    unfold copyTables
    dsimp only
    rw [ih.1]
    refine ⟨rfl, ?_⟩
    rw [show 268 + 256 * (cnt + 1) = 268 + 256 * cnt + 256 by omega]
    exact (doubleRun ih.2 le_rfl).1

theorem doubleWhole {first : Bytes} (some : 0 < bs.toNat) (before : Blocks img inode bs heap first 268 c)
    (more : 268 < (inode.size / bs).toNat) : Whole img inode bs heap first (copyDouble img inode bs heap c) := by
  unfold copyDouble
  dsimp only
  obtain ⟨word, blocks⟩ := tablesRun before (((inode.size / bs).toNat - 268) / 256)
  obtain ⟨blocks, stands⟩ := doubleRun (k := ((inode.size / bs).toNat - 268) % 256) blocks (by omega)
  rw [show 268 + 256 * (((inode.size / bs).toNat - 268) / 256) + ((inode.size / bs).toNat - 268) % 256 = (inode.size / bs).toNat by
    omega] at blocks stands
  rw [if_pos more, word]
  exact blocks.whole some (stands (by omega))

theorem dataCopyOut (some : 0 < bs.toNat) (empty : c.out = []) :
    (dataCopy img inode bs heap c).out = (List.range (written inode.size bs)).map (sent img bs.toNat (place img inode bs heap) c.buf) := by
  have start : Blocks img inode bs heap c.buf 0 c := Copied.start empty
  have few : (inode.size / bs).toNat ≤ 12 → ∀ c, copyIndirect img inode bs c = c := fun few c => if_neg (by omega)
  have few' : (inode.size / bs).toNat ≤ 268 → ∀ c, copyDouble img inode bs heap c = c := fun few c => if_neg (by omega)
  unfold dataCopy written
  dsimp only
  rcases Nat.lt_trichotomy (inode.size / bs).toNat 12 with less | equal | more
  · rw [few' (by omega), few (by omega), if_neg (by omega)]
    exact directWhole some start less
  · rw [few' (by omega), few (by omega), if_pos (.inl equal), equal]
    exact (directBlocks start (by omega)).out
  · have direct := directBlocks start (by omega)
    rcases Nat.lt_trichotomy (inode.size / bs).toNat 268 with less | equal | more'
    · rw [few' (by omega), if_neg (by omega)]
      exact indirectWhole some direct more less
    · rw [few' (by omega), if_pos (.inr equal), equal]
      exact (indirectBlocks direct (by omega)).out
    · rw [if_neg (by omega)]
      exact doubleWhole some (indirectBlocks direct (by omega)) more'

/-! ### The length -/

/-- The file is new, `data_buf` has whatever the stack had. -/
def opened (pos : Nat) (data : Bytes) : Cursor UInt8 := ⟨pos, data, [], []⟩

theorem writtenLength {pos : Nat} {data : Bytes} (some : 0 < bs.toNat) :
    (dataCopy img inode bs heap (opened pos data)).out.length = written inode.size bs := by
  rw [dataCopyOut some rfl, List.length_map, List.length_range]

theorem recoversSize {pos : Nat} {data : Bytes} :
    (dataCopy img inode (blockSize 0) heap (opened pos data)).out.length = inode.size.toNat ↔
      ¬ (12 * 1024 < inode.size.toNat ∧ inode.size.toNat < 13 * 1024 ∨
        268 * 1024 < inode.size.toNat ∧ inode.size.toNat < 269 * 1024) := by
  have size : (blockSize 0).toNat = 1024 := by decide
  rw [writtenLength (by rw [size]; decide)]
  unfold written
  dsimp only
  rw [BitVec.toNat_udiv, BitVec.toNat_umod, size]
  split <;> omega

theorem losesTail : ∃ inode : Inode, inode.size = 12289 ∧ ∀ img heap pos data,
    (dataCopy img inode (blockSize 0) heap (opened pos data)).out.length = 12288 := by
  refine ⟨⟨0x8000, 0, 12289, 1, fun i => BitVec.ofNat 32 (100 + i)⟩, rfl, fun img heap pos data => ?_⟩
  rw [writtenLength (by decide)]
  decide

end OpSys.Runscan
