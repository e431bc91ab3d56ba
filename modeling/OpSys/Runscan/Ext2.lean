import OpSys.Lib.Reading

/-! What `runscan.c` reads of a disk image (`ext2_fs.h`, `read_ext2.c`): words in intel
byte order, inodes and the fields of the super block that are used. -/
namespace OpSys.Runscan
open OpSys.Reading

abbrev U16 := BitVec 16
abbrev U32 := BitVec 32
abbrev Bytes := Nat → UInt8
abbrev Image := File UInt8

def le16 (b : Bytes) (i : Nat) : U16 := (b (i + 1)).toBitVec ++ (b i).toBitVec
def le32 (b : Bytes) (i : Nat) : U32 := (b (i + 3)).toBitVec ++ (b (i + 2)).toBitVec ++ (b (i + 1)).toBitVec ++ (b i).toBitVec

/-- The first 15 of `block` are `i_block`. -/
structure Inode where
  mode : U16
  uid : U16
  size : U32
  linksCount : U16
  block : Nat → U32

def inodeBytes : Nat := 128

def inodeAt (b : Bytes) : Inode := ⟨le16 b 0, le16 b 2, le32 b 4, le16 b 26, fun i => le32 b (40 + 4 * i)⟩

def sIsreg (mode : U16) : Bool := mode &&& 0xF000 == 0x8000
def sIsdir (mode : U16) : Bool := mode &&& 0xF000 == 0x4000

structure SuperBlock where
  blocksCount : U32
  logBlockSize : Nat
  blocksPerGroup : U32
  inodesPerGroup : U32
  inodeSize : U16

/-- `block_size`, as `ext2_read_init` sets it: the shift is that of an `int`. -/
def blockSize (k : Nat) : U32 := (1024 : U32) <<< k

/-- The product that is sought is one of 32 bits. -/
def blockOffset (block blockSize : U32) : Nat := (block * blockSize).toNat

theorem blockSizeNat {k : Nat} (fits : k < 22) : (blockSize k).toNat = 1024 * 2 ^ k := by
  have power : 2 ^ k ≤ 2 ^ 21 := Nat.pow_le_pow_right (by decide) (Nat.le_of_lt_succ fits)
  unfold blockSize
  rw [BitVec.toNat_shiftLeft, Nat.shiftLeft_eq, show (1024 : U32).toNat = 1024 from rfl, Nat.mod_eq_of_lt (by omega)]

theorem le32Congr {b b' : Bytes} {i j : Nat} (same : ∀ o < 4, b (i + o) = b' (j + o)) : le32 b i = le32 b' j := by
  have first : b i = b' j := same 0 (by decide)
  unfold le32
  rw [first, same 1 (by decide), same 2 (by decide), same 3 (by decide)]

theorem blockOffsetExact {block size : U32} (fits : block.toNat * size.toNat < 2 ^ 32) :
    blockOffset block size = block.toNat * size.toNat := by
  unfold blockOffset
  rw [BitVec.toNat_mul, Nat.mod_eq_of_lt fits]

end OpSys.Runscan
