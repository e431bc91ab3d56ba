import Mathlib.Data.List.FinRange
import OpSys.Kernel.Names
import OpSys.Lib.Blocks

/-! The lower half of `fs.c`: blocks, inodes and what is in them, for one device, on the
buffers that `bread` gives and `brelse` takes back. -/
namespace OpSys.Fs
open Function OpSys.Blocks OpSys.Bytes

abbrev BSIZE : Nat := 512
abbrev BPB : Nat := 4096
abbrev IPB : Nat := 8
abbrev NDIRECT : Nat := 12
abbrev NINDIRECT : Nat := 128
abbrev MAXFILE : Nat := 140
abbrev NDEV : Nat := 10
abbrev T_DIR : UInt16 := 1
abbrev T_FILE : UInt16 := 2
abbrev T_DEV : UInt16 := 3

/-- Only the first `BSIZE` bytes are there. -/
abbrev Block := Row

inductive Panic where
  | outOfBlocks
  | freeing
  | noInodes
  | noType
  | outOfRange
  | notDir
  deriving DecidableEq

abbrev Io := Prog Block Panic

structure Superblock where
  size : Nat
  nblocks : Nat
  ninodes : Nat

structure Inode where
  type : UInt16
  major : UInt16
  minor : UInt16
  nlink : UInt16
  size : Nat
  addrs : Fin (NDIRECT + 1) → Nat

abbrev Inode.table (ip : Inode) : Nat := ip.addrs 12

def Inode.setAddr (ip : Inode) (k : Fin (NDIRECT + 1)) (addr : Nat) : Inode := {ip with addrs := update ip.addrs k addr}

def iBlock (inum : Nat) : Nat := inum / IPB + 2
def bBlock (b ninodes : Nat) : Nat := b / BPB + ninodes / IPB + 3

/-! ### The `struct dinode`s in a block -/

def dinode (d : Block) (k : Nat) : Inode :=
  ⟨half d (32 * k), half d (32 * k + 1), half d (32 * k + 2), half d (32 * k + 3), word d (16 * k + 2), fun j => word d (16 * k + 3 + j)⟩

def Inode.short (ip : Inode) : Nat → UInt16
  | 0 => ip.type
  | 1 => ip.major
  | 2 => ip.minor
  | _ => ip.nlink

def Inode.byte (ip : Inode) (o : Nat) : UInt8 :=
  if o < 8 then byteAt (ip.short (o / 2)).toNat (o % 2)
  else if o < 12 then byteAt ip.size (o % 4)
  else byteAt (ip.addrs (Fin.ofNat 13 (o / 4 - 3))) (o % 4)

def setDinode (d : Block) (k : Nat) (ip : Inode) : Block := fun o => if o / 64 = k then ip.byte (o % 64) else d o

/-! ### Blocks -/

def readsb : Io Superblock := do
  let d ← bread 1
  brelse 1
  return ⟨word d 0, word d 1, word d 2⟩

def bzero (bno : Nat) : Io Unit := do
  let d ← bread bno
  bwrite bno fun k => if k < BSIZE then 0 else d k
  brelse bno

def clearFrom (d : Block) : Nat → Nat → Option Nat
  | 0, _ => none
  | left + 1, bi => if bit d bi then clearFrom d left (bi + 1) else some bi

def ballocLoop (sb : Superblock) : Nat → Nat → Io Nat
  | 0, _ => panic .outOfBlocks
  | rounds + 1, b =>
    if b < sb.size then do
      let d ← bread (bBlock b sb.ninodes)
      match clearFrom d BPB 0 with
      | some bi => do
        bwrite (bBlock b sb.ninodes) (setBit d bi)
        brelse (bBlock b sb.ninodes)
        return b + bi
      | none => do
        brelse (bBlock b sb.ninodes)
        ballocLoop sb rounds (b + BPB)
    else panic .outOfBlocks

def balloc : Io Nat := do
  let sb ← readsb
  ballocLoop sb (sb.size / BPB + 1) 0

def bfree (b : Nat) : Io Unit := do
  bzero b
  let sb ← readsb
  let d ← bread (bBlock b sb.ninodes)
  if bit d (b % BPB) then do
    bwrite (bBlock b sb.ninodes) (clearBit d (b % BPB))
    brelse (bBlock b sb.ninodes)
  else panic .freeing

/-! ### Inodes -/

def iallocLoop (type : UInt16) (ninodes : Nat) : Nat → Nat → Io Nat
  | 0, _ => panic .noInodes
  | rounds + 1, inum =>
    if inum < ninodes then do
      let d ← bread (iBlock inum)
      if (dinode d (inum % IPB)).type = 0 then do
        bwrite (iBlock inum) (setDinode d (inum % IPB) ⟨type, 0, 0, 0, 0, fun _ => 0⟩)
        brelse (iBlock inum)
        return inum
      else do
        brelse (iBlock inum)
        iallocLoop type ninodes rounds (inum + 1)
    else panic .noInodes

/-- The number of the inode, which `iget` then looks up. -/
def ialloc (type : UInt16) : Io Nat := do
  let sb ← readsb
  iallocLoop type sb.ninodes sb.ninodes 1

def iupdate (inum : Nat) (ip : Inode) : Io Unit := do
  let d ← bread (iBlock inum)
  bwrite (iBlock inum) (setDinode d (inum % IPB) ip)
  brelse (iBlock inum)

/-- What `ilock` does for an inode that is not in memory yet. -/
def iload (inum : Nat) : Io Inode := do
  let d ← bread (iBlock inum)
  brelse (iBlock inum)
  if (dinode d (inum % IPB)).type = 0 then panic .noType
  else return dinode d (inum % IPB)

/-! ### Their contents -/

def bmapAddr (ip : Inode) (k : Fin (NDIRECT + 1)) : Io (Nat × Inode) :=
  if ip.addrs k = 0 then do
    let addr ← balloc
    return (addr, ip.setAddr k addr)
  else return (ip.addrs k, ip)

def bmap (ip : Inode) (bn : Nat) : Io (Nat × Inode) :=
  if low : bn < NDIRECT then bmapAddr ip ⟨bn, Nat.lt_succ_of_lt low⟩
  else if bn - NDIRECT < NINDIRECT then do
    let (addr, ip) ← bmapAddr ip 12
    let a ← bread addr
    if word a (bn - NDIRECT) = 0 then do
      let new ← balloc
      bwrite addr (setWord a (bn - NDIRECT) new)
      brelse addr
      return (new, ip)
    else do
      brelse addr
      return (word a (bn - NDIRECT), ip)
  else panic .outOfRange

def truncDirect : List (Fin NDIRECT) → Inode → Io Inode
  | [], ip => return ip
  | i :: rest, ip =>
    if ip.addrs i.castSucc = 0 then truncDirect rest ip
    else do
      bfree (ip.addrs i.castSucc)
      truncDirect rest (ip.setAddr i.castSucc 0)

def truncEntries (a : Block) : List Nat → Io Unit
  | [] => return ()
  | j :: rest =>
    if word a j = 0 then truncEntries a rest
    else do
      bfree (word a j)
      truncEntries a rest

def truncTable (ip : Inode) : Io Inode :=
  if ip.table = 0 then return ip
  else do
    let a ← bread ip.table
    truncEntries a (List.range NINDIRECT)
    brelse ip.table
    bfree ip.table
    return ip.setAddr 12 0

def itrunc (inum : Nat) (ip : Inode) : Io Inode := do
  let ip ← truncDirect (List.finRange NDIRECT) ip
  let ip ← truncTable ip
  iupdate inum {ip with size := 0}
  return {ip with size := 0}

/-- The part of `iput` for an inode without links, when the last reference to it is given up. -/
def ifree (inum : Nat) (ip : Inode) : Io Unit := do
  let ip ← itrunc inum ip
  iupdate inum {ip with type := 0}

/-- What `iput` does when the last reference is given up. The inode in memory, if it is valid,
is as it is on the disk. -/
def ilast (inum : Nat) : Io Unit := do
  let d ← bread (iBlock inum)
  brelse (iBlock inum)
  if (dinode d (inum % IPB)).type ≠ 0 ∧ (dinode d (inum % IPB)).nlink = 0 then ifree inum (dinode d (inum % IPB))
  else return ()

structure Devsw where
  read : Nat → Option (Nat → Int × List UInt8)
  write : Nat → Option (List UInt8 → Int)

def readBlocks : Nat → Inode → Nat → Nat → Io (List UInt8 × Inode)
  | 0, ip, _, _ => return ([], ip)
  | rounds + 1, ip, off, left =>
    if left = 0 then return ([], ip)
    else do
      let (addr, ip) ← bmap ip (off / BSIZE)
      let d ← bread addr
      brelse addr
      let (later, ip) ← readBlocks rounds ip (off + min left (BSIZE - off % BSIZE)) (left - min left (BSIZE - off % BSIZE))
      return ((List.range (min left (BSIZE - off % BSIZE))).map (fun k => d (off % BSIZE + k)) ++ later, ip)

/-- A `major` below zero is above `NDEV` here. -/
def readi (devsw : Devsw) (ip : Inode) (off n : Nat) : Io (Int × List UInt8 × Inode) :=
  if ip.type = T_DEV then
    match if ip.major.toNat < NDEV then devsw.read ip.major.toNat else none with
    | none => return (-1, [], ip)
    | some read => return ((read n).1, (read n).2, ip)
  else if ip.size < off ∨ (off + n) % 2 ^ 32 < off then return (-1, [], ip)
  else do
    let n := if ip.size < (off + n) % 2 ^ 32 then ip.size - off else n
    let (dst, ip) ← readBlocks n ip off n
    return (n, dst, ip)

def memmove (d : Block) (at' : Nat) (src : List UInt8) : Block := fun k => if at' ≤ k then src.getD (k - at') (d k) else d k

def writeBlocks : Nat → Inode → Nat → List UInt8 → Io (Nat × Inode)
  | 0, ip, off, _ => return (off, ip)
  | rounds + 1, ip, off, src =>
    if src = [] then return (off, ip)
    else do
      let (addr, ip) ← bmap ip (off / BSIZE)
      let d ← bread addr
      bwrite addr (memmove d (off % BSIZE) (src.take (BSIZE - off % BSIZE)))
      brelse addr
      writeBlocks rounds ip (off + min src.length (BSIZE - off % BSIZE)) (src.drop (BSIZE - off % BSIZE))

def writei (devsw : Devsw) (inum : Nat) (ip : Inode) (off : Nat) (src : List UInt8) : Io (Int × Inode) :=
  if ip.type = T_DEV then
    match if ip.major.toNat < NDEV then devsw.write ip.major.toNat else none with
    | none => return (-1, ip)
    | some write => return (write src, ip)
  else if ip.size < off ∨ (off + src.length) % 2 ^ 32 < off then return (-1, ip)
  else do
    let src := if MAXFILE * BSIZE < (off + src.length) % 2 ^ 32 then src.take (MAXFILE * BSIZE - off) else src
    let (last, ip) ← writeBlocks src.length ip off src
    if 0 < src.length ∧ ip.size < last then do
      iupdate inum {ip with size := last}
      return (src.length, {ip with size := last})
    else return (src.length, ip)

/-! ### Directories -/

def direntInum (d : Block) (k : Nat) : Nat := (half d (8 * k)).toNat
def direntName (d : Block) (k : Nat) : Row := fun j => d (16 * k + 2 + j)

def dirent (inum : Nat) (name : Name) : List UInt8 := byteAt inum 0 :: byteAt inum 1 :: strncpy (chars name) DIRSIZ 0

def lookFrom (d : Block) (name : Row) : Nat → Nat → Option Nat
  | 0, _ => none
  | left + 1, k => if direntInum d k ≠ 0 ∧ namecmp name (direntName d k) = 0 then some k else lookFrom d name left (k + 1)

def dirlookupLoop (name : Row) : Nat → Inode → Nat → Io (Option (Nat × Nat) × Inode)
  | 0, dp, _ => return (none, dp)
  | rounds + 1, dp, off =>
    if off < dp.size then do
      let (addr, dp) ← bmap dp (off / BSIZE)
      let d ← bread addr
      brelse addr
      match lookFrom d name (BSIZE / 16) 0 with
      | some k => return (some (direntInum d k, off + 16 * k), dp)
      | none => dirlookupLoop name rounds dp (off + BSIZE)
    else return (none, dp)

/-- The number of the inode, which `iget` then looks up, and `*poff`. -/
def dirlookup (dp : Inode) (name : Row) : Io (Option (Nat × Nat) × Inode) :=
  if dp.type ≠ T_DIR then panic .notDir
  else dirlookupLoop name (dp.size / BSIZE + 1) dp 0

end OpSys.Fs
