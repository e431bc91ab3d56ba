import Mathlib.Data.List.Basic
import OpSys.Cow.Pte

/-! `readi` of `fs.c`: the bytes a read stores at its destination, in order. -/
namespace OpSys.Cow

def bSize : Nat := 512
def typeFile : Nat := 2
def typeDev : Nat := 3

/-- An in-core inode. `block b` is the buffer that `bread` and `bmap` give for
logical block `b`; `devRead` is the `read` entry of the inode's device, if it
has one: what it returns for a length and the bytes it stores. -/
structure Inode where
  dev : Nat
  inum : Nat
  type : Nat
  nlink : Nat
  size : Nat
  block : Nat → Nat → UInt8
  devRead : Option (Nat → Int × List UInt8)

/-- The loop over blocks: `left` bytes are still to copy from offset `off`. The
first argument bounds the rounds; every round copies at least one byte. -/
def readBlocks (ip : Inode) : Nat → Nat → Nat → List UInt8
  | 0, _, _ => []
  | round + 1, off, left =>
    if left = 0 then []
    else
      let m := min left (bSize - off % bSize)
      (List.range m).map (fun i => ip.block (off / bSize) (off % bSize + i)) ++
        readBlocks ip round (off + m) (left - m)

def readi (ip : Inode) (off n : Nat) : Int × List UInt8 :=
  if ip.type = typeDev then
    match ip.devRead with
    | none => (-1, [])
    | some read => read n
  else if ip.size < off ∨ (off + n) % 2 ^ 32 < off then (-1, [])
  else
    let n := if ip.size < (off + n) % 2 ^ 32 then ip.size - off else n
    (n, readBlocks ip n off n)

end OpSys.Cow
