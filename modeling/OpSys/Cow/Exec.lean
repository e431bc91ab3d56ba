import OpSys.Cow.Proc

/-! `exec.c`: a new image from an ELF file, its stack and its arguments. -/
namespace OpSys.Cow
open OpSys.Xv6

def maxArg : Nat := 32
def elfMagic : Nat := 0x464C457F
def elfProgLoad : Nat := 1

/-- `sizeof(struct elfhdr)` and `sizeof(struct proghdr)`. -/
def elfhdrSize : Nat := 52
def proghdrSize : Nat := 32

def field (bytes : List UInt8) (o : Nat) : Nat → Nat
  | 0 => 0
  | n + 1 => (bytes.getD o 0).toNat + 256 * field bytes (o + 1) n

structure Elfhdr where
  magic : Nat
  phoff : Nat
  phnum : Nat

def elfhdr (bytes : List UInt8) : Elfhdr := ⟨field bytes 0 4, field bytes 28 4, field bytes 44 2⟩

structure Proghdr where
  type : Nat
  offset : Nat
  va : Nat
  filesz : Nat
  memsz : Nat

def proghdr (bytes : List UInt8) : Proghdr :=
  ⟨field bytes 0 4, field bytes 4 4, field bytes 8 4, field bytes 16 4, field bytes 20 4⟩

/-- The loop over program headers; `none` is `goto bad`. -/
def loadSegments (L : Layout) (ip : Inode) : Nat → Nat → Kmem → Pgdir → Nat → Except Stop (Kmem × Pgdir × Option Nat)
  | 0, _, k, d, sz => .ok (k, d, some sz)
  | n + 1, off, k, d, sz =>
    let (r, bytes) := readi ip off proghdrSize
    if r ≠ proghdrSize then .ok (k, d, none)
    else
      let ph := proghdr bytes
      let next := (off + proghdrSize) % 2 ^ 32
      if ph.type ≠ elfProgLoad then loadSegments L ip n next k d sz
      else if ph.memsz < ph.filesz then .ok (k, d, none)
      else do
        let (k, d, sz) ← allocuvm L k d sz ((ph.va + ph.memsz) % 2 ^ 32)
        if sz = 0 then return (k, d, none)
        else
          let (k, ok) ← loaduvm k d ph.va ip ph.offset ph.filesz
          if ok then loadSegments L ip n next k d sz else return (k, d, none)

/-- `sp -= n` in `uint`. -/
def below (sp n : Nat) : Nat := (sp + 2 ^ 32 - n % 2 ^ 32) % 2 ^ 32

/-- The loop over `argv`: the strings are copied out, `ustack` collects their
addresses, the last one first; `none` is `goto bad`. -/
def pushArgs (d : Pgdir) : List (List UInt8) → Kmem → Nat → List Nat → Except Stop (Kmem × Option (Nat × List Nat))
  | [], k, sp, ustack => .ok (k, some (sp, ustack))
  | arg :: rest, k, sp, ustack =>
    if maxArg ≤ ustack.length then .ok (k, none)
    else do
      let sp := below sp (arg.length + 1) / 4 * 4
      let (k, ok) ← copyout k d sp (arg ++ [0])
      if ok then pushArgs d rest k sp (sp :: ustack) else return (k, none)

/-- Stack page, arguments and `ustack` of a loaded image of size `sz`; the new
size, or `none` for `goto bad`. -/
def setStack (L : Layout) (k : Kmem) (d : Pgdir) (sz : Nat) (argv : List (List UInt8)) :
    Except Stop (Kmem × Pgdir × Option Nat) := do
  let base := pgRoundUp sz
  let (k, d, sz) ← allocuvm L k d base ((base + pgSize) % 2 ^ 32)
  if sz = 0 then return (k, d, none)
  else match ← pushArgs d argv k sz [] with
    | (k, none) => return (k, d, none)
    | (k, some (sp, ustack)) =>
      let argc := ustack.length
      let words := [0xffffffff, argc, below sp ((argc + 1) * 4)] ++ ustack.reverse ++ [0]
      let (k, ok) ← copyout k d (below sp ((3 + argc + 1) * 4)) (words.flatMap (littleEndian 4))
      return (k, d, if ok then some sz else none)

def baseName (path : List UInt8) : List UInt8 :=
  path.foldl (fun last c => if c = 47 then [] else last ++ [c]) []

def buildImage (L : Layout) (ip : Inode) (k : Kmem) (d : Pgdir) (elf : Elfhdr) (argv : List (List UInt8)) :
    Except Stop (Kmem × Pgdir × Option Nat) := do
  match ← loadSegments L ip elf.phnum elf.phoff k d 0 with
  | (k, d, none) => return (k, d, none)
  | (k, d, some sz) => setStack L k d sz argv

/-- What `exec` reads before it takes any page: the file, if `namei` has found it,
and its ELF header. The length is compared as unsigned, so that a read that fails
passes, and `stack` is what `elf` holds then. -/
def execHeader (ip : Option Inode) (stack : List UInt8) : Option (Inode × Elfhdr) := match ip with
  | none => none
  | some ip =>
    let (r, bytes) := readi ip 0 elfhdrSize
    let elf := elfhdr (bytes ++ stack.drop bytes.length)
    if (r % 2 ^ 32).toNat < elfhdrSize then none
    else if elf.magic ≠ elfMagic then none
    else some (ip, elf)

/-- `ip` is what `namei(path)` gives. The flag is false for `return -1`. -/
def exec (L : Layout) (s : Sys) (i : Slot) (ip : Option Inode) (path : List UInt8) (argv : List (List UInt8))
    (stack : List UInt8) : Except Stop (Sys × Bool) :=
  match execHeader ip stack with
  | none => .ok (s, false)
  | some (ip, elf) => do
    match ← setupkvm L s.k with
    | (k, none) => return (s.put i k (s.proc i), false)
    | (k, some d) =>
      match ← buildImage L ip k d elf argv with
      | (k, d, none) =>
        let k ← freevm L k (some d)
        return (s.put i k (s.proc i), false)
      | (k, d, some sz) =>
        let p := {s.proc i with
          pgdir := some (lcr3 d)
          sz := sz
          name := safestrcpy (baseName path)}
        let k ← freevm L k (s.proc i).pgdir
        return (s.put i k p, true)

end OpSys.Cow
