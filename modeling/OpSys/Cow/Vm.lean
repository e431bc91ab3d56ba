import OpSys.Cow.Fs
import OpSys.Cow.Kalloc

/-! `vm.c`: page tables, address spaces and the copy made by `fork`. A loop over
an address range becomes a recursion over its pages. -/
namespace OpSys.Cow
open OpSys.Xv6

/-- A page directory with its page tables. `page` is where the directory is,
`pde i` the page table that entry `i` points to when it is present, `pte v` the
word of linear page `v`. `stale` belongs to the processor: the words that were
present and have been overwritten since the last `lcr3`, with their pages. -/
structure Pgdir where
  page : Nat
  pde : Nat → Option Nat
  pte : Nat → Word
  stale : List (Nat × Word)

def Pgdir.set (d : Pgdir) (v : Nat) (w : Word) : Pgdir :=
  {d with
    pte := Function.update d.pte v w
    stale := if on (d.pte v) pteP then (v, d.pte v) :: d.stale else d.stale}

/-- `lcr3(PADDR(pgdir))` empties the translation cache. -/
def lcr3 (d : Pgdir) : Pgdir := {d with stale := []}

/-- The flag says whether a word was found or made (`walkpgdir` returned non-null). -/
def walkpgdir (k : Kmem) (d : Pgdir) (v : Nat) (create : Bool) : Kmem × Pgdir × Bool :=
  match d.pde (pdx v) with
  | some _ => (k, d, true)
  | none =>
    if create then
      match kalloc k with
      | (none, k) => (k, d, false)
      | (some f, k) => (k, {d with
          pde := Function.update d.pde (pdx v) (some f)
          pte := fun u => if pdx u = pdx v then 0 else d.pte u}, true)
    else (k, d, false)

def mapPage (k : Kmem) (d : Pgdir) (a pa : Nat) (perm : Word) : Except Stop (Kmem × Pgdir × Bool) :=
  match walkpgdir k d a true with
  | (k, d, false) => .ok (k, d, false)
  | (k, d, true) =>
    if on (d.pte a) pteP then .error (.panic "remap")
    else .ok (k, d.set a (paddr pa ||| perm ||| pteP), true)

def mapPages (perm : Word) : Nat → Kmem → Pgdir → Nat → Nat → Except Stop (Kmem × Pgdir × Bool)
  | 0, k, d, a, pa => mapPage k d a pa perm
  | n + 1, k, d, a, pa => do
    let (k, d, ok) ← mapPage k d a pa perm
    if ok then mapPages perm n k d ((a + 1) % 2 ^ 20) (pa + 1) else return (k, d, false)

def mappages (k : Kmem) (d : Pgdir) (la size pa : Nat) (perm : Word) : Except Stop (Kmem × Pgdir × Bool) :=
  let a := la / pgSize
  let last := (la + size + (2 ^ 32 - 1)) % 2 ^ 32 / pgSize
  mapPages perm ((last + 2 ^ 20 - a) % 2 ^ 20) k d a pa

def kmap (L : Layout) : List (Nat × Nat × Word) :=
  [(userTop, 0x100000, pteW), (0x100000, L.data, 0), (L.data, physTop, pteW), (0xFE000000, 0, pteW)]

def mapKernel : List (Nat × Nat × Word) → Kmem → Pgdir → Except Stop (Kmem × Pgdir × Bool)
  | [], k, d => .ok (k, d, true)
  | (p, e, perm) :: rest, k, d => do
    let (k, d, ok) ← mappages k d p ((e + 2 ^ 32 - p) % 2 ^ 32) (p / pgSize) perm
    if ok then mapKernel rest k d else return (k, d, false)

/-- When a table cannot be had the directory and the tables made so far are
not given back: `return 0`. -/
def setupkvm (L : Layout) (k : Kmem) : Except Stop (Kmem × Option Pgdir) :=
  match kalloc k with
  | (none, k) => .ok (k, none)
  | (some f, k) => do
    let (k, d, ok) ← mapKernel (kmap L) k ⟨f, fun _ => none, fun _ => 0, []⟩
    return (k, if ok then some d else none)

def zeroPage : Content := fun _ => 0

def Kmem.copy (k : Kmem) (f o : Nat) (bytes : List UInt8) : Kmem :=
  k.write f fun x => if o ≤ x ∧ x < o + bytes.length then bytes.getD (x - o) 0 else k.mem f x

/-- Neither the result of `kalloc` nor that of `mappages` is looked at. -/
def inituvm (k : Kmem) (d : Pgdir) (init : List UInt8) : Except Stop (Kmem × Pgdir) :=
  if pgSize ≤ init.length then .error (.panic "inituvm: more than a page")
  else match kalloc k with
    | (none, _) => .error .wild
    | (some f, k) => do
      let (k, d, _) ← mappages (k.write f zeroPage) d 0 pgSize f (pteW ||| pteU)
      return (k.copy f 0 init, d)

/-- The pages visited by `for(a = lo; a < hi; a += PGSIZE)`, `lo` being aligned. -/
def pagesIn (lo hi : Nat) : List Nat := List.range' (lo / pgSize) ((hi - lo + pgSize - 1) / pgSize)

def deallocPage (L : Layout) (s : Kmem × Pgdir) (v : Nat) : Except Stop (Kmem × Pgdir) :=
  match walkpgdir s.1 s.2 v false with
  | (_, _, false) => .ok s
  | (k, d, true) =>
    if on (d.pte v) pteP then
      if pageOf (d.pte v) = 0 then .error (.panic "kfree")
      else do
        let k ← kfree L k (pageOf (d.pte v))
        return (k, d.set v 0)
    else .ok (k, d)

def deallocuvm (L : Layout) (k : Kmem) (d : Pgdir) (oldsz newsz : Nat) : Except Stop (Kmem × Pgdir × Nat) :=
  if oldsz ≤ newsz then .ok (k, d, oldsz)
  else do
    let (k, d) ← (pagesIn (pgRoundUp newsz) oldsz).foldlM (deallocPage L) (k, d)
    return (k, d, newsz)

def allocPages : List Nat → Kmem → Pgdir → Except Stop (Kmem × Pgdir × Bool)
  | [], k, d => .ok (k, d, true)
  | v :: rest, k, d =>
    match kalloc k with
    | (none, k) => .ok (k, d, false)
    | (some f, k) => do
      let (k, d, _) ← mappages (k.write f zeroPage) d (v * pgSize) pgSize f (pteW ||| pteU)
      allocPages rest k d

def allocuvm (L : Layout) (k : Kmem) (d : Pgdir) (oldsz newsz : Nat) : Except Stop (Kmem × Pgdir × Nat) :=
  if userTop < newsz then .ok (k, d, 0)
  else if newsz < oldsz then .ok (k, d, oldsz)
  else do
    let (k, d, ok) ← allocPages (pagesIn (pgRoundUp oldsz) newsz) k d
    if ok then return (k, d, newsz)
    else
      let (k, d, _) ← deallocuvm L k d newsz oldsz
      return (k, d, 0)

def freeTables (L : Layout) (pde : Nat → Option Nat) (k : Kmem) (i : Nat) : Except Stop Kmem := match pde i with
  | none => .ok k
  | some f => kfree L k f

def freevm (L : Layout) (k : Kmem) : Option Pgdir → Except Stop Kmem
  | none => .error (.panic "freevm: no pgdir")
  | some d => do
    let (k, d, _) ← deallocuvm L k d userTop 0
    let k ← (List.range npdEntries).foldlM (freeTables L d.pde) k
    kfree L k d.page

def copyPages : List Nat → Kmem → Pgdir → Pgdir → Except Stop (Kmem × Pgdir × Bool)
  | [], k, _, d => .ok (k, d, true)
  | v :: rest, k, pgdir, d =>
    match walkpgdir k pgdir v false with
    | (_, _, false) => .error (.panic "copyuvm: pte should exist")
    | (k, pgdir, true) =>
      if on (pgdir.pte v) pteP then
        match kalloc k with
        | (none, k) => .ok (k, d, false)
        | (some f, k) => do
          let k := k.write f (k.mem (pageOf (pgdir.pte v)))
          let (k, d, ok) ← mappages k d (v * pgSize) pgSize f (pteFlags (pgdir.pte v))
          if ok then copyPages rest k pgdir d else return (k, d, false)
      else .error (.panic "copyuvm: page not present")

/-- The caller's page table is handed through as by `cowuvm`. -/
def copyuvm (L : Layout) (k : Kmem) (pgdir : Pgdir) (sz : Nat) : Except Stop (Kmem × Pgdir × Option Pgdir) := do
  match ← setupkvm L k with
  | (k, none) => return (k, pgdir, none)
  | (k, some d) =>
    let (k, d, ok) ← copyPages (pagesIn 0 sz) k pgdir d
    if ok then return (k, pgdir, some d)
    else
      let k ← freevm L k (some d)
      return (k, pgdir, none)

def cowPages : List Nat → Kmem → Pgdir → Pgdir → Except Stop (Kmem × Pgdir × Pgdir × Bool)
  | [], k, pgdir, d => .ok (k, pgdir, d, true)
  | v :: rest, k, pgdir, d =>
    match walkpgdir k pgdir v false with
    | (_, _, false) => .error (.panic "cowuvm: pte should exist")
    | (k, pgdir, true) =>
      if on (pgdir.pte v) pteP then do
        let pa := pageOf (pgdir.pte v)
        let pgdir := pgdir.set v (pgdir.pte v &&& ~~~pteW)
        let (k, d, ok) ← mappages k d (v * pgSize) pgSize pa (pteFlags (pgdir.pte v))
        if ok then cowPages rest (incPageRef k pa) pgdir d else return (k, pgdir, d, false)
      else .error (.panic "cowuvm: page not present")

def cowuvm (L : Layout) (k : Kmem) (pgdir : Pgdir) (sz : Nat) : Except Stop (Kmem × Pgdir × Option Pgdir) := do
  match ← setupkvm L k with
  | (k, none) => return (k, pgdir, none)
  | (k, some d) =>
    let (k, pgdir, d, ok) ← cowPages (pagesIn 0 sz) k pgdir d
    if ok then return (k, lcr3 pgdir, some d)
    else
      let k ← freevm L k (some d)
      return (k, pgdir, none)

/-- The word is read before it is known to exist. -/
def uva2ka (d : Pgdir) (v : Nat) : Except Stop (Option Nat) := match d.pde (pdx v) with
  | none => .error .wild
  | some _ => .ok (if userOn (d.pte v) then some (pageOf (d.pte v)) else none)

def copyout (k : Kmem) (d : Pgdir) (va : Nat) (buf : List UInt8) : Except Stop (Kmem × Bool) :=
  if buf.isEmpty then .ok (k, true)
  else do
    match ← uva2ka d (va / pgSize) with
    | none => return (k, false)
    | some f =>
      let n := min (pgSize - va % pgSize) buf.length
      copyout (k.copy f (va % pgSize) (buf.take n)) d ((va / pgSize + 1) * pgSize) (buf.drop n)
termination_by buf.length
decreasing_by
  have some : 0 < buf.length := List.length_pos_iff.mpr (by simpa using ‹¬buf.isEmpty = true›)
  have room : 0 < pgSize - va % pgSize := Nat.sub_pos_of_lt (Nat.mod_lt va (by decide))
  simp only [List.length_drop]
  omega

/-- One page of `loaduvm`. A read that stores bytes anywhere but in a user page
of the new table goes to memory of the kernel or of the running process. -/
def loadPage (k : Kmem) (d : Pgdir) (ip : Inode) (v offset n : Nat) : Except Stop (Kmem × Bool) :=
  if (d.pde (pdx v)).isNone then .error (.panic "loaduvm: address should exist")
  else
    let (r, bytes) := readi ip offset n
    if userOn (d.pte v) then .ok (k.copy (pageOf (d.pte v)) 0 bytes, r = n)
    else if bytes.isEmpty then .ok (k, r = n)
    else .error .wild

def loadPages (d : Pgdir) (ip : Inode) (addr offset sz : Nat) : List Nat → Kmem → Except Stop (Kmem × Bool)
  | [], k => .ok (k, true)
  | j :: rest, k => do
    let i := j * pgSize
    let (k, ok) ← loadPage k d ip ((addr + i) % 2 ^ 32 / pgSize) ((offset + i) % 2 ^ 32) (min (sz - i) pgSize)
    if ok then loadPages d ip addr offset sz rest k else return (k, false)

def loaduvm (k : Kmem) (d : Pgdir) (addr : Nat) (ip : Inode) (offset sz : Nat) : Except Stop (Kmem × Bool) :=
  if addr % pgSize ≠ 0 then .error (.panic "loaduvm: addr must be page aligned")
  else loadPages d ip addr offset sz (pagesIn 0 sz) k

end OpSys.Cow
