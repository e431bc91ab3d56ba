import OpSys.Cow.Proc

/-! The system calls that store into a user buffer: `read` of a pipe or an inode,
`fstat` and `pipe`. The kernel goes through the page table of the caller, in
supervisor mode. Descriptors are resolved by the caller of these definitions. -/
namespace OpSys.Cow
open OpSys.Xv6

def CR0_WP : Word := 0x00010000

/-- What the memory unit makes of a supervisor store to a user page: `PTE_W` is
looked at only when `CR0_WP` is set. -/
def supervisorStore (cr0 w : Word) : Option Nat :=
  if on w pteP && (on w pteW || !on cr0 CR0_WP) then some (pageOf w) else none

/-- One byte stored through a user address. A fault is handled and the store
tried again; nothing maps an absent page, so that fault comes back for ever. -/
def kernelStore (s : Sys) (i : Slot) (a : Nat) (b : UInt8) : Except Stop Sys :=
  match (s.proc i).pgdir with
  | none => .error .wild
  | some d =>
    if userPages ≤ a / pgSize then .error .wild
    else match supervisorStore s.cr0 (d.pte (a / pgSize)) with
      | some f => .ok {s with k := s.k.poke f (a % pgSize) b}
      | none => do
        let s ← cowHandler s i a
        match (s.proc i).pgdir.bind fun d => supervisorStore s.cr0 (d.pte (a / pgSize)) with
        | some f => return {s with k := s.k.poke f (a % pgSize) b}
        | none => .error .hang

def kernelStores (s : Sys) (i : Slot) (stores : List (Nat × UInt8)) : Except Stop Sys :=
  stores.foldlM (fun s x => kernelStore s i x.1 x.2) s

def runOf (a : Nat) : List UInt8 → List (Nat × UInt8)
  | [] => []
  | b :: rest => (a, b) :: runOf (a + 1) rest

/-- The check of `argptr`: is the block inside the process? -/
def argptr (p : Proc) (a : Nat) (size : Word) : Bool := !(p.sz ≤ a || p.sz < (a + size.toNat) % 2 ^ 32)

def pipeSize : Nat := 512

/-- The bytes that the loop of `piperead` takes out of the pipe for an `int n`. -/
def Pipe.takes (p : Pipe) (n : Word) : List UInt8 :=
  (List.range (min n.toInt.toNat ((p.nwrite + 2 ^ 32 - p.nread) % 2 ^ 32))).map
    fun j => p.data ((p.nread + j) % pipeSize)

/-- A reader of an empty pipe with a writer sleeps, unless it has been killed. -/
def piperead (s : Sys) (i : Slot) (m : Nat) (addr : Nat) (n : Word) : Except Stop (Sys × Option Nat) :=
  match s.pipes[m]? with
  | none => .error .wild
  | some p =>
    if p.nread = p.nwrite ∧ p.writeopen then
      if (s.proc i).killed then .ok (s, none) else .error .asleep
    else do
      let bytes := p.takes n
      let s ← kernelStores s i (runOf addr bytes)
      return ({s with pipes := s.pipes.set m {p with nread := (p.nread + bytes.length) % 2 ^ 32}}, some bytes.length)

/-- What a descriptor open for reading stands for. -/
inductive File where
  | pipe (m : Nat)
  | inode (ip : Inode) (off : Nat)

def fileread (s : Sys) (i : Slot) (f : File) (addr : Nat) (n : Word) : Except Stop (Sys × Option Nat) :=
  match f with
  | .pipe m => piperead s i m addr n
  | .inode ip off => do
    let (r, bytes) := readi ip off n.toNat
    let s ← kernelStores s i (runOf addr bytes)
    return (s, if r < 0 then none else some r.toNat)

def sysRead (s : Sys) (i : Slot) (f : File) (addr : Nat) (n : Word) : Except Stop (Sys × Option Nat) :=
  if argptr (s.proc i) addr n then fileread s i f addr n else .ok (s, none)

/-- `stati`: the fields of `struct stat` at `st`, without the gaps between them. -/
def stati (ip : Inode) (st : Nat) : List (Nat × UInt8) :=
  runOf (st + 4) (littleEndian 4 ip.dev) ++ runOf (st + 8) (littleEndian 4 ip.inum) ++ runOf st (littleEndian 2 ip.type) ++
    runOf (st + 12) (littleEndian 2 ip.nlink) ++ runOf (st + 16) (littleEndian 4 ip.size)

def statSize : Word := 20

def sysFstat (s : Sys) (i : Slot) (ip : Inode) (st : Nat) : Except Stop (Sys × Bool) :=
  if argptr (s.proc i) st statSize then do
    let s ← kernelStores s i (stati ip st)
    return (s, true)
  else .ok (s, false)

/-- The pipe of `pipealloc` after the two files have been had. -/
def pipealloc (s : Sys) : Sys × Bool := match kalloc s.k with
  | (none, k) => ({s with k := k}, false)
  | (some f, k) => ({s with k := k, pipes := s.pipes ++ [⟨f, fun _ => 0, 0, 0, true, true⟩]}, true)

def Pipe.isOpen (p : Pipe) (writable : Bool) : Bool := if writable then p.writeopen else p.readopen

def Pipe.shut (p : Pipe) (writable : Bool) : Pipe :=
  if writable then {p with writeopen := false} else {p with readopen := false}

@[simp] theorem shutPage (p : Pipe) (writable : Bool) : (p.shut writable).page = p.page := by
  unfold Pipe.shut
  split <;> rfl

/-- One end of pipe `m` is closed; only an open end is. -/
def pipeclose (L : Layout) (s : Sys) (m : Nat) (writable : Bool) : Except Stop Sys :=
  match s.pipes[m]? with
  | none => .error .wild
  | some p =>
    if p.isOpen writable = false then .error .idle
    else if (p.shut writable).readopen = false ∧ (p.shut writable).writeopen = false then do
      let k ← kfree L s.k p.page
      return {s with k := k, pipes := s.pipes.eraseIdx m}
    else .ok {s with pipes := s.pipes.set m (p.shut writable)}

/-- `files` says whether two entries of the file table could be had, `fds` are the
descriptors that `fdalloc` gives, if it does. -/
def sysPipe (L : Layout) (s : Sys) (i : Slot) (fd : Nat) (files : Bool) (fds : Option (Nat × Nat)) :
    Except Stop (Sys × Bool) :=
  if argptr (s.proc i) fd 8 = false ∨ files = false then .ok (s, false)
  else match pipealloc s with
    | (s, false) => .ok (s, false)
    | (s, true) => match fds with
      | none => do
        let m := s.pipes.length - 1
        let s ← pipeclose L s m false
        let s ← pipeclose L s m true
        return (s, false)
      | some (fd0, fd1) => do
        let s ← kernelStores s i (runOf fd (littleEndian 4 fd0) ++ runOf (fd + 4) (littleEndian 4 fd1))
        return (s, true)

def kernelLoad (s : Sys) (i : Slot) (a : Nat) : Except Stop UInt8 :=
  match (s.proc i).pgdir with
  | none => .error .wild
  | some d =>
    if userPages ≤ a / pgSize then .error .wild
    else if on (d.pte (a / pgSize)) pteP then .ok (s.k.mem (pageOf (d.pte (a / pgSize))) (a % pgSize))
    else .error .hang

/-- The loop of `pipewrite` up to the first byte for which there is no room;
`left` bytes are still to write. -/
def pipeFill (s : Sys) (i : Slot) : Nat → Nat → Pipe → Except Stop (Pipe × Nat)
  | 0, _, p => .ok (p, 0)
  | left + 1, addr, p =>
    if p.nwrite = (p.nread + pipeSize) % 2 ^ 32 then .ok (p, left + 1)
    else do
      let b ← kernelLoad s i addr
      pipeFill s i left (addr + 1) {p with
        data := Function.update p.data (p.nwrite % pipeSize) b
        nwrite := (p.nwrite + 1) % 2 ^ 32}

def pipewrite (s : Sys) (i : Slot) (m : Nat) (addr : Nat) (n : Word) : Except Stop (Sys × Option Nat) :=
  match s.pipes[m]? with
  | none => .error .wild
  | some p => do
    let (p, left) ← pipeFill s i n.toInt.toNat addr p
    if left = 0 then return ({s with pipes := s.pipes.set m p}, some n.toInt.toNat)
    else if p.readopen = false ∨ (s.proc i).killed then return ({s with pipes := s.pipes.set m p}, none)
    else .error .asleep

def sysWrite (s : Sys) (i : Slot) (m : Nat) (addr : Nat) (n : Word) : Except Stop (Sys × Option Nat) :=
  if argptr (s.proc i) addr n then pipewrite s i m addr n else .ok (s, none)

end OpSys.Cow
