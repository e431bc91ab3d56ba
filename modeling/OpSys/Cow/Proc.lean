import OpSys.Cow.Vm

/-! `proc.c`, the page-fault path of `trap.c` and the boot. A process acts when it
is the one the processor runs; between two of its acts any other may act. A call
of `wait` that would sleep is not a completed operation. -/
namespace OpSys.Cow
open OpSys.Xv6

/-- `pid` is a signed `int` whose overflow C leaves undefined. -/
structure Proc where
  state : ProcState
  pid : Int
  parent : Option Slot
  killed : Bool
  sz : Nat
  pgdir : Option Pgdir
  kstack : Option Nat
  name : List UInt8

/-- `struct pipe`, which fills page `page`. -/
structure Pipe where
  page : Nat
  data : Nat → UInt8
  nread : Nat
  nwrite : Nat
  readopen : Bool
  writeopen : Bool

structure Sys where
  k : Kmem
  proc : Slot → Proc
  initproc : Slot
  nextpid : Int
  kpgdir : Pgdir
  /-- Pages taken by `jmpkstack` and `bootothers`. -/
  bootstacks : List Nat
  pipes : List Pipe
  cr0 : Word

def Sys.put (s : Sys) (i : Slot) (k : Kmem) (p : Proc) : Sys := {s with k := k, proc := Function.update s.proc i p}

def slots : List Slot := List.finRange nproc

def allocproc (s : Sys) : Option Slot × Sys :=
  match slots.find? fun i => (s.proc i).state = .unused with
  | none => (none, s)
  | some i =>
    let p := {s.proc i with state := .embryo, pid := s.nextpid}
    let s := {s with nextpid := s.nextpid + 1}
    match kalloc s.k with
    | (none, k) => (none, s.put i k {p with kstack := none, state := .unused})
    | (some f, k) => (some i, s.put i k {p with kstack := some f})

def safestrcpy (name : List UInt8) : List UInt8 := (name.takeWhile (· ≠ 0)).take 15

/-- `fork` with either way to copy an address space; `none` is `return -1`. -/
def fork (copy : Layout → Kmem → Pgdir → Nat → Except Stop (Kmem × Pgdir × Option Pgdir)) (L : Layout) (s : Sys)
    (i : Slot) : Except Stop (Sys × Option Int) :=
  match allocproc s with
  | (none, s) => .ok (s, none)
  | (some j, s) => match (s.proc i).pgdir, (s.proc j).kstack with
    | some pgdir, some stack => do
      match ← copy L s.k pgdir (s.proc i).sz with
      | (k, pgdir, none) =>
        let s := s.put i k {s.proc i with pgdir := some pgdir}
        let k ← kfree L s.k stack
        return (s.put j k {s.proc j with pgdir := none, kstack := none, state := .unused}, none)
      | (k, pgdir, some d) =>
        let s := s.put i k {s.proc i with pgdir := some pgdir}
        let np := {s.proc j with
          pgdir := some d
          sz := (s.proc i).sz
          parent := some i
          state := .runnable
          name := safestrcpy (s.proc i).name}
        return (s.put j s.k np, some np.pid)
    | _, _ => .error .wild

def grown (sz : Nat) (n : Word) : Nat := (sz + n.toNat) % 2 ^ 32

/-- The flag is false for `return -1`. -/
def growproc (L : Layout) (s : Sys) (i : Slot) (n : Word) : Except Stop (Sys × Bool) :=
  match (s.proc i).pgdir with
  | none => .error .wild
  | some d =>
    let sz := (s.proc i).sz
    if 0 < n.toInt then do
      let (k, d, r) ← allocuvm L s.k d sz (grown sz n)
      if r = 0 then return (s.put i k {s.proc i with pgdir := some d}, false)
      else return (s.put i k {s.proc i with pgdir := some (lcr3 d), sz := r}, true)
    else if n.toInt < 0 then do
      let (k, d, r) ← deallocuvm L s.k d sz (grown sz n)
      if r = 0 then return (s.put i k {s.proc i with pgdir := some d}, false)
      else return (s.put i k {s.proc i with pgdir := some (lcr3 d), sz := r}, true)
    else .ok (s.put i s.k {s.proc i with pgdir := some (lcr3 d)}, true)

def sysSbrk (L : Layout) (s : Sys) (i : Slot) (n : Word) : Except Stop (Sys × Option Nat) := do
  let addr := (s.proc i).sz
  let (s, ok) ← growproc L s i n
  return (s, if ok then some addr else none)

def exit (s : Sys) (i : Slot) : Except Stop Sys :=
  if i = s.initproc then .error (.panic "init exiting")
  else .ok {s with proc := fun j =>
    let p := if (s.proc j).parent = some i then {s.proc j with parent := some s.initproc} else s.proc j
    if j = i then {p with state := .zombie} else p}

def kfreeStack (L : Layout) (k : Kmem) : Option Nat → Except Stop Kmem
  | none => .error (.panic "kfree")
  | some f => kfree L k f

def wait (L : Layout) (s : Sys) (i : Slot) : Except Stop (Sys × Option Int) :=
  match slots.find? fun j => (s.proc j).parent = some i ∧ (s.proc j).state = .zombie with
  | some j => do
    let p := s.proc j
    let k ← kfreeStack L s.k p.kstack
    let k ← freevm L k p.pgdir
    return (s.put j k {p with
      kstack := none
      state := .unused
      pid := 0
      parent := none
      name := []
      killed := false}, some p.pid)
  | none =>
    if (slots.any fun j => (s.proc j).parent = some i) ∧ (s.proc i).killed = false then .error .asleep
    else .ok (s, none)

def kill (s : Sys) (pid : Int) : Sys × Bool :=
  match slots.find? fun j => (s.proc j).pid = pid with
  | none => (s, false)
  | some j => (s.put j s.k {s.proc j with
      killed := true
      state := if (s.proc j).state = .sleeping then .runnable else (s.proc j).state}, true)

/-- A write of a whole page through linear page 0 of the running process, with
nothing to stop it but an absent page. -/
def storePageZero (k : Kmem) (d : Pgdir) (c : Content) : Except Stop Kmem :=
  if on (d.pte 0) pteP then .ok (k.write (pageOf (d.pte 0)) c) else .error .hang

def cowWord (f : Nat) (w : Word) : Word := paddr f ||| pteFlags w ||| pteW ||| pteP ||| pteU

/-- The word of `va` is read even when there is none: then page 0 is read. -/
def cowHandler (s : Sys) (i : Slot) (va : Nat) : Except Stop Sys :=
  match (s.proc i).pgdir with
  | none => .error .wild
  | some d =>
    let v := va / pgSize
    match walkpgdir s.k d v false with
    | (_, _, false) => if on (d.pte 0) pteP then .ok (kill s (s.proc i).pid).1 else .error .hang
    | (_, _, true) =>
      let w := d.pte v
      if on w pteP = false ∨ on w pteU = false ∨ userTop < va then .ok (kill s (s.proc i).pid).1
      else
        let pa := pageOf w
        if refCount s.k pa ≤ 1 then .ok (s.put i s.k {s.proc i with pgdir := some (lcr3 (d.set v (w + 2)))})
        else match kalloc s.k with
          | (some mem, k) =>
            let k := decPageRef k pa
            let k := k.write mem (k.mem pa)
            .ok (s.put i k {s.proc i with pgdir := some (lcr3 (d.set v (cowWord mem w)))})
          | (none, k) => do
            -- nothing leaves the branch: the copy goes to address 0
            let s := (kill {s with k := k} (s.proc i).pid).1
            let k := decPageRef s.k pa
            let k ← storePageZero k d (k.mem pa)
            return s.put i k {s.proc i with pgdir := some (lcr3 (d.set v (cowWord 0 w)))}

def trapFault (s : Sys) (i : Slot) (va : Nat) : Except Stop Sys := do
  let s ← cowHandler s i va
  if (s.proc i).killed then exit s i else return s

def access (p : Proc) (a : Nat) (write : Bool) : Option Nat := match p.pgdir with
  | none => none
  | some d =>
    let w := d.pte (a / pgSize)
    if userOn w && (!write || on w pteW) then some (pageOf w) else none

/-- A user access that faults is tried again after the trap, unless the process
has exited. -/
def userAccess (s : Sys) (i : Slot) (a : Nat) (write : Bool) : Except Stop (Sys × Option Nat) :=
  match access (s.proc i) a write with
  | some f => .ok (s, some f)
  | none => do
    let s ← trapFault s i a
    if (s.proc i).state = .zombie then return (s, none)
    else match access (s.proc i) a write with
      | some f => return (s, some f)
      | none => .error .hang

def load (s : Sys) (i : Slot) (a : Nat) : Except Stop (Sys × Option UInt8) := do
  match ← userAccess s i a false with
  | (s, some f) => return (s, some (s.k.mem f (a % pgSize)))
  | (s, none) => return (s, none)

def Kmem.poke (k : Kmem) (f o : Nat) (b : UInt8) : Kmem := k.write f (Function.update (k.mem f) o b)

def store (s : Sys) (i : Slot) (a : Nat) (b : UInt8) : Except Stop Sys := do
  match ← userAccess s i a true with
  | (s, some f) => return {s with k := s.k.poke f (a % pgSize) b}
  | (s, none) => return s

/-! ### Boot -/

def CR0_PG : Word := 0x80000000

def vmenable (cr0 : Word) : Word := cr0 ||| CR0_PG

def procBss : Proc := ⟨.unused, 0, none, false, 0, none, none, []⟩

/-- `bootothers` does not look at what `kalloc` returns. -/
def bootothers : Nat → Kmem → List Nat → Kmem × List Nat
  | 0, k, taken => (k, taken)
  | n + 1, k, taken => match kalloc k with
    | (none, k) => bootothers n k taken
    | (some f, k) => bootothers n k (f :: taken)

def initcodeName : List UInt8 := [105, 110, 105, 116, 99, 111, 100, 101]

def userinit (L : Layout) (s : Sys) : Except Stop Sys :=
  match allocproc s with
  | (none, _) => .error .wild
  | (some i, s) => do
    match ← setupkvm L s.k with
    | (_, none) => .error (.panic "userinit: out of memory?")
    | (k, some d) =>
      let (k, d) ← inituvm k d L.initcode
      let p := {s.proc i with
        pgdir := some d
        sz := pgSize
        name := initcodeName
        state := .runnable}
      return {s.put i k p with initproc := i}

def boot (L : Layout) : Except Stop Sys := do
  let k ← kinit L
  match kalloc k with
  | (none, _) => .error (.panic "jmpkstack kalloc")
  | (some stack, k) =>
    match ← setupkvm L k with
    | (_, none) => .error .wild
    | (k, some kpgdir) =>
      let (k, bootstacks) := bootothers (L.ncpu - 1) k [stack]
      userinit L ⟨k, fun _ => procBss, 0, 1, kpgdir, bootstacks, [], vmenable L.cr0⟩

end OpSys.Cow
