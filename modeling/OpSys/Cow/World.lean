import OpSys.Cow.System

/-! What a user program may count on: every process has a memory of its own, which
`fork` copies. There are no page tables here and no shared pages. -/
namespace OpSys.Cow
open OpSys.Xv6 OpSys.Transition

structure Task where
  state : ProcState
  pid : Int
  parent : Option Slot
  sz : Nat
  memory : Nat → Option Content

structure World where
  task : Slot → Task
  initproc : Slot
  nextpid : Int

namespace World

def put (w : World) (i : Slot) (t : Task) : World := {w with task := Function.update w.task i t}

def exit (w : World) (i : Slot) : Except Unit World :=
  if i = w.initproc then .error ()
  else .ok {w with task := fun j => {w.task j with
    state := if j = i then .zombie else (w.task j).state
    parent := if (w.task j).parent = some i then some w.initproc else (w.task j).parent
    memory := if j = i then fun _ => none else (w.task j).memory}}

/-- An access to page `v`, which the process does not have, is its end. Without
its page 0 it never ends where the kernel has no table either. -/
def fault (w : World) (i : Slot) (v : Nat) : Except Unit World :=
  if pdx v ∉ kernelEntries ∧ ((w.task i).memory 0).isNone then .error () else w.exit i

def load (w : World) (i : Slot) (a : Nat) : Except Unit (World × Out) :=
  match (w.task i).memory (a / pgSize) with
  | some c => .ok (w, .byte (c (a % pgSize)))
  | none => do return (← w.fault i (a / pgSize), .exited)

def store (w : World) (i : Slot) (a : Nat) (b : UInt8) : Except Unit (World × Out) :=
  match (w.task i).memory (a / pgSize) with
  | some c => .ok (w.put i {w.task i with
      memory := Function.update (w.task i).memory (a / pgSize) (some (Function.update c (a % pgSize) b))}, .done)
  | none => do return (← w.fault i (a / pgSize), .done)

def fork (w : World) (i : Slot) : Except Unit (World × Out) :=
  match slots.find? fun j => (w.task j).state = .unused with
  | none => .ok (w, .value none)
  | some j =>
    let t := w.task i
    if (pagesIn 0 t.sz).all fun v => (t.memory v).isSome then
      .ok ({w with nextpid := w.nextpid + 1}.put j
        ⟨.runnable, w.nextpid, some i, t.sz, fun v => if v * pgSize < t.sz then t.memory v else none⟩, .value (some w.nextpid))
    else .error ()

/-- A call that gives back the whole memory reports failure, but it is gone. -/
def sbrk (w : World) (i : Slot) (n : Word) : World × Out :=
  let t := w.task i
  let sz := grown t.sz n
  if 0 < n.toInt then
    if userTop < sz then (w, .value none)
    else (w.put i {t with sz := sz, memory := fun v => if v ∈ wanted t.sz sz then some zeroPage else t.memory v},
      .value (some t.sz))
  else if n.toInt < 0 then
    let left := fun v => if v ∈ dropped t.sz sz then none else t.memory v
    if min t.sz sz = 0 then (w.put i {t with memory := left}, .value none)
    else (w.put i {t with sz := min t.sz sz, memory := left}, .value (some t.sz))
  else (w, .value (some t.sz))

def wait (w : World) (i : Slot) : Except Unit (World × Out) :=
  match slots.find? fun j => (w.task j).parent = some i ∧ (w.task j).state = .zombie with
  | some j => .ok (w.put j {w.task j with state := .unused, pid := 0, parent := none}, .value (some (w.task j).pid))
  | none => if slots.any fun j => (w.task j).parent = some i then .error () else .ok (w, .value none)

def step (w : World) (i : Slot) (op : UserOp) : Except Unit (World × Out) :=
  if (w.task i).state = .runnable then match op with
    | .fork => w.fork i
    | .load a => w.load i a
    | .store a b => w.store i a b
    | .sbrk n => .ok (w.sbrk i n)
    | .exit => do return (← w.exit i, .exited)
    | .wait => w.wait i
  else .error ()

def machine : Machine World (Slot × UserOp) Out Unit := ⟨fun _ => True, fun w x => w.step x.1 x.2⟩

end World

def userMachine (copy : Layout → Kmem → Pgdir → Nat → Except Stop (Kmem × Pgdir × Option Pgdir)) (L : Layout) :
    Machine Sys (Slot × UserOp) Out Stop where
  init s := boot L = .ok s
  step s x := step copy L s (.user x.1 x.2)

/-- What is left of a process when it is forgotten which pages it has. -/
def Proc.task (k : Kmem) (p : Proc) : Task := ⟨p.state, p.pid, p.parent, p.sz, fun v =>
  if alive p.state then p.pgdir.bind fun d => view k d v else none⟩

def Sys.erase (s : Sys) : World := ⟨fun j => (s.proc j).task s.k, s.initproc, s.nextpid⟩

end OpSys.Cow
