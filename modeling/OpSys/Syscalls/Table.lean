import OpSys.Lib.Transition
import OpSys.Xv6.Base

/-! `proc.c` with the system calls that were added: the process table, all that writes to
it, and `getprocstate`. A step is what happens under one hold of `ptable.lock`, or what
`fork` does to the slot of its child without it. -/
namespace OpSys.Syscalls
open OpSys.Xv6 OpSys.Transition

abbrev Bytes := List UInt8

def int32 (x : Int) : Int := x.bmod 4294967296

/-- What a process sleeps on: a process, in `wait`, or some other address. -/
inductive Chan where
  | proc (i : Slot)
  | other (n : Nat)
  deriving DecidableEq

/-- `np` is the local variable of `fork`, on the stack of the parent. -/
structure Proc where
  state : ProcState
  pid : Int
  parent : Option Slot
  chan : Option Chan
  killed : Bool
  np : Option Slot

/-- The processes in state `running` are on some processor; which one, and where the
loop of each `scheduler` has come to, is left out. -/
structure Sys where
  proc : Slot → Proc
  nextpid : Int
  initproc : Slot

def slots : List Slot := List.finRange nproc

def Sys.put (s : Sys) (i : Slot) (p : Proc) : Sys := {s with proc := Function.update s.proc i p}

def sleep (s : Sys) (i : Slot) (chan : Chan) : Sys := s.put i {s.proc i with chan := some chan, state := .sleeping}

def wakeup1 (s : Sys) (chan : Option Chan) : Sys := {s with
  proc := fun j =>
    let p := s.proc j
    if p.state = .sleeping ∧ p.chan = chan then {p with state := .runnable} else p}

/-- The table when `exit` passes the children of `i` to `init`. -/
def abandon (s : Sys) (i : Slot) : Sys :=
  let t : Sys := {s with proc := fun j => if (s.proc j).parent = some i then {s.proc j with parent := some s.initproc} else s.proc j}
  if ∃ j, (s.proc j).parent = some i ∧ (s.proc j).state = .zombie then wakeup1 t (some (.proc s.initproc)) else t

def exit (s : Sys) (i : Slot) : Except Stop Sys :=
  if i = s.initproc then .error (.panic "init exiting")
  else
    let s := abandon (wakeup1 s ((s.proc i).parent.map .proc)) i
    .ok (s.put i {s.proc i with state := .zombie})

/-- A process that wakes up in `wait` looks again. -/
def wait (s : Sys) (i : Slot) : Sys :=
  match slots.find? fun j => (s.proc j).parent = some i ∧ (s.proc j).state = .zombie with
  | some j => s.put j {s.proc j with state := .unused, pid := 0, parent := none, killed := false}
  | none =>
    if (∀ j, (s.proc j).parent ≠ some i) ∨ (s.proc i).killed then s
    else sleep s i (.proc i)

/-- The part of `fork` that `allocproc` does under the lock. -/
def allocproc (s : Sys) (i : Slot) : Sys :=
  match slots.find? fun j => (s.proc j).state = .unused with
  | none => s
  | some j =>
    let t := s.put j {s.proc j with state := .embryo, pid := s.nextpid}
    {t.put i {t.proc i with np := some j} with nextpid := int32 (s.nextpid + 1)}

/-- There is no memory, for the kernel stack or for the copy of the address space. -/
def forkFails (s : Sys) (i j : Slot) : Sys :=
  let t := s.put j {s.proc j with state := .unused}
  t.put i {t.proc i with np := none}

def forkReturns (s : Sys) (i j : Slot) : Sys :=
  let t := s.put j {s.proc j with parent := some i, state := .runnable}
  t.put i {t.proc i with np := none}

def kill (s : Sys) (pid : Int) : Sys :=
  match slots.find? fun j => (s.proc j).pid = pid with
  | none => s
  | some j =>
    let p := s.proc j
    s.put j {p with killed := true, state := if p.state = .sleeping then .runnable else p.state}

/-! ### `getprocstate` -/

def ascii (s : List Char) : Bytes := s.map fun c => UInt8.ofNat c.toNat

/-- The table of `procdump`. -/
def states : ProcState → Bytes
  | .unused => ascii ['u', 'n', 'u', 's', 'e', 'd']
  | .embryo => ascii ['e', 'm', 'b', 'r', 'y', 'o']
  | .sleeping => ascii ['s', 'l', 'e', 'e', 'p', ' ']
  | .runnable => ascii ['r', 'u', 'n', 'b', 'l', 'e']
  | .running => ascii ['r', 'u', 'n', ' ', ' ', ' ']
  | .zombie => ascii ['z', 'o', 'm', 'b', 'i', 'e']

/-- The bytes that are stored, in order; `t` is without its NUL. -/
def strncpy (t : Bytes) : Nat → Bytes
  | 0 => []
  | n + 1 => match t with
    | [] => 0 :: List.replicate n 0
    | c :: t => c :: strncpy t n

/-- What is stored from `state` on, and what is returned. -/
def getprocstate (proc : Slot → Proc) (pid n : Int) : Bytes × Int :=
  if n < 7 then ([], -1)
  else match slots.find? fun j => (proc j).pid = pid with
    | none => ([], -1)
    | some j => match (proc j).state with
      | .unused => (strncpy (ascii ['u', 'n', 'u', 's', 'e', 'd']) n.toNat, 0)
      | .embryo => (strncpy (ascii ['e', 'm', 'b', 'r', 'y', 'o']) n.toNat, 0)
      | .sleeping => (strncpy (ascii ['s', 'l', 'e', 'e', 'p', ' ']) n.toNat, 0)
      | .runnable => (strncpy (ascii ['r', 'u', 'n', 'b', 'l', 'e']) n.toNat, 0)
      | .running => (strncpy (ascii ['r', 'u', 'n', ' ', ' ', ' ']) n.toNat, 0)
      | .zombie => (strncpy (ascii ['z', 'o', 'm', 'b', 'i', 'e']) n.toNat, 0)

/-! ### The machine -/

/-- What the process in slot `i` does, the choice of a `scheduler`, and `wakeup` from an
interrupt. -/
inductive Op where
  | schedule (i : Slot)
  | yield (i : Slot)
  | sleep (i : Slot) (n : Nat)
  | exit (i : Slot)
  | wait (i : Slot)
  | fork (i : Slot)
  | forkFails (i : Slot)
  | forkReturns (i : Slot)
  | kill (i : Slot) (pid : Int)
  | wakeup (n : Nat)

def inState (state : ProcState) (s : Sys) (i : Slot) (act : Except Stop Sys) : Except Stop (Sys × Unit) :=
  if (s.proc i).state = state then act.map (·, ()) else .error .idle

def call (s : Sys) (i : Slot) (act : Except Stop Sys) : Except Stop (Sys × Unit) := match (s.proc i).np with
  | some _ => .error .idle
  | none => inState .running s i act

def forking (s : Sys) (i : Slot) (act : Slot → Sys) : Except Stop (Sys × Unit) := match (s.proc i).np with
  | some j => inState .running s i (.ok (act j))
  | none => .error .idle

def step (s : Sys) : Op → Except Stop (Sys × Unit)
  | .schedule i => inState .runnable s i (.ok (s.put i {s.proc i with state := .running}))
  | .yield i => inState .running s i (.ok (s.put i {s.proc i with state := .runnable}))
  | .sleep i n => call s i (.ok (sleep s i (.other n)))
  | .exit i => call s i (exit s i)
  | .wait i => call s i (.ok (wait s i))
  | .fork i => call s i (.ok (allocproc s i))
  | .forkFails i => forking s i (forkFails s i)
  | .forkReturns i => forking s i (forkReturns s i)
  | .kill i pid => call s i (.ok (kill s pid))
  | .wakeup n => .ok (wakeup1 s (some (.other n)), ())

def procBss : Proc := ⟨.unused, 0, none, none, false, none⟩

def boot : Sys where
  proc := Function.update (fun _ => procBss) 0 ⟨.runnable, 1, none, none, false, none⟩
  nextpid := 2
  initproc := 0

def machine : Machine Sys Op Unit Stop where
  init s := s = boot
  step := step

end OpSys.Syscalls
