import OpSys.Lib.Transition
import OpSys.Xv6.Base

/-! `proc.c` of the stride scheduler: the process table, one iteration of the loop
of `scheduler` on some processor, and all else that writes to the table. Each
step is what happens under one hold of `ptable.lock`. -/
namespace OpSys.Stride
open OpSys.Xv6 OpSys.Transition

def maxStride : Int := 10000

def int32 (x : Int) : Int := x.bmod (2 ^ 32)

/-- What a process sleeps on: a process, in `wait`, or some other address. -/
inductive Chan where
  | proc (i : Slot)
  | other (n : Nat)
  deriving DecidableEq

/-- `chan` has a meaning while the process sleeps; `np` is the local variable of
`fork`, on the stack of the parent. -/
structure Proc where
  state : ProcState
  pid : Int
  parent : Option Slot
  chan : Option Chan
  killed : Bool
  initStride : Int
  tickets : Int
  passvalue : Int
  ticks : Int
  np : Option Slot

/-- Processor `c` runs `running c`, or the scheduler; `chosen c` is `chosenProc`,
the local variable of its `scheduler`, without a value at first. -/
structure Sys (C : Type) where
  proc : Slot → Proc
  nextpid : Int
  initproc : Slot
  running : C → Option Slot
  chosen : C → Option Slot

def slots : List Slot := List.finRange nproc

variable {C : Type} [DecidableEq C]

namespace Sys

def put (s : Sys C) (i : Slot) (p : Proc) : Sys C := {s with proc := Function.update s.proc i p}

/-- `sched`: back to the scheduler of the processor, which sets `proc` to 0. -/
def leave (s : Sys C) (c : C) : Sys C := {s with running := Function.update s.running c none}

end Sys

/-! ### `scheduler` -/

/-- The body of the loop over the table, on `lowestPV` and `chosenProc`. -/
def look (proc : Slot → Proc) (x : Int × Option Slot) (i : Slot) : Int × Option Slot :=
  if (proc i).state ≠ .runnable then x
  else
    let currPV := (proc i).passvalue
    if x.1 = -1 ∨ currPV < x.1 then (currPV, some i) else x

/-- `lowestPV` is -1 at the start of every iteration. -/
def choose (proc : Slot → Proc) (chosen : Option Slot) : Option Slot := (slots.foldl (look proc) (-1, chosen)).2

def picked (p : Proc) : Proc := {p with
  passvalue := int32 (p.passvalue + p.initStride)
  ticks := int32 (p.ticks + 1)
  state := .running}

def scheduler (s : Sys C) (c : C) : Except Stop (Sys C × Option Slot) :=
  match choose s.proc (s.chosen c) with
  | none => .error .wild
  | some i => .ok ({s.put i (picked (s.proc i)) with
      running := Function.update s.running c (some i)
      chosen := Function.update s.chosen c (some i)}, some i)

/-! ### What the running process does -/

def yield (s : Sys C) (c : C) (i : Slot) : Sys C := (s.put i {s.proc i with state := .runnable}).leave c

def sleep (s : Sys C) (c : C) (i : Slot) (chan : Chan) : Sys C :=
  (s.put i {s.proc i with chan := some chan, state := .sleeping}).leave c

def wakeup1 (s : Sys C) (chan : Option Chan) : Sys C := {s with
  proc := fun j =>
    let p := s.proc j
    if p.state = .sleeping ∧ p.chan = chan then {p with state := .runnable} else p}

/-- The table when `exit` passes the children of `i` to `init`. -/
def abandon (s : Sys C) (i : Slot) : Sys C :=
  let t : Sys C := {s with proc := fun j => if (s.proc j).parent = some i then {s.proc j with parent := some s.initproc} else s.proc j}
  if ∃ j, (s.proc j).parent = some i ∧ (s.proc j).state = .zombie then wakeup1 t (some (.proc s.initproc)) else t

def exit (s : Sys C) (c : C) (i : Slot) : Except Stop (Sys C) :=
  if i = s.initproc then .error (.panic "init exiting")
  else
    let s := abandon (wakeup1 s ((s.proc i).parent.map .proc)) i
    .ok ((s.put i {s.proc i with state := .zombie}).leave c)

/-- A process that wakes up in `wait` looks again. -/
def wait (s : Sys C) (c : C) (i : Slot) : Sys C :=
  match slots.find? fun j => (s.proc j).parent = some i ∧ (s.proc j).state = .zombie with
  | some j => s.put j {s.proc j with state := .unused, pid := 0, parent := none, killed := false}
  | none =>
    if (∀ j, (s.proc j).parent ≠ some i) ∨ (s.proc i).killed then s
    else sleep s c i (.proc i)

/-- The part of `fork` that `allocproc` does under the lock. -/
def allocproc (s : Sys C) (i : Slot) : Sys C :=
  match slots.find? fun j => (s.proc j).state = .unused with
  | none => s
  | some j =>
    let stride := maxStride.tdiv 1
    let t := s.put j {s.proc j with
      state := .embryo
      pid := s.nextpid
      tickets := 1
      ticks := 0
      initStride := stride
      passvalue := stride}
    {t.put i {t.proc i with np := some j} with nextpid := s.nextpid + 1}

def forkFails (s : Sys C) (i j : Slot) : Sys C :=
  let t := s.put j {s.proc j with state := .unused}
  t.put i {t.proc i with np := none}

def forkReturns (s : Sys C) (i j : Slot) : Sys C :=
  let p := s.proc i
  let t := s.put j {s.proc j with
    parent := some i
    initStride := p.initStride
    tickets := p.tickets
    passvalue := p.initStride
    ticks := 0
    state := .runnable}
  t.put i {t.proc i with np := none}

def settickets (s : Sys C) (i : Slot) (n : Int) : Sys C :=
  if n ≤ 0 then s
  else
    let stride := maxStride.tdiv n
    s.put i {s.proc i with tickets := n, initStride := stride, passvalue := stride}

def kill (s : Sys C) (pid : Int) : Sys C :=
  match slots.find? fun j => (s.proc j).pid = pid with
  | none => s
  | some j =>
    let p := s.proc j
    s.put j {p with killed := true, state := if p.state = .sleeping then .runnable else p.state}

/-! ### The machine -/

/-- `wakeup` comes from interrupts too; all else but `schedule` is done by the
process that runs on the processor. -/
inductive Op (C : Type) where
  | schedule (c : C)
  | yield (c : C)
  | sleep (c : C) (n : Nat)
  | exit (c : C)
  | wait (c : C)
  | fork (c : C)
  | forkFails (c : C)
  | forkReturns (c : C)
  | settickets (c : C) (n : Int)
  | kill (c : C) (pid : Int)
  | wakeup (n : Nat)

def call (s : Sys C) (c : C) (act : Slot → Except Stop (Sys C)) : Except Stop (Sys C × Option Slot) :=
  match s.running c with
  | none => .error .idle
  | some i => match (s.proc i).np with
    | some _ => .error .idle
    | none => do
      let s ← act i
      return (s, none)

def forking (s : Sys C) (c : C) (act : Slot → Slot → Sys C) : Except Stop (Sys C × Option Slot) :=
  match s.running c with
  | none => .error .idle
  | some i => match (s.proc i).np with
    | some j => .ok (act i j, none)
    | none => .error .idle

def step (s : Sys C) : Op C → Except Stop (Sys C × Option Slot)
  | .schedule c => match s.running c with
    | some _ => .error .idle
    | none => scheduler s c
  | .yield c => match s.running c with
    | some i => .ok (yield s c i, none)
    | none => .error .idle
  | .sleep c n => call s c fun i => .ok (sleep s c i (.other n))
  | .exit c => call s c fun i => exit s c i
  | .wait c => call s c fun i => .ok (wait s c i)
  | .fork c => call s c fun i => .ok (allocproc s i)
  | .forkFails c => forking s c fun i j => forkFails s i j
  | .forkReturns c => forking s c fun i j => forkReturns s i j
  | .settickets c n => call s c fun i => .ok (settickets s i n)
  | .kill c pid => call s c fun _ => .ok (kill s pid)
  | .wakeup n => .ok (wakeup1 s (some (.other n)), none)

def procBss : Proc := ⟨.unused, 0, none, none, false, 0, 0, 0, 0, none⟩

def boot : Sys C where
  proc := Function.update (fun _ => procBss) 0 ⟨.runnable, 1, none, none, false, maxStride, 1, maxStride, 0, none⟩
  nextpid := 2
  initproc := 0
  running _ := none
  chosen _ := none

def machine (C : Type) [DecidableEq C] : Machine (Sys C) (Op C) (Option Slot) Stop where
  init s := s = boot
  step := step

end OpSys.Stride
