import OpSys.Cow.Exec
import OpSys.Cow.Sysfile
import OpSys.Lib.Transition

/-! The kernel as a machine: each step is one act of one process, a completed
system call or one instruction that touches memory. -/
namespace OpSys.Cow
open OpSys.Xv6 OpSys.Transition

inductive UserOp where
  | fork
  | load (a : Nat)
  | store (a : Nat) (b : UInt8)
  | sbrk (n : Word)
  | exit
  | wait

inductive Op where
  | user (i : Slot) (op : UserOp)
  | exec (i : Slot) (ip : Option Inode) (path : List UInt8) (argv : List (List UInt8)) (stack : List UInt8)
  | kill (i : Slot) (pid : Int)
  | timer (i : Slot)
  | read (i : Slot) (f : File) (addr : Nat) (n : Word)
  | fstat (i : Slot) (ip : Inode) (st : Nat)
  | pipe (i : Slot) (fd : Nat) (files : Bool) (fds : Option (Nat × Nat))
  | write (i : Slot) (m addr : Nat) (n : Word)
  | close (m : Nat) (writable : Bool)

/-- What the process gets to see; `exited` when it does not return to user mode. -/
inductive Out where
  | byte (b : UInt8)
  | done
  | value (r : Option Int)
  | exited
  deriving DecidableEq

/-- A system call: a process that has been killed exits before or after it. -/
def syscall (s : Sys) (i : Slot) (body : Sys → Except Stop (Sys × Option Int)) : Except Stop (Sys × Out) :=
  if (s.proc i).killed then do
    let s ← exit s i
    return (s, .exited)
  else do
    let (s, r) ← body s
    if (s.proc i).killed then
      let s ← exit s i
      return (s, .exited)
    else return (s, .value r)

def status (x : Except Stop (Sys × Bool)) : Except Stop (Sys × Option Int) := do
  let (s, ok) ← x
  return (s, if ok then some 0 else none)

def count (x : Except Stop (Sys × Option Nat)) : Except Stop (Sys × Option Int) := do
  let (s, n) ← x
  return (s, n.map Int.ofNat)

def userStep (copy : Layout → Kmem → Pgdir → Nat → Except Stop (Kmem × Pgdir × Option Pgdir)) (L : Layout) (s : Sys)
    (i : Slot) : UserOp → Except Stop (Sys × Out)
  | .fork => syscall s i fun s => fork copy L s i
  | .load a => do
    let (s, b) ← load s i a
    return (s, match b with
      | some b => .byte b
      | none => .exited)
  | .store a b => do
    let s ← store s i a b
    return (s, .done)
  | .sbrk n => syscall s i fun s => count (sysSbrk L s i n)
  | .exit => do
    let s ← exit s i
    return (s, .exited)
  | .wait => syscall s i fun s => wait L s i

def acting (s : Sys) (i : Slot) (act : Except Stop (Sys × Out)) : Except Stop (Sys × Out) :=
  if (s.proc i).state = .runnable then act else .error .idle

def step (copy : Layout → Kmem → Pgdir → Nat → Except Stop (Kmem × Pgdir × Option Pgdir)) (L : Layout) (s : Sys) :
    Op → Except Stop (Sys × Out)
  | .user i op => acting s i (userStep copy L s i op)
  | .exec i ip path argv stack => acting s i (syscall s i fun s =>
      status (if maxArg ≤ argv.length then .ok (s, false) else exec L s i ip path argv stack))
  | .kill i pid => acting s i (syscall s i fun s => status (.ok (kill s pid)))
  | .timer i => acting s i (
      if (s.proc i).killed then do
        let s ← exit s i
        return (s, .exited)
      else .ok (s, .done))
  | .read i f addr n => acting s i (syscall s i fun s => count (sysRead s i f addr n))
  | .fstat i ip st => acting s i (syscall s i fun s => status (sysFstat s i ip st))
  | .pipe i fd files fds => acting s i (syscall s i fun s => status (sysPipe L s i fd files fds))
  | .write i m addr n => acting s i (syscall s i fun s => count (sysWrite s i m addr n))
  | .close m writable => do
    let s ← pipeclose L s m writable
    return (s, .done)

def machine (copy : Layout → Kmem → Pgdir → Nat → Except Stop (Kmem × Pgdir × Option Pgdir)) (L : Layout) :
    Machine Sys Op Out Stop where
  init s := boot L = .ok s
  step := step copy L

end OpSys.Cow
