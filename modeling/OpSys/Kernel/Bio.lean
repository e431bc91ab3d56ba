import OpSys.Lib.Transition
import OpSys.Lib.Register
import Mathlib.Data.List.FinRange
import Mathlib.Data.Nat.ModEq

/-! `bio.c` and `ide.c`: the cache of disk blocks, any number of processes that use it, the
queue of requests and the disk. A step is what a process or the handler of interrupts does
under one hold of a lock, with what it does to its own buffer next to it. -/
namespace OpSys.Bio
open Function OpSys.Transition OpSys.Register

abbrev NBUF : Nat := 10

abbrev BufId := Fin NBUF

/-- The device number of a buffer that was never used. -/
def noDev : Nat := 2 ^ 32 - 1

/-- `B_BUSY`, `B_VALID` and `B_DIRTY` are fields here. -/
structure Buf (β : Type*) where
  busy : Bool
  valid : Bool
  dirty : Bool
  dev : Nat
  sector : Nat
  data : β

/-- What the disk is told of a block: one bit of the device and 28 of the sector. -/
abbrev Addr := Nat × Nat

def Buf.address {β : Type*} (b : Buf β) : Addr := (b.dev % 2, b.sector % 2 ^ 28)

structure Request (β : Type*) where
  address : Addr
  write : Option β

/-- `getting`: in `bget`. `asleep`: there, on a buffer. `starting`, `waiting` and `checking`:
in `iderw`, for `bwrite` or for `bread`. -/
inductive Phase where
  | idle
  | getting (dev sector : Nat)
  | asleep (b : BufId) (dev sector : Nat)
  | starting (b : BufId) (writes : Bool)
  | waiting (b : BufId) (writes : Bool)
  | checking (b : BufId) (writes : Bool)
  deriving DecidableEq

/-- `lru` is the list of buffers from `head.next` on, `started` what the disk is doing, `held`
the buffers that a process has from `bread`. -/
structure State (P β : Type*) where
  buf : BufId → Buf β
  lru : List BufId
  queue : List BufId
  started : Option (Request β)
  disk : Addr → β
  havedisk1 : Bool
  held : P → List BufId
  phase : P → Phase

inductive Stop where
  | blocked
  | noBuffers
  | noDisk
  | panic
  deriving DecidableEq

/-- `store`: a process changes the data of a buffer. `intr`: the disk is done, without an
error or with one. -/
inductive Act (P β : Type*) where
  | bread (i : P) (dev sector : Nat)
  | store (i : P) (b : BufId) (x : β)
  | bwrite (i : P) (b : BufId)
  | brelse (i : P) (b : BufId)
  | go (i : P)
  | intr (fine : Bool)

section
variable {P β : Type*}

def Phase.wake (b : BufId) : Phase → Phase
  | .asleep b' dev sector => if b' = b then .getting dev sector else .asleep b' dev sector
  | .waiting b' writes => if b' = b then .checking b' writes else .waiting b' writes
  | p => p

def idestart (b : Buf β) : Request β := ⟨b.address, if b.dirty then some b.data else none⟩

def returns (b : Buf β) (writes : Bool) : Event Addr β := if writes then .put b.address b.data else .got b.address b.data

abbrev Output (P β : Type*) := Option (P × Event Addr β)

abbrev Result (P β : Type*) := Except Stop (State P β × Output P β)

variable [DecidableEq P]

def State.turn (s : State P β) (i : P) (p : Phase) : State P β := {s with phase := update s.phase i p}

def State.take (s : State P β) (i : P) (b : BufId) (new : Buf β) : State P β :=
  {s with buf := update s.buf b new, held := update s.held i (b :: s.held i)}

def got (s : State P β) (i : P) (b : BufId) : State P β × Output P β :=
  if (s.buf b).valid then (s.turn i .idle, some (i, returns (s.buf b) false)) else (s.turn i (.starting b false), none)

def bget (s : State P β) (i : P) (dev sector : Nat) : Result P β :=
  match s.lru.find? fun b => (s.buf b).dev = dev ∧ (s.buf b).sector = sector with
  | some b =>
    if (s.buf b).busy then .ok (s.turn i (.asleep b dev sector), none)
    else .ok (got (s.take i b {s.buf b with busy := true}) i b)
  | none => match s.lru.reverse.find? fun b => !(s.buf b).busy with
    | some b => .ok (got (s.take i b {s.buf b with dev := dev, sector := sector, busy := true, valid := false, dirty := false}) i b)
    | none => .error .noBuffers

def checks (s : State P β) (i : P) (b : BufId) (writes : Bool) : State P β × Output P β :=
  if (s.buf b).valid ∧ (s.buf b).dirty = false then (s.turn i .idle, some (i, returns (s.buf b) writes)) else (s.turn i (.waiting b writes), none)

def iderw (s : State P β) (i : P) (b : BufId) (writes : Bool) : Result P β :=
  if (s.buf b).busy = false then .error .panic
  else if (s.buf b).valid ∧ (s.buf b).dirty = false then .error .panic
  else if (s.buf b).dev ≠ 0 ∧ s.havedisk1 = false then .error .noDisk
  else
    let s := {s with queue := s.queue ++ [b]}
    let s := if s.queue.head? = some b then {s with started := some (idestart (s.buf b))} else s
    .ok (checks s i b writes)

def go (s : State P β) (i : P) : Result P β := match s.phase i with
  | .idle | .asleep _ _ _ | .waiting _ _ => .error .blocked
  | .getting dev sector => bget s i dev sector
  | .starting b writes => iderw s i b writes
  | .checking b writes => .ok (checks s i b writes)

def wakeup (s : State P β) (b : BufId) : State P β := {s with phase := fun i => (s.phase i).wake b}

def done (s : State P β) : State P β := match s.started with
  | some ⟨a, some x⟩ => {s with disk := update s.disk a x}
  | _ => s

/-- What is in a buffer when its request is done: what was read, if it was to be read and
there was no error. -/
def insl (s : State P β) (fine : Bool) (b : BufId) : β := match s.started with
  | some ⟨a, _⟩ => if (s.buf b).dirty = false ∧ fine then s.disk a else (s.buf b).data
  | none => (s.buf b).data

def Buf.finish (b : Buf β) (x : β) : Buf β := {b with data := x, valid := true, dirty := false}

def ideintr (s : State P β) (fine : Bool) : State P β :=
  match s.queue with
  | [] => s
  | b :: rest =>
    let s := wakeup {s with queue := rest, buf := update s.buf b ((s.buf b).finish (insl s fine b))} b
    {s with started := rest.head?.map fun b => idestart (s.buf b)}

/-- A process uses only buffers that it has. -/
def step (s : State P β) : Act P β → Result P β
  | .bread i dev sector => if s.phase i = .idle then .ok (s.turn i (.getting dev sector), none) else .error .blocked
  | .store i b x =>
    if s.phase i = .idle ∧ b ∈ s.held i then .ok ({s with buf := update s.buf b {s.buf b with data := x}}, none) else .error .blocked
  | .bwrite i b =>
    if s.phase i = .idle ∧ b ∈ s.held i then
      if (s.buf b).busy = false then .error .panic
      else .ok ({s.turn i (.starting b true) with buf := update s.buf b {s.buf b with dirty := true}}, none)
    else .error .blocked
  | .brelse i b =>
    if s.phase i = .idle ∧ b ∈ s.held i then
      if (s.buf b).busy = false then .error .panic
      else .ok (wakeup {s with lru := b :: s.lru.erase b, buf := update s.buf b {s.buf b with busy := false}, held := update s.held i ((s.held i).erase b)} b, none)
    else .error .blocked
  | .go i => go s i
  | .intr fine => .ok (ideintr (done s) fine, none)

def Boot (s : State P β) : Prop :=
  (∀ b, (s.buf b).busy = false ∧ (s.buf b).valid = false ∧ (s.buf b).dirty = false ∧ (s.buf b).dev = noDev) ∧ s.lru = (List.finRange NBUF).reverse ∧
    s.queue = [] ∧ s.started = none ∧ (∀ i, s.held i = []) ∧ ∀ i, s.phase i = .idle

def machine : Machine (State P β) (Act P β) (Output P β) Stop := ⟨Boot, step⟩

end

end OpSys.Bio
