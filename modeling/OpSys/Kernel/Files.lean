import OpSys.Kernel.Pipe

/-! `file.c`, the calls of `sysfile.c` on descriptors, and what `fork` and `exit` do with
them, for any number of processes. A step is what a process does under one hold of a lock,
with what it does to its own descriptors next to it. -/
namespace OpSys.Files
open Function OpSys.Transition
open OpSys.Cow (Pipe Word)
open OpSys.Pipes (Call Chan Out Bytes)

abbrev NFILE : Nat := 100
abbrev NOFILE : Nat := 16

abbrev FileId := Fin NFILE
abbrev Fd := Fin NOFILE

abbrev Page := Nat

inductive Kind where
  | none
  | pipe (m : Page)
  | inode (ip : Nat)
  deriving DecidableEq

structure File where
  type : Kind
  ref : Nat
  readable : Bool
  writable : Bool

def File.able (f : File) (writes : Bool) : Bool := if writes then f.writable else f.readable

inductive Job where
  | fileclose (f : FileId)
  | pipeclose (m : Page) (writable : Bool)
  deriving DecidableEq

/-- `closing`: with what the call returns then, or in `exit`. `piping`: in `pipealloc`, with
one file or both. -/
inductive Phase (P : Type*) where
  | unused
  | embryo (parent : P)
  | zombie
  | idle
  | opening (f : FileId) (ip : Nat) (readable writable : Bool)
  | piping (rf : FileId)
  | piping2 (rf wf : FileId)
  | closing (jobs : List Job) (returns : Option Int)
  | exiting
  | forking (child : P) (fd : Nat)
  | inside (m : Page) (call : Monitor.Phase Call Chan)
  deriving DecidableEq

structure State (P : Type*) where
  file : FileId → File
  pipes : Page → Option Pipe
  ofile : P → Fd → Option FileId
  killed : P → Bool
  phase : P → Phase P

inductive Stop where
  | blocked
  | panic
  | wild
  deriving DecidableEq

/-- `open'` stands for `sys_open` after `namei` or `create`. -/
inductive Ask (P : Type*) where
  | open' (ip : Nat) (readable writable : Bool)
  | dup (fd : Fd)
  | close (fd : Fd)
  | read (fd : Fd) (n : Word)
  | write (fd : Fd) (n : Int) (text : Bytes)
  | pipe
  | fork (child : P)
  | exit

/-- `go`: the next step of a process, with the page and its bytes that `kalloc` gives if the
step asks for one. `kill`: the process is made runnable unless it is about to sleep. -/
inductive Act (P : Type*) where
  | ask (i : P) (a : Ask P)
  | go (i : P) (page : Option (Page × (Nat → UInt8)))
  | kill (i : P) (rouse : Bool)
  | reap (i : P)

section
variable {P : Type*}

def filealloc (s : State P) : Option FileId := (List.finRange NFILE).find? fun f => (s.file f).ref = 0

def fdalloc (ofile : Fd → Option FileId) : Option Fd := (List.finRange NOFILE).find? fun fd => ofile fd = none

def setRef (file : FileId → File) (f : FileId) (n : Nat) : FileId → File := update file f {file f with ref := n}

def filedup (file : FileId → File) (f : FileId) : Except Stop (FileId → File) :=
  if (file f).ref < 1 then .error .panic else .ok (setRef file f ((file f).ref + 1))

/-- What is left to do with the copy of the file; the `iput` of an inode is not modelled. -/
def File.jobs (ff : File) : List Job := match ff.type with
  | .pipe m => [.pipeclose m ff.writable]
  | _ => []

def File.gone (f : File) : File := {f with ref := 0, type := .none}

def fileclose (file : FileId → File) (f : FileId) : Except Stop ((FileId → File) × List Job) :=
  if (file f).ref < 1 then .error .panic
  else if 0 < (file f).ref - 1 then .ok (setRef file f ((file f).ref - 1), [])
  else .ok (update file f (file f).gone, (file f).jobs)

def File.toInode (f : File) (ip : Nat) (readable writable : Bool) : File := {f with type := .inode ip, readable := readable, writable := writable}

def setInode (file : FileId → File) (f : FileId) (ip : Nat) (readable writable : Bool) : FileId → File :=
  update file f ((file f).toInode ip readable writable)

def File.toPipe (f : File) (m : Page) (writable : Bool) : File := {f with type := .pipe m, readable := !writable, writable := writable}

def setPipe (file : FileId → File) (f : FileId) (m : Page) (writable : Bool) : FileId → File :=
  update file f ((file f).toPipe m writable)

def pipeinit (m : Page) (data : Nat → UInt8) : Pipe := ⟨m, data, 0, 0, true, true⟩

def Phase.wake (m : Page) (wakes : List Chan) : Phase P → Phase P
  | .inside m' call => .inside m' (if m' = m then call.wake wakes else call)
  | p => p

def Phase.rouse : Phase P → Phase P
  | .inside m call => .inside m call.rouse
  | p => p

def after (m : Page) : Monitor.Next Call Chan → Phase P
  | .done => .idle
  | next => .inside m next.phase

abbrev Output (P : Type*) := Option ((Option Page × P) × Out)

def result (i : P) (r : Int) : Output P := some ((none, i), ⟨[], [], some r⟩)

/-- The last step of `pipeclose`: a pipe without ends is freed. -/
def kept (p : Pipe) : Option Pipe := if p.readopen = false ∧ p.writeopen = false then none else some p

variable [DecidableEq P]

def State.turn (s : State P) (i : P) (p : Phase P) : State P := {s with phase := update s.phase i p}

abbrev Result (P : Type*) := Except Stop (State P × Output P)

/-- `fileread` and `filewrite` up to the pipe; an inode is not modelled. -/
def transfer (s : State P) (i : P) (fd : Fd) (writes : Bool) (call : Call) : Result P := match s.ofile i fd with
  | none => .ok (s, result i (-1))
  | some f =>
    if (s.file f).able writes = false then .ok (s, result i (-1))
    else match (s.file f).type with
      | .pipe m => .ok (s.turn i (.inside m (.ready call)), none)
      | .inode _ => .ok (s, none)
      | .none => .error .panic

def ask (s : State P) (i : P) : Ask P → Result P
  | .open' ip readable writable => match filealloc s with
    | none => .ok (s, result i (-1))
    | some f => .ok ({s.turn i (.opening f ip readable writable) with file := setRef s.file f 1}, none)
  | .dup fd => match s.ofile i fd with
    | none => .ok (s, result i (-1))
    | some f => match fdalloc (s.ofile i) with
      | none => .ok (s, result i (-1))
      | some newFd => match filedup s.file f with
        | .error e => .error e
        | .ok file => .ok ({s with file := file, ofile := update s.ofile i (update (s.ofile i) newFd (some f))}, result i newFd)
  | .close fd => match s.ofile i fd with
    | none => .ok (s, result i (-1))
    | some f => .ok ({s.turn i (.closing [.fileclose f] (some 0)) with ofile := update s.ofile i (update (s.ofile i) fd none)}, none)
  | .read fd n => transfer s i fd false (.read n)
  | .write fd n text => transfer s i fd true (.write n text)
  | .pipe => match filealloc s with
    | none => .ok (s, result i (-1))
    | some f => .ok ({s.turn i (.piping f) with file := setRef s.file f 1}, none)
  | .fork child => match s.phase child with
    | .unused => .ok ({s with phase := update (update s.phase child (.embryo i)) i (.forking child 0)}, none)
    | _ => .error .blocked
  | .exit => .ok (s.turn i .exiting, none)

def pipeFds (s : State P) (i : P) (rf wf : FileId) (m : Page) (data : Nat → UInt8) : State P × Output P :=
  let s := {s with pipes := update s.pipes m (some (pipeinit m data)), file := setPipe (setPipe s.file rf m false) wf m true}
  let fails := (s.turn i (.closing [.fileclose rf, .fileclose wf] (some (-1))), none)
  match fdalloc (s.ofile i) with
  | none => fails
  | some fd0 => match fdalloc (update (s.ofile i) fd0 (some rf)) with
    | none => fails
    | some fd1 => ({s.turn i .idle with ofile := update s.ofile i (update (update (s.ofile i) fd0 (some rf)) fd1 (some wf))}, result i 0)

def section' (s : State P) (i : P) (m : Page) (p : Option Pipe) (wakes : List Chan) (next : Phase P) : State P :=
  {s with pipes := update s.pipes m p, phase := update (fun j => (s.phase j).wake m wakes) i next}

/-- In `exit` a descriptor is cleared before its file is closed here, and not after: nobody
else looks at it. -/
def go (s : State P) (i : P) (page : Option (Page × (Nat → UInt8))) : Result P := match s.phase i with
  | .unused | .embryo _ | .zombie | .idle => .error .blocked
  | .opening f ip readable writable => match fdalloc (s.ofile i) with
    | none => .ok (s.turn i (.closing [.fileclose f] (some (-1))), none)
    | some fd => .ok ({s.turn i .idle with file := setInode s.file f ip readable writable, ofile := update s.ofile i (update (s.ofile i) fd (some f))}, result i fd)
  | .piping rf => match filealloc s with
    | none => .ok (s.turn i (.closing [.fileclose rf] (some (-1))), none)
    | some wf => .ok ({s.turn i (.piping2 rf wf) with file := setRef s.file wf 1}, none)
  | .piping2 rf wf => match page with
    | none => .ok (s.turn i (.closing [.fileclose rf, .fileclose wf] (some (-1))), none)
    | some (m, data) => if (s.pipes m).isSome then .error .blocked else .ok (pipeFds s i rf wf m data)
  | .closing [] (some r) => .ok (s.turn i .idle, result i r)
  | .closing [] none => .ok (s.turn i .exiting, none)
  | .closing (.fileclose f :: rest) returns => match fileclose s.file f with
    | .error e => .error e
    | .ok (file, jobs) => .ok ({s.turn i (.closing (jobs ++ rest) returns) with file := file}, none)
  | .closing (.pipeclose m writable :: rest) returns => match s.pipes m with
    | none => .error .wild
    | some p =>
      let sec := Pipes.pipeclose writable p
      .ok (section' s i m (kept sec.state) sec.wakes (.closing rest returns), none)
  | .exiting => match (List.finRange NOFILE).find? fun fd => (s.ofile i fd).isSome with
    | none => .ok (s.turn i .zombie, none)
    | some fd => match s.ofile i fd with
      | none => .error .blocked
      | some f => .ok ({s.turn i (.closing [.fileclose f] none) with ofile := update s.ofile i (update (s.ofile i) fd none)}, none)
  | .forking child n =>
    if fits : n < NOFILE then match s.ofile i ⟨n, fits⟩ with
      | none => .ok (s.turn i (.forking child (n + 1)), none)
      | some f => match filedup s.file f with
        | .error e => .error e
        | .ok file => .ok ({s.turn i (.forking child (n + 1)) with file := file, ofile := update s.ofile child (update (s.ofile child) ⟨n, fits⟩ (some f))}, none)
    else .ok ({s with phase := update (update s.phase child .idle) i .idle}, none)
  | .inside m (.ready k) => match s.pipes m with
    | none => .error .wild
    | some p => match Pipes.code k (s.killed i) p with
      | none => .error .panic
      | some sec => .ok (section' s i m (some sec.state) sec.wakes (after m sec.next), some ((some m, i), sec.out))
  | .inside _ _ => .error .blocked

def step (s : State P) : Act P → Result P
  | .ask i a => match s.phase i with
    | .idle => ask s i a
    | _ => .error .blocked
  | .go i page => go s i page
  | .kill i rouse => .ok ({s with killed := update s.killed i true, phase := if rouse then update s.phase i (s.phase i).rouse else s.phase}, none)
  | .reap i => match s.phase i with
    | .zombie => .ok ({s.turn i .unused with killed := update s.killed i false}, none)
    | _ => .error .blocked

def Boot (s : State P) : Prop :=
  (∀ f, (s.file f).ref = 0 ∧ (s.file f).type = .none) ∧ (∀ m, s.pipes m = none) ∧ (∀ i fd, s.ofile i fd = none) ∧
    ∃ i, s.phase = update (fun _ => .unused) i .idle

def machine : Machine (State P) (Act P) (Output P) Stop := ⟨Boot, step⟩

/-! ### What a step can do -/

inductive Wants (f : FileId) : Phase P → Phase P → Prop where
  | open' {ip : Nat} {r w : Bool} : Wants f .idle (.opening f ip r w)
  | pipe : Wants f .idle (.piping f)
  | pipe2 {rf : FileId} : Wants f (.piping rf) (.piping2 rf f)

def uses : Call → Option Bool
  | .read _ => some false
  | .write _ _ => some true
  | .close _ => none

inductive Turns (s : State P) (i : P) : Phase P → Phase P → Prop where
  | fails {f : FileId} {ip : Nat} {r w : Bool} : Turns s i (.opening f ip r w) (.closing [.fileclose f] (some (-1)))
  | fails1 {f : FileId} : Turns s i (.piping f) (.closing [.fileclose f] (some (-1)))
  | fails2 {f g : FileId} : Turns s i (.piping2 f g) (.closing [.fileclose f, .fileclose g] (some (-1)))
  | returns {r : Int} : Turns s i (.closing [] (some r)) .idle
  | next : Turns s i (.closing [] none) .exiting
  | exit : Turns s i .idle .exiting
  | exited (bare : ∀ fd, s.ofile i fd = none) : Turns s i .exiting .zombie
  | skips {j : P} {n : Nat} (fits : n < NOFILE) (none : s.ofile i ⟨n, fits⟩ = none) : Turns s i (.forking j n) (.forking j (n + 1))
  | enters {fd : Fd} {f : FileId} {m : Page} {k : Call} {w : Bool} (here : s.ofile i fd = some f) (type : (s.file f).type = .pipe m)
      (way : uses k = some w) (able : (s.file f).able w = true) :
      Turns s i .idle (.inside m (.ready k))

def piped (file : FileId → File) (rf wf : FileId) (m : Page) : FileId → File := setPipe (setPipe file rf m false) wf m true

inductive Quiet : Output P → Prop where
  | none : Quiet none
  | result {i : P} {r : Int} : Quiet (result i r)

inductive Steps (s : State P) (i : P) (o : Output P) : State P → Prop where
  | stay (quiet : Quiet o := by constructor) : Steps s i o s
  | alloc {f : FileId} {p : Phase P} (free : (s.file f).ref = 0) (wants : Wants f (s.phase i) p) (quiet : Quiet o := by constructor) : Steps s i o {s.turn i p with file := setRef s.file f 1}
  | turn {p : Phase P} (turns : Turns s i (s.phase i) p) (quiet : Quiet o := by constructor) : Steps s i o (s.turn i p)
  | dup {fd newFd : Fd} {f : FileId} (idle : s.phase i = .idle) (here : s.ofile i fd = some f) (free : s.ofile i newFd = none) (quiet : Quiet o := by constructor) :
      Steps s i o {s with file := setRef s.file f ((s.file f).ref + 1), ofile := update s.ofile i (update (s.ofile i) newFd (some f))}
  | child {j : P} {n : Nat} {f : FileId} (fits : n < NOFILE) (forking : s.phase i = .forking j n) (here : s.ofile i ⟨n, fits⟩ = some f) (quiet : Quiet o := by constructor) :
      Steps s i o {s.turn i (.forking j (n + 1)) with
        file := setRef s.file f ((s.file f).ref + 1), ofile := update s.ofile j (update (s.ofile j) ⟨n, fits⟩ (some f))}
  | gives {fd : Fd} {f : FileId} {r : Option Int} (why : s.phase i = .idle ∨ s.phase i = .exiting) (here : s.ofile i fd = some f) (quiet : Quiet o := by constructor) :
      Steps s i o {s.turn i (.closing [.fileclose f] r) with ofile := update s.ofile i (update (s.ofile i) fd none)}
  | opens {f : FileId} {ip : Nat} {r w : Bool} {fd : Fd} (opening : s.phase i = .opening f ip r w) (free : s.ofile i fd = none) (quiet : Quiet o := by constructor) :
      Steps s i o {s.turn i .idle with file := setInode s.file f ip r w, ofile := update s.ofile i (update (s.ofile i) fd (some f))}
  | pipes {rf wf : FileId} {m : Page} {data : Nat → UInt8} (piping : s.phase i = .piping2 rf wf) (absent : s.pipes m = none) (quiet : Quiet o := by constructor) :
      Steps s i o {s.turn i (.closing [.fileclose rf, .fileclose wf] (some (-1))) with
        pipes := update s.pipes m (some (pipeinit m data)), file := piped s.file rf wf m}
  | piped {rf wf : FileId} {m : Page} {data : Nat → UInt8} {fd0 fd1 : Fd} (piping : s.phase i = .piping2 rf wf) (absent : s.pipes m = none)
      (free0 : s.ofile i fd0 = none) (free1 : update (s.ofile i) fd0 (some rf) fd1 = none) (quiet : Quiet o := by constructor) :
      Steps s i o {s.turn i .idle with
        pipes := update s.pipes m (some (pipeinit m data)), file := piped s.file rf wf m
        ofile := update s.ofile i (update (update (s.ofile i) fd0 (some rf)) fd1 (some wf))}
  | drops {f : FileId} {rest : List Job} {r : Option Int} (closing : s.phase i = .closing (.fileclose f :: rest) r) (more : 1 < (s.file f).ref) (quiet : Quiet o := by constructor) :
      Steps s i o {s.turn i (.closing rest r) with file := setRef s.file f ((s.file f).ref - 1)}
  | last {f : FileId} {rest : List Job} {r : Option Int} (closing : s.phase i = .closing (.fileclose f :: rest) r) (one : (s.file f).ref = 1) (quiet : Quiet o := by constructor) :
      Steps s i o {s.turn i (.closing ((s.file f).jobs ++ rest) r) with file := update s.file f (s.file f).gone}
  | shuts {m : Page} {w : Bool} {rest : List Job} {r : Option Int} {p : Pipe} (closing : s.phase i = .closing (.pipeclose m w :: rest) r)
      (here : s.pipes m = some p) (quiet : Quiet o := by constructor) : Steps s i o (section' s i m (kept (p.shut w)) (Pipes.pipeclose w p).wakes (.closing rest r))
  | runs {m : Page} {k : Call} {p : Pipe} {sec : Pipes.Hold} (inside : s.phase i = .inside m (.ready k)) (here : s.pipes m = some p)
      (runs : Pipes.code k (s.killed i) p = some sec) (out : o = some ((some m, i), sec.out)) : Steps s i o (section' s i m (some sec.state) sec.wakes (after m sec.next))
  | forks {j : P} (idle : s.phase i = .idle) (unused : s.phase j = .unused) (quiet : Quiet o := by constructor) :
      Steps s i o {s with phase := update (update s.phase j (.embryo i)) i (.forking j 0)}
  | born {j : P} {n : Nat} (forking : s.phase i = .forking j n) (quiet : Quiet o := by constructor) : Steps s i o {s with phase := update (update s.phase j .idle) i .idle}
  | kills {rouse : Bool} (quiet : Quiet o := by constructor) :
      Steps s i o {s with killed := update s.killed i true, phase := if rouse then update s.phase i (s.phase i).rouse else s.phase}
  | reaps (zombie : s.phase i = .zombie) (quiet : Quiet o := by constructor) : Steps s i o {s.turn i .unused with killed := update s.killed i false}

def Act.actor : Act P → P
  | .ask i _ | .go i _ | .kill i _ | .reap i => i

variable {s s' : State P} {i j : P} {a : Act P} {o : Output P} {f g : FileId} {fd : Fd} {m : Page} {w : Bool} {k : Call} {file file' : FileId → File}
  {page : Option (Page × (Nat → UInt8))} {jobs new : List Job} {r : Option Int} {ofile : Fd → Option FileId} {pipes : Page → Option Pipe}

theorem pipecloseShut (w : Bool) (p : Pipe) : (Pipes.pipeclose w p).state = p.shut w := by
  cases w <;> rfl

omit [DecidableEq P] in
theorem filealloced (some : filealloc s = some f) : (s.file f).ref = 0 := by
  simpa using List.find?_some some

theorem fdalloced (some : fdalloc ofile = some fd) : ofile fd = none := by
  simpa using List.find?_some some

theorem transferSteps (idle : s.phase i = .idle) (way : uses k = some w) (ok : transfer s i fd w k = .ok (s', o)) : Steps s i o s' := by
  unfold transfer at ok
  cases here : s.ofile i fd with
  | none =>
    rw [here] at ok
    cases ok
    exact .stay
  | some f =>
    simp only [here] at ok
    split at ok
    · cases ok
      exact .stay
    · rename_i can
      split at ok
      · rename_i m type
        cases ok
        refine .turn ?_
        rw [idle]
        exact .enters here type way (by simpa using can)
      · cases ok
        exact .stay
      · cases ok

theorem askSteps {a : Ask P} (idle : s.phase i = .idle) (ok : ask s i a = .ok (s', o)) : Steps s i o s' := by
  cases a with
  | open' ip r w =>
    simp only [ask] at ok
    split at ok
    · cases ok
      exact .stay
    · rename_i f free
      cases ok
      exact .alloc (filealloced free) (idle ▸ .open')
  | dup fd =>
    simp only [ask] at ok
    split at ok
    · cases ok
      exact .stay
    · rename_i f here
      split at ok
      · cases ok
        exact .stay
      · rename_i newFd free
        unfold filedup at ok
        split at ok
        · cases ok
        · rename_i file dup
          cases ok
          split at dup
          · cases dup
          · cases dup
            exact .dup idle here (fdalloced free)
  | close fd =>
    simp only [ask] at ok
    split at ok
    · cases ok
      exact .stay
    · rename_i f here
      cases ok
      exact .gives (.inl idle) here
  | read fd n => exact transferSteps idle rfl ok
  | write fd n text => exact transferSteps idle rfl ok
  | pipe =>
    simp only [ask] at ok
    split at ok
    · cases ok
      exact .stay
    · rename_i f free
      cases ok
      exact .alloc (filealloced free) (idle ▸ .pipe)
  | fork child =>
    simp only [ask] at ok
    split at ok
    · rename_i unused
      cases ok
      exact .forks idle unused
    · cases ok
  | exit =>
    cases ok
    exact .turn (idle ▸ .exit)

theorem closeSteps (closing : s.phase i = .closing (.fileclose f :: jobs) r) (ok : fileclose s.file f = .ok (file, new)) :
    Steps s i none {s.turn i (.closing (new ++ jobs) r) with file := file} := by
  unfold fileclose at ok
  split at ok
  · cases ok
  · split at ok
    · rename_i more
      cases ok
      exact .drops closing (by omega)
    · cases ok
      exact .last closing (by omega)

theorem pipeSteps {rf wf : FileId} {data : Nat → UInt8} (piping : s.phase i = .piping2 rf wf) (absent : s.pipes m = none)
    (ok : pipeFds s i rf wf m data = (s', o)) : Steps s i o s' := by
  unfold pipeFds at ok
  dsimp only at ok
  split at ok
  · cases ok
    exact .pipes piping absent
  · rename_i fd0 free0
    split at ok
    · cases ok
      exact .pipes piping absent
    · rename_i fd1 free1
      cases ok
      exact .piped piping absent (fdalloced free0) (fdalloced free1)

theorem goSteps (ok : go s i page = .ok (s', o)) : Steps s i o s' := by
  unfold go at ok
  cases here : s.phase i with
  | unused | embryo | zombie | idle =>
    rw [here] at ok
    cases ok
  | opening f ip r w =>
    simp only [here] at ok
    split at ok
    · cases ok
      exact .turn (here ▸ .fails)
    · rename_i fd free
      cases ok
      exact .opens here (fdalloced free)
  | piping rf =>
    simp only [here] at ok
    split at ok
    · cases ok
      exact .turn (here ▸ .fails1)
    · rename_i wf free
      cases ok
      exact .alloc (filealloced free) (here ▸ .pipe2)
  | piping2 rf wf =>
    simp only [here] at ok
    split at ok
    · cases ok
      exact .turn (here ▸ .fails2)
    · rename_i m data
      split at ok
      · cases ok
      · rename_i absent
        exact pipeSteps here (by simpa using absent) (Except.ok.inj ok)
  | closing jobs returns =>
    simp only [here] at ok
    cases jobs with
    | nil =>
      cases returns with
      | none =>
        cases ok
        exact .turn (here ▸ .next)
      | some r =>
        cases ok
        exact .turn (here ▸ .returns)
    | cons job rest =>
      cases job with
      | fileclose f =>
        dsimp only at ok
        split at ok
        · cases ok
        · rename_i file new closed
          cases ok
          exact closeSteps here closed
      | pipeclose m w =>
        dsimp only at ok
        split at ok
        · cases ok
        · rename_i p pipe
          cases ok
          rw [pipecloseShut]
          exact .shuts here pipe
  | exiting =>
    simp only [here] at ok
    split at ok
    · rename_i none
      cases ok
      refine .turn (here ▸ .exited fun fd => ?_)
      simpa using List.find?_eq_none.mp none fd (List.mem_finRange fd)
    · split at ok
      · cases ok
      · rename_i f file
        cases ok
        exact .gives (.inr here) file
  | forking child n =>
    simp only [here] at ok
    split at ok
    · rename_i fits
      split at ok
      · rename_i none
        cases ok
        exact .turn (here ▸ .skips fits none)
      · rename_i f file
        unfold filedup at ok
        split at ok
        · cases ok
        · rename_i dup
          cases ok
          split at dup
          · cases dup
          · cases dup
            exact .child fits here file
    · cases ok
      exact .born here
  | inside m call =>
    simp only [here] at ok
    cases call with
    | idle => cases ok
    | asleep chan k => cases ok
    | ready k =>
      dsimp only at ok
      split at ok
      · cases ok
      · rename_i p pipe
        split at ok
        · cases ok
        · rename_i sec runs
          cases ok
          exact .runs here pipe runs rfl

theorem stepSteps (ok : step s a = .ok (s', o)) : Steps s a.actor o s' := by
  cases a with
  | ask i a =>
    simp only [step] at ok
    split at ok
    · rename_i idle
      exact askSteps idle ok
    · cases ok
  | go i page => exact goSteps ok
  | kill i rouse =>
    cases ok
    exact .kills
  | reap i =>
    simp only [step] at ok
    split at ok
    · rename_i zombie
      cases ok
      exact .reaps zombie
    · cases ok

end

end OpSys.Files
