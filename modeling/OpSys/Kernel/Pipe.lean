import OpSys.Cow.Sysfile
import OpSys.Lib.Monitor
import OpSys.Lib.Ring
import Mathlib.Data.List.ReduceOption

/-! `pipe.c`: readers and writers of one pipe, any number of them. A section is what a call
does under one hold of `p->lock`. -/
namespace OpSys.Pipes
open Function OpSys.Transition OpSys.Monitor OpSys.Ring
open OpSys.Cow (Pipe pipeSize Word)

abbrev Bytes := List UInt8

inductive Chan where
  | nread
  | nwrite
  deriving DecidableEq

/-- Where a call stands when it takes the lock: `rest` is what `pipewrite` has still to
store. -/
inductive Call where
  | write (n : Int) (rest : Bytes)
  | read (n : Word)
  | close (writable : Bool)
  deriving DecidableEq

structure Out where
  put : Bytes
  took : Bytes
  result : Option Int

abbrev Hold := Section Pipe Call Chan Out

def pipewrite (killed : Bool) (n : Int) (p : Pipe) (put : Bytes) : Bytes → Hold
  | [] => ⟨p, [.nread], ⟨put, [], some n⟩, .done⟩
  | b :: rest =>
    if p.nwrite = (p.nread + pipeSize) % 2 ^ 32 then
      if !p.readopen || killed then ⟨p, [], ⟨put, [], some (-1)⟩, .done⟩
      else ⟨p, [.nread], ⟨put, [], none⟩, .sleep .nwrite (.write n (b :: rest))⟩
    else pipewrite killed n {p with data := update p.data (p.nwrite % pipeSize) b, nwrite := (p.nwrite + 1) % 2 ^ 32} (put ++ [b]) rest

def copyOut (p : Pipe) (took : Bytes) : Nat → Pipe × Bytes
  | 0 => (p, took)
  | i + 1 =>
    if p.nread = p.nwrite then (p, took)
    else copyOut {p with nread := (p.nread + 1) % 2 ^ 32} (took ++ [p.data (p.nread % pipeSize)]) i

def piperead (killed : Bool) (n : Word) (p : Pipe) : Hold :=
  if p.nread = p.nwrite ∧ p.writeopen then
    if killed then ⟨p, [], ⟨[], [], some (-1)⟩, .done⟩ else ⟨p, [], ⟨[], [], none⟩, .sleep .nread (.read n)⟩
  else
    let (p, took) := copyOut p [] n.toInt.toNat
    ⟨p, [.nwrite], ⟨[], took, some took.length⟩, .done⟩

/-- The page of the pipe is freed if both ends are closed then. -/
def pipeclose (writable : Bool) (p : Pipe) : Hold :=
  if writable then ⟨{p with writeopen := false}, [.nread], ⟨[], [], some 0⟩, .done⟩
  else ⟨{p with readopen := false}, [.nwrite], ⟨[], [], some 0⟩, .done⟩

def code : Code Pipe Call Chan Out
  | .write n rest, killed, p => some (pipewrite killed n p [] rest)
  | .read n, killed, p => some (piperead killed n p)
  | .close writable, _, p => some (pipeclose writable p)

def Fresh (p : Pipe) : Prop := p.nread = 0 ∧ p.nwrite = 0 ∧ p.readopen = true ∧ p.writeopen = true

variable {P : Type*} [DecidableEq P]

def machine : Machine (State Pipe P Call Chan) (Act P Call) (Option (P × Out)) Unit := Monitor.machine code Fresh

/-- The pipe with the locks of the kernel, one critical section of the table a step. -/
def kernel : Machine (Fine Pipe P Call Chan) (Micro P Call) (Option (P × Out)) Unit := Monitor.fine code Fresh

/-! ### What a section does -/

theorem sizes : Sizes pipeSize (2 ^ 32) := ⟨by decide, by decide, by decide⟩

abbrev Content (p : Pipe) (xs : Bytes) : Prop := Holds pipeSize (2 ^ 32) p.data p.nread p.nwrite xs

variable {p p' : Pipe} {xs ys put took rest : Bytes} {killed writable : Bool} {n : Int} {size : Word} {sec : Hold} {k : Call} {m : Nat}

def sameEnds (p q : Pipe) : Prop := q.readopen = p.readopen ∧ q.writeopen = p.writeopen

inductive Writes (p : Pipe) (xs : Bytes) (killed : Bool) (n : Int) (put rest : Bytes) : Hold → Prop where
  | whole {q : Pipe} {all : Bytes} (ends : sameEnds p q) (content : Content q (xs ++ rest)) (stored : all = put ++ rest) :
      Writes p xs killed n put rest ⟨q, [.nread], ⟨all, [], some n⟩, .done⟩
  | fails {q : Pipe} {all new later : Bytes} (ends : sameEnds p q) (content : Content q (xs ++ new)) (stored : all = put ++ new)
      (split : rest = new ++ later) (more : later ≠ []) (full : (xs ++ new).length = pipeSize) (why : p.readopen = false ∨ killed = true) :
      Writes p xs killed n put rest ⟨q, [], ⟨all, [], some (-1)⟩, .done⟩
  | waits {q : Pipe} {all new later : Bytes} (ends : sameEnds p q) (content : Content q (xs ++ new)) (stored : all = put ++ new)
      (split : rest = new ++ later) (more : later ≠ []) (full : (xs ++ new).length = pipeSize) (why : p.readopen = true ∧ killed = false) :
      Writes p xs killed n put rest ⟨q, [.nread], ⟨all, [], none⟩, .sleep .nwrite (.write n later)⟩

theorem pipewriteDoes (content : Content p xs) (killed : Bool) (n : Int) (put rest : Bytes) :
    Writes p xs killed n put rest (pipewrite killed n p put rest) := by
  have same : ∀ ys : Bytes, ys = ys ++ [] := fun ys => (List.append_nil ys).symm
  induction rest generalizing p xs put with
  | nil => exact .whole ⟨rfl, rfl⟩ (same xs ▸ content) (same put)
  | cons b rest ih =>
    unfold pipewrite
    split
    · rename_i full
      have length := (content.full sizes).mp full
      split
      · rename_i why
        exact .fails ⟨rfl, rfl⟩ (show Content p (xs ++ []) from same xs ▸ content) (same put) rfl nofun (by rwa [← same]) (by simpa using why)
      · rename_i why
        exact .waits ⟨rfl, rfl⟩ (show Content p (xs ++ []) from same xs ▸ content) (same put) rfl nofun (by rwa [← same]) (by simpa using why)
    · rename_i room
      have less : xs.length < pipeSize := Nat.lt_of_le_of_ne content.fits fun full => room ((content.full sizes).mpr full)
      have one : ∀ ys zs : Bytes, ys ++ [b] ++ zs = ys ++ (b :: zs) := fun ys zs => List.append_assoc ys [b] zs
      have later := @ih {p with data := update p.data (p.nwrite % pipeSize) b, nwrite := (p.nwrite + 1) % 2 ^ 32} (xs ++ [b])
        (content.push sizes less b) (put ++ [b])
      generalize pipewrite killed n _ (put ++ [b]) rest = sec at later ⊢
      cases later with
      | whole ends content stored => exact .whole ends (one xs _ ▸ content) (stored.trans (one put _))
      | fails ends content stored split more full why =>
        exact .fails ends (one xs _ ▸ content) (stored.trans (one put _)) (congrArg (b :: ·) split) more (one xs _ ▸ full) why
      | waits ends content stored split more full why =>
        exact .waits ends (one xs _ ▸ content) (stored.trans (one put _)) (congrArg (b :: ·) split) more (one xs _ ▸ full) why

theorem copyOutDoes (content : Content p xs) (took : Bytes) (m : Nat) :
    ∃ q, copyOut p took m = (q, took ++ xs.take m) ∧ sameEnds p q ∧ Content q (xs.drop m) := by
  induction m generalizing p xs took with
  | zero => exact ⟨p, congrArg (p, ·) (List.append_nil took).symm, ⟨rfl, rfl⟩, content⟩
  | succ m ih =>
    unfold copyOut
    split
    · rename_i none
      obtain rfl := (content.empty sizes).mp none
      exact ⟨p, congrArg (p, ·) (List.append_nil took).symm, ⟨rfl, rfl⟩, content⟩
    · rename_i some
      cases xs with
      | nil => exact absurd ((content.empty sizes).mpr rfl) some
      | cons b xs =>
        obtain ⟨here, rest⟩ := content.pop sizes
        obtain ⟨q, ran, ends, left⟩ := @ih {p with nread := (p.nread + 1) % 2 ^ 32} xs rest (took ++ [p.data (p.nread % pipeSize)])
        refine ⟨q, ?_, ends, left⟩
        rw [ran, here, List.append_assoc]
        rfl

inductive Does (p : Pipe) (xs : Bytes) (killed : Bool) : Call → Hold → Prop where
  | stores {q : Pipe} {n : Int} {rest : Bytes} (ends : sameEnds p q) (content : Content q (xs ++ rest)) :
      Does p xs killed (.write n rest) ⟨q, [.nread], ⟨rest, [], some n⟩, .done⟩
  | gives {q : Pipe} {n : Int} {new later : Bytes} (ends : sameEnds p q) (content : Content q (xs ++ new)) (more : later ≠ [])
      (full : (xs ++ new).length = pipeSize) (why : p.readopen = false ∨ killed = true) :
      Does p xs killed (.write n (new ++ later)) ⟨q, [], ⟨new, [], some (-1)⟩, .done⟩
  | waits {q : Pipe} {n : Int} {new later : Bytes} (ends : sameEnds p q) (content : Content q (xs ++ new)) (more : later ≠ [])
      (full : (xs ++ new).length = pipeSize) (why : p.readopen = true ∧ killed = false) :
      Does p xs killed (.write n (new ++ later)) ⟨q, [.nread], ⟨new, [], none⟩, .sleep .nwrite (.write n later)⟩
  | fails {n : Word} (blank : xs = []) (writer : p.writeopen = true) (dead : killed = true) : Does p xs killed (.read n) ⟨p, [], ⟨[], [], some (-1)⟩, .done⟩
  | awaits {n : Word} (blank : xs = []) (writer : p.writeopen = true) (alive : killed = false) :
      Does p xs killed (.read n) ⟨p, [], ⟨[], [], none⟩, .sleep .nread (.read n)⟩
  | takes {q : Pipe} {n : Word} (why : xs ≠ [] ∨ p.writeopen = false) (ends : sameEnds p q) (content : Content q (xs.drop n.toInt.toNat)) :
      Does p xs killed (.read n) ⟨q, [.nwrite], ⟨[], xs.take n.toInt.toNat, some (xs.take n.toInt.toNat).length⟩, .done⟩
  | closeWrite : Does p xs killed (.close true) ⟨{p with writeopen := false}, [.nread], ⟨[], [], some 0⟩, .done⟩
  | closeRead : Does p xs killed (.close false) ⟨{p with readopen := false}, [.nwrite], ⟨[], [], some 0⟩, .done⟩

theorem codeDoes (content : Content p xs) (runs : code k killed p = some sec) : Does p xs killed k sec := by
  cases k with
  | write n rest =>
    cases runs
    have does := pipewriteDoes content killed n [] rest
    generalize pipewrite killed n p [] rest = sec at does ⊢
    cases does with
    | whole ends content stored =>
      rw [stored]
      exact .stores ends content
    | fails ends content stored split more full why =>
      rw [stored, split]
      exact .gives ends content more full why
    | waits ends content stored split more full why =>
      rw [stored, split]
      exact .waits ends content more full why
  | read n =>
    cases runs
    unfold piperead
    split
    · rename_i waits
      have blank := (content.empty sizes).mp waits.1
      split
      · rename_i dead
        exact .fails blank waits.2 dead
      · rename_i alive
        exact .awaits blank waits.2 (by simpa using alive)
    · rename_i goes
      obtain ⟨q, ran, ends, left⟩ := copyOutDoes content [] n.toInt.toNat
      rw [ran]
      refine .takes ?_ ends left
      rw [content.empty sizes] at goes
      by_cases none : xs = []
      · exact .inr (by simpa [none] using goes)
      · exact .inl none
  | close writable =>
    cases runs
    cases writable with
    | true => exact .closeWrite
    | false => exact .closeRead

theorem codeContent (content : Content p xs) (runs : code k killed p = some sec) : ∃ ys, Content sec.state ys ∧ xs ++ sec.out.put = sec.out.took ++ ys := by
  cases codeDoes content runs with
  | stores ends content => exact ⟨_, content, rfl⟩
  | gives ends content more full why => exact ⟨_, content, rfl⟩
  | waits ends content more full why => exact ⟨_, content, rfl⟩
  | fails blank writer dead => exact ⟨xs, content, List.append_nil xs⟩
  | awaits blank writer alive => exact ⟨xs, content, List.append_nil xs⟩
  | takes why ends content => exact ⟨_, content, (List.append_nil xs).trans (List.take_append_drop _ xs).symm⟩
  | closeWrite => exact ⟨xs, content, List.append_nil xs⟩
  | closeRead => exact ⟨xs, content, List.append_nil xs⟩

/-! ### The stream -/

def gather (g : P × Out → Bytes) (os : List (Option (P × Out))) : Bytes := os.reduceOption.flatMap g

def puts : List (Option (P × Out)) → Bytes := gather fun x => x.2.put

def takes : List (Option (P × Out)) → Bytes := gather fun x => x.2.took

theorem freshContent (fresh : Fresh p) : Content p [] := by
  obtain ⟨read, write, _⟩ := fresh
  unfold Content
  rw [read, write]
  exact .none sizes p.data

variable {s s' : State Pipe P Call Chan} {f : Fine Pipe P Call Chan} {acts : List (Act P Call)} {ms : List (Micro P Call)}
  {os : List (Option (P × Out))} {o : Option (P × Out)} {a : Act P Call} {i j : P}

omit [DecidableEq P] in
theorem gatherConcat (g : P × Out → Bytes) (os : List (Option (P × Out))) (o : Option (P × Out)) :
    gather g (os ++ [o]) = gather g os ++ o.elim [] g := by
  unfold gather
  rw [List.reduceOption_append, List.flatMap_append]
  cases o with
  | none => rfl
  | some x => exact congrArg (_ ++ ·) (List.append_nil (g x))

theorem stepStream (h : ∃ xs, Content s.shared xs ∧ puts os = takes os ++ xs) (ok : Monitor.step code s a = .ok (s', o)) :
    ∃ xs, Content s'.shared xs ∧ puts (os ++ [o]) = takes (os ++ [o]) ++ xs := by
  obtain ⟨xs, content, same⟩ := h
  unfold puts takes at same ⊢
  simp only [gatherConcat, same, List.append_assoc]
  cases stepCases ok with
  | call idle => exact ⟨xs, content, congrArg (_ ++ ·) (List.append_nil xs)⟩
  | kill => exact ⟨xs, content, congrArg (_ ++ ·) (List.append_nil xs)⟩
  | mark => exact ⟨xs, content, congrArg (_ ++ ·) (List.append_nil xs)⟩
  | run ready runs =>
    obtain ⟨ys, left, moved⟩ := codeContent content runs
    exact ⟨ys, left, congrArg (_ ++ ·) moved⟩

/-! ### The writers -/

def Call.text : Call → Bytes
  | .write _ rest => rest
  | _ => []

def left : Phase Call Chan → Bytes
  | .idle => []
  | .ready k | .asleep _ k => k.text

def asked (i : P) (calls : List (P × Call)) : Bytes := calls.flatMap fun x => if x.1 = i then x.2.text else []

def stored (i : P) : List (Option (P × Out)) → Bytes := gather fun x => if x.1 = i then x.2.put else []

def Succeeds (i : P) (os : List (Option (P × Out))) : Prop := ∀ x ∈ os.reduceOption, x.1 = i → x.2.result ≠ some (-1)

theorem leftWake (wakes : List Chan) (q : Phase Call Chan) : left (q.wake wakes) = left q := by
  unfold Phase.wake
  split
  · split <;> rfl
  · rfl

theorem leftRouse (q : Phase Call Chan) : left q.rouse = left q := by cases q <;> rfl

theorem codeText (content : Content p xs) (runs : code k killed p = some sec) (fine : sec.out.result ≠ some (-1)) :
    sec.out.put ++ left sec.next.phase = k.text := by
  cases codeDoes content runs with
  | stores ends content => exact List.append_nil _
  | gives ends content more full why => exact absurd rfl fine
  | waits | fails | awaits | takes | closeWrite | closeRead => rfl

theorem stepStored {calls : List (P × Call)} (content : ∃ xs, Content s.shared xs)
    (h : Succeeds i os → stored i os ++ left (s.phase i) = asked i calls) (ok : Monitor.step code s a = .ok (s', o)) (fine : Succeeds i (os ++ [o])) :
    stored i (os ++ [o]) ++ left (s'.phase i) = asked i (calls ++ a.asks.toList) := by
  have before : Succeeds i os := fun x mem => fine x (by
    rw [List.reduceOption_append]
    exact List.mem_append_left _ mem)
  have same := h before
  unfold stored asked at same ⊢
  rw [gatherConcat, List.flatMap_append, ← same, List.append_assoc, List.append_assoc]
  refine congrArg (_ ++ ·) ?_
  cases stepCases ok with
  | @call j k idle =>
    by_cases mine : j = i
    · subst mine
      simp [Act.asks, idle, left]
    · have other : i ≠ j := fun same => mine same.symm
      simp [Act.asks, mine, update_of_ne other]
  | @kill j =>
    by_cases mine : j = i
    · subst mine
      simp [Act.asks, leftRouse]
    · have other : i ≠ j := fun same => mine same.symm
      simp [Act.asks, update_of_ne other]
  | mark => simp [Act.asks]
  | @run j k sec ready runs =>
    obtain ⟨xs, content⟩ := content
    by_cases mine : j = i
    · subst mine
      have good : sec.out.result ≠ some (-1) := fine (j, sec.out) (by simp [List.reduceOption_append]) rfl
      simpa [Act.asks, ready, left] using codeText content runs good
    · have other : i ≠ j := fun same => mine same.symm
      simp [Act.asks, mine, update_of_ne other, leftWake]

/-- The bytes that are stored come out in that order, but for those in the pipe; and the
bytes that a party has stored are those of its calls in their order, but for what it has left. -/
structure Streams (p : Pipe) (rest : P → Bytes) (calls : List (P × Call)) (os : List (Option (P × Out))) : Prop where
  stream : ∃ xs, Content p xs ∧ puts os = takes os ++ xs
  order : ∀ i, Succeeds i os → stored i os ++ rest i = asked i calls

theorem runStreams (fresh : Fresh p) (ran : machine.run (.start p) acts = .ok (s, os)) :
    Streams s.shared (fun i => left (s.phase i)) (acts.filterMap Act.asks) os := by
  refine Machine.runHistory (P := fun s is os => Streams s.shared (fun i => left (s.phase i)) (is.filterMap Act.asks) os)
    (fun s is os a s' o h ok => ⟨stepStream h.stream ok, fun i fine => ?_⟩) ⟨⟨[], freshContent fresh, rfl⟩, fun _ _ => rfl⟩ ran
  obtain ⟨xs, content, _⟩ := h.stream
  have last := stepStored ⟨xs, content⟩ (h.order i) ok fine
  have one : [a].filterMap Act.asks = a.asks.toList := by
    rw [List.filterMap_cons]
    cases a.asks <;> rfl
  rwa [List.filterMap_append, one]

theorem pipeStreams (fresh : Fresh p) (ran : kernel.run (.start p) ms = .ok (f, os)) :
    Streams f.shared (fun i => left (f.abs.phase i)) (ms.filterMap Micro.asks) os := by
  obtain ⟨_, acts, os', ran', asked, same⟩ := runRefines (startLocks p) ran
  obtain ⟨stream, order⟩ := runStreams fresh ran'
  rw [asked] at order
  unfold puts takes stored Succeeds gather at *
  rw [same] at stream order
  exact ⟨stream, order⟩

/-! ### Who is asleep -/

def Patient (k : Call) (killed : Bool) : Prop := ∀ n rest, k = .write n rest → killed = false

def Full (p : Pipe) : Prop := p.nwrite = (p.nread + pipeSize) % 2 ^ 32

def writerWaits : Chan → Call → Pipe → Prop
  | .nwrite, _, p => Full p ∧ p.readopen = true
  | .nread, _, _ => True

def readerWaits : Chan → Call → Pipe → Prop
  | .nread, _, p => p.readopen = true → p.nread = p.nwrite ∧ p.writeopen = true
  | .nwrite, _, _ => True

theorem fullOf (content : Content p xs) : Full p ↔ xs.length = pipeSize := content.full sizes

theorem codeKeeps (content : ∃ xs, Content p xs) (runs : code k killed p = some sec) : ∃ xs, Content sec.state xs := by
  obtain ⟨xs, content⟩ := content
  obtain ⟨ys, content, _⟩ := codeContent content runs
  exact ⟨ys, content⟩

theorem writersGuarded : Guarded code (fun _ _ => True) (fun p => ∃ xs, Content p xs) writerWaits where
  keeps _ := codeKeeps
  sleeps {k killed p sec chan k'} _ content runs next := by
    obtain ⟨xs, content⟩ := content
    cases codeDoes content runs with
    | waits ends content more full why =>
      cases next
      exact ⟨(fullOf content).mpr full, ends.1.trans why.1⟩
    | awaits blank writer alive =>
      cases next
      trivial
    | stores | gives | fails | takes | closeWrite | closeRead => cases next
  wakes {k killed p sec chan k'} _ content runs guard out := by
    obtain ⟨xs, content⟩ := content
    cases chan with
    | nread => trivial
    | nwrite =>
      obtain ⟨full, reader⟩ := guard
      have length := (fullOf content).mp full
      cases codeDoes content runs with
      | stores ends content =>
        have fits := content.fits
        rw [List.length_append] at fits
        exact ⟨(fullOf content).mpr (by rw [List.length_append]; omega), ends.1.trans reader⟩
      | gives ends content more full why => exact ⟨(fullOf content).mpr full, ends.1.trans reader⟩
      | waits ends content more full why => exact ⟨(fullOf content).mpr full, ends.1.trans reader⟩
      | fails | awaits | closeWrite => exact ⟨full, reader⟩
      | takes | closeRead => exact absurd (List.mem_singleton.mpr rfl) out

theorem readersGuarded : Guarded code Patient (fun p => ∃ xs, Content p xs) readerWaits where
  keeps _ := codeKeeps
  sleeps {k killed p sec chan k'} _ content runs next := by
    obtain ⟨xs, content⟩ := content
    cases codeDoes content runs with
    | waits ends content more full why =>
      cases next
      trivial
    | awaits blank writer alive =>
      cases next
      exact fun _ => ⟨(content.empty sizes).mpr blank, writer⟩
    | stores | gives | fails | takes | closeWrite | closeRead => cases next
  wakes {k killed p sec chan k'} patient content runs guard out := by
    obtain ⟨xs, content⟩ := content
    cases chan with
    | nwrite => trivial
    | nread =>
      cases codeDoes content runs with
      | stores | waits | closeWrite => exact absurd (List.mem_singleton.mpr rfl) out
      | gives ends content more full why =>
        -- the readers are not woken then
        intro reader
        rw [ends.1] at reader
        rcases why with closed | dead
        · rw [closed] at reader
          cases reader
        · rw [patient _ _ rfl] at dead
          cases dead
      | fails | awaits => exact guard
      | takes why ends left =>
        intro reader
        rw [ends.1] at reader
        obtain ⟨same, writer⟩ := guard reader
        have blank := (content.empty sizes).mp same
        rw [blank, List.drop_nil] at left
        exact ⟨(left.empty sizes).mpr rfl, ends.2.trans writer⟩
      | closeRead => exact fun reader => nomatch reader

def Sleeps (f : Fine Pipe P Call Chan) (i : P) (chan : Chan) : Prop := ∃ k, f.pc i = .gone chan k ∨ f.pc i = .asleep chan k

def Waking (f : Fine Pipe P Call Chan) (chan : Chan) : Prop := ∃ j, f.lock = some j ∧ chan ∈ (f.pc j).wakes

theorem writersWake (reach : (kernel (P := P)).Reachable f) (sleeps : Sleeps f i .nwrite) : (Full f.shared ∧ f.shared.readopen = true) ∨ Waking f .nwrite := by
  obtain ⟨k, here⟩ := sleeps
  exact noneLost writersGuarded (fun _ fresh => ⟨[], freshContent fresh⟩) (reach.weaken fun _ _ _ _ _ _ _ => trivial) here

theorem readersWake (reach : (kernel (P := P)).Reach (FineAllows Patient) f) (open' : f.shared.readopen = true) (sleeps : Sleeps f i .nread) :
    (f.shared.nread = f.shared.nwrite ∧ f.shared.writeopen = true) ∨ Waking f .nread := by
  obtain ⟨k, here⟩ := sleeps
  refine (noneLost readersGuarded (fun _ fresh => ⟨[], freshContent fresh⟩) reach here).imp ?_ id
  exact fun waits => waits open'

/-- While no party that is killed goes on to write, whoever sleeps has reason to or is about
to be woken, and readers and writers do not wait for each other. -/
theorem pipeWakes (reach : (kernel (P := P)).Reach (FineAllows Patient) f) (open' : f.shared.readopen = true) :
    (∀ i, Sleeps f i .nwrite → Full f.shared ∨ Waking f .nwrite) ∧
      (∀ i, Sleeps f i .nread → (f.shared.nread = f.shared.nwrite ∧ f.shared.writeopen = true) ∨ Waking f .nread) ∧
      (f.lock = none → ∀ i j, Sleeps f i .nread → ¬ Sleeps f j .nwrite) := by
  refine ⟨fun i sleeps => (writersWake reach.reachable sleeps).imp And.left id, fun i sleeps => readersWake reach open' sleeps,
    fun free i j reader writer => ?_⟩
  have nobody : ∀ chan, ¬ Waking f chan := fun chan waking => by
    obtain ⟨j, lock, _⟩ := waking
    rw [free] at lock
    cases lock
  obtain ⟨full, _⟩ := (writersWake reach.reachable writer).resolve_right (nobody _)
  obtain ⟨same, _⟩ := (readersWake reach open' reader).resolve_right (nobody _)
  obtain ⟨xs, content⟩ := (reachAwaits writersGuarded (fun _ fresh => ⟨[], freshContent fresh⟩)
    (fineReach (reach.weaken fun _ _ _ _ _ _ _ => trivial)).2).1
  have length := (fullOf content).mp full
  have blank : xs = [] := (content.empty sizes).mp same
  rw [blank] at length
  cases length

/-- A writer that was killed fills the pipe and fails, and nobody is woken: readers sleep on
in front of a full pipe. -/
theorem killedLeaves (content : Content s.shared xs) (ready : s.phase j = .ready (.write n rest)) (dead : s.killed j = true)
    (more : pipeSize < xs.length + rest.length) : ∃ s' x, Monitor.step code s (.run j) = .ok (s', some (j, x)) ∧ x.result = some (-1) ∧
      Full s'.shared ∧ ∀ i, i ≠ j → s'.phase i = s.phase i := by
  have runs : code (.write n rest) (s.killed j) s.shared = some (pipewrite (s.killed j) n s.shared [] rest) := rfl
  have does := codeDoes content runs
  generalize pipewrite (s.killed j) n s.shared [] rest = sec at runs does
  have still : ∀ q : Phase Call Chan, q.wake [] = q := fun q => by cases q <;> rfl
  have ran := stepRun code ready runs
  cases does with
  | stores ends content =>
    have fits := content.fits
    rw [List.length_append] at fits
    omega
  | gives ends content later full why =>
    refine ⟨_, _, ran, rfl, (fullOf content).mpr full, fun i other => ?_⟩
    simp only [update_of_ne other]
    exact still _
  | waits ends content later full why =>
    rw [dead] at why
    cases why.2

def empty : Pipe := ⟨0, fun _ => 0, 0, 0, true, true⟩

theorem killedLeavesOne : ∃ s' x, Monitor.step code (⟨empty, id, fun i => if i then .ready (.write 513 (List.replicate 513 0)) else .asleep .nread (.read 1)⟩ :
    State Pipe Bool Call Chan) (.run true) = .ok (s', some (true, x)) ∧ x.result = some (-1) ∧ Full s'.shared ∧ s'.phase false = .asleep .nread (.read 1) := by
  have content : Content empty [] := freshContent ⟨rfl, rfl, rfl, rfl⟩
  have more : pipeSize < ([] : Bytes).length + (List.replicate 513 (0 : UInt8)).length := by
    rw [List.length_nil, List.length_replicate]
    decide
  obtain ⟨s', x, ran, result, full, others⟩ := killedLeaves
    (s := ⟨empty, id, fun i => if i then .ready (.write 513 (List.replicate 513 0)) else .asleep .nread (.read 1)⟩) (j := true) content rfl rfl more
  exact ⟨s', x, ran, result, full, others false (by decide)⟩

theorem livesPatient {s : Fine Pipe P Call Chan} (alive : s.killed = fun _ => false) (none : ∀ i, .kill i ∉ ms) : kernel.Passes (FineAllows Patient) s ms := by
  induction ms generalizing s with
  | nil => trivial
  | cons m ms ih =>
    refine ⟨fun i k _ _ n rest _ => by rw [alive], fun s' o ok => ih ?_ fun i mem => none i (List.mem_cons_of_mem _ mem)⟩
    rw [killedSame ok fun i same => none i (same ▸ List.mem_cons_self), alive]

theorem pipeStreamsOne : Machine.Ends ((kernel (P := Fin 2)).run (.start empty)
      [.call 0 (.write 2 [7, 8]), .go 0, .go 0, .call 1 (.read 1), .go 0, .go 0, .go 0, .go 1, .go 1]) fun f os =>
    takes os = [7] ∧ Streams f.shared (fun i => left (f.abs.phase i)) [(0, .write 2 [7, 8]), (1, .read 1)] os := by
  have run : Machine.Ends ((kernel (P := Fin 2)).run (.start empty)
      [.call 0 (.write 2 [7, 8]), .go 0, .go 0, .call 1 (.read 1), .go 0, .go 0, .go 0, .go 1, .go 1]) fun _ os => takes os = [7] := by
    decide +kernel
  obtain ⟨f, os, ok, read⟩ := run.run
  have streams := pipeStreams ⟨rfl, rfl, rfl, rfl⟩ ok
  rw [ok]
  exact ⟨read, streams⟩

theorem pipeWakesOne : Machine.Ends ((kernel (P := Fin 2)).run (.start empty)
      [.call 0 (.read 1), .go 0, .go 0, .go 0, .go 0, .go 0, .call 1 (.write 2 [7, 8]), .go 1, .go 1]) fun f _ =>
    (∀ i, Sleeps f i .nwrite → Full f.shared ∨ Waking f .nwrite) ∧
      (∀ i, Sleeps f i .nread → (f.shared.nread = f.shared.nwrite ∧ f.shared.writeopen = true) ∨ Waking f .nread) ∧
      (f.lock = none → ∀ i j, Sleeps f i .nread → ¬ Sleeps f j .nwrite) := by
  have run : Machine.Ends ((kernel (P := Fin 2)).run (.start empty)
      [.call 0 (.read 1), .go 0, .go 0, .go 0, .go 0, .go 0, .call 1 (.write 2 [7, 8]), .go 1, .go 1]) fun f _ =>
      f.shared.readopen = true := by decide +kernel
  obtain ⟨f, os, ok, open'⟩ := run.run
  have start : (kernel (P := Fin 2)).Reach (FineAllows Patient) (.start empty) := .start ⟨empty, ⟨rfl, rfl, rfl, rfl⟩, rfl⟩
  have reach := Machine.runReach start (livesPatient rfl fun i mem => by simp at mem) ok
  rw [ok]
  exact pipeWakes reach open'

end OpSys.Pipes
