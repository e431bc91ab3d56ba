import OpSys.Kernel.Files
import OpSys.Lib.Handles

/-! The files that the processes refer to, by descriptors or in a call that is in progress, and
the ends of pipes that are open for that. -/
namespace OpSys.Files
open Function OpSys.Transition OpSys.Handles
open OpSys.Cow (Pipe Word)
open OpSys.Pipes (Call Chan Out Bytes)

variable {P : Type*} [DecidableEq P] {s s' : State P} {i j : P} {a : Act P} {o : Output P} {f g : FileId} {fd : Fd} {m : Page} {w : Bool} {k : Call} {file file' : FileId → File}
  {page : Option (Page × (Nat → UInt8))} {jobs new : List Job} {r : Option Int} {ofile : Fd → Option FileId} {pipes : Page → Option Pipe}

/-! ### Who has what -/

def Job.closes : Job → Option FileId
  | .fileclose f => some f
  | .pipeclose _ _ => none

/-- The files that a process has a reference to besides those of its descriptors. -/
def hand : Phase P → List FileId
  | .opening f _ _ _ | .piping f => [f]
  | .piping2 f g => [f, g]
  | .closing jobs _ => jobs.filterMap Job.closes
  | _ => []

/-- Those of them that are not set up. -/
def fresh : Phase P → List FileId
  | .opening f _ _ _ | .piping f => [f]
  | .piping2 f g => [f, g]
  | _ => []

def owes (e : Page × Bool) : Phase P → Nat
  | .closing jobs _ => jobs.count (.pipeclose e.1 e.2)
  | _ => 0

/-- The end of a pipe that a file stands for. -/
def leads (f : File) : Option (Page × Bool) := match f.type with
  | .pipe m => some (m, f.writable)
  | _ => none

def live (pipes : Page → Option Pipe) (e : Page × Bool) : Nat := match pipes e.1 with
  | none => 0
  | some p => (p.isOpen e.2).toNat

def books (s : State P) : Books P FileId (Page × Bool) where
  share i f := tally (s.ofile i) f + (hand (s.phase i)).count f
  ref f := (s.file f).ref
  leads f := leads (s.file f)
  owes i e := owes e (s.phase i)
  live := live s.pipes

omit [DecidableEq P] in
theorem handClosing (jobs : List Job) (r : Option Int) : hand (.closing jobs r : Phase P) = jobs.filterMap Job.closes := rfl

omit [DecidableEq P] in
@[simp] theorem handWake (m : Page) (wakes : List Chan) (p : Phase P) : hand (p.wake m wakes) = hand p := by cases p <;> rfl

omit [DecidableEq P] in
@[simp] theorem handRouse (p : Phase P) : hand p.rouse = hand p := by cases p <;> rfl

omit [DecidableEq P] in
@[simp] theorem owesWake (e : Page × Bool) (m : Page) (wakes : List Chan) (p : Phase P) : owes e (p.wake m wakes) = owes e p := by cases p <;> rfl

omit [DecidableEq P] in
@[simp] theorem owesRouse (e : Page × Bool) (p : Phase P) : owes e p.rouse = owes e p := by cases p <;> rfl

omit [DecidableEq P] in
@[simp] theorem handAfter (m : Page) (next : Monitor.Next Call Chan) : hand (after m next : Phase P) = [] := by cases next <;> rfl

omit [DecidableEq P] in
@[simp] theorem owesAfter (e : Page × Bool) (m : Page) (next : Monitor.Next Call Chan) : owes e (after m next : Phase P) = 0 := by cases next <;> rfl

@[simp] theorem setRefRef (file : FileId → File) (f g : FileId) (n : Nat) : (setRef file f n g).ref = if g = f then n else (file g).ref := by
  unfold setRef
  by_cases same : g = f
  · rw [same, update_self, if_pos rfl]
  · rw [update_of_ne same, if_neg same]

theorem setRefElse (file : FileId → File) (f g : FileId) (n : Nat) : ∃ r, setRef file f n g = {file g with ref := r} := by
  unfold setRef
  by_cases same : g = f
  · rw [same, update_self]
    exact ⟨n, rfl⟩
  · rw [update_of_ne same]
    exact ⟨_, rfl⟩

@[simp] theorem setRefLeads (file : FileId → File) (f g : FileId) (n : Nat) : leads (setRef file f n g) = leads (file g) := by
  obtain ⟨r, same⟩ := setRefElse file f g n
  rw [same]
  rfl

@[simp] theorem setInodeRef (file : FileId → File) (f g : FileId) (ip : Nat) (r w : Bool) : (setInode file f ip r w g).ref = (file g).ref := by
  unfold setInode
  by_cases same : g = f
  · rw [same, update_self]
    rfl
  · rw [update_of_ne same]

@[simp] theorem setPipeRef (file : FileId → File) (f g : FileId) (m : Page) (w : Bool) : (setPipe file f m w g).ref = (file g).ref := by
  unfold setPipe
  by_cases same : g = f
  · rw [same, update_self]
    rfl
  · rw [update_of_ne same]

@[simp] theorem pipedRef (file : FileId → File) (rf wf g : FileId) (m : Page) : (piped file rf wf m g).ref = (file g).ref := by
  unfold piped
  rw [setPipeRef, setPipeRef]

@[simp] theorem lastRef (file : FileId → File) (f g : FileId) : (update file f (file f).gone g).ref = if g = f then 0 else (file g).ref := by
  by_cases same : g = f
  · rw [same, update_self, if_pos rfl]
    rfl
  · rw [update_of_ne same, if_neg same]

theorem pipedType {rf wf : FileId} (file : FileId → File) (m : Page) (apart : rf ≠ wf) :
    (piped file rf wf m rf).type = .pipe m ∧ (piped file rf wf m wf).type = .pipe m := by
  unfold piped setPipe
  rw [update_self, update_of_ne apart, update_self]
  exact ⟨rfl, rfl⟩

theorem tallyPut (free : ofile fd = none) (f g : FileId) : tally (update ofile fd (some f)) g = tally ofile g + if f = g then 1 else 0 := by
  have moved := tallyUpdate ofile fd (some f) g
  rw [free, if_neg nofun] at moved
  simpa using moved

theorem tallyTake (here : ofile fd = some f) (g : FileId) : tally (update ofile fd none) g + (if f = g then 1 else 0) = tally ofile g := by
  have moved := tallyUpdate ofile fd none g
  rw [here] at moved
  simpa using moved

omit [DecidableEq P] in
theorem handJobs (f : File) : f.jobs.filterMap Job.closes = [] := by
  unfold File.jobs
  split <;> rfl

omit [DecidableEq P] in
theorem Wants.hand {p q : Phase P} (h : Wants f q p) : hand p = hand q ++ [f] := by cases h <;> rfl

omit [DecidableEq P] in
theorem Wants.owes {p q : Phase P} (h : Wants f q p) (e : Page × Bool) : owes e p = owes e q := by cases h <;> rfl

omit [DecidableEq P] in
theorem Turns.hand {p q : Phase P} (h : Turns s i q p) : hand p = hand q := by cases h <;> rfl

omit [DecidableEq P] in
theorem Turns.owes {p q : Phase P} (h : Turns s i q p) (e : Page × Bool) : owes e p = owes e q := by cases h <;> rfl

theorem countOne (f g : FileId) : [f].count g = if f = g then 1 else 0 := by
  rw [List.count_singleton]
  simp only [beq_iff_eq]

theorem updateSame {α : Type*} (c : Phase P → α) {phase : P → Phase P} {p : Phase P} (same : c p = c (phase i)) (j : P) : c (update phase i p j) = c (phase j) := by
  by_cases here : j = i
  · rw [here, update_self, same]
  · rw [update_of_ne here]

theorem sectionSame {α : Type*} (c : Phase P → α) (wake : ∀ m wakes p, c (Phase.wake m wakes p) = c p) {next : Phase P} (same : c next = c (s.phase i))
    {p : Option Pipe} {wakes : List Chan} (j : P) : c ((section' s i m p wakes next).phase j) = c (s.phase j) := by
  unfold section'
  have turned : c (update (fun j => (s.phase j).wake m wakes) i next j) = c ((s.phase j).wake m wakes) := updateSame c (by rw [wake, same]) j
  rw [turned, wake]

/-- A party that is asleep in a call or not. -/
def Calls (c : Monitor.Phase Call Chan) (k : Call) : Prop := c = .ready k ∨ ∃ chan, c = .asleep chan k

/-- A process in `read` or `write` has a descriptor for the end of the pipe that it uses. -/
def Inside (s : State P) (i : P) (m : Page) (c : Monitor.Phase Call Chan) : Prop :=
  ∃ k w fd f, Calls c k ∧ uses k = some w ∧ s.ofile i fd = some f ∧ leads (s.file f) = some (m, w)

/-- What goes with the place where a process is. The child of a `fork` waits for its parent,
and has none of the descriptors that are still to be copied. -/
def Standing (s : State P) (i : P) : Phase P → Prop
  | .opening f _ _ _ | .piping f => (s.file f).type = .none
  | .piping2 f g => (s.file f).type = .none ∧ (s.file g).type = .none
  | .inside m c => Inside s i m c
  | .forking j n => s.phase j = .embryo i ∧ ∀ fd : Fd, n ≤ fd.val → s.ofile j fd = none
  | .unused | .zombie => ∀ fd, s.ofile i fd = none
  | .idle | .closing _ _ | .exiting | .embryo _ => True

omit [DecidableEq P] in
theorem shareSame (ofile : s'.ofile = s.ofile) (same : ∀ j, hand (s'.phase j) = hand (s.phase j)) (j : P) (f : FileId) :
    (books s').share j f = (books s).share j f := by
  simp only [books, ofile, same]

variable [Fintype P]

theorem stepCounted (h : Counted (books s)) (standing : ∀ i, Standing s i (s.phase i)) (steps : Steps s i o s') : Counted (books s') := by
  cases steps with
  | stay => exact h
  | alloc free wants =>
    refine h.move i (fun j other g => by simp [books, State.turn, update_of_ne other]) fun g => ?_
    simp only [books, State.turn, update_self, wants.hand, List.count_append, countOne, setRefRef]
    grind
  | turn turns =>
    exact h.same rfl (shareSame rfl (updateSame hand turns.hand))
  | dup idle here free =>
    refine h.move i (fun j other g => by simp [books, update_of_ne other]) fun g => ?_
    simp only [books, update_self, tallyPut free, setRefRef]
    grind
  | @child j n f fits forking here =>
    have waits := standing i
    rw [forking] at waits
    have free := waits.2 ⟨n, fits⟩ le_rfl
    have same : ∀ l, hand (update s.phase i (.forking j (n + 1)) l) = hand (s.phase l) := updateSame hand (by rw [forking]; rfl)
    refine h.move j (fun l other g => by simp [books, State.turn, update_of_ne other, same]) fun g => ?_
    simp only [books, State.turn, same, update_self, tallyPut free, setRefRef]
    grind
  | gives why here =>
    refine h.move i (fun j other g => by simp [books, State.turn, update_of_ne other]) fun g => ?_
    have took := tallyTake here g
    have none : hand (s.phase i) = [] := by rcases why with why | why <;> rw [why] <;> rfl
    simp only [books, State.turn, update_self, none, handClosing, List.filterMap_cons, Job.closes, List.filterMap_nil, countOne, List.count_nil]
    omega
  | opens opening free =>
    refine h.move i (fun j other g => by simp [books, State.turn, update_of_ne other]) fun g => ?_
    simp only [books, State.turn, update_self, opening, hand, countOne, tallyPut free, setInodeRef, List.count_nil]
    omega
  | pipes piping absent =>
    refine h.same (funext fun g => pipedRef s.file _ _ g _) (shareSame rfl (updateSame hand ?_))
    rw [piping]
    rfl
  | piped piping absent free0 free1 =>
    refine h.move i (fun j other g => by simp [books, State.turn, update_of_ne other]) fun g => ?_
    simp only [books, State.turn, update_self, piping, hand, pipedRef, tallyPut free1, tallyPut free0, List.count_cons, List.count_nil, beq_iff_eq]
    omega
  | drops closing more =>
    refine h.move i (fun j other g => by simp [books, State.turn, update_of_ne other]) fun g => ?_
    simp only [books, State.turn, update_self, closing, hand, List.filterMap_cons, Job.closes, List.count_cons, beq_iff_eq, setRefRef]
    grind
  | last closing one =>
    refine h.move i (fun j other g => by simp [books, State.turn, update_of_ne other]) fun g => ?_
    simp only [books, State.turn, update_self, closing, hand, List.filterMap_cons, Job.closes, List.count_cons, beq_iff_eq, List.filterMap_append, handJobs,
      List.nil_append, lastRef]
    grind
  | shuts closing here =>
    refine h.same rfl (shareSame rfl (sectionSame hand handWake ?_))
    rw [closing]
    rfl
  | runs inside here runs =>
    refine h.same rfl (shareSame rfl (sectionSame hand handWake ?_))
    rw [inside, handAfter]
    rfl
  | @forks j idle unused =>
    have child : ∀ l, hand (update s.phase j (.embryo i) l) = hand (s.phase l) := updateSame hand (by rw [unused]; rfl)
    refine h.same rfl (shareSame rfl fun l => (updateSame hand ?_ l).trans (child l))
    rw [child, idle]
    rfl
  | @born j n forking =>
    have waits := standing i
    rw [forking] at waits
    have child : ∀ l, hand (update s.phase j .idle l) = hand (s.phase l) := updateSame hand (by rw [waits.1]; rfl)
    refine h.same rfl (shareSame rfl fun l => (updateSame hand ?_ l).trans (child l))
    rw [child, forking]
    rfl
  | kills =>
    refine h.same rfl (shareSame rfl fun j => ?_)
    dsimp only
    split
    · exact updateSame hand (handRouse _) j
    · rfl
  | reaps zombie =>
    refine h.same rfl (shareSame rfl (updateSame hand ?_))
    rw [zombie]
    rfl

/-! ### The ends of the pipes -/

theorem leadsUpdate (file : FileId → File) (f : FileId) (new : File) (e : Page × Bool) :
    tally (fun g => leads (update file f new g)) e + (if leads (file f) = some e then 1 else 0) =
      tally (fun g => leads (file g)) e + if leads new = some e then 1 else 0 := by
  have same : (fun g => leads (update file f new g)) = update (fun g => leads (file g)) f (leads new) := Monitor.updateOf leads file f new
  rw [same]
  exact tallyUpdate (fun g => leads (file g)) f (leads new) e

theorem jobsOwe (f : File) (e : Page × Bool) : f.jobs.count (.pipeclose e.1 e.2) = if leads f = some e then 1 else 0 := by
  unfold File.jobs leads
  obtain ⟨m, w⟩ := e
  cases f.type with
  | none | inode ip => rfl
  | pipe m' =>
    dsimp only
    rw [List.count_singleton]
    simp

theorem setPipeTally (blank : leads (file f) = none) (m : Page) (w : Bool) (e : Page × Bool) :
    tally (fun g => leads (setPipe file f m w g)) e = tally (fun g => leads (file g)) e + if (m, w) = e then 1 else 0 := by
  have moved := leadsUpdate file f ((file f).toPipe m w) e
  rw [blank, if_neg nofun] at moved
  unfold setPipe
  rw [Nat.add_zero] at moved
  rw [moved]
  refine congrArg _ (if_congr ?_ rfl rfl)
  exact Option.some_inj

theorem pipedTally {rf wf : FileId} (apart : rf ≠ wf) (blank0 : leads (file rf) = none) (blank1 : leads (file wf) = none) (m : Page) (e : Page × Bool) :
    tally (fun g => leads (piped file rf wf m g)) e = tally (fun g => leads (file g)) e + if e.1 = m then 1 else 0 := by
  have blank : leads (setPipe file rf m false wf) = none := by
    unfold setPipe
    rwa [update_of_ne apart.symm]
  unfold piped
  rw [setPipeTally blank, setPipeTally blank0]
  obtain ⟨m', w⟩ := e
  cases w <;> by_cases same : m = m' <;> simp [same, eq_comm]

theorem liveMade (absent : pipes m = none) (data : Nat → UInt8) (e : Page × Bool) :
    live (update pipes m (some (pipeinit m data))) e = live pipes e + if e.1 = m then 1 else 0 := by
  unfold live
  by_cases same : e.1 = m
  · rw [same, update_self, absent, if_pos rfl]
    cases e.2 <;> rfl
  · rw [update_of_ne same, if_neg same]
    rfl

theorem liveShut {p : Pipe} (here : pipes m = some p) (open' : p.isOpen w = true) (e : Page × Bool) :
    live (update pipes m (kept (p.shut w))) e + (if (m, w) = e then 1 else 0) = live pipes e := by
  obtain ⟨m', w'⟩ := e
  unfold live
  by_cases same : m' = m
  · subst same
    dsimp only
    rw [update_self, here]
    unfold Pipe.isOpen at open'
    unfold kept Pipe.shut Pipe.isOpen
    cases w <;> cases w' <;> simp_all <;> cases p.readopen <;> cases p.writeopen <;> simp_all
  · have other : (m, w) ≠ (m', w') := fun bad => same (Prod.mk.inj bad).1.symm
    dsimp only
    rw [update_of_ne same, if_neg other, Nat.add_zero]

theorem liveSame {p q : Pipe} (here : pipes m = some p) (ends : Pipes.sameEnds p q) (e : Page × Bool) : live (update pipes m (some q)) e = live pipes e := by
  unfold live
  by_cases same : e.1 = m
  · rw [same, update_self, here]
    dsimp only
    unfold Pipe.isOpen
    rw [ends.1, ends.2]
  · rw [update_of_ne same]

/-- A file that is not set up has one reference at most; a pipe is read through it or
written, not both. -/
structure Sound (f : File) : Prop where
  blank : f.type = .none → f.ref ≤ 1
  gone : f.ref = 0 → f.type = .none
  ways : ∀ m, f.type = .pipe m → f.readable = !f.writable

/-- What holds in every state. -/
structure Fits (s : State P) : Prop where
  counted : Counted (books s)
  settled : Settled (books s)
  standing : ∀ i, Standing s i (s.phase i)
  sound : ∀ f, Sound (s.file f)
  shown : ∀ i fd f, s.ofile i fd = some f → (s.file f).type ≠ .none
  pages : ∀ m p, s.pipes m = some p → (p.readopen = true ∨ p.writeopen = true) ∧ ∃ xs, Pipes.Content p xs

omit [DecidableEq P] in
theorem Fits.holds (h : Fits s) (here : s.ofile i fd = some f) : 0 < (s.file f).ref :=
  h.counted.held (k := i) (Nat.add_pos_left (tallyPos.mpr ⟨fd, here⟩) _)

omit [DecidableEq P] in
theorem Fits.hand (h : Fits s) (mem : f ∈ hand (s.phase i)) : 0 < (s.file f).ref :=
  h.counted.held (k := i) (Nat.add_pos_right _ (List.count_pos_iff.mpr mem))

omit [DecidableEq P] [Fintype P] in
theorem freshHand (p : Phase P) : fresh p = [] ∨ fresh p = Files.hand p := by cases p <;> simp [fresh, Files.hand]

omit [DecidableEq P] in
theorem Fits.freshType (h : Fits s) (mem : f ∈ fresh (s.phase i)) : (s.file f).type = .none := by
  have stands := h.standing i
  cases here : s.phase i <;> rw [here] at mem stands
  case opening f ip r w =>
    rw [List.mem_singleton.mp mem]
    exact stands
  case piping f =>
    rw [List.mem_singleton.mp mem]
    exact stands
  case piping2 rf wf =>
    rcases List.mem_cons.mp mem with rfl | mem
    · exact stands.1
    · rw [List.mem_singleton.mp mem]
      exact stands.2
  all_goals cases mem

omit [DecidableEq P] in
/-- The two files of `pipealloc` are not the same. -/
theorem Fits.apart {rf wf : FileId} (h : Fits s) (piping : s.phase i = .piping2 rf wf) : rf ≠ wf := by
  rintro rfl
  have le := h.counted.shareLe i rf
  have one := (h.sound rf).blank (h.freshType (i := i) (by rw [piping]; exact List.mem_cons_self))
  simp only [books, piping, Files.hand, List.count_cons_self, List.count_nil] at le
  omega

omit [DecidableEq P] [Fintype P] in
theorem liveOpen {p : Pipe} (here : pipes m = some p) : 0 < live pipes (m, w) ↔ p.isOpen w = true := by
  unfold live
  rw [here]
  cases same : p.isOpen w <;> simp [same]

/-- A section of `read` or `write` leaves both ends as they are. -/
theorem codeEnds {p : Pipe} {xs : Bytes} {killed : Bool} {sec : Pipes.Hold} (does : Pipes.Does p xs killed k sec) (way : uses k = some w) :
    Pipes.sameEnds p sec.state ∧ ∀ chan k', sec.next = .sleep chan k' → uses k' = some w := by
  cases does with
  | stores ends | gives ends | takes _ ends => exact ⟨ends, nofun⟩
  | waits ends =>
    refine ⟨ends, fun chan k' next => ?_⟩
    cases next
    exact way
  | fails => exact ⟨⟨rfl, rfl⟩, nofun⟩
  | awaits =>
    refine ⟨⟨rfl, rfl⟩, fun chan k' next => ?_⟩
    cases next
    exact way
  | closeWrite | closeRead => cases way

omit [DecidableEq P] in
theorem Fits.call (h : Fits s) (inside : s.phase i = .inside m (.ready k)) : ∃ w fd f, uses k = some w ∧ s.ofile i fd = some f ∧ leads (s.file f) = some (m, w) := by
  have stands := h.standing i
  rw [inside] at stands
  obtain ⟨k', w, fd, f, calls, way, here, end'⟩ := stands
  rcases calls with same | ⟨chan, same⟩
  · cases same
    exact ⟨w, fd, f, way, here, end'⟩
  · cases same

omit [DecidableEq P] in
theorem Fits.ends {p : Pipe} {sec : Pipes.Hold} (h : Fits s) (inside : s.phase i = .inside m (.ready k)) (here : s.pipes m = some p)
    (runs : Pipes.code k (s.killed i) p = some sec) : Pipes.sameEnds p sec.state ∧ ∀ w, uses k = some w → ∀ chan k', sec.next = .sleep chan k' → uses k' = some w := by
  obtain ⟨_, xs, content⟩ := h.pages m p here
  have does := Pipes.codeDoes content runs
  obtain ⟨w, _, _, way, _⟩ := h.call inside
  exact ⟨(codeEnds does way).1, fun w way => (codeEnds does way).2⟩

omit [DecidableEq P] [Fintype P] in
theorem leadsNone (blank : (file f).type = .none) : leads (file f) = none := by
  unfold leads
  rw [blank]

theorem stepSettled (h : Fits s) (steps : Steps s i o s') : Settled (books s') := by
  cases steps with
  | stay => exact h.settled
  | alloc free wants => exact h.settled.same (funext fun g => setRefLeads s.file _ g 1) rfl fun j e => updateSame (owes e) (wants.owes e) j
  | turn turns => exact h.settled.same rfl rfl fun j e => updateSame (owes e) (turns.owes e) j
  | dup idle here free => exact h.settled.same (funext fun g => setRefLeads s.file _ g _) rfl fun j e => rfl
  | child fits forking here =>
    exact h.settled.same (funext fun g => setRefLeads s.file _ g _) rfl fun j e => updateSame (owes e) (by rw [forking]; rfl) j
  | gives why here =>
    exact h.settled.same rfl rfl fun j e => updateSame (owes e) (by rcases why with why | why <;> rw [why] <;> rfl) j
  | @opens f ip r w fd opening free =>
    refine h.settled.same (funext fun g => ?_) rfl fun j e => updateSame (owes e) (by rw [opening]; rfl) j
    have blank := leadsNone (h.freshType (i := i) (f := f) (by rw [opening]; exact List.mem_singleton_self f))
    simp only [books, setInode]
    by_cases same : g = f
    · rw [same, update_self, blank]
      rfl
    · rw [update_of_ne same]
  | @pipes rf wf m data piping absent =>
    refine h.settled.move i (fun j other e => by simp [books, State.turn, update_of_ne other]) fun e => ?_
    have blank0 := leadsNone (h.freshType (i := i) (f := rf) (by rw [piping]; exact List.mem_cons_self))
    have blank1 := leadsNone (h.freshType (i := i) (f := wf) (by rw [piping]; exact List.mem_cons_of_mem _ (List.mem_singleton_self wf)))
    simp only [books, State.turn, update_self, piping, liveMade absent, pipedTally (h.apart piping) blank0 blank1]
    simp only [owes, List.count_cons, List.count_nil]
    simp
    omega
  | @piped rf wf m data fd0 fd1 piping absent free0 free1 =>
    refine h.settled.move i (fun j other e => by simp [books, State.turn, update_of_ne other]) fun e => ?_
    have blank0 := leadsNone (h.freshType (i := i) (f := rf) (by rw [piping]; exact List.mem_cons_self))
    have blank1 := leadsNone (h.freshType (i := i) (f := wf) (by rw [piping]; exact List.mem_cons_of_mem _ (List.mem_singleton_self wf)))
    simp only [books, State.turn, update_self, piping, liveMade absent, pipedTally (h.apart piping) blank0 blank1]
    simp only [owes]
    omega
  | drops closing more =>
    refine h.settled.same (funext fun g => setRefLeads s.file _ g _) rfl fun j e => updateSame (owes e) ?_ j
    rw [closing]
    simp [owes]
  | @last f rest r closing one =>
    refine h.settled.move i (fun j other e => by simp [books, State.turn, update_of_ne other]) fun e => ?_
    have moved := leadsUpdate s.file f (s.file f).gone e
    rw [if_neg (show leads (s.file f).gone ≠ some e from nofun)] at moved
    simp only [books, State.turn, update_self, closing]
    simp only [owes, List.count_append, jobsOwe, List.count_cons]
    simp
    omega
  | @shuts m w rest r p closing here =>
    have owed : 0 < (books s).owes i (m, w) := by
      simp only [books, closing, owes, List.count_cons_self]
      exact Nat.succ_pos _
    have open' := (liveOpen here).mp (h.settled.owed owed)
    refine h.settled.move i (fun j other e => by simp [books, section', update_of_ne other]) fun e => ?_
    have shut := liveShut here open' e
    simp only [books, section', update_self, closing]
    simp only [owes, List.count_cons]
    have same : (Job.pipeclose m w == Job.pipeclose e.1 e.2) = true ↔ (m, w) = e := by
      obtain ⟨m', w'⟩ := e
      simp
    simp only [same]
    omega
  | @runs m k p sec inside here runs =>
    refine h.settled.same rfl ?_ fun j e => sectionSame (owes e) (owesWake e) (by rw [inside, owesAfter]; rfl) j
    exact funext (liveSame here (h.ends inside here runs).1)
  | @forks j idle unused =>
    refine h.settled.same rfl rfl fun l e => ?_
    have child : ∀ l, owes e (update s.phase j (.embryo i) l) = owes e (s.phase l) := updateSame (owes e) (by rw [unused]; rfl)
    refine (updateSame (owes e) ?_ l).trans (child l)
    rw [child, idle]
    rfl
  | @born j n forking =>
    refine h.settled.same rfl rfl fun l e => ?_
    have waits := h.standing i
    rw [forking] at waits
    have child : ∀ l, owes e (update s.phase j .idle l) = owes e (s.phase l) := updateSame (owes e) (by rw [waits.1]; rfl)
    refine (updateSame (owes e) ?_ l).trans (child l)
    rw [child, forking]
    rfl
  | kills =>
    refine h.settled.same rfl rfl fun j e => ?_
    simp only [books]
    split
    · exact updateSame (owes e) (owesRouse e _) j
    · rfl
  | reaps zombie =>
    exact h.settled.same rfl rfl fun j e => updateSame (owes e) (by rw [zombie]; rfl) j

end OpSys.Files
