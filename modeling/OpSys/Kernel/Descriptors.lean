import OpSys.Kernel.Standing

/-! What holds of files and pipes in every run. -/
namespace OpSys.Files
open Function OpSys.Transition OpSys.Handles
open OpSys.Cow (Pipe Word)
open OpSys.Pipes (Call Chan Out Bytes)

variable {P : Type*} [DecidableEq P] [Fintype P] {s s' : State P} {i j : P} {a : Act P} {o : Output P} {f g : FileId} {fd : Fd} {m : Page} {w : Bool} {k : Call} {file file' : FileId → File}
  {page : Option (Page × (Nat → UInt8))} {jobs new : List Job} {r : Option Int} {ofile : Fd → Option FileId} {pipes : Page → Option Pipe}

/-! ### Every run -/

omit [Fintype P] in
theorem bootPhase (boot : Boot s) (i : P) : s.phase i = .idle ∨ s.phase i = .unused := by
  obtain ⟨_, _, _, first, phase⟩ := boot
  rw [phase]
  by_cases same : i = first
  · exact .inl (by rw [same, update_self])
  · exact .inr (update_of_ne same _ _)

theorem bootFits (boot : Boot s) : Fits s := by
  have phase := bootPhase boot
  obtain ⟨file, pipes, ofile, _⟩ := boot
  have bare : ∀ i f, tally (s.ofile i) f = 0 := fun i f => by
    by_contra some
    obtain ⟨fd, here⟩ := tallyPos.mp (Nat.pos_of_ne_zero some)
    rw [ofile] at here
    cases here
  have nothing : ∀ i, hand (s.phase i) = [] ∧ ∀ e, owes e (s.phase i) = 0 := fun i => by
    rcases phase i with here | here <;> rw [here] <;> exact ⟨rfl, fun _ => rfl⟩
  refine ⟨fun f => ?_, fun e => ?_, fun i => ?_, fun f => ?_, fun i fd f here => ?_, fun m p here => ?_⟩
  · refine (file f).1.trans (Finset.sum_eq_zero fun i _ => ?_).symm
    simp only [books, bare, (nothing i).1, List.count_nil, Nat.add_zero]
  · have blank : tally (books s).leads e = 0 := by
      by_contra some
      obtain ⟨f, here⟩ := tallyPos.mp (Nat.pos_of_ne_zero some)
      cases (leadsNone (file f).2).symm.trans here
    have none : ∑ i, (books s).owes i e = 0 := Finset.sum_eq_zero fun i _ => (nothing i).2 e
    rw [blank, none]
    simp only [books, live, pipes]
  · rcases phase i with here | here
    · rw [here]
      trivial
    · rw [here]
      exact ofile i
  · exact ⟨fun _ => (file f).1.le.trans (Nat.zero_le 1), fun _ => (file f).2, fun m type => by cases (file f).2.symm.trans type⟩
  · cases (ofile i fd).symm.trans here
  · cases (pipes m).symm.trans here

theorem reachFits (reach : machine.Reachable s) : Fits s :=
  reach.invariant (P := Fits) (fun _ => bootFits) fun _ _ _ _ h _ ok => stepFits h ok

theorem dupStops {e : Stop} (some : 0 < (file f).ref) : filedup file f ≠ .error e := by
  unfold filedup
  rw [if_neg (by omega)]
  exact nofun

theorem closeStops {e : Stop} (some : 0 < (file f).ref) : fileclose file f ≠ .error e := by
  unfold fileclose
  rw [if_neg (by omega)]
  split <;> exact nofun

theorem transferStops {e : Stop} (h : Fits s) : transfer s i fd w k ≠ .error e := by
  unfold transfer
  split
  · exact nofun
  · rename_i f here
    split
    · exact nofun
    · split
      · exact nofun
      · exact nofun
      · rename_i none
        exact absurd none (h.shown i fd f here)

theorem askStops {a : Ask P} {e : Stop} (h : Fits s) (stops : ask s i a = .error e) : e = .blocked := by
  cases a with
  | open' ip r w =>
    simp only [ask] at stops
    split at stops <;> cases stops
  | dup fd =>
    simp only [ask] at stops
    split at stops
    · cases stops
    · rename_i f here
      split at stops
      · cases stops
      · split at stops
        · rename_i e bad
          exact absurd bad (dupStops (h.holds here))
        · cases stops
  | close fd =>
    simp only [ask] at stops
    split at stops <;> cases stops
  | read fd n => exact absurd stops (transferStops h)
  | write fd n text => exact absurd stops (transferStops h)
  | pipe =>
    simp only [ask] at stops
    split at stops <;> cases stops
  | fork child =>
    simp only [ask] at stops
    split at stops
    · cases stops
    · cases stops
      rfl
  | exit => cases stops

omit [DecidableEq P] [Fintype P] in
theorem livePipe (lives : 0 < live pipes (m, w)) : ∃ p, pipes m = some p := by
  unfold live at lives
  dsimp only at lives
  split at lives
  · exact absurd lives (Nat.lt_irrefl 0)
  · rename_i p here
    exact ⟨p, here⟩

theorem goStops {e : Stop} (h : Fits s) (stops : go s i page = .error e) : e = .blocked := by
  unfold go at stops
  cases here : s.phase i with
  | unused | embryo | zombie | idle =>
    rw [here] at stops
    cases stops
    rfl
  | opening f ip r w =>
    simp only [here] at stops
    split at stops <;> cases stops
  | piping rf =>
    simp only [here] at stops
    split at stops <;> cases stops
  | piping2 rf wf =>
    simp only [here] at stops
    split at stops
    · cases stops
    · split at stops
      · cases stops
        rfl
      · cases stops
  | closing jobs returns =>
    simp only [here] at stops
    cases jobs with
    | nil => cases returns <;> cases stops
    | cons job rest =>
      cases job with
      | fileclose f =>
        have some := h.hand (i := i) (f := f) (by rw [here]; exact List.mem_cons_self)
        dsimp only at stops
        split at stops
        · rename_i bad
          exact absurd bad (closeStops some)
        · cases stops
      | pipeclose m w =>
        have owed : 0 < (books s).owes i (m, w) := by
          simp only [books, here, owes, List.count_cons_self]
          exact Nat.succ_pos _
        obtain ⟨p, pipe⟩ := livePipe (h.settled.owed owed)
        dsimp only at stops
        rw [pipe] at stops
        cases stops
  | exiting =>
    simp only [here] at stops
    split at stops
    · cases stops
    · split at stops
      · cases stops
        rfl
      · cases stops
  | forking child n =>
    simp only [here] at stops
    split at stops
    · split at stops
      · cases stops
      · rename_i f there
        split at stops
        · rename_i bad
          exact absurd bad (dupStops (h.holds there))
        · cases stops
    · cases stops
  | inside m call =>
    simp only [here] at stops
    cases call with
    | idle =>
      cases stops
      rfl
    | asleep chan k =>
      cases stops
      rfl
    | ready k =>
      obtain ⟨w, fd, f, way, _, end'⟩ := h.call here
      obtain ⟨p, pipe⟩ := livePipe (h.settled.leads end')
      dsimp only at stops
      rw [pipe] at stops
      dsimp only at stops
      split at stops
      · rename_i none
        cases k <;> cases none
      · cases stops

/-- The count of a file is the number of places from which it is referred to, so `filedup`,
`fileclose`, `fileread` and `filewrite` never panic, and no page is used as a pipe that is
none. -/
theorem filesCounted (reach : machine.Reachable s) :
    (∀ a, step s a ≠ .error .panic ∧ step s a ≠ .error .wild) ∧ ∀ f, (s.file f).ref = ∑ i, (tally (s.ofile i) f + (hand (s.phase i)).count f) := by
  have h := reachFits reach
  have stops : ∀ a e, step s a = .error e → e = .blocked := fun a e stops => by
    cases a with
    | ask i a =>
      simp only [step] at stops
      split at stops
      · exact askStops h stops
      · cases stops
        rfl
    | go i page => exact goStops h stops
    | kill i rouse => cases stops
    | reap i =>
      simp only [step] at stops
      split at stops
      · cases stops
      · cases stops
        rfl
  refine ⟨fun a => ⟨fun bad => ?_, fun bad => ?_⟩, h.counted⟩
  · cases stops a .panic bad
  · cases stops a .wild bad

/-- A process has a descriptor for an end of a pipe, or is about to close it. -/
def Holds (s : State P) (i : P) (m : Page) (w : Bool) : Prop :=
  (∃ fd f, s.ofile i fd = some f ∧ leads (s.file f) = some (m, w)) ∨ (∃ f ∈ hand (s.phase i), leads (s.file f) = some (m, w)) ∨
    ∃ jobs r, s.phase i = .closing jobs r ∧ .pipeclose m w ∈ jobs

/-- An end of a pipe is open as long as somebody holds it, and its page is not freed before
that. -/
theorem pipeHeld (reach : machine.Reachable s) (m : Page) :
    (∀ w, (∃ p, s.pipes m = some p ∧ p.isOpen w = true) ↔ ∃ i, Holds s i m w) ∧ (s.pipes m ≠ none ↔ ∃ i w, Holds s i m w) := by
  have h := reachFits reach
  have ends : ∀ w, (∃ p, s.pipes m = some p ∧ p.isOpen w = true) ↔ ∃ i, Holds s i m w := fun w => by
    constructor
    · rintro ⟨p, here, open'⟩
      rcases h.settled.keeper (e := (m, w)) ((liveOpen here).mpr open') with ⟨f, end'⟩ | ⟨i, owed⟩
      · have some : 0 < (s.file f).ref := by
          by_contra none
          cases (leadsNone ((h.sound f).gone (by omega))).symm.trans end'
        obtain ⟨i, share⟩ := h.counted.holder (f := f) some
        refine ⟨i, ?_⟩
        rcases Nat.add_pos_iff_pos_or_pos.mp share with fds | hands
        · obtain ⟨fd, here⟩ := tallyPos.mp fds
          exact .inl ⟨fd, f, here, end'⟩
        · exact .inr (.inl ⟨f, List.count_pos_iff.mp hands, end'⟩)
      · refine ⟨i, .inr (.inr ?_)⟩
        simp only [books] at owed
        generalize s.phase i = p at owed ⊢
        cases p with
        | closing jobs r => exact ⟨jobs, r, rfl, List.count_pos_iff.mp owed⟩
        | _ => cases owed
    · rintro ⟨i, holds⟩
      have lives : 0 < live s.pipes (m, w) := by
        rcases holds with ⟨fd, f, here, end'⟩ | ⟨f, mem, end'⟩ | ⟨jobs, r, closing, mem⟩
        · exact h.settled.leads end'
        · exact h.settled.leads end'
        · refine h.settled.owed (k := i) ?_
          simp only [books, closing]
          exact List.count_pos_iff.mpr mem
      obtain ⟨p, here⟩ := livePipe lives
      exact ⟨p, here, (liveOpen here).mp lives⟩
  refine ⟨ends, fun some => ?_, ?_⟩
  · obtain ⟨p, here⟩ := Option.ne_none_iff_exists'.mp some
    rcases (h.pages m p here).1 with read | write
    · obtain ⟨i, holds⟩ := (ends false).mp ⟨p, here, read⟩
      exact ⟨i, false, holds⟩
    · obtain ⟨i, holds⟩ := (ends true).mp ⟨p, here, write⟩
      exact ⟨i, true, holds⟩
  · rintro ⟨i, w, holds⟩
    obtain ⟨p, here, _⟩ := (ends w).mpr ⟨i, holds⟩
    exact Option.ne_none_iff_exists'.mpr ⟨p, here⟩

/-- The processes have no call in progress that has files in its hands. -/
def Rests (s : State P) : Prop := ∀ i, hand (s.phase i) = [] ∧ ∀ e, owes e (s.phase i) = 0

/-- Nothing is lost: between calls a file counts its descriptors and a pipe has one. -/
theorem nothingLeaks (reach : machine.Reachable s) (rests : Rests s) :
    (∀ f, (s.file f).ref = ∑ i, tally (s.ofile i) f) ∧ ∀ m, s.pipes m ≠ none ↔ ∃ i fd f, s.ofile i fd = some f ∧ (s.file f).type = .pipe m := by
  constructor
  · intro f
    rw [(filesCounted reach).2 f]
    refine Finset.sum_congr rfl fun i _ => ?_
    rw [(rests i).1, List.count_nil, Nat.add_zero]
  · intro m
    rw [(pipeHeld reach m).2]
    constructor
    · rintro ⟨i, w, ⟨fd, f, here, end'⟩ | ⟨f, mem, _⟩ | ⟨jobs, r, closing, mem⟩⟩
      · refine ⟨i, fd, f, here, ?_⟩
        unfold leads at end'
        split at end'
        · rename_i m' type
          cases end'
          exact type
        · cases end'
      · rw [(rests i).1] at mem
        cases mem
      · have owed := (rests i).2 (m, w)
        rw [closing] at owed
        exact absurd owed (List.count_pos_iff.mpr mem).ne'
    · rintro ⟨i, fd, f, here, type⟩
      refine ⟨i, (s.file f).writable, .inl ⟨fd, f, here, ?_⟩⟩
      unfold leads
      rw [type]

/-- `read` of a pipe that asks for bytes returns none only when nobody has a descriptor for
writing any more or is about to close one, and then it does not wait. -/
theorem readReturns {n : Word} (page : Option (Page × (Nat → UInt8))) (reach : machine.Reachable s) (inside : s.phase i = .inside m (.ready (.read n))) :
    ∃ s' out, step s (.go i page) = .ok (s', some ((some m, i), out)) ∧
      (0 < n.toInt → out.result = some 0 → ∀ j, ¬ Holds s j m true) ∧
      ((∀ j, ¬ Holds s j m true) → out.result = some out.took.length ∧ s'.phase i = .idle) := by
  have h := reachFits reach
  obtain ⟨w, fd, f, way, here, end'⟩ := h.call inside
  obtain ⟨p, pipe⟩ := livePipe (h.settled.leads end')
  obtain ⟨_, xs, content⟩ := h.pages m p pipe
  have writer : p.writeopen = true ↔ ∃ j, Holds s j m true := by
    rw [← (pipeHeld reach m).1 true]
    constructor
    · exact fun open' => ⟨p, pipe, open'⟩
    · rintro ⟨q, there, open'⟩
      cases pipe.symm.trans there
      exact open'
  have runs : Pipes.code (.read n) (s.killed i) p = some (Pipes.piperead (s.killed i) n p) := rfl
  have does := Pipes.codeDoes content runs
  have ran : step s (.go i page) = .ok (section' s i m (some (Pipes.piperead (s.killed i) n p).state) (Pipes.piperead (s.killed i) n p).wakes
      (after m (Pipes.piperead (s.killed i) n p).next), some ((some m, i), (Pipes.piperead (s.killed i) n p).out)) := by
    simp only [step, go, inside, pipe, runs]
  generalize Pipes.piperead (s.killed i) n p = sec at does ran
  refine ⟨_, _, ran, fun some zero => ?_, fun nobody => ?_⟩
  · rw [← not_exists, ← writer]
    cases does with
    | fails => cases zero
    | awaits => cases zero
    | takes why ends left =>
      refine fun open' => ?_
      rcases why with bytes | shut
      · simp only [Option.some.injEq, List.length_take] at zero
        have pos := List.length_pos_of_ne_nil bytes
        omega
      · rw [shut] at open'
        cases open'
  · rw [← not_exists, ← writer] at nobody
    cases does with
    | fails blank open' => exact absurd open' nobody
    | awaits blank open' => exact absurd open' nobody
    | takes =>
      refine ⟨rfl, ?_⟩
      dsimp only [section']
      rw [update_self]
      rfl

def puts (m : Page) : List (Output P) → Bytes := Pipes.gather fun x => if x.1.1 = some m then x.2.put else []

def takes (m : Page) : List (Output P) → Bytes := Pipes.gather fun x => if x.1.1 = some m then x.2.took else []

omit [Fintype P] in
theorem stepCarries {p q : Pipe} {xs : Bytes} (steps : Steps s i o s') (here : s.pipes m = some p) (now : s'.pipes m = some q) (content : Pipes.Content p xs) :
    ∃ ys, Pipes.Content q ys ∧ xs ++ puts m [o] = takes m [o] ++ ys := by
  have quiet : Quiet o → puts m [o] = [] ∧ takes m [o] = [] := fun quiet => by
    cases quiet <;> exact ⟨rfl, rfl⟩
  have same : s'.pipes m = s.pipes m → Quiet o → ∃ ys, Pipes.Content q ys ∧ xs ++ puts m [o] = takes m [o] ++ ys := fun same silent => by
    rw [same, here] at now
    cases now
    rw [(quiet silent).1, (quiet silent).2]
    exact ⟨xs, content, List.append_nil xs⟩
  cases steps with
  | stay silent | turn _ silent | gives _ _ silent | forks _ _ silent | born _ silent | kills silent | reaps _ silent | alloc _ _ silent | dup _ _ _ silent
  | child _ _ _ silent | drops _ _ silent | last _ _ silent | opens _ _ silent => exact same rfl silent
  | @pipes rf wf m' data piping absent silent =>
    refine same (update_of_ne ?_ _ _) silent
    rintro rfl
    cases absent.symm.trans here
  | @piped rf wf m' data fd0 fd1 piping absent free0 free1 silent =>
    refine same (update_of_ne ?_ _ _) silent
    rintro rfl
    cases absent.symm.trans here
  | @shuts m' w rest r p' closing there silent =>
    by_cases pipe : m = m'
    · subst pipe
      cases here.symm.trans there
      dsimp only [section'] at now
      rw [update_self] at now
      unfold kept at now
      split at now
      · cases now
      · cases now
        rw [(quiet silent).1, (quiet silent).2]
        refine ⟨xs, ?_, List.append_nil xs⟩
        unfold Pipe.shut
        split <;> exact content
    · exact same (update_of_ne pipe _ _) silent
  | @runs m' k p' sec inside there runs out =>
    rw [out]
    unfold puts takes Pipes.gather
    by_cases pipe : m = m'
    · subst pipe
      cases here.symm.trans there
      dsimp only [section'] at now
      rw [update_self] at now
      cases now
      simpa using Pipes.codeContent content runs
    · have other : some m' ≠ some m := fun bad => pipe (Option.some.inj bad).symm
      have rest : s.pipes m = some q := by
        rw [← now]
        exact (update_of_ne pipe _ _).symm
      cases here.symm.trans rest
      simpa [other] using content

omit [Fintype P] in
/-- While a pipe is there, what comes out of it through whichever descriptors is what was put
in, in that order, but for what is still in it. -/
theorem pipeCarries {p q : Pipe} {xs : Bytes} {acts : List (Act P)} {os : List (Output P)} (here : s.pipes m = some p) (content : Pipes.Content p xs)
    (stays : machine.Passes (fun s _ => s.pipes m ≠ none) s acts) (ran : machine.run s acts = .ok (s', os)) (now : s'.pipes m = some q) :
    ∃ ys, Pipes.Content q ys ∧ xs ++ puts m os = takes m os ++ ys := by
  induction acts generalizing s p xs os with
  | nil =>
    cases ran
    cases here.symm.trans now
    exact ⟨xs, content, List.append_nil xs⟩
  | cons a acts ih =>
    obtain ⟨mid, o, os', first, later, rfl⟩ := Machine.runCons ran
    have next := stays.2 mid o first
    obtain ⟨p', there⟩ : ∃ p', mid.pipes m = some p' := by
      cases acts with
      | nil =>
        cases later
        exact ⟨q, now⟩
      | cons => exact Option.ne_none_iff_exists'.mp next.1
    obtain ⟨ys, content', moved⟩ := stepCarries (stepSteps first) here there content
    obtain ⟨zs, content'', moved'⟩ := ih there content' next later
    refine ⟨zs, content'', ?_⟩
    have one : ∀ g : (Option Page × P) × Out → Bytes, Pipes.gather g (o :: os') = Pipes.gather g [o] ++ Pipes.gather g os' := fun g => by
      unfold Pipes.gather
      rw [← List.singleton_append, List.reduceOption_append, List.flatMap_append]
    unfold puts takes at *
    rw [one, one, ← List.append_assoc, moved, List.append_assoc, moved', List.append_assoc]

def boot : State (Bool) := ⟨fun _ => ⟨.none, 0, false, false⟩, fun _ => none, fun _ _ => none, fun _ => false, update (fun _ => .unused) false .idle⟩

theorem bootReach : (machine (P := Bool)).Reachable boot := .start ⟨fun _ => ⟨rfl, rfl⟩, fun _ => rfl, fun _ _ => rfl, false, rfl⟩

def makes : List (Act (Bool)) := [.ask false .pipe, .go false none, .go false (some (7, fun _ => 5))]

/-- A pipe, and a child that has its descriptors. -/
def shares : List (Act (Bool)) := makes ++ .ask false (.fork true) :: List.replicate 17 (.go false none)

/-- Both close the end for writing, and the first one reads. -/
def shuts : List (Act (Bool)) :=
  shares ++ [.ask false (.close 1), .go false none, .go false none, .ask true (.close 1), .go true none, .go true none, .go true none, .ask false (.read 0 1)]

theorem filesCountedOne : Machine.Ends (machine.run boot shares) fun s _ =>
    (s.file 0).ref = 2 ∧ (s.file 0).ref = ∑ i, (tally (s.ofile i) 0 + (hand (s.phase i)).count 0) := by
  have run : Machine.Ends (machine.run boot shares) fun s _ => (s.file 0).ref = 2 := by decide +kernel
  obtain ⟨s, os, ok, two⟩ := run.run
  have counted := (filesCounted (Machine.runReachable bootReach ok)).2 0
  rw [ok]
  exact ⟨two, counted⟩

theorem pipeHeldOne : Machine.Ends (machine.run boot makes) fun s _ => s.pipes 7 ≠ none ∧ ∃ i w, Holds s i 7 w := by
  have run : Machine.Ends (machine.run boot makes) fun s _ => (s.pipes 7).isSome = true := by decide +kernel
  obtain ⟨s, os, ok, some⟩ := run.run
  have there : s.pipes 7 ≠ none := fun none => by
    rw [none] at some
    cases some
  have held := (pipeHeld (Machine.runReachable bootReach ok) 7).2.mp there
  rw [ok]
  exact ⟨there, held⟩

theorem nothingLeaksOne : Machine.Ends (machine.run boot shares) fun s _ => ∃ i fd f, s.ofile i fd = some f ∧ (s.file f).type = .pipe 7 := by
  have run : Machine.Ends (machine.run boot shares) fun s _ => (s.pipes 7).isSome = true ∧ ∀ i, s.phase i = .idle := by decide +kernel
  obtain ⟨s, os, ok, some, idle⟩ := run.run
  have there : s.pipes 7 ≠ none := fun none => by
    rw [none] at some
    cases some
  have rests : Rests s := fun i => by
    rw [idle i]
    exact ⟨rfl, fun _ => rfl⟩
  have leaks := ((nothingLeaks (Machine.runReachable bootReach ok) rests).2 7).mp there
  rw [ok]
  exact leaks

theorem readReturnsOne : Machine.Ends (machine.run boot shuts) fun s _ =>
    ∃ s' out, step s (.go false none) = .ok (s', some ((some 7, false), out)) ∧
      (0 < (1 : Word).toInt → out.result = some 0 → ∀ j, ¬ Holds s j 7 true) ∧
      ((∀ j, ¬ Holds s j 7 true) → out.result = some out.took.length ∧ s'.phase false = .idle) := by
  have run : Machine.Ends (machine.run boot shuts) fun s _ => s.phase false = .inside 7 (.ready (.read 1)) := by decide +kernel
  obtain ⟨s, os, ok, inside⟩ := run.run
  have returns := readReturns none (Machine.runReachable bootReach ok) inside
  rw [ok]
  exact returns

/-- Three bytes are written by the first process, and the second one takes two of them. -/
def carries : List (Act (Bool)) := [.ask false (.write 1 3 [1, 2, 3]), .go false none, .ask true (.read 0 2), .go true none]

theorem pipeCarriesOne : Machine.Ends (machine.run boot shares) fun s _ =>
    Machine.Ends (machine.run s carries) fun _ os => takes 7 os = [1, 2] ∧ ∃ ys, puts 7 os = takes 7 os ++ ys := by
  have fresh : Machine.Ends (machine.run boot shares) fun s _ =>
      ((s.pipes 7).map fun p => (p.nread, p.nwrite, p.readopen, p.writeopen)) = some (0, 0, true, true) := by decide +kernel
  have run : Machine.Ends (machine.run boot shares) fun s _ => machine.Passes (fun s _ => (s.pipes 7).isSome = true) s carries ∧
      Machine.Ends (machine.run s carries) fun s' os => takes 7 os = [1, 2] ∧ (s'.pipes 7).isSome = true := by decide +kernel
  obtain ⟨s, _, ok, stays, later⟩ := run.run
  rw [ok] at fresh
  obtain ⟨s', os, ok', took, some⟩ := later.run
  obtain ⟨p, here, start⟩ := Option.map_eq_some_iff.mp fresh
  obtain ⟨q, now⟩ := Option.isSome_iff_exists.mp some
  have content : Pipes.Content p [] := Pipes.freshContent ⟨congrArg Prod.fst start, congrArg (fun x => x.2.1) start, congrArg (fun x => x.2.2.1) start,
    congrArg (fun x => x.2.2.2) start⟩
  have passes : machine.Passes (fun s _ => s.pipes 7 ≠ none) s carries := stays.weaken fun s _ some none => by
    rw [none] at some
    cases some
  obtain ⟨ys, _, moved⟩ := pipeCarries here content passes ok' now
  rw [ok]
  change Machine.Ends (machine.run s carries) _
  rw [ok']
  exact ⟨took, ys, moved⟩

end OpSys.Files
