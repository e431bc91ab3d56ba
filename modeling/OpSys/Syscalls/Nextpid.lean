import OpSys.Syscalls.Living

/-! What `getnextpid` announces. A call of `allocproc` takes a slot under the lock, with a
pid, and then asks for a kernel stack; without one it has failed, and the pid is gone. -/
namespace OpSys.Syscalls
open OpSys.Xv6 OpSys.Transition

def getnextpid (s : Sys) : Int := s.nextpid

/-- `kstack`: the slots whose `kstack` is not null. -/
structure Kernel where
  sys : Sys
  kstack : Slot → Bool

/-- A step of the process table, or the return of `allocproc` with a process in it. -/
inductive Act where
  | op (op : Op)
  | kalloc (i : Slot)

/-- A slot that is set to `UNUSED` has lost its stack. -/
def Kernel.on (k : Kernel) (op : Op) : Except Stop (Kernel × Unit) := do
  let (s, o) ← step k.sys op
  return (⟨s, fun j => k.kstack j && (s.proc j).state != .unused⟩, o)

def Kernel.step (k : Kernel) : Act → Except Stop (Kernel × Unit)
  | .kalloc i => match (k.sys.proc i).np with
    | none => .error .idle
    | some j =>
      if (k.sys.proc i).state = .running ∧ k.kstack j = false then .ok ({k with kstack := Function.update k.kstack j true}, ())
      else .error .idle
  | .op (.forkReturns i) => match (k.sys.proc i).np with
    | none => .error .idle
    | some j => if k.kstack j then k.on (.forkReturns i) else .error .idle
  | .op op => k.on op

def Kernel.boot : Kernel := ⟨Syscalls.boot, fun j => j = 0⟩

def kernel : Machine Kernel Act Unit Stop where
  init k := k = .boot
  step := Kernel.step

/-! ### What is expected -/

def Act.allocs : Act → Bool
  | .op (.fork _) => true
  | _ => false

/-- The calls of `allocproc` in a run, with that of `userinit`. -/
def allocprocs (acts : List Act) : Nat := 1 + acts.countP Act.allocs

structure Fresh (s : Sys) : Prop where
  distinct : ∀ i j, (s.proc i).state ≠ .unused → (s.proc j).state ≠ .unused → (s.proc i).pid = (s.proc j).pid → i = j
  below : ∀ j, (s.proc j).pid < getnextpid s

/-- The slot that a call of `allocproc` takes. -/
def unusedSlot (s : Sys) : Option Slot := slots.find? fun j => (s.proc j).state = .unused

def Takes (k : Kernel) (act : Act) : Prop := act.allocs = true ∧ unusedSlot k.sys ≠ none

instance (k : Kernel) (act : Act) : Decidable (Takes k act) := inferInstanceAs (Decidable (_ ∧ _))

/-- The next call that takes a slot gives it this pid, and if it succeeds its process has
it. -/
def Announces (k : Kernel) : Prop :=
  ∀ acts k' os, kernel.run k acts = .ok (k', os) → kernel.Passes (fun k act => ¬ Takes k act) k acts →
  ∀ i j l, unusedSlot k'.sys = some j → k'.step (.op (.fork i)) = .ok (l, ()) →
    (l.sys.proc j).pid = getnextpid k.sys ∧
    ∀ acts' l' os', kernel.run l acts' = .ok (l', os') → .op (.fork i) ∉ acts' →
    ∀ l'', l'.step (.kalloc i) = .ok (l'', ()) → (l''.sys.proc i).np = some j ∧ (l''.sys.proc j).pid = getnextpid k.sys

/-- The next call that succeeds gives its process this pid. -/
def AnnouncesSuccess (k : Kernel) : Prop :=
  ∀ acts k' os, kernel.run k acts = .ok (k', os) → (∀ i, .kalloc i ∉ acts) →
  ∀ i j l, k'.step (.kalloc i) = .ok (l, ()) → (l.sys.proc i).np = some j → (l.sys.proc j).pid = getnextpid k.sys

variable {s s' : Sys} {k k' : Kernel} {act : Act} {acts : List Act} {op : Op} {i j l : Slot} {v : Int} {o : Unit} {os : List Unit}

/-! ### Steps -/

theorem onCases (ok : k.on op = .ok (k', o)) : step k.sys op = .ok (k'.sys, ()) := by
  obtain ⟨⟨s, o'⟩, ran, done⟩ := bindOk ok
  cases done
  exact ran

theorem kernelCases (ok : k.step act = .ok (k', o)) : (∃ op, act = .op op ∧ step k.sys op = .ok (k'.sys, ())) ∨
    ∃ i j, act = .kalloc i ∧ (k.sys.proc i).np = some j ∧ k'.sys = k.sys := by
  unfold Kernel.step at ok
  split at ok
  · split at ok
    · cases ok
    · rename_i made
      split at ok
      · cases ok
        exact .inr ⟨_, _, rfl, made, rfl⟩
      · cases ok
  · split at ok
    · cases ok
    · split at ok
      · exact .inl ⟨_, rfl, onCases ok⟩
      · cases ok
  · exact .inl ⟨_, rfl, onCases ok⟩

theorem kernelNumbered (h : Numbered k.sys) (room : act.allocs = true → k.sys.nextpid < 2147483647) (ok : k.step act = .ok (k', o)) :
    Numbered k'.sys := by
  rcases kernelCases ok with ⟨op, rfl, ran⟩ | ⟨_, _, _, _, same⟩
  · exact stepNumbered h (fun i fork => room (by rw [fork]; rfl)) ran
  · rwa [same]

theorem kernelParented (h : Parented k.sys) (ok : k.step act = .ok (k', o)) : Parented k'.sys := by
  rcases kernelCases ok with ⟨op, _, ran⟩ | ⟨_, _, _, _, same⟩
  · exact stepParented h ran
  · rwa [same]

theorem allocsOther (other : ∀ i, op ≠ .fork i) : ¬ Takes k (.op op) := by
  rintro ⟨allocs, _⟩
  cases op with
  | fork i => exact other i rfl
  | schedule | yield | sleep | exit | wait | forkFails | forkReturns | kill | wakeup => cases allocs

/-- Only a call that takes a slot counts. -/
theorem kernelNext (ok : k.step act = .ok (k', o)) :
    k'.sys.nextpid = if Takes k act then int32 (k.sys.nextpid + 1) else k.sys.nextpid := by
  rcases kernelCases ok with ⟨op, rfl, ran⟩ | ⟨i, _, rfl, _, same⟩
  · have moves := stepMoves ran
    generalize k'.sys = s' at moves ⊢
    cases moves with
    | goes _ next other =>
      rw [if_neg (allocsOther other), next]
    | forks i =>
      cases found : unusedSlot k.sys with
      | none =>
        rw [if_neg fun takes => takes.2 found, allocprocFull found]
      | some j =>
        obtain ⟨_, p, _, _, _, made⟩ := allocprocTakes (i := i) found
        rw [if_pos ⟨rfl, by rw [found]; exact Option.some_ne_none j⟩, made]
    | ends _ _ _ other =>
      rw [if_neg (allocsOther other)]
      rfl
  · rw [if_neg fun takes => Bool.false_ne_true takes.1, same]

/-! ### Runs -/

theorem runNumbered (h : Numbered k.sys) (few : k.sys.nextpid + acts.countP Act.allocs ≤ 2147483647) (ran : kernel.run k acts = .ok (k', os)) :
    Numbered k'.sys := by
  induction acts generalizing k os with
  | nil =>
    cases ran
    exact h
  | cons act acts ih =>
    obtain ⟨mid, o, os', here, later, _⟩ := Machine.runCons ran
    have low := h.next
    rw [List.countP_cons] at few
    have room : act.allocs = true → k.sys.nextpid < 2147483647 := fun allocs => by
      rw [if_pos allocs] at few
      omega
    have next := kernelNext here
    refine ih (kernelNumbered h room here) ?_ later
    rw [next]
    split
    · rename_i takes
      have less := room takes.1
      have count : int32 (k.sys.nextpid + 1) = k.sys.nextpid + 1 := by
        unfold int32
        exact Int.bmod_eq_of_le (by omega) (by omega)
      rw [if_pos takes.1] at few
      rw [count]
      omega
    · omega

theorem runParented (h : Parented k.sys) (ran : kernel.run k acts = .ok (k', os)) : Parented k'.sys :=
  Machine.runKeeps (P := fun k => Parented k.sys) (fun _ _ _ _ h ok => kernelParented h ok) h ran

theorem runNext (none : kernel.Passes (fun k act => ¬ Takes k act) k acts) (ran : kernel.run k acts = .ok (k', os)) :
    k'.sys.nextpid = k.sys.nextpid :=
  Machine.runPasses (P := fun l => l.sys.nextpid = k.sys.nextpid) (fun _ _ _ _ same none ok => by rw [kernelNext ok, if_neg none, same])
    rfl none ran

/-- The call of `fork` in slot `i` has slot `j` with this pid, or has come to its end. -/
def Holds (i j : Slot) (v : Int) (s : Sys) : Prop := (s.proc i).np = some j ∧ (s.proc j).pid = v ∨ (s.proc i).np = none

theorem allocprocHolds (h : Parented s) (holds : Holds i j v s) (other : l ≠ i) : Holds i j v (allocproc s l) := by
  cases found : slots.find? fun m => (s.proc m).state = .unused with
  | none => rwa [allocprocFull found]
  | some m =>
    obtain ⟨unused, p, _, _, np, made⟩ := allocprocTakes (i := l) found
    have kept : (((s.put m p).put l {(s.put m p).proc l with np := some m}).proc i).np = (s.proc i).np := by
      rw [(childSlot i).2.2, if_neg other.symm]
      by_cases here : i = m
      · rw [here, Sys.putSelf, np]
      · rw [Sys.putOther here]
    rw [made]
    rcases holds with ⟨has, pid⟩ | none
    · have away : j ≠ m := fun here => by
        have embryo := h.child i j has
        rw [here, unused] at embryo
        cases embryo
      exact .inl ⟨kept.trans has, by dsimp only; rw [childPid, if_neg away, pid]⟩
    · exact .inr (kept.trans none)

theorem stepHolds (h : Parented s) (holds : Holds i j v s) (other : op ≠ .fork i) (ok : step s op = .ok (s', o)) : Holds i j v s' := by
  cases stepMoves ok with
  | goes goes =>
    rcases holds with ⟨has, pid⟩ | none
    · exact .inl ⟨(goesNp (goes i)).trans has, (goesEmbryo (goes j) (h.child i j has)).1.pid.trans pid⟩
    · exact .inr ((goesNp (goes i)).trans none)
  | forks l => exact allocprocHolds h holds fun same => other (congrArg Op.fork same)
  | @ends _ l m p made pid np =>
    by_cases here : i = l
    · exact .inr (by rw [here, Sys.putSelf])
    · have kept : (((s.put m p).put l {(s.put m p).proc l with np := none}).proc i).np = (s.proc i).np := by
        rw [(childSlot i).2.2, if_neg here]
        by_cases here : i = m
        · rw [here, Sys.putSelf, np]
        · rw [Sys.putOther here]
      rcases holds with ⟨has, before⟩ | none
      · exact .inl ⟨kept.trans has, (endsPid pid j).trans before⟩
      · exact .inr (kept.trans none)

theorem runHolds (h : Parented k.sys) (holds : Holds i j v k.sys) (alone : .op (.fork i) ∉ acts) (ran : kernel.run k acts = .ok (k', os)) :
    Holds i j v k'.sys := by
  have all : kernel.Passes (fun _ act => act ≠ .op (.fork i)) k acts :=
    Machine.passesAll (Q := fun _ act => act ≠ Act.op (.fork i)) (fun _ mem _ same => alone (same ▸ mem)) k
  have both : Parented k'.sys ∧ Holds i j v k'.sys :=
    Machine.runPasses (P := fun k => Parented k.sys ∧ Holds i j v k.sys) (fun k act k' _ ⟨h, holds⟩ other ok => by
      refine ⟨kernelParented h ok, ?_⟩
      rcases kernelCases ok with ⟨op, rfl, ran⟩ | ⟨_, _, _, _, same⟩
      · exact stepHolds h holds (fun same => other (congrArg Act.op same)) ran
      · rwa [same]) ⟨h, holds⟩ all ran
  exact both.2

/-! ### What is announced -/

theorem Numbered.fresh (h : Numbered s) : Fresh s :=
  ⟨fun i j used _ same => h.distinct i j same (by have own := h.used i used; omega), h.below⟩

theorem announces (h : Parented k.sys) : Announces k := by
  intro acts k' os ran none i j l found took
  have next := runNext none ran
  have parented := runParented h ran
  have first : (l.sys.proc i).np = some j ∧ (l.sys.proc j).pid = getnextpid k.sys := by
    rcases kernelCases took with ⟨op, same, ran⟩ | ⟨_, _, same, _⟩
    · cases same
      have moves := stepMoves ran
      obtain ⟨_, p, _, pid, np, made⟩ := allocprocTakes (i := i) found
      generalize l.sys = s at moves ⊢
      cases moves with
      | goes _ _ other => exact absurd rfl (other i)
      | ends _ _ _ other => exact absurd rfl (other i)
      | forks =>
        rw [made]
        dsimp only
        rw [(childSlot i).2.2, if_pos rfl, childPid, if_pos rfl, pid]
        exact ⟨rfl, next⟩
    · cases same
  refine ⟨first.2, fun acts' l' os' ran' alone l'' ok => ?_⟩
  have holds := runHolds (kernelParented parented took) (.inl first) alone ran'
  rcases kernelCases ok with ⟨_, same, _⟩ | ⟨_, _, same, has, kept⟩
  · cases same
  · cases same
    rw [kept]
    rcases holds with both | none
    · exact both
    · rw [none] at has
      cases has

/-- A pid is new, and the next slot that is taken has the one that was announced. -/
theorem nextpidFresh (ran : kernel.run .boot acts = .ok (k, os)) (few : allocprocs acts < 2147483647) : Fresh k.sys ∧ Announces k := by
  unfold allocprocs at few
  have start : Kernel.boot.sys.nextpid = 2 := rfl
  have numbered := runNumbered bootNumbered (by rw [start]; omega) ran
  exact ⟨numbered.fresh, announces numbered.parented⟩

theorem nextpidFreshForked : Machine.Ends (kernel.run .boot [.op (.schedule 0), .op (.fork 0), .kalloc 0]) fun k _ =>
    (k.sys.proc 1).pid = 2 ∧ getnextpid k.sys = 3 ∧ Fresh k.sys ∧ Announces k := by
  have run : Machine.Ends (kernel.run .boot [.op (.schedule 0), .op (.fork 0), .kalloc 0]) fun k _ =>
      (k.sys.proc 1).pid = 2 ∧ getnextpid k.sys = 3 := by decide +kernel
  obtain ⟨k, os, ok, pid, next⟩ := run.run
  have both := nextpidFresh ok (by decide)
  rw [ok]
  exact ⟨pid, next, both⟩

/-- The kernel stack is missing once, and the next process has the next pid but one. -/
theorem nextpidSkips : Machine.Ends (kernel.run .boot [.op (.schedule 0)]) fun k _ => getnextpid k.sys = 2 ∧
    Machine.Ends (kernel.run k [.op (.fork 0), .op (.forkFails 0), .op (.fork 0), .kalloc 0]) (fun l _ => (l.sys.proc 1).pid = 3) ∧
    ¬ AnnouncesSuccess k := by
  have run : Machine.Ends (kernel.run .boot [.op (.schedule 0)]) fun k _ => getnextpid k.sys = 2 ∧
      Machine.Ends (kernel.run k [.op (.fork 0), .op (.forkFails 0), .op (.fork 0)]) (fun l _ =>
        Machine.Ends (kernel.run l [.kalloc 0]) fun m _ => (m.sys.proc 0).np = some 1 ∧ (m.sys.proc 1).pid = 3) ∧
      Machine.Ends (kernel.run k [.op (.fork 0), .op (.forkFails 0), .op (.fork 0), .kalloc 0]) (fun l _ => (l.sys.proc 1).pid = 3) := by
    decide +kernel
  obtain ⟨k, os, ok, next, steps, skips⟩ := run.run
  obtain ⟨l, os', ran, last⟩ := steps.run
  obtain ⟨m, os'', ran', has, pid⟩ := last.run
  obtain ⟨m', o, os, here, later, _⟩ := Machine.runCons ran'
  cases later
  rw [ok]
  refine ⟨next, skips, fun announces => ?_⟩
  have bad := announces _ l os' ran (fun i mem => by simp at mem) 0 1 m here has
  rw [pid, next] at bad
  cases bad

end OpSys.Syscalls
