import OpSys.Cow.Drain

/-! Whether a child is born alive. `fork` is cut where `allocproc` lets go of
`ptable.lock`: others find the embryo in the table before the rest is done. -/
namespace OpSys.Cow
open OpSys.Xv6 OpSys.Transition

variable {L : Layout} {s s' mid : Sys} {i j l m : Slot} {pid : Int} {r : Option Int} {copy : Copier} {K : List Int}

/-- What `allocproc` does under the lock. -/
def allocslot (s : Sys) : Option Slot × Sys :=
  match slots.find? fun i => (s.proc i).state = .unused with
  | none => (none, s)
  | some j => (some j, s.claim j s.k {s.proc j with state := .embryo, pid := s.nextpid})

/-- The rest of `fork`, slot `j` being the child's. -/
def forkRest (copy : Copier) (L : Layout) (s : Sys) (i j : Slot) : Except Stop (Sys × Option Int) :=
  match kalloc s.k with
  | (none, k) => .ok (s.put j k {s.proc j with kstack := none, state := .unused}, none)
  | (some f, k) =>
    let s := s.put j k {s.proc j with kstack := some f}
    match (s.proc i).pgdir with
    | none => .error .wild
    | some pgdir => do
      match ← copy L s.k pgdir (s.proc i).sz with
      | (k, pgdir, none) =>
        let s := s.put i k {s.proc i with pgdir := some pgdir}
        let k ← kfree L s.k f
        return (s.put j k {s.proc j with pgdir := none, kstack := none, state := .unused}, none)
      | (k, pgdir, some d) =>
        let s := s.put i k {s.proc i with pgdir := some pgdir}
        let np := {s.proc j with
          pgdir := some d
          sz := (s.proc i).sz
          parent := some i
          state := .runnable
          name := safestrcpy (s.proc i).name}
        return (s.put j s.k np, some np.pid)

theorem forkCut (copy : Copier) (L : Layout) (s : Sys) (i : Slot) : fork copy L s i = match allocslot s with
    | (none, s) => .ok (s, none)
    | (some j, s) => forkRest copy L s i j := by
  unfold fork allocproc allocslot
  cases slots.find? fun j => (s.proc j).state = .unused with
  | none => rfl
  | some j =>
    unfold forkRest Sys.claim
    dsimp only
    rw [Sys.putK]
    cases kalloc s.k with
    | mk o k =>
      cases o with
      | none => simp only [Sys.putPut, Sys.putSelf]
      | some f =>
        simp only [Sys.putPut, Sys.putSelf]
        cases ((({s with nextpid := s.nextpid + 1} : Sys).put j k _).proc i).pgdir <;> rfl

def short (L : Layout) (s : Sys) (i : Slot) : Bool :=
  match kalloc s.k with
  | (none, _) => true
  | (some _, k) => match (s.proc i).pgdir with
    | none => false
    | some pgdir => match cowuvm L k pgdir (s.proc i).sz with
      | .ok (_, _, none) => true
      | _ => false

/-! ### The machine -/

/-- `np i` is the local variable of a `fork` by process `i` that is not done. -/
structure Forking where
  sys : Sys
  np : Slot → Option Slot

inductive Act where
  | fork (i : Slot)
  | forkRest (i : Slot)
  | kill (i : Slot) (pid : Int)
  | exit (i : Slot)
  | wait (i : Slot)

/-- A process that has been killed may be in the middle of a call. -/
def Forking.enter (t : Forking) (i : Slot) (act : Except Stop (Sys × Option Int)) : Except Stop (Forking × Option Int) :=
  if (t.sys.proc i).state = .runnable ∧ t.np i = none then do
    let (s, r) ← act
    return ({t with sys := s}, r)
  else .error .idle

def Forking.step (L : Layout) (t : Forking) : Act → Except Stop (Forking × Option Int)
  | .fork i =>
    if (t.sys.proc i).state = .runnable ∧ t.np i = none then
      let (np, s) := allocslot t.sys
      .ok (⟨s, Function.update t.np i np⟩, none)
    else .error .idle
  | .forkRest i => match t.np i with
    | none => .error .idle
    | some j => do
      let (s, r) ← forkRest cowuvm L t.sys i j
      return (⟨s, Function.update t.np i none⟩, r)
  | .kill i pid => t.enter i (status (.ok (kill t.sys pid)))
  | .exit i => t.enter i do
    let s ← exit t.sys i
    return (s, none)
  | .wait i => t.enter i (wait L t.sys i)

def forking (L : Layout) : Machine Forking Act (Option Int) Stop where
  init t := boot L = .ok t.sys ∧ t.np = fun _ => none
  step := Forking.step L

/-- No slot that is unused has the pid that is killed, and no `fork` runs out of
memory after its child has been killed. -/
def Aimed (L : Layout) (t : Forking) : Act → Prop
  | .kill _ pid => ∀ j, (t.sys.proc j).pid = pid → (t.sys.proc j).state ≠ .unused
  | .forkRest i => ∀ j, t.np i = some j → (t.sys.proc j).killed = true → short L t.sys i = false
  | _ => True

structure Alive (K : List Int) (t : Forking) : Prop where
  pids : Pids t.sys
  unused : ∀ j, (t.sys.proc j).state = .unused → (t.sys.proc j).killed = false
  embryo : ∀ i j, t.np i = some j → (t.sys.proc j).state = .embryo ∧ ((t.sys.proc j).killed = true → (t.sys.proc j).pid ∈ K)
  alone : ∀ i i' j, t.np i = some j → t.np i' = some j → i = i'
  apart : ∀ i, t.np i ≠ some i


structure Alike (q p : Proc) : Prop where
  state : q.state = p.state
  pid : q.pid = p.pid
  killed : q.killed = p.killed

theorem Pids.alike (h : Pids s) (next : s'.nextpid = s.nextpid) (pid : ∀ l, (s'.proc l).pid = (s.proc l).pid)
    (used : ∀ l, (s'.proc l).state ≠ .unused → (s.proc l).state ≠ .unused) : Pids s' := by
  refine ⟨next ▸ h.positive, fun l => ?_, fun l present => ?_, fun l m equal some => ?_⟩
  · rw [pid, next]
    exact h.below l
  · rw [pid]
    exact h.used l (used l present)
  · rw [pid, pid] at equal
    exact h.differ l m equal (pid l ▸ some)

/-! ### What each part does -/

theorem allocslotCases {o : Option Slot} (ok : allocslot s = (o, s')) : o = none ∧ s' = s ∨
    ∃ j, o = some j ∧ (s.proc j).state = .unused ∧ s' = s.claim j s.k {s.proc j with state := .embryo, pid := s.nextpid} := by
  unfold allocslot at ok
  split at ok
  · cases ok
    exact .inl ⟨rfl, rfl⟩
  · rename_i j found
    cases ok
    exact .inr ⟨j, rfl, by simpa using List.find?_some found, rfl⟩

theorem forkRestCases (other : i ≠ j) (ok : forkRest cowuvm L s i j = .ok (s', r)) : s'.nextpid = s.nextpid ∧
    (∀ l, l ≠ j → Alike (s'.proc l) (s.proc l)) ∧ (s'.proc j).pid = (s.proc j).pid ∧ (s'.proc j).killed = (s.proc j).killed ∧
    (r = none ∧ (s'.proc j).state = .unused ∧ short L s i = true ∨ r = some (s.proc j).pid ∧ (s'.proc j).state = .runnable) := by
  unfold forkRest at ok
  unfold short
  split at ok
  · rename_i k taken
    cases ok
    refine ⟨rfl, fun l away => ?_, by rw [Sys.putSelf], by rw [Sys.putSelf], .inl ⟨rfl, by rw [Sys.putSelf], rfl⟩⟩
    rw [Sys.putOther away]
    exact ⟨rfl, rfl, rfl⟩
  · rename_i f k taken
    dsimp only at ok
    rw [Sys.putOther other, Sys.putK] at ok
    cases table : (s.proc i).pgdir with
    | none =>
      rw [table] at ok
      cases ok
    | some d =>
      rw [table] at ok
      dsimp only at ok ⊢
      have others : ∀ l, l ≠ j → ∀ k' k'' d' q, Alike
          ((((s.put j k {s.proc j with kstack := some f}).put i k' {s.proc i with pgdir := some d'}).put j k'' q).proc l)
          (s.proc l) := by
        intro l away k' k'' d' q
        rw [Sys.putOther away]
        by_cases caller : l = i
        · subst l
          rw [Sys.putSelf]
          exact ⟨rfl, rfl, rfl⟩
        · rw [Sys.putOther caller, Sys.putOther away]
          exact ⟨rfl, rfl, rfl⟩
      obtain ⟨⟨k', d', c⟩, copied, ok⟩ := bindOk ok
      rw [copied]
      cases c with
      | none =>
        obtain ⟨k'', freed, ok⟩ := bindOk ok
        cases ok
        refine ⟨rfl, fun l away => others l away _ _ _ _, ?_, ?_, .inl ⟨rfl, by rw [Sys.putSelf], rfl⟩⟩ <;>
          rw [Sys.putSelf, Sys.putOther other.symm, Sys.putSelf]
      | some c =>
        cases ok
        refine ⟨rfl, fun l away => others l away _ _ _ _, ?_, ?_, .inr ⟨?_, by rw [Sys.putSelf]⟩⟩
        · rw [Sys.putSelf, Sys.putOther other.symm, Sys.putSelf]
        · rw [Sys.putSelf, Sys.putOther other.symm, Sys.putSelf]
        · rw [Sys.putOther other.symm, Sys.putSelf]

theorem exitAlike (ok : exit s i = .ok s') : s'.nextpid = s.nextpid ∧
    (∀ l, (s'.proc l).pid = (s.proc l).pid ∧ (s'.proc l).killed = (s.proc l).killed) ∧
    (s'.proc i).state = .zombie ∧ ∀ l, l ≠ i → (s'.proc l).state = (s.proc l).state := by
  unfold exit at ok
  split at ok
  · cases ok
  cases ok
  refine ⟨rfl, fun l => ?_, ?_, fun l away => ?_⟩
  · dsimp only
    split <;> split <;> exact ⟨rfl, rfl⟩
  · dsimp only
    rw [if_pos rfl]
  · dsimp only
    rw [if_neg away]
    split <;> rfl

theorem killCases (s : Sys) (pid : Int) : kill s pid = (s, false) ∧ (∀ j, (s.proc j).pid ≠ pid) ∨
    ∃ j, (s.proc j).pid = pid ∧ kill s pid = (s.put j s.k {s.proc j with
      killed := true
      state := if (s.proc j).state = .sleeping then .runnable else (s.proc j).state}, true) := by
  unfold kill
  cases found : slots.find? fun j => (s.proc j).pid = pid with
  | none => exact .inl ⟨rfl, fun j same => absurd same (by simpa using List.find?_eq_none.mp found j (List.mem_finRange j))⟩
  | some j => exact .inr ⟨j, by simpa using List.find?_some found, rfl⟩

/-! ### Runs -/

variable {t t' : Forking} {act : Act} {acts : List Act} {rs : List (Option Int)}

def called : Act → List Int
  | .kill _ pid => [pid]
  | _ => []

theorem enterCases {body : Except Stop (Sys × Option Int)} (ok : t.enter i body = .ok (t', r)) :
    (t.sys.proc i).state = .runnable ∧ t.np i = none ∧ body = .ok (t'.sys, r) ∧ t'.np = t.np := by
  unfold Forking.enter at ok
  split at ok
  · rename_i free
    obtain ⟨⟨mid, r'⟩, ran, last⟩ := bindOk ok
    cases last
    exact ⟨free.1, free.2, ran, rfl⟩
  · cases ok

theorem Alive.kept (h : Alive K t) (np : t'.np = t.np) (pids : Pids t'.sys)
    (unused : ∀ l, (t'.sys.proc l).state = .unused → (t'.sys.proc l).killed = false)
    (embryo : ∀ l, (t.sys.proc l).state = .embryo → Alike (t'.sys.proc l) (t.sys.proc l)) : Alive K t' := by
  refine ⟨pids, unused, fun i j made => ?_, fun i i' j made made' => h.alone i i' j (np ▸ made) (np ▸ made'),
    np ▸ h.apart⟩
  obtain ⟨state, mark⟩ := h.embryo i j (np ▸ made)
  obtain ⟨same, pid, killed⟩ := embryo j state
  rw [same, pid, killed]
  exact ⟨state, mark⟩

theorem Alive.more (h : Alive K t) : Alive (pid :: K) t :=
  ⟨h.pids, h.unused, fun i j made => (h.embryo i j made).imp id fun mark killed => List.mem_cons_of_mem pid (mark killed),
    h.alone, h.apart⟩

theorem forkAlive (h : Alive K t) (ok : t.step L (.fork i) = .ok (t', r)) : Alive K t' := by
  unfold Forking.step at ok
  dsimp only at ok
  split at ok
  · rename_i free
    cases result : allocslot t.sys with
    | mk o s =>
    rw [result] at ok
    cases ok
    rcases allocslotCases result with ⟨rfl, rfl⟩ | ⟨j, rfl, unused, rfl⟩
    · rw [← free.2, Function.update_eq_self]
      exact h
    · have fresh : ∀ l, t.np l ≠ some j := fun l made => by cases unused.symm.trans (h.embryo l j made).1
      refine ⟨h.pids.claim rfl, fun l state => ?_, fun l m made => ?_, fun l l' m made made' => ?_, fun l made => ?_⟩
      · dsimp only at state ⊢
        by_cases same : l = j
        · subst l
          rw [claimSelf] at state
          cases state
        · rw [claimOther same] at state ⊢
          exact h.unused l state
      · dsimp only at made ⊢
        by_cases mine : l = i
        · subst l
          rw [Function.update_self] at made
          cases made
          rw [claimSelf]
          exact ⟨rfl, fun killed => by cases killed.symm.trans (h.unused j unused)⟩
        · rw [Function.update_of_ne mine] at made
          have other : m ≠ j := by
            rintro rfl
            exact fresh l made
          rw [claimOther other]
          exact h.embryo l m made
      · dsimp only at made made'
        by_cases mine : l = i <;> by_cases mine' : l' = i
        · rw [mine, mine']
        · rw [mine, Function.update_self] at made
          rw [Function.update_of_ne mine'] at made'
          cases made
          exact absurd made' (fresh l')
        · rw [mine', Function.update_self] at made'
          rw [Function.update_of_ne mine] at made
          cases made'
          exact absurd made (fresh l)
        · rw [Function.update_of_ne mine] at made
          rw [Function.update_of_ne mine'] at made'
          exact h.alone l l' m made made'
      · dsimp only at made
        by_cases mine : l = i
        · rw [mine, Function.update_self] at made
          cases made
          cases free.1.symm.trans unused
        · rw [Function.update_of_ne mine] at made
          exact h.apart l made
  · cases ok

theorem restCases (h : Alive K t) (ok : t.step L (.forkRest i) = .ok (t', r)) : ∃ j, t.np i = some j ∧
    t'.np = Function.update t.np i none ∧ t'.sys.nextpid = t.sys.nextpid ∧
    (∀ l, l ≠ j → Alike (t'.sys.proc l) (t.sys.proc l)) ∧ (t'.sys.proc j).pid = (t.sys.proc j).pid ∧
    (t'.sys.proc j).killed = (t.sys.proc j).killed ∧
    (r = none ∧ (t'.sys.proc j).state = .unused ∧ short L t.sys i = true ∨
      r = some (t.sys.proc j).pid ∧ (t'.sys.proc j).state = .runnable) := by
  unfold Forking.step at ok
  dsimp only at ok
  split at ok
  · cases ok
  · rename_i j made
    obtain ⟨⟨s, r'⟩, ran, last⟩ := bindOk ok
    cases last
    have other : i ≠ j := fun same => h.apart i (made.trans (congrArg some same.symm))
    exact ⟨j, made, rfl, forkRestCases other ran⟩

theorem restAlive (h : Alive K t) (aimed : Aimed L t (.forkRest i)) (ok : t.step L (.forkRest i) = .ok (t', r)) :
    Alive K t' := by
  obtain ⟨j, made, np, next, others, pid, killed, ends⟩ := restCases h ok
  have left : ∀ l m, t'.np l = some m → t.np l = some m ∧ m ≠ j := by
    intro l m made'
    rw [np] at made'
    by_cases mine : l = i
    · rw [mine, Function.update_self] at made'
      cases made'
    · rw [Function.update_of_ne mine] at made'
      exact ⟨made', fun same => mine (h.alone l i j (same ▸ made') made)⟩
  refine ⟨h.pids.alike next (fun l => ?_) fun l used => ?_, fun l state => ?_, fun l m made' => ?_, fun l l' m made' made'' => ?_,
    fun l made' => h.apart l (left l l made').1⟩
  · by_cases same : l = j
    · rw [same, pid]
    · exact (others l same).pid
  · by_cases same : l = j
    · rw [same, (h.embryo i j made).1]
      decide
    · rwa [← (others l same).state]
  · by_cases same : l = j
    · rw [same] at state ⊢
      rw [killed]
      rcases ends with ⟨_, _, few⟩ | ⟨_, runs⟩
      · by_contra mark
        cases few.symm.trans (aimed j made (by simpa using mark))
      · cases runs.symm.trans state
    · rw [(others l same).state] at state
      rw [(others l same).killed]
      exact h.unused l state
  · obtain ⟨before, away⟩ := left l m made'
    rw [(others m away).state, (others m away).pid, (others m away).killed]
    exact h.embryo l m before
  · exact h.alone l l' m (left l m made').1 (left l' m made'').1

theorem killAlive (h : Alive K t) (aimed : Aimed L t (.kill i pid)) (ok : t.step L (.kill i pid) = .ok (t', r)) :
    Alive (pid :: K) t' := by
  obtain ⟨_, _, ran, np⟩ := enterCases ok
  obtain ⟨b, ran⟩ := statusCases ran
  have after : t'.sys = (kill t.sys pid).1 := (congrArg Prod.fst (Except.ok.inj ran)).symm
  rcases killCases t.sys pid with ⟨result, _⟩ | ⟨j, here, result⟩ <;> rw [result] at after <;> dsimp only at after
  · exact h.more.kept np (after ▸ h.pids) (after ▸ h.unused) fun l _ => by rw [after]; exact ⟨rfl, rfl, rfl⟩
  · have used := aimed j here
    have away : ∀ l, l ≠ j → t'.sys.proc l = t.sys.proc l := fun l other => by rw [after, Sys.putOther other]
    have state : (t'.sys.proc j).state ≠ .unused := by
      rw [after, Sys.putSelf]
      dsimp only
      split
      · decide
      · exact used
    have pids : Pids t'.sys := by
      refine h.pids.alike (by rw [after, Sys.putNextpid]) (fun l => ?_) fun l present => ?_
      · by_cases same : l = j
        · rw [same, after, Sys.putSelf]
        · rw [away l same]
      · by_cases same : l = j
        · rw [same]
          exact used
        · rwa [← away l same]
    refine ⟨pids, fun l unused => ?_, fun l m made => ?_, np ▸ h.alone, np ▸ h.apart⟩
    · have other : l ≠ j := by
        rintro rfl
        exact state unused
      rw [away l other] at unused ⊢
      exact h.unused l unused
    · obtain ⟨embryo, mark⟩ := h.embryo l m (np ▸ made)
      by_cases same : m = j
      · subst m
        rw [after, Sys.putSelf]
        refine ⟨?_, fun _ => List.mem_cons.mpr (.inl here)⟩
        dsimp only
        rw [embryo]
        rfl
      · rw [away m same]
        exact ⟨embryo, fun killed => List.mem_cons_of_mem pid (mark killed)⟩

theorem exitAlive (h : Alive K t) (ok : t.step L (.exit i) = .ok (t', r)) : Alive K t' := by
  obtain ⟨runs, _, ran, np⟩ := enterCases ok
  obtain ⟨mid, left, last⟩ := bindOk ran
  cases last
  obtain ⟨next, same, zombie, others⟩ := exitAlike left
  have state : ∀ l, (t'.sys.proc l).state = .unused ↔ (t.sys.proc l).state = .unused := by
    intro l
    by_cases me : l = i
    · rw [me, zombie, runs]
      decide
    · rw [others l me]
  refine h.kept np (h.pids.alike next (fun l => (same l).1) fun l used => mt (state l).mpr used) (fun l unused => ?_) fun l embryo => ?_
  · rw [(same l).2]
    exact h.unused l ((state l).mp unused)
  · refine ⟨others l ?_, (same l).1, (same l).2⟩
    rintro rfl
    cases runs.symm.trans embryo

theorem waitAlive (h : Alive K t) (ok : t.step L (.wait i) = .ok (t', r)) : Alive K t' := by
  obtain ⟨_, _, ran, np⟩ := enterCases ok
  rcases waitCases ran with ⟨same, _⟩ | ⟨j, k₁, k', zombie, _, _, _, after, _⟩
  · exact h.kept np (same ▸ h.pids) (same ▸ h.unused) fun l _ => by rw [same]; exact ⟨rfl, rfl, rfl⟩
  · refine h.kept np ?_ (fun l unused => ?_) fun l embryo => ?_
    · rw [after]
      exact h.pids.put (.inr ⟨rfl, rfl⟩) fun bad => absurd rfl bad
    · rw [after] at unused ⊢
      by_cases same : l = j
      · rw [same, Sys.putSelf]
        rfl
      · rw [Sys.putOther same] at unused ⊢
        exact h.unused l unused
    · rw [after, Sys.putOther]
      · exact ⟨rfl, rfl, rfl⟩
      · rintro rfl
        cases zombie.symm.trans embryo

theorem aliveStep (h : Alive K t) (aimed : Aimed L t act) (ok : t.step L act = .ok (t', r)) : Alive (called act ++ K) t' := by
  cases act with
  | fork i => exact forkAlive h ok
  | forkRest i => exact restAlive h aimed ok
  | kill i pid => exact killAlive h aimed ok
  | exit i => exact exitAlive h ok
  | wait i => exact waitAlive h ok

theorem aliveRun (h : Alive K t) (passes : (forking L).Passes (Aimed L) t acts) (ran : (forking L).run t acts = .ok (t', rs)) :
    ∃ K', Alive K' t' ∧ ∀ pid ∈ K', pid ∈ K ∨ ∃ act ∈ acts, pid ∈ called act := by
  induction acts generalizing t rs K with
  | nil =>
    cases ran
    exact ⟨K, h, fun pid mem => .inl mem⟩
  | cons act rest ih =>
    obtain ⟨mid, o, os, here, later, _⟩ := Machine.runCons ran
    obtain ⟨K', alive, from'⟩ := ih (aliveStep h passes.1 here) (passes.2 mid o here) later
    refine ⟨K', alive, fun pid mem => ?_⟩
    rcases from' pid mem with before | ⟨act', mem', calls⟩
    · rcases List.mem_append.mp before with now | old
      · exact .inr ⟨act, List.mem_cons_self, now⟩
      · exact .inl old
    · exact .inr ⟨act', List.mem_cons_of_mem act mem', calls⟩

theorem bootAlive (first : (forking L).init t) : Alive [] t := by
  obtain ⟨ok, np⟩ := first
  refine ⟨(bootInv ok).pids, fun l unused => ?_, fun i j made => ?_, fun i i' j made => ?_, fun i made => ?_⟩
  · obtain ⟨k, k₁, stack, kpgdir, k₂, k₃, bootstacks, start, taken, table, others, init⟩ := bootCases ok
    obtain ⟨m, s₁, k₄, c, f, k₅, k₆, alloc, _, _, _, _, _, _, after⟩ :=
      userinitCases (startInv (startAccounts start taken table others)) init
    rw [after] at unused ⊢
    dsimp only at unused ⊢
    by_cases same : l = m
    · rw [same, Sys.putSelf] at unused
      cases unused
    · rw [Sys.putOther same]
      rcases allocprocCases alloc with ⟨bad, _⟩ | ⟨n, k, _, ⟨_, bad, _⟩ | ⟨g, _, this, rfl⟩⟩
      · cases bad
      · cases bad
      · cases this
        rw [claimOther same]
        rfl
  all_goals
    rw [np] at made
    cases made

/-- A child is not killed when `fork` makes it runnable, unless by its own pid, and
`kill` reports success for a process alone exactly when no unused slot has the pid. -/
theorem bornAlive {first : Forking} (start : (forking L).init first) (passes : (forking L).Passes (Aimed L) first acts)
    (ran : (forking L).run first acts = .ok (t, rs)) :
    (∀ i t' pid, t.step L (.forkRest i) = .ok (t', some pid) → ∃ j, t.np i = some j ∧ (t'.sys.proc j).state = .runnable ∧
      (t'.sys.proc j).pid = pid ∧ ((t'.sys.proc j).killed = true → ∃ i', Act.kill i' pid ∈ acts)) ∧
    ∀ pid, ((kill t.sys pid).2 = true → ∃ j, (t.sys.proc j).state ≠ .unused ∧ (t.sys.proc j).pid = pid) ↔
      ∀ j, (t.sys.proc j).pid = pid → (t.sys.proc j).state ≠ .unused := by
  obtain ⟨K, alive, calls⟩ := aliveRun (bootAlive start) passes ran
  refine ⟨fun i t' pid ok => ?_, fun pid => ⟨fun finds j here unused => ?_, fun used kills => ?_⟩⟩
  · obtain ⟨j, made, _, _, _, samePid, same, ⟨bad, _⟩ | ⟨value, runs⟩⟩ := restCases alive ok
    · cases bad
    · cases value
      refine ⟨j, made, runs, samePid, fun killed => ?_⟩
      rcases calls _ ((alive.embryo i j made).2 (same ▸ killed)) with bad | ⟨act, mem, this⟩
      · cases bad
      · cases act with
        | kill i' pid' =>
          rw [List.mem_singleton.mp this]
          exact ⟨i', mem⟩
        | fork | forkRest | exit | wait => cases this
  · rcases killCases t.sys pid with ⟨_, nobody⟩ | ⟨l, _, result⟩
    · exact nobody j here
    · obtain ⟨m, used, there⟩ := finds (by rw [result])
      have same := alive.pids.differ m j (there.trans here.symm) (alive.pids.used m used)
      exact used (same ▸ unused)
  · rcases killCases t.sys pid with ⟨result, _⟩ | ⟨l, here, _⟩
    · rw [result] at kills
      cases kills
    · exact ⟨l, used l here, here⟩

/-! ### A process that kills pid 0 and forks -/

theorem forkParts (inv : Inv L s) (ready : Ready s i) (unused : ∃ j, (s.proc j).state = .unused)
    (room : 14 ≤ s.k.freelist.length) : ∃ j s₁ s' pid, allocslot s = (some j, s₁) ∧ forkRest cowuvm L s₁ i j = .ok (s', some pid) := by
  obtain ⟨s', _, pid, forks, _⟩ := forkRuns inv ready unused room
  obtain ⟨_, call⟩ := actingCases forks
  unfold userStep at call
  rcases syscallCases call with ⟨_, _, bad⟩ | ⟨_, mid, r, ran, ⟨_, _, bad⟩ | ⟨_, _, value⟩⟩
  · cases bad
  · cases bad
  · cases value
    rw [forkCut] at ran
    cases result : allocslot s with
    | mk o s₁ =>
    rw [result] at ran
    cases o with
    | none => cases ran
    | some j => exact ⟨j, s₁, mid, pid, rfl, ran⟩

theorem claimRuns {o : Option Slot} (runs : (s.proc i).state = .runnable) (slot : allocslot s = (o, s')) :
    Forking.step L ⟨s, fun _ => none⟩ (.fork i) = .ok (⟨s', Function.update (fun _ => none) i o⟩, none) := by
  unfold Forking.step
  dsimp only
  rw [if_pos ⟨runs, rfl⟩, slot]

theorem restRuns {np : Slot → Option Slot} (made : np i = some j) (ok : forkRest cowuvm L s i j = .ok (s', r)) :
    Forking.step L ⟨s, np⟩ (.forkRest i) = .ok (⟨s', Function.update np i none⟩, r) := by
  unfold Forking.step
  dsimp only
  rw [made]
  dsimp only
  rw [ok, okBind]
  rfl

theorem bornAliveBoot : ∃ s i, boot Layout.sample = .ok s ∧ ∃ t t' : Forking, ∃ j pid,
    (forking Layout.sample).run ⟨s, fun _ => none⟩ [.fork i] = .ok (t, [none]) ∧ t.step Layout.sample (.forkRest i) = .ok (t', some pid) ∧
    t.np i = some j ∧ (t'.sys.proc j).state = .runnable ∧ (t'.sys.proc j).killed = false := by
  obtain ⟨s, booted⟩ := sampleBoots
  have free := sampleFree booted
  obtain ⟨j, s₁, s', pid, slot, rest⟩ := forkParts (reachInv cowCopies booted.reach) booted.ready
    booted.slot (by omega)
  have one := claimRuns (L := Layout.sample) booted.ready.runs slot
  have made : Function.update (fun _ : Slot => (none : Option Slot)) s.initproc (some j) s.initproc = some j :=
    Function.update_self _ _ _
  have two := restRuns made rest
  have ran : (forking Layout.sample).run ⟨s, fun _ => none⟩ [.fork s.initproc] = .ok (_, [none]) := Machine.runStep one rfl
  have passes : (forking Layout.sample).Passes (Aimed Layout.sample) ⟨s, fun _ => none⟩ [.fork s.initproc] :=
    ⟨trivial, fun _ _ _ => trivial⟩
  obtain ⟨j', made', runs, _, alive⟩ := (bornAlive ⟨booted.ran, rfl⟩ passes ran).1 s.initproc _ pid two
  refine ⟨s, s.initproc, booted.ran, _, _, j', pid, ran, two, made', runs, ?_⟩
  by_contra killed
  obtain ⟨i', bad⟩ := alive (by simpa using killed)
  cases List.mem_singleton.mp bad

/-- Slot `j` is the first unused one, and `s'` is what `kill(0)` leaves. -/
structure Marked (s s' : Sys) (j : Slot) : Prop where
  found : slots.find? (fun l => (s.proc l).pid = 0) = some j
  unused : (s.proc j).state = .unused
  kills : kill s 0 = (s', true)
  put : s' = s.put j s.k {s.proc j with killed := true}

theorem Booted.bss (h : Booted L s) (l : Slot) : (s.proc l).pid = 0 ↔ (s.proc l).state = .unused := by
  obtain ⟨f, d, first, _⟩ := h.first
  by_cases same : l = s.initproc
  · rw [same, first]
    simp
  · rw [h.others l same]
    exact iff_of_true rfl rfl

theorem Booted.marked (h : Booted L s) : ∃ s' j, Marked s s' j := by
  obtain ⟨l, free⟩ := h.slot
  cases found : slots.find? fun l => (s.proc l).pid = 0 with
  | none =>
    have := List.find?_eq_none.mp found l (List.mem_finRange l)
    exact absurd ((h.bss l).mpr free) (by simpa using this)
  | some j =>
    have unused : (s.proc j).state = .unused := (h.bss j).mp (by simpa using List.find?_some found)
    refine ⟨_, j, found, unused, ?_, rfl⟩
    unfold kill
    rw [found]
    dsimp only
    rw [unused, if_neg (by decide)]

theorem Marked.other (h : Marked s s' j) (runs : (s.proc i).state = .runnable) : i ≠ j := by
  rintro rfl
  cases h.unused.symm.trans runs

theorem Marked.states (h : Marked s s' j) (l : Slot) : (s'.proc l).state = (s.proc l).state := by
  rw [h.put]
  by_cases same : l = j
  · rw [same, Sys.putSelf]
  · rw [Sys.putOther same]

/-- The first slot with pid 0 is the first unused one. -/
theorem Marked.slot {l : Slot} (h : Marked s s' j) (bss : ∀ l, (s.proc l).pid = 0 ↔ (s.proc l).state = .unused)
    (slot : allocslot s' = (some l, s₂)) : l = j := by
  have found := h.found
  unfold allocslot at slot
  simp only [h.states, ← bss] at slot
  rw [found] at slot
  cases slot
  rfl

/-- After the boot `kill(0)` finds a slot that was never used, and the next child
is in it. -/
theorem childBornKilled : ∃ first t t' : Forking, ∃ i j pid rs, (forking Layout.sample).init first ∧
    (kill first.sys 0).2 = true ∧ (∀ j, (first.sys.proc j).pid = 0 → (first.sys.proc j).state = .unused) ∧
    (forking Layout.sample).run first [.kill i 0, .fork i] = .ok (t, rs) ∧
    t.step Layout.sample (.forkRest i) = .ok (t', some pid) ∧ t.np i = some j ∧ (t'.sys.proc j).state = .runnable ∧
    pid ≠ 0 ∧ (t'.sys.proc j).killed = true := by
  obtain ⟨s, booted⟩ := sampleBoots
  have free := sampleFree booted
  have inv := reachInv cowCopies booted.reach
  obtain ⟨runs, spared, full⟩ := booted.ready
  obtain ⟨s₁, j, marked⟩ := booted.marked
  have other := marked.other runs
  have caller : s₁.proc s.initproc = s.proc s.initproc := by rw [marked.put, Sys.putOther other]
  have mark : (s₁.proc j).killed = true := by rw [marked.put, Sys.putSelf]
  have next : 0 < s₁.nextpid := by
    rw [marked.put]
    exact inv.pids.positive
  have inv₁ := killInv inv 0
  rw [marked.kills] at inv₁
  obtain ⟨l, s₂, s', pid, slot, rest⟩ := forkParts inv₁ ⟨by rwa [caller], by rwa [caller], by rwa [caller]⟩
    ⟨j, by rw [marked.states, marked.unused]⟩ (by rw [marked.put, Sys.putK]; omega)
  obtain rfl := marked.slot booted.bss slot
  rcases allocslotCases slot with ⟨bad, _⟩ | ⟨m, this, _, after⟩
  · cases bad
  cases this
  obtain ⟨_, _, _, keeps, ⟨bad, _⟩ | ⟨value, born⟩⟩ := forkRestCases other rest
  · cases bad
  rw [after, claimSelf] at value keeps
  cases value
  have zero : (Forking.step Layout.sample ⟨s, fun _ => none⟩ (.kill s.initproc 0)) = .ok (⟨s₁, fun _ => none⟩, some 0) := by
    unfold Forking.step Forking.enter
    dsimp only
    rw [if_pos ⟨runs, rfl⟩, marked.kills]
    rfl
  have one := claimRuns (L := Layout.sample) (by rwa [caller]) slot
  have made : Function.update (fun _ : Slot => (none : Option Slot)) s.initproc (some l) s.initproc = some l :=
    Function.update_self _ _ _
  have two := restRuns made rest
  refine ⟨⟨s, fun _ => none⟩, _, _, s.initproc, l, s₁.nextpid, _, ⟨booted.ran, rfl⟩, by rw [marked.kills], fun l => (booted.bss l).mp,
    Machine.runStep zero (Machine.runStep one rfl), two, made, born, next.ne', keeps.trans mark⟩

end OpSys.Cow
