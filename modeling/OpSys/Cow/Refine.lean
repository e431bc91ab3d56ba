import OpSys.Cow.Isolation
import OpSys.Cow.World

/-! Both ways to fork refine the processes with memories of their own, as long as
memory lasts. So a program cannot tell them apart. -/
namespace OpSys.Cow
open OpSys.Xv6 OpSys.Transition Finset

variable {L : Layout} {s s' mid : Sys} {i j : Slot} {p q : Proc} {d d' : Pgdir} {k k' : Kmem} {v a : Nat} {w : World}

theorem taskSame (state : q.state = p.state) (pid : q.pid = p.pid) (parent : q.parent = p.parent) (sz : q.sz = p.sz)
    (memory : alive p.state = true → ∀ v, (q.pgdir.bind fun d => view k' d v) = p.pgdir.bind fun d => view k d v) :
    q.task k' = p.task k := by
  unfold Proc.task
  rw [state, pid, parent, sz]
  congr 1
  funext v
  split
  · rename_i live
    exact memory live v
  · rfl

theorem taskOf (live : alive p.state = true) (table : p.pgdir = some d) :
    p.task k = ⟨p.state, p.pid, p.parent, p.sz, view k d⟩ := by
  unfold Proc.task
  rw [table, live]
  rfl

theorem taskDead (dead : alive p.state = false) : p.task k = ⟨p.state, p.pid, p.parent, p.sz, fun _ => none⟩ := by
  unfold Proc.task
  rw [dead]
  rfl

theorem erasePut (others : ∀ j, j ≠ i → (s.proc j).task k' = (s.proc j).task s.k) :
    (s.put i k' p).erase = s.erase.put i (p.task k') := by
  unfold Sys.erase World.put
  congr 1
  funext j
  by_cases same : j = i
  · subst j
    rw [Sys.putSelf, Function.update_self]
    rfl
  · rw [Sys.putOther same, Function.update_of_ne same]
    exact others j same

theorem Inv.othersTask {A B M N : Multiset Nat} (inv : Inv L s)
    (moves : Moves L s.k ((s.proc i).owned + A) ((s.proc i).shared + B) k' M N)
    (free : A = 0 ∧ B = 0) : ∀ j, j ≠ i → (s.proc j).task k' = (s.proc j).task s.k := by
  intro j other
  obtain ⟨rfl, rfl⟩ := free
  obtain ⟨lost, holds, _⟩ := inv.accounts
  refine taskSame rfl rfl rfl rfl fun live v => ?_
  obtain ⟨d, run⟩ := (inv.sound j).runs live
  rw [run.pgdir, Option.bind_some, Option.bind_some]
  refine congrFun (viewKept run.good fun f held => ?_) v
  have start : Holds L s (0 + lost) (0 + 0) := by rwa [zero_add, zero_add]
  refine start.others moves other ?_
  rw [(heldAlive (.inl live) run.pgdir).1, (heldAlive (.inl live) run.pgdir).2, Multiset.mem_add]
  exact held.imp_left .inr

def Spared (s : Sys) : Prop := ∀ j, (s.proc j).state ≠ .zombie → (s.proc j).killed = false

theorem Spared.put (h : Spared s) (killed : p.state ≠ .zombie → p.killed = false) : Spared (s.put i k p) := by
  intro j state
  by_cases same : j = i
  · subst j
    rw [Sys.putSelf] at state ⊢
    exact killed state
  · rw [Sys.putOther same] at state ⊢
    exact h j state

/-- `w` is all that the processes of `s` can see. -/
structure Shows (s : Sys) (w : World) : Prop where
  spared : Spared s
  same : s.erase = w

/-! ### `exit` and faults -/

theorem exitErase (ok : exit s i = .ok s') : s.erase.exit i = .ok s'.erase := by
  unfold exit at ok
  split at ok
  · cases ok
  rename_i other
  cases ok
  have away : ¬ i = s.erase.initproc := other
  unfold World.exit
  rw [if_neg away]
  congr 2
  funext j
  dsimp only [Sys.erase]
  by_cases same : j = i
  · subst j
    by_cases orphan : (s.proc i).parent = some i <;> simp [Proc.task, orphan, alive]
  · by_cases orphan : (s.proc j).parent = some i <;> simp [Proc.task, orphan, same]

theorem exitStops {e : Stop} (err : exit s i = .error e) : s.erase.exit i = .error () := by
  unfold exit at err
  split at err
  · rename_i first
    unfold World.exit
    exact if_pos first
  · cases err

theorem exitSpared (h : ∀ j, j ≠ i → (s.proc j).state ≠ .zombie → (s.proc j).killed = false) (ok : exit s i = .ok s') :
    Spared s' := by
  unfold exit at ok
  split at ok
  · cases ok
  cases ok
  intro j state
  dsimp only at state ⊢
  by_cases same : j = i
  · rw [if_pos same] at state
    exact absurd rfl state
  · rw [if_neg same] at state ⊢
    split at state <;> rename_i orphan
    · rw [if_pos orphan]
      exact h j same state
    · rw [if_neg orphan]
      exact h j same state

theorem eraseSame (others : ∀ j, j ≠ i → (s.proc j).task k' = (s.proc j).task s.k)
    (task : p.task k' = (s.proc i).task s.k) : (s.put i k' p).erase = s.erase := by
  rw [erasePut others, task]
  unfold World.put
  have here : s.erase.task i = (s.proc i).task s.k := rfl
  rw [← here, Function.update_eq_self]

theorem faultHandler (pids : Pids s) (runs : (s.proc i).state = .runnable) (run : Runs (s.proc i) d)
    (off : userOn (d.pte (a / pgSize)) = false) :
    cowHandler s i a = if pdx (a / pgSize) ∉ kernelEntries ∧ on (d.pte 0) pteP = false then .error .hang
      else .ok (s.put i s.k {s.proc i with killed := true}) := by
  have table := run.good.tables (pdx (a / pgSize))
  by_cases absent : d.pde (pdx (a / pgSize)) = none
  · have out : pdx (a / pgSize) ∉ kernelEntries := fun mem => table.mpr mem absent
    rw [handlerAbsent run.pgdir absent, (pids.current runs).kill]
    cases on (d.pte 0) pteP <;> simp [out]
  · rw [handlerFinds run.pgdir absent, (pids.current runs).kill, if_pos ((refusedIff run.good.toSane).mpr off),
      if_neg fun out => out.1 (table.mp absent)]

theorem presentView (sane : d.Sane) : (view k d 0).isNone = !on (d.pte 0) pteP := by
  cases present : on (d.pte 0) pteP with
  | true => rw [viewSome (by decide) (sane.userOn (by decide) present)]; rfl
  | false => rw [viewNone (notUser present)]; rfl

theorem accessFault (write : Bool) (inv : Inv L s) (spared : Spared s) (runs : (s.proc i).state = .runnable)
    (run : Runs (s.proc i) d) (off : userOn (d.pte (a / pgSize)) = false) :
    (∃ s', userAccess s i a write = .ok (s', none) ∧ s.erase.fault i (a / pgSize) = .ok s'.erase ∧ Spared s') ∨
    (∃ e, userAccess s i a write = .error e) ∧ s.erase.fault i (a / pgSize) = .error () := by
  have none : access (s.proc i) a write = none := by
    rw [accessRun run, off]
    rfl
  have memory : ((s.erase.task i).memory 0).isNone = !on (d.pte 0) pteP := by
    have task : s.erase.task i = _ := taskOf (by rw [runs]; rfl) run.pgdir
    rw [task]
    exact presentView run.good.toSane
  unfold userAccess trapFault World.fault
  rw [none, faultHandler inv.pids runs run off, memory]
  by_cases hang : pdx (a / pgSize) ∉ kernelEntries ∧ on (d.pte 0) pteP = false
  · rw [if_pos hang, if_pos (by simpa using hang)]
    exact .inr ⟨⟨_, rfl⟩, rfl⟩
  · rw [if_neg hang, if_neg (by simpa using hang)]
    have same : (s.put i s.k {s.proc i with killed := true}).erase = s.erase := eraseSame (fun _ _ => rfl) rfl
    dsimp only
    rw [okBind, Sys.putSelf, if_pos rfl, ← same]
    cases left : exit (s.put i s.k {s.proc i with killed := true}) i with
    | error e => exact .inr ⟨⟨e, rfl⟩, exitStops left⟩
    | ok s' =>
      refine .inl ⟨s', ?_, exitErase left, exitSpared (fun j other => ?_) left⟩
      · rw [okBind, if_pos (exitZombie left)]
        rfl
      · rw [Sys.putOther other]
        exact spared j

theorem loadMatched (inv : Inv L s) (spared : Spared s) (runs : (s.proc i).state = .runnable) :
    Machine.Matched Shows (do let (s, b) ← load s i a; return (s, match b with
      | some b => Out.byte b
      | none => .exited) : Except Stop (Sys × Out)) (s.erase.load i a) := by
  have live : alive (s.proc i).state = true := by rw [runs]; rfl
  obtain ⟨d, run⟩ := (inv.sound i).runs live
  have task : s.erase.task i = ⟨_, _, _, _, view s.k d⟩ := taskOf live run.pgdir
  unfold load World.load
  rw [task]
  cases user : userOn (d.pte (a / pgSize)) with
  | true =>
    have here : access (s.proc i) a false = some (pageOf (d.pte (a / pgSize))) := by
      rw [accessRun run, user]
      rfl
    unfold userAccess
    rw [here, okBind]
    dsimp only
    rw [viewSome (userLow run.good.toSane user) user]
    exact .next ⟨spared, rfl⟩
  | false =>
    dsimp only
    rw [viewNone user]
    rcases accessFault false inv spared runs run user with ⟨s', ran, fault, spared'⟩ | ⟨⟨e, ran⟩, fault⟩
    · rw [ran, fault, okBind]
      exact .next ⟨spared', rfl⟩
    · rw [ran, fault]
      exact .stop

/-! ### Stores -/

theorem pokeView {K U : Multiset Nat} {o : Nat} {b : UInt8} (good : d.Ok) (before : Accounts L k (d.owned + K) (d.shared + U))
    (user : userOn (d.pte v) = true) (writable : on (d.pte v) pteW = true) : view (k.poke (pageOf (d.pte v)) o b) d =
      Function.update (view k d) v (some (Function.update (k.mem (pageOf (d.pte v))) o b)) := by
  funext u
  unfold Kmem.poke Kmem.write
  by_cases same : u = v
  · subst u
    rw [viewSome (userLow good.toSane user) user, Function.update_self]
    dsimp only
    rw [Function.update_self]
  · rw [Function.update_of_ne same]
    unfold view
    split
    · rename_i shown
      dsimp only
      rw [Function.update_of_ne (writableApart good before same shown.2 user writable)]
    · rfl

theorem writeErase {o : Nat} {b : UInt8} (inv : Inv L s) (runs : (s.proc i).state = .runnable) (run : Runs (s.proc i) d)
    (moves : Moves L s.k d.owned d.shared k' d'.owned d'.shared) (good : d'.Ok) (seen : view k' d' = view s.k d)
    (user : userOn (d'.pte v) = true) (writable : on (d'.pte v) pteW = true) :
    (s.put i (k'.poke (pageOf (d'.pte v)) o b) {s.proc i with pgdir := some d'}).erase = s.erase.put i {s.erase.task i with
      memory := Function.update (s.erase.task i).memory v (some (Function.update (k'.mem (pageOf (d'.pte v))) o b))} := by
  have live : alive (s.proc i).state = true := by rw [runs]; rfl
  have low := userLow good.toSane user
  obtain ⟨K, U, before⟩ := inv.table (.inl live) run.pgdir
  have after := moves.accounts before
  have held := writableHeld user writable (good.nonzero v low user)
  have poked : Moves L k' d'.owned d'.shared (k'.poke (pageOf (d'.pte v)) o b) d'.owned d'.shared := by
    have word := (writeMoves (L := L) (k := k') (f := pageOf (d'.pte v)) (Function.update (k'.mem (pageOf (d'.pte v))) o b)).frame
      (d'.ownedBut v) (d'.sharedBut v)
    rwa [← held.1, ← held.2, ← Pgdir.ownedSplit low, ← Pgdir.sharedSplit low] at word
  have others : ∀ j, j ≠ i → (s.proc j).task (k'.poke (pageOf (d'.pte v)) o b) = (s.proc j).task s.k := by
    have framed := (moves.trans poked).frameLeft (tablePage (s.proc i).kstack) 0
    have mine := heldAlive (.inl live) run.pgdir
    rw [zero_add, zero_add, ← mine.1, ← mine.2, ← add_zero (s.proc i).owned, ← add_zero (s.proc i).shared] at framed
    exact inv.othersTask framed ⟨rfl, rfl⟩
  have task : s.erase.task i = ⟨_, _, _, _, view s.k d⟩ := taskOf live run.pgdir
  rw [erasePut others, taskOf (p := {s.proc i with pgdir := some d'}) live rfl, task]
  dsimp only
  rw [← seen, pokeView good after user writable]

theorem putIdle (s : Sys) (i : Slot) (k : Kmem) : s.put i k (s.proc i) = {s with k := k} := by
  unfold Sys.put
  rw [Function.update_eq_self]

theorem storeMatched {b : UInt8} (inv : Inv L s) (spared : Spared s) (runs : (s.proc i).state = .runnable)
    (enough : ¬ CopyFails s i a) : Machine.Matched Shows
      (do let s ← store s i a b; return (s, Out.done) : Except Stop (Sys × Out)) (s.erase.store i a b) := by
  have live : alive (s.proc i).state = true := by rw [runs]; rfl
  have mine : (s.proc i).killed = false := spared i (by rw [runs]; decide)
  obtain ⟨d, run⟩ := (inv.sound i).runs live
  have task : s.erase.task i = ⟨_, _, _, _, view s.k d⟩ := taskOf live run.pgdir
  have memory : (s.erase.task i).memory = view s.k d := by rw [task]
  unfold store World.store
  rw [memory]
  cases user : userOn (d.pte (a / pgSize)) with
  | true =>
    have low := userLow run.good.toSane user
    cases writable : on (d.pte (a / pgSize)) pteW with
    | true =>
      have here : userAccess s i a true = .ok (s, some (pageOf (d.pte (a / pgSize)))) := by
        unfold userAccess
        rw [accessRun run, user, writable]
        rfl
      rw [here, okBind]
      dsimp only
      rw [viewSome low user]
      have same := writeErase (o := a % pgSize) (b := b) inv runs run (.refl _ _ _) run.good rfl user writable
      rw [← run.pgdir, putIdle, memory] at same
      exact .next ⟨fun j => spared j, same⟩
    | false =>
      obtain ⟨k', d', resolved, _, ran⟩ := sharedAccess inv runs mine run user writable enough
      rw [ran, okBind]
      dsimp only
      have seen := congrFun resolved.seen (a / pgSize)
      rw [viewSome low user, viewSome low resolved.user] at seen
      rw [viewSome low user, ← Option.some.inj seen]
      have same := writeErase (o := a % pgSize) (b := b) inv runs run resolved.alters.moves resolved.good resolved.seen
        resolved.user resolved.writable
      rw [memory] at same
      exact .next ⟨spared.put (k := k'.poke _ _ _) fun _ => mine, same⟩
  | false =>
    rw [viewNone user]
    rcases accessFault true inv spared runs run user with ⟨s', ran, fault, spared'⟩ | ⟨⟨e, ran⟩, fault⟩
    · rw [ran, fault, okBind]
      exact .next ⟨spared', rfl⟩
    · rw [ran, fault]
      exact .stop

/-! ### System calls -/

theorem syscallMatched {body : Sys → Except Stop (Sys × Option Int)} {y : Except Unit (World × Out)}
    (mine : (s.proc i).killed = false) (stops : ∀ e, body s = .error e → y = .error ())
    (returns : ∀ s' r, body s = .ok (s', r) → (s'.proc i).killed = false ∧ ∃ w', y = .ok (w', .value r) ∧ Shows s' w') :
    Machine.Matched Shows (syscall s i body) y := by
  unfold syscall
  rw [if_neg (by rw [mine]; decide)]
  cases ran : body s with
  | error e =>
    rw [stops e ran]
    exact .stop
  | ok x =>
    obtain ⟨after, w', same, shows⟩ := returns x.1 x.2 ran
    rw [okBind, same]
    dsimp only
    rw [if_neg (by rw [after]; decide)]
    exact .next shows

theorem World.putPut (w : World) (i : Slot) (t u : Task) : (w.put i t).put i u = w.put i u := by
  unfold World.put
  dsimp only
  rw [Function.update_idem]

theorem allocprocFound (ok : allocproc s = (some j, mid)) : (slots.find? fun j => (s.proc j).state = .unused) = some j := by
  unfold allocproc at ok
  split at ok
  · cases ok
  · rename_i l found
    dsimp only at ok
    split at ok
    · cases ok
    · cases ok
      exact found

theorem allocprocNone (ok : allocproc s = (none, mid)) (fine : mid.k.oom = false) :
    mid = s ∧ (slots.find? fun j => (s.proc j).state = .unused) = none := by
  unfold allocproc at ok
  split at ok
  · rename_i none
    cases ok
    exact ⟨rfl, none⟩
  · dsimp only at ok
    split at ok
    · rename_i k taken
      cases ok
      rw [Sys.putK, (kallocNone taken).2] at fine
      cases fine
    · cases ok

theorem allocprocSpared (spared : Spared s) (ok : allocproc s = (some j, mid)) : Spared mid := by
  rcases allocprocCases ok with ⟨bad, _⟩ | ⟨l, k, unused, ⟨_, bad, _⟩ | ⟨g, _, same, rfl⟩⟩
  · cases bad
  · cases bad
  cases same
  intro l state
  by_cases here : l = j
  · subst l
    rw [claimSelf]
    exact spared j (by rw [unused]; decide)
  · rw [claimOther here] at state ⊢
    exact spared l state

theorem fullErase (run : Runs p d) : ((pagesIn 0 p.sz).all fun v => (view k d v).isSome) = true ↔
    ∀ v, v * pgSize < p.sz → on (d.pte v) pteP = true := by
  rw [List.all_eq_true]
  constructor
  · intro full v small
    have some := full v (memBelow.mpr small)
    cases present : on (d.pte v) pteP with
    | true => rfl
    | false =>
      rw [viewNone (notUser present)] at some
      cases some
  · intro full v mem
    have low := pagesInLow 0 run.top v mem
    rw [viewSome low (run.good.toSane.userOn low (full v (memBelow.mp mem)))]
    rfl

theorem forkedErase {c : Pgdir} (inv : Inv L s) (runs : (s.proc i).state = .runnable) (run : Runs (s.proc i) d)
    (alloc : allocproc s = (some j, mid)) (copied : Copied L mid.k d (mid.proc i).sz k' d' c) :
    ((mid.put i k' {mid.proc i with pgdir := some d'}).put j k' (forked (mid.put i k' {mid.proc i with pgdir := some d'}) i j c)).erase =
      {s.erase with nextpid := s.nextpid + 1}.put j ⟨.runnable, s.nextpid, some i, (s.proc i).sz,
        fun v => if v * pgSize < (s.proc i).sz then view s.k d v else none⟩ := by
  have live : alive (s.proc i).state = true := by rw [runs]; rfl
  have after := allocprocInv inv alloc
  have same := (allocprocOthers alloc (aliveUsed live)).1
  have other : i ≠ j := fun eq => (allocprocOthers alloc (aliveUsed live)).2 (by rw [eq])
  obtain ⟨_, _, _, pid, unused⟩ := allocprocMade alloc
  rcases allocprocCases alloc with ⟨bad, _⟩ | ⟨l, k, _, ⟨_, bad, _⟩ | ⟨g, taken, this, rfl⟩⟩
  · cases bad
  · cases bad
  cases this
  have bytes : view k d = view s.k d := viewKept run.good fun f _ => congrFun (kallocMem taken) f
  rw [same] at copied
  have moves : Moves L (s.claim j k (claimed s j (some g))).k (((s.claim j k (claimed s j (some g))).proc i).owned + 0)
      (((s.claim j k (claimed s j (some g))).proc i).shared + 0) k' (tablePage (s.proc i).kstack + (d'.owned + c.owned))
      (0 + (d'.shared + c.shared)) := by
    rw [same, (heldAlive (.inl live) run.pgdir).1, (heldAlive (.inl live) run.pgdir).2, add_zero, ← zero_add (d.shared + 0),
      add_zero d.shared]
    exact copied.moves.frameLeft _ _
  have others := after.othersTask moves ⟨rfl, rfl⟩
  generalize claim : s.claim j k (claimed s j (some g)) = s₁ at *
  have start : s₁.erase = {s.erase with nextpid := s.nextpid + 1}.put j ((claimed s j (some g)).task k) := by
    rw [← claim]
    refine erasePut fun l _ => taskSame rfl rfl rfl rfl fun _ v => ?_
    dsimp only
    cases (s.proc l).pgdir with
    | none => rfl
    | some e =>
      rw [Option.bind_some, Option.bind_some]
      unfold view
      rw [kallocMem taken]
  have parent : (s₁.put i k' {s₁.proc i with pgdir := some d'}).erase = s₁.erase := by
    refine eraseSame others ?_
    rw [same, taskOf (p := {s.proc i with pgdir := some d'}) live rfl, taskOf live run.pgdir, copied.seen]
  have child : (forked (s₁.put i k' {s₁.proc i with pgdir := some d'}) i j c).task k' =
      ⟨.runnable, s.nextpid, some i, (s.proc i).sz, fun v => if v * pgSize < (s.proc i).sz then view s.k d v else none⟩ := by
    rw [taskOf (d := c) rfl rfl]
    unfold forked
    rw [Sys.putSelf, Sys.putOther other.symm, same, pid]
    congr 1
    funext v
    rw [copied.copy v, ← claim, claimK, bytes]
  have last : ((s₁.put i k' {s₁.proc i with pgdir := some d'}).put j k'
      (forked (s₁.put i k' {s₁.proc i with pgdir := some d'}) i j c)).erase = _ := erasePut fun l _ => rfl
  rw [last, child, parent, start, World.putPut]

theorem forkMatched {copy : Copier} (spec : Copies copy) (returns : Returns copy) (inv : Inv L s) (spared : Spared s)
    (runs : (s.proc i).state = .runnable) (enough : ∀ s' r, fork copy L s i = .ok (s', r) → s'.k.oom = false) :
    Machine.Matched Shows (syscall s i fun s => fork copy L s i) (s.erase.fork i) := by
  have live : alive (s.proc i).state = true := by rw [runs]; rfl
  have mine : (s.proc i).killed = false := spared i (by rw [runs]; decide)
  obtain ⟨d, run⟩ := (inv.sound i).runs live
  have task : s.erase.task i = ⟨_, _, _, _, view s.k d⟩ := taskOf live run.pgdir
  have search : (slots.find? fun j => (s.erase.task j).state = .unused) = slots.find? fun j => (s.proc j).state = .unused := rfl
  unfold World.fork
  rw [search, task]
  refine syscallMatched mine (fun e err => ?_) (fun s' r ran => ?_)
  · cases alloc : allocproc s with
    | mk o mid =>
    cases o with
    | none =>
      unfold fork at err
      rw [alloc] at err
      cases err
    | some j =>
      rw [allocprocFound alloc]
      refine if_neg fun full => ?_
      obtain ⟨s', r, ran⟩ := forkReturns returns inv live run ((fullErase run).mp full)
      cases ran.symm.trans err
  · have fine := enough s' r ran
    cases forkCases ran with
    | noSlot alloc =>
      obtain ⟨rfl, none⟩ := allocprocNone alloc fine
      rw [none]
      exact ⟨mine, _, rfl, spared, rfl⟩
    | @noMemory mid j f e k₁ d₁ k₂ alloc table stack copied freed =>
      obtain ⟨_, _, run', K, U, before⟩ := allocprocCaller inv live alloc table
      have out := (spec run'.top run'.good before copied).oom
      rw [Sys.putK, kfreeOom freed, out] at fine
      cases fine
    | @made mid j f e k₁ d₁ c alloc table stack copied =>
      have after := allocprocInv inv alloc
      obtain ⟨same, out⟩ := allocprocOthers alloc (aliveUsed live)
      have live' : alive (mid.proc i).state = true := by rw [same]; exact live
      have other : i ≠ j := fun eq => out (by rw [eq])
      rw [same, run.pgdir] at table
      cases table
      obtain ⟨K, U, before⟩ := after.table (.inl live') (by rw [same]; exact run.pgdir)
      have made : Copied L mid.k d (mid.proc i).sz k₁ d₁ c :=
        spec (by rw [same]; exact run.top) run.good before copied
      obtain ⟨_, _, embryo, pid, _⟩ := allocprocMade alloc
      have spared' := allocprocSpared spared alloc
      have parent : Spared (mid.put i k₁ {mid.proc i with pgdir := some d₁}) := spared'.put fun state => spared' i state
      rw [allocprocFound alloc]
      dsimp only
      rw [if_pos ((fullErase run).mpr (by rw [← same]; exact made.full))]
      refine ⟨?_, _, ?_, parent.put fun _ => ?_, forkedErase inv runs run alloc made⟩
      · rw [Sys.putOther other, Sys.putSelf, same]
        exact mine
      · congr 3
        unfold forked
        rw [Sys.putOther other.symm, pid]
        rfl
      · unfold forked
        rw [Sys.putOther other.symm]
        exact spared' j (by rw [embryo]; decide)

/-! ### `sbrk` and `wait` -/

theorem grownMore {sz : Nat} {n : Word} (top : sz ≤ userTop) (sign : 0 < n.toInt) : sz < grown sz n := by
  have small : n.toNat < 2 ^ 31 := by
    by_contra big
    rw [BitVec.toInt_eq_toNat_cond] at sign
    split at sign <;> omega
  have positive : 0 < n.toNat := by
    rw [BitVec.toInt_eq_toNat_of_lt (by omega)] at sign
    omega
  unfold grown userTop at *
  omega

theorem Resized.erase {sz : Nat} {n : Word} {flag : Bool} (h : Resized L s.k d (s.proc i).sz n k' d' sz flag)
    (runs : (s.proc i).state = .runnable) (run : Runs (s.proc i) d)
    (others : ∀ j, j ≠ i → (s.proc j).task k' = (s.proc j).task s.k) (fine : k'.oom = false) :
    s.erase.sbrk i n = ((s.put i k' {s.proc i with pgdir := some d', sz := sz}).erase,
      .value (if flag then some ((s.proc i).sz : Int) else none)) := by
  have live : alive (s.proc i).state = true := by rw [runs]; rfl
  have task : s.erase.task i = ⟨_, _, _, _, view s.k d⟩ := taskOf live run.pgdir
  have after : (s.put i k' {s.proc i with pgdir := some d', sz := sz}).erase = s.erase.put i
      ⟨(s.proc i).state, (s.proc i).pid, (s.proc i).parent, sz, view k' d'⟩ := by
    rw [erasePut others, taskOf (p := {s.proc i with pgdir := some d', sz := sz}) live rfl]
  have idle : view k' d' = view s.k d → sz = (s.proc i).sz →
      (s.put i k' {s.proc i with pgdir := some d', sz := sz}).erase = s.erase := by
    rintro seen rfl
    rw [after, seen, ← task]
    unfold World.put
    rw [Function.update_eq_self]
  unfold World.sbrk
  rw [task]
  dsimp only
  cases h with
  | more sign alloc some =>
    have more := grownMore run.top sign
    rw [if_pos sign]
    cases alloc with
    | refused => exact absurd rfl some
    | undone => exact absurd rfl some
    | smaller _ less => omega
    | grown top _ grows seen =>
      rw [if_neg (by omega), after, viewLcr3]
      congr 3
      funext u
      exact (seen run.good u).symm
  | refused sign alloc =>
    have more := grownMore run.top sign
    rw [if_pos sign]
    generalize zero : (0 : Nat) = r at alloc
    cases alloc with
    | refused top =>
      rw [if_pos top, idle rfl rfl]
      rfl
    | smaller => omega
    | grown => omega
    | undone _ _ undone =>
      rw [undone.oom] at fine
      cases fine
  | less sign shrinks seen some =>
    rw [if_neg (by omega), if_pos sign, if_neg some, after, viewLcr3]
    congr 3
    funext u
    exact (seen u).symm
  | emptied sign shrinks seen none =>
    rw [if_neg (by omega), if_pos sign, if_pos none, after]
    congr 3
    funext u
    exact (seen u).symm
  | same sign =>
    rw [if_neg (by omega), if_neg (by omega), idle rfl rfl]
    rfl

theorem sbrkMatched {n : Word} (inv : Inv L s) (spared : Spared s) (runs : (s.proc i).state = .runnable)
    (enough : ∀ s' r, count (sysSbrk L s i n) = .ok (s', r) → s'.k.oom = false) :
    Machine.Matched Shows (syscall s i fun s => count (sysSbrk L s i n)) (.ok (s.erase.sbrk i n) : Except Unit (World × Out)) := by
  have live : alive (s.proc i).state = true := by rw [runs]; rfl
  have mine : (s.proc i).killed = false := spared i (by rw [runs]; decide)
  obtain ⟨d, run⟩ := (inv.sound i).runs live
  obtain ⟨K, U, before⟩ := inv.table (.inl live) run.pgdir
  obtain ⟨k', d', sz, flag, grew, spec⟩ := growprocSpec (n := n) run before
  have ran : count (sysSbrk L s i n) = .ok (s.put i k' {s.proc i with pgdir := some d', sz := sz},
      if flag then some ((s.proc i).sz : Int) else none) := by
    unfold count sysSbrk
    rw [grew]
    cases flag <;> rfl
  have fine := enough _ _ ran
  have others : ∀ j, j ≠ i → (s.proc j).task k' = (s.proc j).task s.k := by
    obtain ⟨moves, _⟩ := spec.facts run.good run.top run.above
    have framed := moves.frameLeft (tablePage (s.proc i).kstack) 0
    have held := heldAlive (.inl live) run.pgdir
    rw [zero_add, zero_add, ← held.1, ← held.2, ← add_zero (s.proc i).owned, ← add_zero (s.proc i).shared] at framed
    exact inv.othersTask framed ⟨rfl, rfl⟩
  refine syscallMatched mine (fun e err => ?_) (fun s' r ran' => ?_)
  · cases ran.symm.trans err
  · cases ran.symm.trans ran'
    refine ⟨by rw [Sys.putSelf]; exact mine, _, ?_, spared.put fun _ => mine, rfl⟩
    rw [spec.erase runs run others fine]

theorem reapRuns (inv : Inv L s) (zombie : (s.proc j).state = .zombie) (fine : s.k.oom = false) :
    ∃ k₁ k', kfreeStack L s.k (s.proc j).kstack = .ok k₁ ∧ freevm L k₁ (s.proc j).pgdir = .ok k' := by
  obtain ⟨f, stack⟩ := (inv.sound j).stack (by rw [zombie]; decide)
  obtain ⟨d, table, _, good⟩ := (inv.sound j).left zombie
  obtain ⟨lost, holds, _⟩ := inv.accounts
  have before := holds.split j
  have held := heldAlive (.inr zombie) table
  rw [held.1, held.2, stack] at before
  have inside : f ∈ L.pool := before.ownedIn (by
    rw [Multiset.mem_add, Multiset.mem_add]
    exact .inl (.inl (Multiset.mem_singleton_self f)))
  obtain ⟨k₁, freed⟩ := kfreeOk (k := s.k) inside
  have after := (kfreeOwned freed).accounts (K := d.owned + (s.ownedBut j + lost)) (U := d.shared + (s.sharedBut j + 0)) (by
    rw [add_assoc] at before
    rwa [zero_add])
  rw [zero_add, zero_add] at after
  obtain ⟨k', freed'⟩ := freevmRuns (good fine) after
  exact ⟨k₁, k', by rw [stack]; exact freed, by rw [table]; exact freed'⟩

theorem waitMatched (inv : Inv L s) (spared : Spared s) (runs : (s.proc i).state = .runnable) (fine : s.k.oom = false) :
    Machine.Matched Shows (syscall s i fun s => wait L s i) (s.erase.wait i) := by
  have mine : (s.proc i).killed = false := spared i (by rw [runs]; decide)
  have zombies : (slots.find? fun j => (s.erase.task j).parent = some i ∧ (s.erase.task j).state = .zombie) =
      slots.find? fun j => (s.proc j).parent = some i ∧ (s.proc j).state = .zombie := rfl
  have children : (slots.any fun j => (s.erase.task j).parent = some i) = slots.any fun j => (s.proc j).parent = some i := rfl
  unfold World.wait
  rw [zombies, children]
  cases found : slots.find? fun j => (s.proc j).parent = some i ∧ (s.proc j).state = .zombie with
  | some j =>
    have zombie : (s.proc j).parent = some i ∧ (s.proc j).state = .zombie := by simpa using List.find?_some found
    obtain ⟨k₁, k', stack, freed⟩ := reapRuns inv zombie.2 fine
    have ran : wait L s i = .ok (s.put j k' (reaped (s.proc j)), some (s.proc j).pid) := by
      unfold wait
      rw [found]
      dsimp only
      rw [stack, okBind, freed]
      rfl
    have other : i ≠ j := by
      rintro rfl
      rw [runs] at zombie
      cases zombie.2
    have others : ∀ l, l ≠ j → (s.proc l).task k' = (s.proc l).task s.k := by
      obtain ⟨d, table, sane, _⟩ := (inv.sound j).left zombie.2
      have moves := reapMoves zombie.2 table sane stack freed
      rw [← add_zero (s.proc j).owned, ← add_zero (s.proc j).shared] at moves
      exact inv.othersTask moves ⟨rfl, rfl⟩
    refine syscallMatched mine (fun e err => ?_) (fun s' r ran' => ?_)
    · cases ran.symm.trans err
    · cases ran.symm.trans ran'
      refine ⟨by rw [Sys.putOther other]; exact mine, _, rfl, spared.put fun _ => rfl, ?_⟩
      rw [erasePut others]
      congr 1
      have gone : s.erase.task j = _ := taskDead (k := s.k) (p := s.proc j) (by rw [zombie.2]; rfl)
      rw [taskDead rfl, gone]
      rfl
  | none =>
    have ran : wait L s i = if slots.any fun j => (s.proc j).parent = some i then .error .asleep else .ok (s, none) := by
      unfold wait
      rw [found]
      dsimp only
      rw [mine]
      simp
    dsimp only
    refine syscallMatched mine (fun e err => ?_) (fun s' r ran' => ?_)
    · rw [ran] at err
      split at err
      · rename_i child
        rw [if_pos child]
      · cases err
    · rw [ran] at ran'
      split at ran'
      · cases ran'
      · rename_i alone
        cases ran'
        exact ⟨mine, _, if_neg alone, spared, rfl⟩

/-! ### Runs -/

theorem exitMatched (spared : Spared s) : Machine.Matched Shows
    (do let s ← exit s i; return (s, Out.exited) : Except Stop (Sys × Out))
    (do return (← s.erase.exit i, Out.exited)) := by
  cases left : exit s i with
  | error e =>
    rw [exitStops left]
    exact .stop
  | ok s' =>
    rw [exitErase left]
    exact .next ⟨exitSpared (fun j _ => spared j) left, rfl⟩

/-- No `kalloc` fails in the step. -/
def Enough (copy : Copier) (L : Layout) (s : Sys) (x : Slot × UserOp) : Prop :=
  (∀ s' o, step copy L s (.user x.1 x.2) = .ok (s', o) → s'.k.oom = false) ∧
    ∀ a b, x.2 = .store a b → ¬ CopyFails s x.1 a

structure Tracks (L : Layout) (s : Sys) (w : World) : Prop where
  inv : Inv L s
  fine : s.k.oom = false
  shows : Shows s w

theorem userMatched {copy : Copier} {op : UserOp} (spec : Copies copy) (returns : Returns copy) (inv : Inv L s)
    (fine : s.k.oom = false) (spared : Spared s) (enough : Enough copy L s (i, op)) :
    Machine.Matched Shows (step copy L s (.user i op)) (s.erase.step i op) := by
  have state : (s.erase.task i).state = (s.proc i).state := rfl
  unfold World.step
  rw [state]
  by_cases runs : (s.proc i).state = .runnable
  · have acts : step copy L s (.user i op) = userStep copy L s i op := actingRuns runs
    have kept := enough.1
    dsimp only at kept
    rw [if_pos runs, acts]
    rw [acts] at kept
    -- a call that returns memory's failure on record is not a step with enough of it
    have body : ∀ {f : Sys → Except Stop (Sys × Option Int)} {s' r}, userStep copy L s i op = syscall s i f →
        (∀ s' r, f s = .ok (s', r) → (s'.proc i).killed = false) → f s = .ok (s', r) → s'.k.oom = false := by
      intro f s' r call after ran
      refine kept s' (.value r) ?_
      rw [call]
      exact syscallRuns ran (spared i (by rw [runs]; decide)) (after s' r ran)
    cases op with
    | fork =>
      refine forkMatched spec returns inv spared runs fun s' r ran =>
        body (f := fun s => fork copy L s i) rfl (fun s' r ran => ?_) ran
      obtain ⟨table, same⟩ := forkCaller (by rw [runs]; decide) ran
      rw [same]
      exact spared i (by rw [runs]; decide)
    | load a => exact loadMatched inv spared runs
    | store a b => exact storeMatched inv spared runs (enough.2 a b rfl)
    | sbrk n =>
      refine sbrkMatched inv spared runs fun s' r ran =>
        body (f := fun s => count (sysSbrk L s i n)) rfl (fun s' r ran => ?_) ran
      obtain ⟨r', sbrk⟩ := countCases ran
      obtain ⟨flag, grew, _⟩ := sysSbrkCases sbrk
      obtain ⟨d, run⟩ := (inv.sound i).runs (by rw [runs]; rfl)
      obtain ⟨K, U, before⟩ := inv.table (.inl (by rw [runs]; rfl)) run.pgdir
      obtain ⟨k', d', sz, rfl, _⟩ := growprocCases run before grew
      rw [Sys.putSelf]
      exact spared i (by rw [runs]; decide)
    | exit => exact exitMatched spared
    | wait => exact waitMatched inv spared runs fine
  · have idle : step copy L s (.user i op) = .error .idle := if_neg runs
    rw [if_neg runs, idle]
    exact .stop

theorem tracksStep {copy : Copier} (spec : Copies copy) (returns : Returns copy) (x : Slot × UserOp) (tracks : Tracks L s w)
    (enough : Enough copy L s x) : Machine.Matched (Tracks L) ((userMachine copy L).step s x) (World.machine.step w x) := by
  obtain ⟨inv, fine, spared, rfl⟩ := tracks
  refine (userMatched spec returns inv fine spared enough).strengthen fun s' w' o ran shows => ?_
  exact ⟨stepInv spec inv ran, enough.1 s' o ran, shows⟩

theorem bootTracks (booted : boot L = .ok s) (fine : s.k.oom = false) : Tracks L s s.erase := by
  refine ⟨bootInv booted, fine, ?_, rfl⟩
  obtain ⟨k, k₁, stack, kpgdir, k₂, k₃, bootstacks, start, taken, table, others, init⟩ := bootCases booted
  obtain ⟨m, s₁, k₄, c, f, k₅, k₆, alloc, _, _, _, _, _, _, rfl⟩ :=
    userinitCases (startInv (startAccounts start taken table others)) init
  have spared : Spared s₁ := allocprocSpared (fun _ _ => rfl) alloc
  have embryo := (allocprocMade alloc).choose_spec.2.1
  exact spared.put (k := k₆) (p := initProc s₁ m (c.set 0 (userWord f))) fun _ => spared m (by rw [embryo]; decide)

/-! ### Eager copies are never shared -/

theorem copyuvmPrivate {c : Pgdir} {sz : Nat} {K U : Multiset Nat} (top : sz ≤ userTop) (good : d.Ok)
    (before : Accounts L k (d.owned + K) (d.shared + U)) (ok : copyuvm L k d sz = .ok (k', d', some c)) (alone : Private d) :
    d' = d ∧ Private c := by
  have low : ∀ v ∈ pagesIn 0 sz, v < userPages := pagesInLow 0 top
  unfold copyuvm at ok
  rcases setupkvmSpec L k with ⟨k₁, c₀, run, moves, table, _, _⟩ | ⟨k₁, lost, run, _⟩
  · rw [run, okBind] at ok
    obtain ⟨⟨k₂, c', b⟩, loop, ok⟩ := bindOk ok
    have mid := moves.accounts (K := d.owned + K) (U := d.shared + U) (by rwa [zero_add, zero_add])
    obtain ⟨done, rest, split, flag, present, dup, _, _⟩ := copyLoop low (pagesInNodup _ _) good table.good
      (fun v mem => noUserAbsent table v mem (low v mem)) mid loop
    cases b with
    | false =>
      obtain ⟨k₃, freed, last⟩ := bindOk ok
      cases last
    | true =>
      cases ok
      refine ⟨rfl, fun v small user => ?_⟩
      by_cases mem : v ∈ done
      · obtain ⟨f, inside, word⟩ := dup.fresh v mem
        have here := good.toSane.userOn small (present v mem)
        rw [word, (copyWordSpec inside here).2.2.2]
        exact alone v small here
      · rw [dup.same v mem, table.noUser v small, wordZero] at user
        cases user
  · rw [run, okBind] at ok
    cases ok

def Unshared (p : Proc) : Prop := alive p.state = true → ∀ d, p.pgdir = some d → Private d

theorem Rewrites.private (h : Rewrites d d') (alone : Private d) : Private d' := by
  intro v low user
  rcases h v user with writable | same
  · exact writable
  · rw [same] at user ⊢
    exact alone v low user

theorem Changed.unshared {op : Op} (h : Changed L s op j p) (fork : ∀ m, op ≠ .user m .fork) (before : Unshared (s.proc j)) :
    Unshared p := by
  intro live e table
  cases h with
  | gone dead =>
    rw [live] at dead
    cases dead
  | kept alive' pgdir => exact before (alive' live) e (pgdir.symm.trans table)
  | parent act => exact absurd act (fork _)
  | child act => exact absurd act (fork _)
  | resized _ was run spec pgdir =>
    cases pgdir.symm.trans table
    exact spec.rewrites.private (before was _ run.pgdir)
  | loaded image pgdir =>
    cases pgdir.symm.trans table
    exact image.writable
  | resolved was run _ resolved pgdir =>
    cases pgdir.symm.trans table
    exact resolved.rewrites.private (before was _ run.pgdir)

theorem allocprocUnshared {o : Option Slot} (before : ∀ j, Unshared (s.proc j)) (alloc : allocproc s = (o, mid)) (l : Slot) :
    Unshared (mid.proc l) := by
  rcases allocprocCases alloc with ⟨_, rfl, _⟩ | ⟨m, k, _, ⟨_, _, rfl⟩ | ⟨g, _, _, rfl⟩⟩
  · exact before l
  all_goals
    by_cases same : l = m
    · subst l
      rw [claimSelf]
      intro bad
      cases bad
    · rw [claimOther same]
      exact before l

/-- The parent's table is as before, the child's is the copy. -/
theorem copyuvmUnshared {m : Slot} {k₁ : Kmem} {d₁ : Pgdir} {o : Option Pgdir} (inv : Inv L s) (live : alive (s.proc i).state = true)
    (before : ∀ j, Unshared (s.proc j)) (run : Runs (s.proc i) d) (alloc : allocproc s = (some m, mid))
    (copied : copyuvm L mid.k d (mid.proc i).sz = .ok (k₁, d₁, o)) : d₁ = d ∧ ∀ c, o = some c → Private c := by
  have same := (allocprocOthers alloc (aliveUsed live)).1
  have alone := before i live d run.pgdir
  rw [same] at copied
  obtain ⟨K, U, holds⟩ := (allocprocInv inv alloc).table (.inl (by rw [same]; exact live)) (by rw [same]; exact run.pgdir)
  cases o with
  | none => exact ⟨(copyuvmSpec run.top run.good holds copied).same, fun c bad => by cases bad⟩
  | some c =>
    obtain ⟨kept, private'⟩ := copyuvmPrivate run.top run.good holds copied alone
    exact ⟨kept, fun c' same => by cases same; exact private'⟩

theorem eagerForkUnshared {r : Option Int} (inv : Inv L s) (runs : (s.proc i).state = .runnable)
    (before : ∀ j, Unshared (s.proc j)) (ok : fork copyuvm L s i = .ok (s', r)) (j : Slot) : Unshared (s'.proc j) := by
  have live : alive (s.proc i).state = true := by rw [runs]; rfl
  obtain ⟨d, run⟩ := (inv.sound i).runs live
  -- the parent's slot is written back with the table it had
  have kept : ∀ {o mid k₁}, allocproc s = (o, mid) → ∀ l,
      Unshared ((mid.put i k₁ {mid.proc i with pgdir := some d}).proc l) := by
    intro o mid k₁ alloc l
    by_cases caller : l = i
    · subst l
      rw [Sys.putSelf, (allocprocOthers alloc (aliveUsed live)).1]
      exact fun _ e table => before i live e (run.pgdir.trans table)
    · rw [Sys.putOther caller]
      exact allocprocUnshared before alloc l
  cases forkCases ok with
  | noSlot alloc => exact allocprocUnshared before alloc j
  | @noMemory mid m f e k₁ d₁ k₂ alloc table stack copied freed =>
    rw [(allocprocOthers alloc (aliveUsed live)).1, run.pgdir] at table
    cases table
    obtain ⟨rfl, _⟩ := copyuvmUnshared inv live before run alloc copied
    by_cases child : j = m
    · subst j
      rw [Sys.putSelf]
      intro bad
      cases bad
    · rw [Sys.putOther child]
      exact kept alloc j
  | @made mid m f e k₁ d₁ c alloc table stack copied =>
    rw [(allocprocOthers alloc (aliveUsed live)).1, run.pgdir] at table
    cases table
    obtain ⟨rfl, copy⟩ := copyuvmUnshared inv live before run alloc copied
    by_cases child : j = m
    · subst j
      rw [Sys.putSelf]
      intro _ e table
      cases table
      exact copy c rfl
    · rw [Sys.putOther child]
      exact kept alloc j

theorem exitUnshared (before : ∀ j, Unshared (s.proc j)) (ok : exit s i = .ok s') (j : Slot) : Unshared (s'.proc j) := by
  obtain ⟨_, _, _, _, _, _, slots⟩ := exitCases ok
  obtain ⟨pgdir, _, _, _, state⟩ := slots j
  intro live d table
  rw [state] at live
  split at live
  · cases live
  · exact before j live d (pgdir.symm.trans table)

theorem eagerUnshared {o : Out} {op : UserOp} (inv : Inv L s) (before : ∀ j, Unshared (s.proc j))
    (ok : step copyuvm L s (.user i op) = .ok (s', o)) (j : Slot) : Unshared (s'.proc j) := by
  obtain ⟨runs, ok⟩ := actingCases ok
  by_cases forks : op = .fork
  · subst op
    unfold userStep at ok
    rcases syscallCases ok with ⟨_, left, _⟩ | ⟨_, mid, r, ran, ⟨_, left, _⟩ | ⟨_, rfl, _⟩⟩
    · exact exitUnshared before left j
    · exact exitUnshared (eagerForkUnshared inv runs before ran) left j
    · exact eagerForkUnshared inv runs before ran j
  · have same : userStep copyuvm L s i op = userStep cowuvm L s i op := by
      cases op with
      | fork => exact absurd rfl forks
      | _ => rfl
    rw [same] at ok
    exact (userStepChanged inv runs ok j).unshared (fun m eq => forks (by cases eq; rfl)) (before j)

theorem eagerNoFault {is : List (Slot × UserOp)} {os : List Out} (booted : boot L = .ok s)
    (ran : (userMachine copyuvm L).run s is = .ok (s', os)) (live : alive (s'.proc i).state = true)
    (reads : access (s'.proc i) a false ≠ none) : access (s'.proc i) a true ≠ none := by
  have both : Inv L s' ∧ ∀ j, Unshared (s'.proc j) := by
    refine Machine.runKeeps (P := fun s => Inv L s ∧ ∀ j, Unshared (s.proc j)) (fun s x s' o before ok => ?_) ⟨bootInv booted,
      fun j live d table => ?_⟩ ran
    · have stepped : step copyuvm L s (.user x.1 x.2) = .ok (s', o) := ok
      exact ⟨stepInv eagerCopies before.1 stepped, eagerUnshared before.1 before.2 stepped⟩
    · obtain ⟨e, table', image, _⟩ := bootProc booted live
      cases table.symm.trans table'
      exact image.writable
  obtain ⟨inv, unshared⟩ := both
  obtain ⟨d, run⟩ := (inv.sound i).runs live
  rw [accessRun run] at reads ⊢
  cases user : userOn (d.pte (a / pgSize)) with
  | false =>
    rw [user] at reads
    exact absurd rfl reads
  | true =>
    rw [unshared i live d run.pgdir _ (userLow run.good.toSane user) user]
    simp

/-! ### What a program can tell -/

theorem worldStoreOthers {w' : World} {b : UInt8} {o : Out} (ok : w.step i (.store a b) = .ok (w', o)) (other : j ≠ i) :
    (w'.task j).state = (w.task j).state ∧ (w'.task j).memory = (w.task j).memory := by
  unfold World.step at ok
  split at ok
  · dsimp only at ok
    unfold World.store at ok
    split at ok
    · cases ok
      unfold World.put
      dsimp only
      rw [Function.update_of_ne other]
      exact ⟨rfl, rfl⟩
    · obtain ⟨x, fault, last⟩ := bindOk ok
      cases last
      unfold World.fault at fault
      split at fault
      · cases fault
      · unfold World.exit at fault
        split at fault
        · cases fault
        · cases fault
          dsimp only
          rw [if_neg other, if_neg other]
          exact ⟨rfl, rfl⟩
  · cases ok

theorem userMemoryErase (live : alive (s.proc j).state = true) : userMemory s j = (s.erase.task j).memory := by
  funext v
  exact (if_pos live).symm

theorem storeIsolated {copy : Copier} {b : UInt8} {o : Out} (spec : Copies copy) (returns : Returns copy) (tracks : Tracks L s w)
    (enough : Enough copy L s (i, .store a b)) (ok : step copy L s (.user i (.store a b)) = .ok (s', o)) : Isolated s s' i := by
  intro j other live v
  have here := userMatched spec returns tracks.inv tracks.fine tracks.shows.spared enough
  rw [ok] at here
  cases stepped : s.erase.step i (.store a b) with
  | error =>
    rw [stepped] at here
    cases here
  | ok y =>
    rw [stepped] at here
    cases here with
    | next shows =>
      obtain ⟨state, memory⟩ := worldStoreOthers stepped other
      rw [← shows.same] at state memory
      have live' : alive (s'.proc j).state = true := by
        have same : (s'.proc j).state = (s.proc j).state := state
        rw [same]
        exact live
      rw [userMemoryErase live', userMemoryErase live, memory]

/-- As long as memory lasts, copy-on-write and eager copies give a program the same
bytes; the eager kernel has no fault at a page that is there, and no store is seen
by another process. -/
theorem cowRefinesEager {is : List (Slot × UserOp)} (booted : boot L = .ok s) (fine : s.k.oom = false)
    (cow : (userMachine cowuvm L).Passes (Enough cowuvm L) s is)
    (eager : (userMachine copyuvm L).Passes (Enough copyuvm L) s is) :
    Machine.Matched (fun s t => s.erase = t.erase) ((userMachine cowuvm L).run s is) ((userMachine copyuvm L).run s is) ∧
    (∀ t os j a, (userMachine copyuvm L).run s is = .ok (t, os) → alive (t.proc j).state = true →
      access (t.proc j) a false ≠ none → access (t.proc j) a true ≠ none) ∧
    ∀ t os i a b t' o, (userMachine cowuvm L).run s is = .ok (t, os) → Enough cowuvm L t (i, .store a b) →
      step cowuvm L t (.user i (.store a b)) = .ok (t', o) → Isolated t t' i := by
  have left := Machine.runMatched (fun s w x tracks enough => tracksStep cowCopies cowReturns x tracks enough)
    (bootTracks booted fine) cow
  have right := Machine.runMatched (fun s w x tracks enough => tracksStep eagerCopies eagerReturns x tracks enough)
    (bootTracks booted fine) eager
  refine ⟨(left.join right).strengthen fun s t o _ related => ?_, fun t os j a ran => eagerNoFault booted ran,
    fun t os i a b t' o ran enough stepped => ?_⟩
  · obtain ⟨w, one, two⟩ := related
    exact one.shows.same.trans two.shows.same.symm
  · rw [ran] at left
    generalize World.machine.run s.erase is = y at left
    cases left with
    | next tracks => exact storeIsolated cowCopies cowReturns tracks enough stepped

/-! ### A fork, a store by the parent and a load by each of the two -/

def Serves (copy : Copier) : Prop := ∀ {L : Layout} {k : Kmem} {d : Pgdir} {sz : Nat} {K U : Multiset Nat},
  sz ≤ userTop → d.Ok → (∀ v, v * pgSize < sz → on (d.pte v) pteP = true) → Accounts L k (d.owned + K) (d.shared + U) →
    14 + (pagesIn 0 sz).length ≤ k.freelist.length →
    ∃ k' d' c, copy L k d sz = .ok (k', d', some c) ∧ k'.oom = k.oom ∧
      k.freelist.length ≤ k'.freelist.length + (13 + (pagesIn 0 sz).length)

theorem cowServes : Serves cowuvm := by
  intro L k d sz K U top good full before room
  obtain ⟨k', d', r, ok⟩ := cowuvmRuns (L := L) (k := k) top good full
  rcases cowuvmCases top good ok with ⟨k₁, c, d₂, c', moves, table, _, ample, _, shares, rfl, rfl⟩ | ⟨short, _, _⟩
  · have thirteen := (table.unshared ▸ moves).spent (K := d.owned + K) (U := d.shared + U) (by rwa [zero_add])
    rw [table.card, Multiset.card_zero] at thirteen
    have left : k₁.freelist ≠ [] := fun none => by
      rw [none, List.length_nil] at thirteen
      omega
    exact ⟨k', _, c', ok, shares.oom.trans (ample left).2, by rw [shares.free]; omega⟩
  · rcases setupkvmCount before with ⟨_, _, runs, _⟩ | ⟨_, _, _, _, _, few⟩
    · cases short.symm.trans runs
    · omega

theorem eagerServes : Serves copyuvm := by
  intro L k d sz K U top good full before room
  have low : ∀ v ∈ pagesIn 0 sz, v < userPages := pagesInLow 0 top
  rcases setupkvmCount before with ⟨k₁, c, run, moves, table, thirteen, ample⟩ | ⟨_, _, _, _, _, few⟩
  · have mid := moves.accounts (K := d.owned + K) (U := d.shared + U) (by rwa [zero_add, zero_add])
    obtain ⟨k₂, c', b, runs, count⟩ := copyRuns (k := k₁) low (pagesInNodup _ _) good.toSane table.good.toSane
      (fun v mem => full v (memBelow.mp mem)) (fun v mem => noUserAbsent table v mem (low v mem)) (fun f mem => mid.freeIn mem)
    obtain ⟨rfl, oom, left⟩ := count (by omega)
    have some : k₁.freelist ≠ [] := fun none => by
      rw [none, List.length_nil] at thirteen
      omega
    refine ⟨k₂, d, c', ?_, oom.trans (ample some).2, by omega⟩
    unfold copyuvm
    rw [run, okBind]
    dsimp only
    rw [runs]
    rfl
  · omega

/-- The steps of `is` go through, each with enough memory. -/
def Follows (copy : Copier) (L : Layout) (s : Sys) (is : List (Slot × UserOp)) : Prop :=
  (userMachine copy L).Passes (Enough copy L) s is ∧ ∃ t os, (userMachine copy L).run s is = .ok (t, os)

theorem followsNext {copy : Copier} {x : Slot × UserOp} {is : List (Slot × UserOp)} {o : Out} (ok : step copy L s (.user x.1 x.2) = .ok (s', o))
    (fine : s'.k.oom = false) (copies : ∀ a b, x.2 = .store a b → ¬ CopyFails s x.1 a) (later : Follows copy L s' is) :
    Follows copy L s (x :: is) := by
  obtain ⟨passes, t, os, ran⟩ := later
  refine ⟨⟨⟨fun t o' ran' => ?_, copies⟩, fun t o' ran' => ?_⟩, t, _, Machine.runStep ok ran⟩
  · cases ok.symm.trans ran'
    exact fine
  · have ran' : step copy L s (.user x.1 x.2) = .ok (t, o') := ran'
    cases ok.symm.trans ran'
    exact passes

def sharing (i j : Slot) : List (Slot × UserOp) := [(i, .fork), (i, .store 0 1), (j, .load 0), (i, .load 0)]

theorem sampleFollows {copy : Copier} {k : Kmem} {f : Nat} (spec : Copies copy) (serves : Serves copy) (booted : Booted Layout.sample s)
    (alloc : allocproc s = (some j, s.claim j k (claimed s j (some f)))) (one : k.freelist.length + 1 = s.k.freelist.length)
    (oom : k.oom = s.k.oom) (unused : (s.proc j).state = .unused) : Follows copy Layout.sample s (sharing s.initproc j) := by
  have inv := bootInv booted.ran
  have free := sampleFree booted
  obtain ⟨d, run, full⟩ := booted.ready.fit inv
  have size : (s.proc s.initproc).sz = pgSize := booted.parent.size
  have same := (allocprocOthers alloc (aliveUsed booted.ready.live)).1
  obtain ⟨K, U, before⟩ := (allocprocInv inv alloc).table (i := s.initproc) (.inl (by rw [same]; exact booted.ready.live))
    (by rw [same]; exact run.pgdir)
  have pages : (pagesIn 0 (s.proc s.initproc).sz).length = 1 := by rw [size]; rfl
  obtain ⟨k₂, d₂, c, copied, oom₂, left⟩ := serves (L := Layout.sample) run.top run.good full before (by rw [claimK, pages]; omega)
  rw [claimK] at copied oom₂ left
  rw [pages] at left
  obtain ⟨t, pid, forks, branched, rfl, _⟩ := forkMakes booted.ready alloc rfl run.pgdir copied
  have made := spec run.top run.good before (k := (s.claim j k (claimed s j (some f))).k) copied
  have parent := branched.readyParent booted.ready fun v small => by
    rw [made.present v (pagesInLow 0 run.top v (memBelow.mpr small))]
    exact full v small
  have child := branched.readyChild (booted.parent.idle j unused) fun v small => by
    rw [made.copied v (pagesInLow 0 run.top v (memBelow.mpr small))]
    exact decide_eq_true small
  have fine : t.k.oom = false := oom₂.trans (oom.trans booted.fine)
  have inv₁ := stepInv spec inv forks
  have sizes : (t.proc s.initproc).sz = pgSize ∧ (t.proc j).sz = pgSize :=
    ⟨by rw [branched.parent]; exact size, branched.size.trans size⟩
  have enough : ¬ CopyFails t s.initproc 0 := fun fails => by
    rw [fails.1, List.length_nil] at left
    omega
  obtain ⟨u, stores, oom₃, parent', size', others, _⟩ := storeRuns copy (b := 1) inv₁ parent (by rw [sizes.1]; decide) enough
  have inv₂ := stepInv spec inv₁ stores
  have other : j ≠ s.initproc := by
    rintro rfl
    rw [booted.ready.runs] at unused
    cases unused
  have child' : Ready u j := ⟨by rw [others j other]; exact child.runs, by rw [others j other]; exact child.spared,
    by rw [others j other]; exact child.full⟩
  obtain ⟨x, loads⟩ := loadRuns copy inv₂ child' (by rw [others j other, sizes.2]; decide)
  obtain ⟨y, loads'⟩ := loadRuns copy inv₂ parent' (by rw [size', sizes.1]; decide)
  have fine' : u.k.oom = false := oom₃.trans fine
  refine followsNext forks fine (fun a b bad => by cases bad) (followsNext stores fine' (fun a b this => ?_)
    (followsNext loads fine' (fun a b bad => by cases bad) (followsNext loads' fine' (fun a b bad => by cases bad)
      ⟨trivial, u, [], rfl⟩)))
  cases this
  exact enough

theorem cowRefinesEagerShared : ∃ s i j t os, boot Layout.sample = .ok s ∧ i ≠ j ∧
    (userMachine cowuvm Layout.sample).run s (sharing i j) = .ok (t, os) ∧
    Machine.Matched (fun s t => s.erase = t.erase) ((userMachine cowuvm Layout.sample).run s (sharing i j))
      ((userMachine copyuvm Layout.sample).run s (sharing i j)) ∧
    (∀ t os j' a, (userMachine copyuvm Layout.sample).run s (sharing i j) = .ok (t, os) → alive (t.proc j').state = true →
      access (t.proc j') a false ≠ none → access (t.proc j') a true ≠ none) ∧
    ∀ t os i' a b t' o, (userMachine cowuvm Layout.sample).run s (sharing i j) = .ok (t, os) → Enough cowuvm Layout.sample t (i', .store a b) →
      step cowuvm Layout.sample t (.user i' (.store a b)) = .ok (t', o) → Isolated t t' i' := by
  obtain ⟨s, booted⟩ := sampleBoots
  have free := sampleFree booted
  obtain ⟨j, k, f, unused, alloc, one, oom, _⟩ := allocprocRuns (L := Layout.sample) booted.slot (by omega)
  obtain ⟨cow, t, os, ran⟩ := sampleFollows cowCopies cowServes booted alloc one oom unused
  obtain ⟨eager, _⟩ := sampleFollows eagerCopies eagerServes booted alloc one oom unused
  refine ⟨s, s.initproc, j, t, os, booted.ran, ?_, ran, cowRefinesEager booted.ran booted.fine cow eager⟩
  rintro rfl
  rw [booted.ready.runs] at unused
  cases unused

end OpSys.Cow
