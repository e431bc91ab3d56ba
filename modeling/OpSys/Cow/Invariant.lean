import OpSys.Cow.Fault

/-! The invariant is kept when a process is killed, exits, faults, reads or writes
memory in user mode or has the kernel store into it. -/
namespace OpSys.Cow
open OpSys.Xv6 Finset

variable {L : Layout} {k k' : Kmem} {d d' : Pgdir} {s s' : Sys} {i j : Slot} {p : Proc} {v a f : Nat}
variable {X Y : Multiset Nat}

theorem Pids.put (h : Pids s) (pid : p.pid = (s.proc i).pid ∨ p.pid = 0 ∧ p.state = .unused)
    (used : p.state ≠ .unused → (s.proc i).state ≠ .unused) : Pids (s.put i k' p) := by
  have pids : ∀ j, 0 < ((s.put i k' p).proc j).pid → ((s.put i k' p).proc j).pid = (s.proc j).pid := by
    intro j pos
    by_cases same : j = i
    · subst j
      rw [Sys.putSelf] at pos ⊢
      rcases pid with kept | ⟨zero, _⟩
      · exact kept
      · omega
    · rw [Sys.putOther same]
  refine ⟨h.positive, fun j => ?_, fun j present => ?_, fun j l equal pos => ?_⟩
  · by_cases pos : 0 < ((s.put i k' p).proc j).pid
    · rw [pids j pos]
      exact h.below j
    · have := h.positive
      simp only [Sys.putNextpid]
      omega
  · by_cases same : j = i
    · subst j
      rw [Sys.putSelf] at present ⊢
      rcases pid with kept | ⟨_, unused⟩
      · rw [kept]
        exact h.used i (used present)
      · exact absurd unused present
    · rw [Sys.putOther same] at present ⊢
      exact h.used j present
  · have pos' : 0 < ((s.put i k' p).proc l).pid := by rwa [← equal]
    rw [pids j pos, pids l pos'] at equal
    exact h.differ j l equal (by rwa [← pids j pos])

theorem Inv.put (h : Inv L s)
    (moves : Moves L s.k (s.proc i).owned (s.proc i).shared k' (p.owned + X) p.shared)
    (fine : k'.oom = false → X = 0) (sound : Sound k'.oom p) (pid : p.pid = (s.proc i).pid ∨ p.pid = 0 ∧ p.state = .unused)
    (used : p.state ≠ .unused → (s.proc i).state ≠ .unused) : Inv L (s.put i k' p) := by
  obtain ⟨gone, holds, none⟩ := h.accounts
  refine ⟨⟨X + gone, ?_, fun ok => ?_⟩, fun j => ?_, h.pids.put pid used, h.unprotected⟩
  · have start : Holds L s (0 + gone) (0 + 0) := by rwa [zero_add, zero_add]
    have after := start.put (p := p) (M := X) (N := 0) (by rwa [add_zero, add_zero, add_zero])
    rwa [zero_add] at after
  · rw [fine ok, none (moves.oom ok), add_zero]
  · by_cases same : j = i
    · subst j
      rwa [Sys.putSelf]
    · rw [Sys.putOther same]
      exact (h.sound j).weaken moves.oom

theorem Inv.putTable (h : Inv L s) (live : alive (s.proc i).state = true) (table : (s.proc i).pgdir = some d)
    (moves : Moves L s.k d.owned d.shared k' d'.owned d'.shared) (run : Runs p d') (state : p.state = (s.proc i).state)
    (stack : p.kstack = (s.proc i).kstack) (pid : p.pid = (s.proc i).pid) : Inv L (s.put i k' p) := by
  have before := heldAlive (.inl live) table
  have after := heldAlive (.inl (by rwa [state])) run.pgdir
  refine h.put (X := 0) ?_ (fun _ => rfl) ⟨fun used => ?_, fun _ => ⟨d', run⟩, fun gone => ?_⟩ (.inl pid) (by rw [state]; exact id)
  · have framed := moves.frameLeft (tablePage (s.proc i).kstack) 0
    rw [zero_add, zero_add] at framed
    rwa [before.1, before.2, after.1, after.2, stack, add_zero]
  · rw [stack]
    exact (h.sound i).stack (by rwa [state] at used)
  · rw [← state, gone] at live
    cases live

theorem Runs.update {q : Proc} (run : Runs p d) (pgdir : q.pgdir = p.pgdir) (sz : q.sz = p.sz) : Runs q d :=
  ⟨pgdir.trans run.pgdir, run.good, by rw [sz]; exact run.top, by rw [sz]; exact run.above⟩

theorem Inv.flag (h : Inv L s) (state : p.state = (s.proc i).state ∨ alive p.state = true ∧ alive (s.proc i).state = true)
    (pgdir : p.pgdir = (s.proc i).pgdir) (stack : p.kstack = (s.proc i).kstack) (pid : p.pid = (s.proc i).pid)
    (sz : p.sz = (s.proc i).sz) : Inv L (s.put i s.k p) := by
  have used : p.state ≠ .unused → (s.proc i).state ≠ .unused := by
    rcases state with same | ⟨_, live⟩
    · rw [same]
      exact id
    · intro _ unused
      rw [unused] at live
      cases live
  have live : alive p.state = true → alive (s.proc i).state = true := by
    rcases state with same | ⟨_, live⟩
    · rw [same]
      exact id
    · exact fun _ => live
  have held : p.owned = (s.proc i).owned ∧ p.shared = (s.proc i).shared := by
    rcases state with same | ⟨after, before⟩
    · unfold Proc.owned Proc.shared
      rw [same, pgdir, stack]
      exact ⟨rfl, rfl⟩
    · obtain ⟨d, run⟩ := (h.sound i).runs before
      rw [(heldAlive (.inl before) run.pgdir).1, (heldAlive (.inl before) run.pgdir).2,
        (heldAlive (.inl after) (pgdir.trans run.pgdir)).1, (heldAlive (.inl after) (pgdir.trans run.pgdir)).2, stack]
      exact ⟨rfl, rfl⟩
  refine h.put (X := 0) (by rw [held.1, held.2, add_zero]; exact .refl _ _ _) (fun _ => rfl)
    ⟨fun present => by rw [stack]; exact (h.sound i).stack (used present), fun runs => ?_, fun gone => ?_⟩ (.inl pid) used
  · obtain ⟨d, run⟩ := (h.sound i).runs (live runs)
    exact ⟨d, run.update pgdir sz⟩
  · rcases state with same | ⟨after, _⟩
    · rw [pgdir]
      exact (h.sound i).left (by rwa [← same])
    · rw [gone] at after
      cases after

theorem killInv (h : Inv L s) (pid : Int) : Inv L (kill s pid).1 := by
  unfold kill
  cases slots.find? fun j => (s.proc j).pid = pid with
  | none => exact h
  | some j =>
    refine h.flag ?_ rfl rfl rfl rfl
    by_cases sleeps : (s.proc j).state = .sleeping
    · exact .inr (by simp [sleeps, alive])
    · exact .inl (by simp [sleeps])

theorem exitCases (ok : exit s i = .ok s') : i ≠ s.initproc ∧ s'.k = s.k ∧ s'.kernel = s.kernel ∧ s'.nextpid = s.nextpid ∧
    s'.cr0 = s.cr0 ∧ s'.initproc = s.initproc ∧
    ∀ j, (s'.proc j).pgdir = (s.proc j).pgdir ∧ (s'.proc j).kstack = (s.proc j).kstack ∧ (s'.proc j).pid = (s.proc j).pid ∧
      (s'.proc j).sz = (s.proc j).sz ∧ (s'.proc j).state = if j = i then .zombie else (s.proc j).state := by
  unfold exit at ok
  split at ok
  · cases ok
  · rename_i other
    cases ok
    refine ⟨other, rfl, rfl, rfl, rfl, rfl, fun j => ?_⟩
    by_cases same : j = i
    · simp only [same, if_true]
      split <;> simp
    · simp only [same, if_false]
      split <;> simp

theorem exitLeaves (accounts : ∃ lost, Holds L s lost 0 ∧ (s.k.oom = false → lost = 0))
    (sound : ∀ j, j ≠ i → Sound s.k.oom (s.proc j)) (live : alive (s.proc i).state = true)
    (table : (s.proc i).pgdir = some d) (sane : d.Sane) (good : s.k.oom = false → d.Ok) (stack : ∃ f, (s.proc i).kstack = some f) (pids : Pids s) (unprotected : on s.cr0 CR0_WP = false)
    (ok : exit s i = .ok s') : Inv L s' := by
  obtain ⟨_, kmem, kernel, next, cr0, _, slots⟩ := exitCases ok
  have held : ∀ j, (s'.proc j).owned = (s.proc j).owned ∧ (s'.proc j).shared = (s.proc j).shared := by
    intro j
    obtain ⟨pgdir, stack, _, _, state⟩ := slots j
    by_cases same : j = i
    · subst j
      rw [if_pos rfl] at state
      have table' := pgdir.trans table
      rw [(heldAlive (.inr state) table').1, (heldAlive (.inr state) table').2, (heldAlive (.inl live) table).1,
        (heldAlive (.inl live) table).2, stack]
      exact ⟨rfl, rfl⟩
    · rw [if_neg same] at state
      unfold Proc.owned Proc.shared
      rw [pgdir, stack, state]
      exact ⟨rfl, rfl⟩
  obtain ⟨gone, holds, none⟩ := accounts
  refine ⟨⟨gone, holds.same kmem (fun j => (held j).1) (fun j => (held j).2) kernel, by rw [kmem]; exact none⟩,
    fun j => ?_, ⟨?_, fun j => ?_, fun j used => ?_, fun j l => ?_⟩, by rw [cr0]; exact unprotected⟩
  · obtain ⟨pgdir, stack', _, sz, state⟩ := slots j
    by_cases same : j = i
    · subst j
      rw [if_pos rfl] at state
      refine ⟨fun _ => by rw [stack']; exact stack, fun runs => ?_, fun _ => ⟨d, pgdir.trans table, sane, fun fine => good (by rwa [← kmem])⟩⟩
      rw [state] at runs
      cases runs
    · rw [if_neg same] at state
      have before := sound j same
      refine ⟨fun used => ?_, fun runs => ?_, fun zombie => ?_⟩
      · rw [stack']
        exact before.stack (by rwa [← state])
      · obtain ⟨e, runs⟩ := before.runs (by rwa [← state])
        exact ⟨e, runs.update pgdir sz⟩
      · rw [pgdir]
        rw [kmem]
        exact before.left (by rwa [← state])
  · rw [next]
    exact pids.positive
  · rw [(slots j).2.2.1, next]
    exact pids.below j
  · rw [(slots j).2.2.1]
    apply pids.used
    intro unused
    obtain ⟨_, _, _, _, state⟩ := slots j
    by_cases same : j = i
    · subst j
      rw [unused] at live
      cases live
    · rw [if_neg same] at state
      exact used (state.trans unused)
  · rw [(slots j).2.2.1, (slots l).2.2.1]
    exact pids.differ j l

theorem aliveUsed {state : ProcState} (live : alive state = true) : state ≠ .unused := by
  rintro rfl
  cases live

theorem exitInv (h : Inv L s) (live : alive (s.proc i).state = true) (ok : exit s i = .ok s') : Inv L s' := by
  obtain ⟨d, run⟩ := (h.sound i).runs live
  exact exitLeaves h.accounts (fun j _ => h.sound j) live run.pgdir run.good.toSane (fun _ => run.good) ((h.sound i).stack (aliveUsed live))
    h.pids h.unprotected ok

/-! ### Faults -/

theorem resolvedInv (h : Inv L s) (live : alive (s.proc i).state = true) (run : Runs (s.proc i) d)
    (resolved : Resolved L s.k d v k' d') (low : v < userPages) (user : userOn (d.pte v) = true) :
    Runs {s.proc i with pgdir := some d'} d' ∧ Inv L (s.put i k' {s.proc i with pgdir := some d'}) := by
  have run' : Runs {s.proc i with pgdir := some d'} d' := by
    refine ⟨rfl, resolved.good, run.top, fun u small beyond => ?_⟩
    have other : u ≠ v := by
      rintro rfl
      have absent := run.above u small beyond
      rw [(Bool.and_eq_true_iff.mp user).1] at absent
      cases absent
    rw [resolved.same u other]
    exact run.above u small beyond
  exact ⟨run', h.putTable live run.pgdir resolved.alters.moves run' rfl rfl rfl⟩

theorem starvedHolds (live : alive (s.proc i).state = true) (run : Runs (s.proc i) d) (holds : Holds L s X Y)
    (low : v < userPages) (user : userOn (d.pte v) = true) (off : on (d.pte v) pteW = false)
    (more : 1 < s.k.refCnt (pageOf (d.pte v))) :
    Holds L (starved s i d v) X Y ∧ (d.set v (cowWord 0 (d.pte v))).Sane := by
  obtain ⟨page, u, shown, writable⟩ := cowWordSpec (f := 0) (by decide) (d.pte v)
  have word : Moves L s.k (wordOwned (d.pte v)) (wordShared (d.pte v)) (decPageRef {s.k with oom := true} (pageOf (d.pte v)))
      (wordOwned (cowWord 0 (d.pte v))) (wordShared (cowWord 0 (d.pte v))) := by
    have none : wordOwned (cowWord 0 (d.pte v)) = 0 ∧ wordShared (cowWord 0 (d.pte v)) = 0 := by
      unfold wordOwned wordShared
      simp [page, writable]
    rw [none.1, none.2, (sharedWord user off).1, (sharedWord user off).2]
    exact ⟨(decPageRefMoves (k := s.k) more).cells, fun bad => by cases bad⟩
  have set := Alters.set run.good.toSane low word (fun _ => u) (absentNot (Bool.and_eq_true_iff.mp shown).1)
  have before := heldAlive (.inl live) run.pgdir
  have start : Holds L s (0 + X) (0 + Y) := by rwa [zero_add, zero_add]
  have framed := set.moves.frameLeft (tablePage (s.proc i).kstack) 0
  rw [zero_add, zero_add] at framed
  have after := start.put (i := i) (p := {s.proc i with
      killed := true
      pgdir := some (lcr3 (d.set v (cowWord 0 (d.pte v))))}) (M := 0) (N := 0) (by
    have held := heldAlive (p := {s.proc i with
      killed := true
      pgdir := some (lcr3 (d.set v (cowWord 0 (d.pte v))))}) (.inl live) rfl
    rw [held.1, held.2, before.1, before.2, Pgdir.lcr3Owned, Pgdir.lcr3Shared, add_zero, add_zero, add_zero, add_zero]
    exact framed)
  rw [zero_add, zero_add] at after
  exact ⟨after.contents _ _, set.sane⟩

theorem accessRun (run : Runs p d) (write : Bool) : access p a write =
    if userOn (d.pte (a / pgSize)) && (!write || on (d.pte (a / pgSize)) pteW) then some (pageOf (d.pte (a / pgSize)))
    else none := by
  unfold access
  rw [run.pgdir]

theorem Inv.table (h : Inv L s) (live : alive (s.proc i).state = true ∨ (s.proc i).state = .zombie)
    (table : (s.proc i).pgdir = some d) : ∃ K U, Accounts L s.k (d.owned + K) (d.shared + U) := by
  obtain ⟨lost, holds, _⟩ := h.accounts
  have start : Holds L s (0 + lost) (0 + 0) := by rwa [zero_add, zero_add]
  exact ⟨_, _, start.table live table⟩

theorem exitZombie (ok : exit s i = .ok s') : (s'.proc i).state = .zombie := by
  obtain ⟨_, _, _, _, _, _, slots⟩ := exitCases ok
  simpa using (slots i).2.2.2.2

theorem Inv.contents (h : Inv L s) (free : k'.freelist = s.k.freelist) (size : k'.freePages = s.k.freePages)
    (cnt : k'.refCnt = s.k.refCnt) (oom : k'.oom = s.k.oom) : Inv L {s with k := k'} := by
  obtain ⟨lost, holds, none⟩ := h.accounts
  refine ⟨⟨lost, ?_, by rw [oom]; exact none⟩, fun i => (h.sound i).weaken oom.symm.trans, ⟨h.pids.positive, h.pids.below, h.pids.used, h.pids.differ⟩,
    h.unprotected⟩
  unfold Holds Sys.owned Sys.shared at *
  exact Ledger.Balanced.sameCells holds free size cnt

theorem userAccessCases {write : Bool} {r : Option Nat} (h : Inv L s) (runs : (s.proc i).state = .runnable)
    (run : Runs (s.proc i) d) (ok : userAccess s i a write = .ok (s', r)) :
    (s' = s ∧ r = access (s.proc i) a write ∧ r ≠ none) ∨
    (∃ k' d', s' = s.put i k' {s.proc i with pgdir := some d'} ∧ r = some (pageOf (d'.pte (a / pgSize))) ∧ write = true ∧
      userOn (d.pte (a / pgSize)) = true ∧ a / pgSize < userPages ∧ Resolved L s.k d (a / pgSize) k' d') ∨
    (r = none ∧ access (s.proc i) a write = none ∧ ∃ mid, exit mid i = .ok s' ∧
      (mid = s.put i s.k {s.proc i with killed := true} ∨
      (∃ k' d', mid = s.put i k' {s.proc i with pgdir := some d'} ∧ (s.proc i).killed = true ∧
        userOn (d.pte (a / pgSize)) = true ∧ a / pgSize < userPages ∧ Resolved L s.k d (a / pgSize) k' d') ∨
      (mid = starved s i d (a / pgSize) ∧ s.k.freelist = [] ∧ 1 < s.k.refCnt (pageOf (d.pte (a / pgSize))) ∧
        userOn (d.pte (a / pgSize)) = true ∧ on (d.pte (a / pgSize)) pteW = false ∧ a / pgSize < userPages))) := by
  unfold userAccess at ok
  cases first : access (s.proc i) a write with
  | some f =>
    rw [first] at ok
    cases ok
    exact .inl ⟨rfl, rfl, by simp⟩
  | none =>
    rw [first] at ok
    dsimp only at ok
    obtain ⟨s₁, trapped, ok⟩ := bindOk ok
    unfold trapFault at trapped
    obtain ⟨mid, handled, trapped⟩ := bindOk trapped
    have fault : (userOn (d.pte (a / pgSize)) && on (d.pte (a / pgSize)) pteW) = false := by
      rw [accessRun run] at first
      cases write <;> simp_all
    obtain ⟨K, U, before⟩ := h.table (.inl (by rw [runs]; rfl)) run.pgdir
    have gone : (mid.proc i).killed = true → exit mid i = .ok s₁ := fun killed => by rwa [if_pos killed] at trapped
    have done : exit mid i = .ok s₁ → s' = s₁ ∧ r = none := fun left => by
      rw [if_pos (exitZombie left)] at ok
      cases ok
      exact ⟨rfl, rfl⟩
    rcases cowHandlerCases h.pids runs run before fault handled with
      ⟨rfl, _⟩ | ⟨k', d', rfl, user, low, resolved⟩ | ⟨rfl, empty, more, user, low, _⟩
    · have left := gone (by rw [Sys.putSelf])
      obtain ⟨rfl, rfl⟩ := done left
      exact .inr (.inr ⟨rfl, rfl, _, left, .inl rfl⟩)
    · cases killed : (s.proc i).killed with
      | true =>
        have left := gone (by rw [Sys.putSelf]; exact killed)
        obtain ⟨rfl, rfl⟩ := done left
        exact .inr (.inr ⟨rfl, rfl, _, left, .inr (.inl ⟨k', d', rfl, rfl, user, low, resolved⟩)⟩)
      | false =>
        rw [if_neg (by rw [Sys.putSelf]; simp [killed])] at trapped
        cases trapped
        have mode : write = true := by
          rw [accessRun run] at first
          cases write <;> simp_all
        have again : access {s.proc i with pgdir := some d'} a write = some (pageOf (d'.pte (a / pgSize))) := by
          unfold access
          dsimp only
          rw [resolved.user, resolved.writable]
          simp
        rw [Sys.putSelf] at ok
        dsimp only at ok
        rw [if_neg (by rw [runs]; decide), again] at ok
        cases ok
        exact .inr (.inl ⟨k', d', rfl, rfl, mode, user, low, resolved⟩)
    · have left := gone (by unfold starved; rw [Sys.putSelf])
      obtain ⟨rfl, rfl⟩ := done left
      have off : on (d.pte (a / pgSize)) pteW = false := by rwa [user, Bool.true_and] at fault
      exact .inr (.inr ⟨rfl, rfl, _, left, .inr (.inr ⟨rfl, empty, more, user, off, low⟩)⟩)

theorem userAccessInv {write : Bool} {r : Option Nat} (h : Inv L s) (runs : (s.proc i).state = .runnable)
    (ok : userAccess s i a write = .ok (s', r)) : Inv L s' := by
  have live : alive (s.proc i).state = true := by rw [runs]; rfl
  obtain ⟨d, run⟩ := (h.sound i).runs live
  rcases userAccessCases h runs run ok with ⟨rfl, _⟩ | ⟨k', d', rfl, _, _, user, low, resolved⟩ | ⟨_, _, mid, left, cause⟩
  · exact h
  · exact (resolvedInv h live run resolved low user).2
  · rcases cause with rfl | ⟨k', d', rfl, _, user, low, resolved⟩ | ⟨rfl, _, more, user, off, low⟩
    · have flagged := h.flag (p := {s.proc i with killed := true}) (.inl rfl) rfl rfl rfl rfl
      exact exitInv flagged (by rw [Sys.putSelf]; exact live) left
    · exact exitInv (resolvedInv h live run resolved low user).2 (by rw [Sys.putSelf]; exact live) left
    · obtain ⟨lost, holds, _⟩ := h.accounts
      obtain ⟨holds, sane⟩ := starvedHolds live run holds low user off more
      refine exitLeaves (d := lcr3 (d.set (a / pgSize) (cowWord 0 (d.pte (a / pgSize))))) ⟨lost, holds, fun bad => ?_⟩
        (fun j other => ?_) ?_ ?_ ?_ (fun bad => ?_) ?_ ?_ ?_ left
      · cases bad
      · unfold starved
        rw [Sys.putOther other]
        exact (h.sound j).weaken fun bad => by cases bad
      · unfold starved
        rw [Sys.putSelf]
        exact live
      · unfold starved
        rw [Sys.putSelf]
      · exact ⟨⟨sane.bounded, sane.absent, sane.kernel, sane.user⟩, sane.tables⟩
      · cases bad
      · unfold starved
        rw [Sys.putSelf]
        exact (h.sound i).stack (aliveUsed live)
      · exact h.pids.put (.inl rfl) id
      · exact h.unprotected

theorem loadInv {r : Option UInt8} (h : Inv L s) (runs : (s.proc i).state = .runnable) (ok : load s i a = .ok (s', r)) :
    Inv L s' := by
  unfold load at ok
  obtain ⟨⟨s₁, o⟩, access, ok⟩ := bindOk ok
  have mid := userAccessInv h runs access
  cases o <;> cases ok <;> exact mid

theorem storeInv {b : UInt8} (h : Inv L s) (runs : (s.proc i).state = .runnable) (ok : store s i a b = .ok s') :
    Inv L s' := by
  unfold store at ok
  obtain ⟨⟨s₁, o⟩, access, ok⟩ := bindOk ok
  have mid := userAccessInv h runs access
  cases o with
  | none => cases ok; exact mid
  | some f => cases ok; exact mid.contents rfl rfl rfl rfl

/-! ### Stores by the kernel and pipes -/

def stored (d : Pgdir) (stores : List (Nat × UInt8)) (k : Kmem) : Kmem :=
  stores.foldl (fun k x => k.poke (pageOf (d.pte (x.1 / pgSize))) (x.1 % pgSize) x.2) k

theorem storedCells (d : Pgdir) (stores : List (Nat × UInt8)) (k : Kmem) : (stored d stores k).freelist = k.freelist ∧
    (stored d stores k).freePages = k.freePages ∧ (stored d stores k).refCnt = k.refCnt ∧
    (stored d stores k).oom = k.oom := by
  unfold stored
  induction stores generalizing k with
  | nil => exact ⟨rfl, rfl, rfl, rfl⟩
  | cons x rest ih => exact ih _

theorem killPgdir (pid : Int) (i : Slot) : ((kill s pid).1.proc i).pgdir = (s.proc i).pgdir := by
  unfold kill
  cases slots.find? fun j => (s.proc j).pid = pid with
  | none => rfl
  | some j =>
    by_cases same : i = j
    · subst j
      rw [Sys.putSelf]
    · rw [Sys.putOther same]

theorem absentHandler (table : (s.proc i).pgdir = some d) (absent : on (d.pte (a / pgSize)) pteP = false)
    (ok : cowHandler s i a = .ok s') : s' = (kill s (s.proc i).pid).1 := by
  by_cases found : d.pde (pdx (a / pgSize)) = none
  · rw [handlerAbsent table found] at ok
    split at ok
    · exact (Except.ok.inj ok).symm
    · cases ok
  · rw [handlerFinds table found, if_pos (.inl absent)] at ok
    exact (Except.ok.inj ok).symm

theorem supervisorPresent {cr0 w : Word} (unguarded : on cr0 CR0_WP = false) (present : on w pteP = true) :
    supervisorStore cr0 w = some (pageOf w) := by
  unfold supervisorStore
  rw [unguarded, present]
  simp

theorem supervisorAbsent {cr0 w : Word} (absent : on w pteP = false) : supervisorStore cr0 w = none := by
  unfold supervisorStore
  rw [absent]
  rfl

theorem kernelStoreReturns {b : UInt8} (unguarded : on s.cr0 CR0_WP = false) (table : (s.proc i).pgdir = some d)
    (ok : kernelStore s i a b = .ok s') : a / pgSize < userPages ∧ on (d.pte (a / pgSize)) pteP = true ∧
      s' = {s with k := s.k.poke (pageOf (d.pte (a / pgSize))) (a % pgSize) b} := by
  unfold kernelStore at ok
  rw [table] at ok
  dsimp only at ok
  split at ok
  · cases ok
  rename_i low
  cases present : on (d.pte (a / pgSize)) pteP with
  | true =>
    rw [supervisorPresent unguarded present] at ok
    cases ok
    exact ⟨by omega, rfl, rfl⟩
  | false =>
    rw [supervisorAbsent present] at ok
    obtain ⟨mid, handled, ok⟩ := bindOk ok
    have again : (mid.proc i).pgdir = some d := by
      rw [absentHandler table present handled, killPgdir, table]
    rw [again, Option.bind_some, supervisorAbsent present] at ok
    cases ok

theorem kernelStoresReturn {stores : List (Nat × UInt8)} (unguarded : on s.cr0 CR0_WP = false)
    (table : (s.proc i).pgdir = some d) (ok : kernelStores s i stores = .ok s') :
    (∀ x ∈ stores, x.1 / pgSize < userPages ∧ on (d.pte (x.1 / pgSize)) pteP = true) ∧
      s' = {s with k := stored d stores s.k} := by
  unfold kernelStores at ok
  induction stores generalizing s with
  | nil =>
    cases ok
    exact ⟨by simp, rfl⟩
  | cons x rest ih =>
    rw [List.foldlM_cons] at ok
    obtain ⟨mid, first, later⟩ := bindOk ok
    obtain ⟨low, present, rfl⟩ := kernelStoreReturns unguarded table first
    obtain ⟨all, same⟩ := ih (s := {s with k := s.k.poke (pageOf (d.pte (x.1 / pgSize))) (x.1 % pgSize) x.2}) unguarded table later
    refine ⟨fun y mem => ?_, same⟩
    rcases List.mem_cons.mp mem with rfl | tail
    · exact ⟨low, present⟩
    · exact all y tail

theorem kernelStoresInv {stores : List (Nat × UInt8)} (h : Inv L s) (live : alive (s.proc i).state = true)
    (ok : kernelStores s i stores = .ok s') : Inv L s' ∧ s'.proc = s.proc := by
  obtain ⟨d, run⟩ := (h.sound i).runs live
  obtain ⟨_, rfl⟩ := kernelStoresReturn h.unprotected run.pgdir ok
  obtain ⟨free, size, cnt, oom⟩ := storedCells d stores s.k
  exact ⟨h.contents free size cnt oom, rfl⟩

theorem holdsPipes : Holds L s X Y ↔ Accounts L s.k
    ((s.pipes.map Pipe.page : List Nat) + (∑ i, (s.proc i).owned + (s.kpgdir.tables + s.bootstacks) + X))
    (0 + (∑ i, (s.proc i).shared + Y)) := by
  unfold Holds Sys.owned Sys.shared Sys.kernel
  have split : ∀ P T M B : Multiset Nat, P + (T + (B + M)) + X = M + (P + (T + B) + X) := by
    intro P T M B
    rw [← add_assoc T, ← add_assoc P, add_right_comm, add_comm]
  rw [split, zero_add]

theorem Inv.putPipes {ps : List Pipe} (h : Inv L s)
    (moves : Moves L s.k (s.pipes.map Pipe.page) 0 k' (ps.map Pipe.page) 0) : Inv L {s with k := k', pipes := ps} := by
  obtain ⟨lost, holds, none⟩ := h.accounts
  exact ⟨⟨lost, holdsPipes.mpr (moves.accounts (holdsPipes.mp holds)), fun fine => none (moves.oom fine)⟩,
    fun i => (h.sound i).weaken moves.oom, ⟨h.pids.positive, h.pids.below, h.pids.used, h.pids.differ⟩, h.unprotected⟩

def Repiped (L : Layout) (s s' : Sys) : Prop := ∃ k' ps, s' = {s with k := k', pipes := ps} ∧
  Moves L s.k (s.pipes.map Pipe.page) 0 k' (ps.map Pipe.page) 0

theorem Inv.repiped (h : Inv L s) (change : Repiped L s s') : Inv L s' ∧ s'.proc = s.proc := by
  obtain ⟨k', ps, rfl, moves⟩ := change
  exact ⟨h.putPipes moves, rfl⟩

theorem Repiped.trans {s'' : Sys} (first : Repiped L s s') (second : Repiped L s' s'') : Repiped L s s'' := by
  obtain ⟨k₁, ps, rfl, one⟩ := first
  obtain ⟨k₂, qs, rfl, two⟩ := second
  exact ⟨k₂, qs, rfl, one.trans two⟩

theorem pipeallocRepiped (s : Sys) : Repiped L s (pipealloc s).1 := by
  unfold pipealloc
  cases taken : kalloc s.k with
  | mk o k' =>
  cases o with
  | none => exact ⟨k', s.pipes, rfl, kallocShort taken _ _⟩
  | some f =>
    refine ⟨k', s.pipes ++ [⟨f, fun _ => 0, 0, 0, true, true⟩], rfl, ?_⟩
    have framed := (kallocMoves (L := L) taken).frameLeft (s.pipes.map Pipe.page : List Nat) 0
    rw [add_zero, add_zero] at framed
    rw [List.map_append, ← Multiset.coe_add]
    exact framed

theorem pagesSet {ps : List Pipe} {m : Nat} {p q : Pipe} (found : ps[m]? = some p) (page : q.page = p.page) :
    (ps.set m q).map Pipe.page = ps.map Pipe.page := by
  obtain ⟨inside, here⟩ := List.getElem?_eq_some_iff.mp found
  have low : m < (ps.map Pipe.page).length := by simpa using inside
  have same : q.page = (ps.map Pipe.page)[m] := by rw [List.getElem_map, here, page]
  rw [List.map_set, same, List.set_getElem_self]

theorem setPipeRepiped {m : Nat} {p q : Pipe} (found : s.pipes[m]? = some p) (page : q.page = p.page) :
    Repiped L s {s with pipes := s.pipes.set m q} :=
  ⟨s.k, s.pipes.set m q, rfl, by rw [pagesSet found page]; exact .refl _ _ _⟩

theorem pipecloseRepiped {m : Nat} {writable : Bool} (ok : pipeclose L s m writable = .ok s') : Repiped L s s' := by
  unfold pipeclose at ok
  split at ok
  · cases ok
  rename_i p found
  split at ok
  · cases ok
  split at ok
  · obtain ⟨k', freed, last⟩ := bindOk ok
    cases last
    refine ⟨k', s.pipes.eraseIdx m, rfl, ?_⟩
    obtain ⟨inside, here⟩ := List.getElem?_eq_some_iff.mp found
    have perm := (List.getElem_cons_eraseIdx_perm inside).map Pipe.page
    rw [here, List.map_cons] at perm
    rw [← Multiset.coe_eq_coe.mpr perm, ← Multiset.cons_coe, ← Multiset.singleton_add]
    have framed := (kfreeOwned freed).frame ((s.pipes.eraseIdx m).map Pipe.page) 0
    rwa [zero_add, zero_add] at framed
  · cases ok
    exact setPipeRepiped found (shutPage p writable)

theorem pipereadInv {m addr : Nat} {n : Word} {r : Option Nat} (h : Inv L s) (live : alive (s.proc i).state = true)
    (ok : piperead s i m addr n = .ok (s', r)) : Inv L s' ∧ s'.proc = s.proc := by
  unfold piperead at ok
  split at ok
  · cases ok
  rename_i p found
  split at ok
  · split at ok <;> cases ok
    exact ⟨h, rfl⟩
  · obtain ⟨mid, stores, last⟩ := bindOk ok
    cases last
    obtain ⟨d, run⟩ := (h.sound i).runs live
    obtain ⟨_, rfl⟩ := kernelStoresReturn h.unprotected run.pgdir stores
    exact ((kernelStoresInv h live stores).1).repiped (setPipeRepiped found rfl)

theorem sysReadInv {file : File} {addr : Nat} {n : Word} {r : Option Nat} (h : Inv L s)
    (live : alive (s.proc i).state = true) (ok : sysRead s i file addr n = .ok (s', r)) : Inv L s' ∧ s'.proc = s.proc := by
  unfold sysRead at ok
  split at ok
  · unfold fileread at ok
    cases file with
    | pipe m => exact pipereadInv h live ok
    | inode ip off =>
      obtain ⟨mid, stores, last⟩ := bindOk ok
      cases last
      exact kernelStoresInv h live stores
  · cases ok
    exact ⟨h, rfl⟩

theorem sysFstatInv {ip : Inode} {st : Nat} {r : Bool} (h : Inv L s) (live : alive (s.proc i).state = true)
    (ok : sysFstat s i ip st = .ok (s', r)) : Inv L s' ∧ s'.proc = s.proc := by
  unfold sysFstat at ok
  split at ok
  · obtain ⟨mid, stores, last⟩ := bindOk ok
    cases last
    exact kernelStoresInv h live stores
  · cases ok
    exact ⟨h, rfl⟩

theorem sysPipeInv {fd : Nat} {files : Bool} {fds : Option (Nat × Nat)} {r : Bool} (h : Inv L s)
    (live : alive (s.proc i).state = true) (ok : sysPipe L s i fd files fds = .ok (s', r)) :
    Inv L s' ∧ s'.proc = s.proc := by
  have made := h.repiped (pipeallocRepiped (L := L) s)
  unfold sysPipe at ok
  split at ok
  · cases ok
    exact ⟨h, rfl⟩
  · split at ok
    · rename_i mid alloc
      rw [alloc] at made
      cases ok
      exact made
    · rename_i mid alloc
      rw [alloc] at made
      split at ok
      · obtain ⟨s₁, first, ok⟩ := bindOk ok
        obtain ⟨s₂, second, ok⟩ := bindOk ok
        cases ok
        have closed := made.1.repiped ((pipecloseRepiped first).trans (pipecloseRepiped second))
        exact ⟨closed.1, closed.2.trans made.2⟩
      · obtain ⟨s₁, stores, ok⟩ := bindOk ok
        cases ok
        have last := kernelStoresInv made.1 (by rw [made.2]; exact live) stores
        exact ⟨last.1, last.2.trans made.2⟩

theorem pipeFillPage {left addr : Nat} {p q : Pipe} {rest : Nat} (ok : pipeFill s i left addr p = .ok (q, rest)) :
    q.page = p.page := by
  induction left generalizing addr p with
  | zero =>
    cases ok
    rfl
  | succ left ih =>
    unfold pipeFill at ok
    split at ok
    · cases ok
      rfl
    · obtain ⟨b, _, later⟩ := bindOk ok
      exact ih (p := {p with
        data := Function.update p.data (p.nwrite % pipeSize) b
        nwrite := (p.nwrite + 1) % 2 ^ 32}) later

theorem sysWriteInv {m addr : Nat} {n : Word} {r : Option Nat} (h : Inv L s) (ok : sysWrite s i m addr n = .ok (s', r)) :
    Inv L s' ∧ s'.proc = s.proc := by
  unfold sysWrite at ok
  split at ok
  · unfold pipewrite at ok
    split at ok
    · cases ok
    rename_i p found
    obtain ⟨⟨q, rest⟩, filled, ok⟩ := bindOk ok
    have kept := h.repiped (setPipeRepiped found (pipeFillPage filled))
    dsimp only at ok
    split at ok
    · cases ok
      exact kept
    · split at ok <;> cases ok
      exact kept
  · cases ok
    exact ⟨h, rfl⟩

end OpSys.Cow
