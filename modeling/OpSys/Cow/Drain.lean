import OpSys.Cow.Start

/-! Memory can be used up: from the boot on there is a run that leaves as few
free pages as one likes. -/
namespace OpSys.Cow
open OpSys.Xv6 OpSys.Transition Finset

variable {L : Layout} {k k' : Kmem} {d d' : Pgdir} {s s' : Sys} {i j : Slot} {sz : Nat} {K U : Multiset Nat}

structure Ready (s : Sys) (i : Slot) : Prop where
  runs : (s.proc i).state = .runnable
  spared : (s.proc i).killed = false
  full : ∃ d, (s.proc i).pgdir = some d ∧ ∀ v, v * pgSize < (s.proc i).sz → on (d.pte v) pteP = true

theorem Ready.live (h : Ready s i) : alive (s.proc i).state = true := by rw [h.runs]; rfl

theorem Ready.fit (inv : Inv L s) (h : Ready s i) : ∃ d, Runs (s.proc i) d ∧
    ∀ v, v * pgSize < (s.proc i).sz → on (d.pte v) pteP = true := by
  obtain ⟨d, table, full⟩ := h.full
  obtain ⟨e, run⟩ := (inv.sound i).runs h.live
  cases table.symm.trans run.pgdir
  exact ⟨d, run, full⟩

theorem Booted.ready (h : Booted L s) : Ready s s.initproc := by
  obtain ⟨f, d, first, image⟩ := h.first
  refine ⟨by rw [first], by rw [first], d, by rw [first], fun v small => ?_⟩
  rw [first] at small
  dsimp only at small
  rw [image.filled v (by unfold pgSize userPages at *; omega)]
  exact decide_eq_true small

theorem actingRuns {act : Except Stop (Sys × Out)} (runs : (s.proc i).state = .runnable) : acting s i act = act := if_pos runs

theorem syscallRuns {body : Sys → Except Stop (Sys × Option Int)} {r : Option Int} (ran : body s = .ok (s', r))
    (before : (s.proc i).killed = false) (after : (s'.proc i).killed = false) :
    syscall s i body = .ok (s', .value r) := by
  unfold syscall
  rw [if_neg (by rw [before]; decide), ran, okBind]
  dsimp only
  rw [if_neg (by rw [after]; decide)]
  rfl

theorem wantedLength (a n : Nat) (fits : a + n ≤ userPages) : (wanted (a * pgSize) ((a + n) * pgSize)).length = n := by
  have start : pgRoundUp (a * pgSize) = a * pgSize := by
    rw [pgRoundUpBelow (by unfold userTop pgSize userPages at *; omega)]
    unfold pgSize
    omega
  unfold wanted pagesIn
  rw [List.length_range', start]
  unfold pgSize
  omega

def pagesWord (n : Nat) : Word := BitVec.ofNat 32 (n * pgSize)

theorem pagesWordInt {n : Nat} (fits : n ≤ userPages) : (pagesWord n).toInt = n * pgSize ∧
    (pagesWord n).toNat = n * pgSize := by
  have small : n * pgSize < 2 ^ 31 := by
    unfold pgSize userPages at *
    omega
  have value : (pagesWord n).toNat = n * pgSize := by
    unfold pagesWord
    rw [BitVec.toNat_ofNat, Nat.mod_eq_of_lt (by omega)]
  refine ⟨?_, value⟩
  rw [BitVec.toInt_eq_toNat_of_lt (by omega), value]
  push_cast
  rfl

theorem pagesGrown {a n : Nat} (fits : a + n ≤ userPages) : grown (a * pgSize) (pagesWord n) = (a + n) * pgSize := by
  rw [grown, (pagesWordInt (n := n) (by omega)).2]
  unfold pgSize userPages at *
  omega

theorem resizedMore {a n sz' : Nat} {flag : Bool} (spec : Resized L k d (a * pgSize) (pagesWord n) k' d' sz' flag)
    (some : 0 < n) (fits : a + n ≤ userPages) (room : n ≤ k.freelist.length) : flag = true ∧ sz' = (a + n) * pgSize ∧
      ∃ d₁, d' = lcr3 d₁ ∧ Grows L k d k' d₁ (wanted (a * pgSize) ((a + n) * pgSize)) := by
  have positive : 0 < n * pgSize := Nat.mul_pos some (by decide)
  have more : (a + n) * pgSize = a * pgSize + n * pgSize := Nat.add_mul a n pgSize
  have grow : 0 < (pagesWord n).toInt := by
    rw [(pagesWordInt (n := n) (by omega)).1]
    exact_mod_cast positive
  have top : (a + n) * pgSize ≤ userTop := by
    unfold pgSize userTop userPages at *
    omega
  have alloced : ∀ {k₁ d₁ r}, Allocated L k d (a * pgSize) (grown (a * pgSize) (pagesWord n)) k₁ d₁ r →
      r = (a + n) * pgSize ∧ Grows L k d k₁ d₁ (wanted (a * pgSize) ((a + n) * pgSize)) := by
    intro k₁ d₁ r alloc
    rw [pagesGrown fits] at alloc
    cases alloc with
    | refused high => omega
    | smaller _ less => omega
    | undone _ _ undone =>
      have short := undone.short
      rw [wantedLength a n fits] at short
      omega
    | grown _ _ grows => exact ⟨rfl, grows⟩
  cases spec with
  | more _ alloc => exact ⟨rfl, (alloced alloc).1, _, rfl, (alloced alloc).2⟩
  | refused _ alloc =>
    have none := (alloced alloc).1
    omega
  | less sign => omega
  | emptied sign => omega
  | same sign => omega

theorem sbrkRuns (copy : Copier) {a n : Nat} (inv : Inv L s) (ready : Ready s i) (size : (s.proc i).sz = a * pgSize)
    (some : 0 < n) (fits : a + n ≤ userPages) (room : n ≤ s.k.freelist.length) :
    ∃ s', step copy L s (.user i (.sbrk (pagesWord n))) = .ok (s', .value (.some (a * pgSize : Nat))) ∧
      s'.k.freelist.length + n = s.k.freelist.length ∧ Ample s.k s'.k ∧ Ready s' i ∧ (s'.proc i).sz = (a + n) * pgSize ∧
      s'.initproc = s.initproc ∧ ∀ j, j ≠ i → s'.proc j = s.proc j := by
  obtain ⟨d, run, full⟩ := ready.fit inv
  obtain ⟨K, U, before⟩ := inv.table (.inl ready.live) run.pgdir
  obtain ⟨k', d', sz', flag, ran, spec⟩ := growprocSpec (n := pagesWord n) run before
  rw [size] at spec full
  obtain ⟨rfl, rfl, d₁, rfl, grows⟩ := resizedMore spec some fits room
  have taken := grows.taken
  rw [wantedLength a n fits] at taken
  refine ⟨s.put i k' {s.proc i with
      pgdir := .some (lcr3 d₁)
      sz := (a + n) * pgSize}, ?_, by rw [Sys.putK]; omega, grows.ample, ⟨?_, ?_, lcr3 d₁, ?_, fun v small => ?_⟩, ?_, rfl,
    fun j other => Sys.putOther other⟩
  · refine (actingRuns ready.runs).trans ?_
    unfold userStep
    refine syscallRuns ?_ ready.spared (by rw [Sys.putSelf]; exact ready.spared)
    unfold count sysSbrk
    rw [ran, okBind, size]
    rfl
  · rw [Sys.putSelf]
    exact ready.runs
  · rw [Sys.putSelf]
    exact ready.spared
  · rw [Sys.putSelf]
  · rw [Sys.putSelf] at small
    dsimp only at small
    rw [Pgdir.lcr3Pte]
    by_cases mem : v ∈ wanted (a * pgSize) ((a + n) * pgSize)
    · obtain ⟨f, _, word⟩ := grows.fresh v mem
      rw [word, userWordP]
    · rw [grows.same v mem]
      refine full v ?_
      rw [memWanted, pgRoundUpLe (by unfold userTop pgSize userPages at *; omega)] at mem
      omega
  · rw [Sys.putSelf]

def Twins (s : Sys) (i j : Slot) (sz : Nat) : Prop := ∃ d c, (s.proc i).pgdir = some d ∧ (s.proc j).pgdir = some c ∧
  ∀ v, v * pgSize < sz → userOn (d.pte v) = true ∧ on (d.pte v) pteW = false ∧ userOn (c.pte v) = true ∧
    pageOf (c.pte v) = pageOf (d.pte v)

/-- The slots after a `fork` by the process in slot `i`, whose child is in slot `j`. -/
structure Branched (s : Sys) (i j : Slot) (d c : Pgdir) (s' : Sys) : Prop where
  parent : s'.proc i = {s.proc i with pgdir := some d}
  state : (s'.proc j).state = .runnable
  size : (s'.proc j).sz = (s.proc i).sz
  killed : (s'.proc j).killed = (s.proc j).killed
  child : (s'.proc j).pgdir = some c
  others : ∀ l, l ≠ i → l ≠ j → s'.proc l = s.proc l

theorem forkBranched {s : Sys} {d c : Pgdir} (other : i ≠ j) (k : Kmem) : Branched s i j d c
    ((s.put i k {s.proc i with pgdir := some d}).put j k (forked (s.put i k {s.proc i with pgdir := some d}) i j c)) := by
  refine ⟨?_, ?_, ?_, ?_, ?_, fun l away apart => ?_⟩
  · rw [Sys.putOther other, Sys.putSelf]
  · rw [Sys.putSelf]
    rfl
  · rw [Sys.putSelf, forked, Sys.putSelf]
  · rw [Sys.putSelf, forked, Sys.putOther other.symm]
  · rw [Sys.putSelf]
    rfl
  · rw [Sys.putOther apart, Sys.putOther away]

theorem forkMakes {copy : Copier} {s₁ : Sys} {k₁ k₂ : Kmem} {d d₂ c : Pgdir} {f : Nat} (ready : Ready s i)
    (alloc : allocproc s = (some j, s₁)) (claim : s₁ = s.claim j k₁ (claimed s j (some f))) (table : (s.proc i).pgdir = some d)
    (copied : copy L k₁ d (s.proc i).sz = .ok (k₂, d₂, some c)) :
    ∃ s' pid, step copy L s (.user i .fork) = .ok (s', .value (some pid)) ∧ Branched s i j d₂ c s' ∧ s'.k = k₂ ∧
      s'.initproc = s.initproc := by
  obtain ⟨same, used⟩ := allocprocOthers alloc (aliveUsed ready.live)
  have other : i ≠ j := fun eq => used (by rw [eq])
  have kmem : s₁.k = k₁ := by rw [claim]; rfl
  have embryo : s₁.proc j = claimed s j (some f) := by rw [claim, claimSelf]
  have branched := forkBranched (s := s₁) (d := d₂) (c := c) other k₂
  have here : _ = {s.proc i with pgdir := some d₂} := branched.parent.trans (by rw [same])
  refine ⟨_, (forked (s₁.put i k₂ {s₁.proc i with pgdir := some d₂}) i j c).pid, ?_, ⟨here, branched.state, by rw [branched.size, same], by rw [branched.killed, embryo]; rfl, branched.child,
    fun l away apart => by rw [branched.others l away apart, claim, claimOther apart]⟩, rfl, by rw [claim]; rfl⟩
  refine (actingRuns ready.runs).trans ?_
  unfold userStep
  refine syscallRuns ?_ ready.spared (by rw [here]; exact ready.spared)
  unfold fork
  rw [alloc]
  dsimp only
  rw [same, table, embryo, kmem]
  dsimp only [claimed]
  rw [copied, okBind]
  rfl

theorem Branched.readyParent {d c : Pgdir} (h : Branched s i j d c s') (ready : Ready s i)
    (full : ∀ v, v * pgSize < (s.proc i).sz → on (d.pte v) pteP = true) : Ready s' i := by
  refine ⟨?_, ?_, d, ?_, ?_⟩ <;> rw [h.parent]
  · exact ready.runs
  · exact ready.spared
  · exact full

theorem Branched.readyChild {d c : Pgdir} (h : Branched s i j d c s') (idle : (s.proc j).killed = false)
    (full : ∀ v, v * pgSize < (s.proc i).sz → on (c.pte v) pteP = true) : Ready s' j :=
  ⟨h.state, h.killed.trans idle, c, h.child, by rw [h.size]; exact full⟩

theorem forkRuns (inv : Inv L s) (ready : Ready s i) (unused : ∃ j, (s.proc j).state = .unused)
    (room : 14 ≤ s.k.freelist.length) : ∃ s' j pid, step cowuvm L s (.user i .fork) = .ok (s', .value (some pid)) ∧ (s.proc j).state = .unused ∧
      s'.k.freelist.length + 14 = s.k.freelist.length ∧ Ample s.k s'.k ∧ Ready s' i ∧
      ((s.proc j).killed = false → Ready s' j) ∧ (s'.proc i).sz = (s.proc i).sz ∧ (s'.proc j).sz = (s.proc i).sz ∧ (∀ l, l ≠ i → l ≠ j → s'.proc l = s.proc l) ∧
      s'.initproc = s.initproc ∧ Twins s' i j (s.proc i).sz := by
  obtain ⟨j, k₁, f, free, alloc, one, oom, stack⟩ := allocprocRuns (L := L) unused (by omega)
  have mid := allocprocInv inv alloc
  obtain ⟨d, run, full⟩ := ready.fit inv
  obtain ⟨lost, holds, _⟩ := mid.accounts
  obtain ⟨k₂, d₂, r, copied⟩ := cowuvmRuns (L := L) (k := k₁) run.top run.good full
  rcases cowuvmCases run.top run.good copied with ⟨k₃, c, d₃, c', moves, table, _, ample, _, shares, rfl, rfl⟩ | ⟨short, _, _⟩
  · have thirteen := (table.unshared ▸ moves).spent (L := L) (K := (s.claim j k₁ (claimed s j (some f))).owned + lost)
      (U := (s.claim j k₁ (claimed s j (some f))).shared + 0) (by rw [zero_add]; exact holds)
    rw [table.card, Multiset.card_zero] at thirteen
    obtain ⟨s', pid, forks, branched, rfl, first⟩ := forkMakes ready alloc rfl run.pgdir copied
    refine ⟨s', j, pid, forks, free, by rw [shares.free]; omega, fun more => ?_, branched.readyParent ready fun v small => ?_,
      fun idle => branched.readyChild idle fun v small => ?_, by rw [branched.parent], branched.size, branched.others, first,
      lcr3 d₃, c', by rw [branched.parent], branched.child, fun v small => ?_⟩
    · have left : k₃.freelist ≠ [] := by rwa [← shares.free]
      exact ⟨fun none => by rw [none] at one; simp at one, by rw [shares.oom, (ample left).2, oom]⟩
    · rw [Pgdir.lcr3Pte, shares.present v]
      exact full v small
    · exact (Bool.and_eq_true_iff.mp (shares.copied v (memBelow.mpr small)).1).1
    · rw [Pgdir.lcr3Pte]
      exact shares.twin (memBelow.mpr small) (run.good.toSane.userOn (pagesInLow 0 run.top v (memBelow.mpr small)) (full v small))
  · rcases setupkvmCount holds with ⟨_, _, runs, _⟩ | ⟨_, _, runs, _, _, few⟩
    · cases short.symm.trans runs
    · rw [claimK] at few
      omega

/-! ### Loads and stores at page 0 -/

theorem loadRuns (copy : Copier) (inv : Inv L s) (ready : Ready s i) (some : 0 < (s.proc i).sz) :
    ∃ c, step copy L s (.user i (.load 0)) = .ok (s, .byte c) := by
  obtain ⟨d, run, full⟩ := ready.fit inv
  have user := run.good.toSane.userOn (by decide) (full 0 (by omega))
  refine ⟨s.k.mem (pageOf (d.pte 0)) 0, (actingRuns ready.runs).trans ?_⟩
  have here : access (s.proc i) 0 false = .some (pageOf (d.pte 0)) := by
    rw [accessRun run]
    simpa using user
  have loads : load s i 0 = .ok (s, .some (s.k.mem (pageOf (d.pte 0)) 0)) := by
    unfold load userAccess
    rw [here]
    rfl
  unfold userStep
  dsimp only
  rw [loads]
  rfl

/-- A write fault at a shared page that finds no page for the copy. -/
def CopyFails (s : Sys) (i : Slot) (a : Nat) : Prop := s.k.freelist = [] ∧ ∃ d, (s.proc i).pgdir = some d ∧
  userOn (d.pte (a / pgSize)) = true ∧ on (d.pte (a / pgSize)) pteW = false ∧ 1 < s.k.refCnt (pageOf (d.pte (a / pgSize)))

theorem sharedHandler (run : Runs (s.proc i) d) (user : userOn (d.pte (a / pgSize)) = true)
    (off : on (d.pte (a / pgSize)) pteW = false) (enough : ¬ CopyFails s i a) : ∃ s', cowHandler s i a = .ok s' ∧ s'.k.oom = s.k.oom := by
  rw [handlerFinds run.pgdir (userFound run.good.toSane user)]
  split
  · exact ⟨_, rfl, by unfold Cow.kill; split <;> rfl⟩
  split
  · exact ⟨_, rfl, rfl⟩
  · rename_i more
    cases taken : kalloc s.k with
    | mk o k' =>
    cases o with
    | some g => exact ⟨_, rfl, show k'.oom = s.k.oom by rw [(kallocSome taken).2]⟩
    | none =>
      refine absurd ⟨(kallocNone taken).1, d, run.pgdir, user, off, ?_⟩ enough
      unfold refCount at more
      omega

theorem sharedAccess (inv : Inv L s) (runs : (s.proc i).state = .runnable) (spared : (s.proc i).killed = false)
    (run : Runs (s.proc i) d) (user : userOn (d.pte (a / pgSize)) = true) (off : on (d.pte (a / pgSize)) pteW = false)
    (enough : ¬ CopyFails s i a) : ∃ k' d', Resolved L s.k d (a / pgSize) k' d' ∧ k'.oom = s.k.oom ∧
      userAccess s i a true = .ok (s.put i k' {s.proc i with pgdir := some d'}, some (pageOf (d'.pte (a / pgSize)))) := by
  obtain ⟨mid, handled, oom⟩ := sharedHandler run user off enough
  obtain ⟨K, U, before⟩ := inv.table (.inl (by rw [runs]; rfl)) run.pgdir
  rcases cowHandlerCases inv.pids runs run before (by rw [off, Bool.and_false]) handled with
    ⟨_, bad⟩ | ⟨k', d', rfl, _, _, resolved⟩ | ⟨_, empty, more, _⟩
  · rw [user] at bad
    cases bad
  · refine ⟨k', d', resolved, oom, ?_⟩
    have first : access (s.proc i) a true = none := by
      rw [accessRun run, user, off]
      rfl
    have again : access {s.proc i with pgdir := some d'} a true = some (pageOf (d'.pte (a / pgSize))) := by
      unfold access
      dsimp only
      rw [resolved.user, resolved.writable]
      rfl
    have trapped : trapFault s i a = .ok (s.put i k' {s.proc i with pgdir := some d'}) := by
      unfold trapFault
      rw [handled, okBind, Sys.putSelf, if_neg (by rw [spared]; decide)]
      rfl
    unfold userAccess
    rw [first]
    dsimp only
    rw [trapped, okBind, Sys.putSelf, if_neg (by rw [runs]; decide), again]
    rfl
  · exact absurd ⟨empty, d, run.pgdir, user, off, more⟩ enough

/-- A store to page 0 of a process that has one. -/
theorem storeRuns (copy : Copier) {b : UInt8} (inv : Inv L s) (ready : Ready s i) (some : 0 < (s.proc i).sz)
    (enough : ¬ CopyFails s i 0) : ∃ s', step copy L s (.user i (.store 0 b)) = .ok (s', .done) ∧ s'.k.oom = s.k.oom ∧
      Ready s' i ∧ (s'.proc i).sz = (s.proc i).sz ∧ (∀ l, l ≠ i → s'.proc l = s.proc l) ∧ s'.initproc = s.initproc := by
  obtain ⟨d, run, full⟩ := ready.fit inv
  have user := run.good.toSane.userOn (by decide) (full 0 (by omega))
  have stored : ∀ {t f}, userAccess s i 0 true = .ok (t, .some f) →
      step copy L s (.user i (.store 0 b)) = .ok ({t with k := t.k.poke f 0 b}, .done) := fun here => by
    refine (actingRuns ready.runs).trans ?_
    unfold userStep store
    dsimp only
    rw [here]
    rfl
  cases writable : on (d.pte 0) pteW with
  | true =>
    have here : userAccess s i 0 true = .ok (s, .some (pageOf (d.pte 0))) := by
      unfold userAccess
      rw [accessRun run, show userOn (d.pte (0 / pgSize)) = true from user, show on (d.pte (0 / pgSize)) pteW = true from writable]
      rfl
    exact ⟨_, stored here, rfl, ⟨ready.runs, ready.spared, ready.full⟩, rfl, fun _ _ => rfl, rfl⟩
  | false =>
    obtain ⟨k', d', resolved, oom, here⟩ := sharedAccess inv ready.runs ready.spared run user writable enough
    refine ⟨_, stored here, oom, ?_, ?_, fun l other => Sys.putOther other, rfl⟩
    · refine ⟨?_, ?_, d', ?_, ?_⟩ <;> dsimp only <;> rw [Sys.putSelf]
      · exact ready.runs
      · exact ready.spared
      · intro v small
        by_cases same : v = 0 / pgSize
        · rw [same]
          exact (Bool.and_eq_true_iff.mp resolved.user).1
        · rw [resolved.same v same]
          exact full v small
    · dsimp only
      rw [Sys.putSelf]

/-! ### Using memory up -/

structure Parent (L : Layout) (s : Sys) (i : Slot) : Prop where
  reach : (machine cowuvm L).Reachable s
  fine : s.k.oom = false
  ready : Ready s i
  size : (s.proc i).sz = pgSize
  idle : ∀ j, (s.proc j).state = .unused → (s.proc j).killed = false
  first : s.initproc = i

def Sys.unused (s : Sys) : Finset Slot := univ.filter fun j => (s.proc j).state = .unused

theorem memUnused : j ∈ s.unused ↔ (s.proc j).state = .unused := by
  unfold Sys.unused
  rw [mem_filter]
  exact and_iff_right (mem_univ j)

theorem ampleFine (ample : Ample k k') (more : 0 < k'.freelist.length) (fine : k.oom = false) : k'.oom = false := by
  have left : k'.freelist ≠ [] := fun none => by rw [none] at more; cases more
  rw [(ample left).2, fine]

theorem Parent.child {n : Nat} (h : Parent L s i) (unused : s.unused.Nonempty) (some : 0 < n) (fits : n < userPages)
    (room : 14 + n < s.k.freelist.length) : ∃ s', Parent L s' i ∧ s'.k.freelist.length + (14 + n) = s.k.freelist.length ∧
      s'.unused.card + 1 = s.unused.card := by
  have inv := reachInv cowCopies h.reach
  obtain ⟨j, here⟩ := unused
  obtain ⟨s₁, j, pid, forks, free, one, ample, ready, child, size, size', others, first, _⟩ :=
    forkRuns inv h.ready ⟨j, memUnused.mp here⟩ (by omega)
  have child := child (h.idle j free)
  have reach₁ : (machine cowuvm L).Reachable s₁ := reachStep h.reach forks
  obtain ⟨s₂, grows, two, ample₂, ready₂, _, first₂, others₂⟩ := sbrkRuns cowuvm (a := 1) (n := n)
    (reachInv cowCopies reach₁) child (by rw [size', h.size, Nat.one_mul]) some (by omega) (by omega)
  have other : i ≠ j := by
    rintro rfl
    rw [h.ready.runs] at free
    cases free
  have parent := others₂ i other
  have states : ∀ l, (s₂.proc l).state = .unused ↔ l ≠ j ∧ (s.proc l).state = .unused := by
    intro l
    by_cases same : l = j
    · subst l
      rw [ready₂.runs]
      simp
    · rw [others₂ l same]
      by_cases caller : l = i
      · subst l
        rw [ready.runs, h.ready.runs]
        simp
      · rw [others l caller same]
        exact (and_iff_right same).symm
  refine ⟨s₂, ⟨reachStep reach₁ grows, ?_, ⟨?_, ?_, ?_⟩, ?_, fun l => ?_, by rw [first₂, first, h.first]⟩, by omega, ?_⟩
  · exact ampleFine ample₂ (by omega) (ampleFine ample (by omega) h.fine)
  · rw [parent]
    exact ready.runs
  · rw [parent]
    exact ready.spared
  · rw [parent]
    exact ready.full
  · rw [parent, size, h.size]
  · intro now
    have before := (states l).mp now
    have caller : l ≠ i := by
      rintro rfl
      rw [parent, ready.runs] at now
      cases now
    rw [others₂ l before.1, others l caller before.1]
    exact h.idle l before.2
  · have erased : s₂.unused = s.unused.erase j := by
      ext l
      rw [memUnused, mem_erase, memUnused, states]
    rw [erased]
    exact card_erase_add_one (memUnused.mpr free)

structure Drained (L : Layout) (s : Sys) (i : Slot) (m : Nat) : Prop where
  reach : (machine cowuvm L).Reachable s
  fine : s.k.oom = false
  free : s.k.freelist.length = m
  ready : Ready s i
  size : pgSize ≤ (s.proc i).sz
  unused : ∃ j, (s.proc j).state = .unused
  idle : ∀ j, (s.proc j).state = .unused → (s.proc j).killed = false
  first : s.initproc = i

theorem Parent.drain {u m : Nat} (h : Parent L s i) (slots : u < s.unused.card) (some : 0 < m)
    (more : m ≤ s.k.freelist.length) (few : s.k.freelist.length ≤ m + 159 + 173 * u) :
    ∃ s', Drained L s' i m := by
  have present : ∀ {t : Sys}, 0 < t.unused.card → ∃ j, (t.proc j).state = .unused := fun pos =>
    (card_pos.mp pos).imp fun _ mem => memUnused.mp mem
  induction u generalizing s with
  | zero =>
    rcases Nat.eq_or_lt_of_le more with same | less
    · exact ⟨s, h.reach, h.fine, same.symm, h.ready, h.size.ge, present (by omega), h.idle, h.first⟩
    · obtain ⟨s', grows, count, ample, ready, size, first, others⟩ := sbrkRuns cowuvm (a := 1)
        (n := s.k.freelist.length - m) (reachInv cowCopies h.reach) h.ready (by rw [h.size, Nat.one_mul]) (by omega)
        (by unfold userPages; omega) (by omega)
      have away : ∀ j, (s.proc j).state = .unused → s'.proc j = s.proc j := fun j unused =>
        others j (by rintro rfl; rw [h.ready.runs] at unused; cases unused)
      obtain ⟨j, unused⟩ := present (t := s) (by omega)
      refine ⟨s', reachStep h.reach grows, ampleFine ample (by omega) h.fine, by omega, ready,
        by rw [size]; unfold pgSize; omega, ⟨j, by rw [away j unused]; exact unused⟩, fun l now => ?_, by rw [first, h.first]⟩
      have caller : l ≠ i := by
        rintro rfl
        rw [ready.runs] at now
        cases now
      rw [others l caller] at now ⊢
      exact h.idle l now
  | succ u ih =>
    by_cases near : s.k.freelist.length ≤ m + 159 + 173 * u
    · exact ih h (by omega) more near
    · obtain ⟨s', parent, count, unused⟩ := h.child (n := min 159 (s.k.freelist.length - 14 - m))
        (card_pos.mp (by omega)) (by omega) (by unfold userPages; omega) (by omega)
      exact ih parent (by omega) (by omega) (by omega)

theorem Booted.parent (h : Booted L s) : Parent L s s.initproc := by
  obtain ⟨f, d, first, image⟩ := h.first
  refine ⟨h.reach, h.fine, h.ready, by rw [first], fun j unused => ?_, rfl⟩
  by_cases same : j = s.initproc
  · rw [same, first] at unused
    cases unused
  · rw [h.others j same]
    rfl

theorem Booted.unused (h : Booted L s) : s.unused.card = 63 := by
  obtain ⟨f, d, first, image⟩ := h.first
  have rest : s.unused = univ.erase s.initproc := by
    ext j
    rw [memUnused, mem_erase]
    refine ⟨fun unused => ⟨?_, mem_univ j⟩, fun other => by rw [h.others j other.1]; rfl⟩
    rintro rfl
    rw [first] at unused
    cases unused
  rw [rest, card_erase_of_mem (mem_univ _), card_univ, Fintype.card_fin]
  rfl

theorem Booted.slot (h : Booted L s) : ∃ j, (s.proc j).state = .unused := by
  obtain ⟨j, mem⟩ := card_pos.mp (show 0 < s.unused.card by rw [h.unused]; decide)
  exact ⟨j, memUnused.mp mem⟩

theorem sampleDrains {m : Nat} (some : 0 < m) (few : m ≤ 3000) : ∃ s i, Drained Layout.sample s i m := by
  obtain ⟨s, booted⟩ := sampleBoots
  have free := sampleFree booted
  obtain ⟨s', drained⟩ := booted.parent.drain (u := 62) (m := m) (by rw [booted.unused]; decide) some (by omega) (by omega)
  exact ⟨s', s.initproc, drained⟩

/-- After the boot the first process has forked: `i` and `j` share page 0. -/
structure FirstFork (s : Sys) (i j : Slot) (d c : Pgdir) : Prop where
  within : ∀ guard : Sys → Op → Prop, (∀ t, guard t (.user i .fork)) → (machine cowuvm Layout.sample).Reach guard s
  fine : s.k.oom = false
  room : 3785 = s.k.freelist.length
  differ : i ≠ j
  ready : Ready s i
  child : Ready s j
  run : Runs (s.proc i) d
  run' : Runs (s.proc j) c
  size : (s.proc i).sz = pgSize
  size' : (s.proc j).sz = pgSize
  others : ∀ l, l ≠ i → l ≠ j → s.proc l = procBss
  user : userOn (d.pte 0) = true
  off : on (d.pte 0) pteW = false
  user' : userOn (c.pte 0) = true
  page : pageOf (c.pte 0) = pageOf (d.pte 0)

theorem FirstFork.reach {d c : Pgdir} (h : FirstFork s i j d c) : (machine cowuvm Layout.sample).Reachable s :=
  h.within _ fun _ => trivial

theorem sampleForks : ∃ s i j d c, FirstFork s i j d c := by
  obtain ⟨s, booted⟩ := sampleBoots
  obtain ⟨f, d, first, _⟩ := booted.first
  have free := sampleFree booted
  obtain ⟨t, j, pid, forks, unused, fourteen, ample, ready, child, size, size', others, _, d, c, table, table', twins⟩ :=
    forkRuns (reachInv cowCopies booted.reach) booted.ready booted.slot (by omega)
  have child := child (booted.parent.idle j unused)
  have reach := reachStep booted.reach forks
  have inv := reachInv cowCopies reach
  rw [first] at size size' twins
  obtain ⟨user, off, user', page⟩ := twins 0 (by dsimp only; decide)
  obtain ⟨e, run⟩ := (inv.sound _).runs ready.live
  cases table.symm.trans run.pgdir
  obtain ⟨e, run'⟩ := (inv.sound _).runs child.live
  cases table'.symm.trans run'.pgdir
  have differ : s.initproc ≠ j := by
    rintro rfl
    rw [booted.ready.runs] at unused
    cases unused
  exact ⟨t, s.initproc, j, d, c, fun guard allowed => .next (.start booted.ran) (allowed s) forks,
    ampleFine ample (by omega) booted.fine, by omega, differ, ready, child, run, run', size, size',
    fun l other other' => by rw [others l other other', booted.others l other], user, off, user', page⟩

/-- The parent has then stored a byte to the shared page and so has taken a write fault. -/
structure FirstStore (s : Sys) (i j : Slot) (d c : Pgdir) (s' : Sys) : Prop where
  forked : FirstFork s i j d c
  stores : step cowuvm Layout.sample s (.user i (.store 0 1)) = .ok (s', .done)
  fine : s'.k.oom = false
  ready : Ready s' i
  size : (s'.proc i).sz = pgSize
  child : s'.proc j = s.proc j

theorem FirstStore.within {d c : Pgdir} (h : FirstStore s i j d c s') {guard : Sys → Op → Prop}
    (forks : ∀ t, guard t (.user i .fork)) (stores : ∀ t, guard t (.user i (.store 0 1))) :
    (machine cowuvm Layout.sample).Reach guard s' := .next (h.forked.within guard forks) (stores s) h.stores

theorem FirstStore.reach {d c : Pgdir} (h : FirstStore s i j d c s') : (machine cowuvm Layout.sample).Reachable s' :=
  h.within (fun _ => trivial) fun _ => trivial

theorem sampleStores : ∃ s i j d c s', FirstStore s i j d c s' := by
  obtain ⟨s, i, j, d, c, forked⟩ := sampleForks
  have room := forked.room
  obtain ⟨s', stores, oom, ready, size, others, _⟩ := storeRuns cowuvm (b := 1) (reachInv cowCopies forked.reach) forked.ready
    (by rw [forked.size]; decide) fun fails => by rw [fails.1] at room; cases room
  exact ⟨s, i, j, d, c, s', forked, stores, oom.trans forked.fine, ready, size.trans forked.size, others j forked.differ.symm⟩

end OpSys.Cow
