import OpSys.Cow.Drain
import OpSys.Cow.Effects
import OpSys.Cow.Segments

/-! The size of a process and its page table. They agree as long as no process
gives back its whole memory at once: `deallocuvm` then returns the new size 0,
which `growproc` takes for a failure. -/
namespace OpSys.Cow
open OpSys.Xv6 OpSys.Transition

variable {L : Layout} {s s' : Sys} {i j : Slot} {op : Op} {o : Out} {p : Proc} {d d' : Pgdir} {k k' : Kmem} {n : Word}
variable {sz sz' r : Nat} {flag : Bool}

/-- Every page below the size is there, none above it is. -/
def Fits (p : Proc) : Prop := alive p.state = true → ∃ d, p.pgdir = some d ∧ Filled d p.sz ∧ d.Blank

/-- No process gives back its whole memory in one call of `sbrk`. -/
def KeepsSome (s : Sys) : Op → Prop
  | .user i (.sbrk n) => (s.proc i).sz = 0 ∨ n.toInt ≠ -((s.proc i).sz : Int)
  | _ => True

/-- Nor is a file executed with a segment that ends beyond its image. -/
def Regular (s : Sys) (op : Op) : Prop := KeepsSome s op ∧ match op with
  | .exec _ ip _ _ stack => LoadsInside ip stack
  | _ => True

theorem emptiedWhole (sign : n.toInt < 0) (none : min sz (grown sz n) = 0) (top : sz ≤ userTop) (some : sz ≠ 0) :
    n.toInt = -(sz : Int) := by
  have value := BitVec.toInt_eq_toNat_cond n
  have small := n.isLt
  unfold userTop at top
  unfold grown at none
  split at value <;> omega

theorem wholeEmptied (whole : n.toInt = -(sz : Int)) (some : sz ≠ 0) (top : sz ≤ userTop) :
    n.toInt < 0 ∧ grown sz n = 0 := by
  have value := BitVec.toInt_eq_toNat_cond n
  have small := n.isLt
  unfold userTop at top
  unfold grown
  split at value <;> omega

theorem Allocated.fits (h : Allocated L k d sz sz' k' d' r) (top : sz ≤ userTop) (filled : Filled d sz) :
    (r = 0 → Filled d' sz) ∧ (r ≠ 0 → Filled d' r) := by
  cases h with
  | refused => exact ⟨fun _ => filled, fun bad => absurd rfl bad⟩
  | smaller => exact ⟨fun _ => filled, fun _ => filled⟩
  | undone top' more undone =>
    refine ⟨fun _ v low => ?_, fun bad => absurd rfl bad⟩
    by_cases mem : v ∈ wanted sz sz'
    · rw [undone.gone v mem]
      rw [memWanted, pgRoundUpLe top] at mem
      exact (decide_eq_false (by omega)).symm
    · rw [undone.same v mem, filled v low]
  | grown top' more grows =>
    have after : Filled d' sz' := by
      intro v low
      by_cases mem : v ∈ wanted sz sz'
      · obtain ⟨f, _, word⟩ := grows.fresh v mem
        rw [word, userWordP]
        exact (decide_eq_true (memWanted.mp mem).2).symm
      · rw [grows.same v mem, filled v low]
        rw [memWanted, pgRoundUpLe top] at mem
        exact decide_eq_decide.mpr (by omega)
    refine ⟨fun zero => ?_, fun _ => after⟩
    have same : sz = sz' := by omega
    rwa [same]

theorem Shrinks.fits {newsz : Nat} (h : Shrinks L k d k' d' (dropped sz newsz)) (top : sz ≤ userTop) (filled : Filled d sz) :
    Filled d' (min sz newsz) := by
  intro v low
  by_cases less : sz ≤ newsz
  · have none : dropped sz newsz = [] := if_pos less
    rw [h.same v (by rw [none]; simp), filled v low, Nat.min_eq_left less]
  · by_cases mem : v ∈ dropped sz newsz
    · rw [h.gone v mem]
      rw [memDropped (by omega)] at mem
      exact (decide_eq_false (by omega)).symm
    · rw [h.same v mem, filled v low]
      rw [memDropped (by omega)] at mem
      exact decide_eq_decide.mpr (by omega)

theorem Resized.fits (h : Resized L k d sz n k' d' sz' flag) (top : sz ≤ userTop) (filled : Filled d sz)
    (some : sz = 0 ∨ n.toInt ≠ -(sz : Int)) : Filled d' sz' := by
  cases h with
  | more sign alloc nonzero => exact (alloc.fits top filled).2 nonzero
  | refused sign alloc => exact (alloc.fits top filled).1 rfl
  | less sign shrinks => exact shrinks.fits top filled
  | emptied sign shrinks seen none =>
    have zero : sz = 0 := some.elim id fun other => by_contra fun more => other (emptiedWhole sign none top more)
    have after := shrinks.fits top filled
    rwa [none, ← zero] at after
  | same => exact filled

theorem Allocated.refusal (h : Allocated L k d sz sz' k' d' 0) (top : sz ≤ userTop) (above : Above d sz) (blank : d.Blank) :
    d'.pte = d.pte := by
  generalize zero : (0 : Nat) = r at h
  cases h with
  | refused => rfl
  | smaller => rfl
  | grown _ more grows =>
    funext u
    refine grows.same u fun mem => ?_
    have bounds := (memWanted.mp mem).2
    omega
  | undone top' more undone =>
    funext u
    by_cases mem : u ∈ wanted sz sz'
    · have low : u < userPages := pagesInLow _ top' u mem
      rw [undone.alters.blank blank u low (undone.gone u mem)]
      rw [memWanted, pgRoundUpLe top] at mem
      exact (blank u low (above u low mem.1)).symm
    · exact undone.same u mem

theorem Resized.refusal (h : Resized L k d sz n k' d' sz' false) (top : sz ≤ userTop) (filled : Filled d sz)
    (blank : d.Blank) : sz' = sz ∧ (d'.pte = d.pte ↔ sz = 0 ∨ n.toInt ≠ -(sz : Int)) := by
  cases h with
  | refused sign alloc =>
    exact ⟨rfl, iff_of_true (alloc.refusal top filled.above blank) (.inr (by omega))⟩
  | emptied sign shrinks seen none =>
    refine ⟨rfl, ?_⟩
    by_cases zero : sz = 0
    · refine iff_of_true (funext fun u => shrinks.same u fun mem => ?_) (.inl zero)
      have nothing : dropped sz (grown sz n) = [] := if_pos (by omega)
      rw [nothing] at mem
      cases mem
    · refine iff_of_false (fun same => ?_) (not_or.mpr ⟨zero, not_not.mpr (emptiedWhole sign none top zero)⟩)
      have first : 0 ∈ dropped sz (grown sz n) := by
        rw [memDropped (by omega)]
        omega
      have present := filled 0 (by decide)
      rw [← same, shrinks.gone 0 first] at present
      have absent := of_decide_eq_false present.symm
      omega

theorem Allocated.blank (h : Allocated L k d sz sz' k' d' r) (blank : d.Blank) : d'.Blank := by
  cases h with
  | refused => exact blank
  | smaller => exact blank
  | grown _ _ grows => exact grows.alters.blank blank
  | undone _ _ undone => exact undone.alters.blank blank

theorem Resized.blank (h : Resized L k d sz n k' d' sz' flag) (blank : d.Blank) : d'.Blank := by
  cases h with
  | more _ alloc _ => exact alloc.blank blank
  | refused _ alloc => exact alloc.blank blank
  | less _ shrinks => exact shrinks.alters.blank blank
  | emptied _ shrinks => exact shrinks.alters.blank blank
  | same => exact blank

theorem Changed.fits (h : Changed L s op j p) (before : Fits (s.proc j)) (guard : KeepsSome s op) : Fits p := by
  intro live
  cases h with
  | gone dead =>
    rw [live] at dead
    cases dead
  | kept alive' pgdir sz =>
    obtain ⟨d, table, filled, blank⟩ := before (alive' live)
    exact ⟨d, pgdir.trans table, by rwa [sz], blank⟩
  | parent _ was run copied flushed pages pgdir sz =>
    obtain ⟨d, table, filled, blank⟩ := before was
    cases table.symm.trans run.pgdir
    exact ⟨_, pgdir, fun v low => by rw [copied.present v low, filled v low, sz], copied.blankParent blank⟩
  | child _ was run copied flushed pages pgdir => exact ⟨_, pgdir, fun v low => copied.copied v low, copied.blankChild⟩
  | resized act was run spec pgdir size =>
    subst act
    obtain ⟨d, table, filled, blank⟩ := before was
    cases table.symm.trans run.pgdir
    exact ⟨_, pgdir, by rw [size]; exact spec.fits run.top filled guard, spec.blank blank⟩
  | loaded image pgdir => exact ⟨_, pgdir, image.filled, image.blank⟩
  | @resolved w _ _ _ was run user resolved pgdir sz =>
    obtain ⟨d, table, filled, blank⟩ := before was
    cases table.symm.trans run.pgdir
    refine ⟨_, pgdir, fun v low => ?_, resolved.alters.blank blank⟩
    rw [sz, ← filled v low]
    by_cases same : v = w
    · rw [same, (Bool.and_eq_true_iff.mp resolved.user).1, (Bool.and_eq_true_iff.mp user).1]
    · rw [resolved.same v same]

theorem fitsReach (reached : (machine cowuvm L).Reach Regular s) : ∀ i, Fits (s.proc i) := by
  have both : Inv L s ∧ ∀ i, Fits (s.proc i) := by
    refine Machine.Reach.invariant (P := fun s => Inv L s ∧ ∀ i, Fits (s.proc i)) (fun s first => ?_)
      (fun s op s' o before guard ok => ?_) reached
    · have booted : boot L = .ok s := first
      refine ⟨bootInv booted, fun i live => ?_⟩
      obtain ⟨d, table, image, _⟩ := bootProc booted live
      exact ⟨d, table, image.filled, image.blank⟩
    · have ran : step cowuvm L s op = .ok (s', o) := ok
      exact ⟨stepInv cowCopies before.1 ran, fun i => (stepChanged before.1 ran i).fits (before.2 i) guard.1⟩
  exact both.2

/-- What the size of a process says about its page table. -/
structure SizeAgrees (p : Proc) : Prop where
  below : ∃ d, p.pgdir = some d ∧ ∀ v < userPages, v * pgSize < pgRoundUp p.sz → on (d.pte v) pteP = true ∧ on (d.pte v) pteU = true
  above : ∃ d, p.pgdir = some d ∧ ∀ v < userPages, pgRoundUp p.sz ≤ v * pgSize → on (d.pte v) pteP = false

/-- In runs without such calls the size and the page table agree, a `growproc` that
returns -1 changes neither unless it is one, `fork` returns, and `exec` stores to its image only. -/
theorem sizesAgree (reached : (machine cowuvm L).Reach Regular s) (live : alive (s.proc i).state = true) :
    SizeAgrees (s.proc i) ∧
    (∀ n s', growproc L s i n = .ok (s', false) → (s'.proc i).sz = (s.proc i).sz ∧
      ((s'.proc i).pgdir.map Pgdir.pte = (s.proc i).pgdir.map Pgdir.pte ↔ KeepsSome s (.user i (.sbrk n)))) ∧
    (∃ s' r, fork cowuvm L s i = .ok (s', r)) ∧
    ∀ ip path argv stack, LoadsInside ip stack → (∀ arg ∈ argv, arg.length < userTop) →
      exec L s i ip path argv stack ≠ .error .wild := by
  have inv := reachInv cowCopies reached.reachable
  obtain ⟨d, table, filled, blank⟩ := fitsReach reached i live
  obtain ⟨e, run⟩ := (inv.sound i).runs live
  cases table.symm.trans run.pgdir
  obtain ⟨K, U, before⟩ := inv.table (.inl live) table
  refine ⟨⟨⟨d, table, fun v low small => ?_⟩, d, table, fun v low beyond => ?_⟩, fun n s' ok => ?_, ?_,
    fun ip path argv stack contained short => execContained inv contained short⟩
  · have present : on (d.pte v) pteP = true := by
      rw [filled v low]
      exact decide_eq_true (by rwa [← not_le, ← pgRoundUpLe run.top, not_le])
    exact ⟨present, run.good.user v low present⟩
  · exact filled.above v low ((pgRoundUpLe run.top).mp beyond)
  · obtain ⟨k', d', sz', rfl, spec⟩ := growprocCases run before ok
    obtain ⟨size, pages⟩ := spec.refusal run.top filled blank
    rw [Sys.putSelf, table]
    rw [Option.map_some, Option.map_some, Option.some_inj]
    exact ⟨size, pages⟩
  · refine forkReturns cowReturns inv live run fun v small => ?_
    rw [filled v (pagesInLow 0 run.top v (memBelow.mpr small))]
    exact decide_eq_true small

theorem sizesAgreeStore : ∃ s i j d c s', FirstFork s i j d c ∧
    step cowuvm Layout.sample s (.user i (.store 0 1)) = .ok (s', .done) ∧ SizeAgrees (s'.proc i) ∧
    (∀ n s'', growproc Layout.sample s' i n = .ok (s'', false) → (s''.proc i).sz = (s'.proc i).sz ∧
      ((s''.proc i).pgdir.map Pgdir.pte = (s'.proc i).pgdir.map Pgdir.pte ↔ KeepsSome s' (.user i (.sbrk n)))) ∧
    (∃ s'' r, fork cowuvm Layout.sample s' i = .ok (s'', r)) ∧
    ∀ ip path argv stack, LoadsInside ip stack → (∀ arg ∈ argv, arg.length < userTop) →
      exec Layout.sample s' i ip path argv stack ≠ .error .wild := by
  obtain ⟨s, i, j, d, c, s', h⟩ := sampleStores
  exact ⟨s, i, j, d, c, s', h.forked, h.stores,
    sizesAgree (h.within (fun _ => ⟨trivial, trivial⟩) fun _ => ⟨trivial, trivial⟩) h.ready.live⟩

/-! ### A process that gives back its only page -/

theorem wholeResized (h : Resized L k d sz n k' d' sz' flag) (whole : n.toInt = -(sz : Int)) (some : sz ≠ 0)
    (top : sz ≤ userTop) : flag = false ∧ sz' = sz ∧ Shrinks L k d k' d' (dropped sz 0) := by
  obtain ⟨sign, zero⟩ := wholeEmptied whole some top
  cases h with
  | more pos => omega
  | refused pos => omega
  | less neg shrinks seen more => exact absurd (by rw [zero, Nat.min_zero]) more
  | emptied neg shrinks => exact ⟨rfl, rfl, zero ▸ shrinks⟩
  | same none => omega

theorem wholeStep (inv : Inv L s) (ready : Ready s i) (run : Runs (s.proc i) d)
    (whole : n.toInt = -((s.proc i).sz : Int)) (some : (s.proc i).sz ≠ 0) :
    ∃ k' d', step cowuvm L s (.user i (.sbrk n)) = .ok (s.put i k' {s.proc i with pgdir := .some d'}, .value none) ∧
      growproc L s i n = .ok (s.put i k' {s.proc i with pgdir := .some d'}, false) ∧
      Shrinks L s.k d k' d' (dropped (s.proc i).sz 0) := by
  obtain ⟨K, U, before⟩ := inv.table (.inl ready.live) run.pgdir
  obtain ⟨k', d', sz', flag, ran, spec⟩ := growprocSpec (n := n) run before
  obtain ⟨rfl, rfl, shrinks⟩ := wholeResized spec whole some run.top
  refine ⟨k', d', ?_, ran, shrinks⟩
  refine (actingRuns ready.runs).trans ?_
  unfold userStep
  refine syscallRuns ?_ ready.spared (by rw [Sys.putSelf]; exact ready.spared)
  unfold count sysSbrk
  rw [ran]
  rfl

theorem Shrinks.empties (h : Shrinks L k d k' d' (dropped sz 0)) (above : Above d sz) :
    ∀ v < userPages, on (d'.pte v) pteP = false := by
  intro v low
  by_cases mem : v ∈ dropped sz 0
  · exact h.gone v mem
  · rw [h.same v mem]
    rw [memDropped (by decide)] at mem
    exact above v low (by omega)

theorem Alters.frees (h : Alters L k d k' d') (writable : Private d) (empty : ∀ v < userPages, on (d'.pte v) pteP = false)
    {K U : Multiset Nat} (before : Accounts L k (d.owned + K) (d.shared + U)) : k.freelist.length ≤ k'.freelist.length := by
  have unshared : d.shared = 0 := by
    unfold Pgdir.shared
    refine Finset.sum_eq_zero fun v mem => ?_
    unfold wordShared
    rw [if_neg fun both => by
      rw [writable v (Finset.mem_range.mp mem) both.1] at both
      cases both.2]
  have tables : d'.tables = d.tables := by
    unfold Pgdir.tables
    rw [h.page, h.pde]
  have moves := h.moves
  rw [unshared, (emptyHeld empty).1, (emptyHeld empty).2, tables] at moves
  rw [unshared, zero_add] at before
  have spent := moves.spent before
  have more : d.tables.card ≤ d.owned.card := by
    unfold Pgdir.owned
    rw [Multiset.card_add]
    omega
  omega

theorem forkPanics (inv : Inv L s) (live : alive (s.proc i).state = true) (run : Runs (s.proc i) d)
    (unused : ∃ j, (s.proc j).state = .unused) (room : 14 ≤ s.k.freelist.length) (some : (s.proc i).sz ≠ 0)
    (absent : on (d.pte 0) pteP = false) : fork cowuvm L s i = .error (.panic "cowuvm: page not present") := by
  obtain ⟨j, k₁, f, _, alloc, one, _, _⟩ := allocprocRuns (L := L) unused (by omega)
  have same := (allocprocOthers alloc (aliveUsed live)).1
  obtain ⟨lost, holds, _⟩ := (allocprocInv inv alloc).accounts
  have pages : ∃ rest, pagesIn 0 (s.proc i).sz = 0 :: rest := by
    unfold pagesIn
    obtain ⟨m, length⟩ : ∃ m, ((s.proc i).sz - 0 + pgSize - 1) / pgSize = m + 1 :=
      ⟨((s.proc i).sz - 0 + pgSize - 1) / pgSize - 1, by unfold pgSize; omega⟩
    exact ⟨_, by rw [length]; rfl⟩
  obtain ⟨rest, pages⟩ := pages
  have copied : cowuvm L k₁ d (s.proc i).sz = .error (.panic "cowuvm: page not present") := by
    rcases setupkvmCount holds with ⟨k₂, c, made, _⟩ | ⟨_, _, _, _, _, few⟩
    · rw [claimK] at made
      unfold cowuvm
      rw [made, okBind, pages]
      dsimp only
      rw [cowPages, walkUser run.good.toSane (by decide)]
      dsimp only
      rw [if_neg (by rw [absent]; decide)]
      rfl
    · rw [claimK] at few
      omega
  unfold fork
  rw [alloc]
  dsimp only
  rw [same, run.pgdir, claimSelf]
  dsimp only [claimed]
  rw [claimK, copied]
  rfl

/-- After the boot the first process has called `sbrk(-4096)`. -/
structure GaveBack (s : Sys) (d : Pgdir) (s' : Sys) (d' : Pgdir) : Prop where
  booted : Booted Layout.sample s
  run : Runs (s.proc s.initproc) d
  size : (s.proc s.initproc).sz = 4096
  image : Image d pgSize
  grow : growproc Layout.sample s s.initproc (BitVec.ofInt 32 (-4096)) = .ok (s', false)
  reach : (machine cowuvm Layout.sample).Reachable s'
  here : s'.proc s.initproc = {s.proc s.initproc with pgdir := some d'}
  others : ∀ j, j ≠ s.initproc → s'.proc j = s.proc j
  run' : Runs (s'.proc s.initproc) d'
  shrinks : Shrinks Layout.sample s.k d s'.k d' (dropped (s.proc s.initproc).sz 0)
  empty : ∀ v < userPages, on (d'.pte v) pteP = false

theorem sampleGivesBack : ∃ s d s' d', GaveBack s d s' d' := by
  obtain ⟨s, booted⟩ := sampleBoots
  obtain ⟨f, d, first, image⟩ := booted.first
  have table : (s.proc s.initproc).pgdir = some d := by rw [first]
  have size : (s.proc s.initproc).sz = 4096 := by rw [first]; rfl
  have started : (machine cowuvm Layout.sample).Reachable s := booted.reach
  have inv := reachInv cowCopies started
  obtain ⟨e, run⟩ := (inv.sound _).runs booted.ready.live
  cases table.symm.trans run.pgdir
  obtain ⟨k', d', steps, grow, shrinks⟩ := wholeStep (n := BitVec.ofInt 32 (-4096)) inv booted.ready run
    (by rw [size]; decide) (by rw [size]; decide)
  have reach := reachStep started steps
  obtain ⟨e, run'⟩ := ((reachInv cowCopies reach).sound s.initproc).runs (by rw [Sys.putSelf]; exact booted.ready.live)
  have here := run'.pgdir
  rw [Sys.putSelf] at here
  cases here
  exact ⟨s, d, _, d', booted, run, size, image, grow, reach, Sys.putSelf, fun j other => Sys.putOther other, run', shrinks,
    shrinks.empties run.above⟩

theorem GaveBack.present {s s' : Sys} {d d' : Pgdir} (h : GaveBack s d s' d') : on (d.pte 0) pteP = true := by
  rw [h.image.filled 0 (by decide)]
  decide

/-- The first process calls `sbrk(-4096)`. -/
theorem wholeMemoryReturned : ∃ s i s', (machine cowuvm Layout.sample).Reachable s ∧ alive (s.proc i).state = true ∧
    growproc Layout.sample s i (BitVec.ofInt 32 (-4096)) = .ok (s', false) ∧ (machine cowuvm Layout.sample).Reachable s' ∧
    alive (s'.proc i).state = true ∧ ¬ SizeAgrees (s'.proc i) ∧
    (s'.proc i).pgdir.map Pgdir.pte ≠ (s.proc i).pgdir.map Pgdir.pte ∧
    fork cowuvm Layout.sample s' i = .error (.panic "cowuvm: page not present") := by
  obtain ⟨s, d, s', d', h⟩ := sampleGivesBack
  have live := h.booted.ready.live
  have live' : alive (s'.proc s.initproc).state = true := by rw [h.here]; exact live
  have started : (machine cowuvm Layout.sample).Reachable s := h.booted.reach
  obtain ⟨K, U, before⟩ := (reachInv cowCopies started).table (.inl live) h.run.pgdir
  have free := sampleFree h.booted
  have more := h.shrinks.alters.frees h.image.writable h.empty before
  refine ⟨s, s.initproc, s', started, live, h.grow, h.reach, live', fun agrees => ?_, fun same => ?_, ?_⟩
  · obtain ⟨e, here, below⟩ := agrees.below
    cases h.run'.pgdir.symm.trans here
    have found := (below 0 (by decide) (by rw [h.here]; dsimp only; rw [h.size]; decide)).1
    rw [h.empty 0 (by decide)] at found
    cases found
  · rw [h.run'.pgdir, h.run.pgdir] at same
    have present := h.present
    rw [← congrFun (Option.some.inj same) 0, h.empty 0 (by decide)] at present
    cases present
  · obtain ⟨j, unused⟩ := h.booted.slot
    have other : j ≠ s.initproc := by
      rintro rfl
      rw [h.booted.ready.runs] at unused
      cases unused
    refine forkPanics (reachInv cowCopies h.reach) live' h.run' ⟨j, by rw [h.others j other]; exact unused⟩ (by omega) ?_
      (h.empty 0 (by decide))
    rw [h.here]
    dsimp only
    rw [h.size]
    decide

end OpSys.Cow
