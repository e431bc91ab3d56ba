import OpSys.Cow.Sizes

/-! The translation cache. It is emptied by `lcr3` and may hold every word that a
user page has had since then. A `growproc` that fails returns without emptying it. -/
namespace OpSys.Cow
open OpSys.Xv6 OpSys.Transition

variable {L : Layout} {s s' : Sys} {i j : Slot} {op : Op} {o : Out} {p : Proc} {d d' : Pgdir} {k k' : Kmem} {n : Word}
variable {sz sz' r : Nat} {flag : Bool}

def Cached (d : Pgdir) (v : Nat) (w : Word) : Prop := w = d.pte v ∨ (v, w) ∈ d.stale

/-- What the cache grants to user mode the page table grants too, at the same page. -/
def Faithful (d : Pgdir) : Prop := ∀ v w, Cached d v w → userOn w = true →
  userOn (d.pte v) = true ∧ pageOf (d.pte v) = pageOf w ∧ (on w pteW = true → on (d.pte v) pteW = true)

theorem faithfulFlushed (flushed : d.stale = []) : Faithful d := by
  rintro v w (rfl | old) user
  · exact ⟨user, rfl, id⟩
  · rw [flushed] at old
    cases old

def Flushed (p : Proc) : Prop := alive p.state = true → ∃ d, p.pgdir = some d ∧ d.stale = []

/-- A call of `sbrk` that finds some of the pages it needs but not all. -/
def RunsDry (k : Kmem) (sz : Nat) (n : Word) : Prop :=
  0 < n.toInt ∧ grown sz n ≤ userTop ∧ 0 < kfreeCount k ∧ kfreeCount k < (wanted sz (grown sz n)).length

def Flushes (s : Sys) (op : Op) : Prop := Regular s op ∧ match op with
  | .user i (.sbrk n) => ¬ RunsDry s.k (s.proc i).sz n
  | _ => True

theorem Allocated.flushed (h : Allocated L k d sz sz' k' d' 0) (flushed : d.stale = [])
    (enough : sz' ≤ userTop → k.freelist.length < (wanted sz sz').length → k.freelist = []) : d'.stale = [] := by
  generalize zero : (0 : Nat) = r at h
  cases h with
  | refused => exact flushed
  | smaller => exact flushed
  | grown _ _ grows => rw [grows.stale, flushed]
  | undone top' _ undone => rw [undone.idle (enough top' undone.short), flushed]

theorem Resized.flushed (h : Resized L k d sz n k' d' sz' flag) (top : sz ≤ userTop) (flushed : d.stale = [])
    (some : sz = 0 ∨ n.toInt ≠ -(sz : Int)) (size : kfreeCount k = k.freelist.length) (enough : ¬ RunsDry k sz n) :
    d'.stale = [] := by
  cases h with
  | more => rfl
  | less => rfl
  | same => rfl
  | refused sign alloc =>
    refine alloc.flushed flushed fun fits short => List.length_eq_zero_iff.mp (by_contra fun left => enough ?_)
    exact ⟨sign, fits, by omega, by omega⟩
  | emptied sign shrinks seen none =>
    have zero : sz = 0 := some.elim id fun other => by_contra fun more => other (emptiedWhole sign none top more)
    have nothing : dropped sz (grown sz n) = [] := if_pos (by omega)
    rw [shrinks.idle (by rw [nothing]; simp), flushed]

theorem Changed.flushed (h : Changed L s op j p) (inv : Inv L s) (before : Flushed (s.proc j)) (guard : Flushes s op) :
    Flushed p := by
  intro live
  cases h with
  | gone dead =>
    rw [live] at dead
    cases dead
  | kept alive' pgdir =>
    obtain ⟨d, table, flushed⟩ := before (alive' live)
    exact ⟨d, pgdir.trans table, flushed⟩
  | parent _ _ _ _ flushed _ pgdir => exact ⟨_, pgdir, flushed⟩
  | child _ _ _ _ flushed _ pgdir => exact ⟨_, pgdir, flushed⟩
  | resized act was run spec pgdir =>
    subst act
    obtain ⟨d, table, flushed⟩ := before was
    cases table.symm.trans run.pgdir
    exact ⟨_, pgdir, spec.flushed run.top flushed guard.1.1 inv.freeCount guard.2⟩
  | loaded _ pgdir => exact ⟨_, pgdir, rfl⟩
  | resolved _ _ _ resolved pgdir => exact ⟨_, pgdir, resolved.flushed⟩

theorem flushedReach (reached : (machine cowuvm L).Reach Flushes s) : ∀ i, Flushed (s.proc i) := by
  have both : Inv L s ∧ ∀ i, Flushed (s.proc i) := by
    refine Machine.Reach.invariant (P := fun s => Inv L s ∧ ∀ i, Flushed (s.proc i)) (fun s first => ?_)
      (fun s op s' o before guard ok => ?_) reached
    · have booted : boot L = .ok s := first
      refine ⟨bootInv booted, fun i live => ?_⟩
      obtain ⟨d, table, _, flushed⟩ := bootProc booted live
      exact ⟨d, table, flushed⟩
    · have ran : step cowuvm L s op = .ok (s', o) := ok
      exact ⟨stepInv cowCopies before.1 ran, fun i => (stepChanged before.1 ran i).flushed before.1 (before.2 i) guard⟩
  exact both.2

/-- In runs where no `sbrk` fails half-way the cache is never ahead of the page table. -/
theorem nothingStale (reached : (machine cowuvm L).Reach Flushes s) (live : alive (s.proc i).state = true) :
    (∃ d, (s.proc i).pgdir = some d ∧ Faithful d) ∧
    ∀ ip path argv stack, LoadsInside ip stack → (∀ arg ∈ argv, arg.length < userTop) →
      exec L s i ip path argv stack ≠ .error .wild := by
  obtain ⟨d, table, flushed⟩ := flushedReach reached i live
  exact ⟨⟨d, table, faithfulFlushed flushed⟩, fun ip path argv stack contained short =>
    execContained (reachInv cowCopies reached.reachable) contained short⟩

theorem nothingStaleStore : ∃ s i j d c s', FirstFork s i j d c ∧
    step cowuvm Layout.sample s (.user i (.store 0 1)) = .ok (s', .done) ∧
    (∃ d, (s'.proc i).pgdir = some d ∧ Faithful d) ∧
    ∀ ip path argv stack, LoadsInside ip stack → (∀ arg ∈ argv, arg.length < userTop) →
      exec Layout.sample s' i ip path argv stack ≠ .error .wild := by
  obtain ⟨s, i, j, d, c, s', h⟩ := sampleStores
  exact ⟨s, i, j, d, c, s', h.forked, h.stores,
    nothingStale (h.within (fun _ => ⟨⟨trivial, trivial⟩, trivial⟩) fun _ => ⟨⟨trivial, trivial⟩, trivial⟩) h.ready.live⟩

/-- After `sbrk(-4096)` the first process may still write to the page it gave back. -/
theorem staleTranslation : ∃ s i d, (machine cowuvm Layout.sample).Reachable s ∧ (s.proc i).state = .runnable ∧
    (s.proc i).pgdir = some d ∧ ¬ Faithful d := by
  obtain ⟨s, d, s', d', h⟩ := sampleGivesBack
  have dropped : 0 ∈ dropped (s.proc s.initproc).sz 0 := by
    rw [memDropped (by decide), h.size]
    decide
  refine ⟨s', s.initproc, d', h.reach, by rw [h.here]; exact h.booted.ready.runs, h.run'.pgdir, fun faithful => ?_⟩
  have granted := faithful 0 (d.pte 0) (.inr (h.shrinks.logged 0 dropped h.present))
    (h.run.good.toSane.userOn (by decide) h.present)
  rw [notUser (h.empty 0 (by decide))] at granted
  cases granted.1

end OpSys.Cow
