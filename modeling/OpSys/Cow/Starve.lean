import OpSys.Cow.Accounting
import OpSys.Cow.Drain

/-! A copy-on-write fault that finds no free page. The handler goes on after it
has killed the process: one reference to the shared page is given up, the bytes go
to linear page 0 and the word names physical page 0, which cannot be freed. -/
namespace OpSys.Cow
open OpSys.Xv6 OpSys.Transition Finset

variable {L : Layout} {k k' : Kmem} {d d' : Pgdir} {s s' : Sys} {i j : Slot} {p : Proc} {v a f : Nat}

def reap (L : Layout) (k : Kmem) (p : Proc) : Except Stop Kmem := do
  let k ← kfreeStack L k p.kstack
  freevm L k p.pgdir

structure FlagOnly (s s' : Sys) (i : Slot) : Prop where
  caller : s'.proc i = {s.proc i with killed := true}
  others : ∀ j, j ≠ i → s'.proc j = s.proc j
  refs : s'.k.refCnt = s.k.refCnt
  mem : s'.k.mem = s.k.mem
  free : s'.k.freelist = s.k.freelist

/-- Process `i` exits and is reaped; the mapped pages that come free are those
that nobody else maps. -/
def TornDown (L : Layout) (s : Sys) (i : Slot) : Prop := ∃ s' k, exit s i = .ok s' ∧ reap L s'.k (s'.proc i) = .ok k ∧
  ∀ f, (s'.mappers f).Nonempty → (f ∈ k.freelist ↔ ∀ x ∈ s'.mappers f, x.1 = i)

def Poisoned (d : Pgdir) (v : Nat) : Prop := on (d.pte v) pteP = true ∧ pageOf (d.pte v) = 0

theorem kfreePanics {e : Stop} (err : kfree L k f = .error e) : e = .panic "kfree" := by
  unfold kfree at err
  split at err
  · cases err
    rfl
  · split at err <;> cases err

theorem deallocPoisoned (sane : d.Sane) (poison : Poisoned d v) {u : Nat} (low : u < userPages) :
    deallocPage L (k, d) u = .error (.panic "kfree") ∨
      ∃ k' d', u ≠ v ∧ deallocPage L (k, d) u = .ok (k', d') ∧ d'.Sane ∧ Poisoned d' v := by
  cases ran : deallocPage L (k, d) u with
  | error e =>
    unfold deallocPage at ran
    rw [walkUser sane low] at ran
    dsimp only at ran
    split at ran
    · split at ran
      · cases ran
        exact .inl rfl
      · cases freed : kfree L k (pageOf (d.pte u)) with
        | error e' =>
          rw [freed] at ran
          cases ran
          exact .inl (by rw [kfreePanics freed])
        | ok k' =>
          rw [freed] at ran
          cases ran
    · cases ran
  | ok r =>
    obtain ⟨k', d'⟩ := r
    obtain ⟨alters, same, _⟩ := deallocPageAlters sane low ran
    have other : u ≠ v := by
      rintro rfl
      rcases deallocPageCases sane low ran with ⟨absent, _, _⟩ | ⟨_, nonzero, _, _⟩
      · rw [poison.1] at absent
        cases absent
      · exact nonzero poison.2
    refine .inr ⟨k', d', other, rfl, alters.sane, ?_⟩
    unfold Poisoned
    rwa [same v other.symm]

theorem deallocPanics {vs : List Nat} (low : ∀ u ∈ vs, u < userPages) (sane : d.Sane) (poison : Poisoned d v) (mem : v ∈ vs) :
    vs.foldlM (deallocPage L) (k, d) = .error (.panic "kfree") := by
  induction vs generalizing k d with
  | nil => cases mem
  | cons u rest ih =>
    rw [List.foldlM_cons]
    rcases deallocPoisoned (L := L) (k := k) sane poison (low u (by simp)) with bad | ⟨k', d', other, ran, sane', poison'⟩
    · rw [bad]
      rfl
    · rw [ran, okBind]
      have later : v ∈ rest := by simpa [other.symm] using mem
      exact ih (fun u mem => low u (by simp [mem])) sane' poison' later

theorem freevmPanics (sane : d.Sane) (low : v < userPages) (poison : Poisoned d v) :
    freevm L k (some d) = .error (.panic "kfree") := by
  have run : (pagesIn (pgRoundUp 0) userTop).foldlM (deallocPage L) (k, d) = .error (.panic "kfree") := by
    have all : pagesIn (pgRoundUp 0) userTop = dropped userTop 0 := by
      unfold dropped
      rw [if_neg (by decide)]
    rw [all]
    exact deallocPanics (droppedLow (le_refl userTop)) sane poison (droppedAll.mpr low)
  unfold freevm deallocuvm
  dsimp only
  rw [if_neg (by decide), run]
  rfl

theorem reapPanics (table : p.pgdir = some d) (sane : d.Sane) (low : v < userPages) (poison : Poisoned d v) :
    reap L k p = .error (.panic "kfree") := by
  unfold reap
  rw [table]
  cases stack : kfreeStack L k p.kstack with
  | ok k' =>
    rw [okBind]
    exact freevmPanics sane low poison
  | error e =>
    unfold kfreeStack at stack
    split at stack
    · cases stack
      rfl
    · rw [kfreePanics stack]
      rfl

theorem twiceMapped {c : Pgdir} {u : Nat} (h : Inv L s) (apart : j ≠ i) (live : alive (s.proc i).state = true)
    (live' : alive (s.proc j).state = true) (run : Runs (s.proc i) d) (run' : Runs (s.proc j) c)
    (user : userOn (d.pte v) = true) (user' : userOn (c.pte u) = true) (page : pageOf (c.pte u) = pageOf (d.pte v)) :
    1 < refCount s.k (pageOf (d.pte v)) := by
  obtain ⟨gone, holds, _⟩ := h.accounts
  have before := holds.split i
  have low := userLow run.good.toSane user
  have low' := userLow run'.good.toSane user'
  have nonzero := run.good.nonzero v low user
  have mine := heldAlive (.inl live) run.pgdir
  have held : pageOf (d.pte v) ∈ s.ownedBut i ∨ pageOf (d.pte v) ∈ s.sharedBut i := by
    apply Sys.memBut apart
    have other := heldAlive (.inl live') run'.pgdir
    rw [other.1, other.2, ← page, Multiset.mem_add]
    exact (memHeld low' user' (by rwa [page])).imp .inr id
  rw [mine.1, mine.2] at before
  have share : pageOf (d.pte v) ∈ d.shared := by
    rcases memHeld low user nonzero with own | share
    · have once := (Multiset.nodup_add.mp before.ownedNodup).2.2
      have here : pageOf (d.pte v) ∈ tablePage (s.proc i).kstack + d.owned := Multiset.mem_add.mpr (.inr own)
      rcases held with others | others
      · exact absurd (Multiset.mem_add.mpr (.inl others)) (Multiset.disjoint_left.mp once here)
      · exact absurd (Multiset.mem_add.mpr (.inl here))
          (before.sharedNotOwned (Multiset.mem_add.mpr (.inr (Multiset.mem_add.mpr (.inl others)))))
    · exact share
  have others : pageOf (d.pte v) ∈ s.sharedBut i := by
    rcases held with own | share'
    · exact absurd (Multiset.mem_add.mpr (.inr (Multiset.mem_add.mpr (.inl own))))
        (before.sharedNotOwned (Multiset.mem_add.mpr (.inl share)))
    · exact share'
  have count : s.k.refCnt (pageOf (d.pte v)) = (d.shared + (s.sharedBut i + 0)).count (pageOf (d.pte v)) :=
    before.shared _ (Multiset.mem_add.mpr (.inl share))
  rw [Multiset.count_add, Multiset.count_add] at count
  have first := Multiset.count_pos.mpr share
  have second := Multiset.count_pos.mpr others
  unfold refCount
  omega

theorem starvedHandler (h : Inv L s) (empty : s.k.freelist = []) (runs : (s.proc i).state = .runnable)
    (run : Runs (s.proc i) d) (user : userOn (d.pte (a / pgSize)) = true)
    (many : 1 < refCount s.k (pageOf (d.pte (a / pgSize)))) :
    cowHandler s i a = if on (d.pte 0) pteP then .ok (starved s i d (a / pgSize)) else .error .hang := by
  have passes := mt (refusedIff (a := a) run.good.toSane).mp (by rw [user]; decide)
  exact handlerStarves (h.pids.current runs) run.pgdir (userFound run.good.toSane user) passes many empty

theorem starvedPoisoned (run : Runs (s.proc i) d) (low : v < userPages) :
    ((starved s i d v).proc i).pgdir = some (lcr3 (d.set v (cowWord 0 (d.pte v)))) ∧
      (lcr3 (d.set v (cowWord 0 (d.pte v)))).Sane ∧ Poisoned (lcr3 (d.set v (cowWord 0 (d.pte v)))) v := by
  obtain ⟨page, u, shown, _⟩ := cowWordSpec (f := 0) (by decide) (d.pte v)
  have set := run.good.toSane.set low (w := cowWord 0 (d.pte v)) fun _ => u
  refine ⟨by unfold starved; rw [Sys.putSelf], ⟨⟨set.bounded, set.absent, set.kernel, set.user⟩, set.tables⟩, ?_⟩
  unfold Poisoned
  rw [Pgdir.lcr3Pte, Pgdir.setSelf]
  exact ⟨(Bool.and_eq_true_iff.mp shown).1, page⟩

/-- The fault is contained: the process is marked and later comes to its end. -/
def Contained (L : Layout) (s : Sys) (i : Slot) (a : Nat) : Prop :=
  ∃ s', cowHandler s i a = .ok s' ∧ FlagOnly s s' i ∧ TornDown L s' i

theorem starvedReap {t : Sys} (run : Runs (s.proc i) d) (low : v < userPages) (left : exit (starved s i d v) i = .ok t) :
    reap L k (t.proc i) = .error (.panic "kfree") := by
  obtain ⟨_, _, _, _, _, _, slots⟩ := exitCases left
  obtain ⟨table, sane, poison⟩ := starvedPoisoned run low
  exact reapPanics ((slots i).1.trans table) sane low poison

theorem starvedSpreads (run : Runs (s.proc i) d) (low : v < userPages) (many : 1 < refCount s.k (pageOf (d.pte v))) :
    ¬ FlagOnly s (starved s i d v) i ∧ ¬ TornDown L (starved s i d v) i := by
  constructor
  · intro only
    have count := congrFun only.refs (pageOf (d.pte v))
    unfold starved at count
    rw [Sys.putK] at count
    simp only [Kmem.write, decPageRef, Function.update_self] at count
    unfold refCount at many
    omega
  · rintro ⟨t, k, left, freed, _⟩
    cases (starvedReap (L := L) (k := t.k) run low left).symm.trans freed

/-- Neither half of it ever holds. -/
theorem shortageSpreads (reached : (machine cowuvm L).Reachable s) (empty : s.k.freelist = [])
    (runs : (s.proc i).state = .runnable) (table : (s.proc i).pgdir = some d) (user : userOn (d.pte (a / pgSize)) = true)
    (many : 1 < refCount s.k (pageOf (d.pte (a / pgSize)))) :
    ¬ Contained L s i a ∧ ∀ s', cowHandler s i a = .ok s' → ¬ FlagOnly s s' i ∧ ¬ TornDown L s' i := by
  have inv := reachInv cowCopies reached
  obtain ⟨e, run⟩ := (inv.sound i).runs (by rw [runs]; rfl)
  cases table.symm.trans run.pgdir
  have spreads : ∀ s', cowHandler s i a = .ok s' → ¬ FlagOnly s s' i ∧ ¬ TornDown L s' i := by
    intro s' ok
    rw [starvedHandler inv empty runs run user many] at ok
    split at ok <;> cases ok
    exact starvedSpreads run (userLow run.good.toSane user) many
  exact ⟨fun ⟨s', ok, only, _⟩ => (spreads s' ok).1 only, spreads⟩

theorem sampleShortage : ∃ s i d, (machine cowuvm Layout.sample).Reachable s ∧ s.k.freelist = [] ∧ i ≠ s.initproc ∧
    (s.proc i).state = .runnable ∧ Runs (s.proc i) d ∧ userOn (d.pte 0) = true ∧ 1 < refCount s.k (pageOf (d.pte 0)) := by
  obtain ⟨s, i, drained⟩ := sampleDrains (m := 14) (by decide) (by decide)
  obtain ⟨s', j, pid, forks, free, count, _, ready, child, _, _, _, first, d, c, table, table', pages⟩ :=
    forkRuns (reachInv cowCopies drained.reach) drained.ready drained.unused drained.free.ge
  have child := child (drained.idle j free)
  have reach := reachStep drained.reach forks
  have inv := reachInv cowCopies reach
  have other : i ≠ j := by
    rintro rfl
    rw [drained.ready.runs] at free
    cases free
  obtain ⟨_, run⟩ := (inv.sound i).runs ready.live
  cases table.symm.trans run.pgdir
  obtain ⟨_, run'⟩ := (inv.sound j).runs child.live
  cases table'.symm.trans run'.pgdir
  have some : 0 * pgSize < (s.proc i).sz := Nat.lt_of_lt_of_le (by decide) drained.size
  obtain ⟨user, _, user', page⟩ := pages 0 some
  have empty : s'.k.freelist = [] := by
    have all := drained.free
    exact List.length_eq_zero_iff.mp (by omega)
  exact ⟨s', j, c, reach, empty, by rw [first, drained.first]; exact other.symm, child.runs, run', user',
    twiceMapped inv other child.live ready.live run' run user' user page.symm⟩

theorem shortageSpreadsSample : ∃ s i, (machine cowuvm Layout.sample).Reachable s ∧ s.k.freelist = [] ∧
    ¬ Contained Layout.sample s i 0 ∧
    ∀ s', cowHandler s i 0 = .ok s' → ¬ FlagOnly s s' i ∧ ¬ TornDown Layout.sample s' i := by
  obtain ⟨s, i, d, reach, empty, _, runs, run, user, many⟩ := sampleShortage
  exact ⟨s, i, reach, empty, shortageSpreads (a := 0) reach empty runs run.pgdir user many⟩

/-- The child writes to its page, is killed and exits; its parent's `wait` panics. -/
theorem shortageKills : ∃ s i s' t, (machine cowuvm Layout.sample).Reachable s ∧ s.k.freelist = [] ∧
    cowHandler s i 0 = .ok s' ∧ ¬ FlagOnly s s' i ∧ exit s' i = .ok t ∧
    reap Layout.sample t.k (t.proc i) = .error (.panic "kfree") ∧ ¬ Contained Layout.sample s i 0 := by
  obtain ⟨s, i, d, reach, empty, other, runs, run, user, many⟩ := sampleShortage
  have low := userLow run.good.toSane user
  have handles : cowHandler s i 0 = .ok (starved s i d 0) := by
    have ran := starvedHandler (a := 0) (reachInv cowCopies reach) empty runs run user many
    rwa [if_pos (Bool.and_eq_true_iff.mp user).1] at ran
  have spreads := starvedSpreads (L := Layout.sample) run low many
  have leaves : ∃ t, exit (starved s i d 0) i = .ok t := by
    have apart : ¬ i = (starved s i d 0).initproc := other
    unfold exit
    rw [if_neg apart]
    exact ⟨_, rfl⟩
  obtain ⟨t, left⟩ := leaves
  refine ⟨s, i, _, t, reach, empty, handles, spreads.1, left, starvedReap run low left, ?_⟩
  rintro ⟨s', ok, only, _⟩
  cases handles.symm.trans ok
  exact spreads.1 only

end OpSys.Cow
