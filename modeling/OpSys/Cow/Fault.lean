import OpSys.Cow.System

/-! The page-fault handler. A write fault on a shared page leaves the process with
a page of its own and the bytes it had: the same page when nobody else has it, a
fresh copy otherwise. -/
namespace OpSys.Cow
open OpSys.Xv6 Finset

variable {L : Layout} {k k' : Kmem} {d d' : Pgdir} {v f : Nat} {w : Word} {K U : Multiset Nat}

/-! ### The two words that the handler stores -/

theorem setWriteBits (w : Word) {i : Nat} (low : i < 32) : (w ||| pteW).getLsbD i = (w.getLsbD i || decide (i = 1)) := by
  have mask : ∀ j : Fin 32, pteW.getLsbD j = decide (j.val = 1) := by decide
  rw [BitVec.getLsbD_or, mask ⟨i, low⟩]

theorem reclaimed (user : userOn w = true) (off : on w pteW = false) :
    pageOf (w + 2) = pageOf w ∧ on (w + 2) pteU = true ∧ userOn (w + 2) = true ∧ on (w + 2) pteW = true := by
  have parts := Bool.and_eq_true_iff.mp user
  have u : on (w ||| pteW) pteU = true := by
    rw [onU, setWriteBits w (by decide), ← onU, parts.2]
    rfl
  rw [addWrite off]
  refine ⟨?_, u, ?_, ?_⟩
  · apply Nat.eq_of_testBit_eq
    intro i
    rw [pageOfBits, pageOfBits]
    by_cases low : 12 + i < 32
    · rw [setWriteBits w low, decide_eq_false (by omega), Bool.or_false]
    · rw [BitVec.getLsbD_of_ge _ _ (by omega), BitVec.getLsbD_of_ge _ _ (by omega)]
  · unfold userOn
    rw [u, onP, setWriteBits w (by decide), ← onP, parts.1]
    rfl
  · rw [onW, setWriteBits w (by decide)]
    simp

theorem cowWordSpec (fits : f < 2 ^ 20) (w : Word) :
    pageOf (cowWord f w) = f ∧ on (cowWord f w) pteU = true ∧ userOn (cowWord f w) = true ∧
      on (cowWord f w) pteW = true := by
  have p : on (cowWord f w) pteP = true := by
    rw [cowWord, onP, BitVec.getLsbD_or, BitVec.getLsbD_or]
    simp [pteP]
  have u : on (cowWord f w) pteU = true := by
    rw [cowWord, onU, BitVec.getLsbD_or]
    simp [pteU]
  refine ⟨?_, u, Bool.and_eq_true_iff.mpr ⟨p, u⟩, ?_⟩
  · rw [cowWord, BitVec.or_assoc, BitVec.or_assoc, BitVec.or_assoc]
    exact pageOfOr fits (pageOfJoin (pageOfFlags w) (by decide))
  · rw [cowWord, onW, BitVec.getLsbD_or, BitVec.getLsbD_or, BitVec.getLsbD_or]
    simp [pteW]

theorem writableHeld (user : userOn w = true) (writable : on w pteW = true) (nonzero : pageOf w ≠ 0) :
    wordOwned w = {pageOf w} ∧ wordShared w = 0 := by
  rcases wordHeld user nonzero with ⟨own, share, _⟩ | ⟨_, _, off⟩
  · exact ⟨own, share⟩
  · rw [writable] at off
    cases off

theorem reclaimMoves' (user : userOn w = true) (nonzero : pageOf w ≠ 0) (off : on w pteW = false)
    (last : k.refCnt (pageOf w) ≤ 1) :
    Moves L k (wordOwned w) (wordShared w) k (wordOwned (w + 2)) (wordShared (w + 2)) := by
  obtain ⟨page, _, shown, writable⟩ := reclaimed user off
  have held := writableHeld shown writable (by rwa [page])
  rw [held.1, held.2, page, (sharedWord user off).1, (sharedWord user off).2]
  exact reclaimMoves last

theorem replaceMoves {g : Nat} (user : userOn w = true) (off : on w pteW = false) (more : 1 < k.refCnt (pageOf w))
    (taken : kalloc k = (some g, k')) (other : pageOf w ≠ g) (inside : g ∈ L.pool) (c : Content) :
    Moves L k (wordOwned w) (wordShared w) ((decPageRef k' (pageOf w)).write g c)
      (wordOwned (cowWord g w)) (wordShared (cowWord g w)) := by
  obtain ⟨page, _, shown, writable⟩ := cowWordSpec (poolFits inside) w
  have held := writableHeld shown writable (by rw [page]; exact poolPos inside)
  rw [held.1, held.2, page, (sharedWord user off).1, (sharedWord user off).2]
  have same : k'.refCnt (pageOf w) = k.refCnt (pageOf w) := by
    rw [(kallocSome taken).2]
    exact Function.update_of_ne other _ _
  have first := (kallocMoves (L := L) taken).frame 0 {pageOf w}
  have second := (decPageRefMoves (L := L) (more.trans_eq same.symm)).frame {g} 0
  rw [zero_add, zero_add, add_zero] at first
  rw [zero_add, add_zero] at second
  exact first.trans (second.trans (writeMoves c))

/-- The fault at page `v` has been resolved: the process may write there, has the
page alone and sees the bytes it saw. -/
structure Resolved (L : Layout) (k : Kmem) (d : Pgdir) (v : Nat) (k' : Kmem) (d' : Pgdir) : Prop where
  alters : Alters L k d k' d'
  good : d'.Ok
  user : userOn (d'.pte v) = true
  writable : on (d'.pte v) pteW = true
  same : ∀ u, u ≠ v → d'.pte u = d.pte u
  flushed : d'.stale = []
  seen : view k' d' = view k d

theorem Alters.lcr3 (h : Alters L k d k' d') : Alters L k d k' (lcr3 d') :=
  ⟨by rw [Pgdir.lcr3Owned, Pgdir.lcr3Shared]; exact h.moves, ⟨⟨h.sane.bounded, h.sane.absent, h.sane.kernel, h.sane.user⟩, h.sane.tables⟩, h.page, h.pde, h.kernel, h.blank⟩

theorem resolve {x : Word} (good : d.Ok) (low : v < userPages) (user : userOn (d.pte v) = true)
    (before : Accounts L k (d.owned + K) (d.shared + U))
    (word : Moves L k (wordOwned (d.pte v)) (wordShared (d.pte v)) k' (wordOwned x) (wordShared x))
    (u : on x pteU = true) (shown : userOn x = true) (writable : on x pteW = true) (nonzero : pageOf x ≠ 0)
    (bytes : k'.mem (pageOf x) = k.mem (pageOf (d.pte v))) : Resolved L k d v k' (lcr3 (d.set v x)) := by
  refine ⟨(Alters.set good.toSane low word (fun _ => u) (absentNot (Bool.and_eq_true_iff.mp shown).1)).lcr3, (good.set low (fun _ => u) fun _ => nonzero).lcr3, ?_, ?_,
    fun u other => Pgdir.setOther other, rfl, ?_⟩
  · rw [Pgdir.lcr3Pte, Pgdir.setSelf]
    exact shown
  · rw [Pgdir.lcr3Pte, Pgdir.setSelf]
    exact writable
  · funext u
    rw [viewLcr3]
    by_cases same : u = v
    · subst u
      rw [viewSome low user, viewSome low (by rwa [Pgdir.setSelf]), Pgdir.setSelf, bytes]
    · exact viewSet good low word before same

/-! ### The handler -/

variable {s s' : Sys} {i j : Slot} {p : Proc} {a : Nat} {X Y : Multiset Nat}

structure Current (s : Sys) (i : Slot) : Prop where
  runs : (s.proc i).state = .runnable
  own : (slots.find? fun j => (s.proc j).pid = (s.proc i).pid) = some i

theorem Pids.current (pids : Pids s) (runs : (s.proc i).state = .runnable) : Current s i := by
  refine ⟨runs, ?_⟩
  cases found : slots.find? fun j => (s.proc j).pid = (s.proc i).pid with
  | none =>
    have none := List.find?_eq_none.mp found i (List.mem_finRange i)
    simp at none
  | some j =>
    have same : (s.proc j).pid = (s.proc i).pid := by simpa using List.find?_some found
    rw [pids.differ i j same.symm (pids.used i (by rw [runs]; decide))]

theorem Current.kill (h : Current s i) : (Cow.kill s (s.proc i).pid).1 = s.put i s.k {s.proc i with killed := true} := by
  unfold Cow.kill
  rw [h.own]
  simp [h.runs]

theorem walkFinds (v : Nat) : (walkpgdir k d v false).2.2 = (d.pde (pdx v)).isSome := by
  unfold walkpgdir
  cases d.pde (pdx v) <;> rfl

theorem handlerAbsent (table : (s.proc i).pgdir = some d) (absent : d.pde (pdx (a / pgSize)) = none) :
    cowHandler s i a = if on (d.pte 0) pteP then .ok (kill s (s.proc i).pid).1 else .error .hang := by
  have none := walkFinds (k := s.k) (d := d) (a / pgSize)
  rw [absent] at none
  unfold cowHandler
  rw [table]
  dsimp only
  split
  · rfl
  · rename_i found
    rw [found] at none
    cases none

theorem handlerFinds (table : (s.proc i).pgdir = some d) (found : d.pde (pdx (a / pgSize)) ≠ none) :
    cowHandler s i a = if on (d.pte (a / pgSize)) pteP = false ∨ on (d.pte (a / pgSize)) pteU = false ∨ userTop < a then
        .ok (kill s (s.proc i).pid).1
      else if refCount s.k (pageOf (d.pte (a / pgSize))) ≤ 1 then
        .ok (s.put i s.k {s.proc i with pgdir := some (lcr3 (d.set (a / pgSize) (d.pte (a / pgSize) + 2)))})
      else match kalloc s.k with
        | (some mem, k) => .ok (s.put i
            ((decPageRef k (pageOf (d.pte (a / pgSize)))).write mem ((decPageRef k (pageOf (d.pte (a / pgSize)))).mem (pageOf (d.pte (a / pgSize)))))
            {s.proc i with pgdir := some (lcr3 (d.set (a / pgSize) (cowWord mem (d.pte (a / pgSize)))))})
        | (none, k) => do
          let s := (kill {s with k := k} (s.proc i).pid).1
          let k := decPageRef s.k (pageOf (d.pte (a / pgSize)))
          let k ← storePageZero k d (k.mem (pageOf (d.pte (a / pgSize))))
          return s.put i k {s.proc i with pgdir := some (lcr3 (d.set (a / pgSize) (cowWord 0 (d.pte (a / pgSize)))))} := by
  have some := walkFinds (k := s.k) (d := d) (a / pgSize)
  rw [Option.isSome_iff_ne_none.mpr found] at some
  unfold cowHandler
  rw [table]
  dsimp only
  split
  · rename_i none
    rw [none] at some
    cases some
  · rfl

theorem refusedIff (sane : d.Sane) :
    (on (d.pte (a / pgSize)) pteP = false ∨ on (d.pte (a / pgSize)) pteU = false ∨ userTop < a) ↔
      userOn (d.pte (a / pgSize)) = false := by
  constructor
  · rintro (absent | kernel | high)
    · exact notUser absent
    · unfold userOn
      rw [kernel, Bool.and_false]
    · by_contra user
      have low := userLow sane (eq_true_of_ne_false user)
      unfold userTop userPages pgSize at *
      omega
  · intro off
    rcases Bool.and_eq_false_iff.mp off with absent | kernel
    · exact .inl absent
    · exact .inr (.inl kernel)

theorem userFound (sane : d.Sane) (user : userOn (d.pte v) = true) : d.pde (pdx v) ≠ none := by
  intro absent
  rw [sane.absent v absent] at user
  exact absurd user (by rw [wordZero]; decide)

def starved (s : Sys) (i : Slot) (d : Pgdir) (v : Nat) : Sys :=
  let w := d.pte v
  let k := decPageRef {s.k with oom := true} (pageOf w)
  s.put i (k.write (pageOf (d.pte 0)) (s.k.mem (pageOf w))) {s.proc i with
    killed := true
    pgdir := some (lcr3 (d.set v (cowWord 0 w)))}

theorem handlerStarves (current : Current s i) (table : (s.proc i).pgdir = some d) (found : d.pde (pdx (a / pgSize)) ≠ none)
    (passes : ¬ (on (d.pte (a / pgSize)) pteP = false ∨ on (d.pte (a / pgSize)) pteU = false ∨ userTop < a))
    (many : 1 < refCount s.k (pageOf (d.pte (a / pgSize)))) (empty : s.k.freelist = []) :
    cowHandler s i a = if on (d.pte 0) pteP then .ok (starved s i d (a / pgSize)) else .error .hang := by
  have killed := Current.kill (s := {s with k := {s.k with oom := true}}) ⟨current.runs, current.own⟩
  dsimp only at killed
  rw [handlerFinds table found, if_neg passes, if_neg (by omega), kallocEmpty empty]
  dsimp only
  rw [killed]
  unfold storePageZero
  split
  · rw [okBind, Sys.putPut, Sys.putSelf, Sys.putK]
    rfl
  · rfl

/-! ### What the handler does to a sound table -/

theorem reclaimResolves (good : d.Ok) (user : userOn (d.pte v) = true) (off : on (d.pte v) pteW = false)
    (last : k.refCnt (pageOf (d.pte v)) ≤ 1) (before : Accounts L k (d.owned + K) (d.shared + U)) :
    Resolved L k d v k (lcr3 (d.set v (d.pte v + 2))) := by
  have low := userLow good.toSane user
  have nonzero := good.nonzero v low user
  obtain ⟨page, u, shown, writable⟩ := reclaimed user off
  exact resolve good low user before (reclaimMoves' user nonzero off last) u shown writable (by rwa [page]) (by rw [page])

theorem replaceResolves {g : Nat} (good : d.Ok) (user : userOn (d.pte v) = true) (off : on (d.pte v) pteW = false)
    (many : 1 < k.refCnt (pageOf (d.pte v))) (before : Accounts L k (d.owned + K) (d.shared + U)) (taken : kalloc k = (some g, k')) :
    Resolved L k d v
      ((decPageRef k' (pageOf (d.pte v))).write g ((decPageRef k' (pageOf (d.pte v))).mem (pageOf (d.pte v))))
      (lcr3 (d.set v (cowWord g (d.pte v)))) := by
  have low := userLow good.toSane user
  have free : g ∈ k.freelist := by
    rw [(kallocSome taken).1]
    simp
  have inside : g ∈ L.pool := before.freeIn free
  have other : pageOf (d.pte v) ≠ g := by
    intro same
    have share : pageOf (d.pte v) ∈ d.shared + U := by
      rw [Pgdir.sharedSplit low, (sharedWord user off).2]
      simp
    exact before.sharedNotFree share (same ▸ free)
  obtain ⟨page, u, shown, writable⟩ := cowWordSpec (poolFits inside) (d.pte v)
  refine resolve good low user before (replaceMoves user off many taken other inside _) u shown writable ?_ ?_
  · rw [page]
    exact poolPos inside
  · rw [page]
    simp [Kmem.write, decPageRef, kallocMem taken]

theorem cowHandlerCases (pids : Pids s) (runs : (s.proc i).state = .runnable) (run : Runs (s.proc i) d)
    (before : Accounts L s.k (d.owned + K) (d.shared + U))
    (fault : (userOn (d.pte (a / pgSize)) && on (d.pte (a / pgSize)) pteW) = false)
    (ok : cowHandler s i a = .ok s') :
    (s' = s.put i s.k {s.proc i with killed := true} ∧ userOn (d.pte (a / pgSize)) = false) ∨
    (∃ k' d', s' = s.put i k' {s.proc i with pgdir := some d'} ∧ userOn (d.pte (a / pgSize)) = true ∧
      a / pgSize < userPages ∧ Resolved L s.k d (a / pgSize) k' d') ∨
    (s' = starved s i d (a / pgSize) ∧ s.k.freelist = [] ∧ 1 < s.k.refCnt (pageOf (d.pte (a / pgSize))) ∧
      userOn (d.pte (a / pgSize)) = true ∧ a / pgSize < userPages ∧ on (d.pte 0) pteP = true) := by
  have current := pids.current runs
  have refused := refusedIff (a := a) run.good.toSane
  cases user : userOn (d.pte (a / pgSize)) with
  | false =>
    refine .inl ⟨?_, rfl⟩
    by_cases absent : d.pde (pdx (a / pgSize)) = none
    · rw [handlerAbsent run.pgdir absent, current.kill] at ok
      split at ok
      · exact (Except.ok.inj ok).symm
      · cases ok
    · rw [handlerFinds run.pgdir absent, if_pos (refused.mpr user), current.kill] at ok
      exact (Except.ok.inj ok).symm
  | true =>
    have low := userLow run.good.toSane user
    have found := userFound run.good.toSane user
    have passes := mt refused.mp (by rw [user]; decide)
    have off : on (d.pte (a / pgSize)) pteW = false := by rwa [user, Bool.true_and] at fault
    by_cases last : refCount s.k (pageOf (d.pte (a / pgSize))) ≤ 1
    · rw [handlerFinds run.pgdir found, if_neg passes, if_pos last] at ok
      exact .inr (.inl ⟨_, _, (Except.ok.inj ok).symm, rfl, low, reclaimResolves run.good user off last before⟩)
    have many := not_le.mp last
    cases free : s.k.freelist with
    | nil =>
      rw [handlerStarves current run.pgdir found passes many free] at ok
      split at ok
      · rename_i zero
        exact .inr (.inr ⟨(Except.ok.inj ok).symm, rfl, many, rfl, low, zero⟩)
      · cases ok
    | cons g rest =>
      have taken := kallocFree free
      rw [handlerFinds run.pgdir found, if_neg passes, if_neg last, taken] at ok
      exact .inr (.inl ⟨_, _, (Except.ok.inj ok).symm, rfl, low, replaceResolves run.good user off many before taken⟩)

end OpSys.Cow
