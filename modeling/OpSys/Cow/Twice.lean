import OpSys.Cow.Accounting
import OpSys.Cow.Trap

/-! `cowHandler` on a present user page, for any flags in its word, and once more on
the same page. -/
namespace OpSys.Cow
open OpSys.Xv6 Finset

variable {L : Layout} {s s' : Sys} {i : Slot} {d d' : Pgdir} {a v f : Nat} {w : Word}

structure Consistent (s : Sys) : Prop where
  counted : ∀ f, (s.mappers f).Nonempty → s.k.refCnt f = (s.mappers f).card
  free : ∀ f ∈ s.k.freelist, s.mappers f = ∅ ∧ f < 2 ^ 20

theorem PageAccounts.consistent (h : PageAccounts L s) : Consistent s := by
  refine ⟨fun f => ?_, fun f free => ⟨?_, poolFits ((h.covered f).mpr (.inl free))⟩⟩
  · unfold Sys.mappers
    exact h.counted f
  · unfold Sys.mappers
    exact (h.freeApart f free).2

/-- The page is writable, its bytes are the same and nobody else has it; the other
flags, words and pages are as they were, and the count of the old page is one
less if it was shared. -/
structure Once (s : Sys) (i : Slot) (d : Pgdir) (v : Nat) (s' : Sys) (d' : Pgdir) : Prop where
  process : s'.proc i = {s.proc i with pgdir := some d'}
  others : ∀ j, j ≠ i → s'.proc j = s.proc j
  tables : d'.page = d.page ∧ d'.pde = d.pde
  words : ∀ u, u ≠ v → d'.pte u = d.pte u
  user : userOn (d'.pte v) = true
  writable : on (d'.pte v) pteW = true
  flags : pteFlags (d'.pte v) = pteFlags (d.pte v) ||| pteW
  bytes : s'.k.mem (pageOf (d'.pte v)) = s.k.mem (pageOf (d.pte v))
  alone : refCount s'.k (pageOf (d'.pte v)) = 1
  dropped : refCount s'.k (pageOf (d.pte v)) + (if 1 < refCount s.k (pageOf (d.pte v)) then 1 else 0) =
    refCount s.k (pageOf (d.pte v))
  old : s'.k.mem (pageOf (d.pte v)) = s.k.mem (pageOf (d.pte v))
  frames : ∀ f, f ≠ pageOf (d.pte v) → f ≠ pageOf (d'.pte v) → s'.k.mem f = s.k.mem f ∧ refCount s'.k f = refCount s.k f

theorem Valid.userOn (h : Valid d a) : userOn (d.pte (a / pgSize)) = true := Bool.and_eq_true_iff.mpr ⟨h.present, h.user⟩

/-! ### Flags -/

theorem flagBits (w : Word) (i : Nat) : (pteFlags w).getLsbD i = (w.getLsbD i && decide (i < 12)) := by
  have mask : ∀ j : Fin 32, flagMask.getLsbD j = decide (j.val < 12) := by decide
  unfold pteFlags
  rw [BitVec.getLsbD_and]
  by_cases low : i < 32
  · rw [mask ⟨i, low⟩]
  · rw [BitVec.getLsbD_of_ge w i (by omega), Bool.false_and, Bool.false_and]

theorem flagsGranted (off : on w pteW = false) : pteFlags (w + 2) = pteFlags w ||| pteW := by
  rw [addWrite off]
  apply BitVec.eq_of_getLsbD_eq
  intro i low
  rw [flagBits, BitVec.getLsbD_or, BitVec.getLsbD_or, flagBits]
  have mask : ∀ j : Fin 32, pteW.getLsbD j = decide (j.val = 1) := by decide
  rw [mask ⟨i, low⟩]
  by_cases one : i = 1
  · simp [one]
  · simp [one]

theorem flagsCopied (fits : f < 2 ^ 20) (present : on w pteP = true) (user : on w pteU = true) :
    pteFlags (cowWord f w) = pteFlags w ||| pteW := by
  rw [onP] at present
  rw [onU] at user
  have maskP : ∀ j : Fin 32, pteP.getLsbD j = decide (j.val = 0) := by decide
  have maskW : ∀ j : Fin 32, pteW.getLsbD j = decide (j.val = 1) := by decide
  have maskU : ∀ j : Fin 32, pteU.getLsbD j = decide (j.val = 2) := by decide
  apply BitVec.eq_of_getLsbD_eq
  intro i low
  unfold cowWord
  rw [flagBits, BitVec.getLsbD_or, BitVec.getLsbD_or, BitVec.getLsbD_or, BitVec.getLsbD_or, BitVec.getLsbD_or, flagBits,
    paddrBits i fits, maskP ⟨i, low⟩, maskW ⟨i, low⟩, maskU ⟨i, low⟩]
  by_cases zero : i = 0
  · subst i
    simp [present]
  · by_cases two : i = 2
    · subst i
      simp [user]
    · by_cases flag : i < 12
      · simp [zero, two, flag, show ¬ 12 ≤ i by omega]
      · simp [zero, two, flag, show ¬ i = 1 by omega]

/-! ### The first time -/

theorem onceAlone (valid : Valid d a) (off : on (d.pte (a / pgSize)) pteW = false) (one : refCount s.k (pageOf (d.pte (a / pgSize))) = 1) :
    Once s i d (a / pgSize) (s.put i s.k {s.proc i with pgdir := some (lcr3 (d.set (a / pgSize) (d.pte (a / pgSize) + 2)))})
      (lcr3 (d.set (a / pgSize) (d.pte (a / pgSize) + 2))) := by
  have here : (lcr3 (d.set (a / pgSize) (d.pte (a / pgSize) + 2))).pte (a / pgSize) = d.pte (a / pgSize) + 2 := by
    rw [Pgdir.lcr3Pte, Pgdir.setSelf]
  obtain ⟨page, _, user, writable⟩ := reclaimed valid.userOn off
  refine ⟨Sys.putSelf, fun j other => Sys.putOther other, ⟨rfl, rfl⟩, fun u other => Pgdir.setOther other, ?_, ?_, ?_, ?_, ?_, ?_,
    rfl, fun f _ _ => ⟨rfl, rfl⟩⟩
  · rwa [here]
  · rwa [here]
  · rw [here]
    exact flagsGranted off
  · rw [here, page, Sys.putK]
  · rw [here, page, Sys.putK, one]
  · rw [Sys.putK, one]
    rfl

theorem onceShared {g : Nat} {k : Kmem} (valid : Valid d a) (many : 1 < refCount s.k (pageOf (d.pte (a / pgSize))))
    (taken : kalloc s.k = (some g, k)) (fits : g < 2 ^ 20) (other : pageOf (d.pte (a / pgSize)) ≠ g) :
    Once s i d (a / pgSize) (s.put i ((decPageRef k (pageOf (d.pte (a / pgSize)))).write g
        ((decPageRef k (pageOf (d.pte (a / pgSize)))).mem (pageOf (d.pte (a / pgSize)))))
      {s.proc i with pgdir := some (lcr3 (d.set (a / pgSize) (cowWord g (d.pte (a / pgSize)))))})
      (lcr3 (d.set (a / pgSize) (cowWord g (d.pte (a / pgSize))))) := by
  have here : (lcr3 (d.set (a / pgSize) (cowWord g (d.pte (a / pgSize))))).pte (a / pgSize) = cowWord g (d.pte (a / pgSize)) := by
    rw [Pgdir.lcr3Pte, Pgdir.setSelf]
  obtain ⟨page, _, user, writable⟩ := cowWordSpec fits (d.pte (a / pgSize))
  generalize after : (decPageRef k (pageOf (d.pte (a / pgSize)))).write g
    ((decPageRef k (pageOf (d.pte (a / pgSize)))).mem (pageOf (d.pte (a / pgSize)))) = k'
  have mem : k'.mem = Function.update s.k.mem g (s.k.mem (pageOf (d.pte (a / pgSize)))) := by
    rw [← after, ← kallocMem taken]
    rfl
  have counts : k'.refCnt = Function.update (Function.update s.k.refCnt g 1) (pageOf (d.pte (a / pgSize)))
      (s.k.refCnt (pageOf (d.pte (a / pgSize))) - 1) := by
    have one : k.refCnt = Function.update s.k.refCnt g 1 := by rw [(kallocSome taken).2]
    have same : k.refCnt (pageOf (d.pte (a / pgSize))) = s.k.refCnt (pageOf (d.pte (a / pgSize))) := by
      rw [one, Function.update_of_ne other]
    rw [← after, ← one, ← same]
    rfl
  unfold refCount at many
  refine ⟨Sys.putSelf, fun j away => Sys.putOther away, ⟨rfl, rfl⟩, fun u away => Pgdir.setOther away, ?_, ?_, ?_, ?_, ?_, ?_, ?_,
    fun f away away' => ?_⟩
  · rwa [here]
  · rwa [here]
  · rw [here]
    exact flagsCopied fits valid.present valid.user
  · rw [here, page, Sys.putK, mem, Function.update_self]
  · unfold refCount
    rw [here, page, Sys.putK, counts, Function.update_of_ne other.symm, Function.update_self]
  · unfold refCount
    rw [Sys.putK, if_pos many, counts, Function.update_self]
    omega
  · rw [Sys.putK, mem, Function.update_of_ne other]
  · rw [here, page] at away'
    unfold refCount
    rw [Sys.putK, mem, counts, Function.update_of_ne away', Function.update_of_ne away, Function.update_of_ne away']
    exact ⟨rfl, rfl⟩

/-! ### The second time -/

theorem twoMore (w : Word) : w + 2 ≠ w := by
  intro same
  simp at same

theorem againChanges (valid : Valid d a) (once : Once s i d (a / pgSize) s' d') : cowHandler s' i a ≠ .ok s' := by
  intro again
  have table : (s'.proc i).pgdir = some d' := by rw [once.process]
  obtain ⟨present, user⟩ := Bool.and_eq_true_iff.mp once.user
  have found : d'.pde (pdx (a / pgSize)) ≠ none := by
    rw [once.tables.2]
    exact valid.table
  have valid' : Valid d' a := ⟨found, present, user, valid.low⟩
  rw [handlerFinds table found, if_neg valid'.passes, if_pos once.alone.le] at again
  have same := congrArg (fun s : Sys => (s.proc i).pgdir) (Except.ok.inj again)
  dsimp only at same
  rw [Sys.putSelf, table] at same
  have word := congrFun (congrArg Pgdir.pte (Option.some.inj same)) (a / pgSize)
  rw [Pgdir.lcr3Pte, Pgdir.setSelf] at word
  exact twoMore _ word

theorem firstTime (runs : (s.proc i).state = .runnable) (table : (s.proc i).pgdir = some d) (valid : Valid d a)
    (low : a / pgSize < userPages) (consistent : Consistent s)
    (room : 1 < refCount s.k (pageOf (d.pte (a / pgSize))) → s.k.freelist ≠ []) :
    ∃ s', cowHandler s i a = .ok s' ∧ ((∃ d', Once s i d (a / pgSize) s' d') ↔
      on (d.pte (a / pgSize)) pteW = false ∨ 1 < refCount s.k (pageOf (d.pte (a / pgSize)))) := by
  have mapped : (i, a / pgSize) ∈ s.mappers (pageOf (d.pte (a / pgSize))) := by
    have word : s.pte (i, a / pgSize) = d.pte (a / pgSize) := by
      unfold Sys.pte Proc.pte
      rw [tableAlive (.inl (by rw [runs]; rfl)), table]
    rw [Sys.memMappers, word]
    exact ⟨Sys.memUserWords.mpr low, valid.userOn, rfl⟩
  have ran := handlerFinds table valid.table
  rw [if_neg valid.passes] at ran
  by_cases many : 1 < refCount s.k (pageOf (d.pte (a / pgSize)))
  · rw [if_neg (by omega)] at ran
    cases free : s.k.freelist with
    | nil => exact absurd free (room many)
    | cons g rest =>
      obtain ⟨k, taken⟩ : ∃ k, kalloc s.k = (some g, k) := ⟨_, kallocFree free⟩
      obtain ⟨unmapped, fits⟩ := consistent.free g (by rw [free]; exact List.mem_cons_self)
      have other : pageOf (d.pte (a / pgSize)) ≠ g := by
        rintro rfl
        rw [unmapped] at mapped
        exact notMem_empty _ mapped
      rw [taken] at ran
      exact ⟨_, ran, iff_of_true ⟨_, onceShared valid many taken fits other⟩ (.inr many)⟩
  · rw [if_pos (by omega)] at ran
    have one : refCount s.k (pageOf (d.pte (a / pgSize))) = 1 := by
      have counted := consistent.counted _ ⟨_, mapped⟩
      have some := card_pos.mpr ⟨_, mapped⟩
      unfold refCount at many ⊢
      omega
    refine ⟨_, ran, fun ⟨d', once⟩ => ?_, fun off => ⟨_, onceAlone valid (off.resolve_right many) one⟩⟩
    -- with the write bit set the carry takes the user bit away
    left
    have process := once.process
    rw [Sys.putSelf] at process
    have same := Option.some.inj (congrArg Proc.pgdir process)
    have user := (Bool.and_eq_true_iff.mp once.user).2
    rw [← same, Pgdir.lcr3Pte, Pgdir.setSelf, (addedTwo valid.present valid.user).2] at user
    simpa using user

theorem writableOnce (runs : (s.proc i).state = .runnable) (table : (s.proc i).pgdir = some d) (valid : Valid d a)
    (low : a / pgSize < userPages) (consistent : Consistent s)
    (room : 1 < refCount s.k (pageOf (d.pte (a / pgSize))) → s.k.freelist ≠ []) :
    ∃ s', cowHandler s i a = .ok s' ∧
      ((∃ d', Once s i d (a / pgSize) s' d') ↔
        on (d.pte (a / pgSize)) pteW = false ∨ 1 < refCount s.k (pageOf (d.pte (a / pgSize)))) ∧
      ¬ ((∃ d', Once s i d (a / pgSize) s' d') ∧ cowHandler s' i a = .ok s') := by
  obtain ⟨s', ran, first⟩ := firstTime runs table valid low consistent room
  exact ⟨s', ran, first, fun ⟨⟨_, once⟩, again⟩ => againChanges valid once again⟩

theorem forkedPage : ∃ s i d, (machine cowuvm Layout.sample).Reachable s ∧ Ready s i ∧
    (s.proc i).pgdir = some d ∧ Valid d 0 ∧ on (d.pte 0) pteW = false ∧ Consistent s ∧ s.k.freelist ≠ [] := by
  obtain ⟨s, i, j, d, c, h⟩ := sampleForks
  obtain ⟨present, user⟩ := Bool.and_eq_true_iff.mp h.user
  have some : s.k.freelist ≠ [] := List.length_pos_iff.mp (by rw [← h.room]; decide)
  exact ⟨s, i, d, h.reach, h.ready, h.run.pgdir, ⟨h.run.good.table, present, user, Nat.zero_le _⟩, h.off,
    ((reachInv cowCopies h.reach).pageAccounts h.fine).consistent, some⟩

theorem writableOnceForked : ∃ s i d s', (machine cowuvm Layout.sample).Reachable s ∧ cowHandler s i 0 = .ok s' ∧
    (∃ d', Once s i d 0 s' d') ∧ cowHandler s' i 0 ≠ .ok s' := by
  obtain ⟨s, i, d, reach, ready, table, valid, off, consistent, some⟩ := forkedPage
  obtain ⟨s', ran, first, never⟩ := writableOnce ready.runs table valid (by decide) consistent fun _ => some
  have once := first.mpr (.inl off)
  exact ⟨s, i, d, s', reach, ran, once, fun again => never ⟨once, again⟩⟩

/-- Run again on the page that is writable now, the handler takes it away from the user. -/
theorem secondTimeHides : ∃ s i d s' d' s'' d'', (machine cowuvm Layout.sample).Reachable s ∧ Valid d 0 ∧ Consistent s ∧
    (s.proc i).pgdir = some d ∧ cowHandler s i 0 = .ok s' ∧ Once s i d 0 s' d' ∧ cowHandler s' i 0 = .ok s'' ∧ s'' ≠ s' ∧
    (s''.proc i).pgdir = some d'' ∧ on (d''.pte 0) pteU = false := by
  obtain ⟨s, i, d, reach, ready, table, valid, off, consistent, room⟩ := forkedPage
  obtain ⟨s', ran, first⟩ := firstTime ready.runs table valid (by decide) consistent fun _ => room
  obtain ⟨d', once⟩ := first.mpr (.inl off)
  obtain ⟨present, user⟩ := Bool.and_eq_true_iff.mp once.user
  have found : d'.pde (pdx (0 / pgSize)) ≠ none := by
    rw [once.tables.2]
    exact valid.table
  have valid' : Valid d' 0 := ⟨found, present, user, Nat.zero_le _⟩
  have table' : (s'.proc i).pgdir = some d' := by rw [once.process]
  have again := handlerFinds table' found
  rw [if_neg valid'.passes, if_pos once.alone.le] at again
  refine ⟨s, i, d, s', d', _, _, reach, valid, consistent, table, ran, once, again, fun same => ?_, by rw [Sys.putSelf], ?_⟩
  · exact againChanges valid once (again.trans (congrArg Except.ok same))
  · have here : (d'.set (0 / pgSize) (d'.pte (0 / pgSize) + 2)).pte 0 = d'.pte (0 / pgSize) + 2 := Pgdir.setSelf
    rw [Pgdir.lcr3Pte, here, (addedTwo present user).2, once.writable]
    rfl

end OpSys.Cow
