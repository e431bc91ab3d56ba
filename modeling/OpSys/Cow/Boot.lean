import OpSys.Cow.Image

/-! The boot establishes the invariant, and with enough memory it ends with one
process that may run. -/
namespace OpSys.Cow
open OpSys.Xv6 Finset

variable {L : Layout} {k k' : Kmem} {d d' : Pgdir} {s s' : Sys} {i j : Slot} {p : Proc} {v sz : Nat}
variable {K U : Multiset Nat}

theorem bootothersMoves {n : Nat} {taken taken' : List Nat} (ok : bootothers n k taken = (k', taken')) :
    Moves L k taken 0 k' taken' 0 := by
  induction n generalizing k taken with
  | zero =>
    cases ok
    exact .refl _ _ _
  | succ n ih =>
    unfold bootothers at ok
    cases stack : kalloc k with
    | mk o mid =>
    rw [stack] at ok
    cases o with
    | none => exact (kallocShort stack _ _).trans (ih ok)
    | some f =>
      have framed := (kallocMoves (L := L) stack).frame taken 0
      rw [zero_add, zero_add, Multiset.singleton_add, Multiset.cons_coe] at framed
      exact framed.trans (ih ok)

theorem inituvmSpec {f : Nat} {init : List UInt8} (table : KernelTable d) (fits : init.length < pgSize)
    (inside : f ∈ L.pool) (taken : kalloc k = (some f, k')) :
    ∃ k₂, inituvm k d init = .ok (k₂, d.set 0 (userWord f)) ∧ Alters L k d k₂ (d.set 0 (userWord f)) ∧
      Image (d.set 0 (userWord f)) pgSize ∧ k₂.freelist = k'.freelist ∧ k₂.oom = k'.oom := by
  have empty : d.pte 0 = 0 := table.noUser 0 (by decide)
  have absent : on (d.pte 0) pteP = false := by rw [empty]; exact bareAbsent
  have fits' := poolFits inside
  have word := allocPageMoves absent inside taken zeroPage
  have first : Alters L k d (k'.write f zeroPage) (d.set 0 (userWord f)) :=
    .set table.good.toSane (by decide) word (fun _ => userWordU fits') (absentNot (userWordP f))
  have image : Image (d.set 0 (userWord f)) pgSize := by
    refine ⟨table.good.set (by decide) (fun _ => userWordU fits') (fun _ => ?_), by decide, fun v low => ?_, fun v low user => ?_,
      first.blank table.blank⟩
    · rw [userWordPage fits']
      exact poolPos inside
    · by_cases zero : v = 0
      · subst v
        rw [Pgdir.setSelf, userWordP]
        rfl
      · rw [Pgdir.setOther zero, table.noUser v low, bareAbsent]
        exact (decide_eq_false (by unfold pgSize; omega)).symm
    · by_cases zero : v = 0
      · subst v
        rw [Pgdir.setSelf]
        exact userWordW fits'
      · rw [Pgdir.setOther zero, table.noUser v low, wordZero] at user
        cases user
  have user : userOn ((d.set 0 (userWord f)).pte 0) = true := by
    rw [Pgdir.setSelf]
    exact userWordOn fits'
  have page : pageOf ((d.set 0 (userWord f)).pte 0) = f := by rw [Pgdir.setSelf, userWordPage fits']
  refine ⟨(k'.write f zeroPage).copy f 0 init, ?_, first.trans ⟨?_, first.sane, rfl, rfl, fun _ _ => rfl, id⟩, image, rfl, rfl⟩
  · unfold inituvm
    rw [if_neg (by omega), taken]
    dsimp only
    have mapped := mapUser (k := k'.write f zeroPage) (f := f) (w := pteW ||| pteU) table.good.toSane (by decide) absent
    rw [Nat.zero_mul] at mapped
    rw [mapped]
    rfl
  · have written := privateWrite (L := L) (k := k'.write f zeroPage) image.good image.writable user
      (fun x => if 0 ≤ x ∧ x < 0 + init.length then init.getD (x - 0) 0 else (k'.write f zeroPage).mem f x)
    rwa [page] at written

theorem Inv.setInit (h : Inv L s) : Inv L {s with initproc := i} := by
  obtain ⟨lost, holds, none⟩ := h.accounts
  refine ⟨⟨lost, ?_, none⟩, h.sound, ⟨h.pids.positive, h.pids.below, h.pids.used, h.pids.differ⟩, h.unprotected⟩
  unfold Holds Sys.owned Sys.shared at *
  exact holds

theorem Inv.hatch {f : Nat} (h : Inv L s) (embryo : (s.proc i).state = .embryo) (stack : (s.proc i).kstack = some f)
    (moves : Moves L s.k 0 0 k' d.owned d.shared) (run : Runs p d) (state : p.state = .runnable)
    (same : p.kstack = (s.proc i).kstack) (pid : p.pid = (s.proc i).pid) : Inv L (s.put i k' p) := by
  have held : (s.proc i).owned = {f} ∧ (s.proc i).shared = 0 := by
    unfold Proc.owned Proc.shared
    rw [embryo, stack]
    exact ⟨rfl, rfl⟩
  have after := heldAlive (p := p) (.inl (by rw [state]; rfl)) run.pgdir
  refine h.put (X := 0) ?_ (fun _ => rfl) ⟨fun _ => ⟨f, same.trans stack⟩, fun _ => ⟨d, run⟩, fun bad => ?_⟩ (.inl pid)
    (fun _ => by rw [embryo]; decide)
  · have framed := moves.frameLeft {f} 0
    rw [add_zero, add_zero, zero_add] at framed
    rwa [held.1, held.2, after.1, after.2, same, stack, add_zero]
  · rw [state] at bad
    cases bad

def initProc (s : Sys) (i : Slot) (d : Pgdir) : Proc := {s.proc i with
  pgdir := some d
  sz := pgSize
  name := initcodeName
  state := .runnable}

theorem userinitCases (h : Inv L s) (ok : userinit L s = .ok s') :
    ∃ i s₁ k₁ c f k₂ k₃, allocproc s = (some i, s₁) ∧ setupkvm L s₁.k = .ok (k₁, some c) ∧ kalloc k₁ = (some f, k₂) ∧
      inituvm k₁ c L.initcode = .ok (k₃, c.set 0 (userWord f)) ∧ Moves L s₁.k 0 0 k₁ c.owned c.shared ∧
      Alters L k₁ c k₃ (c.set 0 (userWord f)) ∧ Image (c.set 0 (userWord f)) pgSize ∧
      s' = {s₁.put i k₃ (initProc s₁ i (c.set 0 (userWord f))) with initproc := i} := by
  unfold userinit at ok
  split at ok
  · cases ok
  rename_i i s₁ alloc
  have mid := allocprocInv h alloc
  obtain ⟨lost, holds, _⟩ := mid.accounts
  rcases setupkvmSpec L s₁.k with ⟨k₁, c, run, moves, table, _⟩ | ⟨k₁, lost, run, _⟩
  · rw [run, okBind] at ok
    obtain ⟨⟨k₃, d₃⟩, init, ok⟩ := bindOk ok
    cases ok
    have before := moves.accounts (K := s₁.owned + lost) (U := s₁.shared + 0) (by rwa [zero_add, zero_add])
    cases taken : kalloc k₁ with
    | mk o k₂ =>
    have fits : L.initcode.length < pgSize := by
      unfold inituvm at init
      split at init
      · cases init
      · omega
    cases o with
    | none =>
      unfold inituvm at init
      rw [if_neg (by omega), taken] at init
      cases init
    | some f =>
      have inside : f ∈ L.pool := before.freeIn (a := f) (by
        change f ∈ k₁.freelist
        rw [(kallocSome taken).1]
        simp)
      obtain ⟨k₄, runs, alters, image, _⟩ := inituvmSpec table fits inside taken
      cases runs.symm.trans init
      exact ⟨i, s₁, k₁, c, f, k₂, k₃, alloc, run, taken, runs, moves, alters, image, rfl⟩
  · rw [run] at ok
    cases ok

theorem userinitInv (h : Inv L s) (ok : userinit L s = .ok s') : Inv L s' := by
  obtain ⟨i, s₁, k₁, c, f, k₂, k₃, alloc, _, _, _, moves, alters, image, rfl⟩ := userinitCases h ok
  have mid := allocprocInv h alloc
  obtain ⟨stack, own, embryo, _, _⟩ := allocprocMade alloc
  have run : Runs (initProc s₁ i (c.set 0 (userWord f))) (c.set 0 (userWord f)) :=
    ⟨rfl, image.good, image.top, image.filled.above⟩
  exact (mid.hatch embryo own (moves.trans alters.moves) run rfl rfl rfl).setInit

theorem vmenableWp {cr0 : Word} (off : cr0.getLsbD 16 = false) : on (vmenable cr0) CR0_WP = false := by
  have wp : CR0_WP = BitVec.twoPow 32 16 := by decide
  have pg : CR0_PG.getLsbD 16 = false := by decide
  rw [wp, onTwoPow _ (by decide), vmenable, BitVec.getLsbD_or, off, pg]
  rfl

theorem startInv {kpgdir : Pgdir} {bootstacks : List Nat} (balanced : Accounts L k (kpgdir.tables + bootstacks) 0) :
    Inv L ⟨k, fun _ => procBss, 0, 1, kpgdir, bootstacks, [], vmenable L.cr0⟩ := by
  refine ⟨⟨0, ?_, fun _ => rfl⟩, fun _ => soundUnused rfl, ⟨Int.one_pos, fun _ => Int.one_pos,
    fun _ used => absurd rfl used, fun _ _ _ pos => absurd pos (lt_irrefl 0)⟩, vmenableWp L.unprotected⟩
  unfold Holds Sys.owned Sys.shared Sys.kernel
  have none := heldUnused (p := procBss) rfl
  simp only [none.1, none.2, sum_const_zero, zero_add, add_zero, List.map_nil, Multiset.coe_nil]
  exact balanced

theorem bootCases (ok : boot L = .ok s) : ∃ k k₁ stack kpgdir k₂ k₃ bootstacks, kinit L = .ok k ∧
    kalloc k = (some stack, k₁) ∧ setupkvm L k₁ = .ok (k₂, some kpgdir) ∧
    bootothers (L.ncpu - 1) k₂ [stack] = (k₃, bootstacks) ∧
    userinit L ⟨k₃, fun _ => procBss, 0, 1, kpgdir, bootstacks, [], vmenable L.cr0⟩ = .ok s := by
  unfold boot at ok
  obtain ⟨k, start, ok⟩ := bindOk ok
  split at ok
  · cases ok
  rename_i stack k₁ taken
  obtain ⟨⟨k₂, o⟩, table, ok⟩ := bindOk ok
  cases o with
  | none => cases ok
  | some kpgdir =>
    cases others : bootothers (L.ncpu - 1) k₂ [stack] with
    | mk k₃ bootstacks =>
    dsimp only at ok
    rw [others] at ok
    exact ⟨k, k₁, stack, kpgdir, k₂, k₃, bootstacks, start, taken, table, others, ok⟩

theorem startAccounts {k₁ k₂ k₃ : Kmem} {stack : Nat} {kpgdir : Pgdir} {bootstacks : List Nat} (start : kinit L = .ok k)
    (taken : kalloc k = (some stack, k₁)) (table : setupkvm L k₁ = .ok (k₂, some kpgdir))
    (others : bootothers (L.ncpu - 1) k₂ [stack] = (k₃, bootstacks)) :
    Accounts L k₃ (kpgdir.tables + bootstacks) 0 := by
  have first := (kallocMoves (L := L) taken).accounts (K := 0) (U := 0) (by
    rw [add_zero]
    exact kinitAccounts start)
  rcases setupkvmSpec L k₁ with ⟨k₂', d, run, moves, good, _⟩ | ⟨k₂', lost, run, _⟩
  · cases table.symm.trans run
    have second := moves.accounts (K := {stack} + 0) (U := 0 + 0) (by rwa [zero_add, zero_add])
    have third := bootothersMoves (L := L) others
    have framed := third.frameLeft kpgdir.tables 0
    rw [add_zero] at framed
    rw [good.unshared, (emptyHeld good.absent).1] at second
    have last := framed.accounts (K := 0) (U := 0) (by
      rw [add_zero, add_zero]
      rw [add_zero, add_zero, add_zero] at second
      exact second)
    rwa [add_zero, add_zero] at last
  · cases table.symm.trans run

theorem bootInv (ok : boot L = .ok s) : Inv L s := by
  obtain ⟨k, k₁, stack, kpgdir, k₂, k₃, bootstacks, start, taken, table, others, init⟩ := bootCases ok
  exact userinitInv (startInv (startAccounts start taken table others)) init

theorem bootProc (ok : boot L = .ok s) (live : alive (s.proc i).state = true) :
    ∃ d, (s.proc i).pgdir = some d ∧ Image d (s.proc i).sz ∧ d.stale = [] := by
  obtain ⟨k, k₁, stack, kpgdir, k₂, k₃, bootstacks, start, taken, table, others, init⟩ := bootCases ok
  obtain ⟨m, s₁, k₄, c, f, k₅, k₆, alloc, made, _, _, _, _, image, rfl⟩ :=
    userinitCases (startInv (startAccounts start taken table others)) init
  by_cases same : i = m
  · subst m
    refine ⟨c.set 0 (userWord f), by dsimp only; rw [Sys.putSelf]; rfl, by dsimp only; rw [Sys.putSelf]; exact image, ?_⟩
    rcases setupkvmSpec L s₁.k with ⟨_, c', run, _, good, _⟩ | ⟨_, _, run, _⟩
    · cases made.symm.trans run
      unfold Pgdir.set
      rw [good.noUser 0 (by decide), bareAbsent, good.flushed]
      rfl
    · cases made.symm.trans run
  · dsimp only at live
    rw [Sys.putOther same] at live
    rcases allocprocCases alloc with ⟨bad, _⟩ | ⟨l, k, _, ⟨_, bad, _⟩ | ⟨g, _, this, rfl⟩⟩
    · cases bad
    · cases bad
    · cases this
      rw [claimOther same] at live
      cases live

end OpSys.Cow
