import OpSys.Cow.Accounting
import OpSys.Cow.Drain

/-! Write faults and the freeing of address spaces, one critical section of the
allocator or one store to a page table at a time, in any order among processes.
`cowHandler` decides by a count that others may have lowered when it acts on it. -/
namespace OpSys.Cow
open OpSys.Xv6 OpSys.Transition Finset

/-- Where a process is in `cowHandler`, `deallocuvm` or `freevm`; `mem` is what
`kalloc` returned, `whole` the flag of a call from `freevm`. -/
inductive Pc where
  | idle
  | counting (v : Nat)
  | granting (v : Nat)
  | allocating (v : Nat)
  | dropping (v : Nat) (mem : Option Nat)
  | copying (v : Nat) (mem : Option Nat)
  | storing (v : Nat) (mem : Option Nat)
  | freeing (vs : List Nat) (whole : Bool)
  | clearing (v : Nat) (vs : List Nat) (whole : Bool)
  | tables (is : List Nat)
  | gone

/-- What a process may set out to do. No caller passes a size above `USERTOP`. -/
inductive Job where
  | fault (va : Nat)
  | dealloc (oldsz newsz : Nat) (top : oldsz ≤ userTop)
  | free

/-- The branches of the handler that only `kill` leave the pages alone. -/
def enter (k : Kmem) (d : Pgdir) : Job → Except Stop Pc
  | .fault va =>
    let v := va / pgSize
    match walkpgdir k d v false with
    | (_, _, false) => if on (d.pte 0) pteP then .ok .idle else .error .hang
    | (_, _, true) =>
      let w := d.pte v
      -- a store to such a page does not fault
      if userOn w && on w pteW then .error .idle
      else if on w pteP = false ∨ on w pteU = false ∨ userTop < va then .ok .idle
      else .ok (.counting v)
  | .dealloc oldsz newsz _ => .ok (.freeing (dropped oldsz newsz) false)
  | .free => .ok (.freeing (dropped userTop 0) true)

/-- The next step of a process. Its own page table is its own: the word that the
handler read at the start is still there when it comes back to it. -/
def advance (L : Layout) (k : Kmem) (d : Pgdir) : Pc → Except Stop (Kmem × Pgdir × Pc)
  | .idle | .gone => .error .idle
  | .counting v => .ok (k, d, if refCount k (pageOf (d.pte v)) ≤ 1 then .granting v else .allocating v)
  | .granting v => .ok (k, lcr3 (d.set v (d.pte v + 2)), .idle)
  | .allocating v =>
    let (mem, k) := kalloc k
    .ok (k, d, .dropping v mem)
  | .dropping v mem => .ok (decPageRef k (pageOf (d.pte v)), d, .copying v mem)
  | .copying v (some mem) => .ok (k.write mem (k.mem (pageOf (d.pte v))), d, .storing v (some mem))
  | .copying v none => do
    let k ← storePageZero k d (k.mem (pageOf (d.pte v)))
    return (k, d, .storing v none)
  | .storing v mem => .ok (k, lcr3 (d.set v (cowWord (mem.getD 0) (d.pte v))), .idle)
  | .freeing [] whole => .ok (k, d, if whole then .tables (List.range npdEntries) else .idle)
  | .freeing (v :: vs) whole => match walkpgdir k d v false with
    | (_, _, false) => .ok (k, d, .freeing vs whole)
    | (_, _, true) =>
      if on (d.pte v) pteP = false then .ok (k, d, .freeing vs whole)
      else if pageOf (d.pte v) = 0 then .error (.panic "kfree")
      else do
        let k ← kfree L k (pageOf (d.pte v))
        return (k, d, .clearing v vs whole)
  | .clearing v vs whole => .ok (k, d.set v 0, .freeing vs whole)
  | .tables (i :: is) => do
    let k ← freeTables L d.pde k i
    return (k, d, .tables is)
  | .tables [] => do
    let k ← kfree L k d.page
    return (k, d, .gone)

structure Race (P : Type) where
  k : Kmem
  pgdir : P → Pgdir
  pc : P → Pc

variable {P : Type}

namespace Race

section

variable [DecidableEq P]

def put (s : Race P) (p : P) (k : Kmem) (d : Pgdir) (pc : Pc) : Race P :=
  ⟨k, Function.update s.pgdir p d, Function.update s.pc p pc⟩

def step (L : Layout) (s : Race P) : P × Option Job → Except Stop (Race P × Unit)
  | (p, some job) => match s.pc p with
    | .idle => do
      let pc ← enter s.k (s.pgdir p) job
      return (s.put p s.k (s.pgdir p) pc, ())
    | _ => .error .idle
  | (p, none) => do
    let (k, d, pc) ← advance L s.k (s.pgdir p) (s.pc p)
    return (s.put p k d pc, ())

end

def Resting (s : Race P) : Prop := ∀ p, s.pc p = .idle ∨ s.pc p = .gone

end Race

/-! ### What a process holds on the way -/

def Pc.owned (d : Pgdir) : Pc → Multiset Nat
  | .dropping _ mem => tablePage mem + d.owned
  | .copying v mem | .storing v mem => tablePage mem + d.ownedBut v
  | .clearing v _ _ => d.ownedBut v
  | .tables is => {d.page} + (is.map fun i => tablePage (d.pde i)).sum
  | .gone => 0
  | _ => d.owned

def Pc.shared (d : Pgdir) : Pc → Multiset Nat
  | .copying v _ | .storing v _ | .clearing v _ _ => d.sharedBut v
  | .tables _ | .gone => 0
  | _ => d.shared

structure Faulting (d : Pgdir) (v : Nat) : Prop where
  good : d.Ok
  user : userOn (d.pte v) = true
  off : on (d.pte v) pteW = false

def Emptied (d : Pgdir) (vs : List Nat) : Prop := ∀ v < userPages, v ∉ vs → on (d.pte v) pteP = false

/-- What holds at each place of the program. -/
def Pc.Fits (L : Layout) (k : Kmem) (d : Pgdir) : Pc → Prop
  | .idle => d.Ok
  | .counting v | .allocating v => Faulting d v
  | .granting v => Faulting d v ∧ k.refCnt (pageOf (d.pte v)) ≤ 1
  | .dropping v mem | .copying v mem | .storing v mem => Faulting d v ∧ ∃ f ∈ L.pool, mem = some f
  | .freeing vs whole => d.Ok ∧ (∀ v ∈ vs, v < userPages) ∧ (whole = true → Emptied d vs)
  | .clearing v vs whole => d.Ok ∧ (∀ u ∈ v :: vs, u < userPages) ∧ (whole = true → Emptied d (v :: vs))
  | .tables _ | .gone => Emptied d []

/-- A page is left for each `kalloc` of a handler, and each `decPageRef` finds another mapping counted. -/
def Orderly (s : Race P) : P × Option Job → Prop
  | (_, some _) => True
  | (p, none) => match s.pc p with
    | .allocating _ => s.k.freelist ≠ []
    | .dropping v _ => 1 < s.k.refCnt (pageOf ((s.pgdir p).pte v))
    | _ => True

variable {L : Layout} {k k' : Kmem} {d d' : Pgdir} {pc pc' : Pc} {u v f : Nat} {K : Multiset Nat} {s s' : Race P} {p q : P}

theorem Faulting.low (h : Faulting d v) : v < userPages := userLow h.good.toSane h.user

theorem Faulting.nonzero (h : Faulting d v) : pageOf (d.pte v) ≠ 0 := h.good.nonzero v h.low h.user

theorem Faulting.held (h : Faulting d v) : d.owned = d.ownedBut v ∧ d.shared = {pageOf (d.pte v)} + d.sharedBut v := by
  rw [Pgdir.ownedSplit h.low, Pgdir.sharedSplit h.low, (sharedWord h.user h.off).1, (sharedWord h.user h.off).2, zero_add]
  exact ⟨rfl, rfl⟩

structure Advances (L : Layout) (k : Kmem) (d : Pgdir) (pc : Pc) (k' : Kmem) (d' : Pgdir) (pc' : Pc) : Prop where
  moves : Moves L k (pc.owned d) (pc.shared d) k' (pc'.owned d') (pc'.shared d')
  fewer : pc'.shared d' ≤ pc.shared d
  fits : pc'.Fits L k' d'
  page : d'.page = d.page
  pde : d'.pde = d.pde

theorem Advances.still (owned : pc'.owned d = pc.owned d) (shared : pc'.shared d = pc.shared d) (fits : pc'.Fits L k d) :
    Advances L k d pc k d pc' :=
  ⟨by rw [owned, shared]; exact .refl _ _ _, le_of_eq shared, fits, rfl, rfl⟩

theorem grantAdvances (h : Faulting d v) (last : k.refCnt (pageOf (d.pte v)) ≤ 1) :
    Advances L k d (.granting v) k (lcr3 (d.set v (d.pte v + 2))) .idle := by
  obtain ⟨page, u, shown, writable⟩ := reclaimed h.user h.off
  have held := writableHeld shown writable (by rw [page]; exact h.nonzero)
  have moves := (reclaimMoves' (L := L) h.user h.nonzero h.off last).frame (d.ownedBut v) (d.sharedBut v)
  rw [held.2, ← Pgdir.ownedSplit h.low, ← Pgdir.sharedSplit h.low, zero_add, ← Pgdir.ownedSet h.low] at moves
  have after : (lcr3 (d.set v (d.pte v + 2))).shared = d.sharedBut v := by
    rw [Pgdir.lcr3Shared, Pgdir.sharedSet h.low, held.2, zero_add]
  refine ⟨?_, ?_, (h.good.set h.low (fun _ => u) fun _ => by rw [page]; exact h.nonzero).lcr3, rfl, rfl⟩
  · unfold Pc.owned Pc.shared
    rwa [after, Pgdir.lcr3Owned]
  · unfold Pc.shared
    rw [after, h.held.2]
    exact Multiset.le_add_left _ _

theorem allocAdvances (h : Faulting d v) (inside : ∀ f ∈ k.freelist, f ∈ L.pool) (taken : kalloc k = (some f, k')) :
    Advances L k d (.allocating v) k' d (.dropping v (some f)) := by
  have moves := (kallocMoves (L := L) taken).frame d.owned d.shared
  rw [zero_add, zero_add] at moves
  exact ⟨moves, le_refl _, ⟨h, f, inside f (by rw [(kallocSome taken).1]; exact List.mem_cons_self), rfl⟩, rfl, rfl⟩

theorem dropAdvances {mem : Option Nat} (fits : (Pc.dropping v mem).Fits L k d) (more : 1 < k.refCnt (pageOf (d.pte v))) :
    Advances L k d (.dropping v mem) (decPageRef k (pageOf (d.pte v))) d (.copying v mem) := by
  have moves := (decPageRefMoves (L := L) more).frameLeft (tablePage mem + d.ownedBut v) (d.sharedBut v)
  refine ⟨?_, ?_, fits, rfl, rfl⟩
  · unfold Pc.owned Pc.shared
    rw [fits.1.held.1, fits.1.held.2, add_comm {_}]
    simpa using moves
  · unfold Pc.shared
    rw [fits.1.held.2]
    exact Multiset.le_add_left _ _

theorem copyAdvances (h : Faulting d v) (inside : f ∈ L.pool) :
    Advances L k d (.copying v (some f)) (k.write f (k.mem (pageOf (d.pte v)))) d (.storing v (some f)) := by
  have moves := (writeMoves (L := L) (k := k) (f := f) (k.mem (pageOf (d.pte v)))).frame (d.ownedBut v) (d.sharedBut v)
  rw [zero_add] at moves
  exact ⟨moves, le_refl _, ⟨h, f, inside, rfl⟩, rfl, rfl⟩

theorem storeAdvances (h : Faulting d v) (inside : f ∈ L.pool) :
    Advances L k d (.storing v (some f)) k (lcr3 (d.set v (cowWord f (d.pte v)))) .idle := by
  obtain ⟨page, u, shown, writable⟩ := cowWordSpec (poolFits inside) (d.pte v)
  have some : pageOf (cowWord f (d.pte v)) ≠ 0 := by rw [page]; exact poolPos inside
  have held := writableHeld shown writable some
  have owned : (lcr3 (d.set v (cowWord f (d.pte v)))).owned = {f} + d.ownedBut v := by
    rw [Pgdir.lcr3Owned, Pgdir.ownedSet h.low, held.1, page]
  have shared : (lcr3 (d.set v (cowWord f (d.pte v)))).shared = d.sharedBut v := by
    rw [Pgdir.lcr3Shared, Pgdir.sharedSet h.low, held.2, zero_add]
  refine ⟨?_, ?_, (h.good.set h.low (fun _ => u) fun _ => some).lcr3, rfl, rfl⟩ <;> unfold Pc.shared
  · unfold Pc.owned
    rw [owned, shared]
    exact .refl _ _ _
  · rw [shared]

theorem emptiedAdvances (fits : (Pc.freeing [] true).Fits L k d) :
    Advances L k d (.freeing [] true) k d (.tables (List.range npdEntries)) := by
  have held := emptyHeld fun v low => fits.2.2 rfl v low List.not_mem_nil
  have owned : d.owned = (Pc.tables (List.range npdEntries)).owned d := held.1.trans (tablesList d)
  exact .still owned.symm held.2.symm (fits.2.2 rfl)

theorem skipAdvances {vs : List Nat} {whole : Bool} (fits : (Pc.freeing (v :: vs) whole).Fits L k d)
    (absent : on (d.pte v) pteP = false) : Advances L k d (.freeing (v :: vs) whole) k d (.freeing vs whole) := by
  refine .still rfl rfl ⟨fits.1, fun u mem => fits.2.1 u (List.mem_cons_of_mem _ mem), fun all u low out => ?_⟩
  by_cases same : u = v
  · rw [same]
    exact absent
  · exact fits.2.2 all u low (by simp [same, out])

theorem freeAdvances {vs : List Nat} {whole : Bool} (fits : (Pc.freeing (v :: vs) whole).Fits L k d)
    (present : on (d.pte v) pteP = true) (ok : kfree L k (pageOf (d.pte v)) = .ok k') :
    Advances L k d (.freeing (v :: vs) whole) k' d (.clearing v vs whole) := by
  obtain ⟨good, low, rest⟩ := fits
  have small := low v List.mem_cons_self
  have user := good.toSane.userOn small present
  have moves := (freeWordMoves user (good.nonzero v small user) ok).frame (d.ownedBut v) (d.sharedBut v)
  rw [← Pgdir.ownedSplit small, ← Pgdir.sharedSplit small, (wordOff wordZero).1, (wordOff wordZero).2, zero_add,
    zero_add] at moves
  refine ⟨moves, ?_, ⟨good, low, rest⟩, rfl, rfl⟩
  unfold Pc.shared
  rw [Pgdir.sharedSplit small]
  exact Multiset.le_add_left _ _

theorem Emptied.cleared {vs : List Nat} (h : Emptied d (v :: vs)) : Emptied (d.set v 0) vs := by
  intro u low out
  by_cases same : u = v
  · rw [same, Pgdir.setSelf]
    rfl
  · rw [Pgdir.setOther same]
    exact h u low (by simp [same, out])

theorem clearAdvances {vs : List Nat} {whole : Bool} (fits : (Pc.clearing v vs whole).Fits L k d) :
    Advances L k d (.clearing v vs whole) k (d.set v 0) (.freeing vs whole) := by
  obtain ⟨good, low, rest⟩ := fits
  have small := low v List.mem_cons_self
  have owned : (d.set v 0).owned = d.ownedBut v := by rw [Pgdir.ownedSet small, (wordOff wordZero).1, zero_add]
  have shared : (d.set v 0).shared = d.sharedBut v := by rw [Pgdir.sharedSet small, (wordOff wordZero).2, zero_add]
  refine ⟨?_, le_of_eq shared, ⟨good.set small (fun bad => by simp at bad) (fun bad => by cases wordZero.symm.trans bad),
    fun u mem => low u (List.mem_cons_of_mem _ mem), fun all => (rest all).cleared⟩, rfl, rfl⟩
  unfold Pc.owned Pc.shared
  rw [owned, shared]
  exact .refl _ _ _

theorem tableAdvances {i : Nat} {is : List Nat} (fits : (Pc.tables (i :: is)).Fits L k d)
    (ok : freeTables L d.pde k i = .ok k') : Advances L k d (.tables (i :: is)) k' d (.tables is) := by
  have one : [i].foldlM (freeTables L d.pde) k = .ok k' := by
    rw [List.foldlM_cons, ok]
    rfl
  have moves := (freeTablesMoves one).frameLeft ({d.page} + (is.map fun i => tablePage (d.pde i)).sum) 0
  have split : (Pc.tables (i :: is)).owned d =
      {d.page} + (is.map fun i => tablePage (d.pde i)).sum + ([i].map fun i => tablePage (d.pde i)).sum := by
    rw [add_assoc, ← List.sum_append, ← List.map_append]
    exact congrArg _ ((@List.perm_append_comm _ [i] is).map _).sum_eq
  rw [add_zero, add_zero, ← split] at moves
  exact ⟨moves, le_refl _, fits, rfl, rfl⟩

theorem advanceSpec (fits : pc.Fits L k d) (room : ∀ v, pc = .allocating v → k.freelist ≠ [])
    (inside : ∀ f ∈ k.freelist, f ∈ L.pool)
    (more : ∀ v mem, pc = .dropping v mem → 1 < k.refCnt (pageOf (d.pte v)))
    (ok : advance L k d pc = .ok (k', d', pc')) : Advances L k d pc k' d' pc' := by
  unfold advance at ok
  cases pc with
  | idle | gone => cases ok
  | counting v =>
    dsimp only at ok
    split at ok <;> rename_i count <;> cases ok
    · exact .still rfl rfl ⟨fits, count⟩
    · exact .still rfl rfl fits
  | granting v =>
    cases ok
    exact grantAdvances fits.1 fits.2
  | allocating v =>
    cases taken : kalloc k with
    | mk mem k₁ =>
      dsimp only at ok
      rw [taken] at ok
      cases ok
      cases mem with
      | none => exact absurd (kallocNone taken).1 (room v rfl)
      | some f => exact allocAdvances fits inside taken
  | dropping v mem =>
    cases ok
    exact dropAdvances fits (more v mem rfl)
  | copying v mem =>
    obtain ⟨faulting, f, inside, rfl⟩ := fits
    cases ok
    exact copyAdvances faulting inside
  | storing v mem =>
    obtain ⟨faulting, f, inside, rfl⟩ := fits
    cases ok
    exact storeAdvances faulting inside
  | freeing vs whole =>
    cases vs with
    | nil =>
      cases ok
      cases whole with
      | false => exact .still rfl rfl fits.1
      | true => exact emptiedAdvances fits
    | cons v vs =>
      have small := fits.2.1 v List.mem_cons_self
      dsimp only at ok
      rw [walkUser fits.1.toSane small] at ok
      dsimp only at ok
      split at ok
      · rename_i absent
        cases ok
        exact skipAdvances fits absent
      · rename_i present
        split at ok
        · cases ok
        · obtain ⟨mid, freed, last⟩ := bindOk ok
          cases last
          exact freeAdvances fits (by simpa using present) freed
  | clearing v vs whole =>
    cases ok
    exact clearAdvances fits
  | tables is =>
    cases is with
    | nil =>
      obtain ⟨mid, freed, last⟩ := bindOk ok
      cases last
      exact ⟨kfreeOwned freed, le_refl _, fits, rfl, rfl⟩
    | cons i is =>
      obtain ⟨mid, freed, last⟩ := bindOk ok
      cases last
      exact tableAdvances fits freed

theorem enterSpec {job : Job} (good : d.Ok) (ok : enter k d job = .ok pc) : Advances L k d .idle k d pc := by
  unfold enter at ok
  cases job with
  | fault va =>
    dsimp only at ok
    split at ok
    · split at ok <;> cases ok
      exact .still rfl rfl good
    · split at ok
      · cases ok
      rename_i fault
      split at ok <;> cases ok
      · exact .still rfl rfl good
      · rename_i present
        push Not at present
        have user : userOn (d.pte (va / pgSize)) = true := by
          unfold userOn
          rw [Bool.of_not_eq_false present.1, Bool.of_not_eq_false present.2.1]
          rfl
        exact .still rfl rfl ⟨good, user, by simpa [user] using fault⟩
  | dealloc oldsz newsz top =>
    cases ok
    exact .still rfl rfl ⟨good, droppedLow top, fun bad => by cases bad⟩
  | free =>
    cases ok
    exact .still rfl rfl ⟨good, droppedLow (le_refl _), fun _ v low out => absurd (droppedAll.mpr low) out⟩

namespace Race

variable [DecidableEq P] {a a' b : Pc} {e : Pgdir}

theorem putSelf : (s.put p k d pc).pgdir p = d ∧ (s.put p k d pc).pc p = pc :=
  ⟨Function.update_self _ _ _, Function.update_self _ _ _⟩

theorem putOther (other : q ≠ p) : (s.put p k d pc).pgdir q = s.pgdir q ∧ (s.put p k d pc).pc q = s.pc q :=
  ⟨Function.update_of_ne other _ _, Function.update_of_ne other _ _⟩

theorem putPut : (s.put p k d a).put p k' d' a' = s.put p k' d' a' := by
  unfold put
  dsimp only
  rw [Function.update_idem, Function.update_idem]

theorem putComm (other : p ≠ q) : (s.put p k d a).put q k' e b = (s.put q k e b).put p k' d a := by
  unfold put
  dsimp only
  rw [Function.update_comm other, Function.update_comm other]

theorem putHere : s.put p s.k (s.pgdir p) (s.pc p) = s := by
  unfold put
  rw [Function.update_eq_self, Function.update_eq_self]

end Race

/-! ### The books of all processes -/

variable [Fintype P]

structure Kept (L : Layout) (K : Multiset Nat) (s : Race P) : Prop where
  accounts : Accounts L s.k (∑ p, (s.pc p).owned (s.pgdir p) + K) (∑ p, (s.pc p).shared (s.pgdir p))
  fits : ∀ p, (s.pc p).Fits L s.k (s.pgdir p)

namespace Race

def words : Finset (P × Nat) := univ ×ˢ range userPages

def pte (s : Race P) (x : P × Nat) : Word := (s.pgdir x.1).pte x.2

def mappers (s : Race P) (f : Nat) : Finset (P × Nat) := mappersOf words s.pte f

def kernelPages (s : Race P) (K : Multiset Nat) : Multiset Nat := ∑ p, (match s.pc p with
  | .gone => 0
  | _ => (s.pgdir p).tables) + K

attribute [irreducible] words mappers kernelPages

theorem memWords {x : P × Nat} : x ∈ (words : Finset (P × Nat)) ↔ x.2 < userPages := by
  unfold words
  rw [mem_product, mem_range]
  exact and_iff_right (mem_univ _)

theorem memMappers {x : P × Nat} : x ∈ s.mappers f ↔ x.2 < userPages ∧ userOn (s.pte x) = true ∧ pageOf (s.pte x) = f := by
  unfold mappers
  rw [memMappersOf, memWords]

theorem restingAccounted (rest : s.Resting) (h : Kept L K s) : Accounted L s.k (s.kernelPages K) words s.pte := by
  refine accountsOf ?_ ?_
  · rintro ⟨p, v⟩ mem user
    have fits := h.fits p
    rcases rest p with here | here <;> rw [here] at fits
    · exact fits.nonzero v (memWords.mp mem) user
    · have absent := fits v (memWords.mp mem) List.not_mem_nil
      unfold userOn pte at user
      rw [absent] at user
      cases user
  · have split : ∀ p, (s.pc p).owned (s.pgdir p) = (match s.pc p with
        | .gone => 0
        | _ => (s.pgdir p).tables) + ∑ v ∈ range userPages, wordOwned ((s.pgdir p).pte v) ∧
        (s.pc p).shared (s.pgdir p) = ∑ v ∈ range userPages, wordShared ((s.pgdir p).pte v) := by
      intro p
      have fits := h.fits p
      rcases rest p with here | here <;> rw [here] at fits ⊢
      · unfold Pc.owned Pc.shared Pgdir.owned Pgdir.shared
        exact ⟨rfl, rfl⟩
      · have off := fun v mem => wordOff (notUser (fits v (mem_range.mp mem) List.not_mem_nil))
        rw [sum_eq_zero fun v mem => (off v mem).1, sum_eq_zero fun v mem => (off v mem).2]
        exact ⟨rfl, rfl⟩
    have before := h.accounts
    rw [sum_congr rfl fun p _ => (split p).1, sum_congr rfl fun p _ => (split p).2, sum_add_distrib, add_right_comm] at before
    unfold kernelPages ownedBy sharedBy words
    rw [sum_product, sum_product]
    exact before

end Race

/-- Counts are numbers of mappings, and what is not mapped is free, once. -/
structure Settled (L : Layout) (K : Multiset Nat) (s : Race P) : Prop where
  counted : ∀ f, (s.mappers f).Nonempty → refCount s.k f = (s.mappers f).card
  freed : ∀ f ∈ L.pool, f ∉ s.kernelPages K → s.mappers f = ∅ → s.k.freelist.count f = 1

variable [DecidableEq P]

def race (L : Layout) (K : Multiset Nat) (P : Type) [Fintype P] [DecidableEq P] : Machine (Race P) (P × Option Job) Unit Stop where
  init s := s.Resting ∧ Kept L K s
  step := Race.step L

namespace Race

theorem sumSplit (g : Pgdir → Pc → Multiset Nat) (s : Race P) (p : P) : ∑ q, g (s.pgdir q) (s.pc q) =
    g (s.pgdir p) (s.pc p) + ∑ q ∈ univ.erase p, g (s.pgdir q) (s.pc q) := (add_sum_erase _ _ (mem_univ p)).symm

theorem sumPut (g : Pgdir → Pc → Multiset Nat) : ∑ q, g ((s.put p k d pc).pgdir q) ((s.put p k d pc).pc q) =
    g d pc + ∑ q ∈ univ.erase p, g (s.pgdir q) (s.pc q) := by
  rw [sumSplit g _ p, putSelf.1, putSelf.2]
  refine congrArg _ (sum_congr rfl fun q mem => ?_)
  rw [(putOther (ne_of_mem_erase mem)).1, (putOther (ne_of_mem_erase mem)).2]

end Race

theorem Pc.Fits.keep (h : pc.Fits L k d) (stays : ∀ f ∈ pc.shared d, k'.refCnt f ≤ k.refCnt f) : pc.Fits L k' d := by
  cases pc with
  | granting v =>
    refine ⟨h.1, (stays _ ?_).trans h.2⟩
    unfold Pc.shared
    rw [h.1.held.2]
    exact Multiset.mem_add.mpr (.inl (Multiset.mem_singleton_self _))
  | _ => exact h

theorem Kept.put (h : Kept L K s) (step : Advances L s.k (s.pgdir p) (s.pc p) k d pc) : Kept L K (s.put p k d pc) := by
  have before := h.accounts
  rw [Race.sumSplit (fun d pc => pc.owned d) s p, Race.sumSplit (fun d pc => pc.shared d) s p, add_assoc] at before
  have after := step.moves.accounts before
  refine ⟨?_, fun q => ?_⟩
  · rw [Race.sumPut fun d pc => pc.owned d, Race.sumPut fun d pc => pc.shared d, add_assoc]
    exact after
  · by_cases same : q = p
    · subst q
      rw [Race.putSelf.1, Race.putSelf.2]
      exact step.fits
    · rw [(Race.putOther same).1, (Race.putOther same).2]
      refine (h.fits q).keep fun f mem => ?_
      have held : f ∈ ∑ r ∈ univ.erase p, (s.pc r).shared (s.pgdir r) :=
        Multiset.mem_sum.mpr ⟨q, mem_erase.mpr ⟨same, mem_univ q⟩, mem⟩
      have now : (s.put p k d pc).k.refCnt f = _ := after.shared f (Multiset.mem_add.mpr (.inr held))
      have past : s.k.refCnt f = _ := before.shared f (Multiset.mem_add.mpr (.inr held))
      rw [now, past]
      exact Multiset.count_le_of_le f (add_le_add_left step.fewer _)

theorem raceStep {x : P × Option Job} (h : Kept L K s) (orderly : Orderly s x) (ok : Race.step L s x = .ok (s', ())) :
    Kept L K s' := by
  obtain ⟨p, job⟩ := x
  unfold Race.step at ok
  cases job with
  | some job =>
    dsimp only at ok
    split at ok
    · rename_i idle
      obtain ⟨pc, entered, last⟩ := bindOk ok
      cases last
      have good := h.fits p
      rw [idle] at good
      exact h.put (idle ▸ enterSpec good entered)
    · cases ok
  | none =>
    obtain ⟨⟨k, d, pc⟩, ran, last⟩ := bindOk ok
    cases last
    refine h.put (advanceSpec (h.fits p) (fun v here => ?_) (fun f free => h.accounts.freeIn free) (fun v mem here => ?_) ran) <;>
      unfold Orderly at orderly <;> dsimp only at orderly <;> rw [here] at orderly <;> exact orderly

theorem raceKept (reached : (race L K P).Reach Orderly s) : Kept L K s :=
  reached.invariant (fun s first => (first : s.Resting ∧ Kept L K s).2) fun _ _ _ _ h orderly ok => raceStep h orderly ok

theorem handlersSettle (reached : (race L K P).Reach Orderly s) (rest : s.Resting) : Settled L K s := by
  have accounted := Race.restingAccounted rest (raceKept reached)
  unfold Race.words at accounted
  refine ⟨fun f mapped => ?_, fun f inside apart unmapped => ?_⟩
  · unfold Race.mappers Race.words at mapped ⊢
    exact accounted.counted f mapped
  · unfold Race.mappers Race.words at unmapped
    rcases (accounted.covered f).mp inside with free | own | mapped
    · exact List.count_eq_one_of_mem accounted.freeNodup free
    · exact absurd own apart
    · rw [unmapped] at mapped
      exact absurd rfl mapped.ne_empty

/-! ### The processes of a reachable state -/

def Sys.race (s : Sys) : Race Slot :=
  ⟨s.k, fun i => (s.proc i).table.getD ⟨0, fun _ => none, fun _ => 0, []⟩,
    fun i => if (s.proc i).table.isSome then .idle else .gone⟩

def Sys.besides (s : Sys) : Multiset Nat := ∑ i, (match (s.proc i).state with
  | .unused => 0
  | _ => tablePage (s.proc i).kstack) + s.kernel

theorem raceOpens {s : Sys} (reached : (machine cowuvm L).Reachable s) (fine : s.k.oom = false) :
    (Cow.race L s.besides Slot).init s.race := by
  have inv := reachInv cowCopies reached
  have start : s.race.Resting := fun i => by
    unfold Sys.race
    dsimp only
    split
    · exact .inl rfl
    · exact .inr rfl
  refine ⟨start, ?_, fun i => ?_⟩
  · obtain ⟨lost, holds, none⟩ := inv.accounts
    have split : ∀ i, (s.proc i).owned = (match (s.proc i).state with
        | .unused => 0
        | _ => tablePage (s.proc i).kstack) + (s.race.pc i).owned (s.race.pgdir i) ∧
        (s.proc i).shared = (s.race.pc i).shared (s.race.pgdir i) := by
      intro i
      unfold Sys.race Proc.owned Proc.shared Proc.table
      dsimp only
      cases (s.proc i).state with
      | unused => exact ⟨rfl, rfl⟩
      | embryo => exact ⟨(add_zero _).symm, rfl⟩
      | sleeping | runnable | running | zombie =>
        cases (s.proc i).pgdir with
        | none => exact ⟨rfl, rfl⟩
        | some d => exact ⟨rfl, rfl⟩
    unfold Holds Sys.owned Sys.shared at holds
    rw [none fine, sum_congr rfl fun i _ => (split i).1, sum_congr rfl fun i _ => (split i).2, sum_add_distrib, add_zero,
      add_zero, add_right_comm, add_comm] at holds
    unfold Sys.besides
    exact holds
  · unfold Sys.race
    dsimp only
    cases table : (s.proc i).table with
    | none => exact fun v _ _ => (by decide : on 0 pteP = false)
    | some d => exact inv.tableOk fine table

/-! ### Runs -/

namespace Race

variable {guard : Race P → P × Option Job → Prop} {e e' : Pgdir} {k₁ k₂ : Kmem} {a a' b b' : Pc}

theorem setsOut {job : Job} (reach : (race L K P).Reach guard (s.put p k d .idle))
    (allowed : guard (s.put p k d .idle) (p, some job)) (ok : enter k d job = .ok a) :
    (race L K P).Reach guard (s.put p k d a) := by
  refine .next (i := (p, some job)) (o := ()) reach allowed ?_
  change step L (s.put p k d .idle) (p, some job) = _
  unfold step
  dsimp only
  rw [putSelf.1, putSelf.2]
  dsimp only
  rw [show (s.put p k d .idle).k = k from rfl, ok, okBind, putPut]
  rfl

theorem goesOn (reach : (race L K P).Reach guard (s.put p k d a)) (allowed : guard (s.put p k d a) (p, none))
    (ok : advance L k d a = .ok (k', d', a')) : (race L K P).Reach guard (s.put p k' d' a') := by
  refine .next (i := (p, none)) (o := ()) reach allowed ?_
  change step L (s.put p k d a) (p, none) = _
  unfold step
  dsimp only
  rw [putSelf.1, putSelf.2, show (s.put p k d a).k = k from rfl, ok, okBind]
  dsimp only
  rw [putPut]
  rfl

theorem bothGoOn (other : p ≠ q) (reach : (race L K P).Reachable ((s.put p k d a).put q k e b))
    (first : advance L k d a = .ok (k₁, d', a')) (second : advance L k₁ e b = .ok (k₂, e', b')) :
    (race L K P).Reachable ((s.put p k₂ d' a').put q k₂ e' b') := by
  rw [putComm other] at reach
  have mid := goesOn reach trivial first
  rw [putComm other.symm] at mid
  exact goesOn mid trivial second

def exchanged (k : Kmem) (f g : Nat) (rest : List Nat) : Kmem :=
  let k := decPageRef {k with
    freelist := rest
    freePages := k.freePages - 1
    refCnt := Function.update k.refCnt f 1} g
  k.write f (k.mem g)

theorem enterFault (h : Faulting d v) : enter k d (.fault (v * pgSize)) = .ok (.counting v) := by
  have page : v * pgSize / pgSize = v := Nat.mul_div_cancel v (by decide)
  have flags := Bool.and_eq_true_iff.mp h.user
  have low := h.low
  unfold enter
  dsimp only
  rw [page, walkUser h.good.toSane low]
  dsimp only
  have top : ¬ userTop < v * pgSize := by
    unfold userTop userPages pgSize at *
    omega
  rw [if_neg (by rw [h.off, Bool.and_false]; decide), if_neg (by simp [flags.1, flags.2, top])]

theorem countMany (many : 1 < k.refCnt (pageOf (d.pte v))) : advance L k d (.counting v) = .ok (k, d, .allocating v) := by
  unfold advance refCount
  dsimp only
  rw [if_neg (by omega)]

theorem allocateOne {rest : List Nat} (free : k.freelist = f :: rest) : advance L k d (.allocating v) = .ok ({k with
    freelist := rest
    freePages := k.freePages - 1
    refCnt := Function.update k.refCnt f 1}, d, .dropping v (some f)) := by
  unfold advance
  rw [kallocFree free]

theorem handles {rest : List Nat} (reach : (race L K P).Reach Orderly s) (idle : s.pc p = .idle)
    (fault : Faulting (s.pgdir p) v) (many : 1 < s.k.refCnt (pageOf ((s.pgdir p).pte v)))
    (free : s.k.freelist = f :: rest) (other : pageOf ((s.pgdir p).pte v) ≠ f) :
    (race L K P).Reach Orderly (s.put p (exchanged s.k f (pageOf ((s.pgdir p).pte v)) rest)
      (lcr3 ((s.pgdir p).set v (cowWord f ((s.pgdir p).pte v)))) .idle) := by
  rw [← putHere (s := s) (p := p), idle] at reach
  have counting := setsOut reach trivial (enterFault fault)
  have allocating := goesOn counting (by unfold Orderly; dsimp only; rw [putSelf.2]; trivial) (countMany many)
  have room : s.k.freelist ≠ [] := fun none => by cases none.symm.trans free
  have dropping := goesOn allocating (by unfold Orderly; dsimp only; rw [putSelf.2]; exact room) (allocateOne free)
  have copying := goesOn dropping (by
    unfold Orderly
    dsimp only
    rw [putSelf.2, putSelf.1]
    exact many.trans_eq (Function.update_of_ne other _ _).symm) rfl
  have storing := goesOn copying (by unfold Orderly; dsimp only; rw [putSelf.2]; trivial) rfl
  exact goesOn storing (by unfold Orderly; dsimp only; rw [putSelf.2]; trivial) rfl

theorem bothHandle {rest : List Nat} {g : Nat} (reach : (race L K P).Reachable s) (other : p ≠ q) (idle : s.pc p = .idle)
    (idle' : s.pc q = .idle) (fault : Faulting (s.pgdir p) u) (fault' : Faulting (s.pgdir q) v)
    (many : 1 < s.k.refCnt (pageOf ((s.pgdir p).pte u))) (many' : 1 < s.k.refCnt (pageOf ((s.pgdir q).pte v)))
    (free : s.k.freelist = f :: g :: rest) : ∃ k', k'.freelist = rest ∧
      (race L K P).Reachable ((s.put p k' (lcr3 ((s.pgdir p).set u (cowWord f ((s.pgdir p).pte u)))) .idle).put q k'
        (lcr3 ((s.pgdir q).set v (cowWord g ((s.pgdir q).pte v)))) .idle) := by
  have start : s = (s.put p s.k (s.pgdir p) .idle).put q s.k (s.pgdir q) .idle := by
    have first := putHere (s := s) (p := p)
    have second := putHere (s := s) (p := q)
    rw [idle] at first
    rw [idle'] at second
    rw [first, second]
  rw [start, putComm other] at reach
  have one := setsOut reach trivial (enterFault fault)
  rw [putComm other.symm] at one
  have two := setsOut one trivial (enterFault fault')
  have allocating := bothGoOn other two (countMany many) (countMany many')
  have dropping := bothGoOn other allocating (allocateOne free) (allocateOne rfl)
  have copying := bothGoOn other dropping rfl rfl
  have storing := bothGoOn other copying rfl rfl
  exact ⟨_, rfl, bothGoOn other storing rfl rfl⟩

end Race

/-! ### Parent and child after a fork -/

structure Pair (L : Layout) (s : Sys) (i j : Slot) (d c : Pgdir) : Prop where
  reach : (machine cowuvm L).Reachable s
  fine : s.k.oom = false
  room : 2 ≤ s.k.freelist.length
  differ : i ≠ j
  table : (s.proc i).table = some d
  table' : (s.proc j).table = some c
  others : ∀ l, l ≠ i → l ≠ j → (s.proc l).table = none
  fault : Faulting d 0
  fault' : Faulting c 0
  same : pageOf (c.pte 0) = pageOf (d.pte 0)
  only : ∀ v < userPages, v ≠ 0 → on (d.pte v) pteP = false ∧ on (c.pte v) pteP = false

theorem samplePair : ∃ s i j d c, Pair Layout.sample s i j d c := by
  obtain ⟨s, i, j, d, c, h⟩ := sampleForks
  have here := (tableAlive (.inl h.ready.live)).trans h.run.pgdir
  have here' := (tableAlive (.inl h.child.live)).trans h.run'.pgdir
  have off' : on (c.pte 0) pteW = false := by
    have both : ∀ l e, (s.proc l).table = some e → userOn (e.pte 0) = true → pageOf (e.pte 0) = pageOf (d.pte 0) →
        (l, 0) ∈ mappersOf Sys.userWords s.pte (pageOf (d.pte 0)) := by
      intro l e table user page
      refine memMappersOf.mpr ⟨Sys.memUserWords.mpr (by dsimp only; decide), ?_⟩
      unfold Sys.pte Proc.pte
      dsimp only
      rw [table]
      exact ⟨user, page⟩
    have mine := both j c here' h.user' h.page
    have many : 2 ≤ (mappersOf Sys.userWords s.pte (pageOf (d.pte 0))).card :=
      one_lt_card.mpr ⟨_, both _ d here h.user rfl, _, mine, fun same => h.differ (congrArg Prod.fst same)⟩
    have off := ((reachInv cowCopies h.reach).pageAccounts h.fine).readOnly _ many _ mine
    unfold Sys.pte Proc.pte at off
    dsimp only at off
    rwa [here'] at off
  refine ⟨s, i, j, d, c, h.reach, h.fine, by rw [← h.room]; decide, h.differ, here, here', fun l other other' => ?_,
    ⟨h.run.good, h.user, h.off⟩, ⟨h.run'.good, h.user', off'⟩, h.page, fun v low some => ⟨h.run.above v low ?_, h.run'.above v low ?_⟩⟩
  · rw [h.others l other other']
    rfl
  · rw [h.size]
    unfold pgSize
    omega
  · rw [h.size']
    unfold pgSize
    omega

namespace Pair

variable {s : Sys} {i j l : Slot} {d c : Pgdir}

theorem first (h : Pair L s i j d c) : s.race.pgdir i = d ∧ s.race.pc i = .idle := by
  unfold Sys.race
  dsimp only
  rw [h.table]
  exact ⟨rfl, rfl⟩

theorem second (h : Pair L s i j d c) : s.race.pgdir j = c ∧ s.race.pc j = .idle := by
  unfold Sys.race
  dsimp only
  rw [h.table']
  exact ⟨rfl, rfl⟩

theorem rest (h : Pair L s i j d c) (other : l ≠ i) (other' : l ≠ j) : userOn ((s.race.pgdir l).pte v) = false := by
  unfold Sys.race
  dsimp only
  rw [h.others l other other']
  exact wordZero

theorem opens (h : Pair L s i j d c) : (race L s.besides Slot).init s.race := raceOpens h.reach h.fine

theorem resting (h : Pair L s i j d c) : s.race.Resting ∧ Kept L s.besides s.race := h.opens

theorem mapped (h : Pair L s i j d c) : (i, 0) ∈ s.race.mappers (pageOf (d.pte 0)) ∧ (j, 0) ∈ s.race.mappers (pageOf (d.pte 0)) := by
  constructor <;> refine Race.memMappers.mpr ⟨(by decide : 0 < userPages), ?_⟩ <;> unfold Race.pte <;> dsimp only
  · rw [h.first.1]
    exact ⟨h.fault.user, rfl⟩
  · rw [h.second.1]
    exact ⟨h.fault'.user, h.same⟩

theorem accounted (h : Pair L s i j d c) : Accounted L s.k (s.race.kernelPages s.besides) Race.words s.race.pte :=
  Race.restingAccounted h.resting.1 h.resting.2

theorem freeIn (h : Pair L s i j d c) : ∀ a ∈ s.k.freelist, a ∈ L.pool := fun _ free => h.resting.2.accounts.freeIn free

theorem counted (h : Pair L s i j d c) : 1 < s.k.refCnt (pageOf (d.pte 0)) ∧ pageOf (d.pte 0) ∈ L.pool ∧
    pageOf (d.pte 0) ∉ s.k.freelist ∧ pageOf (d.pte 0) ∉ s.race.kernelPages s.besides := by
  have mapped := h.mapped
  unfold Race.mappers at mapped
  have some : (mappersOf Race.words s.race.pte (pageOf (d.pte 0))).Nonempty := ⟨_, mapped.1⟩
  have count := h.accounted.counted _ some
  have many := one_lt_card.mpr ⟨_, mapped.1, _, mapped.2, fun same => h.differ (congrArg Prod.fst same)⟩
  refine ⟨by rw [count]; exact many, (h.accounted.covered _).mpr (.inr (.inr some)), fun free => ?_, fun own => ?_⟩
  · exact some.ne_empty (h.accounted.freeApart _ free).2
  · exact some.ne_empty (h.accounted.kernelApart _ own)

theorem handled (h : Pair L s i j d c) : ∃ r, (race L s.besides Slot).Reach Orderly r ∧ r.Resting ∧
    on ((r.pgdir i).pte 0) pteW = true := by
  obtain ⟨many, inside, busy, _⟩ := h.counted
  have room := h.room
  cases free : s.k.freelist with
  | nil =>
    rw [free] at room
    cases room
  | cons f rest =>
    rw [free] at busy
    have reach := Race.handles (v := 0) (.start h.opens) h.first.2 (by rw [h.first.1]; exact h.fault)
      (by rw [h.first.1]; exact many) free (by rw [h.first.1]; exact fun same => busy (same ▸ List.mem_cons_self))
    refine ⟨_, reach, fun l => ?_, ?_⟩
    · by_cases same : l = i
      · subst l
        exact .inl Race.putSelf.2
      · rw [(Race.putOther same).2]
        exact h.resting.1 l
    · rw [Race.putSelf.1, Pgdir.lcr3Pte, Pgdir.setSelf]
      exact (cowWordSpec (poolFits (h.freeIn f (by rw [free]; exact List.mem_cons_self))) _).2.2.2

variable {k₁ k₂ : Kmem} {d₁ c₁ : Pgdir}

theorem lcr3Tables : (lcr3 d).tables = d.tables := by
  unfold Pgdir.tables
  rfl

theorem bothPgdir (h : Pair L s i j d c) (l : Slot) : ((s.race.put i k₁ d₁ .idle).put j k₂ c₁ .idle).pgdir l =
    (if l = j then c₁ else if l = i then d₁ else s.race.pgdir l) ∧
    ((s.race.put i k₁ d₁ .idle).put j k₂ c₁ .idle).pc l = s.race.pc l := by
  split
  · rename_i same
    rw [same, Race.putSelf.1, Race.putSelf.2, h.second.2]
    exact ⟨rfl, rfl⟩
  · rename_i away
    rw [(Race.putOther away).1, (Race.putOther away).2]
    split
    · rename_i same
      rw [same, Race.putSelf.1, Race.putSelf.2, h.first.2]
      exact ⟨rfl, rfl⟩
    · rename_i away
      exact Race.putOther away

theorem bothKernel (h : Pair L s i j d c) (same : d₁.tables = d.tables) (same' : c₁.tables = c.tables) :
    ((s.race.put i k₁ d₁ .idle).put j k₂ c₁ .idle).kernelPages K = s.race.kernelPages K := by
  unfold Race.kernelPages
  refine congrArg (· + K) (sum_congr rfl fun l _ => ?_)
  have tables : (((s.race.put i k₁ d₁ .idle).put j k₂ c₁ .idle).pgdir l).tables = (s.race.pgdir l).tables := by
    rw [(h.bothPgdir l).1]
    split
    · rename_i here
      rw [same', here, h.second.1]
    · split
      · rename_i here
        rw [same, here, h.first.1]
      · rfl
  rw [(h.bothPgdir l).2, tables]

theorem bothMoved {w w' : Word} (h : Pair L s i j d c) (away : pageOf w ≠ pageOf (d.pte 0)) (away' : pageOf w' ≠ pageOf (d.pte 0)) :
    ((s.race.put i k₁ (lcr3 (d.set 0 w)) .idle).put j k₂ (lcr3 (c.set 0 w')) .idle).mappers (pageOf (d.pte 0)) = ∅ := by
  refine eq_empty_of_forall_notMem fun x mem => ?_
  obtain ⟨low, user, page⟩ := Race.memMappers.mp mem
  unfold Race.pte at user page
  rw [(h.bothPgdir x.1).1] at user page
  by_cases zero : x.2 = 0
  · rw [zero] at user page
    split at user
    · rename_i here
      rw [if_pos here, Pgdir.lcr3Pte, Pgdir.setSelf] at page
      exact away' page
    · rename_i other'
      split at user
      · rename_i here
        rw [if_neg other', if_pos here, Pgdir.lcr3Pte, Pgdir.setSelf] at page
        exact away page
      · rename_i other
        rw [h.rest other other'] at user
        cases user
  · have gone := h.only x.2 low zero
    split at user
    · rw [Pgdir.lcr3Pte, Pgdir.setOther zero, notUser gone.2] at user
      cases user
    · rename_i other'
      split at user
      · rw [Pgdir.lcr3Pte, Pgdir.setOther zero, notUser gone.1] at user
        cases user
      · rename_i other
        rw [h.rest other other'] at user
        cases user

end Pair

theorem handlersSettleSample : ∃ K r i, (race Layout.sample K Slot).Reach Orderly r ∧ r.Resting ∧
    on ((r.pgdir i).pte 0) pteW = true ∧ Settled Layout.sample K r := by
  obtain ⟨s, i, j, d, c, pair⟩ := samplePair
  obtain ⟨r, reach, rest, writable⟩ := pair.handled
  exact ⟨s.besides, r, i, reach, rest, writable, handlersSettle reach rest⟩

/-- Both handlers count two mappings, and nobody is left to free the page. -/
theorem sharedPageLost : ∃ s r, (machine cowuvm Layout.sample).Reachable s ∧ (race Layout.sample s.besides Slot).init s.race ∧
    (race Layout.sample s.besides Slot).Reachable r ∧ r.Resting ∧ ¬ Settled Layout.sample s.besides r := by
  obtain ⟨s, i, j, d, c, pair⟩ := samplePair
  obtain ⟨many, inside, busy, apart⟩ := pair.counted
  have room := pair.room
  cases free : s.k.freelist with
  | nil =>
    rw [free] at room
    cases room
  | cons f more =>
  cases more with
  | nil =>
    rw [free] at room
    dsimp only [List.length] at room
    omega
  | cons g rest =>
    rw [free] at busy
    obtain ⟨k', left, reach⟩ := Race.bothHandle (u := 0) (v := 0) (.start pair.opens) pair.differ pair.first.2 pair.second.2
      (by rw [pair.first.1]; exact pair.fault) (by rw [pair.second.1]; exact pair.fault')
      (by rw [pair.first.1]; exact many) (by rw [pair.second.1, pair.same]; exact many) free
    rw [pair.first.1, pair.second.1] at reach
    have new := (cowWordSpec (poolFits (pair.freeIn f (by rw [free]; simp))) (d.pte 0)).1
    have new' := (cowWordSpec (poolFits (pair.freeIn g (by rw [free]; simp))) (c.pte 0)).1
    refine ⟨s, _, pair.reach, pair.opens, reach, fun l => ?_, fun settled => ?_⟩
    · rw [(pair.bothPgdir l).2]
      exact pair.resting.1 l
    · have one := settled.freed _ inside ?_ ?_
      · dsimp only [Race.put] at one
        rw [left, List.count_eq_zero.mpr fun free => busy (by simp [free])] at one
        cases one
      · rw [pair.bothKernel (by rw [Pair.lcr3Tables, Pgdir.setTables]) (by rw [Pair.lcr3Tables, Pgdir.setTables])]
        exact apart
      · refine pair.bothMoved (fun same => busy ?_) fun same => busy ?_
        · rw [← same, new]
          exact List.mem_cons_self
        · rw [← same, new']
          exact List.mem_cons_of_mem _ List.mem_cons_self

end OpSys.Cow
