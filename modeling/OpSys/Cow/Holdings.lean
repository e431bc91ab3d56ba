import Mathlib.Algebra.BigOperators.Group.Finset.Basic
import OpSys.Cow.Vm

/-! What a page table holds: the pages of the directory and its tables, the page
behind each writable user word, alone; the page behind each read-only user word,
shared. That a writable page is held alone is the whole of the copy-on-write
discipline, and it is carried by `Ledger.Balanced`. -/
namespace OpSys.Cow
open OpSys.Xv6 Finset

def kernelEntries : Finset Nat := range 4 ∪ Ico 1016 1024

/-- Physical page 0 is no page of the allocator. -/
def wordOwned (w : Word) : Multiset Nat :=
  if userOn w ∧ on w pteW ∧ pageOf w ≠ 0 then {pageOf w} else 0

def wordShared (w : Word) : Multiset Nat := if userOn w ∧ on w pteW = false then {pageOf w} else 0

def tablePage : Option Nat → Multiset Nat
  | none => 0
  | some f => {f}

namespace Pgdir

def tables (d : Pgdir) : Multiset Nat := {d.page} + ∑ i ∈ range npdEntries, tablePage (d.pde i)
def owned (d : Pgdir) : Multiset Nat := d.tables + ∑ v ∈ range userPages, wordOwned (d.pte v)
def shared (d : Pgdir) : Multiset Nat := ∑ v ∈ range userPages, wordShared (d.pte v)

def ownedBut (d : Pgdir) (v : Nat) : Multiset Nat :=
  d.tables + ∑ u ∈ (range userPages).erase v, wordOwned (d.pte u)
def sharedBut (d : Pgdir) (v : Nat) : Multiset Nat := ∑ u ∈ (range userPages).erase v, wordShared (d.pte u)

variable {d : Pgdir} {v : Nat} {w : Word}

@[simp] theorem setTables : (d.set v w).tables = d.tables := rfl
@[simp] theorem setSelf : (d.set v w).pte v = w := by simp [set]
theorem setOther {u : Nat} (other : u ≠ v) : (d.set v w).pte u = d.pte u := by simp [set, other]
@[simp] theorem lcr3Pte : (lcr3 d).pte = d.pte := rfl
@[simp] theorem lcr3Owned : (lcr3 d).owned = d.owned := rfl
@[simp] theorem lcr3Shared : (lcr3 d).shared = d.shared := rfl

-- Membership in these sums is never to be decided by unfolding them.
attribute [irreducible] tables owned shared ownedBut sharedBut

theorem ownedSplit (low : v < userPages) : d.owned = wordOwned (d.pte v) + d.ownedBut v := by
  unfold owned ownedBut
  rw [← add_sum_erase _ _ (mem_range.mpr low)]
  exact add_left_comm _ _ _

theorem sharedSplit (low : v < userPages) : d.shared = wordShared (d.pte v) + d.sharedBut v := by
  unfold shared sharedBut
  rw [← add_sum_erase _ _ (mem_range.mpr low)]

theorem ownedSet (low : v < userPages) : (d.set v w).owned = wordOwned w + d.ownedBut v := by
  rw [ownedSplit low, setSelf]
  unfold ownedBut
  rw [setTables, sum_congr rfl fun u mem => by rw [setOther (ne_of_mem_erase mem)]]

theorem sharedSet (low : v < userPages) : (d.set v w).shared = wordShared w + d.sharedBut v := by
  rw [sharedSplit low, setSelf]
  unfold sharedBut
  rw [sum_congr rfl fun u mem => by rw [setOther (ne_of_mem_erase mem)]]

theorem heldSetKernel (high : userPages ≤ v) : (d.set v w).owned = d.owned ∧ (d.set v w).shared = d.shared := by
  have same : ∀ u ∈ range userPages, (d.set v w).pte u = d.pte u := fun u mem =>
    setOther (by have := mem_range.mp mem; omega)
  constructor
  · unfold owned
    rw [setTables, sum_congr rfl fun u mem => by rw [same u mem]]
  · unfold shared
    rw [sum_congr rfl fun u mem => by rw [same u mem]]

structure Shape (d : Pgdir) : Prop where
  bounded : ∀ i, npdEntries ≤ i → d.pde i = none
  absent : ∀ v, d.pde (pdx v) = none → d.pte v = 0
  kernel : ∀ v, userPages ≤ v → on (d.pte v) pteU = false
  user : ∀ v < userPages, on (d.pte v) pteP = true → on (d.pte v) pteU = true

structure Sane (d : Pgdir) : Prop extends d.Shape where
  tables : ∀ i, d.pde i ≠ none ↔ i ∈ kernelEntries

structure Ok (d : Pgdir) : Prop extends d.Sane where
  nonzero : ∀ v < userPages, userOn (d.pte v) = true → pageOf (d.pte v) ≠ 0

def Blank (d : Pgdir) : Prop := ∀ v < userPages, on (d.pte v) pteP = false → d.pte v = 0

theorem pdxUser (low : v < userPages) : pdx v = 0 := by
  unfold pdx userPages at *
  omega

theorem Sane.table (h : d.Sane) : d.pde 0 ≠ none := (h.tables 0).mpr (by decide)

theorem Shape.set (h : d.Shape) (present : d.pde (pdx v) ≠ none) (kernel : userPages ≤ v → on w pteU = false)
    (user : v < userPages → on w pteP = true → on w pteU = true) : (d.set v w).Shape := by
  refine ⟨h.bounded, fun u none => ?_, fun u high => ?_, fun u low present => ?_⟩
  · have other : u ≠ v := fun same => present (same ▸ none)
    rw [setOther other]
    exact h.absent u none
  · by_cases same : u = v
    · subst u; rw [setSelf]; exact kernel high
    · rw [setOther same]; exact h.kernel u high
  · by_cases same : u = v
    · subst u
      rw [setSelf] at present ⊢
      exact user low present
    · rw [setOther same] at present ⊢
      exact h.user u low present

theorem Sane.set (h : d.Sane) (low : v < userPages) (user : on w pteP = true → on w pteU = true) : (d.set v w).Sane :=
  ⟨h.toShape.set (by rw [pdxUser low]; exact h.table) (fun high => by omega) (fun _ => user), h.tables⟩

theorem Ok.set (h : d.Ok) (low : v < userPages) (user : on w pteP = true → on w pteU = true)
    (nonzero : userOn w = true → pageOf w ≠ 0) : (d.set v w).Ok := by
  refine ⟨h.toSane.set low user, fun u small present => ?_⟩
  by_cases same : u = v
  · subst u
    rw [setSelf] at present ⊢
    exact nonzero present
  · rw [setOther same] at present ⊢
    exact h.nonzero u small present

theorem Sane.userOn (h : d.Sane) (low : v < userPages) (present : on (d.pte v) pteP = true) :
    userOn (d.pte v) = true := by
  unfold Cow.userOn
  rw [present, h.user v low present]
  rfl

theorem Ok.lcr3 (h : d.Ok) : (lcr3 d).Ok := ⟨⟨⟨h.bounded, h.absent, h.kernel, h.user⟩, h.tables⟩, h.nonzero⟩

end Pgdir

variable {L : Layout} {k k' k'' : Kmem} {d d' d'' : Pgdir} {v : Nat} {w : Word}

theorem userLow (sane : d.Sane) (user : userOn (d.pte v) = true) : v < userPages := by
  by_contra high
  have off := sane.kernel v (by omega)
  unfold userOn at user
  rw [off, Bool.and_false] at user
  cases user

theorem walkUser (h : d.Sane) (low : v < userPages) (create : Bool) : walkpgdir k d v create = (k, d, true) := by
  unfold walkpgdir
  rw [Pgdir.pdxUser low]
  have := h.table
  split
  · rfl
  · contradiction

theorem mapUser {f : Nat} (h : d.Sane) (low : v < userPages) (free : on (d.pte v) pteP = false) :
    mappages k d (v * pgSize) pgSize f w = .ok (k, d.set v (paddr f ||| w ||| pteP), true) := by
  have start : v * pgSize / pgSize = v := Nat.mul_div_cancel v (by decide)
  have last : (v * pgSize + pgSize + (2 ^ 32 - 1)) % 2 ^ 32 / pgSize = v := by
    unfold pgSize userPages at *
    omega
  have rounds : (v + 2 ^ 20 - v) % 2 ^ 20 = 0 := by simp
  unfold mappages
  simp only [start, last, rounds, mapPages, mapPage, walkUser h low, free]
  rfl

/-- What a page table and the store look like to user mode: the bytes of page `v`. -/
def view (k : Kmem) (d : Pgdir) (v : Nat) : Option Content :=
  if v < userPages ∧ userOn (d.pte v) then some (k.mem (pageOf (d.pte v))) else none

theorem viewNone (off : userOn (d.pte v) = false) : view k d v = none := by simp [view, off]

theorem viewSome (low : v < userPages) (present : userOn (d.pte v) = true) :
    view k d v = some (k.mem (pageOf (d.pte v))) := by simp [view, low, present]

theorem viewLcr3 : view k (lcr3 d) = view k d := rfl

structure Alters (L : Layout) (k : Kmem) (d : Pgdir) (k' : Kmem) (d' : Pgdir) : Prop where
  moves : Moves L k d.owned d.shared k' d'.owned d'.shared
  sane : d'.Sane
  page : d'.page = d.page
  pde : d'.pde = d.pde
  kernel : ∀ v, userPages ≤ v → d'.pte v = d.pte v
  blank : d.Blank → d'.Blank

namespace Alters

theorem refl (sane : d.Sane) : Alters L k d k d := ⟨.refl k _ _, sane, rfl, rfl, fun _ _ => rfl, id⟩

theorem trans (first : Alters L k d k' d') (second : Alters L k' d' k'' d'') : Alters L k d k'' d'' :=
  ⟨first.moves.trans second.moves, second.sane, second.page.trans first.page, second.pde.trans first.pde,
    fun v high => (second.kernel v high).trans (first.kernel v high), second.blank ∘ first.blank⟩

theorem set (sane : d.Sane) (low : v < userPages)
    (word : Moves L k (wordOwned (d.pte v)) (wordShared (d.pte v)) k' (wordOwned w) (wordShared w))
    (user : on w pteP = true → on w pteU = true) (zero : on w pteP = false → w = 0) : Alters L k d k' (d.set v w) := by
  refine ⟨?_, sane.set low user, rfl, rfl, fun u high => Pgdir.setOther (by omega), fun blank u small absent => ?_⟩
  · rw [Pgdir.ownedSplit low, Pgdir.sharedSplit low, Pgdir.ownedSet low, Pgdir.sharedSet low]
    exact word.frame _ _
  · by_cases same : u = v
    · subst u
      rw [Pgdir.setSelf] at absent ⊢
      exact zero absent
    · rw [Pgdir.setOther same] at absent ⊢
      exact blank u small absent

end Alters

theorem wordHeld (present : userOn w = true) (nonzero : pageOf w ≠ 0) :
    wordOwned w = {pageOf w} ∧ wordShared w = 0 ∧ on w pteW = true ∨
    wordOwned w = 0 ∧ wordShared w = {pageOf w} ∧ on w pteW = false := by
  unfold wordOwned wordShared
  cases writable : on w pteW
  · exact .inr (by simp [present])
  · exact .inl (by simp [present, nonzero])

theorem wordOff (off : userOn w = false) : wordOwned w = 0 ∧ wordShared w = 0 := by
  unfold wordOwned wordShared
  simp [off]

@[simp] theorem wordZero : userOn 0 = false := by decide

theorem notUser (absent : on w pteP = false) : userOn w = false := by simp [userOn, absent]

theorem emptyHeld (empty : ∀ v < userPages, on (d.pte v) pteP = false) : d.owned = d.tables ∧ d.shared = 0 := by
  unfold Pgdir.owned Pgdir.shared
  rw [sum_eq_zero fun v mem => (wordOff (notUser (empty v (mem_range.mp mem)))).1,
    sum_eq_zero fun v mem => (wordOff (notUser (empty v (mem_range.mp mem)))).2]
  exact ⟨add_zero _, rfl⟩

theorem memBut {u : Nat} (low : u < userPages) (other : u ≠ v) (present : userOn (d.pte u) = true)
    (nonzero : pageOf (d.pte u) ≠ 0) : pageOf (d.pte u) ∈ d.ownedBut v ∨ pageOf (d.pte u) ∈ d.sharedBut v := by
  have mem : u ∈ (range userPages).erase v := mem_erase.mpr ⟨other, mem_range.mpr low⟩
  unfold Pgdir.ownedBut Pgdir.sharedBut
  rcases wordHeld present nonzero with ⟨own, _, _⟩ | ⟨_, share, _⟩
  · left
    rw [Multiset.mem_add, Multiset.mem_sum]
    exact .inr ⟨u, mem, own ▸ Multiset.mem_singleton_self _⟩
  · right
    rw [Multiset.mem_sum]
    exact ⟨u, mem, share ▸ Multiset.mem_singleton_self _⟩

theorem viewSet (ok : d.Ok) (low : v < userPages)
    (word : Moves L k (wordOwned (d.pte v)) (wordShared (d.pte v)) k' (wordOwned w) (wordShared w))
    {K U : Multiset Nat} (before : Accounts L k (d.owned + K) (d.shared + U)) {u : Nat} (other : u ≠ v) :
    view k' (d.set v w) u = view k d u := by
  unfold view
  rw [Pgdir.setOther other]
  split
  · rename_i present
    congr 1
    rw [Pgdir.ownedSplit low, Pgdir.sharedSplit low, add_assoc, add_assoc] at before
    apply word.kept before
    rw [Multiset.mem_add, Multiset.mem_add]
    exact (memBut present.1 other present.2 (ok.nonzero u present.1 present.2)).imp .inl .inl
  · rfl

end OpSys.Cow
