import OpSys.Cow.Drain
import OpSys.Cow.Words

/-! Every page of the pool is free, the kernel's, or counted by the user words of
live page tables that name it, in every reachable state. -/
namespace OpSys.Cow
open OpSys.Xv6 OpSys.Transition Finset

/-- The page table of a process that has one, to the point where its parent reaps it. -/
def Proc.table (p : Proc) : Option Pgdir := match p.state with
  | .unused | .embryo => none
  | _ => p.pgdir

def Proc.pte (p : Proc) (v : Nat) : Word := match p.table with
  | none => 0
  | some d => d.pte v

def Proc.kernelPages (p : Proc) : Multiset Nat := match p.state with
  | .unused => 0
  | _ => tablePage p.kstack + (p.table.map Pgdir.tables).getD 0

namespace Sys

def userWords : Finset (Slot × Nat) := univ ×ˢ range userPages

def pte (s : Sys) (x : Slot × Nat) : Word := (s.proc x.1).pte x.2

/-- The present user words of live page tables that name page `f`. -/
def mappers (s : Sys) (f : Nat) : Finset (Slot × Nat) := mappersOf userWords s.pte f

def kernelPages (s : Sys) : Multiset Nat := ∑ i, (s.proc i).kernelPages + s.kernel

end Sys

abbrev PageAccounts (L : Layout) (s : Sys) : Prop := Accounted L s.k s.kernelPages Sys.userWords s.pte

variable {L : Layout} {s : Sys} {i : Slot} {p : Proc} {d : Pgdir} {f : Nat} {copy : Copier}

theorem heldWords (p : Proc) : p.owned = p.kernelPages + ∑ v ∈ range userPages, wordOwned (p.pte v) ∧
    p.shared = ∑ v ∈ range userPages, wordShared (p.pte v) := by
  have none : ∑ v ∈ range userPages, wordOwned 0 = 0 ∧ ∑ v ∈ range userPages, wordShared 0 = 0 := by
    rw [(wordOff wordZero).1, (wordOff wordZero).2]
    simp
  unfold Proc.owned Proc.shared Proc.kernelPages Proc.pte Proc.table
  cases state : p.state with
  | unused | embryo =>
    dsimp only
    rw [none.1, none.2]
    simp
  | sleeping | runnable | running | zombie =>
    cases table : p.pgdir with
    | none =>
      dsimp only
      rw [none.1, none.2]
      simp
    | some d =>
      dsimp only [Option.map_some, Option.getD_some]
      unfold Pgdir.owned Pgdir.shared
      exact ⟨(add_assoc _ _ _).symm, rfl⟩

namespace Sys

attribute [irreducible] userWords mappers kernelPages

theorem memUserWords {x : Slot × Nat} : x ∈ userWords ↔ x.2 < userPages := by
  unfold userWords
  rw [mem_product, mem_range]
  exact and_iff_right (mem_univ _)

theorem memMappers {x : Slot × Nat} : x ∈ s.mappers f ↔ x ∈ userWords ∧ userOn (s.pte x) = true ∧ pageOf (s.pte x) = f := by
  unfold mappers
  exact memMappersOf

theorem ownedParts (s : Sys) : s.owned = s.kernelPages + ownedBy userWords s.pte := by
  unfold owned kernelPages ownedBy userWords
  rw [sum_congr rfl fun i _ => (heldWords (s.proc i)).1, sum_add_distrib, sum_product, add_right_comm]
  rfl

theorem sharedParts (s : Sys) : s.shared = sharedBy userWords s.pte := by
  unfold shared sharedBy userWords
  rw [sum_congr rfl fun i _ => (heldWords (s.proc i)).2, sum_product]
  rfl

end Sys

theorem tableAlive (live : alive p.state = true ∨ p.state = .zombie) : p.table = p.pgdir := by
  unfold Proc.table
  rcases live with live | gone
  · cases state : p.state <;> rw [state] at live <;> first | rfl | cases live
  · rw [gone]

theorem tableSome (table : p.table = some d) : (alive p.state = true ∨ p.state = .zombie) ∧ p.pgdir = some d := by
  unfold Proc.table at table
  cases state : p.state with
  | unused | embryo =>
    rw [state] at table
    cases table
  | sleeping | runnable | running =>
    rw [state] at table
    exact ⟨.inl rfl, table⟩
  | zombie =>
    rw [state] at table
    exact ⟨.inr rfl, table⟩

theorem Inv.tableOk (h : Inv L s) (fine : s.k.oom = false) (table : (s.proc i).table = some d) : d.Ok := by
  obtain ⟨live | gone, pgdir⟩ := tableSome table
  · obtain ⟨e, run⟩ := (h.sound i).runs live
    cases pgdir.symm.trans run.pgdir
    exact run.good
  · obtain ⟨e, left, _, good⟩ := (h.sound i).left gone
    cases pgdir.symm.trans left
    exact good fine

theorem pteUser {v : Nat} (user : userOn (p.pte v) = true) : ∃ d, p.table = some d ∧ p.pte = d.pte := by
  unfold Proc.pte at user ⊢
  cases table : p.table with
  | none =>
    rw [table] at user
    cases wordZero.symm.trans user
  | some d => exact ⟨d, rfl, rfl⟩

theorem Inv.nonzero (h : Inv L s) (fine : s.k.oom = false) :
    ∀ x ∈ Sys.userWords, userOn (s.pte x) = true → pageOf (s.pte x) ≠ 0 := by
  rintro ⟨i, v⟩ mem user
  obtain ⟨d, table, words⟩ := pteUser user
  unfold Sys.pte at user ⊢
  dsimp only at user ⊢
  rw [words] at user ⊢
  exact (h.tableOk fine table).nonzero v (Sys.memUserWords.mp mem) user

theorem Inv.pageAccounts (h : Inv L s) (fine : s.k.oom = false) : PageAccounts L s := by
  obtain ⟨lost, holds, none⟩ := h.accounts
  refine accountsOf (h.nonzero fine) ?_
  unfold Holds at holds
  rwa [none fine, s.ownedParts, s.sharedParts, add_zero, add_zero] at holds

theorem pagesAccounted (reached : (machine cowuvm L).Reachable s) (fine : s.k.oom = false) : PageAccounts L s :=
  (reachInv cowCopies reached).pageAccounts fine

theorem pagesAccountedStore : ∃ s i j d c s', FirstFork s i j d c ∧
    step cowuvm Layout.sample s (.user i (.store 0 1)) = .ok (s', .done) ∧ PageAccounts Layout.sample s' := by
  obtain ⟨s, i, j, d, c, s', h⟩ := sampleStores
  exact ⟨s, i, j, d, c, s', h.forked, h.stores, pagesAccounted h.reach h.fine⟩

end OpSys.Cow
