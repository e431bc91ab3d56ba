import Mathlib.Algebra.BigOperators.Fin
import OpSys.Cow.Copy
import OpSys.Cow.Machine

/-! What the processes and the kernel hold together, and the invariant of all
runs: every page is accounted for, and each process is fit for its state. -/
namespace OpSys.Cow
open OpSys.Xv6 Finset

/-- Page tables that a slot still names after `wait` are not its own any more. -/
def Proc.owned (p : Proc) : Multiset Nat := match p.state with
  | .unused => 0
  | .embryo => tablePage p.kstack
  | _ => tablePage p.kstack + (p.pgdir.map Pgdir.owned).getD 0

def Proc.shared (p : Proc) : Multiset Nat := match p.state with
  | .unused => 0
  | .embryo => 0
  | _ => (p.pgdir.map Pgdir.shared).getD 0

namespace Sys

def kernel (s : Sys) : Multiset Nat := s.kpgdir.tables + (s.bootstacks + s.pipes.map Pipe.page)
def owned (s : Sys) : Multiset Nat := ∑ i, (s.proc i).owned + s.kernel
def shared (s : Sys) : Multiset Nat := ∑ i, (s.proc i).shared
def ownedBut (s : Sys) (i : Slot) : Multiset Nat := ∑ j ∈ univ.erase i, (s.proc j).owned + s.kernel
def sharedBut (s : Sys) (i : Slot) : Multiset Nat := ∑ j ∈ univ.erase i, (s.proc j).shared

attribute [irreducible] owned shared ownedBut sharedBut

variable {s : Sys} {i : Slot} {k : Kmem} {p : Proc}

@[simp] theorem putK : (s.put i k p).k = k := rfl
@[simp] theorem putSelf : (s.put i k p).proc i = p := by simp [put]
theorem putOther {j : Slot} (other : j ≠ i) : (s.put i k p).proc j = s.proc j := by simp [put, other]
@[simp] theorem putPut {k' : Kmem} {p' : Proc} : (s.put i k p).put i k' p' = s.put i k' p' := by simp [put]
@[simp] theorem putNextpid : (s.put i k p).nextpid = s.nextpid := rfl
@[simp] theorem putKernel : (s.put i k p).kernel = s.kernel := rfl

theorem ownedSplit (s : Sys) (i : Slot) : s.owned = (s.proc i).owned + s.ownedBut i := by
  unfold owned ownedBut
  rw [← add_sum_erase _ _ (mem_univ i), add_assoc]

theorem sharedSplit (s : Sys) (i : Slot) : s.shared = (s.proc i).shared + s.sharedBut i := by
  unfold shared sharedBut
  rw [← add_sum_erase _ _ (mem_univ i)]

theorem ownedPut : (s.put i k p).owned = p.owned + s.ownedBut i := by
  rw [ownedSplit _ i, putSelf]
  unfold ownedBut
  rw [sum_congr rfl fun j mem => by rw [putOther (ne_of_mem_erase mem)], putKernel]

theorem sharedPut : (s.put i k p).shared = p.shared + s.sharedBut i := by
  rw [sharedSplit _ i, putSelf]
  unfold sharedBut
  rw [sum_congr rfl fun j mem => by rw [putOther (ne_of_mem_erase mem)]]

theorem memBut {j : Slot} (other : j ≠ i) {f : Nat} (mem : f ∈ (s.proc j).owned ∨ f ∈ (s.proc j).shared) :
    f ∈ s.ownedBut i ∨ f ∈ s.sharedBut i := by
  unfold ownedBut sharedBut
  rw [Multiset.mem_add, Multiset.mem_sum, Multiset.mem_sum]
  have inside : j ∈ univ.erase i := mem_erase.mpr ⟨other, mem_univ j⟩
  exact mem.imp (fun own => .inl ⟨j, inside, own⟩) (fun share => ⟨j, inside, share⟩)

end Sys

variable {L : Layout} {s s' : Sys} {i j : Slot} {k' : Kmem} {p : Proc} {d d' : Pgdir} {v : Nat}
variable {A B M N X Y : Multiset Nat}

/-- The pages held by processes and kernel, and `X` and `Y` besides, are in balance. -/
def Holds (L : Layout) (s : Sys) (X Y : Multiset Nat) : Prop := Accounts L s.k (s.owned + X) (s.shared + Y)

theorem Holds.split (h : Holds L s X Y) (i : Slot) :
    Accounts L s.k ((s.proc i).owned + (s.ownedBut i + X)) ((s.proc i).shared + (s.sharedBut i + Y)) := by
  unfold Holds at h
  rwa [s.ownedSplit i, s.sharedSplit i, add_assoc, add_assoc] at h

theorem Holds.splitBeside (h : Holds L s (A + X) (B + Y)) (i : Slot) :
    Accounts L s.k ((s.proc i).owned + A + (s.ownedBut i + X)) ((s.proc i).shared + B + (s.sharedBut i + Y)) := by
  have before := h.split i
  rwa [add_left_comm (s.ownedBut i), add_left_comm (s.sharedBut i), ← add_assoc (s.proc i).owned,
    ← add_assoc (s.proc i).shared] at before

theorem Holds.put (h : Holds L s (A + X) (B + Y))
    (moves : Moves L s.k ((s.proc i).owned + A) ((s.proc i).shared + B) k' (p.owned + M) (p.shared + N)) :
    Holds L (s.put i k' p) (M + X) (N + Y) := by
  have after := moves.accounts (h.splitBeside i)
  rw [add_assoc, add_assoc, add_left_comm M, add_left_comm N, ← add_assoc p.owned,
    ← add_assoc p.shared] at after
  unfold Holds
  rwa [Sys.ownedPut, Sys.sharedPut, Sys.putK]

theorem Holds.contents {k : Kmem} (h : Holds L (s.put i k p) X Y) (f : Nat) (c : Content) :
    Holds L (s.put i (k.write f c) p) X Y := by
  unfold Holds at *
  rw [Sys.ownedPut, Sys.sharedPut] at *
  exact Ledger.Balanced.sameCells h rfl rfl rfl

theorem Holds.others (h : Holds L s (A + X) (B + Y))
    (moves : Moves L s.k ((s.proc i).owned + A) ((s.proc i).shared + B) k' M N) (other : j ≠ i) {f : Nat}
    (mem : f ∈ (s.proc j).owned ∨ f ∈ (s.proc j).shared) : k'.mem f = s.k.mem f := by
  apply moves.kept (h.splitBeside i)
  rw [Multiset.mem_add, Multiset.mem_add]
  exact (Sys.memBut other mem).imp .inl .inl

theorem Holds.same (h : Holds L s X Y) (kmem : s'.k = s.k) (owned : ∀ i, (s'.proc i).owned = (s.proc i).owned)
    (shared : ∀ i, (s'.proc i).shared = (s.proc i).shared) (kernel : s'.kernel = s.kernel) : Holds L s' X Y := by
  unfold Holds Sys.owned Sys.shared at *
  rwa [kmem, kernel, sum_congr rfl fun i _ => owned i, sum_congr rfl fun i _ => shared i]

structure Runs (p : Proc) (d : Pgdir) : Prop where
  pgdir : p.pgdir = some d
  good : d.Ok
  top : p.sz ≤ userTop
  above : Above d p.sz

def alive : ProcState → Bool
  | .sleeping | .runnable | .running => true
  | _ => false

/-- What a slot has, by its state. After a failure of memory a process that has
exited may have page 0 mapped. -/
structure Sound (oom : Bool) (p : Proc) : Prop where
  stack : p.state ≠ .unused → ∃ f, p.kstack = some f
  runs : alive p.state = true → ∃ d, Runs p d
  left : p.state = .zombie → ∃ d, p.pgdir = some d ∧ d.Sane ∧ (oom = false → d.Ok)

theorem Sound.weaken {oom oom' : Bool} (h : Sound oom p) (fine : oom' = false → oom = false) : Sound oom' p :=
  ⟨h.stack, h.runs, fun gone => (h.left gone).imp fun _ left => ⟨left.1, left.2.1, left.2.2 ∘ fine⟩⟩

theorem soundUnused {oom : Bool} (unused : p.state = .unused) : Sound oom p :=
  ⟨fun used => absurd unused used, fun live => (by rw [unused] at live; cases live),
    fun gone => (by rw [unused] at gone; cases gone)⟩

structure Pids (s : Sys) : Prop where
  positive : 0 < s.nextpid
  below : ∀ i, (s.proc i).pid < s.nextpid
  used : ∀ i, (s.proc i).state ≠ .unused → 0 < (s.proc i).pid
  differ : ∀ i j, (s.proc i).pid = (s.proc j).pid → 0 < (s.proc i).pid → i = j

/-- What `setupkvm` loses when memory runs out is `lost`. -/
structure Inv (L : Layout) (s : Sys) : Prop where
  accounts : ∃ lost, Holds L s lost 0 ∧ (s.k.oom = false → lost = 0)
  sound : ∀ i, Sound s.k.oom (s.proc i)
  pids : Pids s
  unprotected : on s.cr0 CR0_WP = false

theorem heldAlive (live : alive p.state = true ∨ p.state = .zombie) (table : p.pgdir = some d) :
    p.owned = tablePage p.kstack + d.owned ∧ p.shared = d.shared := by
  unfold Proc.owned Proc.shared
  rw [table]
  rcases live with live | gone
  · cases state : p.state <;> rw [state] at live <;> first | exact ⟨rfl, rfl⟩ | cases live
  · rw [gone]
    exact ⟨rfl, rfl⟩

theorem heldUnused (unused : p.state = .unused) : p.owned = 0 ∧ p.shared = 0 := by
  unfold Proc.owned Proc.shared
  rw [unused]
  exact ⟨rfl, rfl⟩

theorem Holds.table (h : Holds L s (A + X) (B + Y)) (live : alive (s.proc i).state = true ∨ (s.proc i).state = .zombie)
    (table : (s.proc i).pgdir = some d) : Accounts L s.k (d.owned + (tablePage (s.proc i).kstack + A + (s.ownedBut i + X)))
      (d.shared + (B + (s.sharedBut i + Y))) := by
  have before := h.splitBeside i
  rw [(heldAlive live table).1, (heldAlive live table).2] at before
  rwa [add_comm (tablePage _) d.owned, add_assoc, add_assoc, add_assoc, ← add_assoc (tablePage _)] at before

end OpSys.Cow
