import Mathlib.Order.Interval.Finset.Nat
import OpSys.Lib.Ledger
import OpSys.Cow.Pte

/-! `kalloc.c`: the physical page allocator with its reference counts. Pages that
the kernel or one writable mapping holds are owned in the sense of the ledger,
pages mapped read-only are shared by their mappings. -/
namespace OpSys.Cow
open OpSys.Xv6

/-- The bytes of a page by offset; only offsets below `PGSIZE` mean anything. -/
abbrev Content := Nat → UInt8

/-- What the linker, the loader and the machine decide. -/
structure Layout where
  /-- `end`, the first address after the kernel. -/
  kend : Nat
  /-- `data`, where the writable part of the kernel begins. -/
  data : Nat
  initcode : List UInt8
  ncpu : Nat
  ram : Nat → Content
  cr0 : Word
  textBelow : 0x100000 < data
  dataAligned : data % pgSize = 0
  dataBelow : data < kend
  endBelow : kend ≤ physTop
  /-- The machine comes up without `CR0_WP`, and the loader only adds `CR0_PE`. -/
  unprotected : cr0.getLsbD 16 = false

/-- `PGROUNDUP(end) / PGSIZE`. -/
def Layout.firstPage (L : Layout) : Nat := (L.kend + pgSize - 1) / pgSize

def Layout.pool (L : Layout) : Finset Nat := Finset.Ico L.firstPage (physTop / pgSize)

theorem poolIff {L : Layout} {f : Nat} : f ∈ L.pool ↔ L.kend ≤ f * pgSize ∧ f * pgSize < physTop := by
  simp only [Layout.pool, Layout.firstPage, Finset.mem_Ico, pgSize, physTop]
  omega

theorem poolFits {L : Layout} {f : Nat} (mem : f ∈ L.pool) : f < 2 ^ 20 := by
  simp only [Layout.pool, Finset.mem_Ico, pgSize, physTop] at mem
  omega

theorem poolPos {L : Layout} {f : Nat} (mem : f ∈ L.pool) : f ≠ 0 := by
  rintro rfl
  have low := (poolIff.mp mem).1
  have text := L.textBelow
  have data := L.dataBelow
  omega

/-- `kmem`, and the physical pages themselves. `oom` records that `kalloc` has
returned 0; no code reads it. -/
structure Kmem where
  freelist : List Nat
  freePages : Nat
  refCnt : Nat → Nat
  mem : Nat → Content
  oom : Bool

def Kmem.store (k : Kmem) : Ledger.Store Nat Content := ⟨k.freelist, k.freePages, k.refCnt, k.mem⟩

def Kmem.write (k : Kmem) (f : Nat) (c : Content) : Kmem := {k with mem := Function.update k.mem f c}

/-- A free page: `memset(v, 1, PGSIZE)`, then the link in its first word. -/
def linked (next : List Nat) : Content := fun o =>
  if o < 4 then (littleEndian 4 (next.headD 0 * pgSize)).getD o 0 else 1

def kfree (L : Layout) (k : Kmem) (f : Nat) : Except Stop Kmem :=
  if f * pgSize < L.kend ∨ physTop ≤ f * pgSize then .error (.panic "kfree")
  else if k.refCnt f ≤ 1 then
    .ok {k with
      freelist := f :: k.freelist
      freePages := k.freePages + 1
      mem := Function.update k.mem f (linked k.freelist)}
  else .ok {k with refCnt := Function.update k.refCnt f (k.refCnt f - 1)}

def kalloc (k : Kmem) : Option Nat × Kmem := match k.freelist with
  | [] => (none, {k with oom := true})
  | f :: rest => (some f, {k with
      freelist := rest
      freePages := k.freePages - 1
      refCnt := Function.update k.refCnt f 1})

def kfreeCount (k : Kmem) : Nat := k.freePages

def incPageRef (k : Kmem) (i : Nat) : Kmem :=
  {k with refCnt := Function.update k.refCnt i (k.refCnt i + 1)}

def decPageRef (k : Kmem) (i : Nat) : Kmem :=
  {k with refCnt := Function.update k.refCnt i (k.refCnt i - 1)}

def refCount (k : Kmem) (i : Nat) : Nat := k.refCnt i

def kmemBss (L : Layout) : Kmem := ⟨[], 0, fun _ => 0, L.ram, false⟩

def kinit (L : Layout) : Except Stop Kmem :=
  (List.range' L.firstPage (physTop / pgSize - L.firstPage)).foldlM (kfree L) (kmemBss L)

/-! ### The allocator and the ledger -/

/-- `kmem` agrees with what is held: `K` by owners, `U` by read-only mappings. -/
abbrev Accounts (L : Layout) (k : Kmem) (K U : Multiset Nat) : Prop := Ledger.Balanced L.pool k.store K U

structure Moves (L : Layout) (k : Kmem) (A B : Multiset Nat) (k' : Kmem) (A' B' : Multiset Nat) : Prop where
  cells : Ledger.Moves L.pool k.store A B k'.store A' B'
  oom : k'.oom = false → k.oom = false

namespace Moves

variable {L : Layout} {k k' k'' : Kmem} {A B A' B' A'' B'' : Multiset Nat}

theorem refl (k : Kmem) (A B : Multiset Nat) : Moves L k A B k A B := ⟨.refl _ A B, id⟩

theorem trans (first : Moves L k A B k' A' B') (second : Moves L k' A' B' k'' A'' B'') :
    Moves L k A B k'' A'' B'' := ⟨first.cells.trans second.cells, first.oom ∘ second.oom⟩

theorem frame (h : Moves L k A B k' A' B') (X Y : Multiset Nat) : Moves L k (A + X) (B + Y) k' (A' + X) (B' + Y) :=
  ⟨h.cells.frame X Y, h.oom⟩

theorem frameLeft (h : Moves L k A B k' A' B') (X Y : Multiset Nat) :
    Moves L k (X + A) (Y + B) k' (X + A') (Y + B') := by
  simpa only [add_comm X, add_comm Y] using h.frame X Y

theorem short (h : Moves L k A B k' A' B') (oom : k.oom = true) : k'.oom = true := by
  cases fine : k'.oom with
  | true => rfl
  | false => exact (h.oom fine).symm.trans oom

theorem accounts (h : Moves L k A B k' A' B') {K U : Multiset Nat} (before : Accounts L k (A + K) (B + U)) :
    Accounts L k' (A' + K) (B' + U) := (h.cells K U before).1

theorem kept (h : Moves L k A B k' A' B') {K U : Multiset Nat} (before : Accounts L k (A + K) (B + U)) {f : Nat}
    (other : f ∈ K ∨ f ∈ U) : k'.mem f = k.mem f := (h.cells K U before).2.1 f other

theorem outside (h : Moves L k A B k' A' B') {K U : Multiset Nat} (before : Accounts L k (A + K) (B + U)) {f : Nat}
    (out : f ∉ L.pool) : k'.refCnt f = k.refCnt f := (h.cells K U before).2.2 f out

end Moves

variable {L : Layout} {k k' : Kmem} {f : Nat}

theorem kallocSome (ok : kalloc k = (some f, k')) : k.freelist = f :: k'.freelist ∧
    k' = {k with freelist := k'.freelist, freePages := k.freePages - 1, refCnt := Function.update k.refCnt f 1} := by
  unfold kalloc at ok
  split at ok
  · cases ok
  · rename_i g rest free
    cases ok
    exact ⟨free, rfl⟩

theorem kallocNone (ok : kalloc k = (none, k')) : k.freelist = [] ∧ k' = {k with oom := true} := by
  unfold kalloc at ok
  split at ok
  · rename_i free
    cases ok
    exact ⟨free, rfl⟩
  · cases ok

theorem kallocFree {rest : List Nat} (free : k.freelist = f :: rest) : kalloc k = (some f, {k with
    freelist := rest
    freePages := k.freePages - 1
    refCnt := Function.update k.refCnt f 1}) := by
  unfold kalloc
  rw [free]

theorem kallocEmpty (free : k.freelist = []) : kalloc k = (none, {k with oom := true}) := by
  unfold kalloc
  split
  · rfl
  · rename_i some
    rw [free] at some
    cases some

theorem kallocMoves (ok : kalloc k = (some f, k')) : Moves L k 0 0 k' {f} 0 := by
  obtain ⟨free, same⟩ := kallocSome ok
  refine ⟨Ledger.Moves.take ?_, fun fine => by rw [same] at fine; exact fine⟩
  have cells : k.store.free = f :: k'.freelist := free
  unfold Ledger.Store.take
  rw [cells, same]
  rfl

theorem kallocMem {o : Option Nat} (ok : kalloc k = (o, k')) : k'.mem = k.mem := by
  cases o with
  | none => rw [(kallocNone ok).2]
  | some f => rw [(kallocSome ok).2]

def Ample (k k' : Kmem) : Prop := k'.freelist ≠ [] → k.freelist ≠ [] ∧ k'.oom = k.oom

theorem Ample.refl (k : Kmem) : Ample k k := fun some => ⟨some, rfl⟩

theorem Ample.trans {k'' : Kmem} (first : Ample k k') (second : Ample k' k'') : Ample k k'' := fun some =>
  ⟨(first (second some).1).1, (second some).2.trans (first (second some).1).2⟩

theorem kallocAmple {o : Option Nat} (ok : kalloc k = (o, k')) : Ample k k' := by
  intro some
  cases o with
  | none =>
    rw [(kallocNone ok).2] at some
    exact absurd (kallocNone ok).1 some
  | some f =>
    obtain ⟨free, same⟩ := kallocSome ok
    exact ⟨by rw [free]; simp, by rw [same]⟩

theorem kallocShort (ok : kalloc k = (none, k')) (A B : Multiset Nat) : Moves L k A B k' A B := by
  rw [(kallocNone ok).2]
  exact ⟨.refl _ A B, fun bad => by cases bad⟩

theorem kfreeOk (mem : f ∈ L.pool) : ∃ k', kfree L k f = .ok k' := by
  have inside := poolIff.mp mem
  unfold kfree
  rw [if_neg (by omega)]
  split <;> exact ⟨_, rfl⟩

theorem kfreeReturns (ok : kfree L k f = .ok k') : f ∈ L.pool ∧
    (k.refCnt f ≤ 1 ∧ k' = {k with
      freelist := f :: k.freelist
      freePages := k.freePages + 1
      mem := Function.update k.mem f (linked k.freelist)} ∨
    1 < k.refCnt f ∧ k' = decPageRef k f) := by
  unfold kfree at ok
  split at ok
  · cases ok
  rename_i inside
  refine ⟨poolIff.mpr (by omega), ?_⟩
  split at ok
  · rename_i last
    cases ok
    exact .inl ⟨last, rfl⟩
  · cases ok
    exact .inr ⟨by omega, rfl⟩

theorem kfreeOom (ok : kfree L k f = .ok k') : k'.oom = k.oom := by
  obtain ⟨_, ⟨_, rfl⟩ | ⟨_, rfl⟩⟩ := kfreeReturns ok <;> rfl

theorem kfreeOwned (ok : kfree L k f = .ok k') : Moves L k {f} 0 k' 0 0 := by
  refine ⟨?_, fun fine => by rw [← kfreeOom ok]; exact fine⟩
  intro K U before
  obtain ⟨_, ⟨_, rfl⟩ | ⟨more, rfl⟩⟩ := kfreeReturns ok
  · exact Ledger.Moves.putOwned _ K U before
  · have one : k.refCnt f = 1 := before.owned f (by simp)
    omega

theorem kfreeShared (ok : kfree L k f = .ok k') : Moves L k 0 {f} k' 0 0 := by
  refine ⟨?_, fun fine => by rw [← kfreeOom ok]; exact fine⟩
  obtain ⟨_, ⟨last, rfl⟩ | ⟨more, rfl⟩⟩ := kfreeReturns ok
  · exact (Ledger.Moves.reclaim last).trans (Ledger.Moves.putOwned _)
  · exact Ledger.Moves.drop more

theorem incPageRefMoves : Moves L k 0 {f} (incPageRef k f) 0 ({f} + {f}) := ⟨Ledger.Moves.bump, id⟩

theorem decPageRefMoves (more : 1 < k.refCnt f) : Moves L k 0 {f} (decPageRef k f) 0 0 :=
  ⟨Ledger.Moves.drop more, id⟩

theorem giveMoves : Moves L k {f} 0 k 0 {f} := ⟨Ledger.Moves.give, id⟩

theorem reclaimMoves (last : k.refCnt f ≤ 1) : Moves L k 0 {f} k {f} 0 := ⟨Ledger.Moves.reclaim last, id⟩

theorem writeMoves (c : Content) : Moves L k {f} 0 (k.write f c) {f} 0 := ⟨Ledger.Moves.write c, id⟩

theorem kinitFrees (L : Layout) : ∃ k, kinit L = .ok k ∧
    k.freelist = (List.range' L.firstPage (physTop / pgSize - L.firstPage)).reverse ∧
    k.freePages = k.freelist.length ∧ k.refCnt = (fun _ => 0) ∧ k.oom = false := by
  have loop : ∀ (ps : List Nat) (k : Kmem), (∀ f ∈ ps, f ∈ L.pool) → k.refCnt = (fun _ => 0) →
      k.freePages = k.freelist.length → ∃ k', ps.foldlM (kfree L) k = .ok k' ∧
      k'.freelist = ps.reverse ++ k.freelist ∧ k'.freePages = k'.freelist.length ∧
      k'.refCnt = (fun _ => 0) ∧ k'.oom = k.oom := by
    intro ps
    induction ps with
    | nil => intro k _ zero length; exact ⟨k, rfl, rfl, length, zero, rfl⟩
    | cons f rest ih =>
      intro k inside zero length
      obtain ⟨mid, step⟩ := kfreeOk (k := k) (inside f (by simp))
      obtain ⟨_, ⟨_, same⟩ | ⟨more, _⟩⟩ := kfreeReturns step
      · obtain ⟨k', ok, free, count, cnt, oom⟩ := ih mid (fun g mem => inside g (by simp [mem]))
          (by rw [same]; exact zero) (by rw [same]; simp [length])
        refine ⟨k', by simp only [List.foldlM_cons, step]; exact ok, ?_, count, cnt, by rw [oom, same]⟩
        rw [free, same]
        simp
      · have none : k.refCnt f = 0 := congrFun zero f
        omega
  have inside : ∀ f ∈ List.range' L.firstPage (physTop / pgSize - L.firstPage), f ∈ L.pool := by
    intro f mem
    rw [List.mem_range'_1] at mem
    simp only [Layout.pool, Finset.mem_Ico]
    omega
  obtain ⟨k, ok, free, count, cnt, oom⟩ := loop _ (kmemBss L) inside rfl rfl
  exact ⟨k, ok, by rw [free]; simp [kmemBss], count, cnt, oom⟩

theorem kinitAccounts (ok : kinit L = .ok k) : Accounts L k 0 0 := by
  obtain ⟨k', ok', free, count, _, _⟩ := kinitFrees L
  cases ok.symm.trans ok'
  refine ⟨?_, count, by simp, by simp⟩
  have cells : k.store.free = (List.range' L.firstPage (physTop / pgSize - L.firstPage)).reverse := free
  rw [cells, ← Multiset.coe_reverse]
  simp [Layout.pool, Nat.Ico_eq_range']

end OpSys.Cow
