import Mathlib.Algebra.BigOperators.Group.Finset.Piecewise
import OpSys.Cow.Holdings

/-! `setupkvm`: a directory and twelve page tables, or less when memory runs out
on the way. Whether it succeeds depends on nothing but the number of free pages. -/
namespace OpSys.Cow
open OpSys.Xv6 Finset

variable {L : Layout} {k k' k'' : Kmem} {d d' d'' : Pgdir} {v : Nat} {perm w : Word} {P Q : Nat → Prop}

structure Maps (L : Layout) (k : Kmem) (d : Pgdir) (k' : Kmem) (d' : Pgdir) (P : Nat → Prop) : Prop where
  moves : Moves L k d.owned d.shared k' d'.owned d'.shared
  shape : d'.Shape
  pte : ∀ u, ¬ P u → d'.pte u = d.pte u
  stale : d'.stale = d.stale
  mem : k'.mem = k.mem
  ample : Ample k k'
  keep : ∀ i, d.pde i ≠ none → d'.pde i ≠ none
  new : ∀ i, d.pde i = none → d'.pde i ≠ none → ∃ u, P u ∧ pdx u = i

def Made (d : Pgdir) (P : Nat → Prop) : Prop := ∀ u, P u → d.pde (pdx u) ≠ none

structure Short (k : Kmem) (d : Pgdir) (P : Nat → Prop) : Prop where
  empty : k.freelist = []
  oom : k.oom = true
  missing : ∃ u, P u ∧ d.pde (pdx u) = none

theorem Maps.trans (first : Maps L k d k' d' P) (second : Maps L k' d' k'' d'' Q) :
    Maps L k d k'' d'' (fun u => P u ∨ Q u) := by
  refine ⟨first.moves.trans second.moves, second.shape, fun u out => ?_, second.stale.trans first.stale,
    second.mem.trans first.mem, first.ample.trans second.ample, fun i => second.keep i ∘ first.keep i, fun i absent present => ?_⟩
  · rw [second.pte u (fun q => out (.inr q)), first.pte u (fun p => out (.inl p))]
  · by_cases middle : d'.pde i = none
    · obtain ⟨u, q, same⟩ := second.new i middle present
      exact ⟨u, .inr q, same⟩
    · obtain ⟨u, p, same⟩ := first.new i absent middle
      exact ⟨u, .inl p, same⟩

theorem Maps.weaken (h : Maps L k d k' d' P) (le : ∀ u, P u → Q u) : Maps L k d k' d' Q :=
  ⟨h.moves, h.shape, fun u out => h.pte u (out ∘ le u), h.stale, h.mem, h.ample, h.keep, fun i absent present => by
    obtain ⟨u, p, same⟩ := h.new i absent present
    exact ⟨u, le u p, same⟩⟩

/-- What comes of mapping the pages of `P`: all of them, or as many as there was memory for. -/
def Tries (L : Layout) (k : Kmem) (d : Pgdir) (P : Nat → Prop) (r : Except Stop (Kmem × Pgdir × Bool)) : Prop :=
  ∃ k' d' b, r = .ok (k', d', b) ∧ Maps L k d k' d' P ∧ (b = true → Made d' P) ∧ (b = false → Short k' d' P)

theorem Tries.same {r : Except Stop (Kmem × Pgdir × Bool)} (h : Tries L k d P r) (same : ∀ u, P u ↔ Q u) : Tries L k d Q r :=
  (funext fun u => propext (same u) : P = Q) ▸ h

theorem Tries.next {r : Except Stop (Kmem × Pgdir × Bool)} {f : Kmem → Pgdir → Except Stop (Kmem × Pgdir × Bool)} (first : Tries L k d P r)
    (later : ∀ k' d', Maps L k d k' d' P → Tries L k' d' Q (f k' d')) :
    Tries L k d (fun u => P u ∨ Q u) (do let (k, d, ok) ← r; if ok then f k d else return (k, d, false)) := by
  obtain ⟨k', d', b, rfl, maps, made, short⟩ := first
  cases b with
  | false =>
    obtain ⟨empty, oom, u, inside, missing⟩ := short rfl
    exact ⟨k', d', false, rfl, maps.weaken fun _ => .inl, nofun, fun _ => ⟨empty, oom, u, .inl inside, missing⟩⟩
  | true =>
    obtain ⟨k'', d'', b, run, maps', made', short'⟩ := later k' d' maps
    refine ⟨k'', d'', b, run, maps.trans maps', fun yes u => ?_, fun no => ?_⟩
    · rintro (inside | inside)
      · exact maps'.keep _ (made rfl u inside)
      · exact made' yes u inside
    · obtain ⟨empty, oom, u, inside, missing⟩ := short' no
      exact ⟨empty, oom, u, .inr inside, missing⟩

theorem tablesAdd {i f : Nat} (low : i < npdEntries) (absent : d.pde i = none) :
    {f} + d.owned = Pgdir.owned {d with pde := Function.update d.pde i (some f)} := by
  have others : ∑ j ∈ (range npdEntries).erase i, tablePage (Function.update d.pde i (some f) j) =
      ∑ j ∈ (range npdEntries).erase i, tablePage (d.pde j) :=
    sum_congr rfl fun j mem => by rw [Function.update_of_ne (ne_of_mem_erase mem)]
  unfold Pgdir.owned Pgdir.tables
  dsimp only
  rw [← add_sum_erase _ (fun j => tablePage (d.pde j)) (mem_range.mpr low),
    ← add_sum_erase _ (fun j => tablePage (Function.update d.pde i (some f) j)) (mem_range.mpr low), others]
  rw [absent, Function.update_self, tablePage, tablePage, zero_add, ← add_assoc, add_left_comm]

theorem makeTable {f : Nat} (shape : d.Shape) (low : pdx v < npdEntries) (absent : d.pde (pdx v) = none)
    (taken : kalloc k = (some f, k')) :
    ∃ d', walkpgdir k d v true = (k', d', true) ∧ d'.pte = d.pte ∧ d'.stale = d.stale ∧ d'.page = d.page ∧
      d'.pde = Function.update d.pde (pdx v) (some f) ∧ Maps L k d k' d' (· = v) := by
  have words : (fun u => if pdx u = pdx v then 0 else d.pte u) = d.pte := by
    funext u
    split
    · rename_i same
      exact (shape.absent u (same ▸ absent)).symm
    · rfl
  refine ⟨{d with pde := Function.update d.pde (pdx v) (some f)}, ?_, rfl, rfl, rfl, rfl, ?_⟩
  · unfold walkpgdir
    rw [absent, taken]
    simp only [if_true]
    rw [words]
  have kept : ∀ i, d.pde i ≠ none → Function.update d.pde (pdx v) (some f) i ≠ none := by
    intro i present
    by_cases same : i = pdx v
    · simp [same]
    · rw [Function.update_of_ne same]
      exact present
  refine ⟨?_, ⟨fun i high => ?_, fun u none => ?_, shape.kernel, shape.user⟩, fun _ _ => rfl, rfl, kallocMem taken,
    kallocAmple taken, kept, fun i absent' present => ?_⟩
  · rw [← tablesAdd low absent]
    have moved := (kallocMoves (L := L) taken).frame d.owned d.shared
    rw [zero_add, zero_add] at moved
    unfold Pgdir.shared at moved ⊢
    exact moved
  · have other : i ≠ pdx v := by omega
    exact (Function.update_of_ne other _ _).trans (shape.bounded i high)
  · exact shape.absent u (by_contra fun present => kept _ present none)
  · by_cases same : i = pdx v
    · exact ⟨v, rfl, same.symm⟩
    · exact absurd ((Function.update_of_ne same _ _).trans absent') present

theorem mapPageKernel (shape : d.Shape) (high : userPages ≤ v) (fits : v < 2 ^ 20) (free : on (d.pte v) pteP = false)
    {pa : Nat} (phys : pa < 2 ^ 20) (user : on perm pteU = false) : Tries L k d (· = v) (mapPage k d v pa perm) := by
  have low : pdx v < npdEntries := by
    unfold pdx npdEntries
    omega
  -- storing the word once the table is there
  have stores : ∀ {k₁ : Kmem} {d₁ : Pgdir}, d₁.Shape → d₁.pde (pdx v) ≠ none → on (d₁.pte v) pteP = false →
      Maps L k₁ d₁ k₁ (d₁.set v (paddr pa ||| perm ||| pteP)) (· = v) := by
    intro k₁ d₁ shape₁ present free₁
    have held := Pgdir.heldSetKernel (d := d₁) (w := paddr pa ||| perm ||| pteP) high
    refine ⟨by rw [held.1, held.2]; exact .refl _ _ _, shape₁.set present (fun _ => ?_) (fun bad => by omega),
      fun u other => Pgdir.setOther other, by simp [Pgdir.set, free₁], rfl, .refl k₁, fun _ => id,
      fun i absent present' => absurd absent present'⟩
    rw [mappedU phys]
    exact user
  cases table : d.pde (pdx v) with
  | some f =>
    have present : d.pde (pdx v) ≠ none := by rw [table]; simp
    refine ⟨k, d.set v (paddr pa ||| perm ||| pteP), true, ?_, stores shape present free, ?_, by simp⟩
    · unfold mapPage walkpgdir
      rw [table]
      simp [free]
    · rintro _ u rfl
      exact present
  | none =>
    cases taken : kalloc k with
    | mk o mid =>
    cases o with
    | none =>
      refine ⟨mid, d, false, ?_, ⟨kallocShort taken _ _, shape, fun _ _ => rfl, rfl, kallocMem taken, kallocAmple taken, fun _ => id,
        fun i absent present => absurd absent present⟩, by simp, fun _ => ⟨?_, ?_, v, rfl, table⟩⟩
      · unfold mapPage walkpgdir
        rw [table, taken]
        rfl
      · rw [(kallocNone taken).2]
        exact (kallocNone taken).1
      · rw [(kallocNone taken).2]
    | some f =>
      obtain ⟨dmid, walk, words, _, _, tables, made⟩ := makeTable (L := L) shape low table taken
      have present : dmid.pde (pdx v) ≠ none := by rw [tables]; simp
      have free' : on (dmid.pte v) pteP = false := by rw [words]; exact free
      refine ⟨mid, dmid.set v (paddr pa ||| perm ||| pteP), true, ?_,
        (made.trans (stores made.shape present free')).weaken (fun u => by simp), ?_, by simp⟩
      · unfold mapPage
        rw [walk]
        simp [free']
      · rintro _ u rfl
        exact present

theorem mapPagesKernel {n : Nat} {q : Nat} (shape : d.Shape) (high : userPages ≤ v) (fits : v + n < 2 ^ 20)
    (free : ∀ u, v ≤ u → u ≤ v + n → on (d.pte u) pteP = false) (phys : q + n < 2 ^ 20)
    (user : on perm pteU = false) : Tries L k d (fun u => v ≤ u ∧ u ≤ v + n) (mapPages perm n k d v q) := by
  induction n generalizing k d v q with
  | zero => exact (mapPageKernel shape high (by omega) (free v (le_refl v) (by omega)) (by omega) user).same fun u => by omega
  | succ n ih =>
    have next : (v + 1) % 2 ^ 20 = v + 1 := Nat.mod_eq_of_lt (by omega)
    rw [mapPages, next]
    have first : Tries L k d (· = v) (mapPage k d v q perm) :=
      mapPageKernel shape high (by omega) (free v (le_refl v) (by omega)) (by omega) user
    refine (first.next fun k' d' maps => ih maps.shape (by omega) (by omega) (fun u low last => ?_) (by omega)).same fun u => by omega
    rw [maps.pte u (by omega)]
    exact free u (by omega) (by omega)

theorem mappagesRange {lo m pa : Nat} (some : 0 < m) (fits : lo + m ≤ 2 ^ 20) :
    mappages k d (lo * pgSize) (m * pgSize) pa perm = mapPages perm (m - 1) k d lo pa := by
  have start : lo * pgSize / pgSize = lo := Nat.mul_div_cancel lo (by decide)
  have last : (lo * pgSize + m * pgSize + (2 ^ 32 - 1)) % 2 ^ 32 / pgSize = lo + m - 1 := by
    unfold pgSize
    omega
  have rounds : (lo + m - 1 + 2 ^ 20 - lo) % 2 ^ 20 = m - 1 := by omega
  unfold mappages
  simp only [start, last, rounds]

theorem mapEntry {p e a b : Nat} {r : List (Nat × Nat × Word)} (shape : d.Shape) (start : p = a * pgSize)
    (size : (e + 2 ^ 32 - p) % 2 ^ 32 = (b - a) * pgSize) (some : a < b) (high : userPages ≤ a) (fits : b ≤ 2 ^ 20)
    (free : ∀ u, a ≤ u → u < b → on (d.pte u) pteP = false) (user : on w pteU = false)
    (later : ∀ k' d', Maps L k d k' d' (fun u => a ≤ u ∧ u < b) → Tries L k' d' Q (mapKernel r k' d')) :
    Tries L k d (fun u => (a ≤ u ∧ u < b) ∨ Q u) (mapKernel ((p, e, w) :: r) k d) := by
  have page : p / pgSize = a := by rw [start]; exact Nat.mul_div_cancel a (by decide)
  have first : Tries L k d (fun u => a ≤ u ∧ u < b) (mappages k d (a * pgSize) ((b - a) * pgSize) a w) := by
    rw [mappagesRange (by omega) (by omega)]
    exact (mapPagesKernel shape high (by omega) (fun u low last => free u low (by omega)) (by omega) user).same fun u => by omega
  rw [mapKernel, size, page, start]
  exact first.next later

def KernelPage (u : Nat) : Prop := 160 ≤ u ∧ u < 4096 ∨ 0xFE000 ≤ u ∧ u < 2 ^ 20

theorem mapKernelSpec (shape : d.Shape) (free : ∀ u, d.pte u = 0) : Tries L k d KernelPage (mapKernel (kmap L) k d) := by
  have text := L.textBelow
  have aligned := L.dataAligned
  have data : L.data < physTop := Nat.lt_of_lt_of_le L.dataBelow L.endBelow
  obtain ⟨n, hn⟩ : ∃ n, L.data = n * pgSize := ⟨L.data / pgSize, (Nat.div_mul_cancel (Nat.dvd_of_mod_eq_zero aligned)).symm⟩
  have bounds : 256 < n ∧ n < 4096 := by
    unfold pgSize at hn
    unfold physTop at data
    omega
  have off : ∀ u, on (d.pte u) pteP = false := fun u => by
    rw [free]
    decide
  have none : ∀ k d, d.Shape → Tries L k d (fun _ => False) (mapKernel [] k d) := fun k d shape =>
    ⟨k, d, true, rfl, ⟨.refl _ _ _, shape, fun _ _ => rfl, rfl, rfl, .refl k, fun _ => id, fun i absent present => absurd absent present⟩,
      fun _ u => False.elim, nofun⟩
  have all : Tries L k d (fun u => (160 ≤ u ∧ u < 256) ∨ (256 ≤ u ∧ u < n) ∨ (n ≤ u ∧ u < 4096) ∨ (0xFE000 ≤ u ∧ u < 2 ^ 20) ∨ False)
      (mapKernel (kmap L) k d) := by
    -- I/O space
    refine mapEntry shape (by decide) (by decide) (by decide) (by decide) (by decide) (fun u _ _ => off u) (by decide) fun k₁ d₁ maps₁ => ?_
    -- kernel text
    refine mapEntry maps₁.shape (by decide) (by rw [hn]; unfold pgSize; omega) (by omega) (by decide) (by omega)
      (fun u _ _ => by rw [maps₁.pte u (by omega)]; exact off u) (by decide) fun k₂ d₂ maps₂ => ?_
    -- kernel data and memory
    refine mapEntry maps₂.shape hn (by rw [hn]; unfold pgSize physTop; omega) (by omega) (by unfold userPages; omega) (by decide)
      (fun u _ _ => by rw [maps₂.pte u (by omega), maps₁.pte u (by omega)]; exact off u) (by decide) fun k₃ d₃ maps₃ => ?_
    -- devices
    refine mapEntry maps₃.shape (by decide) (by decide) (by decide) (by decide) (by decide)
      (fun u _ _ => by rw [maps₃.pte u (by omega), maps₂.pte u (by omega), maps₁.pte u (by omega)]; exact off u) (by decide) fun k₄ d₄ maps₄ => ?_
    exact none k₄ d₄ maps₄.shape
  exact all.same fun u => by
    unfold KernelPage
    rw [or_false]
    omega

/-! ### Counting the tables -/

theorem entryOfPage {u : Nat} (kernel : KernelPage u) : pdx u ∈ kernelEntries := by
  unfold KernelPage at kernel
  simp only [kernelEntries, pdx, mem_union, mem_range, mem_Ico]
  omega

theorem pageOfEntry {i : Nat} (mem : i ∈ kernelEntries) : ∃ u, KernelPage u ∧ pdx u = i := by
  simp only [kernelEntries, mem_union, mem_range, mem_Ico] at mem
  refine ⟨i * 1024 + 1023, ?_, ?_⟩
  · unfold KernelPage
    omega
  · unfold pdx
    omega

theorem tablesCard (d : Pgdir) : d.tables.card = 1 + ((range npdEntries).filter fun i => d.pde i ≠ none).card := by
  unfold Pgdir.tables
  have each : ∀ i ∈ range npdEntries, (tablePage (d.pde i)).card = if d.pde i ≠ none then 1 else 0 := by
    intro i _
    cases d.pde i <;> simp [tablePage]
  rw [Multiset.card_add, Multiset.card_singleton, Multiset.card_sum, sum_congr rfl each, card_filter]

theorem kernelEntriesLow : kernelEntries ⊆ range npdEntries := by
  intro i mem
  simp only [kernelEntries, npdEntries, mem_union, mem_range, mem_Ico] at *
  omega

def bare (f : Nat) : Pgdir := ⟨f, fun _ => none, fun _ => 0, []⟩

theorem bareShape (f : Nat) : (bare f).Shape :=
  ⟨fun _ _ => rfl, fun _ _ => rfl, fun _ _ => by simp [bare], fun _ _ bad => by simp [bare] at bad⟩

theorem bareAbsent : on (0 : Word) pteP = false := by decide

theorem bareHeld (f : Nat) : (bare f).owned = {f} ∧ (bare f).shared = 0 := by
  have none := emptyHeld (d := bare f) fun _ _ => bareAbsent
  rw [none.1, none.2]
  unfold Pgdir.tables
  exact ⟨by simp [bare, tablePage], rfl⟩

structure KernelTable (d : Pgdir) : Prop where
  good : d.Ok
  noUser : ∀ v < userPages, d.pte v = 0
  flushed : d.stale = []
  card : d.owned.card = 13
  unshared : d.shared = 0

theorem KernelTable.absent (h : KernelTable d) : ∀ v < userPages, on (d.pte v) pteP = false := by
  intro v low
  rw [h.noUser v low]
  exact bareAbsent

theorem KernelTable.blank (h : KernelTable d) : d.Blank := fun v low _ => h.noUser v low

theorem mapBare {f : Nat} : ∃ k' d b, mapKernel (kmap L) k (bare f) = .ok (k', d, b) ∧
    Moves L k {f} 0 k' d.owned d.shared ∧ k'.mem = k.mem ∧ Ample k k' ∧ (b = true → KernelTable d) ∧
    (b = false → k'.freelist = [] ∧ k'.oom = true ∧ d.shared = 0 ∧ d.owned.card ≤ 12) := by
  obtain ⟨k', d, b, ok, maps, made, short⟩ := mapKernelSpec (L := L) (k := k) (bareShape f) (fun _ => rfl)
  have moves := maps.moves
  rw [(bareHeld f).1, (bareHeld f).2] at moves
  have low : ∀ v < userPages, d.pte v = 0 := fun v small => maps.pte v (by unfold KernelPage userPages at *; omega)
  have held := emptyHeld (d := d) fun v small => by rw [low v small]; exact bareAbsent
  have entries : ∀ i, d.pde i ≠ none → i ∈ kernelEntries := by
    intro i present
    obtain ⟨u, kernel, rfl⟩ := maps.new i rfl present
    exact entryOfPage kernel
  refine ⟨k', d, b, ok, moves, maps.mem, maps.ample, fun yes => ?_, fun no => ?_⟩
  · have tables : ∀ i, d.pde i ≠ none ↔ i ∈ kernelEntries := by
      refine fun i => ⟨entries i, fun mem => ?_⟩
      obtain ⟨u, kernel, rfl⟩ := pageOfEntry mem
      exact made yes u kernel
    have all : (range npdEntries).filter (fun i => d.pde i ≠ none) = kernelEntries := by
      ext i
      rw [mem_filter, tables i, and_iff_right_iff_imp]
      exact fun mem => kernelEntriesLow mem
    refine ⟨⟨⟨maps.shape, tables⟩, fun v small present => ?_⟩, low, maps.stale, ?_, held.2⟩
    · rw [low v small, wordZero] at present
      cases present
    · rw [held.1, tablesCard, all]
      rfl
  · obtain ⟨empty, oom, u, kernel, missing⟩ := short no
    refine ⟨empty, oom, held.2, ?_⟩
    rw [held.1, tablesCard]
    have part : (range npdEntries).filter (fun i => d.pde i ≠ none) ⊂ kernelEntries := by
      refine ⟨fun i mem => entries i (mem_filter.mp mem).2, fun all => ?_⟩
      exact (mem_filter.mp (all (entryOfPage kernel))).2 missing
    have fewer := card_lt_card part
    have twelve : kernelEntries.card = 12 := rfl
    omega

theorem setupkvmSpec (L : Layout) (k : Kmem) :
    (∃ k' d, setupkvm L k = .ok (k', some d) ∧ Moves L k 0 0 k' d.owned d.shared ∧ KernelTable d ∧ k'.mem = k.mem ∧
      Ample k k') ∨
    (∃ k' lost, setupkvm L k = .ok (k', none) ∧ Moves L k 0 0 k' lost 0 ∧ k'.freelist = [] ∧ k'.oom = true ∧
      lost.card ≤ 12 ∧ k'.mem = k.mem) := by
  cases taken : kalloc k with
  | mk o mid =>
  cases o with
  | none =>
    refine .inr ⟨mid, 0, by unfold setupkvm; rw [taken], kallocShort taken 0 0, ?_, ?_, by simp, kallocMem taken⟩
    · rw [(kallocNone taken).2]; exact (kallocNone taken).1
    · rw [(kallocNone taken).2]
  | some f =>
    obtain ⟨k', d, b, ok, moves, mem, ample, good, short⟩ := mapBare (L := L) (k := mid) (f := f)
    have run : setupkvm L k = .ok (k', if b then some d else none) := by
      unfold setupkvm
      rw [taken]
      exact congrArg (· >>= fun made => return (made.1, if made.2.2 then some made.2.1 else none)) ok
    have all := (kallocMoves (L := L) taken).trans moves
    cases b with
    | true => exact .inl ⟨k', d, run, all, good rfl, mem.trans (kallocMem taken), (kallocAmple taken).trans ample⟩
    | false =>
      obtain ⟨empty, oom, unshared, few⟩ := short rfl
      rw [unshared] at all
      exact .inr ⟨k', d.owned, run, all, empty, oom, few, mem.trans (kallocMem taken)⟩

end OpSys.Cow
