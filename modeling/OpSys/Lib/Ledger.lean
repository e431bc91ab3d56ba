import Mathlib.Algebra.Order.Group.Multiset
import Mathlib.Data.Finset.Card
import Mathlib.Data.Multiset.AddSub
import Mathlib.Data.Multiset.Dedup

/-! Cells handed out from a free list, with a use count and contents a cell.
A holder either owns a cell alone or is one of several that share it. `Balanced`
says that the free cells, the owned ones and the shared ones (each once) are all
the cells there are, and that the count of a held cell is the number of its
holders. `Moves` relates two stores and what a part of the system holds before
and after, whatever the rest of the system holds. -/
namespace OpSys.Ledger

variable {α γ : Type*} [DecidableEq α]

structure Store (α γ : Type*) where
  free : List α
  size : Nat
  cnt : α → Nat
  mem : α → γ

namespace Store

def take (s : Store α γ) : Option (α × Store α γ) := match s.free with
  | [] => none
  | a :: rest => some (a, {s with free := rest, size := s.size - 1, cnt := Function.update s.cnt a 1})

def put (s : Store α γ) (a : α) (c : γ) : Store α γ :=
  {s with free := a :: s.free, size := s.size + 1, mem := Function.update s.mem a c}

def bump (s : Store α γ) (a : α) : Store α γ :=
  {s with cnt := Function.update s.cnt a (s.cnt a + 1)}

def drop (s : Store α γ) (a : α) : Store α γ :=
  {s with cnt := Function.update s.cnt a (s.cnt a - 1)}

def write (s : Store α γ) (a : α) (c : γ) : Store α γ :=
  {s with mem := Function.update s.mem a c}

end Store

/-- `K` holds the owned cells, `U` one element for each holder of a shared cell. -/
structure Balanced (all : Finset α) (s : Store α γ) (K U : Multiset α) : Prop where
  conserve : (s.free : Multiset α) + K + U.dedup = all.val
  sized : s.size = s.free.length
  owned : ∀ a ∈ K, s.cnt a = 1
  shared : ∀ a ∈ U, s.cnt a = U.count a

namespace Balanced

variable {all : Finset α} {s s' : Store α γ} {K U : Multiset α} {a : α}

theorem nodup (h : Balanced all s K U) : ((s.free : Multiset α) + K + U.dedup).Nodup := by
  rw [h.conserve]
  exact all.nodup

theorem freeNodup (h : Balanced all s K U) : s.free.Nodup :=
  Multiset.coe_nodup.mp (Multiset.nodup_add.mp (Multiset.nodup_add.mp h.nodup).1).1

theorem ownedNodup (h : Balanced all s K U) : K.Nodup :=
  (Multiset.nodup_add.mp (Multiset.nodup_add.mp h.nodup).1).2.1

theorem ownedNotFree (h : Balanced all s K U) (own : a ∈ K) : a ∉ s.free := fun free =>
  Multiset.disjoint_left.mp (Multiset.nodup_add.mp (Multiset.nodup_add.mp h.nodup).1).2.2
    (Multiset.mem_coe.mpr free) own

theorem sharedNotOwned (h : Balanced all s K U) (share : a ∈ U) : a ∉ K := fun own =>
  Multiset.disjoint_left.mp (Multiset.nodup_add.mp h.nodup).2.2
    (Multiset.mem_add.mpr (.inr own)) (Multiset.mem_dedup.mpr share)

theorem sharedNotFree (h : Balanced all s K U) (share : a ∈ U) : a ∉ s.free := fun free =>
  Multiset.disjoint_left.mp (Multiset.nodup_add.mp h.nodup).2.2
    (Multiset.mem_add.mpr (.inl (Multiset.mem_coe.mpr free))) (Multiset.mem_dedup.mpr share)

theorem covers (h : Balanced all s K U) : a ∈ all ↔ a ∈ s.free ∨ a ∈ K ∨ a ∈ U := by
  rw [← Finset.mem_val, ← h.conserve]
  simp only [Multiset.mem_add, Multiset.mem_coe, Multiset.mem_dedup, or_assoc]

theorem room (h : Balanced all s K U) : s.free.length + K.card + U.dedup.card = all.card := by
  have cards := congrArg Multiset.card h.conserve
  rwa [Multiset.card_add, Multiset.card_add, Multiset.coe_card] at cards

theorem freeIn (h : Balanced all s K U) (free : a ∈ s.free) : a ∈ all := h.covers.mpr (.inl free)

theorem ownedIn (h : Balanced all s K U) (own : a ∈ K) : a ∈ all := h.covers.mpr (.inr (.inl own))

theorem sharedIn (h : Balanced all s K U) (share : a ∈ U) : a ∈ all := h.covers.mpr (.inr (.inr share))

theorem sameCells (h : Balanced all s K U) (free : s'.free = s.free) (size : s'.size = s.size)
    (cnt : s'.cnt = s.cnt) : Balanced all s' K U :=
  ⟨by rw [free]; exact h.conserve, by rw [free, size]; exact h.sized, by rw [cnt]; exact h.owned,
    by rw [cnt]; exact h.shared⟩

theorem freePerm (h : Balanced all s K U) (h' : Balanced all s' K U) : s'.free.Perm s.free := by
  apply Multiset.coe_eq_coe.mp
  have same := h'.conserve.trans h.conserve.symm
  simpa only [add_assoc, Multiset.add_left_inj] using same

theorem held (h : Balanced all s K U) : a ∈ s.free ↔ a ∈ all ∧ a ∉ K + U := by
  rw [h.covers, Multiset.mem_add]
  constructor
  · intro free
    refine ⟨.inl free, ?_⟩
    rintro (own | share)
    · exact h.ownedNotFree own free
    · exact h.sharedNotFree share free
  · rintro ⟨free | own | share, out⟩
    · exact free
    · exact absurd (.inl own) out
    · exact absurd (.inr share) out

theorem counted (h : Balanced all s K U) (mem : a ∈ K + U) : s.cnt a = (K + U).count a := by
  rw [Multiset.count_add]
  rcases Multiset.mem_add.mp mem with own | share
  · have none : a ∉ U := fun share => h.sharedNotOwned share own
    rw [h.owned a own, Multiset.count_eq_one_of_mem h.ownedNodup own, Multiset.count_eq_zero.mpr none]
  · rw [h.shared a share, Multiset.count_eq_zero.mpr (h.sharedNotOwned share), Nat.zero_add]

/-- It makes no difference to the free cells and the counts which of the held cells are
owned and which are shared. -/
theorem regroup (h : Balanced all s K U) {K' U' : Multiset α} (h' : Balanced all s' K' U') (same : K' + U' = K + U) :
    s'.free.Perm s.free ∧ s'.size = s.size ∧ ∀ a ∈ K + U, s'.cnt a = s.cnt a := by
  have perm : s'.free.Perm s.free := (List.perm_ext_iff_of_nodup h'.freeNodup h.freeNodup).mpr fun a => by
    rw [h'.held, h.held, same]
  refine ⟨perm, by rw [h'.sized, h.sized, perm.length_eq], fun a mem => ?_⟩
  rw [h.counted mem, h'.counted (same ▸ mem), same]

theorem take (h : Balanced all s K U) (ok : s.take = some (a, s')) : Balanced all s' (a ::ₘ K) U := by
  unfold Store.take at ok
  split at ok
  · contradiction
  rename_i b rest free
  cases Option.some.inj ok
  have mine : a ∈ s.free := by simp [free]
  refine ⟨?_, ?_, ?_, ?_⟩
  · have same := h.conserve
    rw [free, ← Multiset.cons_coe, Multiset.cons_add, Multiset.cons_add] at same
    rw [← same, Multiset.add_cons, Multiset.cons_add]
  · have length := h.sized
    simp only [free, List.length_cons] at length
    simp [length]
  · intro b own
    rcases Multiset.mem_cons.mp own with rfl | old
    · simp
    · have other : b ≠ a := fun same => h.ownedNotFree old (same ▸ mine)
      simpa [Function.update_of_ne other] using h.owned b old
  · intro b share
    have other : b ≠ a := fun same => h.sharedNotFree share (same ▸ mine)
    simpa [Function.update_of_ne other] using h.shared b share

theorem putOwned (h : Balanced all s (a ::ₘ K) U) (c : γ) : Balanced all (s.put a c) K U := by
  refine ⟨?_, by simp [Store.put, h.sized], fun b own => h.owned b (Multiset.mem_cons_of_mem own), h.shared⟩
  rw [← h.conserve, Multiset.add_cons, Multiset.cons_add]
  simp only [Store.put, ← Multiset.cons_coe, Multiset.cons_add]

theorem lastHolder (h : Balanced all s K (a ::ₘ U)) (last : s.cnt a ≤ 1) : a ∉ U := by
  have count := h.shared a (Multiset.mem_cons_self a U)
  rw [Multiset.count_cons_self] at count
  exact Multiset.count_eq_zero.mp (by omega)

theorem othersHold (h : Balanced all s K (a ::ₘ U)) (more : 1 < s.cnt a) : a ∈ U := by
  have count := h.shared a (Multiset.mem_cons_self a U)
  rw [Multiset.count_cons_self] at count
  exact Multiset.count_pos.mp (by omega)

theorem reclaim (h : Balanced all s K (a ::ₘ U)) (last : s.cnt a ≤ 1) : Balanced all s (a ::ₘ K) U := by
  have alone := h.lastHolder last
  refine ⟨?_, h.sized, ?_, ?_⟩
  · have same := h.conserve
    rw [Multiset.dedup_cons_of_notMem alone] at same
    rw [← same, Multiset.add_cons, Multiset.add_cons, Multiset.cons_add]
  · intro b own
    rcases Multiset.mem_cons.mp own with rfl | old
    · simpa [alone] using h.shared b (Multiset.mem_cons_self b U)
    · exact h.owned b old
  · intro b share
    have other : b ≠ a := fun same => alone (same ▸ share)
    simpa [Multiset.count_cons_of_ne other] using h.shared b (Multiset.mem_cons_of_mem share)

theorem give (h : Balanced all s (a ::ₘ K) U) : Balanced all s K (a ::ₘ U) := by
  have alone : a ∉ U := fun share => h.sharedNotOwned share (Multiset.mem_cons_self a K)
  have fresh : a ∉ K := (Multiset.nodup_cons.mp h.ownedNodup).1
  refine ⟨?_, h.sized, fun b own => h.owned b (Multiset.mem_cons_of_mem own), ?_⟩
  · rw [← h.conserve, Multiset.dedup_cons_of_notMem alone, Multiset.add_cons, Multiset.add_cons,
      Multiset.cons_add]
  · intro b share
    rcases Multiset.mem_cons.mp share with rfl | old
    · rw [h.owned b (Multiset.mem_cons_self b K), Multiset.count_cons_self, Multiset.count_eq_zero.mpr alone]
    · have other : b ≠ a := fun same => alone (same ▸ old)
      rw [h.shared b old, Multiset.count_cons_of_ne other]

theorem bump (h : Balanced all s K (a ::ₘ U)) : Balanced all (s.bump a) K (a ::ₘ a ::ₘ U) := by
  have mine := Multiset.mem_cons_self a U
  refine ⟨?_, h.sized, ?_, ?_⟩
  · rw [← h.conserve, Multiset.dedup_cons_of_mem mine]
    rfl
  · intro b own
    have other : b ≠ a := fun same => h.sharedNotOwned mine (same ▸ own)
    simpa [Store.bump, Function.update_of_ne other] using h.owned b own
  · intro b share
    by_cases same : b = a
    · subst b
      simp [Store.bump, h.shared a mine]
    · have old : b ∈ a ::ₘ U := by simpa [same] using share
      simpa [Store.bump, Function.update_of_ne same, Multiset.count_cons_of_ne same] using h.shared b old

theorem drop (h : Balanced all s K (a ::ₘ U)) (more : 1 < s.cnt a) : Balanced all (s.drop a) K U := by
  have mine := Multiset.mem_cons_self a U
  have others := h.othersHold more
  refine ⟨?_, h.sized, ?_, ?_⟩
  · rw [← h.conserve, Multiset.dedup_cons_of_mem others]
    rfl
  · intro b own
    have other : b ≠ a := fun same => h.sharedNotOwned mine (same ▸ own)
    simpa [Store.drop, Function.update_of_ne other] using h.owned b own
  · intro b share
    by_cases same : b = a
    · subst b
      simp [Store.drop, h.shared a mine]
    · simpa [Store.drop, Function.update_of_ne same, Multiset.count_cons_of_ne same] using
        h.shared b (Multiset.mem_cons_of_mem share)

end Balanced

/-- What one part of a system does to a store: it held `A` alone and `B` shared
before, `A'` and `B'` after, and the balance survives whatever `K` and `U` the
other parts hold; their cells keep their contents, and what is no cell its count. -/
def Moves (all : Finset α) (s : Store α γ) (A B : Multiset α) (s' : Store α γ) (A' B' : Multiset α) : Prop :=
  ∀ K U, Balanced all s (A + K) (B + U) →
    Balanced all s' (A' + K) (B' + U) ∧ (∀ a, a ∈ K ∨ a ∈ U → s'.mem a = s.mem a) ∧
      ∀ a, a ∉ all → s'.cnt a = s.cnt a

namespace Moves

variable {all : Finset α} {s s' s'' : Store α γ} {A B A' B' A'' B'' : Multiset α} {a : α}

theorem refl (s : Store α γ) (A B : Multiset α) : Moves all s A B s A B :=
  fun _ _ h => ⟨h, fun _ _ => rfl, fun _ _ => rfl⟩

theorem trans (first : Moves all s A B s' A' B') (second : Moves all s' A' B' s'' A'' B'') :
    Moves all s A B s'' A'' B'' := by
  intro K U h
  obtain ⟨mid, kept, away⟩ := first K U h
  obtain ⟨last, kept', away'⟩ := second K U mid
  exact ⟨last, fun a other => (kept' a other).trans (kept a other), fun a out => (away' a out).trans (away a out)⟩

theorem frame (h : Moves all s A B s' A' B') (X Y : Multiset α) :
    Moves all s (A + X) (B + Y) s' (A' + X) (B' + Y) := by
  intro K U balanced
  rw [add_assoc, add_assoc] at balanced
  obtain ⟨after, kept, away⟩ := h (X + K) (Y + U) balanced
  refine ⟨by rwa [add_assoc, add_assoc], fun a other => kept a ?_, away⟩
  rcases other with own | share
  · exact .inl (Multiset.mem_add.mpr (.inr own))
  · exact .inr (Multiset.mem_add.mpr (.inr share))

theorem take (ok : s.take = some (a, s')) : Moves all s 0 0 s' {a} 0 := by
  intro K U h
  rw [zero_add, zero_add] at h
  refine ⟨by simpa only [Multiset.singleton_add, zero_add] using h.take ok, ?_⟩
  unfold Store.take at ok
  split at ok
  · contradiction
  rename_i b rest free
  cases Option.some.inj ok
  refine ⟨fun _ _ => rfl, fun c out => Function.update_of_ne ?_ _ _⟩
  rintro rfl
  exact out (h.freeIn (by rw [free]; exact List.mem_cons_self))

theorem putOwned (c : γ) : Moves all s {a} 0 (s.put a c) 0 0 := by
  intro K U h
  simp only [Multiset.singleton_add, zero_add] at h ⊢
  refine ⟨h.putOwned c, fun b other => Function.update_of_ne ?_ _ _, fun _ _ => rfl⟩
  rintro rfl
  rcases other with own | share
  · exact (Multiset.nodup_cons.mp h.ownedNodup).1 own
  · exact h.sharedNotOwned share (Multiset.mem_cons_self b K)

theorem reclaim (last : s.cnt a ≤ 1) : Moves all s 0 {a} s {a} 0 := by
  intro K U h
  rw [zero_add, Multiset.singleton_add] at h
  rw [Multiset.singleton_add, zero_add]
  exact ⟨h.reclaim last, fun _ _ => rfl, fun _ _ => rfl⟩

theorem give : Moves all s {a} 0 s 0 {a} := by
  intro K U h
  rw [Multiset.singleton_add, zero_add] at h
  rw [zero_add, Multiset.singleton_add]
  exact ⟨h.give, fun _ _ => rfl, fun _ _ => rfl⟩

theorem bump : Moves all s 0 {a} (s.bump a) 0 ({a} + {a}) := by
  intro K U h
  rw [zero_add, Multiset.singleton_add] at h
  rw [zero_add, add_assoc, Multiset.singleton_add, Multiset.singleton_add]
  refine ⟨h.bump, fun _ _ => rfl, fun b out => Function.update_of_ne ?_ _ _⟩
  rintro rfl
  exact out (h.sharedIn (Multiset.mem_cons_self b U))

theorem drop (more : 1 < s.cnt a) : Moves all s 0 {a} (s.drop a) 0 0 := by
  intro K U h
  rw [zero_add, Multiset.singleton_add] at h
  rw [zero_add, zero_add]
  refine ⟨h.drop more, fun _ _ => rfl, fun b out => Function.update_of_ne ?_ _ _⟩
  rintro rfl
  exact out (h.sharedIn (Multiset.mem_cons_self b U))

theorem write (c : γ) : Moves all s {a} 0 (s.write a c) {a} 0 := by
  intro K U h
  simp only [Multiset.singleton_add, zero_add] at h ⊢
  refine ⟨h.sameCells rfl rfl rfl, fun b other => Function.update_of_ne ?_ _ _, fun _ _ => rfl⟩
  rintro rfl
  rcases other with own | share
  · exact (Multiset.nodup_cons.mp h.ownedNodup).1 own
  · exact h.sharedNotOwned share (Multiset.mem_cons_self b K)

end Moves

end OpSys.Ledger
