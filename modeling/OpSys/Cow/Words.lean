import Mathlib.Algebra.BigOperators.Group.Finset.Piecewise
import OpSys.Cow.Holdings

/-! Where every page of the pool is, in the terms of page tables: how many user
words name it, and which pages the kernel keeps for itself. -/
namespace OpSys.Cow
open OpSys.Xv6 Finset

variable {L : Layout} {k : Kmem} {K : Multiset Nat} {f : Nat} {ι : Type*} {words : Finset ι} {pte : ι → Word}

def mappersOf (words : Finset ι) (pte : ι → Word) (f : Nat) : Finset ι :=
  words.filter fun x => userOn (pte x) ∧ pageOf (pte x) = f

structure Accounted (L : Layout) (k : Kmem) (K : Multiset Nat) (words : Finset ι) (pte : ι → Word) : Prop where
  freeNodup : k.freelist.Nodup
  freeCount : k.freePages = k.freelist.length
  kernelNodup : K.Nodup
  covered : ∀ f, f ∈ L.pool ↔ f ∈ k.freelist ∨ f ∈ K ∨ (mappersOf words pte f).Nonempty
  freeApart : ∀ f ∈ k.freelist, f ∉ K ∧ mappersOf words pte f = ∅
  kernelApart : ∀ f ∈ K, mappersOf words pte f = ∅
  counted : ∀ f, (mappersOf words pte f).Nonempty → k.refCnt f = (mappersOf words pte f).card
  readOnly : ∀ f, 2 ≤ (mappersOf words pte f).card → ∀ x ∈ mappersOf words pte f, on (pte x) pteW = false

def ownedBy (words : Finset ι) (pte : ι → Word) : Multiset Nat := ∑ x ∈ words, wordOwned (pte x)
def sharedBy (words : Finset ι) (pte : ι → Word) : Multiset Nat := ∑ x ∈ words, wordShared (pte x)

attribute [irreducible] mappersOf ownedBy sharedBy

theorem memMappersOf {x : ι} : x ∈ mappersOf words pte f ↔ x ∈ words ∧ userOn (pte x) = true ∧ pageOf (pte x) = f := by
  unfold mappersOf
  exact mem_filter

theorem mapperHeld {x : ι} (some : f ≠ 0) (mem : x ∈ mappersOf words pte f) :
    f ∈ ownedBy words pte ∨ f ∈ sharedBy words pte := by
  obtain ⟨inside, user, page⟩ := memMappersOf.mp mem
  unfold ownedBy sharedBy
  rw [Multiset.mem_sum, Multiset.mem_sum]
  rcases wordHeld user (by rwa [page]) with ⟨own, _, _⟩ | ⟨_, share, _⟩
  · exact .inl ⟨x, inside, by rw [own, page]; exact Multiset.mem_singleton_self f⟩
  · exact .inr ⟨x, inside, by rw [share, page]; exact Multiset.mem_singleton_self f⟩

theorem mappersCard (nonzero : ∀ x ∈ words, userOn (pte x) = true → pageOf (pte x) ≠ 0) (f : Nat) :
    (mappersOf words pte f).card = (ownedBy words pte).count f + (sharedBy words pte).count f := by
  unfold mappersOf ownedBy sharedBy
  rw [Multiset.count_sum', Multiset.count_sum', ← sum_add_distrib, card_filter]
  refine sum_congr rfl fun x mem => ?_
  cases user : userOn (pte x) with
  | false =>
    rw [(wordOff user).1, (wordOff user).2]
    simp
  | true =>
    have one : Multiset.count f {pageOf (pte x)} = if pageOf (pte x) = f then 1 else 0 := by
      rw [Multiset.count_singleton]
      simp only [eq_comm]
    rcases wordHeld user (nonzero x mem user) with ⟨own, share, _⟩ | ⟨own, share, _⟩ <;> rw [own, share] <;> simp [one]

theorem accountsOf (nonzero : ∀ x ∈ words, userOn (pte x) = true → pageOf (pte x) ≠ 0)
    (before : Accounts L k (K + ownedBy words pte) (sharedBy words pte)) : Accounted L k K words pte := by
  have count := mappersCard nonzero
  have once := Multiset.nodup_add.mp before.ownedNodup
  have mapped : ∀ f, (mappersOf words pte f).Nonempty ↔ f ∈ ownedBy words pte ∨ f ∈ sharedBy words pte := by
    intro f
    rw [← card_pos, count, ← Multiset.count_pos, ← Multiset.count_pos]
    omega
  have unmapped : ∀ {f}, f ∉ ownedBy words pte → f ∉ sharedBy words pte → mappersOf words pte f = ∅ := fun own share =>
    not_nonempty_iff_eq_empty.mp fun some => ((mapped _).mp some).elim own share
  have single : ∀ {f}, f ∈ ownedBy words pte → (mappersOf words pte f).card = 1 := by
    intro f own
    rw [count, Multiset.count_eq_one_of_mem once.2.1 own,
      Multiset.count_eq_zero.mpr fun share => before.sharedNotOwned share (Multiset.mem_add.mpr (.inr own))]
  refine ⟨before.freeNodup, before.sized, once.1, fun f => ?_, fun f free => ⟨fun own => ?_, ?_⟩, fun f own => ?_,
    fun f some => ?_, fun f many x mem => ?_⟩
  · rw [mapped, before.covers, Multiset.mem_add, or_assoc]
    rfl
  · exact before.ownedNotFree (Multiset.mem_add.mpr (.inl own)) free
  · exact unmapped (fun own => before.ownedNotFree (Multiset.mem_add.mpr (.inr own)) free)
      fun share => before.sharedNotFree share free
  · exact unmapped (fun word => Multiset.disjoint_left.mp once.2.2 own word)
      fun share => before.sharedNotOwned share (Multiset.mem_add.mpr (.inl own))
  · rcases (mapped f).mp some with own | share
    · rw [single own]
      exact before.owned f (Multiset.mem_add.mpr (.inr own))
    · have apart := before.sharedNotOwned share
      rw [count, Multiset.count_eq_zero.mpr fun own => apart (Multiset.mem_add.mpr (.inr own)), zero_add]
      exact before.shared f share
  · obtain ⟨inside, user, page⟩ := memMappersOf.mp mem
    cases writable : on (pte x) pteW with
    | false => rfl
    | true =>
      have own : f ∈ ownedBy words pte := by
        rw [ownedBy, Multiset.mem_sum]
        refine ⟨x, inside, ?_⟩
        rcases wordHeld user (nonzero x inside user) with ⟨own, _, _⟩ | ⟨_, _, off⟩
        · rw [own, page]
          exact Multiset.mem_singleton_self f
        · rw [writable] at off
          cases off
      have one := single own
      omega

end OpSys.Cow
