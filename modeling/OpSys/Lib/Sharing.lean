import Mathlib.Algebra.Group.Pi.Basic
import Mathlib.Algebra.GroupWithZero.Nat
import Mathlib.Data.Finset.Card

/-! Pages with several users, of which a write makes a copy unless its user is the
only one left. However the writes are ordered, a page is copied for each of those
that write, and for all but one when all of them do. -/
namespace OpSys.Sharing
open Finset

variable {ι β : Type*} [DecidableEq β]

def users (words : Finset ι) (page : ι → Option β) (f : β) : Finset ι := words.filter fun x => page x = some f

theorem memUsers {words : Finset ι} {page : ι → Option β} {x : ι} {f : β} : x ∈ users words page f ↔ x ∈ words ∧ page x = some f :=
  mem_filter

variable [DecidableEq ι]

/-- What a sequence of writes does: who wrote, the pages taken in place of each page,
and which page each has now. -/
inductive Writes (words : Finset ι) (start : ι → Option β) : List ι → (β → Nat) → (ι → Option β) → Prop where
  | none : Writes words start [] 0 start
  | alone {ws taken now x} {f : β} (before : Writes words start ws taken now) (only : users words now f = {x}) :
      Writes words start (x :: ws) taken now
  | copied {ws taken now x y} {f g : β} (before : Writes words start ws taken now) (user : x ∈ users words now f)
      (other : y ∈ users words now f) (apart : y ≠ x) (fresh : users words now g = ∅) :
      Writes words start (x :: ws) (taken + Pi.single f 1) (Function.update now x (some g))

variable {words : Finset ι} {start now : ι → Option β} {ws : List ι} {taken : β → Nat} {x y : ι} {f g : β}

theorem usersTo (user : x ∈ words) (empty : users words now g = ∅) : users words (Function.update now x (some g)) g = {x} := by
  ext y
  rw [memUsers, mem_singleton]
  constructor
  · rintro ⟨inside, page⟩
    by_contra other
    rw [Function.update_of_ne other] at page
    have mem := memUsers.mpr ⟨inside, page⟩
    rw [empty] at mem
    exact notMem_empty y mem
  · rintro rfl
    exact ⟨user, Function.update_self y _ _⟩

theorem usersFrom (other : f ≠ g) : users words (Function.update now x (some g)) f = (users words now f).erase x := by
  ext y
  rw [mem_erase, memUsers, memUsers]
  by_cases same : y = x
  · subst y
    rw [Function.update_self]
    simp [other.symm]
  · rw [Function.update_of_ne same]
    simp [same]

structure Stays (words : Finset ι) (start now : ι → Option β) (f : β) : Prop where
  some : (users words now f).Nonempty
  old : users words now f ⊆ users words start f

structure Spent (words : Finset ι) (start : ι → Option β) (ws : List ι) (taken : β → Nat) (now : ι → Option β) : Prop where
  counted : ∀ f, taken f + (users words start f ∩ users words now f).card = (users words start f).card
  moved : ∀ x ∈ words, now x ≠ start x → x ∈ ws
  settled : ∀ x ∈ ws, ∀ f, x ∈ users words start f → x ∈ users words now f → users words now f = {x}
  stays : ∀ f, (users words start f).Nonempty → Stays words start now f
  single : ∀ f, users words start f = ∅ → (users words now f).card ≤ 1

theorem Spent.none : Spent words start [] 0 start := by
  refine ⟨fun f => ?_, fun x _ other => absurd rfl other, nofun, fun f some => ⟨some, Subset.rfl⟩,
    fun f empty => by rw [empty, card_empty]; exact Nat.zero_le 1⟩
  rw [inter_self, Pi.zero_apply, Nat.zero_add]

theorem Spent.alone (h : Spent words start ws taken now) (only : users words now f = {x}) :
    Spent words start (x :: ws) taken now := by
  refine ⟨h.counted, fun y inside other => List.mem_cons_of_mem x (h.moved y inside other), fun y mem e old here => ?_,
    h.stays, h.single⟩
  rcases List.mem_cons.mp mem with rfl | mem
  · have user : y ∈ users words now f := by
      rw [only]
      exact mem_singleton_self y
    have same := Option.some.inj ((memUsers.mp here).2.symm.trans (memUsers.mp user).2)
    rw [same, only]
  · exact h.settled y mem e old here

theorem Spent.shared (h : Spent words start ws taken now) (user : x ∈ users words now f) (other : y ∈ users words now f)
    (apart : y ≠ x) : x ∈ users words start f := by
  have many : 1 < (users words now f).card := one_lt_card.mpr ⟨y, other, x, user, apart⟩
  rcases (users words start f).eq_empty_or_nonempty with none | some
  · have := h.single f none
    omega
  · exact (h.stays f some).old user

theorem Spent.unused (h : Spent words start ws taken now) (fresh : users words now g = ∅) : users words start g = ∅ := by
  rw [← not_nonempty_iff_eq_empty]
  intro some
  have stays := (h.stays g some).some
  rw [fresh] at stays
  exact not_nonempty_empty stays

theorem Spent.copiedCount (h : Spent words start ws taken now) (old : x ∈ users words start f) (user : x ∈ users words now f)
    (away : f ≠ g) (unused : users words start g = ∅) (e : β) :
    (taken + Pi.single f 1 : β → Nat) e + (users words start e ∩ users words (Function.update now x (some g)) e).card =
      (users words start e).card := by
  rw [Pi.add_apply]
  have one := h.counted e
  by_cases source : e = f
  · subst e
    have mem : x ∈ users words start f ∩ users words now f := mem_inter.mpr ⟨old, user⟩
    have some := card_pos.mpr ⟨x, mem⟩
    rw [usersFrom away, inter_erase, card_erase_of_mem mem, Pi.single_eq_same]
    omega
  · have absent : x ∉ users words start e := fun mem =>
      source (Option.some.inj ((memUsers.mp mem).2.symm.trans (memUsers.mp old).2))
    rw [Pi.single_eq_of_ne source, Nat.add_zero]
    by_cases target : e = g
    · subst e
      rwa [unused, empty_inter] at one ⊢
    · rwa [usersFrom target, inter_erase, erase_eq_of_notMem fun mem => absent (mem_inter.mp mem).1]

theorem Spent.copiedSettled (h : Spent words start ws taken now) {z : ι} {e : β} (mem : z ∈ x :: ws) (target : e ≠ g)
    (old : z ∈ users words start e) (here : z ∈ users words (Function.update now x (some g)) e) :
    users words (Function.update now x (some g)) e = {z} := by
  rw [usersFrom target] at here ⊢
  obtain ⟨away, there⟩ := mem_erase.mp here
  have only := h.settled z (List.mem_of_ne_of_mem away mem) e old there
  -- a writer that has settled is the only user, so the page copied is another one
  have outside : x ∉ users words now e := fun mem => away (by rw [only, mem_singleton] at mem; exact mem.symm)
  rwa [erase_eq_of_notMem outside]

theorem Stays.copied {e : β} (h : Stays words start now e) (user : x ∈ users words now f) (other : y ∈ users words now f)
    (apart : y ≠ x) (target : e ≠ g) : Stays words start (Function.update now x (Option.some g)) e := by
  obtain ⟨⟨z, mem⟩, within⟩ := h
  refine ⟨?_, ?_⟩
  · rw [usersFrom target]
    by_cases same : z = x
    · subst z
      have page := Option.some.inj ((memUsers.mp mem).2.symm.trans (memUsers.mp user).2)
      exact ⟨y, mem_erase.mpr ⟨apart, page ▸ other⟩⟩
    · exact ⟨z, mem_erase.mpr ⟨same, mem⟩⟩
  · rw [usersFrom target]
    exact (erase_subset x _).trans within

theorem Spent.copied (h : Spent words start ws taken now) (user : x ∈ users words now f) (other : y ∈ users words now f)
    (apart : y ≠ x) (fresh : users words now g = ∅) :
    Spent words start (x :: ws) (taken + Pi.single f 1) (Function.update now x (some g)) := by
  have unused := h.unused fresh
  have away : f ≠ g := by
    rintro rfl
    rw [fresh] at user
    exact notMem_empty x user
  have target : ∀ e, (users words start e).Nonempty → e ≠ g := by
    rintro e some rfl
    rw [unused] at some
    exact not_nonempty_empty some
  refine ⟨h.copiedCount (h.shared user other apart) user away unused, fun z inside moved => ?_,
    fun z mem e old here => h.copiedSettled mem (target e ⟨z, old⟩) old here,
    fun e some => (h.stays e some).copied user other apart (target e some), fun e none => ?_⟩
  · by_cases same : z = x
    · rw [same]
      exact List.mem_cons_self
    · rw [Function.update_of_ne same] at moved
      exact List.mem_cons_of_mem x (h.moved z inside moved)
  · by_cases target : e = g
    · subst e
      rw [usersTo (memUsers.mp user).1 fresh, card_singleton]
    · rw [usersFrom target]
      exact (card_erase_le).trans (h.single e none)

theorem Writes.spent (run : Writes words start ws taken now) : Spent words start ws taken now := by
  induction run with
  | none => exact .none
  | alone _ only ih => exact ih.alone only
  | copied _ user other apart fresh ih => exact ih.copied user other apart fresh

end OpSys.Sharing
