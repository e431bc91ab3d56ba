import OpSys.Cow.Isolation
import OpSys.Cow.Twice
import OpSys.Lib.Sharing

/-! What writes to shared pages cost: `cowHandler` takes a page for each process
that writes to a shared page, and none for the last that is left with it. -/
namespace OpSys.Cow
open OpSys.Xv6 OpSys.Transition Finset

variable {L : Layout} {s s' mid : Sys} {i j : Slot} {d d' : Pgdir} {f g a : Nat} {act : Op} {o : Out} {p : Proc} {k k' : Kmem}

/-! ### The pages of the pool, also when memory has run out -/

theorem Inv.poolAccounts (h : Inv L s) :
    ∃ K, Accounted L s.k K (Sys.userWords.filter fun x => pageOf (s.pte x) ≠ 0) s.pte := by
  obtain ⟨lost, holds, _⟩ := h.accounts
  refine ⟨s.kernelPages + lost, accountsOf (fun x mem _ => (mem_filter.mp mem).2) ?_⟩
  unfold Holds at holds
  rw [s.ownedParts, s.sharedParts, add_zero, add_right_comm] at holds
  have own : ownedBy (Sys.userWords.filter fun x => pageOf (s.pte x) ≠ 0) s.pte = ownedBy Sys.userWords s.pte := by
    unfold ownedBy
    refine sum_filter_of_ne fun x _ some zero => some ?_
    unfold wordOwned
    rw [if_neg fun both => both.2.2 zero]
  have share : sharedBy (Sys.userWords.filter fun x => pageOf (s.pte x) ≠ 0) s.pte = sharedBy Sys.userWords s.pte := by
    unfold sharedBy
    refine sum_filter_of_ne fun x inside some zero => ?_
    have held : pageOf (s.pte x) ∈ sharedBy Sys.userWords s.pte := by
      unfold sharedBy
      refine Multiset.mem_sum.mpr ⟨x, inside, ?_⟩
      unfold wordShared at some ⊢
      split
      · exact Multiset.mem_singleton_self _
      · rename_i off
        exact absurd (if_neg off) some
    exact poolPos (holds.sharedIn held) zero
  rwa [own, share]

theorem poolMappers (some : f ≠ 0) : mappersOf (Sys.userWords.filter fun x => pageOf (s.pte x) ≠ 0) s.pte f = s.mappers f := by
  ext x
  rw [memMappersOf, Sys.memMappers, mem_filter]
  constructor
  · exact fun ⟨⟨inside, _⟩, user, page⟩ => ⟨inside, user, page⟩
  · exact fun ⟨inside, user, page⟩ => ⟨⟨inside, by rwa [page]⟩, user, page⟩

structure Mapped (L : Layout) (s : Sys) (f : Nat) : Prop where
  inside : f ∈ L.pool
  counted : s.k.refCnt f = (s.mappers f).card
  readOnly : ∀ x ∈ s.mappers f, ∀ y ∈ s.mappers f, y ≠ x → on (s.pte x) pteW = false

theorem Inv.mapped (h : Inv L s) (some : f ≠ 0) (user : (s.mappers f).Nonempty) : Mapped L s f := by
  obtain ⟨K, accounts⟩ := h.poolAccounts
  have same := poolMappers (s := s) some
  refine ⟨(accounts.covered f).mpr (.inr (.inr (same ▸ user))), ?_, fun x mem y mem' other => ?_⟩
  · rw [accounts.counted f (same ▸ user), same]
  · exact accounts.readOnly f (one_lt_card.mpr (same ▸ ⟨y, mem', x, mem, other⟩)) x (same ▸ mem)

theorem Inv.unmapped (h : Inv L s) (free : f ∈ s.k.freelist) : f ∈ L.pool ∧ s.mappers f = ∅ := by
  obtain ⟨K, accounts⟩ := h.poolAccounts
  have inside := (accounts.covered f).mpr (.inl free)
  exact ⟨inside, poolMappers (poolPos inside) ▸ (accounts.freeApart f free).2⟩

/-! ### No process has a page twice, zombies included -/

structure Leads (s : Sys) (i : Slot) (mid : Sys) : Prop where
  zombies : ∀ j, (mid.proc j).state = .zombie → (s.proc j).state = .zombie ∧ (mid.proc j).pgdir = (s.proc j).pgdir
  actor : ∀ d', (mid.proc i).pgdir = some d' → Private d' ∨
    ∃ m d, alive (s.proc m).state = true ∧ (s.proc m).pgdir = some d ∧ Inherits d d'

theorem Leads.still (live : alive (s.proc i).state = true) (same : mid.proc = s.proc) : Leads s i mid := by
  refine ⟨fun j gone => ?_, fun d' table => .inr ⟨i, d', live, ?_, fun v user => .inr ⟨user, rfl⟩⟩⟩
  · rw [same] at gone ⊢
    exact ⟨gone, rfl⟩
  · rwa [same] at table

theorem Leads.changed (changed : Changed L s act i (mid.proc i)) (live : alive (mid.proc i).state = true)
    (zombies : ∀ j, j ≠ i → (mid.proc j).state = .zombie → (s.proc j).state = .zombie ∧ (mid.proc j).pgdir = (s.proc j).pgdir) :
    Leads s i mid := by
  refine ⟨fun j gone => ?_, fun d' table => changed.inherits live table⟩
  by_cases same : j = i
  · subst j
    rw [gone] at live
    cases live
  · exact zombies j same gone

theorem Leads.put (changed : Changed L s act i ((s.put i k p).proc i)) (live : alive p.state = true) : Leads s i (s.put i k p) := by
  refine .changed changed (by rwa [Sys.putSelf]) fun j other gone => ?_
  rw [Sys.putOther other] at gone ⊢
  exact ⟨gone, rfl⟩

theorem syscallLeads {body : Sys → Except Stop (Sys × Option Int)} (live : alive (s.proc i).state = true)
    (leads : ∀ mid r, body s = .ok (mid, r) → Leads s i mid) (ok : syscall s i body = .ok (s', o)) :
    ∃ mid, Leads s i mid ∧ (s'.proc = mid.proc ∨ exit mid i = .ok s') := by
  rcases syscallCases ok with ⟨_, left, _⟩ | ⟨_, mid, r, ran, ⟨_, left, _⟩ | ⟨_, rfl, _⟩⟩
  · exact ⟨s, .still live rfl, .inr left⟩
  · exact ⟨mid, leads mid r ran, .inr left⟩
  · exact ⟨s', leads s' r ran, .inl rfl⟩

theorem callLeads {body : Sys → Except Stop (Sys × Option Int)}
    (leads : alive (s.proc i).state = true → ∀ mid r, body s = .ok (mid, r) → Leads s i mid)
    (ok : acting s i (syscall s i body) = .ok (s', o)) : ∃ mid, Leads s i mid ∧ (s'.proc = mid.proc ∨ exit mid i = .ok s') := by
  obtain ⟨runs, ok⟩ := actingCases ok
  have live : alive (s.proc i).state = true := by rw [runs]; rfl
  exact syscallLeads live (leads live) ok

def Sys.page (s : Sys) (x : Slot × Nat) : Option Nat := if userOn (s.pte x) then some (pageOf (s.pte x)) else none

inductive Wrote (s : Sys) (x : Slot × Nat) (f : Nat) (s' : Sys) : Prop where
  | alone (only : s.mappers f = {x}) (page : s'.page = s.page) (count : kfreeCount s'.k = kfreeCount s.k)
  | copied {y g} (user : x ∈ s.mappers f) (other : y ∈ s.mappers f) (apart : y ≠ x) (fresh : s.mappers g = ∅)
      (page : s'.page = Function.update s.page x (some g)) (count : kfreeCount s'.k + 1 = kfreeCount s.k)

theorem Wrote.poked {b : UInt8} {x : Slot × Nat} {o : Nat} (h : Wrote s x f mid) : Wrote s x f {mid with k := mid.k.poke g o b} := by
  cases h with
  | alone only page count => exact .alone only page count
  | copied user other apart fresh page count => exact .copied user other apart fresh page count

structure Store where
  slot : Slot
  address : Nat
  byte : UInt8

def Store.op (w : Store) : Op := .user w.slot (.store w.address w.byte)

def Store.word (w : Store) : Slot × Nat := (w.slot, w.address / pgSize)

/-- How many pages a run of stores takes because of page `f`: what `kfreeCount` drops
by in the steps that store to it. -/
def copies (L : Layout) (f : Nat) : Sys → List Store → Nat
  | _, [] => 0
  | s, w :: rest => match step cowuvm L s w.op with
    | .ok (s', _) => (if s.page w.word = some f then kfreeCount s.k - kfreeCount s'.k else 0) + copies L f s' rest
    | .error _ => 0

def Sys.users (s : Sys) (f : Nat) : Finset Slot := (s.mappers f).image Prod.fst

variable {ws : List Store} {os : List Out} {first : Slot × Nat → Option Nat} {past : List (Slot × Nat)} {taken : Nat → Nat}

end OpSys.Cow
