import OpSys.Cow.Drain
import OpSys.Cow.Effects

/-! Stores that the kernel makes for a system call. `vmenable` leaves `CR0_WP` clear,
so a store through a read-only word does not fault and goes to the shared page. -/
namespace OpSys.Cow
open OpSys.Xv6 OpSys.Transition Finset

variable {L : Layout} {s s' mid : Sys} {i j : Slot} {act : Op} {o : Out} {p : Proc} {d d' : Pgdir} {k k' : Kmem}
variable {K U : Multiset Nat} {v : Nat} {xs : List (Nat × UInt8)}

/-! ### No page twice in one page table -/

def Apart (d : Pgdir) : Prop := ∀ u v, u ≠ v → userOn (d.pte u) = true → userOn (d.pte v) = true →
  pageOf (d.pte u) ≠ pageOf (d.pte v)

theorem writableApart {u : Nat} (good : d.Ok) (before : Accounts L k (d.owned + K) (d.shared + U)) (other : u ≠ v)
    (user : userOn (d.pte u) = true) (user' : userOn (d.pte v) = true) (writable : on (d.pte v) pteW = true) :
    pageOf (d.pte u) ≠ pageOf (d.pte v) := by
  have low := userLow good.toSane user
  have low' := userLow good.toSane user'
  have own := (writableHeld user' writable (good.nonzero v low' user')).1
  intro same
  rcases memBut low other user (good.nonzero u low user) with mem | mem
  · have once := before.ownedNodup
    rw [Pgdir.ownedSplit low', own, add_assoc, Multiset.singleton_add, Multiset.nodup_cons] at once
    exact once.1 (Multiset.mem_add.mpr (.inl (same ▸ mem)))
  · refine before.sharedNotOwned (a := pageOf (d.pte u)) ?_ ?_
    · rw [Pgdir.sharedSplit low', Multiset.mem_add, Multiset.mem_add]
      exact .inl (.inr mem)
    · rw [Pgdir.ownedSplit low', own, same, Multiset.mem_add, Multiset.mem_add, Multiset.mem_singleton]
      exact .inl (.inl rfl)

def Inherits (d d' : Pgdir) : Prop := ∀ v, userOn (d'.pte v) = true → on (d'.pte v) pteW = true ∨
  userOn (d.pte v) = true ∧ pageOf (d'.pte v) = pageOf (d.pte v)

theorem Apart.inherits (h : Apart d) (inherits : Inherits d d') (good : d'.Ok)
    (after : Accounts L k (d'.owned + K) (d'.shared + U)) : Apart d' := by
  intro u v other user user'
  rcases inherits v user' with writable | ⟨here, page⟩
  · exact writableApart good after other user user' writable
  · rcases inherits u user with writable' | ⟨here', page'⟩
    · exact (writableApart good after other.symm user' user writable').symm
    · rw [page, page']
      exact h u v other here' here

theorem SamePages.inherits (h : SamePages d d') : Inherits d d' := fun v user => .inr (h v user)

def Rewrites (d d' : Pgdir) : Prop := ∀ v, userOn (d'.pte v) = true → on (d'.pte v) pteW = true ∨ d'.pte v = d.pte v

theorem Rewrites.inherits (h : Rewrites d d') : Inherits d d' := by
  intro v user
  rcases h v user with writable | same
  · exact .inl writable
  · exact .inr ⟨same ▸ user, by rw [same]⟩

theorem Grows.rewrites {vs : List Nat} (h : Grows L k d k' d' vs) : Rewrites d d' := by
  intro v user
  by_cases mem : v ∈ vs
  · obtain ⟨f, inside, word⟩ := h.fresh v mem
    rw [word]
    exact .inl (userWordW (poolFits inside))
  · exact .inr (h.same v mem)

theorem goneRewrites {vs : List Nat} (same : ∀ u, u ∉ vs → d'.pte u = d.pte u)
    (gone : ∀ u ∈ vs, on (d'.pte u) pteP = false) : Rewrites d d' := by
  intro v user
  by_cases mem : v ∈ vs
  · rw [notUser (gone v mem)] at user
    cases user
  · exact .inr (same v mem)

theorem Allocated.rewrites {sz sz' r : Nat} (h : Allocated L k d sz sz' k' d' r) : Rewrites d d' := by
  cases h with
  | refused => exact fun _ _ => .inr rfl
  | smaller => exact fun _ _ => .inr rfl
  | grown _ _ grows => exact grows.rewrites
  | undone _ _ undone => exact goneRewrites undone.same undone.gone

theorem Resized.rewrites {sz sz' : Nat} {n : Word} {flag : Bool} (h : Resized L k d sz n k' d' sz' flag) : Rewrites d d' := by
  cases h with
  | more _ alloc => exact alloc.rewrites
  | refused _ alloc => exact alloc.rewrites
  | less _ shrinks => exact goneRewrites shrinks.same shrinks.gone
  | emptied _ shrinks => exact goneRewrites shrinks.same shrinks.gone
  | same => exact fun _ _ => .inr rfl

theorem Resolved.rewrites (h : Resolved L k d v k' d') : Rewrites d d' := by
  intro u _
  by_cases here : u = v
  · subst u
    exact .inl h.writable
  · exact .inr (h.same u here)

def TableApart (p : Proc) : Prop := alive p.state = true → ∀ d, p.pgdir = some d → Apart d

theorem Changed.inherits (h : Changed L s act j p) (live : alive p.state = true) (after : p.pgdir = some d') :
    Private d' ∨ ∃ m d, alive (s.proc m).state = true ∧ (s.proc m).pgdir = some d ∧ Inherits d d' := by
  cases h with
  | gone dead =>
    rw [live] at dead
    cases dead
  | kept alive' pgdir => exact .inr ⟨j, d', alive' live, pgdir.symm.trans after, fun v user => .inr ⟨user, rfl⟩⟩
  | parent _ was run _ _ pages pgdir =>
    cases pgdir.symm.trans after
    exact .inr ⟨j, _, was, run.pgdir, pages.inherits⟩
  | child _ was run _ _ pages pgdir =>
    cases pgdir.symm.trans after
    exact .inr ⟨_, _, was, run.pgdir, pages.inherits⟩
  | resized _ was run spec pgdir =>
    cases pgdir.symm.trans after
    exact .inr ⟨j, _, was, run.pgdir, spec.rewrites.inherits⟩
  | loaded image pgdir =>
    cases pgdir.symm.trans after
    exact .inl image.writable
  | resolved was run _ resolved pgdir =>
    cases pgdir.symm.trans after
    exact .inr ⟨j, _, was, run.pgdir, resolved.rewrites.inherits⟩

theorem Changed.apart (h : Changed L s act j (s'.proc j)) (before : ∀ i, TableApart (s.proc i)) (after : Inv L s') :
    TableApart (s'.proc j) := by
  intro live e table
  obtain ⟨e', run⟩ := (after.sound j).runs live
  cases table.symm.trans run.pgdir
  obtain ⟨K, U, holds⟩ := after.table (.inl live) table
  rcases h.inherits live table with writable | ⟨m, d, was, table', inherits⟩
  · intro u v other user user'
    exact writableApart run.good holds other user user' (writable v (userLow run.good.toSane user') user')
  · exact (before m was d table').inherits inherits run.good holds

theorem reachApart (reached : (machine cowuvm L).Reachable s) : ∀ i, TableApart (s.proc i) := by
  have both : Inv L s ∧ ∀ i, TableApart (s.proc i) := by
    refine Machine.Reach.invariant (P := fun s => Inv L s ∧ ∀ i, TableApart (s.proc i)) (fun s first => ?_)
      (fun s op s' o before _ ok => ?_) reached
    · have booted : boot L = .ok s := first
      have inv := bootInv booted
      refine ⟨inv, fun i live d table => ?_⟩
      obtain ⟨e, table', image, _⟩ := bootProc booted live
      cases table.symm.trans table'
      obtain ⟨K, U, holds⟩ := inv.table (.inl live) table
      intro u v other user user'
      exact writableApart image.good holds other user user' (image.writable v (userLow image.good.toSane user') user')
    · have ran : step cowuvm L s op = .ok (s', o) := ok
      have after := stepInv cowCopies before.1 ran
      exact ⟨after, fun i => (stepChanged before.1 ran i).apart before.2 after⟩
  exact both.2

/-! ### The bytes that a call stores -/

/-- Page `v` of slot `j` as user mode sees it. -/
def userMemory (s : Sys) (j : Slot) (v : Nat) : Option Content := (s.proc j).pgdir.bind fun d => view s.k d v

def Isolated (s s' : Sys) (i : Slot) : Prop :=
  ∀ j, j ≠ i → alive (s.proc j).state = true → ∀ v, userMemory s' j v = userMemory s j v

/-- Page `v` of slot `j` is the page behind address `a` of slot `i`. -/
def Behind (s : Sys) (i : Slot) (a : Nat) (j : Slot) (v : Nat) : Prop := ∃ d e, (s.proc i).pgdir = some d ∧
  (s.proc j).pgdir = some e ∧ pageOf (e.pte v) = pageOf (d.pte (a / pgSize))

/-- Where another process has the page too, the byte stored is the byte there. -/
def Harmless (s : Sys) (i : Slot) (stores : List (Nat × UInt8)) : Prop :=
  ∀ x ∈ stores, ∀ j, j ≠ i → alive (s.proc j).state = true → ∀ v, Behind s i x.1 j v →
    ∀ c, userMemory s j v = some c → c (x.1 % pgSize) = x.2

inductive Call where
  | read (f : File) (addr : Nat) (n : Word)
  | fstat (ip : Inode) (st : Nat)
  | pipe (fd : Nat) (files : Bool) (fds : Option (Nat × Nat))

def Call.op (i : Slot) : Call → Op
  | .read f addr n => .read i f addr n
  | .fstat ip st => .fstat i ip st
  | .pipe fd files fds => .pipe i fd files fds

def File.bytes (s : Sys) (n : Word) : File → List UInt8
  | .pipe m => (s.pipes[m]?.map fun p => p.takes n).getD []
  | .inode ip off => (readi ip off n.toNat).2

/-- What a call of slot `i` stores through the addresses of its caller. -/
def Call.stores (s : Sys) (i : Slot) (c : Call) : List (Nat × UInt8) :=
  if (s.proc i).killed then [] else match c with
  | .read f addr n => if argptr (s.proc i) addr n then runOf addr (f.bytes s n) else []
  | .fstat ip st => if argptr (s.proc i) st statSize then stati ip st else []
  | .pipe fd files fds =>
    if argptr (s.proc i) fd 8 = false ∨ files = false ∨ s.k.freelist = [] then []
    else (fds.map fun fd' => runOf fd (littleEndian 4 fd'.1) ++ runOf (fd + 4) (littleEndian 4 fd'.2)).getD []

theorem runOfAddresses (a : Nat) (bytes : List UInt8) : (runOf a bytes).map Prod.fst = List.range' a bytes.length := by
  induction bytes generalizing a with
  | nil => rfl
  | cons b rest ih =>
    rw [runOf, List.map_cons, ih]
    rfl

theorem littleEndianLength (width n : Nat) : (littleEndian width n).length = width := by
  unfold littleEndian
  rw [List.length_map, List.length_range]

theorem storesOnce (s : Sys) (i : Slot) (c : Call) : ((c.stores s i).map Prod.fst).Nodup := by
  unfold Call.stores
  split
  · exact List.nodup_nil
  cases c with
  | read f addr n =>
    dsimp only
    split
    · rw [runOfAddresses]
      exact List.nodup_range'
    · exact List.nodup_nil
  | fstat ip st =>
    dsimp only
    split
    · unfold stati
      simp only [List.map_append, runOfAddresses, littleEndianLength, List.nodup_append, List.mem_append,
        List.mem_range'_1]
      refine ⟨⟨⟨⟨List.nodup_range', List.nodup_range', ?_⟩, List.nodup_range', ?_⟩, List.nodup_range', ?_⟩,
        List.nodup_range', ?_⟩ <;> intro a ha b hb <;> omega
    · exact List.nodup_nil
  | pipe fd files fds =>
    dsimp only
    split
    · exact List.nodup_nil
    cases fds with
    | none => exact List.nodup_nil
    | some fd' =>
      rw [Option.map_some, Option.getD_some, List.map_append, runOfAddresses, runOfAddresses, littleEndianLength,
        littleEndianLength, List.nodup_append]
      refine ⟨List.nodup_range', List.nodup_range', fun a ha b hb => ?_⟩
      rw [List.mem_range'_1] at ha hb
      omega

/-! ### Stores and the bytes of pages -/

theorem pokeSelf {f o : Nat} {b : UInt8} : (k.poke f o b).mem f o = b := by
  unfold Kmem.poke Kmem.write
  dsimp only
  rw [Function.update_self, Function.update_self]

theorem pokeOther {f g o a : Nat} {b : UInt8} (other : ¬ (f = g ∧ o = a)) : (k.poke g a b).mem f o = k.mem f o := by
  unfold Kmem.poke Kmem.write
  dsimp only
  by_cases page : f = g
  · subst g
    rw [Function.update_self, Function.update_of_ne fun same => other ⟨rfl, same⟩]
  · rw [Function.update_of_ne page]

theorem storedByte {f o : Nat} {b : UInt8}
    (agree : ∀ x ∈ xs, pageOf (d.pte (x.1 / pgSize)) = f → x.1 % pgSize = o → x.2 = b)
    (some : k.mem f o = b ∨ ∃ x ∈ xs, pageOf (d.pte (x.1 / pgSize)) = f ∧ x.1 % pgSize = o) :
    (stored d xs k).mem f o = b := by
  induction xs generalizing k with
  | nil =>
    rcases some with here | ⟨x, mem, _⟩
    · exact here
    · cases mem
  | cons x rest ih =>
    refine ih (k := k.poke (pageOf (d.pte (x.1 / pgSize))) (x.1 % pgSize) x.2)
      (fun y mem => agree y (List.mem_cons_of_mem x mem)) ?_
    by_cases hit : pageOf (d.pte (x.1 / pgSize)) = f ∧ x.1 % pgSize = o
    · left
      rw [hit.1, hit.2, pokeSelf]
      exact agree x List.mem_cons_self hit.1 hit.2
    · rw [pokeOther fun same => hit ⟨same.1.symm, same.2.symm⟩]
      rcases some with here | ⟨y, mem, there⟩
      · exact .inl here
      · rcases List.mem_cons.mp mem with rfl | later
        · exact absurd there hit
        · exact .inr ⟨y, later, there⟩

structure Deposits (s : Sys) (i : Slot) (xs : List (Nat × UInt8)) (s' : Sys) : Prop where
  proc : s'.proc = s.proc
  through : ∃ d k, (s.proc i).pgdir = some d ∧ s'.k = stored d xs k ∧
    (∀ j, alive (s.proc j).state = true → ∀ e, (s.proc j).pgdir = some e → view k e = view s.k e) ∧
    ∀ x ∈ xs, x.1 / pgSize < userPages ∧ on (d.pte (x.1 / pgSize)) pteP = true

theorem userMemoryOf {e : Pgdir} (table : (s.proc j).pgdir = some e) (v : Nat) : userMemory s j v = view s.k e v := by
  unfold userMemory
  rw [table]
  rfl

theorem Deposits.isolated (h : Deposits s i xs s') (inv : Inv L s) (live : alive (s.proc i).state = true)
    (apart : TableApart (s.proc i)) (once : (xs.map Prod.fst).Nodup) : Isolated s s' i ↔ Harmless s i xs := by
  obtain ⟨d, k, table, kmem, before, passed⟩ := h.through
  obtain ⟨e, run⟩ := (inv.sound i).runs live
  cases table.symm.trans run.pgdir
  have user : ∀ x ∈ xs, userOn (d.pte (x.1 / pgSize)) = true := fun x mem =>
    run.good.toSane.userOn (passed x mem).1 (passed x mem).2
  constructor
  · rintro isolated x mem j other live' v ⟨d₁, e, table₁, table', page⟩ c seen
    cases table.symm.trans table₁
    have kept := isolated j other live' v
    rw [seen, userMemoryOf (h.proc ▸ table')] at kept
    unfold view at kept
    split at kept
    · rw [← Option.some.inj kept, kmem, page]
      refine storedByte (fun y mem' page' offset => ?_) (.inr ⟨x, mem, rfl, rfl⟩)
      have frame : y.1 / pgSize = x.1 / pgSize := by_contra fun other =>
        apart live d table _ _ other (user y mem') (user x mem) page'
      have address : y.1 = x.1 := by
        rw [← Nat.div_add_mod y.1 pgSize, ← Nat.div_add_mod x.1 pgSize, frame, offset]
      rw [List.inj_on_of_nodup_map once mem' mem address]
    · cases kept
  · intro harmless j other live' v
    obtain ⟨e, run'⟩ := (inv.sound j).runs live'
    have table' := run'.pgdir
    rw [userMemoryOf (h.proc ▸ table'), userMemoryOf table', kmem, ← before j live' e table']
    unfold view
    split
    · rename_i shown
      have seen : userMemory s j v = some (k.mem (pageOf (e.pte v))) := by
        rw [userMemoryOf table', ← before j live' e table', viewSome shown.1 shown.2]
      congr 1
      funext o
      refine storedByte (fun x mem page offset => ?_) (.inl rfl)
      rw [← offset]
      exact (harmless x mem j other live' v ⟨d, e, table, table', page.symm⟩ _ seen).symm
    · rfl

/-! ### The calls -/

theorem Deposits.nothing (inv : Inv L s) (live : alive (s.proc i).state = true) : Deposits s i [] s := by
  obtain ⟨d, run⟩ := (inv.sound i).runs live
  exact ⟨rfl, d, s.k, run.pgdir, rfl, fun _ _ _ _ => rfl, by simp⟩

theorem kernelStoresDeposit (inv : Inv L s) (live : alive (s.proc i).state = true)
    (ok : kernelStores s i xs = .ok s') : Deposits s i xs s' := by
  obtain ⟨d, run⟩ := (inv.sound i).runs live
  obtain ⟨passed, rfl⟩ := kernelStoresReturn inv.unprotected run.pgdir ok
  exact ⟨rfl, d, s.k, run.pgdir, rfl, fun _ _ _ _ => rfl, passed⟩

theorem Deposits.update (h : Deposits s i xs s') (proc : mid.proc = s'.proc) (kmem : mid.k = s'.k) :
    Deposits s i xs mid := by
  obtain ⟨d, k, table, same, before, passed⟩ := h.through
  exact ⟨proc.trans h.proc, d, k, table, kmem.trans same, before, passed⟩

theorem Inv.repipedView (h : Inv L s) (change : Repiped L s mid) {e : Pgdir} (live : alive (s.proc j).state = true)
    (table : (s.proc j).pgdir = some e) : view mid.k e = view s.k e := by
  obtain ⟨k', ps, rfl, moves⟩ := change
  obtain ⟨lost, holds, _⟩ := h.accounts
  obtain ⟨e', run⟩ := (h.sound j).runs live
  cases table.symm.trans run.pgdir
  refine viewKept run.good fun f held => ?_
  apply moves.kept (holdsPipes.mp holds)
  obtain ⟨own, share⟩ := heldAlive (.inl live) table
  rw [add_zero, Multiset.mem_add, Multiset.mem_add, Multiset.mem_sum, Multiset.mem_sum]
  rcases held with held | held
  · exact .inl (.inl (.inl ⟨j, mem_univ j, own ▸ Multiset.mem_add.mpr (.inr held)⟩))
  · exact .inr ⟨j, mem_univ j, share ▸ held⟩

theorem Deposits.after (h : Deposits mid i xs s') (inv : Inv L s) (change : Repiped L s mid) :
    Deposits s i xs s' := by
  obtain ⟨d, k, table, same, before, passed⟩ := h.through
  have proc := (inv.repiped change).2
  refine ⟨h.proc.trans proc, d, k, proc ▸ table, same, fun j live e table' => ?_, passed⟩
  rw [before j (proc ▸ live) e (proc ▸ table'), inv.repipedView change live table']

theorem readDeposits {f : File} {addr : Nat} {n : Word} {r : Option Nat} (inv : Inv L s) (live : alive (s.proc i).state = true)
    (ok : sysRead s i f addr n = .ok (s', r)) :
    Deposits s i (if argptr (s.proc i) addr n then runOf addr (f.bytes s n) else []) s' := by
  unfold sysRead at ok
  split at ok
  · rename_i inside
    rw [if_pos inside]
    unfold fileread at ok
    cases f with
    | pipe m =>
      unfold piperead at ok
      dsimp only at ok
      split at ok
      · cases ok
      rename_i p found
      have bytes : (File.pipe m).bytes s n = p.takes n := by
        have stored : (File.pipe m).bytes s n = (s.pipes[m]?.map fun p => p.takes n).getD [] := rfl
        rw [stored, found]
        rfl
      rw [bytes]
      split at ok
      · rename_i empty
        have none : p.takes n = [] := by
          unfold Pipe.takes
          rw [empty.1, Nat.add_sub_cancel_left, Nat.mod_self, Nat.min_zero]
          rfl
        rw [none]
        split at ok <;> cases ok
        exact .nothing inv live
      · obtain ⟨mid, stores, last⟩ := bindOk ok
        cases last
        exact (kernelStoresDeposit inv live stores).update rfl rfl
    | inode ip off =>
      obtain ⟨mid, stores, last⟩ := bindOk ok
      cases last
      exact kernelStoresDeposit inv live stores
  · rename_i outside
    rw [if_neg outside]
    cases ok
    exact .nothing inv live

theorem fstatDeposits {ip : Inode} {st : Nat} {r : Bool} (inv : Inv L s) (live : alive (s.proc i).state = true)
    (ok : sysFstat s i ip st = .ok (s', r)) :
    Deposits s i (if argptr (s.proc i) st statSize then stati ip st else []) s' := by
  unfold sysFstat at ok
  split at ok
  · rename_i inside
    rw [if_pos inside]
    obtain ⟨mid, stores, last⟩ := bindOk ok
    cases last
    exact kernelStoresDeposit inv live stores
  · rename_i outside
    rw [if_neg outside]
    cases ok
    exact .nothing inv live

theorem pipeDeposits {fd : Nat} {files : Bool} {fds : Option (Nat × Nat)} {r : Bool} (inv : Inv L s)
    (live : alive (s.proc i).state = true) (ok : sysPipe L s i fd files fds = .ok (s', r)) :
    Deposits s i (if argptr (s.proc i) fd 8 = false ∨ files = false ∨ s.k.freelist = [] then []
      else (fds.map fun fd' => runOf fd (littleEndian 4 fd'.1) ++ runOf (fd + 4) (littleEndian 4 fd'.2)).getD []) s' := by
  unfold sysPipe at ok
  split at ok
  · rename_i refused
    rw [if_pos (refused.imp_right .inl)]
    cases ok
    exact .nothing inv live
  rename_i accepted
  have change := pipeallocRepiped (L := L) s
  have made := inv.repiped change
  split at ok
  · rename_i mid alloc
    rw [alloc] at change made
    have none : s.k.freelist = [] := by
      unfold pipealloc at alloc
      cases taken : kalloc s.k with
      | mk g k' =>
      cases g with
      | none => exact (kallocNone taken).1
      | some g =>
        rw [taken] at alloc
        cases alloc
    rw [if_pos (.inr (.inr none))]
    cases ok
    exact (Deposits.nothing made.1 (by rw [made.2]; exact live)).after inv change
  · rename_i mid alloc
    rw [alloc] at change made
    have some : s.k.freelist ≠ [] := by
      intro none
      unfold pipealloc kalloc at alloc
      rw [none] at alloc
      cases alloc
    rw [if_neg (fun refused => accepted (refused.imp_right fun bad => bad.resolve_right some))]
    split at ok
    · obtain ⟨s₁, first, ok⟩ := bindOk ok
      obtain ⟨s₂, second, ok⟩ := bindOk ok
      cases ok
      have whole := change.trans ((pipecloseRepiped first).trans (pipecloseRepiped second))
      have last := inv.repiped whole
      exact (Deposits.nothing last.1 (by rw [last.2]; exact live)).after inv whole
    · obtain ⟨s₁, stores, ok⟩ := bindOk ok
      cases ok
      exact (kernelStoresDeposit made.1 (by rw [made.2]; exact live) stores).after inv change

theorem exitMemory (ok : exit s i = .ok s') (j : Slot) : userMemory s' j = userMemory s j := by
  obtain ⟨_, kmem, _, _, _, _, slots⟩ := exitCases ok
  unfold userMemory
  rw [kmem, (slots j).1]

theorem callCases {c : Call} (inv : Inv L s) (ok : step cowuvm L s (c.op i) = .ok (s', o)) :
    alive (s.proc i).state = true ∧
      ∃ mid, Deposits s i (c.stores s i) mid ∧ ∀ j, userMemory s' j = userMemory mid j := by
  have split : ∀ {body : Sys → Except Stop (Sys × Option Int)} {xs : List (Nat × UInt8)},
      c.stores s i = (if (s.proc i).killed then [] else xs) → alive (s.proc i).state = true →
      (∀ mid r, body s = .ok (mid, r) → Deposits s i xs mid) → syscall s i body = .ok (s', o) →
      ∃ mid, Deposits s i (c.stores s i) mid ∧ ∀ j, userMemory s' j = userMemory mid j := by
    intro body xs stores live deposits ran
    rw [stores]
    rcases syscallCases ran with ⟨killed, left, _⟩ | ⟨spared, mid, r, ran, ⟨_, left, _⟩ | ⟨_, rfl, _⟩⟩
    · rw [if_pos killed]
      exact ⟨s, .nothing inv live, exitMemory left⟩
    · rw [if_neg (by rw [spared]; decide)]
      exact ⟨mid, deposits mid r ran, exitMemory left⟩
    · rw [if_neg (by rw [spared]; decide)]
      exact ⟨s', deposits s' r ran, fun _ => rfl⟩
  cases c with
  | read f addr n =>
    obtain ⟨runs, ok⟩ := actingCases ok
    have live : alive (s.proc i).state = true := by rw [runs]; rfl
    refine ⟨live, split rfl live (fun mid r ran => ?_) ok⟩
    obtain ⟨b, ran⟩ := countCases ran
    exact readDeposits inv live ran
  | fstat ip st =>
    obtain ⟨runs, ok⟩ := actingCases ok
    have live : alive (s.proc i).state = true := by rw [runs]; rfl
    refine ⟨live, split rfl live (fun mid r ran => ?_) ok⟩
    obtain ⟨b, ran⟩ := statusCases ran
    exact fstatDeposits inv live ran
  | pipe fd files fds =>
    obtain ⟨runs, ok⟩ := actingCases ok
    have live : alive (s.proc i).state = true := by rw [runs]; rfl
    refine ⟨live, split rfl live (fun mid r ran => ?_) ok⟩
    obtain ⟨b, ran⟩ := statusCases ran
    exact pipeDeposits inv live ran

/-- A call leaves the memory of the others alone exactly if it stores nothing new to
a page that one of them has too. -/
theorem storesIsolated {c : Call} (reached : (machine cowuvm L).Reachable s)
    (ok : step cowuvm L s (c.op i) = .ok (s', o)) : Isolated s s' i ↔ Harmless s i (c.stores s i) := by
  have inv := reachInv cowCopies reached
  obtain ⟨live, mid, deposits, same⟩ := callCases inv ok
  rw [← deposits.isolated inv live (reachApart reached i) (storesOnce s i c)]
  unfold Isolated
  simp only [same]

def oneByte (b : UInt8) : Inode := ⟨1, 2, typeFile, 1, 1, fun _ _ => b, none⟩

theorem readOne {b : UInt8} (inv : Inv L s) (ready : Ready s i) (size : (s.proc i).sz = pgSize) : ∃ d, (s.proc i).pgdir = some d ∧
    step cowuvm L s ((Call.read (.inode (oneByte b) 0) 0 1).op i) =
      .ok ({s with k := s.k.poke (pageOf (d.pte 0)) 0 b}, .value (some 1)) := by
  obtain ⟨d, run, full⟩ := ready.fit inv
  refine ⟨d, run.pgdir, (actingRuns ready.runs).trans (syscallRuns ?_ ready.spared ready.spared)⟩
  have inside : argptr (s.proc i) 0 1 = true := by
    unfold argptr
    rw [size]
    decide
  have bytes : readi (oneByte b) 0 (1 : Word).toNat = (1, [b]) := rfl
  have present : on (d.pte (0 / pgSize)) pteP = true := full 0 (by rw [size]; decide)
  unfold sysRead
  rw [if_pos inside]
  unfold fileread
  dsimp only
  rw [bytes]
  dsimp only [runOf]
  unfold kernelStores
  simp only [List.foldlM_cons, List.foldlM_nil]
  unfold kernelStore
  rw [run.pgdir]
  dsimp only
  rw [if_neg (by decide), supervisorPresent inv.unprotected present]
  rfl

/-- The parent has a page of its own after its write fault, and reads a byte to it. -/
theorem storesIsolatedStore : ∃ s i j d c mid s' o, FirstFork s i j d c ∧
    step cowuvm Layout.sample s (.user i (.store 0 1)) = .ok (mid, .done) ∧
    step cowuvm Layout.sample mid ((Call.read (.inode (oneByte 7) 0) 0 1).op i) = .ok (s', o) ∧
    (Isolated mid s' i ↔ Harmless mid i ((Call.read (.inode (oneByte 7) 0) 0 1).stores mid i)) := by
  obtain ⟨s, i, j, d, c, mid, h⟩ := sampleStores
  obtain ⟨_, _, runs⟩ := readOne (b := 7) (reachInv cowCopies h.reach) h.ready h.size
  exact ⟨s, i, j, d, c, mid, _, _, h.forked, h.stores, runs, storesIsolated h.reach runs⟩

/-- After a fork the parent reads one byte to page 0, and the child sees it. -/
theorem sharedPageRead : ∃ s s' i c o, (machine cowuvm Layout.sample).Reachable s ∧
    step cowuvm Layout.sample s (Call.op i c) = .ok (s', o) ∧ ¬ Isolated s s' i := by
  obtain ⟨t, i, j, d, c, h⟩ := sampleForks
  obtain ⟨d', here, runs⟩ := readOne (b := t.k.mem (pageOf (d.pte 0)) 0 + 1) (reachInv cowCopies h.reach) h.ready h.size
  cases h.run.pgdir.symm.trans here
  refine ⟨t, _, i, _, _, h.reach, runs, fun isolated => ?_⟩
  have same := isolated j h.differ.symm h.child.live 0
  have after := userMemoryOf
    (s := {t with k := t.k.poke (pageOf (d.pte 0)) 0 (t.k.mem (pageOf (d.pte 0)) 0 + 1)}) h.run'.pgdir 0
  rw [after, userMemoryOf h.run'.pgdir, viewSome (by decide) h.user', viewSome (by decide) h.user', h.page] at same
  have byte := congrFun (Option.some.inj same) 0
  dsimp only at byte
  rw [pokeSelf] at byte
  grind

end OpSys.Cow
