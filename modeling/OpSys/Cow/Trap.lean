import OpSys.Cow.Sizes

/-! `trap` on an exception of the processor, and what `cowHandler` does before it
knows its pointers. -/
namespace OpSys.Cow
open OpSys.Xv6 OpSys.Transition

def tPgflt : Nat := 14
def dplUser : Word := 3

structure Trapframe where
  trapno : Nat
  cs : Word

/-- Through what null pointer something is read: `proc->pgdir` or `*pte`. -/
inductive Null where
  | proc
  | pte
  deriving DecidableEq

/-- `cowHandler` with `proc`, which may be null, and the null pointers used on the way. The
test of `proc` comes after its first use. -/
def handler (s : Sys) (cur : Option Slot) (va : Word) : List Null × Except Stop Sys :=
  match cur with
  | none => ([.proc], .error .wild)
  | some i => match (s.proc i).pgdir with
    | none => ([], .error .wild)
    | some d => match walkpgdir s.k d (va.toNat / pgSize) false with
      | (_, _, false) => ([.pte], cowHandler s i va.toNat)
      | (_, _, true) => ([], cowHandler s i va.toNat)

/-- How `trap` ends: with `iret`, or with a call of `exit`, which does not return. -/
inductive Ending where
  | resumes (s : Sys)
  | exits (s : Sys)

/-- System calls and interrupts, and so the clock tick that yields, have other numbers. -/
def trap (s : Sys) (cur : Option Slot) (tf : Trapframe) (va : Word) : Except Stop Ending := do
  let s ←
    if tf.trapno = tPgflt then (handler s cur va).2
    else match cur with
      | none => .error (.panic "trap")
      | some i =>
        if tf.cs &&& 3 = 0 then .error (.panic "trap")
        else .ok (s.put i s.k {s.proc i with killed := true})
  match cur with
  | none => return .resumes s
  | some i => if (s.proc i).killed ∧ tf.cs &&& 3 = dplUser then return .exits s else return .resumes s

variable {L : Layout} {s s' : Sys} {i j : Slot} {cur : Option Slot} {va : Word} {tf : Trapframe} {d : Pgdir} {k : Kmem} {a : Nat}

theorem handlerOf (table : (s.proc i).pgdir = some d) : handler s (some i) va =
    (if d.pde (pdx (va.toNat / pgSize)) = none then [.pte] else [], cowHandler s i va.toNat) := by
  have found := walkFinds (k := s.k) (d := d) (va.toNat / pgSize)
  unfold handler
  dsimp only
  rw [table]
  dsimp only
  split
  · rename_i none
    rw [none] at found
    rw [if_pos (by simpa using found.symm)]
  · rename_i some
    rw [some] at found
    rw [if_neg (Option.isSome_iff_ne_none.mp found.symm)]

theorem trapUser (number : tf.trapno = tPgflt) (user : tf.cs &&& 3 = dplUser) (table : (s.proc i).pgdir = some d) :
    trapFault s i va.toNat = trap s (some i) tf va >>= fun ending => match ending with
      | .resumes s => .ok s
      | .exits s => exit s i := by
  unfold trapFault trap
  rw [if_pos number, handlerOf table]
  cases cowHandler s i va.toNat with
  | error e => rfl
  | ok s' =>
    simp only [okBind, user, and_true]
    split <;> rfl

/-! ### The branches of the handler -/

theorem Inv.current (inv : Inv L s) (runs : (s.proc i).state = .runnable) : Current s i := inv.pids.current runs

structure Valid (d : Pgdir) (a : Nat) : Prop where
  table : d.pde (pdx (a / pgSize)) ≠ none
  present : on (d.pte (a / pgSize)) pteP = true
  user : on (d.pte (a / pgSize)) pteU = true
  low : a ≤ userTop

instance : Decidable (Valid d a) := decidable_of_iff
  (d.pde (pdx (a / pgSize)) ≠ none ∧ on (d.pte (a / pgSize)) pteP = true ∧ on (d.pte (a / pgSize)) pteU = true ∧ a ≤ userTop)
  ⟨fun h => ⟨h.1, h.2.1, h.2.2.1, h.2.2.2⟩, fun h => ⟨h.table, h.present, h.user, h.low⟩⟩

theorem handlerRefused (current : Current s i) (table : (s.proc i).pgdir = some d) (found : d.pde (pdx (a / pgSize)) ≠ none)
    (refused : ¬ Valid d a) : cowHandler s i a = .ok (s.put i s.k {s.proc i with killed := true}) := by
  rw [handlerFinds table found, current.kill]
  refine if_pos ?_
  by_contra passes
  have parts := not_or.mp passes
  have rest := not_or.mp parts.2
  exact refused ⟨found, eq_true_of_ne_false parts.1, eq_true_of_ne_false rest.1, not_lt.mp rest.2⟩

theorem Valid.passes (h : Valid d a) : ¬ (on (d.pte (a / pgSize)) pteP = false ∨ on (d.pte (a / pgSize)) pteU = false ∨ userTop < a) := by
  rw [h.present, h.user]
  simpa using h.low

/-! ### The handler and its pointers -/

/-- No null pointer is used, without a process the handler panics, and an address
that fails its tests has the process killed and nothing else. -/
def Guarded (s : Sys) (cur : Option Slot) (va : Word) : Prop :=
  (handler s cur va).1 = [] ∧ match cur with
    | none => (handler s cur va).2 = .error (.panic "cowHandler: proc = 0")
    | some i => ∃ d, (s.proc i).pgdir = some d ∧
      (¬ Valid d va.toNat → (handler s cur va).2 = .ok (s.put i s.k {s.proc i with killed := true}))

theorem handlerGuarded (current : ∀ i, cur = some i → Current s i) : Guarded s cur va ↔
    ∃ i d, cur = some i ∧ (s.proc i).pgdir = some d ∧ d.pde (pdx (va.toNat / pgSize)) ≠ none := by
  constructor
  · rintro ⟨none, works⟩
    cases cur with
    | none => cases none
    | some i =>
      obtain ⟨d, table, _⟩ := works
      refine ⟨i, d, rfl, table, fun absent => ?_⟩
      rw [handlerOf table, if_pos absent] at none
      cases none
  · rintro ⟨i, d, rfl, table, found⟩
    refine ⟨by rw [handlerOf table, if_neg found], d, table, fun refused => ?_⟩
    rw [handlerOf table]
    exact handlerRefused (current i rfl) table found refused

/-! ### What becomes of the instruction -/

def Faults (s : Sys) (i : Slot) (va : Word) : Prop := ∀ d, (s.proc i).pgdir = some d → ¬ Valid d va.toNat

/-- The fault is resolved, or `trap` does not go back: it exits or, in the kernel, panics. -/
def Answered (s : Sys) (cur : Option Slot) (tf : Trapframe) (va : Word) : Prop :=
  (∃ i s', cur = some i ∧ (handler s cur va).2 = .ok s' ∧ ¬ Faults s' i va) ∨
  (tf.cs &&& 3 = dplUser ∧ ∃ s', trap s cur tf va = .ok (.exits s')) ∨
  (tf.cs &&& 3 = 0 ∧ ∃ message, trap s cur tf va = .error (.panic message))

def Answerable (s : Sys) (i : Slot) (d : Pgdir) (tf : Trapframe) (va : Word) : Prop :=
  let w := d.pte (va.toNat / pgSize)
  if Valid d va.toNat then
    if 1 < refCount s.k (pageOf w) then s.k.freelist ≠ [] ∨ on (d.pte 0) pteP = true
    else on w pteW = false ∨ tf.cs &&& 3 = dplUser ∧ (s.proc i).killed = true
  else tf.cs &&& 3 = dplUser ∧ (d.pde (pdx (va.toNat / pgSize)) ≠ none ∨ on (d.pte 0) pteP = true)

theorem trapReturns (number : tf.trapno = tPgflt) (ran : (handler s (some i) va).2 = .ok s') :
    trap s (some i) tf va = .ok (if (s'.proc i).killed ∧ tf.cs &&& 3 = dplUser then .exits s' else .resumes s') := by
  unfold trap
  rw [if_pos number, ran, okBind]
  dsimp only
  split <;> rfl

theorem answeredIff (number : tf.trapno = tPgflt) (ran : (handler s (some i) va).2 = .ok s') :
    Answered s (some i) tf va ↔ ¬ Faults s' i va ∨ tf.cs &&& 3 = dplUser ∧ (s'.proc i).killed = true := by
  unfold Answered
  rw [trapReturns number ran]
  constructor
  · rintro (⟨j, t, this, ok, resolved⟩ | ⟨user, t, ending⟩ | ⟨_, _, bad⟩)
    · cases this
      cases ran.symm.trans ok
      exact .inl resolved
    · split at ending
      · rename_i both
        exact .inr ⟨user, both.1⟩
      · cases ending
    · cases bad
  · rintro (resolved | ⟨user, killed⟩)
    · exact .inl ⟨i, s', rfl, ran, resolved⟩
    · exact .inr (.inl ⟨user, s', by rw [if_pos ⟨killed, user⟩]⟩)

theorem unanswered {e : Stop} (number : tf.trapno = tPgflt) (ran : (handler s cur va).2 = .error e)
    (returns : ∀ message, e ≠ .panic message) : ¬ Answered s cur tf va := by
  have stops : trap s cur tf va = .error e := by
    unfold trap
    rw [if_pos number, ran]
    rfl
  unfold Answered
  rw [stops, ran]
  rintro (⟨_, _, _, bad, _⟩ | ⟨_, _, bad⟩ | ⟨_, message, bad⟩)
  · cases bad
  · cases bad
  · cases bad
    exact returns message rfl

theorem Valid.word {w : Word} (h : Valid d a) (present : on w pteP = true) : Valid (lcr3 (d.set (a / pgSize) w)) a ↔ on w pteU = true := by
  have here : (lcr3 (d.set (a / pgSize) w)).pte (a / pgSize) = w := by rw [Pgdir.lcr3Pte, Pgdir.setSelf]
  constructor
  · intro valid
    have user := valid.user
    rwa [here] at user
  · intro user
    exact ⟨h.table, by rw [here]; exact present, by rw [here]; exact user, h.low⟩

theorem addedTwo {w : Word} (present : on w pteP = true) (user : on w pteU = true) :
    on (w + 2) pteP = true ∧ on (w + 2) pteU = !on w pteW := by
  rw [onP] at present
  rw [onU] at user
  rw [onP, onU, onW]
  have low : ∀ x : BitVec 3, x.getLsbD 0 = true → x.getLsbD 2 = true →
      (x + 2).getLsbD 0 = true ∧ (x + 2).getLsbD 2 = !x.getLsbD 1 := by decide
  have sum : (w + 2).setWidth 3 = w.setWidth 3 + 2 := BitVec.setWidth_add (i := 3) w 2 (by decide)
  have bits : ∀ (x : Word) (b : Nat), b < 3 → x.getLsbD b = (x.setWidth 3).getLsbD b := by
    intro x b small
    rw [BitVec.getLsbD_setWidth]
    simp [small]
  rw [bits _ 0 (by decide), bits _ 2 (by decide), bits w 1 (by decide), sum]
  rw [bits _ 0 (by decide)] at present
  rw [bits _ 2 (by decide)] at user
  exact low _ present user

theorem cowWordOn (f : Nat) (w : Word) : on (cowWord f w) pteP = true ∧ on (cowWord f w) pteU = true := by
  unfold cowWord
  rw [onP, onU, BitVec.getLsbD_or, BitVec.getLsbD_or, BitVec.getLsbD_or]
  simp [pteP, pteU]

theorem putTable {p : Proc} {e : Pgdir} (table : p.pgdir = some e) : Faults (s.put i k p) i va ↔ ¬ Valid e va.toNat := by
  unfold Faults
  rw [Sys.putSelf, table]
  exact ⟨fun h => h e rfl, fun h d same => Option.some.inj same ▸ h⟩

theorem handlerShort (current : Current s i) (table : (s.proc i).pgdir = some d) (valid : Valid d a)
    (many : 1 < refCount s.k (pageOf (d.pte (a / pgSize)))) (empty : s.k.freelist = []) :
    on (d.pte 0) pteP = true ∧ (∃ k, cowHandler s i a = .ok (s.put i k {s.proc i with
      killed := true
      pgdir := some (lcr3 (d.set (a / pgSize) (cowWord 0 (d.pte (a / pgSize)))))})) ∨
    on (d.pte 0) pteP = false ∧ cowHandler s i a = .error .hang := by
  rw [handlerStarves current table valid.table valid.passes many empty]
  cases zero : on (d.pte 0) pteP with
  | true => exact .inl ⟨rfl, _, rfl⟩
  | false => exact .inr ⟨rfl, rfl⟩

theorem answeredShared (current : Current s i) (number : tf.trapno = tPgflt) (table : (s.proc i).pgdir = some d) (valid : Valid d va.toNat)
    (many : 1 < refCount s.k (pageOf (d.pte (va.toNat / pgSize)))) :
    Answered s (some i) tf va ↔ s.k.freelist ≠ [] ∨ on (d.pte 0) pteP = true := by
  have handles : (handler s (some i) va).2 = cowHandler s i va.toNat := by rw [handlerOf table]
  cases free : s.k.freelist with
  | nil =>
    rcases handlerShort current table valid many free with ⟨zero, k, ran⟩ | ⟨zero, ran⟩
    · rw [answeredIff number (handles.trans ran), putTable rfl, valid.word (cowWordOn 0 _).1, zero]
      exact iff_of_true (.inl (not_not.mpr (cowWordOn 0 _).2)) (.inr rfl)
    · rw [zero]
      exact iff_of_false (unanswered number (handles.trans ran) fun _ bad => by cases bad) (by simp)
  | cons g rest =>
    have ran := handlerFinds table valid.table
    rw [if_neg valid.passes, if_neg (by omega), kallocFree free] at ran
    rw [answeredIff number (handles.trans ran), putTable rfl, valid.word (cowWordOn g _).1]
    exact iff_of_true (.inl (not_not.mpr (cowWordOn g _).2)) (.inl (List.cons_ne_nil g rest))

theorem answeredAlone (number : tf.trapno = tPgflt) (table : (s.proc i).pgdir = some d) (valid : Valid d va.toNat)
    (one : ¬ 1 < refCount s.k (pageOf (d.pte (va.toNat / pgSize)))) :
    Answered s (some i) tf va ↔
      on (d.pte (va.toNat / pgSize)) pteW = false ∨ tf.cs &&& 3 = dplUser ∧ (s.proc i).killed = true := by
  have handles : (handler s (some i) va).2 = cowHandler s i va.toNat := by rw [handlerOf table]
  have ran := handlerFinds table valid.table
  rw [if_neg valid.passes, if_pos (by omega)] at ran
  obtain ⟨present, user⟩ := addedTwo valid.present valid.user
  rw [answeredIff number (handles.trans ran), putTable rfl, valid.word present, user, Sys.putSelf]
  simp

theorem answeredRefused (current : Current s i) (number : tf.trapno = tPgflt) (table : (s.proc i).pgdir = some d)
    (refused : ¬ Valid d va.toNat) :
    Answered s (some i) tf va ↔
      tf.cs &&& 3 = dplUser ∧ (d.pde (pdx (va.toNat / pgSize)) ≠ none ∨ on (d.pte 0) pteP = true) := by
  have handles : (handler s (some i) va).2 = cowHandler s i va.toNat := by rw [handlerOf table]
  by_cases absent : d.pde (pdx (va.toNat / pgSize)) = none
  · have ran := handlerAbsent table absent
    rw [current.kill] at ran
    cases zero : on (d.pte 0) pteP with
    | true =>
      rw [zero, if_pos rfl] at ran
      rw [answeredIff number (handles.trans ran), putTable (p := {s.proc i with killed := true}) table, Sys.putSelf]
      simp [refused]
    | false =>
      rw [zero, if_neg (by decide)] at ran
      exact iff_of_false (unanswered number (handles.trans ran) fun _ bad => by cases bad) (by simp [absent])
  · have ran := handlerRefused current table absent refused
    rw [answeredIff number (handles.trans ran), putTable (p := {s.proc i with killed := true}) table, Sys.putSelf]
    simp [refused, absent]

/-- An unresolved fault is answered exactly when the numbers are right. -/
theorem faultAnswered (current : ∀ i, cur = some i → Current s i) (number : tf.trapno = tPgflt) :
    Answered s cur tf va ↔ ∃ i d, cur = some i ∧ (s.proc i).pgdir = some d ∧ Answerable s i d tf va := by
  cases cur with
  | none =>
    refine iff_of_false (unanswered number (e := .wild) rfl fun _ bad => by cases bad) ?_
    rintro ⟨_, _, bad, _⟩
    cases bad
  | some i =>
    have current := current i rfl
    cases table : (s.proc i).pgdir with
    | none =>
      refine iff_of_false (unanswered number (e := .wild) ?_ fun _ bad => by cases bad) ?_
      · unfold handler
        dsimp only
        rw [table]
      · rintro ⟨_, _, this, bad, _⟩
        cases this
        cases table.symm.trans bad
    | some d =>
      have one : (∃ j e, some i = some j ∧ (s.proc j).pgdir = some e ∧ Answerable s j e tf va) ↔ Answerable s i d tf va := by
        constructor
        · rintro ⟨j, e, this, there, answer⟩
          cases this
          cases table.symm.trans there
          exact answer
        · exact fun answer => ⟨i, d, rfl, table, answer⟩
      rw [one]
      unfold Answerable
      dsimp only
      by_cases valid : Valid d va.toNat
      · rw [if_pos valid]
        by_cases many : 1 < refCount s.k (pageOf (d.pte (va.toNat / pgSize)))
        · rw [if_pos many]
          exact answeredShared current number table valid many
        · rw [if_neg many]
          exact answeredAlone number table valid many
      · rw [if_neg valid]
        exact answeredRefused current number table valid

/-! ### After the boot -/

theorem bootTables : ∃ s i d, (machine cowuvm Layout.sample).Reachable s ∧ Current s i ∧ (s.proc i).pgdir = some d ∧
    d.pde 0 ≠ none ∧ d.pde 512 = none ∧ on (d.pte 0) pteP = true := by
  obtain ⟨s, booted⟩ := sampleBoots
  obtain ⟨f, d, first, image⟩ := booted.first
  have reach : (machine cowuvm Layout.sample).Reachable s := booted.reach
  have inv := reachInv cowCopies reach
  refine ⟨s, s.initproc, d, reach, inv.current booted.ready.runs, by rw [first], image.good.table, ?_, ?_⟩
  · exact not_not.mp (mt (image.good.tables 512).mp (by decide))
  · rw [image.filled 0 (by decide)]
    decide

/-- The first process uses an address behind its only page. -/
theorem handlerGuardedBoot : ∃ s i d, (machine cowuvm Layout.sample).Reachable s ∧ (s.proc i).pgdir = some d ∧
    ¬ Valid d (0x5000 : Word).toNat ∧ Guarded s (some i) 0x5000 := by
  obtain ⟨s, booted⟩ := sampleBoots
  obtain ⟨f, d, first, image⟩ := booted.first
  have reach : (machine cowuvm Layout.sample).Reachable s := booted.reach
  have table : (s.proc s.initproc).pgdir = some d := by rw [first]
  refine ⟨s, s.initproc, d, reach, table, fun valid => ?_, (handlerGuarded fun j this =>
    Option.some.inj this ▸ (reachInv cowCopies reach).current booted.ready.runs).mpr ⟨s.initproc, d, rfl, table, image.good.table⟩⟩
  have present := valid.present
  rw [show (0x5000 : Word).toNat / pgSize = 5 from rfl, image.filled 5 (by decide)] at present
  exact absurd present (by decide)

/-- The first process uses an address of the upper half. -/
theorem pointerUnchecked : ∃ s i, (machine cowuvm Layout.sample).Reachable s ∧ Current s i ∧
    (handler s (some i) 0x80000000).1 = [.pte] ∧ ¬ Guarded s (some i) 0x80000000 := by
  obtain ⟨s, i, d, reach, current, table, _, absent, _⟩ := bootTables
  have used : (handler s (some i) 0x80000000).1 = [.pte] := by
    rw [handlerOf table]
    exact if_pos absent
  refine ⟨s, i, reach, current, used, fun guarded => ?_⟩
  cases used.symm.trans guarded.1

theorem faultAnsweredBoot : ∃ s i, (machine cowuvm Layout.sample).Reachable s ∧ Answered s (some i) ⟨14, 0x23⟩ 0x80000000 := by
  obtain ⟨s, i, d, reach, current, table, _, absent, zero⟩ := bootTables
  refine ⟨s, i, reach, (faultAnswered (fun j this => Option.some.inj this ▸ current) rfl).mpr ⟨i, d, rfl, table, ?_⟩⟩
  have refused : ¬ Valid d (0x80000000 : Word).toNat := fun valid => valid.table absent
  unfold Answerable
  dsimp only
  rw [if_neg refused]
  exact ⟨by decide, .inr zero⟩

/-- After `sbrk(-4096)` the first process still has size 4096, and the kernel reads or
writes at address 0 on its behalf: killed or not, it goes on there for ever. -/
theorem kernelFaultResumes : ∃ s i t, (machine cowuvm Layout.sample).Reachable s ∧ Current s i ∧ (s.proc i).sz = 4096 ∧
    trap s (some i) ⟨14, 8⟩ 0 = .ok (.resumes t) ∧ Faults t i 0 ∧ ¬ Answered s (some i) ⟨14, 8⟩ 0 := by
  obtain ⟨s, d, s', d', h⟩ := sampleGivesBack
  have current : Current s' s.initproc := (reachInv cowCopies h.reach).current (by rw [h.here]; exact h.booted.ready.runs)
  have table' := h.run'.pgdir
  have refused : ¬ Valid d' (0 : Word).toNat := fun valid => by cases (h.empty 0 (by decide)).symm.trans valid.present
  have ran : (handler s' (some s.initproc) 0).2 = .ok (s'.put s.initproc s'.k {s'.proc s.initproc with killed := true}) := by
    rw [handlerOf table']
    exact handlerRefused current table' h.run'.good.table refused
  have faults : Faults (s'.put s.initproc s'.k {s'.proc s.initproc with killed := true}) s.initproc 0 :=
    (putTable (p := {s'.proc s.initproc with killed := true}) table').mpr refused
  refine ⟨s', s.initproc, _, h.reach, current, by rw [h.here]; exact h.size, ?_, faults, fun answered => ?_⟩
  · rw [trapReturns rfl ran, if_neg fun both => absurd both.2 (by decide)]
  · rcases (answeredIff rfl ran).mp answered with resolved | ⟨user, _⟩
    · exact resolved faults
    · exact absurd user (by decide)

end OpSys.Cow
