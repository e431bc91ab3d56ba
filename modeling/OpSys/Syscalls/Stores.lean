import OpSys.Stride.Settickets
import OpSys.Syscalls.Living

/-! `sys_getprocstate` with the fetch of its arguments: which bytes of memory it stores
to. `fetchint` and `argint` are the same in all of these kernels. -/
namespace OpSys.Syscalls
open OpSys.Xv6 OpSys.Stride

def physTop : Nat := 0x1000000

/-- `*pp` is `addr`. -/
def fetchstr (p : UserMem) (addr : Uint) : Int :=
  if p.sz ≤ addr then -1
  else match (List.range (p.sz.toNat - addr.toNat)).find? fun i => p.byte (addr + BitVec.ofNat 32 i) = 0 with
    | some i => i
    | none => -1

def argstr (p : UserMem) (esp n : Uint) : Uint × Int :=
  let (addr, r) := argint p esp n 0
  if r < 0 then (addr, -1) else (addr, fetchstr p addr)

/-- The page is present in the page table of a process of this size: user memory, and
what `kmap` has. The kernel may write to any of them. -/
def present (sz addr : Uint) : Bool :=
  addr.toNat < (sz.toNat + 4095) / 4096 * 4096 || userTop.toNat ≤ addr.toNat && addr.toNat < physTop || 0xFE000000 ≤ addr.toNat

structure Call where
  stores : List (Uint × UInt8)
  result : Except Stop Int

/-- Each byte in its turn. The store to a page that is not present is a trap that comes
from the kernel. -/
def put (sz addr : Uint) (r : Int) : Bytes → Call
  | [] => ⟨[], .ok r⟩
  | b :: rest =>
    if present sz addr then
      let call := put sz (addr + 1) r rest
      {call with stores := (addr, b) :: call.stores}
    else ⟨[], .error (.panic "trap")⟩

def sysGetprocstate (proc : Slot → Proc) (p : UserMem) (esp : Uint) : Call :=
  let (pid, r) := argint p esp 0 0
  if r < 0 then ⟨[], .ok (-1)⟩
  else
    let (n, r) := argint p esp 2 0
    if r < 0 then ⟨[], .ok (-1)⟩
    else
      let (state, r) := argstr p esp 1
      if r < 0 then ⟨[], .ok (-1)⟩
      else
        let (bytes, r) := getprocstate proc pid.toInt n.toInt
        put p.sz state r bytes

variable {proc : Slot → Proc} {p : UserMem} {esp sz addr : Uint} {r : Int}

def Confined (p : UserMem) (call : Call) : Prop :=
  (∀ x ∈ call.stores, x.1.toNat < p.sz.toNat) ∧ (call.result = .ok (-1) → call.stores = [])

/-- The call comes to `strncpy`: the arguments can be fetched, `state` is the address of
a string, and some slot has the pid. -/
structure Copies (proc : Slot → Proc) (p : UserMem) (esp : Uint) : Prop where
  pid : Inside p (esp + 4)
  state : Inside p (esp + 8)
  n : Inside p (esp + 12)
  string : ∃ a : Uint, (p.word (esp + 8)).toNat ≤ a.toNat ∧ a.toNat < p.sz.toNat ∧ p.byte a = 0
  enough : 7 ≤ (p.word (esp + 12)).toInt
  found : ∃ j, (proc j).pid = (p.word (esp + 4)).toInt

/-! ### The stores -/

theorem presentBelow (below : addr.toNat < sz.toNat) : present sz addr = true := by
  unfold present
  rw [decide_eq_true (show addr.toNat < (sz.toNat + 4095) / 4096 * 4096 by omega)]
  rfl

theorem presentEnd (top : sz ≤ userTop) : present sz sz = false ↔ sz.toNat % 4096 = 0 ∧ sz.toNat < 0xA0000 := by
  have top : sz.toNat ≤ 0xA0000 := top
  unfold present physTop
  rw [show userTop.toNat = 0xA0000 from rfl]
  simp only [Bool.or_eq_false_iff, Bool.and_eq_false_iff, decide_eq_false_iff_not]
  omega

theorem putConfined (top : sz ≤ userTop) (low : addr.toNat ≤ sz.toNat) (bytes : Bytes) :
    (∀ x ∈ (put sz addr r bytes).stores, x.1.toNat < sz.toNat) ↔ addr.toNat + bytes.length ≤ sz.toNat ∨ present sz sz = false := by
  have top' : sz.toNat ≤ 0xA0000 := top
  induction bytes generalizing addr with
  | nil => exact iff_of_true (fun x mem => by cases mem) (.inl low)
  | cons b rest ih =>
    unfold put
    rw [List.length_cons]
    rcases Nat.lt_or_eq_of_le low with below | same
    · have next : (addr + 1).toNat = addr.toNat + 1 := by
        rw [BitVec.toNat_add, show (1 : Uint).toNat = 1 from rfl]
        omega
      rw [if_pos (presentBelow below)]
      have step := @ih (addr + 1) (by omega)
      rw [next, Nat.add_right_comm, Nat.add_assoc] at step
      dsimp only
      rw [List.forall_mem_cons, and_iff_right below]
      exact step
    · rw [BitVec.eq_of_toNat_eq same]
      split
      · rename_i here
        refine iff_of_false (fun all => Nat.lt_irrefl _ (all _ List.mem_cons_self)) ?_
        rw [here]
        rintro (room | absent)
        · omega
        · cases absent
      · rename_i absent
        exact iff_of_true (fun x mem => by cases mem) (.inr (by simpa using absent))

theorem putReturns {bytes : Bytes} {a : Int} (ok : (put sz addr r bytes).result = .ok a) : a = r := by
  induction bytes generalizing addr with
  | nil => exact (Except.ok.inj ok).symm
  | cons b rest ih =>
    unfold put at ok
    split at ok
    · exact ih ok
    · cases ok

theorem strncpyLength (t : Bytes) (n : Nat) : (strncpy t n).length = n := by
  induction n generalizing t with
  | zero => cases t <;> rfl
  | succ n ih =>
    unfold strncpy
    cases t with
    | nil => rw [List.length_cons, List.length_replicate]
    | cons c t => rw [List.length_cons, ih]

/-! ### The arguments -/

theorem fetchstrString (p : UserMem) (addr : Uint) :
    0 ≤ fetchstr p addr ↔ ∃ a : Uint, addr.toNat ≤ a.toNat ∧ a.toNat < p.sz.toNat ∧ p.byte a = 0 := by
  unfold fetchstr
  split
  · rename_i past
    rw [BitVec.le_def] at past
    exact iff_of_false (by decide) fun ⟨a, low, high, _⟩ => by omega
  · have lies : ∀ i, i < p.sz.toNat - addr.toNat → (addr + BitVec.ofNat 32 i).toNat = addr.toNat + i := fun i less => by
      have := p.sz.isLt
      rw [BitVec.toNat_add, BitVec.toNat_ofNat]
      omega
    split
    · rename_i i found
      have less := List.mem_range.mp (List.mem_of_find?_eq_some found)
      have nul : p.byte (addr + BitVec.ofNat 32 i) = 0 := by simpa using List.find?_some found
      refine iff_of_true (by omega) ⟨_, ?_, ?_, nul⟩ <;> rw [lies i less] <;> omega
    · rename_i none
      refine iff_of_false (by decide) fun ⟨a, low, high, nul⟩ => ?_
      have less : a.toNat - addr.toNat < p.sz.toNat - addr.toNat := by omega
      have same : addr + BitVec.ofNat 32 (a.toNat - addr.toNat) = a := by
        apply BitVec.eq_of_toNat_eq
        rw [lies _ less]
        omega
      have other := List.find?_eq_none.mp none _ (List.mem_range.mpr less)
      rw [same, nul] at other
      exact other (decide_eq_true rfl)

theorem getprocstateCases (proc : Slot → Proc) (pid n : Int) :
    (7 ≤ n ∧ ∃ j, (proc j).pid = pid) ∧ (getprocstate proc pid n).2 = 0 ∧ (getprocstate proc pid n).1.length = n.toNat ∨
    ¬ (7 ≤ n ∧ ∃ j, (proc j).pid = pid) ∧ getprocstate proc pid n = ([], -1) := by
  by_cases enough : 7 ≤ n
  · rcases findPid proc pid with ⟨i, first, here⟩ | ⟨none, nowhere⟩
    · rw [getprocstateFirst enough first]
      exact .inl ⟨⟨enough, i, here⟩, rfl, strncpyLength _ _⟩
    · exact .inr ⟨fun ⟨_, j, carries⟩ => nowhere j carries, getprocstateNone none⟩
  · exact .inr ⟨fun h => enough h.1, if_pos (not_le.mp enough)⟩

theorem argint0 (p : UserMem) (esp ip : Uint) : argint p esp 0 ip = fetchint p (esp + 4) ip :=
  congrArg (fetchint p · ip) (BitVec.add_zero _)

theorem argint1 (p : UserMem) (esp ip : Uint) : argint p esp 1 ip = fetchint p (esp + 8) ip :=
  congrArg (fetchint p · ip) (BitVec.add_assoc esp 4 4)

theorem argint2 (p : UserMem) (esp ip : Uint) : argint p esp 2 ip = fetchint p (esp + 12) ip :=
  congrArg (fetchint p · ip) (BitVec.add_assoc esp 4 8)

theorem sysGetprocstateCases (proc : Slot → Proc) (p : UserMem) (esp : Uint) :
    (Copies proc p esp ∧ ∃ bytes : Bytes, bytes.length = (p.word (esp + 12)).toInt.toNat ∧
      sysGetprocstate proc p esp = put p.sz (p.word (esp + 8)) 0 bytes) ∨
    ¬ Copies proc p esp ∧ sysGetprocstate proc p esp = ⟨[], .ok (-1)⟩ := by
  unfold sysGetprocstate argstr
  rw [argint0, argint1, argint2]
  rcases fetchintCases p (esp + 4) 0 with ⟨pid, got⟩ | ⟨outside, got⟩
  · rcases fetchintCases p (esp + 12) 0 with ⟨n, got'⟩ | ⟨outside, got'⟩
    · rcases fetchintCases p (esp + 8) 0 with ⟨state, got''⟩ | ⟨outside, got''⟩
      · rw [got, got', got'']
        dsimp only
        simp only [Int.lt_irrefl, ↓reduceIte]
        by_cases string : 0 ≤ fetchstr p (p.word (esp + 8))
        · rw [if_neg (not_lt.mpr string)]
          rcases getprocstateCases proc (p.word (esp + 4)).toInt (p.word (esp + 12)).toInt with ⟨⟨enough, found⟩, zero, length⟩ | ⟨not, none⟩
          · exact .inl ⟨⟨pid, state, n, (fetchstrString p _).mp string, enough, found⟩, _, length, by rw [zero]⟩
          · rw [none]
            exact .inr ⟨fun copies => not ⟨copies.enough, copies.found⟩, rfl⟩
        · rw [if_pos (not_le.mp string)]
          exact .inr ⟨fun copies => string ((fetchstrString p _).mpr copies.string), rfl⟩
      · rw [got, got', got'']
        exact .inr ⟨fun copies => outside copies.state, rfl⟩
    · rw [got, got']
      exact .inr ⟨fun copies => outside copies.n, rfl⟩
  · rw [got]
    exact .inr ⟨fun copies => outside copies.pid, rfl⟩

/-- The scan for the NUL says nothing about the bytes after it, and `n` may be greater. -/
theorem sysGetprocstateConfined (proc : Slot → Proc) (p : UserMem) (esp : Uint) : Confined p (sysGetprocstate proc p esp) ↔
    (Copies proc p esp →
      (p.word (esp + 8)).toNat + (p.word (esp + 12)).toInt.toNat ≤ p.sz.toNat ∨ p.sz.toNat % 4096 = 0 ∧ p.sz.toNat < 0xA0000) := by
  rcases sysGetprocstateCases proc p esp with ⟨copies, bytes, length, call⟩ | ⟨not, call⟩
  · obtain ⟨a, low, high, _⟩ := copies.string
    have confined := putConfined (r := 0) p.top (Nat.le_of_lt (Nat.lt_of_le_of_lt low high)) bytes
    rw [length, presentEnd p.top] at confined
    rw [call, forall_prop_of_true copies, ← confined]
    refine ⟨And.left, fun inside => ⟨inside, fun failed => ?_⟩⟩
    cases putReturns failed
  · rw [call]
    exact iff_of_true ⟨fun x mem => (by cases mem), fun _ => rfl⟩ fun copies => absurd copies not

/-- The empty string in the last byte of the memory. -/
theorem getprocstateWritesPast : ∃ p : UserMem, (sysGetprocstate boot.proc p 0).stores.getLast? = some (8006, 0) ∧
    p.sz = 8000 ∧ ¬ Confined p (sysGetprocstate boot.proc p 0) := by
  let p : UserMem := ⟨8000, fun a => if a = 4 then 1 else if a = 8 then 0x3F else if a = 9 then 0x1F else if a = 12 then 8 else 0, by decide⟩
  have last : (sysGetprocstate boot.proc p 0).stores.getLast? = some (8006, 0) := by decide +kernel
  refine ⟨p, last, rfl, fun confined => ?_⟩
  have less := confined.1 _ (List.mem_of_getLast? last)
  exact absurd less (by decide)

end OpSys.Syscalls
