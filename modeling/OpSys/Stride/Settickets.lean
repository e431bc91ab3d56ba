import OpSys.Stride.Sched

/-! `sys_settickets` with the fetch of its argument (`syscall.c`), down to the bytes of
the user stack. It drops what `argint` returns. -/
namespace OpSys.Stride
open OpSys.Xv6

abbrev Uint := BitVec 32

def userTop : Uint := 0xA0000

/-! ### The size of a process -/

/-- The new size, where there is memory enough. -/
def allocuvm (oldsz newsz : Uint) : Uint := if userTop < newsz then 0 else if newsz < oldsz then oldsz else newsz

def deallocuvm (oldsz newsz : Uint) : Uint := if oldsz ≤ newsz then oldsz else newsz

def growproc (sz n : Uint) : Option Uint :=
  let sz' := if 0 < n.toInt then allocuvm sz (sz + n) else if n.toInt < 0 then deallocuvm sz (sz + n) else sz
  if n.toInt ≠ 0 ∧ sz' = 0 then none else some sz'

theorem allocuvmTop {oldsz newsz : Uint} (top : oldsz ≤ userTop) : allocuvm oldsz newsz ≤ userTop := by
  unfold allocuvm
  split
  · decide
  · rename_i room
    split
    · exact top
    · exact BitVec.not_lt.mp room

theorem deallocuvmLe (oldsz newsz : Uint) : deallocuvm oldsz newsz ≤ oldsz := by
  unfold deallocuvm
  split
  · exact BitVec.le_refl _
  · rename_i less
    exact BitVec.le_of_lt (BitVec.not_le.mp less)

theorem growprocTop {sz n sz' : Uint} (top : sz ≤ userTop) (ok : growproc sz n = some sz') : sz' ≤ userTop := by
  have kept : (if 0 < n.toInt then allocuvm sz (sz + n) else if n.toInt < 0 then deallocuvm sz (sz + n) else sz) ≤ userTop := by
    split
    · exact allocuvmTop top
    · split
      · exact BitVec.le_trans (deallocuvmLe sz (sz + n)) top
      · exact top
  unfold growproc at ok
  dsimp only at ok
  rw [Option.ite_none_left_eq_some] at ok
  exact Option.some.inj ok.2 ▸ kept

/-- The memory that a process sees. -/
structure UserMem where
  sz : Uint
  byte : Uint → BitVec 8
  top : sz ≤ userTop

def UserMem.word (p : UserMem) (addr : Uint) : Uint :=
  p.byte (addr + 3) ++ p.byte (addr + 2) ++ p.byte (addr + 1) ++ p.byte addr

/-! ### Arguments -/

/-- The word at `ip` afterwards, and what the function returns. -/
def fetchint (p : UserMem) (addr ip : Uint) : Uint × Int :=
  if p.sz ≤ addr ∨ p.sz < addr + 4 then (ip, -1) else (p.word addr, 0)

def argint (p : UserMem) (esp n ip : Uint) : Uint × Int := fetchint p (esp + 4 + 4 * n) ip

variable {C : Type} {s : Sys C} {i : Slot} {p : UserMem} {addr esp initTick : Uint}

/-- `initTick` is on the stack of the kernel and has what was there before. -/
def sysSettickets (s : Sys C) (i : Slot) (p : UserMem) (esp initTick : Uint) : Sys C × Int :=
  let (initTick, _) := argint p esp 0 initTick
  let initTick := initTick.toInt
  if initTick ≤ 0 then (s, -1)
  else
    let stride := maxStride.tdiv initTick
    (s.put i {s.proc i with tickets := initTick, initStride := stride, passvalue := stride}, 0)

def Inside (p : UserMem) (addr : Uint) : Prop := addr.toNat + 4 ≤ p.sz.toNat

theorem fetchintCases (p : UserMem) (addr ip : Uint) :
    Inside p addr ∧ fetchint p addr ip = (p.word addr, 0) ∨ ¬ Inside p addr ∧ fetchint p addr ip = (ip, -1) := by
  have top : p.sz.toNat ≤ 0xA0000 := p.top
  have short : p.sz ≤ addr ∨ p.sz < addr + 4 ↔ ¬ Inside p addr := by
    unfold Inside
    have := addr.isLt
    rw [BitVec.le_def, BitVec.lt_def, BitVec.toNat_add, show (4 : Uint).toNat = 4 from rfl]
    omega
  unfold fetchint
  by_cases inside : Inside p addr
  · exact .inl ⟨inside, if_neg fun bad => short.mp bad inside⟩
  · exact .inr ⟨inside, if_pos (short.mpr inside)⟩

theorem sysSetticketsTable : (sysSettickets s i p esp initTick).1 = settickets s i (argint p esp 0 initTick).1.toInt := by
  unfold sysSettickets settickets
  dsimp only
  split <;> rfl

theorem sysSetticketsReturns :
    (sysSettickets s i p esp initTick).2 = if (argint p esp 0 initTick).1.toInt ≤ 0 then -1 else 0 := by
  unfold sysSettickets
  dsimp only
  split <;> rfl

theorem setticketsKeeps {n : Int} (negative : n ≤ 0) : settickets s i n = s := if_pos negative

theorem setticketsSets {n : Int} (positive : 0 < n) : ((settickets s i n).proc i).tickets = n := by
  unfold settickets Sys.put
  rw [if_neg (not_le.mpr positive)]
  dsimp only
  rw [Function.update_self]

/-! ### All or nothing -/

def AllOrNothing (s : Sys C) (i : Slot) (p : UserMem) (esp : Uint) (r : Sys C × Int) : Prop :=
  let n := (p.word (esp + 4)).toInt
  (Inside p (esp + 4) ∧ 0 < n → r.2 = 0 ∧ (r.1.proc i).tickets = n) ∧
  (¬ (Inside p (esp + 4) ∧ 0 < n) → r.2 = -1 ∧ ∀ j, (r.1.proc j).tickets = (s.proc j).tickets ∧
    (r.1.proc j).initStride = (s.proc j).initStride ∧ (r.1.proc j).passvalue = (s.proc j).passvalue)

theorem setticketsAllOrNothing : AllOrNothing s i p esp (sysSettickets s i p esp initTick) ↔
    Inside p (esp + 4) ∨ initTick.toInt ≤ 0 := by
  unfold AllOrNothing
  rw [sysSetticketsTable, sysSetticketsReturns, show argint p esp 0 initTick = fetchint p (esp + 4) initTick from
    congrArg (fetchint p · initTick) (BitVec.add_zero _)]
  rcases fetchintCases p (esp + 4) initTick with ⟨inside, got⟩ | ⟨outside, got⟩ <;> rw [got] <;> dsimp only
  · refine iff_of_true ⟨fun ⟨_, positive⟩ => ?_, fun bad => ?_⟩ (.inl inside)
    · exact ⟨if_neg (not_le.mpr positive), setticketsSets positive⟩
    · have negative := not_lt.mp fun positive => bad ⟨inside, positive⟩
      rw [setticketsKeeps negative]
      exact ⟨if_pos negative, fun _ => ⟨rfl, rfl, rfl⟩⟩
  · constructor
    · rintro ⟨_, nothing⟩
      by_contra bad
      have positive : ¬ initTick.toInt ≤ 0 := fun this => bad (.inr this)
      have returned := (nothing fun here => outside here.1).1
      rw [if_neg positive] at returned
      cases returned
    · intro h
      have negative := h.resolve_left outside
      refine ⟨fun here => absurd here.1 outside, fun _ => ?_⟩
      rw [setticketsKeeps negative]
      exact ⟨if_pos negative, fun _ => ⟨rfl, rfl, rfl⟩⟩

/-- The stack pointer stands at the last word of the memory, so the argument would
begin where the memory ends, and an earlier call has left a 7 on the kernel's stack. -/
theorem setticketsTakesGarbage : ∃ p : UserMem, ∃ esp initTick : Uint, p.sz ≤ esp + 4 ∧
    (sysSettickets (boot : Sys Unit) 0 p esp initTick).2 = 0 ∧
    ((sysSettickets (boot : Sys Unit) 0 p esp initTick).1.proc 0).tickets = 7 ∧
    ¬ AllOrNothing (boot : Sys Unit) 0 p esp (sysSettickets boot 0 p esp initTick) := by
  have returns : (sysSettickets (boot : Sys Unit) 0 ⟨8192, fun _ => 0, by decide⟩ 8188 7).2 = 0 := by decide
  refine ⟨⟨8192, fun _ => 0, by decide⟩, 8188, 7, by decide, returns, by decide, fun ⟨_, nothing⟩ => ?_⟩
  have returned := (nothing fun here => absurd here.1 (by unfold Inside; decide)).1
  rw [returns] at returned
  cases returned

end OpSys.Stride
