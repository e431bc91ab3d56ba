import OpSys.Kernel.Bio
import Mathlib.Data.List.Nodup

/-! What holds of the cache of disk blocks in every run. -/
namespace OpSys.Bio
open Function OpSys.Transition OpSys.Register

def Clean {β : Type*} (b : Buf β) : Prop := b.valid = true ∧ b.dirty = false

instance {β : Type*} (b : Buf β) : Decidable (Clean b) := by unfold Clean; infer_instance

variable {P β : Type*} [DecidableEq P] {s s' : State P β} {i j : P} {b c : BufId} {a : Act P β} {o : Output P β} {p : Phase} {w : Bool} {dev sector : Nat}

/-! ### What a step can do -/

def served (s : State P β) (fine : Bool) (b : BufId) (rest : List BufId) : State P β :=
  let buf := update s.buf b ((s.buf b).finish (insl s fine b))
  {s with queue := rest, buf := buf, phase := fun i => (s.phase i).wake b, started := rest.head?.map fun b => idestart (buf b)}

inductive Steps (s : State P β) : Act P β → State P β → Output P β → Prop where
  | asks {i : P} {dev sector : Nat} (idle : s.phase i = .idle) : Steps s (.bread i dev sector) (s.turn i (.getting dev sector)) none
  | waits {i : P} {b : BufId} {dev sector : Nat} (getting : s.phase i = .getting dev sector) (same : (s.buf b).dev = dev ∧ (s.buf b).sector = sector)
      (busy : (s.buf b).busy = true) : Steps s (.go i) (s.turn i (.asleep b dev sector)) none
  | hits {i : P} {b : BufId} {dev sector : Nat} (getting : s.phase i = .getting dev sector) (same : (s.buf b).dev = dev ∧ (s.buf b).sector = sector)
      (free : (s.buf b).busy = false) (valid : (s.buf b).valid = true) :
      Steps s (.go i) ((s.take i b {s.buf b with busy := true}).turn i .idle) (some (i, .got (s.buf b).address (s.buf b).data))
  | blank {i : P} {b : BufId} {dev sector : Nat} (getting : s.phase i = .getting dev sector) (same : (s.buf b).dev = dev ∧ (s.buf b).sector = sector)
      (free : (s.buf b).busy = false) (blank : (s.buf b).valid = false) :
      Steps s (.go i) ((s.take i b {s.buf b with busy := true}).turn i (.starting b false)) none
  | recycles {i : P} {b : BufId} {dev sector : Nat} (getting : s.phase i = .getting dev sector)
      (absent : ∀ c ∈ s.lru, ¬ ((s.buf c).dev = dev ∧ (s.buf c).sector = sector)) (free : (s.buf b).busy = false) :
      Steps s (.go i) ((s.take i b {s.buf b with dev := dev, sector := sector, busy := true, valid := false, dirty := false}).turn i (.starting b false)) none
  | stores {i : P} {b : BufId} {x : β} (idle : s.phase i = .idle) (mine : b ∈ s.held i) :
      Steps s (.store i b x) {s with buf := update s.buf b {s.buf b with data := x}} none
  | writes {i : P} {b : BufId} (idle : s.phase i = .idle) (mine : b ∈ s.held i) :
      Steps s (.bwrite i b) {s.turn i (.starting b true) with buf := update s.buf b {s.buf b with dirty := true}} none
  | releases {i : P} {b : BufId} (idle : s.phase i = .idle) (mine : b ∈ s.held i) :
      Steps s (.brelse i b) (wakeup {s with
        lru := b :: s.lru.erase b, buf := update s.buf b {s.buf b with busy := false}, held := update s.held i ((s.held i).erase b)} b) none
  | starts {i : P} {b : BufId} {w : Bool} (starting : s.phase i = .starting b w) (pending : ¬ Clean (s.buf b)) :
      Steps s (.go i) {s.turn i (.waiting b w) with
        queue := s.queue ++ [b], started := if (s.queue ++ [b]).head? = some b then some (idestart (s.buf b)) else s.started} none
  | returns {i : P} {b : BufId} {w : Bool} (checking : s.phase i = .checking b w) (clean : Clean (s.buf b)) :
      Steps s (.go i) (s.turn i .idle) (some (i, returns (s.buf b) w))
  | again {i : P} {b : BufId} {w : Bool} (checking : s.phase i = .checking b w) (pending : ¬ Clean (s.buf b)) :
      Steps s (.go i) (s.turn i (.waiting b w)) none
  | spurious {fine : Bool} (empty : s.queue = []) : Steps s (.intr fine) (done s) none
  | serves {fine : Bool} {b : BufId} {rest : List BufId} (first : s.queue = b :: rest) : Steps s (.intr fine) (served (done s) fine b rest) none

omit [DecidableEq P] in
@[simp] theorem doneBuf (s : State P β) : (done s).buf = s.buf := by unfold done; split <;> rfl

omit [DecidableEq P] in
@[simp] theorem doneQueue (s : State P β) : (done s).queue = s.queue := by unfold done; split <;> rfl

omit [DecidableEq P] in
@[simp] theorem doneStarted (s : State P β) : (done s).started = s.started := by unfold done; split <;> rfl

omit [DecidableEq P] in
@[simp] theorem doneHeld (s : State P β) : (done s).held = s.held := by unfold done; split <;> rfl

omit [DecidableEq P] in
@[simp] theorem donePhase (s : State P β) : (done s).phase = s.phase := by unfold done; split <;> rfl

omit [DecidableEq P] in
@[simp] theorem doneLru (s : State P β) : (done s).lru = s.lru := by unfold done; split <;> rfl

@[simp] theorem takeBuf (s : State P β) (i : P) (b : BufId) (new : Buf β) : (s.take i b new).buf b = new := by
  unfold State.take
  exact update_self b new s.buf

theorem getSteps (getting : s.phase i = .getting dev sector) (ok : bget s i dev sector = .ok (s', o)) : Steps s (.go i) s' o := by
  unfold bget at ok
  split at ok
  · rename_i b found
    have same : (s.buf b).dev = dev ∧ (s.buf b).sector = sector := by simpa using List.find?_some found
    split at ok
    · rename_i busy
      cases ok
      exact .waits getting same busy
    · rename_i free
      have free : (s.buf b).busy = false := by simpa using free
      simp only [got, takeBuf] at ok
      split at ok
      · rename_i valid
        cases ok
        exact .hits getting same free valid
      · rename_i blank
        cases ok
        exact .blank getting same free (by simpa using blank)
  · rename_i absent
    split at ok
    · rename_i b found
      have free : (s.buf b).busy = false := by simpa using List.find?_some found
      simp only [got, takeBuf] at ok
      cases ok
      exact .recycles getting (fun c mem => by simpa using List.find?_eq_none.mp absent c mem) free
    · cases ok

theorem startSteps (starting : s.phase i = .starting b w) (ok : iderw s i b w = .ok (s', o)) : Steps s (.go i) s' o := by
  unfold iderw at ok
  split at ok
  · cases ok
  · split at ok
    · cases ok
    · rename_i pending
      split at ok
      · cases ok
      · dsimp only at ok
        unfold checks at ok
        have steps := Steps.starts starting pending
        split at ok
        · rename_i head
          cases ok
          rwa [if_pos head] at steps
        · rename_i head
          cases ok
          rwa [if_neg head] at steps

theorem stepSteps (ok : step s a = .ok (s', o)) : Steps s a s' o := by
  cases a with
  | bread i dev sector =>
    simp only [step] at ok
    split at ok
    · rename_i idle
      cases ok
      exact .asks idle
    · cases ok
  | store i b x =>
    simp only [step] at ok
    split at ok
    · rename_i can
      cases ok
      exact .stores can.1 can.2
    · cases ok
  | bwrite i b =>
    simp only [step] at ok
    split at ok
    · rename_i can
      split at ok
      · cases ok
      · cases ok
        exact .writes can.1 can.2
    · cases ok
  | brelse i b =>
    simp only [step] at ok
    split at ok
    · rename_i can
      split at ok
      · cases ok
      · cases ok
        exact .releases can.1 can.2
    · cases ok
  | go i =>
    simp only [step, go] at ok
    split at ok
    · cases ok
    · cases ok
    · cases ok
    · rename_i getting
      exact getSteps getting ok
    · rename_i starting
      exact startSteps starting ok
    · rename_i b w checking
      unfold checks at ok
      split at ok
      · rename_i clean
        cases ok
        exact .returns checking clean
      · rename_i pending
        cases ok
        exact .again checking pending
  | intr fine =>
    simp only [step] at ok
    cases ok
    cases empty : s.queue with
    | nil =>
      unfold ideintr
      rw [doneQueue, empty]
      exact .spurious empty
    | cons b rest =>
      unfold ideintr
      rw [doneQueue, empty]
      exact .serves empty

/-! ### What holds in every state -/

def Pending (b : Buf β) (writes : Bool) : Prop := if writes then b.dirty = true else b.valid = false ∧ b.dirty = false

def Engaged (queued : Prop) (buf : Buf β) (b : BufId) : Phase → Prop
  | .starting b' w => if b' = b then ¬ queued ∧ Pending buf w else ¬ queued ∧ Clean buf
  | .waiting b' w => if b' = b then queued ∧ Pending buf w else ¬ queued ∧ Clean buf
  | .checking b' w => if b' = b then (queued ∧ Pending buf w) ∨ (¬ queued ∧ Clean buf) else ¬ queued ∧ Clean buf
  | .idle | .getting _ _ | .asleep _ _ _ => ¬ queued ∧ Clean buf

def Standing (s : State P β) (i : P) : Phase → Prop
  | .starting b _ | .waiting b _ | .checking b _ => b ∈ s.held i
  | .asleep b dev sector => (s.buf b).busy = true ∧ (s.buf b).dev = dev ∧ (s.buf b).sector = sector ∧ dev ≠ noDev
  | .getting dev _ => dev ≠ noDev
  | .idle => True

structure Owned (s : State P β) : Prop where
  once : ∀ i, (s.held i).Nodup
  alone : ∀ i j b, b ∈ s.held i → b ∈ s.held j → i = j
  busy : ∀ b, (s.buf b).busy = true ↔ ∃ i, b ∈ s.held i

structure Fits (s : State P β) : Prop where
  lru : s.lru.Perm (List.finRange NBUF)
  unique : ∀ b c, (s.buf b).dev ≠ noDev → (s.buf b).dev = (s.buf c).dev → (s.buf b).sector = (s.buf c).sector → b = c
  owned : Owned s
  used : ∀ i, ∀ b ∈ s.held i, (s.buf b).dev ≠ noDev ∧ Engaged (b ∈ s.queue) (s.buf b) b (s.phase i)
  free : ∀ b, (s.buf b).busy = false → (s.buf b).dirty = false ∧ b ∉ s.queue ∧ ((s.buf b).dev = noDev ∨ (s.buf b).valid = true)
  standing : ∀ i, Standing s i (s.phase i)
  queue : s.queue.Nodup
  started : s.started = s.queue.head?.map fun b => idestart (s.buf b)

/-- The number that stands for no device is not asked for. -/
def Named (_ : State P β) : Act P β → Prop
  | .bread _ dev _ => dev ≠ noDev
  | _ => True

instance (s : State P β) (a : Act P β) : Decidable (Named s a) := by unfold Named; split <;> infer_instance

omit [DecidableEq P] in
theorem bootFits (boot : Boot s) : Fits s := by
  obtain ⟨buf, lru, queue, started, held, phase⟩ := boot
  have nobody : ∀ i, ∀ b, b ∉ s.held i := fun i b mem => by
    rw [held] at mem
    cases mem
  refine ⟨?_, fun b c named => absurd (buf b).2.2.2 named, ⟨fun i => ?_, fun i j b mem => absurd mem (nobody i b), fun b => ?_⟩,
    fun i b mem => absurd mem (nobody i b), fun b _ => ⟨(buf b).2.2.1, ?_, .inl (buf b).2.2.2⟩, fun i => ?_, ?_, ?_⟩
  · rw [lru]
    exact List.reverse_perm _
  · rw [held]
    exact List.nodup_nil
  · refine iff_of_false (fun busy => ?_) fun ⟨i, mem⟩ => nobody i b mem
    cases (buf b).1.symm.trans busy
  · rw [queue]
    exact List.not_mem_nil
  · rw [phase]
    trivial
  · rw [queue]
    exact List.nodup_nil
  · rw [started, queue]
    rfl

omit [DecidableEq P] in
theorem Fits.inLru (h : Fits s) (b : BufId) : b ∈ s.lru := h.lru.mem_iff.mpr (List.mem_finRange b)

omit [DecidableEq P] in
theorem Fits.nobody (h : Fits s) (free : (s.buf b).busy = false) (i : P) : b ∉ s.held i := fun mem => by
  have busy := (h.owned.busy b).mpr ⟨i, mem⟩
  rw [free] at busy
  cases busy

theorem takeOwned (h : Fits s) (free : (s.buf b).busy = false) {new : Buf β} (busy : new.busy = true) (i : P) (p : Phase) :
    Owned ((s.take i b new).turn i p) := by
  have nobody := h.nobody free
  refine ⟨fun j => ?_, fun j l c first second => ?_, fun c => ?_⟩
  · dsimp only [State.turn, State.take]
    by_cases same : j = i
    · rw [same, update_self]
      exact List.nodup_cons.mpr ⟨nobody i, h.owned.once i⟩
    · rw [update_of_ne same]
      exact h.owned.once j
  · dsimp only [State.turn, State.take] at first second
    by_cases left : j = i
    · by_cases right : l = i
      · rw [left, right]
      · rw [left, update_self] at first
        rw [update_of_ne right] at second
        rcases List.mem_cons.mp first with rfl | mem
        · exact absurd second (nobody l)
        · exact absurd (h.owned.alone i l c mem second).symm right
    · rw [update_of_ne left] at first
      by_cases right : l = i
      · rw [right, update_self] at second
        rcases List.mem_cons.mp second with rfl | mem
        · exact absurd first (nobody j)
        · exact absurd (h.owned.alone j i c first mem) left
      · rw [update_of_ne right] at second
        exact h.owned.alone j l c first second
  · dsimp only [State.turn, State.take]
    by_cases here : c = b
    · rw [here, update_self]
      refine iff_of_true busy ⟨i, ?_⟩
      rw [update_self]
      exact List.mem_cons_self
    · rw [update_of_ne here, h.owned.busy c]
      refine exists_congr fun j => ?_
      by_cases same : j = i
      · rw [same, update_self, List.mem_cons]
        exact (or_iff_right here).symm
      · rw [update_of_ne same]

omit [DecidableEq P] in
theorem Owned.same (h : Owned s) (held : s'.held = s.held) (busy : ∀ b, (s'.buf b).busy = (s.buf b).busy) : Owned s' := by
  refine ⟨?_, ?_, fun b => ?_⟩
  · rw [held]
    exact h.once
  · rw [held]
    exact h.alone
  · rw [busy, held]
    exact h.busy b

theorem putSame {α : Type*} (f : Buf β → α) (buf : BufId → Buf β) (b : BufId) {new : Buf β} (same : f new = f (buf b)) (c : BufId) :
    f (update buf b new c) = f (buf c) := by
  by_cases here : c = b
  · rw [here, update_self, same]
  · rw [update_of_ne here]

theorem eraseOwned (h : Owned s) (mine : b ∈ s.held i) {new : Buf β} (free : new.busy = false) (s' : State P β) (held : s'.held = update s.held i ((s.held i).erase b))
    (buf : s'.buf = update s.buf b new) : Owned s' := by
  have sub : ∀ j c, c ∈ s'.held j → c ∈ s.held j ∧ c ≠ b := fun j c mem => by
    rw [held] at mem
    by_cases same : j = i
    · rw [same, update_self] at mem
      rw [same]
      exact ((h.once i).mem_erase_iff.mp mem).symm
    · rw [update_of_ne same] at mem
      refine ⟨mem, ?_⟩
      rintro rfl
      exact same (h.alone j i c mem mine)
  refine ⟨fun j => ?_, fun j l c first second => h.alone j l c (sub j c first).1 (sub l c second).1, fun c => ?_⟩
  · rw [held]
    by_cases same : j = i
    · rw [same, update_self]
      exact (h.once i).erase b
    · rw [update_of_ne same]
      exact h.once j
  · rw [buf]
    by_cases here : c = b
    · rw [here, update_self, free]
      exact iff_of_false nofun fun ⟨j, mem⟩ => (sub j b mem).2 rfl
    · rw [update_of_ne here, h.busy c]
      refine ⟨fun ⟨j, mem⟩ => ⟨j, ?_⟩, fun ⟨j, mem⟩ => ⟨j, (sub j c mem).1⟩⟩
      rw [held]
      by_cases same : j = i
      · rw [same] at mem
        rw [same, update_self]
        exact (List.mem_erase_of_ne here).mpr mem
      · rwa [update_of_ne same]

theorem stepOwned (h : Fits s) (steps : Steps s a s' o) : Owned s' := by
  cases steps with
  | asks | waits | returns | again | starts => exact h.owned.same rfl fun b => rfl
  | hits getting same free valid => exact takeOwned h free (by rfl) _ _
  | blank getting same free valid => exact takeOwned h free (by rfl) _ _
  | recycles getting absent free => exact takeOwned h free (by rfl) _ _
  | stores idle mine => exact h.owned.same rfl (putSame Buf.busy s.buf _ (by rfl))
  | writes idle mine => exact h.owned.same rfl (putSame Buf.busy s.buf _ (by rfl))
  | @releases i b idle mine => exact eraseOwned h.owned mine (by rfl) _ rfl rfl
  | spurious empty => exact h.owned.same (doneHeld s) fun b => by rw [doneBuf]
  | serves first =>
    refine h.owned.same (doneHeld s) fun c => ?_
    dsimp only [served]
    rw [doneBuf]
    exact putSame Buf.busy s.buf _ (by rfl) c

theorem stepLru (h : Fits s) (steps : Steps s a s' o) : s'.lru.Perm (List.finRange NBUF) := by
  cases steps with
  | @releases i b idle mine => exact (List.perm_cons_erase (h.inLru b)).symm.trans h.lru
  | spurious | serves =>
    simp only [served, doneLru]
    exact h.lru
  | _ => exact h.lru

theorem stepUnique (h : Fits s) (steps : Steps s a s' o) (b c : BufId) (named : (s'.buf b).dev ≠ noDev) (dev : (s'.buf b).dev = (s'.buf c).dev)
    (sector : (s'.buf b).sector = (s'.buf c).sector) : b = c := by
  have same : (∀ d, (s'.buf d).dev = (s.buf d).dev) → (∀ d, (s'.buf d).sector = (s.buf d).sector) → b = c := fun devs sectors => by
    rw [devs] at named
    rw [devs, devs] at dev
    rw [sectors, sectors] at sector
    exact h.unique b c named dev sector
  cases steps with
  | asks | waits | returns | again | starts => exact h.unique b c named dev sector
  | hits getting | blank getting => exact same (putSame Buf.dev s.buf _ (by rfl)) (putSame Buf.sector s.buf _ (by rfl))
  | stores | writes | releases => exact same (putSame Buf.dev s.buf _ (by rfl)) (putSame Buf.sector s.buf _ (by rfl))
  | spurious empty => exact same (fun d => by rw [doneBuf]) fun d => by rw [doneBuf]
  | serves first =>
    refine same (fun d => ?_) fun d => ?_
    · dsimp only [served]
      rw [doneBuf]
      exact putSame Buf.dev s.buf _ (by rfl) d
    · dsimp only [served]
      rw [doneBuf]
      exact putSame Buf.sector s.buf _ (by rfl) d
  | @recycles i d dev' sector' getting absent free =>
    dsimp only [State.turn, State.take] at named dev sector
    have other : ∀ x, ¬ ((s.buf x).dev = dev' ∧ (s.buf x).sector = sector') := fun x => absent x (h.inLru x)
    by_cases left : b = d
    · by_cases right : c = d
      · rw [left, right]
      · rw [left, update_self, update_of_ne right] at dev sector
        exact absurd ⟨dev.symm, sector.symm⟩ (other c)
    · rw [update_of_ne left] at named
      by_cases right : c = d
      · rw [right, update_self, update_of_ne left] at dev sector
        exact absurd ⟨dev, sector⟩ (other b)
      · rw [update_of_ne left, update_of_ne right] at dev sector
        exact h.unique b c named dev sector

omit [DecidableEq P] in
theorem engagedWake (other : c ≠ b) (queued : Prop) (buf : Buf β) (p : Phase) (h : Engaged queued buf c p) : Engaged queued buf c (p.wake b) := by
  cases p with
  | idle | getting | starting | checking => exact h
  | asleep b' dev sector =>
    unfold Phase.wake
    dsimp only
    split <;> exact h
  | waiting b' w =>
    unfold Phase.wake
    dsimp only
    split
    · rename_i same
      have apart : b' ≠ c := fun bad => other (bad.symm.trans same)
      unfold Engaged at h ⊢
      dsimp only at h ⊢
      rwa [if_neg apart] at h ⊢
    · exact h

theorem engagedTurn (queued : Prop) (buf : Buf β) {phase : P → Phase} (same : Engaged queued buf c (phase i) → Engaged queued buf c p) (j : P)
    (h : Engaged queued buf c (phase j)) : Engaged queued buf c (update phase i p j) := by
  by_cases here : j = i
  · rw [here, update_self]
    rw [here] at h
    exact same h
  · rwa [update_of_ne here]

omit [DecidableEq P] in
theorem engagedFlags {queued : Prop} {x y : Buf β} (valid : y.valid = x.valid) (dirty : y.dirty = x.dirty) (h : Engaged queued x c p) : Engaged queued y c p := by
  cases p <;> simpa only [Engaged, Pending, Clean, valid, dirty] using h

omit [DecidableEq P] in
theorem Fits.idle (h : Fits s) (idle : s.phase i = .idle) (mine : b ∈ s.held i) : b ∉ s.queue ∧ Clean (s.buf b) := by
  have engaged := (h.used i b mine).2
  rwa [idle] at engaged

omit [DecidableEq P] in
theorem Fits.busyQueue (h : Fits s) (queued : b ∈ s.queue) : (s.buf b).busy = true := by
  by_contra free
  exact (h.free b (by simpa using free)).2.1 queued

omit [DecidableEq P] in
theorem Fits.named (h : Fits s) (getting : s.phase i = .getting dev sector) (same : (s.buf b).dev = dev) : (s.buf b).dev ≠ noDev := by
  have stands := h.standing i
  rw [getting] at stands
  rwa [same]

theorem takeUsed (h : Fits s) (free : (s.buf b).busy = false) {new : Buf β} (named : new.dev ≠ noDev) (getting : s.phase i = .getting dev sector)
    (mine : Engaged False new b p) (others : ∀ c, c ≠ b → ∀ queued, Engaged queued (s.buf c) c (.getting dev sector) → Engaged queued (s.buf c) c p) (j : P)
    (c : BufId) (mem : c ∈ update s.held i (b :: s.held i) j) :
    (update s.buf b new c).dev ≠ noDev ∧ Engaged (c ∈ s.queue) (update s.buf b new c) c (update s.phase i p j) := by
  have nobody := h.nobody free
  have out := (h.free b free).2.1
  by_cases here : c = b
  · subst here
    have actor : j = i := by
      by_contra other
      rw [update_of_ne other] at mem
      exact nobody j mem
    rw [actor, update_self, update_self]
    exact ⟨named, by rwa [eq_false out]⟩
  · rw [update_of_ne here]
    have mem : c ∈ s.held j := by
      by_cases actor : j = i
      · rw [actor, update_self] at mem
        rw [actor]
        exact (List.mem_cons.mp mem).resolve_left here
      · rwa [update_of_ne actor] at mem
    obtain ⟨fine, engaged⟩ := h.used j c mem
    exact ⟨fine, engagedTurn _ _ (fun before => others c here _ (by rwa [getting] at before)) j engaged⟩

omit [DecidableEq P] in
theorem pendingClean {x : Buf β} (pending : Pending x w) (clean : Clean x) : False := by
  unfold Pending at pending
  split at pending
  · cases pending.symm.trans clean.2
  · cases pending.1.symm.trans clean.1

omit [DecidableEq P] in
theorem engagedServed {rest : List BufId} {x : Buf β} {y : β} (out : c ∉ rest) (h : Engaged (c ∈ c :: rest) x c p) :
    Engaged (c ∈ rest) (x.finish y) c (p.wake c) := by
  have queued : (c ∈ c :: rest) = True := eq_true List.mem_cons_self
  rw [queued] at h
  cases p with
  | idle | getting | asleep => exact absurd trivial h.1
  | starting b' w =>
    unfold Engaged at h
    dsimp only at h
    split at h <;> exact absurd trivial h.1
  | waiting b' w =>
    unfold Engaged at h
    dsimp only at h
    split at h
    · rename_i same
      subst same
      unfold Phase.wake
      dsimp only
      rw [if_pos rfl]
      unfold Engaged
      dsimp only
      rw [if_pos rfl]
      exact .inr ⟨out, rfl, rfl⟩
    · exact absurd trivial h.1
  | checking b' w =>
    unfold Engaged at h
    dsimp only at h
    split at h
    · rename_i same
      subst same
      unfold Phase.wake Engaged
      dsimp only
      rw [if_pos rfl]
      exact .inr ⟨out, rfl, rfl⟩
    · exact absurd trivial h.1

theorem stepUsed (h : Fits s) (steps : Steps s a s' o) (j : P) (mem : c ∈ s'.held j) :
    (s'.buf c).dev ≠ noDev ∧ Engaged (c ∈ s'.queue) (s'.buf c) c (s'.phase j) := by
  cases steps with
  | @asks i dev sector idle =>
    obtain ⟨fine, engaged⟩ := h.used j c mem
    exact ⟨fine, engagedTurn _ _ (fun before => by rwa [idle] at before) j engaged⟩
  | @waits i b dev sector getting same busy =>
    obtain ⟨fine, engaged⟩ := h.used j c mem
    exact ⟨fine, engagedTurn _ _ (fun before => by rwa [getting] at before) j engaged⟩
  | @hits i b dev sector getting same free valid =>
    refine takeUsed h free ?_ getting ?_ (fun c other queued before => ?_) j c mem
    · exact h.named getting same.1
    · exact ⟨id, valid, (h.free b free).1⟩
    · exact before
  | @blank i b dev sector getting same free blank =>
    have named := h.named getting same.1
    rcases (h.free b free).2.2 with none | valid
    · exact absurd none named
    · cases blank.symm.trans valid
  | @recycles i b dev sector getting absent free =>
    have stands := h.standing i
    rw [getting] at stands
    refine takeUsed h free ?_ getting ?_ (fun c other queued before => ?_) j c mem
    · exact stands
    · unfold Engaged
      dsimp only
      rw [if_pos rfl]
      exact ⟨id, rfl, rfl⟩
    · unfold Engaged
      dsimp only
      rwa [if_neg other.symm]
  | @stores i b x idle mine =>
    obtain ⟨fine, engaged⟩ := h.used j c mem
    refine ⟨?_, engagedFlags (putSame Buf.valid s.buf b (by rfl) c) (putSame Buf.dirty s.buf b (by rfl) c) engaged⟩
    dsimp only
    rwa [putSame Buf.dev s.buf b (by rfl) c]
  | @writes i b idle mine =>
    obtain ⟨fine, engaged⟩ := h.used j c mem
    refine ⟨by dsimp only; rwa [putSame Buf.dev s.buf b (by rfl) c], ?_⟩
    dsimp only [State.turn]
    by_cases here : c = b
    · subst here
      rw [h.owned.alone j i c mem mine, update_self, update_self]
      unfold Engaged
      dsimp only
      rw [if_pos rfl]
      exact ⟨(h.idle idle mine).1, rfl⟩
    · rw [update_of_ne here]
      refine engagedTurn _ _ (fun before => ?_) j engaged
      rw [idle] at before
      unfold Engaged
      dsimp only
      rwa [if_neg fun bad => here bad.symm]
  | @releases i b idle mine =>
    have there : c ∈ s.held j ∧ c ≠ b := by
      dsimp only [wakeup] at mem
      by_cases actor : j = i
      · rw [actor, update_self] at mem
        rw [actor]
        exact ((h.owned.once i).mem_erase_iff.mp mem).symm
      · rw [update_of_ne actor] at mem
        refine ⟨mem, ?_⟩
        rintro rfl
        exact actor (h.owned.alone j i c mem mine)
    obtain ⟨fine, engaged⟩ := h.used j c there.1
    dsimp only [wakeup]
    rw [update_of_ne there.2]
    exact ⟨fine, engagedWake there.2 _ _ _ engaged⟩
  | @starts i b w starting pending =>
    have mine : b ∈ s.held i := by
      have stands := h.standing i
      rwa [starting] at stands
    obtain ⟨fine, engaged⟩ := h.used j c mem
    refine ⟨fine, ?_⟩
    dsimp only [State.turn]
    by_cases here : c = b
    · subst here
      rw [h.owned.alone j i c mem mine, update_self]
      rw [h.owned.alone j i c mem mine, starting] at engaged
      unfold Engaged at engaged ⊢
      dsimp only at engaged ⊢
      rw [if_pos rfl] at engaged ⊢
      exact ⟨List.mem_append_right _ (List.mem_singleton_self c), engaged.2⟩
    · have same : (c ∈ s.queue ++ [b]) = (c ∈ s.queue) := by
        rw [List.mem_append, List.mem_singleton, eq_false here, or_false]
      rw [same]
      refine engagedTurn _ _ (fun before => ?_) j engaged
      rw [starting] at before
      unfold Engaged at before ⊢
      dsimp only at before ⊢
      rwa [if_neg fun bad => here bad.symm] at before ⊢
  | @returns i b w checking clean =>
    obtain ⟨fine, engaged⟩ := h.used j c mem
    refine ⟨fine, engagedTurn _ _ (fun before => ?_) j engaged⟩
    rw [checking] at before
    unfold Engaged at before ⊢
    dsimp only at before ⊢
    split at before
    · rename_i same
      subst same
      exact before.resolve_left fun pending => pendingClean pending.2 clean
    · exact before
  | @again i b w checking pending =>
    obtain ⟨fine, engaged⟩ := h.used j c mem
    refine ⟨fine, engagedTurn _ _ (fun before => ?_) j engaged⟩
    rw [checking] at before
    unfold Engaged at before ⊢
    dsimp only at before ⊢
    split at before
    · rename_i same
      subst same
      rw [if_pos rfl]
      exact before.resolve_right fun done => pending done.2
    · rename_i other
      rwa [if_neg other]
  | spurious empty =>
    rw [doneHeld] at mem
    rw [doneBuf, doneQueue, donePhase]
    exact h.used j c mem
  | @serves fine b rest first =>
    dsimp only [served] at mem ⊢
    rw [doneHeld] at mem
    rw [doneBuf, donePhase]
    obtain ⟨named, engaged⟩ := h.used j c mem
    have nodup := h.queue
    rw [first] at engaged nodup
    by_cases here : c = b
    · subst here
      rw [update_self]
      exact ⟨named, engagedServed (List.nodup_cons.mp nodup).1 engaged⟩
    · rw [update_of_ne here]
      have same : (c ∈ b :: rest) = (c ∈ rest) := by rw [List.mem_cons, eq_false here, false_or]
      rw [same] at engaged
      exact ⟨named, engagedWake here _ _ _ engaged⟩

theorem stepFree (h : Fits s) (steps : Steps s a s' o) (c : BufId) (free : (s'.buf c).busy = false) :
    (s'.buf c).dirty = false ∧ c ∉ s'.queue ∧ ((s'.buf c).dev = noDev ∨ (s'.buf c).valid = true) := by
  cases steps with
  | asks | waits | returns | again => exact h.free c free
  | @hits i b dev sector getting same was valid | @blank i b dev sector getting same was blank | @recycles i b dev sector getting absent was =>
    dsimp only [State.turn, State.take] at free ⊢
    by_cases here : c = b
    · rw [here, update_self] at free
      cases free
    · rw [update_of_ne here] at free ⊢
      exact h.free c free
  | @stores i b x idle mine =>
    dsimp only at free ⊢
    rw [putSame Buf.busy s.buf b (by rfl) c] at free
    rw [putSame Buf.dirty s.buf b (by rfl) c, putSame Buf.dev s.buf b (by rfl) c, putSame Buf.valid s.buf b (by rfl) c]
    exact h.free c free
  | @writes i b idle mine =>
    dsimp only [State.turn] at free ⊢
    by_cases here : c = b
    · rw [here, update_self] at free
      cases ((h.owned.busy b).mpr ⟨i, mine⟩).symm.trans free
    · rw [update_of_ne here] at free ⊢
      exact h.free c free
  | @releases i b idle mine =>
    dsimp only [wakeup] at free ⊢
    by_cases here : c = b
    · subst here
      rw [update_self]
      obtain ⟨out, clean⟩ := h.idle idle mine
      exact ⟨clean.2, out, .inr clean.1⟩
    · rw [update_of_ne here] at free ⊢
      exact h.free c free
  | @starts i b w starting pending =>
    have mine : b ∈ s.held i := by
      have stands := h.standing i
      rwa [starting] at stands
    have here : c ≠ b := by
      rintro rfl
      cases ((h.owned.busy c).mpr ⟨i, mine⟩).symm.trans free
    obtain ⟨clean, out, valid⟩ := h.free c free
    refine ⟨clean, fun mem => ?_, valid⟩
    rcases List.mem_append.mp mem with mem | mem
    · exact out mem
    · exact here (List.mem_singleton.mp mem)
  | spurious empty =>
    rw [doneBuf] at free ⊢
    rw [doneQueue]
    exact h.free c free
  | @serves fine b rest first =>
    dsimp only [served] at free ⊢
    rw [doneBuf] at free ⊢
    have queued : b ∈ s.queue := by
      rw [first]
      exact List.mem_cons_self
    have here : c ≠ b := by
      rintro rfl
      rw [update_self] at free
      cases (h.busyQueue queued).symm.trans free
    rw [update_of_ne here] at free ⊢
    obtain ⟨clean, out, valid⟩ := h.free c free
    refine ⟨clean, fun mem => out ?_, valid⟩
    rw [first]
    exact List.mem_cons_of_mem b mem

omit [DecidableEq P] in
theorem standingKeep (h : Standing s j p) (held : s'.held j = s.held j)
    (asleep : ∀ c dev sector, p = .asleep c dev sector → (s.buf c).busy = true →
      (s'.buf c).busy = true ∧ (s'.buf c).dev = (s.buf c).dev ∧ (s'.buf c).sector = (s.buf c).sector) : Standing s' j p := by
  cases p with
  | idle => trivial
  | getting dev sector => exact h
  | starting b w | waiting b w | checking b w =>
    unfold Standing
    dsimp only
    rw [held]
    exact h
  | asleep c dev sector =>
    obtain ⟨busy, same, same', named⟩ := h
    obtain ⟨busy', dev', sector'⟩ := asleep c dev sector rfl busy
    exact ⟨busy', dev'.trans same, sector'.trans same', named⟩

omit [DecidableEq P] in
theorem standingWake (h : Standing s j p) (held : s'.held j = s.held j)
    (asleep : ∀ c, c ≠ b → (s'.buf c).busy = (s.buf c).busy ∧ (s'.buf c).dev = (s.buf c).dev ∧ (s'.buf c).sector = (s.buf c).sector) :
    Standing s' j (p.wake b) := by
  unfold Phase.wake
  split
  · rename_i c dev sector
    split
    · exact h.2.2.2
    · rename_i other
      refine standingKeep h held fun c dev sector same busy => ?_
      cases same
      obtain ⟨busy', rest⟩ := asleep c other
      exact ⟨busy'.trans busy, rest⟩
  · rename_i c w
    have mine : c ∈ s'.held j := by
      rw [held]
      exact h
    split <;> exact mine
  · rename_i other _
    exact standingKeep h held fun c dev sector same => absurd same (other c dev sector)

theorem stepStanding (h : Fits s) (named : Named s a) (steps : Steps s a s' o) (j : P) : Standing s' j (s'.phase j) := by
  have stands := h.standing j
  have turned : ∀ (i : P) (p : Phase), Standing s' i p → (j ≠ i → Standing s' j (s.phase j)) → Standing s' j (update s.phase i p j) := fun i p here others => by
    by_cases same : j = i
    · rw [same, update_self]
      exact here
    · rw [update_of_ne same]
      exact others same
  cases steps with
  | @asks i dev sector idle => exact turned i _ named fun other => standingKeep stands rfl fun c dev sector _ busy => ⟨busy, rfl, rfl⟩
  | @waits i b dev sector getting same busy =>
    have before := h.standing i
    rw [getting] at before
    exact turned i _ ⟨busy, same.1, same.2, before⟩ fun other => standingKeep stands rfl fun c dev sector _ busy => ⟨busy, rfl, rfl⟩
  | @hits i b dev sector getting same free valid | @blank i b dev sector getting same free blank | @recycles i b dev sector getting absent free =>
    refine turned i _ ?_ fun other => standingKeep stands (update_of_ne other _ _) fun c dev sector _ busy => ?_
    · first
      | trivial
      | (dsimp only [Standing, State.turn, State.take]
         rw [update_self]
         exact List.mem_cons_self)
    · have apart : c ≠ b := by
        rintro rfl
        cases busy.symm.trans free
      dsimp only [State.turn, State.take]
      rw [update_of_ne apart]
      exact ⟨busy, rfl, rfl⟩
  | @stores i b x idle mine =>
    refine standingKeep stands rfl fun c dev sector _ busy => ⟨?_, ?_, ?_⟩
    · exact (putSame Buf.busy s.buf b (by rfl) c).trans busy
    · exact putSame Buf.dev s.buf b (by rfl) c
    · exact putSame Buf.sector s.buf b (by rfl) c
  | @writes i b idle mine =>
    refine turned i _ mine fun other => standingKeep stands rfl fun c dev sector _ busy => ⟨?_, ?_, ?_⟩
    · exact (putSame Buf.busy s.buf b (by rfl) c).trans busy
    · exact putSame Buf.dev s.buf b (by rfl) c
    · exact putSame Buf.sector s.buf b (by rfl) c
  | @releases i b idle mine =>
    by_cases same : j = i
    · subst same
      dsimp only [wakeup]
      rw [idle]
      trivial
    · refine standingWake stands (update_of_ne same _ _) fun c other => ?_
      dsimp only [wakeup]
      rw [update_of_ne other]
      exact ⟨rfl, rfl, rfl⟩
  | @starts i b w starting pending =>
    have mine := h.standing i
    rw [starting] at mine
    exact turned i _ mine fun other => standingKeep stands rfl fun c dev sector _ busy => ⟨busy, rfl, rfl⟩
  | @returns i b w checking clean => exact turned i _ trivial fun other => standingKeep stands rfl fun c dev sector _ busy => ⟨busy, rfl, rfl⟩
  | @again i b w checking pending =>
    have mine := h.standing i
    rw [checking] at mine
    exact turned i _ mine fun other => standingKeep stands rfl fun c dev sector _ busy => ⟨busy, rfl, rfl⟩
  | spurious empty =>
    rw [donePhase]
    exact standingKeep stands (congrFun (doneHeld s) j) fun c dev sector _ busy => by
      rw [doneBuf]
      exact ⟨busy, rfl, rfl⟩
  | @serves fine b rest first =>
    dsimp only [served]
    rw [donePhase]
    refine standingWake stands (congrFun (doneHeld s) j) fun c other => ?_
    dsimp only [served]
    rw [doneBuf, update_of_ne other]
    exact ⟨rfl, rfl, rfl⟩

theorem stepQueue (h : Fits s) (steps : Steps s a s' o) : s'.queue.Nodup := by
  cases steps with
  | @starts i b w starting pending =>
    have mine := h.standing i
    rw [starting] at mine
    have engaged := (h.used i b mine).2
    rw [starting] at engaged
    unfold Engaged at engaged
    dsimp only at engaged
    rw [if_pos rfl] at engaged
    exact List.nodup_append.mpr ⟨h.queue, List.nodup_singleton b, fun x left y right same => engaged.1 (by
      rw [List.mem_singleton.mp right] at same
      rwa [← same])⟩
  | spurious empty =>
    rw [doneQueue]
    exact h.queue
  | serves first =>
    have nodup := h.queue
    rw [first] at nodup
    exact (List.nodup_cons.mp nodup).2
  | _ => exact h.queue

theorem stepStarted (h : Fits s) (steps : Steps s a s' o) : s'.started = s'.queue.head?.map fun b => idestart (s'.buf b) := by
  have same : ∀ b new, b ∉ s.queue → s.started = s.queue.head?.map fun c => idestart (update s.buf b new c) := fun b new out => by
    rw [h.started]
    cases queue : s.queue with
    | nil => rfl
    | cons c rest =>
      have other : c ≠ b := by
        rintro rfl
        rw [queue] at out
        exact out List.mem_cons_self
      simp only [List.head?_cons, Option.map_some, update_of_ne other]
  cases steps with
  | asks | waits | returns | again => exact h.started
  | hits getting eq free | blank getting eq free => exact same _ _ (h.free _ free).2.1
  | recycles getting absent free => exact same _ _ (h.free _ free).2.1
  | stores idle mine => exact same _ _ (h.idle idle mine).1
  | writes idle mine => exact same _ _ (h.idle idle mine).1
  | releases idle mine => exact same _ _ (h.idle idle mine).1
  | spurious empty =>
    rw [doneStarted, doneQueue, doneBuf]
    exact h.started
  | serves first => rfl
  | @starts i b w starting pending =>
    dsimp only [State.turn]
    have start := h.started
    cases queue : s.queue with
    | nil => exact if_pos rfl
    | cons c rest =>
      have mine := h.standing i
      rw [starting] at mine
      have engaged := (h.used i b mine).2
      rw [starting] at engaged
      unfold Engaged at engaged
      dsimp only at engaged
      rw [if_pos rfl] at engaged
      have other : c ≠ b := by
        rintro rfl
        refine engaged.1 ?_
        rw [queue]
        exact List.mem_cons_self
      rw [queue] at start
      rw [List.cons_append, List.head?_cons, if_neg fun bad => other (Option.some.inj bad), start]
      rfl

theorem stepFits (h : Fits s) (named : Named s a) (ok : step s a = .ok (s', o)) : Fits s' := by
  have steps := stepSteps ok
  exact ⟨stepLru h steps, stepUnique h steps, stepOwned h steps, fun i c mem => stepUsed h steps i mem, fun c free => stepFree h steps c free,
    stepStanding h named steps, stepQueue h steps, stepStarted h steps⟩

/-! ### Every run -/

theorem reachFits (reach : machine.Reach Named s) : Fits s :=
  reach.invariant (P := Fits) (fun _ => bootFits) fun _ _ _ _ h named ok => stepFits h named ok

theorem startPanics (h : Fits s) (starting : s.phase i = .starting b w) : iderw s i b w ≠ .error .panic := by
  have mine := h.standing i
  rw [starting] at mine
  have engaged := (h.used i b mine).2
  rw [starting] at engaged
  unfold Engaged at engaged
  dsimp only at engaged
  rw [if_pos rfl] at engaged
  unfold iderw
  have dirty : ¬ ((s.buf b).valid = true ∧ (s.buf b).dirty = false) := pendingClean engaged.2
  rw [if_neg (by rw [(h.owned.busy b).mpr ⟨i, mine⟩]; exact nofun), if_neg dirty]
  split <;> exact nofun

theorem stepPanics (h : Fits s) (a : Act P β) : step s a ≠ .error .panic := by
  have busy : ∀ i b, b ∈ s.held i → (s.buf b).busy ≠ false := fun i b mine => by
    rw [(h.owned.busy b).mpr ⟨i, mine⟩]
    exact nofun
  cases a with
  | bread i dev sector =>
    simp only [step]
    split <;> exact nofun
  | store i b x =>
    simp only [step]
    split <;> exact nofun
  | bwrite i b | brelse i b =>
    simp only [step]
    split
    · rename_i can
      rw [if_neg (busy i b can.2)]
      exact nofun
    · exact nofun
  | intr fine => exact nofun
  | go i =>
    simp only [step, go]
    split
    · exact nofun
    · exact nofun
    · exact nofun
    · unfold bget
      split
      · split <;> exact nofun
      · split <;> exact nofun
    · rename_i starting
      exact startPanics h starting
    · exact nofun

/-- A block is in one buffer at most and with one process at most, and `bwrite`, `brelse` and
`iderw` never find a buffer that is not busy, nor one with nothing to do. -/
theorem buffersApart (reach : machine.Reach Named s) :
    (∀ i j b c, b ∈ s.held i → c ∈ s.held j → (s.buf b).dev = (s.buf c).dev → (s.buf b).sector = (s.buf c).sector → b = c ∧ i = j) ∧
      (∀ b c, (s.buf b).dev ≠ noDev → (s.buf b).dev = (s.buf c).dev → (s.buf b).sector = (s.buf c).sector → b = c) ∧ ∀ a, step s a ≠ .error .panic := by
  have h := reachFits reach
  refine ⟨fun i j b c left right dev sector => ?_, h.unique, stepPanics h⟩
  obtain rfl := h.unique b c (h.used i b left).1 dev sector
  exact ⟨rfl, h.owned.alone i j b left right⟩

omit [DecidableEq P] in
/-- Who sleeps in `iderw`, or has been woken there before his time, is in the queue. -/
theorem Fits.queued (h : Fits s) (mine : b ∈ s.held i) (queued : b ∈ s.queue) : ∃ w, (s.phase i = .waiting b w ∨ s.phase i = .checking b w) ∧ Pending (s.buf b) w := by
  have engaged := (h.used i b mine).2
  cases here : s.phase i with
  | idle | getting | asleep =>
    rw [here] at engaged
    exact absurd queued engaged.1
  | starting c w =>
    rw [here] at engaged
    unfold Engaged at engaged
    dsimp only at engaged
    split at engaged <;> exact absurd queued engaged.1
  | waiting c w =>
    rw [here] at engaged
    unfold Engaged at engaged
    dsimp only at engaged
    split at engaged
    · rename_i same
      rw [same]
      exact ⟨w, .inl rfl, engaged.2⟩
    · exact absurd queued engaged.1
  | checking c w =>
    rw [here] at engaged
    unfold Engaged at engaged
    dsimp only at engaged
    split at engaged
    · rename_i same
      rw [same]
      refine ⟨w, .inr rfl, ?_⟩
      rcases engaged with pending | done
      · exact pending.2
      · exact absurd queued done.1
    · exact absurd queued engaged.1

/-- Nobody sleeps for nothing: in `bget` somebody has the block, in `iderw` the request
is in the queue, and the disk is at work on the first one there. -/
theorem sleepersWait (reach : machine.Reach Named s) :
    (∀ i b dev sector, s.phase i = .asleep b dev sector → (s.buf b).dev = dev ∧ (s.buf b).sector = sector ∧ ∃ j, b ∈ s.held j) ∧
      (∀ i b w, s.phase i = .waiting b w → b ∈ s.queue) ∧ s.started = s.queue.head?.map fun b => idestart (s.buf b) := by
  have h := reachFits reach
  refine ⟨fun i b dev sector asleep => ?_, fun i b w waiting => ?_, h.started⟩
  · have stands := h.standing i
    rw [asleep] at stands
    exact ⟨stands.2.1, stands.2.2.1, (h.owned.busy b).mp stands.1⟩
  · have mine := h.standing i
    rw [waiting] at mine
    have engaged := (h.used i b mine).2
    rw [waiting] at engaged
    unfold Engaged at engaged
    dsimp only at engaged
    rw [if_pos rfl] at engaged
    exact engaged.1

def Act.interrupts : Act P β → Bool
  | .intr _ => true
  | _ => false

theorem stepPlace {n : Nat} (steps : Steps s a s' o) (place : s.queue[n + 1]? = some b) (intr : a.interrupts = true) : s'.queue[n]? = some b := by
  cases steps with
  | spurious empty =>
    rw [empty] at place
    cases place
  | serves first =>
    rw [first] at place
    exact place
  | _ => cases intr

theorem stepStays {n : Nat} (steps : Steps s a s' o) (place : s.queue[n]? = some b) (intr : a.interrupts = false) : s'.queue[n]? = some b := by
  cases steps with
  | spurious | serves => cases intr
  | @starts i c w starting pending =>
    obtain ⟨less, _⟩ := List.getElem?_eq_some_iff.mp place
    dsimp only
    rwa [List.getElem?_append_left less]
  | _ => exact place

theorem runPlace {n k : Nat} {acts : List (Act P β)} {os : List (Output P β)} (place : s.queue[n + k]? = some b)
    (ran : machine.run s acts = .ok (s', os)) (count : acts.countP Act.interrupts = n) : s'.queue[k]? = some b := by
  induction acts generalizing s n os with
  | nil =>
    cases ran
    subst count
    rwa [List.countP_nil, Nat.zero_add] at place
  | cons a acts ih =>
    obtain ⟨mid, o, os', first, later, _⟩ := Machine.runCons ran
    have steps := stepSteps first
    rw [List.countP_cons] at count
    cases intr : a.interrupts with
    | false =>
      rw [intr] at count
      exact ih (stepStays steps place intr) later count
    | true =>
      rw [if_pos intr] at count
      subst count
      rw [Nat.add_right_comm] at place
      exact ih (stepPlace steps place intr) later rfl

/-- The disk serves the requests in their order: the one behind `n` others is done at the
`n + 1`st interrupt, whatever else happens, and its process goes on. -/
theorem requestServed {n : Nat} {acts : List (Act P β)} {os : List (Output P β)} {fine : Bool} {s'' : State P β} (reach : machine.Reach Named s)
    (place : s.queue[n]? = some b) (passes : machine.Passes Named s acts) (ran : machine.run s acts = .ok (s', os)) (count : acts.countP Act.interrupts = n)
    (intr : step s' (.intr fine) = .ok (s'', o)) : b ∉ s''.queue ∧ Clean (s''.buf b) ∧ ∃ i w, s''.phase i = .checking b w := by
  have h := reachFits (Machine.runReach reach passes ran)
  have first := runPlace (k := 0) place ran count
  have queued : b ∈ s'.queue := List.mem_of_getElem? first
  obtain ⟨i, mine⟩ := (h.owned.busy b).mp (h.busyQueue queued)
  obtain ⟨w, phase, _⟩ := h.queued mine queued
  cases stepSteps intr with
  | spurious empty =>
    rw [empty] at queued
    cases queued
  | @serves _ c rest head =>
    rw [head] at first
    cases first
    have nodup := h.queue
    rw [head] at nodup
    dsimp only [served]
    rw [doneBuf, donePhase, update_self]
    refine ⟨(List.nodup_cons.mp nodup).1, ⟨rfl, rfl⟩, i, w, ?_⟩
    rcases phase with here | here
    · rw [here]
      exact if_pos rfl
    · rw [here]
      rfl

def boot : State (Bool) Nat :=
  ⟨fun _ => ⟨false, false, false, noDev, 0, 0⟩, (List.finRange NBUF).reverse, [], none, fun a => a.2, true, fun _ => [], fun _ => .idle⟩

theorem bootBoot : Boot boot := ⟨fun _ => ⟨rfl, rfl, rfl, rfl⟩, rfl, rfl, rfl, fun _ => rfl, fun _ => rfl⟩

def buf0 : BufId := 0

def asks : List (Act (Bool) Nat) := [.bread false 1 5, .go false, .go false, .bread true 1 5, .go true]

theorem asksReach : Machine.Ends (machine.run boot asks) fun s _ => machine.Reach Named s ∧ s.queue[0]? = some 0 ∧ s.phase false = .waiting 0 false ∧ s.phase true = .asleep 0 1 5 := by
  have run : Machine.Ends (machine.run boot asks) fun s _ => s.queue[0]? = some 0 ∧ s.phase false = .waiting 0 false ∧ s.phase true = .asleep 0 1 5 := by decide +kernel
  obtain ⟨s, os, ok, rest⟩ := run.run
  have passes : machine.Passes Named boot asks := by decide +kernel
  have reach := Machine.runReach (.start bootBoot) passes ok
  rw [ok]
  exact ⟨reach, rest⟩

theorem buffersApartOne : Machine.Ends (machine.run boot asks) fun s _ =>
    ∀ i j b c, b ∈ s.held i → c ∈ s.held j → (s.buf b).dev = (s.buf c).dev → (s.buf b).sector = (s.buf c).sector → b = c ∧ i = j := by
  obtain ⟨s, os, ok, reach, _⟩ := asksReach.run
  have apart := (buffersApart reach).1
  rw [ok]
  exact apart

theorem sleepersWaitOne : Machine.Ends (machine.run boot asks) fun s _ => s.phase true = .asleep 0 1 5 ∧ ∃ j, 0 ∈ s.held j := by
  obtain ⟨s, os, ok, reach, _, _, asleep⟩ := asksReach.run
  have waits := ((sleepersWait reach).1 true 0 1 5 asleep).2.2
  rw [ok]
  exact ⟨asleep, waits⟩

def reads : List (Act (Bool) Nat) := [.bread false 1 5, .go false, .go false, .bread true 1 6, .go true, .go true]

theorem requestServedOne : Machine.Ends (machine.run boot reads) fun s _ => s.queue = [0, 1] ∧
    Machine.Ends (machine.run s [.intr true, .go false]) fun s' _ => ∃ s'', step s' (.intr true) = .ok (s'', none) ∧
      1 ∉ s''.queue ∧ Clean (s''.buf 1) ∧ ∃ i w, s''.phase i = .checking 1 w := by
  have first : Machine.Ends (machine.run boot reads) fun s _ => s.queue = [0, 1] ∧
      Machine.Ends (machine.run s [.intr true, .go false]) fun _ _ => True := by decide +kernel
  obtain ⟨s, os, ok, queue, later⟩ := first.run
  obtain ⟨s', os', ran, _⟩ := later.run
  have reach : machine.Reach Named s := Machine.runReach (.start bootBoot) (by decide +kernel) ok
  have passes : machine.Passes Named s [.intr true, .go false] := ⟨trivial, fun _ _ _ => ⟨trivial, fun _ _ _ => trivial⟩⟩
  have intr : step s' (.intr true) = .ok (ideintr (done s') true, none) := rfl
  have served := requestServed (n := 1) reach (by rw [queue]; rfl) passes ran rfl intr
  rw [ok]
  refine ⟨queue, ?_⟩
  rw [ran]
  exact ⟨_, rfl, served⟩

end OpSys.Bio
