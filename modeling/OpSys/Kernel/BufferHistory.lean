import OpSys.Kernel.BufferCache

/-! What the processes read from the cache of disk blocks is what they wrote last. -/
namespace OpSys.Bio
open Function OpSys.Transition OpSys.Register

variable {P β : Type*} [DecidableEq P] {s s' : State P β} {i j : P} {b c : BufId} {a : Act P β} {o : Output P β} {w : Bool} {dev sector : Nat} {at' : Addr}

def Synced (s : State P β) (b : BufId) : Prop := (s.buf b).data = s.disk (s.buf b).address

instance [DecidableEq β] (s : State P β) (b : BufId) : Decidable (Synced s b) := by unfold Synced; infer_instance

/-- The numbers that the disk can be told. -/
def InRange (dev sector : Nat) : Prop := dev < 2 ∧ sector < 2 ^ 28

instance (dev sector : Nat) : Decidable (InRange dev sector) := by unfold InRange; infer_instance

/-- Blocks that the disk has are asked for, what was changed in a buffer is written before it
is released, and the disk makes no error. -/
def Careful (s : State P β) : Act P β → Prop
  | .bread _ dev sector => InRange dev sector
  | .brelse _ b => Synced s b
  | .intr fine => fine = true
  | _ => True

instance [DecidableEq β] (s : State P β) : (a : Act P β) → Decidable (Careful s a)
  | .bread _ dev sector => inferInstanceAs (Decidable (InRange dev sector))
  | .brelse _ b => inferInstanceAs (Decidable (Synced s b))
  | .intr fine => inferInstanceAs (Decidable (fine = true))
  | .store _ _ _ | .bwrite _ _ | .go _ => .isTrue trivial

omit [DecidableEq P] in
theorem carefulNamed (h : Careful s a) : Named s a := by
  cases a with
  | bread i dev sector =>
    rintro rfl
    exact absurd h.1 (by decide)
  | _ => trivial

def Asks (p : Phase) (dev sector : Nat) : Prop := p = .getting dev sector ∨ ∃ b, p = .asleep b dev sector

structure Coherent (s : State P β) : Prop where
  ranged : ∀ b, (s.buf b).dev ≠ noDev → InRange (s.buf b).dev (s.buf b).sector
  asked : ∀ i dev sector, Asks (s.phase i) dev sector → InRange dev sector
  free : ∀ b, (s.buf b).busy = false → (s.buf b).dev ≠ noDev → Synced s b
  back : ∀ i b w, s.phase i = .checking b w → b ∉ s.queue → Synced s b

omit [DecidableEq P] in
theorem addressApart (h : Fits s) (coherent : Coherent s) (left : (s.buf b).dev ≠ noDev) (right : (s.buf c).dev ≠ noDev)
    (same : (s.buf b).address = (s.buf c).address) : b = c := by
  obtain ⟨dev, sector⟩ := coherent.ranged b left
  obtain ⟨dev', sector'⟩ := coherent.ranged c right
  unfold Buf.address at same
  rw [Nat.mod_eq_of_lt dev, Nat.mod_eq_of_lt dev', Nat.mod_eq_of_lt sector, Nat.mod_eq_of_lt sector'] at same
  exact h.unique b c left (Prod.mk.inj same).1 (Prod.mk.inj same).2

omit [DecidableEq P] in
theorem Fits.first {rest : List BufId} (h : Fits s) (first : s.queue = b :: rest) : (s.buf b).dev ≠ noDev := by
  have queued : b ∈ s.queue := by
    rw [first]
    exact List.mem_cons_self
  obtain ⟨i, mine⟩ := (h.owned.busy b).mp (h.busyQueue queued)
  exact (h.used i b mine).1

omit [DecidableEq P] in
theorem doneIdle (h : Fits s) (empty : s.queue = []) : done s = s := by
  have started := h.started
  rw [empty] at started
  unfold done
  rw [started]
  rfl

omit [DecidableEq P] in
theorem doneDisk {rest : List BufId} (h : Fits s) (first : s.queue = b :: rest) :
    (done s).disk = if (s.buf b).dirty then update s.disk (s.buf b).address (s.buf b).data else s.disk := by
  have started := h.started
  rw [first] at started
  unfold done
  rw [started]
  simp only [List.head?_cons, Option.map_some, idestart]
  by_cases dirty : (s.buf b).dirty = true
  · simp only [if_pos dirty]
  · simp only [if_neg dirty]

omit [DecidableEq P] in
theorem inslData {rest : List BufId} (h : Fits s) (first : s.queue = b :: rest) :
    insl (done s) true b = if (s.buf b).dirty then (s.buf b).data else s.disk (s.buf b).address := by
  have started := h.started
  rw [first] at started
  unfold insl
  rw [doneStarted, started, doneBuf, doneDisk h first]
  simp only [List.head?_cons, Option.map_some, idestart]
  cases dirty : (s.buf b).dirty <;> simp

omit [DecidableEq P] in
/-- After the interrupt the first buffer is as the disk has it, and no other block has changed. -/
theorem servedSynced {rest : List BufId} (h : Fits s) (coherent : Coherent s) (first : s.queue = b :: rest) :
    Synced (served (done s) true b rest) b ∧ ∀ c, c ≠ b → (s.buf c).dev ≠ noDev → Synced s c → Synced (served (done s) true b rest) c := by
  unfold Synced served
  dsimp only
  rw [doneBuf, doneDisk h first, inslData h first]
  refine ⟨?_, fun c other named synced => ?_⟩
  · rw [update_self]
    unfold Buf.finish
    cases (s.buf b).dirty with
    | true => exact (update_self (s.buf b).address (s.buf b).data s.disk).symm
    | false => rfl
  · rw [update_of_ne other]
    split
    · rw [update_of_ne fun same => other (addressApart h coherent named (h.first first) same)]
      exact synced
    · exact synced

theorem takeSynced {new : Buf β} {p : Phase} (other : c ≠ b) : Synced ((s.take i b new).turn i p) c ↔ Synced s c := by
  unfold Synced State.turn State.take
  dsimp only
  rw [update_of_ne other]

theorem asksTurn {phase : P → Phase} {p : Phase} (asked : ∀ j dev sector, Asks (phase j) dev sector → InRange dev sector)
    (here : ∀ dev sector, Asks p dev sector → InRange dev sector) (j : P) (dev sector : Nat) (asks : Asks (update phase i p j) dev sector) : InRange dev sector := by
  by_cases same : j = i
  · rw [same, update_self] at asks
    exact here dev sector asks
  · rw [update_of_ne same] at asks
    exact asked j dev sector asks

omit [DecidableEq P] in
theorem asksWake {p : Phase} (asks : Asks (p.wake b) dev sector) : Asks p dev sector := by
  cases p with
  | asleep c dev' sector' =>
    unfold Phase.wake at asks
    dsimp only at asks
    split at asks
    · rcases asks with same | ⟨c', same⟩ <;> cases same
      exact .inr ⟨c, rfl⟩
    · exact asks
  | waiting c w =>
    unfold Phase.wake at asks
    dsimp only at asks
    split at asks
    · rcases asks with same | ⟨c', same⟩ <;> cases same
    · exact asks
  | idle | getting | starting | checking => exact asks

theorem stepAsked (coherent : Coherent s) (careful : Careful s a) (steps : Steps s a s' o) (j : P) (dev sector : Nat) (asks : Asks (s'.phase j) dev sector) :
    InRange dev sector := by
  have nothing : ∀ p : Phase, (∀ dev sector, p ≠ .getting dev sector) → (∀ b dev sector, p ≠ .asleep b dev sector) →
      ∀ dev sector, Asks p dev sector → InRange dev sector := fun p first second dev sector asks => by
    rcases asks with same | ⟨b, same⟩
    · exact absurd same (first dev sector)
    · exact absurd same (second b dev sector)
  cases steps with
  | @asks i dev' sector' idle =>
    refine asksTurn coherent.asked (fun dev sector asks => ?_) j dev sector asks
    rcases asks with same | ⟨b, same⟩ <;> cases same
    exact careful
  | @waits i b dev' sector' getting same busy =>
    refine asksTurn coherent.asked (fun dev sector asks => ?_) j dev sector asks
    rcases asks with same | ⟨b, same⟩ <;> cases same
    exact coherent.asked i _ _ (.inl getting)
  | hits | blank | recycles | writes | starts | returns | again =>
    refine asksTurn coherent.asked (nothing _ ?_ ?_) j dev sector asks <;> exact nofun
  | stores idle mine => exact coherent.asked j dev sector asks
  | releases idle mine => exact coherent.asked j dev sector (asksWake asks)
  | spurious empty =>
    rw [donePhase] at asks
    exact coherent.asked j dev sector asks
  | serves first =>
    dsimp only [served] at asks
    rw [donePhase] at asks
    exact coherent.asked j dev sector (asksWake asks)

theorem stepRanged (coherent : Coherent s) (steps : Steps s a s' o) (c : BufId) (named : (s'.buf c).dev ≠ noDev) : InRange (s'.buf c).dev (s'.buf c).sector := by
  have same : (s'.buf c).dev = (s.buf c).dev → (s'.buf c).sector = (s.buf c).sector → InRange (s'.buf c).dev (s'.buf c).sector := fun dev sector => by
    rw [dev] at named ⊢
    rw [sector]
    exact coherent.ranged c named
  cases steps with
  | asks | waits | returns | again | starts => exact coherent.ranged c named
  | hits | blank | stores | writes | releases => exact same (putSame Buf.dev s.buf _ (by rfl) c) (putSame Buf.sector s.buf _ (by rfl) c)
  | spurious empty => exact same (by rw [doneBuf]) (by rw [doneBuf])
  | serves first =>
    refine same ?_ ?_
    · dsimp only [served]
      rw [doneBuf]
      exact putSame Buf.dev s.buf _ (by rfl) c
    · dsimp only [served]
      rw [doneBuf]
      exact putSame Buf.sector s.buf _ (by rfl) c
  | @recycles i b dev sector getting absent free =>
    by_cases here : c = b
    · subst here
      dsimp only [State.turn, State.take]
      rw [update_self]
      exact coherent.asked i dev sector (.inl getting)
    · exact same (congrArg Buf.dev (update_of_ne here _ s.buf)) (congrArg Buf.sector (update_of_ne here _ s.buf))

omit [DecidableEq P] in
theorem syncedPut {new : Buf β} (h : Synced s c) (buf : s'.buf = update s.buf b new) (disk : s'.disk = s.disk) (data : new.data = (s.buf b).data)
    (address : new.address = (s.buf b).address) : Synced s' c := by
  unfold Synced
  rw [buf, disk, putSame Buf.data s.buf b data c, putSame Buf.address s.buf b address c]
  exact h

theorem stepSynced (h : Fits s) (coherent : Coherent s) (careful : Careful s a) (steps : Steps s a s' o) (c : BufId) (free : (s'.buf c).busy = false)
    (named : (s'.buf c).dev ≠ noDev) : Synced s' c := by
  cases steps with
  | asks | waits | returns | again | starts => exact coherent.free c free named
  | @hits i b dev sector getting same was valid | @blank i b dev sector getting same was blank | @recycles i b dev sector getting absent was =>
    dsimp only [State.turn, State.take] at free named
    by_cases here : c = b
    · rw [here, update_self] at free
      cases free
    · rw [update_of_ne here] at free named
      exact (takeSynced here).mpr (coherent.free c free named)
  | @stores i b x idle mine =>
    dsimp only at free named
    rw [putSame Buf.busy s.buf b (by rfl) c] at free
    rw [putSame Buf.dev s.buf b (by rfl) c] at named
    have other : c ≠ b := by
      rintro rfl
      cases ((h.owned.busy c).mpr ⟨i, mine⟩).symm.trans free
    unfold Synced
    dsimp only
    rw [update_of_ne other]
    exact coherent.free c free named
  | @writes i b idle mine =>
    dsimp only [State.turn] at free named
    rw [putSame Buf.busy s.buf b (by rfl) c] at free
    rw [putSame Buf.dev s.buf b (by rfl) c] at named
    refine syncedPut (coherent.free c free named) rfl rfl ?_ ?_ <;> rfl
  | @releases i b idle mine =>
    dsimp only [wakeup] at free named
    rw [putSame Buf.dev s.buf b (by rfl) c] at named
    have synced : Synced s c := by
      by_cases here : c = b
      · rw [here]
        exact careful
      · rw [update_of_ne here] at free
        exact coherent.free c free named
    refine syncedPut synced rfl rfl ?_ ?_ <;> rfl
  | spurious empty =>
    rw [doneIdle h empty] at free named ⊢
    exact coherent.free c free named
  | @serves fine b rest first =>
    cases careful
    dsimp only [served] at free named
    rw [doneBuf] at free named
    rw [putSame Buf.dev s.buf b (by rfl) c] at named
    have queued : b ∈ s.queue := by
      rw [first]
      exact List.mem_cons_self
    have other : c ≠ b := by
      rintro rfl
      rw [update_self] at free
      cases (h.busyQueue queued).symm.trans free
    rw [update_of_ne other] at free
    exact (servedSynced h coherent first).2 c other named (coherent.free c free named)

omit [DecidableEq P] in
theorem wakeChecking {p : Phase} (here : p.wake b = .checking c w) : p = .checking c w ∨ c = b ∧ p = .waiting c w := by
  cases p with
  | waiting c' w' =>
    unfold Phase.wake at here
    dsimp only at here
    split at here
    · rename_i same
      cases here
      exact .inr ⟨same, rfl⟩
    · cases here
  | asleep c' dev sector =>
    unfold Phase.wake at here
    dsimp only at here
    split at here <;> cases here
  | idle | getting | starting | checking => exact .inl here

theorem stepBack (h : Fits s) (coherent : Coherent s) (careful : Careful s a) (steps : Steps s a s' o) (j : P) (here : s'.phase j = .checking c w)
    (out : c ∉ s'.queue) : Synced s' c := by
  have holds : ∀ j c w, s.phase j = .checking c w → c ∈ s.held j := fun j c w here => by
    have stands := h.standing j
    rwa [here] at stands
  have turned : ∀ {i : P} {p : Phase}, update s.phase i p j = .checking c w → (∀ c w, p ≠ .checking c w) → j ≠ i ∧ s.phase j = .checking c w :=
    fun {i p} here other => by
      by_cases same : j = i
      · rw [same, update_self] at here
        exact absurd here (other c w)
      · rw [update_of_ne same] at here
        exact ⟨same, here⟩
  cases steps with
  | asks | waits | returns | again => exact coherent.back j c w (turned here nofun).2 out
  | starts => exact coherent.back j c w (turned here nofun).2 fun mem => out (List.mem_append_left _ mem)
  | @hits i b dev sector getting same free valid | @blank i b dev sector getting same free blank | @recycles i b dev sector getting absent free =>
    have before := (turned here nofun).2
    have other : c ≠ b := by
      rintro rfl
      exact h.nobody free j (holds j c w before)
    exact (takeSynced other).mpr (coherent.back j c w before out)
  | @stores i b x idle mine =>
    have other : c ≠ b := by
      rintro rfl
      rw [h.owned.alone j i c (holds j c w here) mine, idle] at here
      cases here
    unfold Synced
    dsimp only
    rw [update_of_ne other]
    exact coherent.back j c w here out
  | @writes i b idle mine => refine syncedPut (coherent.back j c w (turned here nofun).2 out) rfl rfl ?_ ?_ <;> rfl
  | @releases i b idle mine =>
    rcases wakeChecking here with before | ⟨same, before⟩
    · refine syncedPut (coherent.back j c w before out) rfl rfl ?_ ?_ <;> rfl
    · have mine' := h.standing j
      rw [before] at mine'
      subst same
      rw [h.owned.alone j i c mine' mine, idle] at before
      cases before
  | spurious empty =>
    rw [doneIdle h empty] at here out ⊢
    exact coherent.back j c w here out
  | @serves fine b rest first =>
    cases careful
    obtain ⟨synced, others⟩ := servedSynced h coherent first
    by_cases same : c = b
    · rwa [same]
    · dsimp only [served] at here out
      rw [donePhase] at here
      rcases wakeChecking here with before | ⟨bad, _⟩
      · refine others c same (h.used j c (holds j c w before)).1 (coherent.back j c w before fun mem => ?_)
        rw [first] at mem
        exact out ((List.mem_cons.mp mem).resolve_left same)
      · exact absurd bad same

theorem stepCoherent (h : Fits s) (coherent : Coherent s) (careful : Careful s a) (ok : step s a = .ok (s', o)) : Coherent s' := by
  have steps := stepSteps ok
  exact ⟨stepRanged coherent steps, stepAsked coherent careful steps, stepSynced h coherent careful steps,
    fun j c w here out => stepBack h coherent careful steps j here out⟩

omit [DecidableEq P] in
theorem bootCoherent (boot : Boot s) : Coherent s := by
  obtain ⟨buf, _, _, _, _, phase⟩ := boot
  refine ⟨fun b named => absurd (buf b).2.2.2 named, fun i dev sector asks => ?_, fun b _ named => absurd (buf b).2.2.2 named, fun i b w here => ?_⟩
  · rw [phase] at asks
    rcases asks with same | ⟨b, same⟩ <;> cases same
  · rw [phase] at here
    cases here

/-! ### The history -/

def Flying (p : Phase) (b : BufId) : Prop := p = .starting b true ∨ p = .waiting b true ∨ p = .checking b true

def InFlight (s : State P β) (at' : Addr) : Prop := ∃ i b, Flying (s.phase i) b ∧ (s.buf b).address = at'

def events (os : List (Output P β)) : List (Event Addr β) := os.filterMap (Option.map Prod.snd)

/-- What the history has left is on the disk, but for the blocks that are being written. -/
def Records (σ : Addr → β) (s : State P β) : Prop := ∀ at', σ at' = s.disk at' ∨ InFlight s at'

omit [DecidableEq P] in
theorem flyingWake {p : Phase} (h : Flying p b) (c : BufId) : Flying (p.wake c) b := by
  rcases h with rfl | rfl | rfl
  · exact .inl rfl
  · unfold Phase.wake
    dsimp only
    split
    · exact .inr (.inr rfl)
    · exact .inr (.inl rfl)
  · exact .inr (.inr rfl)

omit [DecidableEq P] in
theorem Fits.flying (h : Fits s) (flying : Flying (s.phase i) b) : b ∈ s.held i := by
  have stands := h.standing i
  rcases flying with here | here | here <;> rwa [here] at stands

omit [DecidableEq P] in
theorem landed (h : Fits s) (coherent : Coherent s) (named : (s.buf b).dev ≠ noDev) (nobody : ∀ i, b ∈ s.held i → ¬ Flying (s.phase i) b) :
    ¬ InFlight s (s.buf b).address := by
  rintro ⟨i, c, flying, address⟩
  have mine := h.flying flying
  obtain rfl := addressApart h coherent (h.used i c mine).1 named address
  exact nobody i mine flying

omit [DecidableEq P] in
theorem Records.keep {σ : Addr → β} (records : Records σ s) (disk : s'.disk = s.disk) (phase : ∀ i b, Flying (s.phase i) b → Flying (s'.phase i) b)
    (address : ∀ i b, Flying (s.phase i) b → (s'.buf b).address = (s.buf b).address) : Records σ s' := fun at' => by
  rw [disk]
  refine (records at').imp_right ?_
  rintro ⟨i, b, flying, same⟩
  exact ⟨i, b, phase i b flying, (address i b flying).trans same⟩

theorem flyingTurn {phase : P → Phase} {p : Phase} (same : ∀ b, Flying (phase i) b → Flying p b) (j : P) (b : BufId) (flying : Flying (phase j) b) :
    Flying (update phase i p j) b := by
  by_cases here : j = i
  · rw [here, update_self]
    rw [here] at flying
    exact same b flying
  · rwa [update_of_ne here]

omit [DecidableEq P] in
/-- The disk has changed where it was told to write, and who told it is still in `bwrite`. -/
theorem servedRecords {σ : Addr → β} {rest : List BufId} (h : Fits s) (first : s.queue = b :: rest) (records : Records σ s) :
    Records σ (served (done s) true b rest) := fun at' => by
  have queued : b ∈ s.queue := by
    rw [first]
    exact List.mem_cons_self
  have keeps : InFlight s at' → InFlight (served (done s) true b rest) at' := by
    rintro ⟨i, c, flying, same⟩
    refine ⟨i, c, ?_, ?_⟩
    · dsimp only [served]
      rw [donePhase]
      exact flyingWake flying b
    · dsimp only [served]
      rw [doneBuf, putSame Buf.address s.buf b (by rfl) c]
      exact same
  by_cases here : at' = (s.buf b).address ∧ (s.buf b).dirty = true
  · obtain ⟨i, mine⟩ := (h.owned.busy b).mp (h.busyQueue queued)
    obtain ⟨w, phase, pending⟩ := h.queued mine queued
    refine .inr (keeps ⟨i, b, ?_, here.1.symm⟩)
    cases w with
    | true => exact .inr phase
    | false => cases here.2.symm.trans pending.2
  · have same : (done s).disk at' = s.disk at' := by
      rw [doneDisk h first]
      split
      · rename_i dirty
        exact update_of_ne (fun bad => here ⟨bad, dirty⟩) _ _
      · rfl
    exact (records at').imp (fun last => last.trans same.symm) keeps

theorem stepRecords {σ : Addr → β} {es : List (Event Addr β)} (h : Fits s) (coherent : Coherent s) (careful : Careful s a) (legal : Legal σ es)
    (records : Records (content σ es) s) (steps : Steps s a s' o) :
    Legal σ (es ++ (o.map Prod.snd).toList) ∧ Records (content σ (es ++ (o.map Prod.snd).toList)) s' := by
  have quiet : o = none → Records (content σ es) s' → Legal σ (es ++ (o.map Prod.snd).toList) ∧ Records (content σ (es ++ (o.map Prod.snd).toList)) s' :=
    fun none records => by
      rw [none, Option.map_none, Option.toList_none, List.append_nil]
      exact ⟨legal, records⟩
  have grounded : ∀ {i : P} {p : Phase}, s.phase i = p → (∀ b, ¬ Flying p b) → ∀ {q : Phase} j b, Flying (s.phase j) b → Flying (update s.phase i q j) b :=
    fun here not q j b flying => flyingTurn (fun b bad => absurd (here ▸ bad) (not b)) j b flying
  cases steps with
  | @asks i dev sector idle =>
    refine quiet rfl (records.keep rfl (grounded idle ?_) fun j c _ => rfl)
    rintro b (bad | bad | bad) <;> cases bad
  | @waits i b dev sector getting same busy =>
    refine quiet rfl (records.keep rfl (grounded getting ?_) fun j c _ => rfl)
    rintro b (bad | bad | bad) <;> cases bad
  | @hits i b dev sector getting same free valid =>
    have named := h.named getting same.1
    have kept : Records (content σ es) ((s.take i b {s.buf b with busy := true}).turn i .idle) := by
      refine records.keep rfl (grounded getting ?_) fun j c _ => putSame Buf.address s.buf b (by rfl) c
      rintro b (bad | bad | bad) <;> cases bad
    have last : (s.buf b).data = content σ es (s.buf b).address := by
      rcases records (s.buf b).address with same | flight
      · exact (coherent.free b free named).trans same.symm
      · exact absurd flight (landed h coherent named fun j mine => absurd mine (h.nobody free j))
    refine ⟨legal.got last, ?_⟩
    change Records (content σ (es ++ [_])) _
    rw [contentGot]
    exact kept
  | @blank i b dev sector getting same free blank =>
    refine quiet rfl (records.keep rfl (grounded getting ?_) fun j c _ => putSame Buf.address s.buf b (by rfl) c)
    rintro b (bad | bad | bad) <;> cases bad
  | @recycles i b dev sector getting absent free =>
    refine quiet rfl (records.keep rfl (grounded getting ?_) fun j c flying => ?_)
    · rintro b (bad | bad | bad) <;> cases bad
    · have other : c ≠ b := by
        rintro rfl
        exact h.nobody free j (h.flying flying)
      dsimp only [State.turn, State.take]
      rw [update_of_ne other]
  | @stores i b x idle mine => exact quiet rfl (records.keep rfl (fun j c flying => flying) fun j c _ => putSame Buf.address s.buf b (by rfl) c)
  | @writes i b idle mine =>
    refine quiet rfl (records.keep rfl (grounded idle ?_) fun j c _ => putSame Buf.address s.buf b (by rfl) c)
    rintro b (bad | bad | bad) <;> cases bad
  | @releases i b idle mine =>
    exact quiet rfl (records.keep rfl (fun j c flying => flyingWake flying b) fun j c _ => putSame Buf.address s.buf b (by rfl) c)
  | @starts i b w starting pending =>
    refine quiet rfl (records.keep rfl (flyingTurn fun c flying => ?_) fun j c _ => rfl)
    rw [starting] at flying
    rcases flying with bad | bad | bad <;> cases bad
    exact .inr (.inl rfl)
  | @again i b w checking pending =>
    refine quiet rfl (records.keep rfl (flyingTurn fun c flying => ?_) fun j c _ => rfl)
    rw [checking] at flying
    rcases flying with bad | bad | bad <;> cases bad
    exact .inr (.inl rfl)
  | spurious empty =>
    refine quiet rfl ?_
    rwa [doneIdle h empty]
  | @serves fine b rest first =>
    cases careful
    exact quiet rfl (servedRecords h first records)
  | @returns i b w checking clean =>
    have mine := h.standing i
    rw [checking] at mine
    have synced : Synced s b := by
      refine coherent.back i b w checking fun queued => ?_
      obtain ⟨_, _, pending⟩ := h.queued mine queued
      exact pendingClean pending clean
    have other : ∀ j c, j ≠ i → Flying (s.phase j) c → Flying (update s.phase i .idle j) c := fun j c other flying => by rwa [update_of_ne other]
    cases w with
    | false =>
      have ground : ∀ c, ¬ Flying (s.phase i) c := by
        rw [checking]
        rintro c (bad | bad | bad) <;> cases bad
      have last : (s.buf b).data = content σ es (s.buf b).address := by
        rcases records (s.buf b).address with same | flight
        · exact synced.trans same.symm
        · refine absurd flight (landed h coherent (h.used i b mine).1 fun j mine' => ?_)
          rw [h.owned.alone j i b mine' mine]
          exact ground b
      refine ⟨legal.got last, ?_⟩
      change Records (content σ (es ++ [_])) _
      unfold returns
      rw [if_neg Bool.false_ne_true, contentGot]
      exact records.keep rfl (grounded rfl ground) fun j c _ => rfl
    | true =>
      refine ⟨legal.put _ _, ?_⟩
      change Records (content σ (es ++ [_])) _
      unfold returns
      rw [if_pos rfl, contentPut]
      intro at'
      by_cases here : at' = (s.buf b).address
      · rw [here, update_self]
        exact .inl synced
      · rw [update_of_ne here]
        refine (records at').imp_right ?_
        rintro ⟨j, c, flying, same⟩
        refine ⟨j, c, other j c ?_ flying, same⟩
        rintro rfl
        rw [checking] at flying
        rcases flying with bad | bad | bad <;> cases bad
        exact here same.symm

/-- Whatever `bread` returns is what the last `bwrite` of that block has returned with, or
what was on the disk at the start, and the disk has it too, but for the blocks that are being
written. -/
theorem cacheHistory {first : State P β} {acts : List (Act P β)} {os : List (Output P β)} (boot : Boot first) (passes : machine.Passes Careful first acts)
    (ran : machine.run first acts = .ok (s, os)) : Legal first.disk (events os) ∧ Records (content first.disk (events os)) s := by
  have run := Machine.passesHistory (P := fun s _ os => Fits s ∧ Coherent s ∧ Legal first.disk (events os) ∧ Records (content first.disk (events os)) s)
    (fun s _ os a s' o ⟨h, coherent, legal, records⟩ careful ok => by
      have next := stepRecords h coherent careful legal records (stepSteps ok)
      have more : events (os ++ [o]) = events os ++ (o.map Prod.snd).toList := by
        unfold events
        rw [List.filterMap_append]
        cases o <;> rfl
      rw [more]
      exact ⟨stepFits h (carefulNamed careful) ok, stepCoherent h coherent careful ok, next⟩)
    ⟨bootFits boot, bootCoherent boot, legalNil _, fun _ => .inl rfl⟩ passes ran
  exact run.2.2

def shares : List (Act (Bool) Nat) :=
  [.bread false 1 5, .go false, .go false, .intr true, .go false, .store false buf0 77, .bwrite false buf0, .go false, .intr true, .go false, .brelse false buf0, .bread true 1 5, .go true]

theorem cacheHistoryOne : Machine.Ends (machine.run boot shares) fun _ os =>
    events os = [.got (1, 5) 5, .put (1, 5) 77, .got (1, 5) 77] ∧ Legal boot.disk (events os) := by
  have run : Machine.Ends (machine.run boot shares) fun _ os => events os = [.got (1, 5) 5, .put (1, 5) 77, .got (1, 5) 77] := by decide +kernel
  have passes : machine.Passes Careful boot shares := by decide +kernel
  obtain ⟨s, os, ok, here⟩ := run.run
  have history := cacheHistory bootBoot passes ok
  rw [ok]
  exact ⟨here, history.1⟩

end OpSys.Bio
