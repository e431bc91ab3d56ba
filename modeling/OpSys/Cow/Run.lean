import OpSys.Cow.Boot

/-! Every run keeps the invariant, whichever way `fork` copies address spaces. -/
namespace OpSys.Cow
open OpSys.Xv6 OpSys.Transition

variable {L : Layout} {s s' : Sys} {i : Slot} {copy : Copier}

theorem syscallCases {body : Sys → Except Stop (Sys × Option Int)} {o : Out} (ok : syscall s i body = .ok (s', o)) :
    ((s.proc i).killed = true ∧ exit s i = .ok s' ∧ o = .exited) ∨
    ((s.proc i).killed = false ∧ ∃ mid r, body s = .ok (mid, r) ∧
      ((mid.proc i).killed = true ∧ exit mid i = .ok s' ∧ o = .exited ∨
        (mid.proc i).killed = false ∧ s' = mid ∧ o = .value r)) := by
  unfold syscall at ok
  split at ok
  · rename_i killed
    obtain ⟨mid, left, ok⟩ := bindOk ok
    cases ok
    exact .inl ⟨killed, left, rfl⟩
  · rename_i spared
    obtain ⟨⟨mid, r⟩, ran, ok⟩ := bindOk ok
    refine .inr ⟨by simpa using spared, mid, r, ran, ?_⟩
    dsimp only at ok
    split at ok
    · rename_i killed
      obtain ⟨last, left, ok⟩ := bindOk ok
      cases ok
      exact .inl ⟨killed, left, rfl⟩
    · rename_i alive
      cases ok
      exact .inr ⟨by simpa using alive, rfl, rfl⟩

theorem syscallInv {body : Sys → Except Stop (Sys × Option Int)} {o : Out} (h : Inv L s)
    (live : alive (s.proc i).state = true)
    (kept : ∀ mid r, body s = .ok (mid, r) → Inv L mid ∧ alive (mid.proc i).state = true)
    (ok : syscall s i body = .ok (s', o)) : Inv L s' := by
  rcases syscallCases ok with ⟨_, left, _⟩ | ⟨_, mid, r, ran, ⟨_, left, _⟩ | ⟨_, rfl, _⟩⟩
  · exact exitInv h live left
  · obtain ⟨inv, live'⟩ := kept mid r ran
    exact exitInv inv live' left
  · exact (kept _ r ran).1

theorem statusCases {x : Except Stop (Sys × Bool)} {r : Option Int} (ok : status x = .ok (s, r)) :
    ∃ b, x = .ok (s, b) := by
  unfold status at ok
  obtain ⟨⟨mid, b⟩, ran, last⟩ := bindOk ok
  cases last
  exact ⟨b, ran⟩

theorem countCases {x : Except Stop (Sys × Option Nat)} {r : Option Int} (ok : count x = .ok (s, r)) :
    ∃ b, x = .ok (s, b) := by
  unfold count at ok
  obtain ⟨⟨mid, b⟩, ran, last⟩ := bindOk ok
  cases last
  exact ⟨b, ran⟩

theorem actingCases {act : Except Stop (Sys × Out)} {o : Out} (ok : acting s i act = .ok (s', o)) :
    (s.proc i).state = .runnable ∧ act = .ok (s', o) := by
  unfold acting at ok
  split at ok
  · rename_i runs
    exact ⟨runs, ok⟩
  · cases ok

theorem timerCases {o : Out} (ok : step copy L s (.timer i) = .ok (s', o)) :
    (s.proc i).state = .runnable ∧ (exit s i = .ok s' ∨ s' = s) := by
  obtain ⟨runs, ok⟩ := actingCases ok
  split at ok
  · obtain ⟨mid, left, last⟩ := bindOk ok
    cases last
    exact ⟨runs, .inl left⟩
  · cases ok
    exact ⟨runs, .inr rfl⟩

theorem sysSbrkCases {n : Word} {r : Option Nat} (ok : sysSbrk L s i n = .ok (s', r)) :
    ∃ flag, growproc L s i n = .ok (s', flag) ∧ r = if flag then some (s.proc i).sz else none := by
  unfold sysSbrk at ok
  obtain ⟨⟨mid, flag⟩, ran, last⟩ := bindOk ok
  cases last
  exact ⟨flag, ran, rfl⟩

theorem userStepInv (spec : Copies copy) {op : UserOp} {o : Out} (h : Inv L s) (runs : (s.proc i).state = .runnable)
    (ok : userStep copy L s i op = .ok (s', o)) : Inv L s' := by
  have live : alive (s.proc i).state = true := by rw [runs]; rfl
  cases op with
  | fork =>
    unfold userStep at ok
    refine syscallInv h live (fun mid r ran => ?_) ok
    obtain ⟨table, same⟩ := forkCaller (aliveUsed live) ran
    exact ⟨forkInv spec h live ran, by rw [same]; exact live⟩
  | load a =>
    obtain ⟨⟨mid, b⟩, ran, last⟩ := bindOk ok
    cases last
    exact loadInv h runs ran
  | store a b =>
    obtain ⟨mid, ran, last⟩ := bindOk ok
    cases last
    exact storeInv h runs ran
  | sbrk n =>
    unfold userStep at ok
    refine syscallInv h live (fun mid r ran => ?_) ok
    obtain ⟨r', sbrk⟩ := countCases ran
    obtain ⟨flag, grew, _⟩ := sysSbrkCases sbrk
    obtain ⟨inv, _, state⟩ := growprocInv h live grew
    exact ⟨inv, by rw [state]; exact live⟩
  | exit =>
    obtain ⟨mid, ran, last⟩ := bindOk ok
    cases last
    exact exitInv h live ran
  | wait =>
    unfold userStep at ok
    refine syscallInv h live (fun mid r ran => ?_) ok
    obtain ⟨inv, others⟩ := waitInv h ran
    exact ⟨inv, by rw [others i (by rw [runs]; decide)]; exact live⟩

theorem killState (pid : Int) (live : alive (s.proc i).state = true) : alive ((kill s pid).1.proc i).state = true := by
  unfold kill
  cases slots.find? fun j => (s.proc j).pid = pid with
  | none => exact live
  | some j =>
    by_cases same : i = j
    · subst j
      rw [Sys.putSelf]
      dsimp only
      split
      · rfl
      · exact live
    · rw [Sys.putOther same]
      exact live

theorem stepInv (spec : Copies copy) {op : Op} {o : Out} (h : Inv L s) (ok : step copy L s op = .ok (s', o)) :
    Inv L s' := by
  have lift : ∀ {i : Slot}, alive (s.proc i).state = true → ∀ {mid : Sys}, Inv L mid ∧ mid.proc = s.proc →
      Inv L mid ∧ alive (mid.proc i).state = true := fun live _ kept => ⟨kept.1, by rw [kept.2]; exact live⟩
  cases op with
  | user i op =>
    obtain ⟨runs, ok⟩ := actingCases ok
    exact userStepInv spec h runs ok
  | exec i ip path argv stack =>
    obtain ⟨runs, ok⟩ := actingCases ok
    have live : alive (s.proc i).state = true := by rw [runs]; rfl
    refine syscallInv h live (fun mid r ran => ?_) ok
    obtain ⟨b, ran⟩ := statusCases ran
    split at ran
    · cases ran
      exact ⟨h, live⟩
    · obtain ⟨inv, state⟩ := execInv h live ran
      exact ⟨inv, by rw [state]; exact live⟩
  | kill i pid =>
    obtain ⟨runs, ok⟩ := actingCases ok
    have live : alive (s.proc i).state = true := by rw [runs]; rfl
    refine syscallInv h live (fun mid r ran => ?_) ok
    obtain ⟨b, ran⟩ := statusCases ran
    obtain rfl : (kill s pid).1 = mid := congrArg Prod.fst (Except.ok.inj ran)
    exact ⟨killInv h pid, killState pid live⟩
  | timer i =>
    obtain ⟨runs, left | rfl⟩ := timerCases ok
    · exact exitInv h (by rw [runs]; rfl) left
    · exact h
  | read i file addr n =>
    obtain ⟨runs, ok⟩ := actingCases ok
    have live : alive (s.proc i).state = true := by rw [runs]; rfl
    refine syscallInv h live (fun mid r ran => ?_) ok
    obtain ⟨b, ran⟩ := countCases ran
    exact lift live (sysReadInv h live ran)
  | fstat i ip st =>
    obtain ⟨runs, ok⟩ := actingCases ok
    have live : alive (s.proc i).state = true := by rw [runs]; rfl
    refine syscallInv h live (fun mid r ran => ?_) ok
    obtain ⟨b, ran⟩ := statusCases ran
    exact lift live (sysFstatInv h live ran)
  | pipe i fd files fds =>
    obtain ⟨runs, ok⟩ := actingCases ok
    have live : alive (s.proc i).state = true := by rw [runs]; rfl
    refine syscallInv h live (fun mid r ran => ?_) ok
    obtain ⟨b, ran⟩ := statusCases ran
    exact lift live (sysPipeInv h live ran)
  | write i m addr n =>
    obtain ⟨runs, ok⟩ := actingCases ok
    have live : alive (s.proc i).state = true := by rw [runs]; rfl
    refine syscallInv h live (fun mid r ran => ?_) ok
    obtain ⟨b, ran⟩ := countCases ran
    exact lift live (sysWriteInv h ran)
  | close m writable =>
    obtain ⟨mid, ran, last⟩ := bindOk ok
    cases last
    exact (h.repiped (pipecloseRepiped ran)).1

theorem reachInv (spec : Copies copy) (h : (machine copy L).Reachable s) : Inv L s := by
  refine Machine.Reach.invariant (P := Inv L) (fun s first => ?_) (fun s op s' o inv _ ok => ?_) h
  · have booted : boot L = .ok s := first
    exact bootInv booted
  · have ran : step copy L s op = .ok (s', o) := ok
    exact stepInv spec inv ran

end OpSys.Cow
