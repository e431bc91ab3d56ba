/-! Programs that leave a trace of what they do, and may stop. What has been done stays in
the trace of a run that stops. -/
namespace OpSys.Traced

structure Run (τ ε α : Type) where
  trace : List τ
  result : Except ε α

variable {τ ε α β : Type}

instance : Monad (Run τ ε) where
  pure a := ⟨[], .ok a⟩
  bind x f := match x.result with
    | .ok a => ⟨x.trace ++ (f a).trace, (f a).result⟩
    | .error e => ⟨x.trace, .error e⟩

def leave (t : τ) : Run τ ε Unit := ⟨[t], .ok ()⟩

def lift (x : Except ε α) : Run τ ε α := ⟨[], x⟩

def stop (e : ε) : Run τ ε α := lift (.error e)

instance : LawfulMonad (Run τ ε) := LawfulMonad.mk' _
  (fun x => by
    obtain ⟨ts, r⟩ := x
    cases r with
    | error e => rfl
    | ok a => exact congrArg (Run.mk · (.ok a)) (List.append_nil ts))
  (fun _ _ => rfl)
  (fun x f g => by
    obtain ⟨ts, r⟩ := x
    cases r with
    | error e => rfl
    | ok a =>
      change (Run.mk (ts ++ (f a).trace) (f a).result >>= g) = ⟨ts ++ (f a >>= g).trace, (f a >>= g).result⟩
      obtain ⟨us, r⟩ := f a
      cases r with
      | error e => rfl
      | ok b => exact congrArg (Run.mk · (g b).result) (List.append_assoc ts us _))

variable {x : Run τ ε α} {f : α → Run τ ε β} {a : α} {b : β} {e : ε} {t : τ} {ts us : List τ}

theorem pureRun (a : α) : (pure a : Run τ ε α) = ⟨[], .ok a⟩ := rfl

theorem bindOk : ((⟨ts, .ok a⟩ : Run τ ε α) >>= f) = ⟨ts ++ (f a).trace, (f a).result⟩ := rfl

theorem leaveBind {f : Unit → Run τ ε β} : (leave t >>= f) = ⟨t :: (f ()).trace, (f ()).result⟩ := rfl

theorem liftBind : (lift (.ok a) >>= f) = f a := rfl

/-- Without the trace a run is a program in `Except`. -/
theorem bindResult (x : Run τ ε α) (f : α → Run τ ε β) : (x >>= f).result = x.result >>= fun a => (f a).result := by
  obtain ⟨ts, r⟩ := x
  cases r <;> rfl

theorem bindTrace (ok : x.result = .ok a) : (x >>= f).trace = x.trace ++ (f a).trace := by
  obtain ⟨ts, r⟩ := x
  cases ok
  rfl

theorem bindDone (ok : (x >>= f).result = .ok b) : ∃ a, x.result = .ok a ∧ (f a).result = .ok b ∧ (x >>= f).trace = x.trace ++ (f a).trace := by
  obtain ⟨ts, r⟩ := x
  cases r with
  | error e => cases ok
  | ok a => exact ⟨a, rfl, ok, rfl⟩

theorem liftDone {x : Except ε α} (ok : (lift x >>= f).result = .ok b) : ∃ a, x = .ok a ∧ (lift x >>= f) = f a ∧ (f a).result = .ok b := by
  cases x with
  | error e => cases ok
  | ok a => exact ⟨a, rfl, rfl, ok⟩

/-- What holds of the trace of each part holds of the whole. -/
theorem bindAll {P : τ → Prop} (first : ∀ t ∈ x.trace, P t) (next : ∀ a, x.result = .ok a → ∀ t ∈ (f a).trace, P t) :
    ∀ t ∈ (x >>= f).trace, P t := by
  obtain ⟨ts, r⟩ := x
  cases r with
  | error e => exact first
  | ok a =>
    intro t mem
    rcases List.mem_append.mp mem with mem | mem
    · exact first t mem
    · exact next a rfl t mem

end OpSys.Traced
