import OpSys.Cow.Run

/-! What one step can make of each process's address space. Invariants of single
processes are proved from these cases alone. -/
namespace OpSys.Cow
open OpSys.Xv6 OpSys.Transition

variable {L : Layout} {s s' mid : Sys} {i j : Slot} {op : Op} {p q : Proc} {o : Out}

inductive Changed (L : Layout) (s : Sys) (op : Op) (j : Slot) (p : Proc) : Prop where
  | gone (dead : alive p.state = false)
  | kept (live : alive p.state = true → alive (s.proc j).state = true) (pgdir : p.pgdir = (s.proc j).pgdir)
      (sz : p.sz = (s.proc j).sz)
  | parent {k₁ k₂ d d₂ c} (act : op = .user j .fork) (was : alive (s.proc j).state = true) (run : Runs (s.proc j) d) (copied : Copied L k₁ d (s.proc j).sz k₂ d₂ c)
      (flushed : d₂.stale = []) (pages : SamePages d d₂) (pgdir : p.pgdir = some d₂) (sz : p.sz = (s.proc j).sz)
  | child {m k₁ k₂ d d₂ c} (act : op = .user m .fork) (was : alive (s.proc m).state = true) (run : Runs (s.proc m) d)
      (copied : Copied L k₁ d p.sz k₂ d₂ c) (flushed : c.stale = []) (pages : SamePages d c) (pgdir : p.pgdir = some c)
  | resized {n k₁ d d₁ sz flag} (act : op = .user j (.sbrk n)) (was : alive (s.proc j).state = true) (run : Runs (s.proc j) d)
      (spec : Resized L s.k d (s.proc j).sz n k₁ d₁ sz flag) (pgdir : p.pgdir = some d₁) (size : p.sz = sz)
  | loaded {c} (image : Image c p.sz) (pgdir : p.pgdir = some (lcr3 c))
  | resolved {v k₁ d d₁} (was : alive (s.proc j).state = true) (run : Runs (s.proc j) d) (user : userOn (d.pte v) = true)
      (resolved : Resolved L s.k d v k₁ d₁) (pgdir : p.pgdir = some d₁) (sz : p.sz = (s.proc j).sz)

theorem Changed.update (h : Changed L s op j p) (state : q.state = p.state) (pgdir : q.pgdir = p.pgdir) (sz : q.sz = p.sz) :
    Changed L s op j q := by
  cases h with
  | gone dead => exact .gone (by rwa [state])
  | kept live table size => exact .kept (by rwa [state]) (pgdir.trans table) (sz.trans size)
  | parent act was run copied flushed pages after size =>
    exact .parent act was run copied flushed pages (pgdir.trans after) (sz.trans size)
  | child act was run copied flushed pages after => exact .child act was run (by rwa [sz]) flushed pages (pgdir.trans after)
  | resized act was run spec after size => exact .resized act was run spec (pgdir.trans after) (sz.trans size)
  | loaded image after => exact .loaded (by rwa [sz]) (pgdir.trans after)
  | resolved was run user resolved after size => exact .resolved was run user resolved (pgdir.trans after) (sz.trans size)

theorem Changed.same (proc : s'.proc j = s.proc j) : Changed L s op j (s'.proc j) :=
  .kept (by rw [proc]; exact id) (by rw [proc]) (by rw [proc])

theorem exitChanged (h : ∀ j, j ≠ i → Changed L s op j (mid.proc j)) (ok : exit mid i = .ok s') (j : Slot) :
    Changed L s op j (s'.proc j) := by
  obtain ⟨_, _, _, _, _, _, slots⟩ := exitCases ok
  obtain ⟨pgdir, _, _, sz, state⟩ := slots j
  by_cases same : j = i
  · rw [if_pos same] at state
    exact .gone (by rw [state]; rfl)
  · rw [if_neg same] at state
    exact (h j same).update state pgdir sz

theorem syscallChanged {body : Sys → Except Stop (Sys × Option Int)}
    (changed : ∀ mid r, body s = .ok (mid, r) → ∀ j, Changed L s op j (mid.proc j))
    (ok : syscall s i body = .ok (s', o)) (j : Slot) : Changed L s op j (s'.proc j) := by
  rcases syscallCases ok with ⟨_, left, _⟩ | ⟨_, mid, r, ran, ⟨_, left, _⟩ | ⟨_, rfl, _⟩⟩
  · exact exitChanged (fun j _ => .same rfl) left j
  · exact exitChanged (fun j _ => changed mid r ran j) left j
  · exact changed s' r ran j

theorem accessChanged {a : Nat} {write : Bool} {r : Option Nat} (inv : Inv L s) (runs : (s.proc i).state = .runnable)
    (ok : userAccess s i a write = .ok (s', r)) (j : Slot) : Changed L s op j (s'.proc j) := by
  obtain ⟨d, run⟩ := (inv.sound i).runs (by rw [runs]; rfl)
  rcases userAccessCases inv runs run ok with ⟨rfl, _⟩ | ⟨k', d', rfl, _, _, user, _, resolved⟩ | ⟨_, _, mid, left, cause⟩
  · exact .same rfl
  · by_cases same : j = i
    · subst j
      exact .resolved (by rw [runs]; rfl) run user resolved (by rw [Sys.putSelf]) (by rw [Sys.putSelf])
    · exact .same (Sys.putOther same)
  · refine exitChanged (fun j other => .same ?_) left j
    rcases cause with rfl | ⟨k', d', rfl, _⟩ | ⟨rfl, _⟩
    · exact Sys.putOther other
    · exact Sys.putOther other
    · exact Sys.putOther other

theorem forkChanged {r : Option Int} (act : op = .user i .fork) (inv : Inv L s) (runs : (s.proc i).state = .runnable)
    (ok : fork cowuvm L s i = .ok (s', r)) (j : Slot) : Changed L s op j (s'.proc j) := by
  have live : alive (s.proc i).state = true := by rw [runs]; rfl
  have slots : ∀ {o : Option Slot} {s₁ : Sys}, allocproc s = (o, s₁) → (∀ l, o ≠ some l → (s₁.proc l).state = .unused ∨
      s₁.proc l = s.proc l) := by
    intro o s₁ alloc l out
    rcases allocprocCases alloc with ⟨_, rfl, _⟩ | ⟨m, k, _, ⟨_, _, rfl⟩ | ⟨f, _, rfl, rfl⟩⟩
    · exact .inr rfl
    · by_cases same : l = m
      · subst l
        exact .inl (by rw [claimSelf]; rfl)
      · exact .inr (claimOther same)
    · exact .inr (claimOther fun same => out (by rw [same]))
  have left : ∀ {o : Option Slot} {s₁ : Sys}, allocproc s = (o, s₁) → ∀ l, o ≠ some l → Changed L s op l (s₁.proc l) := by
    intro o s₁ alloc l out
    rcases slots alloc l out with unused | same
    · exact .gone (by rw [unused]; rfl)
    · exact .same same
  cases forkCases ok with
  | noSlot alloc => exact left alloc j (by simp)
  | @noMemory s₁ m f d k₁ d₁ k₂ alloc table stack copied freed =>
    obtain ⟨mid, same, run, _⟩ := allocprocCaller inv live alloc table
    have kept : d₁ = d := (cowuvmSpec run.top run.good copied).same
    by_cases child : j = m
    · subst j
      exact .gone (by rw [Sys.putSelf]; rfl)
    · rw [Sys.putOther child]
      by_cases caller : j = i
      · subst j
        rw [Sys.putSelf, kept, same]
        exact .kept id (by rw [← table, same]) rfl
      · rw [Sys.putOther caller]
        exact left alloc j (by simpa using fun eq : m = j => child eq.symm)
  | @made s₁ m f d k₁ d₁ c alloc table stack copied =>
    obtain ⟨mid, same, run, _⟩ := allocprocCaller inv live alloc table
    have spec : Copied L s₁.k d (s₁.proc i).sz k₁ d₁ c := cowuvmSpec run.top run.good copied
    obtain ⟨flushed, fresh⟩ := cowuvmFlushed run.top run.good copied
    obtain ⟨pages, pages'⟩ := cowuvmPages run.top run.good copied
    rw [same] at run spec
    by_cases child : j = m
    · subst j
      rw [Sys.putSelf]
      refine .child act live run (?_ : Copied L s₁.k d _ k₁ d₁ c) fresh pages' rfl
      unfold forked
      rw [Sys.putSelf, same]
      exact spec
    · rw [Sys.putOther child]
      by_cases caller : j = i
      · subst j
        rw [Sys.putSelf, same]
        exact .parent act live run spec flushed pages rfl rfl
      · rw [Sys.putOther caller]
        exact left alloc j (by simpa using fun eq : m = j => child eq.symm)

theorem execChanged {ip : Option Inode} {path : List UInt8} {argv : List (List UInt8)} {stack : List UInt8} {b : Bool}
    (inv : Inv L s) (ok : exec L s i ip path argv stack = .ok (s', b)) (j : Slot) : Changed L s op j (s'.proc j) := by
  obtain ⟨lost, holds, _⟩ := inv.accounts
  have put : ∀ {k}, Changed L s op j ((s.put i k (s.proc i)).proc j) := by
    intro k
    by_cases same : j = i
    · subst j
      exact .same Sys.putSelf
    · exact .same (Sys.putOther same)
  cases execCases holds ok with
  | noFile => exact .same rfl
  | noTable => exact put
  | bad => exact put
  | loaded _ _ image _ =>
    by_cases same : j = i
    · subst j
      exact .loaded (by rw [Sys.putSelf]; exact image) (by rw [Sys.putSelf])
    · exact .same (Sys.putOther same)

theorem killChanged (pid : Int) (j : Slot) : Changed L s op j ((kill s pid).1.proc j) := by
  unfold kill
  cases slots.find? fun l => (s.proc l).pid = pid with
  | none => exact .same rfl
  | some l =>
    by_cases same : j = l
    · subst j
      rw [Sys.putSelf]
      refine .kept (fun live => ?_) rfl rfl
      dsimp only at live
      split at live
      · rename_i sleeps
        rw [sleeps]
        rfl
      · exact live
    · exact .same (Sys.putOther same)

theorem userStepChanged {act : UserOp} (inv : Inv L s) (runs : (s.proc i).state = .runnable)
    (ok : userStep cowuvm L s i act = .ok (s', o)) (j : Slot) : Changed L s (.user i act) j (s'.proc j) := by
  cases act with
  | fork =>
    unfold userStep at ok
    exact syscallChanged (fun mid r ran => forkChanged rfl inv runs ran) ok j
  | load a =>
    obtain ⟨⟨mid, b⟩, ran, last⟩ := bindOk ok
    cases last
    unfold load at ran
    obtain ⟨⟨s₁, r⟩, access, ran⟩ := bindOk ran
    cases r <;> cases ran <;> exact accessChanged inv runs access j
  | store a b =>
    obtain ⟨mid, ran, last⟩ := bindOk ok
    cases last
    unfold store at ran
    obtain ⟨⟨s₁, r⟩, access, ran⟩ := bindOk ran
    cases r <;> cases ran <;> exact accessChanged inv runs access j
  | sbrk n =>
    unfold userStep at ok
    refine syscallChanged (fun mid r ran l => ?_) ok j
    obtain ⟨r', sbrk⟩ := countCases ran
    obtain ⟨flag, grew, _⟩ := sysSbrkCases sbrk
    have live : alive (s.proc i).state = true := by rw [runs]; rfl
    obtain ⟨d, run⟩ := (inv.sound i).runs live
    obtain ⟨K, U, before⟩ := inv.table (.inl live) run.pgdir
    obtain ⟨k', d', sz', rfl, spec⟩ := growprocCases run before grew
    by_cases same : l = i
    · subst l
      exact .resized rfl live run spec (by rw [Sys.putSelf]) (by rw [Sys.putSelf])
    · exact .same (Sys.putOther same)
  | exit =>
    obtain ⟨mid, ran, last⟩ := bindOk ok
    cases last
    exact exitChanged (fun j _ => .same rfl) ran j
  | wait =>
    unfold userStep at ok
    refine syscallChanged (fun mid r ran l => ?_) ok j
    rcases waitCases ran with ⟨rfl, _⟩ | ⟨m, k₁, k', _, _, _, _, rfl, _⟩
    · exact .same rfl
    · by_cases same : l = m
      · subst l
        exact .gone (by rw [Sys.putSelf]; rfl)
      · exact .same (Sys.putOther same)

theorem stepChanged (inv : Inv L s) (ok : step cowuvm L s op = .ok (s', o)) (j : Slot) : Changed L s op j (s'.proc j) := by
  have lift : ∀ {mid : Sys}, Inv L mid ∧ mid.proc = s.proc → ∀ l, Changed L s op l (mid.proc l) :=
    fun kept l => .same (congrFun kept.2 l)
  cases op with
  | user i act =>
    obtain ⟨runs, ok⟩ := actingCases ok
    exact userStepChanged inv runs ok j
  | exec i ip path argv stack =>
    obtain ⟨runs, ok⟩ := actingCases ok
    refine syscallChanged (fun mid r ran l => ?_) ok j
    obtain ⟨b, ran⟩ := statusCases ran
    split at ran
    · cases ran
      exact .same rfl
    · exact execChanged inv ran l
  | kill i pid =>
    obtain ⟨runs, ok⟩ := actingCases ok
    refine syscallChanged (fun mid r ran l => ?_) ok j
    obtain ⟨b, ran⟩ := statusCases ran
    obtain rfl : (kill s pid).1 = mid := congrArg Prod.fst (Except.ok.inj ran)
    exact killChanged pid l
  | timer i =>
    obtain ⟨_, left | rfl⟩ := timerCases ok
    · exact exitChanged (fun j _ => .same rfl) left j
    · exact .same rfl
  | read i file addr n =>
    obtain ⟨runs, ok⟩ := actingCases ok
    refine syscallChanged (fun mid r ran => ?_) ok j
    obtain ⟨b, ran⟩ := countCases ran
    exact lift (sysReadInv inv (by rw [runs]; rfl) ran)
  | fstat i ip st =>
    obtain ⟨runs, ok⟩ := actingCases ok
    refine syscallChanged (fun mid r ran => ?_) ok j
    obtain ⟨b, ran⟩ := statusCases ran
    exact lift (sysFstatInv inv (by rw [runs]; rfl) ran)
  | pipe i fd files fds =>
    obtain ⟨runs, ok⟩ := actingCases ok
    refine syscallChanged (fun mid r ran => ?_) ok j
    obtain ⟨b, ran⟩ := statusCases ran
    exact lift (sysPipeInv inv (by rw [runs]; rfl) ran)
  | write i m addr n =>
    obtain ⟨runs, ok⟩ := actingCases ok
    refine syscallChanged (fun mid r ran => ?_) ok j
    obtain ⟨b, ran⟩ := countCases ran
    exact lift (sysWriteInv inv ran)
  | close m writable =>
    obtain ⟨mid, ran, last⟩ := bindOk ok
    cases last
    exact lift (inv.repiped (pipecloseRepiped ran)) j

end OpSys.Cow
