import OpSys.Kernel.Runs

/-! A file stays what it is while somebody uses it. What is open for writing is no directory. -/
namespace OpSys.Sysfile
open Function OpSys.Bytes OpSys.Transition OpSys.Scripts OpSys.Fs OpSys.Hierarchy

variable {sb : Superblock} {devsw : Devsw} {x mid x' : (Nat → Block) × List Nat} {a b c space : Space} {users : List Nat} {i j ip dp cwd : Nat} {path : List UInt8}
  {names : Name → Option Nat} {name : Name} {type major minor : UInt16} {omode : UInt32}

/-- Files may come, but none goes or turns into something else. -/
def Grows (a b : Space) : Prop := ∀ i, a i ≠ none → b i ≠ none ∧ isDir b i = isDir a i

/-- What is still there is what it was. -/
def Alike (a b : Space) : Prop := ∀ i, a i ≠ none → b i ≠ none → isDir b i = isDir a i

theorem Grows.refl (a : Space) : Grows a a := fun _ some => ⟨some, rfl⟩

theorem Grows.trans (h : Grows a b) (h' : Grows b c) : Grows a c := by
  intro i some
  obtain ⟨next, same⟩ := h i some
  obtain ⟨last, same'⟩ := h' i next
  exact ⟨last, same'.trans same⟩

theorem Grows.alike (h : Grows a b) : Alike a b := fun i some _ => (h i some).2

theorem Grows.dir (h : Grows a b) (dir : isDir a i = true) : isDir b i = true := by
  have some : a i ≠ none := fun none => by simp [isDir, none] at dir
  exact (h i some).2.trans dir

theorem isDirAt (here : space dp = some (.dir names)) : isDir space dp = true := by simp [isDir, here]

theorem growsDir (fits : isDir a i = true ∨ a i = none) (names : Name → Option Nat) : Grows a (update a i (some (.dir names))) := by
  intro j some
  by_cases same : j = i
  · rw [same] at some ⊢
    have dir := fits.resolve_right some
    rw [dir]
    simp [isDir]
  · simp [isDir, update_of_ne same, some]

theorem growsFile (leaf : isDir a i = false) (type major minor : UInt16) (bytes : List UInt8) : Grows a (update a i (some (.file type major minor bytes))) := by
  intro j some
  by_cases same : j = i
  · rw [same] at some ⊢
    rw [leaf]
    simp [isDir]
  · simp [isDir, update_of_ne same, some]

theorem growsEnter (dir : isDir a dp = true) (names : Name → Option Nat) (name : Name) (o : Option Nat) : Grows a (enter a dp names name o) := growsDir (.inl dir) _

theorem Grows.sweep (h : Grows a b) (users : List Nat) (i : Nat) : Alike a (sweep b users i) := by
  intro j some still
  unfold Sysfile.sweep at still ⊢
  split at still
  · rename_i kept
    rw [if_pos kept]
    exact (h j some).2
  · rename_i gone
    have other : j ≠ i := fun same => still (by rw [same, update_self])
    rw [if_neg gone]
    simpa [isDir, update_of_ne other] using (h j some).2

theorem linkGrows (space : Space) (old new : List UInt8) (cwd : Nat) : Grows space (linkSpace space old new cwd).1 := by
  unfold linkSpace linkInto
  split
  · exact .refl _
  · split
    · exact .refl _
    · split
      · exact .refl _
      · split
        · rename_i here
          split
          · exact growsEnter (isDirAt here) _ _ _
          · exact .refl _
        · exact .refl _

theorem unlinkAlike (space : Space) (users : List Nat) (path : List UInt8) (cwd : Nat) : Alike space (unlinkSpace space users path cwd).1 := by
  unfold unlinkSpace
  split
  · exact (Grows.refl _).alike
  · split
    · exact (Grows.refl _).alike
    · split
      · rename_i here
        have entered := growsEnter (isDirAt here)
        split
        · exact (Grows.refl _).alike
        · split
          · exact (Grows.refl _).alike
          · split
            · rename_i dir
              exact ((entered _ _ none).trans (growsDir (.inl ((entered _ _ none).dir dir)) _)).sweep users _
            · exact (entered _ _ none).sweep users _
      · exact (Grows.refl _).alike

theorem freshNone (free : ∃ i, 0 < i ∧ space i = none) : space (fresh space) = none := by
  unfold fresh
  rw [dif_pos free]
  exact (Nat.find_spec free).2

theorem createGrows (free : ∃ i, 0 < i ∧ space i = none) (made : createSpace space path type major minor cwd = some (b, i)) : Grows space b := by
  have none := freshNone free
  have bare : isDir space (fresh space) = false := by simp [isDir, none]
  unfold createSpace at made
  split at made
  · cases made
  · split at made
    · rename_i here
      have dir := isDirAt here
      split at made
      · split at made
        · split at made
          · cases made
            exact .refl _
          · cases made
        · cases made
      · unfold madeSpace at made
        split at made
        · cases made
          exact (growsDir (.inr none) _).trans (growsEnter ((growsDir (.inr none) _).dir dir) _ _ _)
        · cases made
          have first := growsFile bare type major minor []
          exact first.trans (growsEnter (first.dir dir) _ _ _)
    · cases made

theorem openGrows (free : ∃ i, 0 < i ∧ space i = none) (found : openSpace space path omode cwd = some (b, i)) : Grows space b := by
  unfold openSpace at found
  split at found
  · exact createGrows free found
  · split at found
    · cases found
    · split at found
      · cases found
      · cases found
        exact .refl _

/-- No call makes a directory of a file, or a file of a directory. -/
theorem serveAlike {t : Space × List Nat} (free : ∃ i, 0 < i ∧ t.1 i = none) (c : Call) : Alike t.1 (serve t c).1.1 := by
  have idle := (Grows.refl t.1).alike
  cases c with
  | link old new cwd => exact (linkGrows t.1 old new cwd).alike
  | unlink path cwd => exact unlinkAlike t.1 t.2 path cwd
  | openFile path omode room cwd =>
    simp only [serve]
    split
    · exact idle
    · rename_i found
      split <;> exact (openGrows free found).alike
  | mkdir path cwd =>
    simp only [serve]
    split
    · exact idle
    · rename_i made
      exact (createGrows free made).alike
  | mknod path major minor cwd =>
    simp only [serve]
    split
    · exact idle
    · rename_i made
      exact (createGrows free made).alike
  | chdir path cwd =>
    simp only [serve]
    split
    · exact idle
    · split
      · exact (Grows.refl t.1).sweep _ _
      · exact idle
  | fork cwd => exact idle
  | exit ip => exact (Grows.refl t.1).sweep _ _
  | close ip => exact (Grows.refl t.1).sweep _ _
  | read ip off n =>
    simp only [serve]
    split <;> exact idle
  | write ip off src =>
    simp only [serve]
    split
    · rename_i here
      exact (growsFile (by simp [isDir, here]) _ _ _ _).alike
    · exact idle

/-- Who can write has not opened a directory. -/
theorem openWritable (free : ∃ i, 0 < i ∧ space i = none) (writes : omode &&& O_WRONLY ≠ 0 ∨ omode &&& O_RDWR ≠ 0)
    (found : openSpace space path omode cwd = some (b, i)) : isDir b i = false := by
  unfold openSpace at found
  split at found
  · unfold createSpace at found
    split at found
    · cases found
    · split at found
      · rename_i here
        split at found
        · split at found
          · rename_i there
            split at found
            · cases found
              simp [isDir, there]
            · cases found
          · cases found
        · unfold madeSpace at found
          rw [if_neg (by decide)] at found
          cases found
          have apart : fresh space ≠ _ := fun same => by
            have none := freshNone free
            rw [same, here] at none
            cases none
          simp [isDir, enter, update_of_ne apart]
      · cases found
  · split at found
    · cases found
    · split at found
      · cases found
      · rename_i plain
        cases found
        have some : omode ≠ O_RDONLY := by
          rintro rfl
          exact absurd writes (by decide)
        simpa [some] using plain

theorem Sane.free (sane : Sane sb x) : ∃ i, 0 < i ∧ (spaceOn sb x).1 i = none := by
  have graph := sane.tree.graph
  have top := graph.top.range graph
  refine ⟨sb.ninodes, by omega, spaceNone ?_⟩
  by_contra some
  obtain ⟨f, here⟩ := Option.ne_none_iff_exists'.mp some
  exact absurd (graph.range _ f here).2 (lt_irrefl _)

theorem Sane.used (sane : Sane sb x) (held : i ∈ x.2) : (spaceOn sb x).1 i ≠ none := by
  obtain ⟨f, here⟩ := sane.tree.held i held
  have some : (spaceOn sb x).1 i = some (node f) := spaceAt here
  simp [some]

theorem stepKind (mild : Mild sb) (sane : Sane sb x) {c : Call} (fair : FairOn sb devsw x c) {r : Reply} (ok : (system (Fs.machine sb devsw)).step x c = .ok (x', r)) :
    Sane sb x' ∧ (spaceOn sb x', r) = serve (spaceOn sb x) c := by
  rcases systemStep mild devsw sane fair with ⟨_, _, ok', sane', same⟩ | ⟨e, stop, _⟩
  · cases ok.symm.trans ok'
    exact ⟨sane', same⟩
  · cases ok.symm.trans stop

theorem kindStays (mild : Mild sb) (sane : Sane sb x) {calls : List Call} (fair : (system (Fs.machine sb devsw)).Passes (fun y c => FairOn sb devsw y c ∧ ip ∈ y.2) x calls)
    {rs : List Reply} (ran : (system (Fs.machine sb devsw)).run x calls = .ok (x', rs)) (before : ip ∈ x.2) (after : ip ∈ x'.2) :
    Sane sb x' ∧ isDir (spaceOn sb x').1 ip = isDir (spaceOn sb x).1 ip := by
  induction calls generalizing x rs with
  | nil =>
    cases ran
    exact ⟨sane, rfl⟩
  | cons c rest ih =>
    obtain ⟨mid, r, rs', ok, later, _⟩ := Machine.runCons ran
    obtain ⟨sane', same⟩ := stepKind mild sane fair.1.1 ok
    -- it is in use at the next call, or the run ends here
    have held : ip ∈ mid.2 := by
      cases rest with
      | nil =>
        cases later
        exact after
      | cons d _ => exact (fair.2 mid r ok).1.2
    obtain ⟨last, kind⟩ := ih sane' (fair.2 mid r ok) later held
    have alike := serveAlike sane.free c ip (sane.used before)
    rw [← same] at alike
    exact ⟨last, kind.trans (alike (sane'.used held))⟩

/-- As long as a file that was opened for writing is in use, it is no directory. -/
theorem writableNoDir (mild : Mild sb) (reach : ((system (Fs.machine sb devsw)).within (Sane sb)).Reach (FairOn sb devsw) x) {room : Bool}
    (fair : FairOn sb devsw x (.openFile path omode room cwd))
    (opened : (system (Fs.machine sb devsw)).step x (.openFile path omode room cwd) = .ok (mid, .opened (some (ip, true)))) {calls : List Call}
    (fair' : (system (Fs.machine sb devsw)).Passes (fun y c => FairOn sb devsw y c ∧ ip ∈ y.2) mid calls) {rs : List Reply}
    (ran : (system (Fs.machine sb devsw)).run mid calls = .ok (x', rs)) (used : ip ∈ x'.2) : ∃ f, files sb x'.1 ip = some f ∧ f.type ≠ T_DIR := by
  have sane := reachSane mild reach
  obtain ⟨sane', same⟩ := stepKind mild sane (c := .openFile path omode room cwd) fair opened
  have plain : ip ∈ mid.2 ∧ isDir (spaceOn sb mid).1 ip = false := by
    simp only [serve] at same
    split at same
    · exact absurd (congrArg Prod.snd same) (by simp)
    · rename_i b i found
      split at same
      · simp only [Prod.mk.injEq, Reply.opened.injEq, Option.some.injEq] at same
        obtain ⟨here, rfl, writes⟩ := same
        have after := openWritable sane.free (of_decide_eq_true writes.symm) found
        have one : (spaceOn sb mid).1 = b ∧ mid.2 = ip :: (spaceOn sb x).2 := ⟨congrArg Prod.fst here, congrArg Prod.snd here⟩
        rw [one.1, one.2]
        exact ⟨List.mem_cons_self, after⟩
      · exact absurd (congrArg Prod.snd same) (by simp)
  obtain ⟨last, kind⟩ := kindStays mild sane' fair' ran plain.1 used
  obtain ⟨f, here⟩ := last.tree.held ip used
  have leaf := (spaceIsDir here).symm.trans (kind.trans plain.2)
  exact ⟨f, here, of_decide_eq_false leaf⟩

theorem writableNoDirSmall : Machine.Ends ((system (Fs.machine small noDevices)).run (rootDisk, []) session) fun x _ => ∃ f, files small x.1 2 = some f ∧ f.type ≠ T_DIR := by
  have users : ∀ n ≤ 3, 0 < n → Machine.Ends ((system (Fs.machine small noDevices)).run (rootDisk, []) (session.take n)) fun x rs =>
      x.2 = [2] ∧ rs.head? = some (.opened (some (2, true))) := by decide +kernel
  obtain ⟨one, _, okOne, heldOne, _⟩ := (users 1 (by decide) (by decide)).run
  obtain ⟨two, _, okTwo, heldTwo, _⟩ := (users 2 (by decide) (by decide)).run
  obtain ⟨x, rs, ok, held, answer⟩ := (users 3 (by decide) (by decide)).run
  have ok' : (system (Fs.machine small noDevices)).run (rootDisk, []) session = .ok (x, rs) := ok
  obtain ⟨mid, o, os, first, rest, rfl⟩ := Machine.runCons ok'
  obtain ⟨mid', o', os', second, _, _⟩ := Machine.runCons rest
  obtain rfl : o = .opened (some (2, true)) := by simpa using answer
  cases okOne.symm.trans (Machine.runStep first rfl)
  cases okTwo.symm.trans (Machine.runStep first (Machine.runStep second rfl))
  have later := sessionFair.2 one _ first
  have fair : (system (Fs.machine small noDevices)).Passes (fun y c => FairOn small noDevices y c ∧ 2 ∈ y.2) one session.tail := by
    refine ⟨⟨later.1, by simp [heldOne]⟩, fun y r step => ?_⟩
    cases second.symm.trans step
    exact ⟨⟨(later.2 two _ second).1, by simp [heldTwo]⟩, fun _ _ _ => trivial⟩
  have noDir := writableNoDir smallMild (.start rootSane) sessionFair.1 first fair rest (by simp [held])
  rw [ok']
  exact noDir

end OpSys.Sysfile
