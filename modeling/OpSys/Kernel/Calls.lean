import OpSys.Kernel.Create

/-! The calls of all processes together. A process uses the directory that it is in, and the
files that it has open. -/
namespace OpSys.Sysfile
open Function OpSys.Bytes OpSys.Transition OpSys.Scripts OpSys.Fs OpSys.Hierarchy

variable {sb : Superblock} {devsw : Devsw} {s : Nat → Option File} {refs refs' : List Nat} {i ip cwd : Nat} {f : File} {path : List UInt8} {omode : UInt32}

inductive Call where
  | link (old new : List UInt8) (cwd : Nat)
  | unlink (path : List UInt8) (cwd : Nat)
  | openFile (path : List UInt8) (omode : UInt32) (room : Bool) (cwd : Nat)
  | mkdir (path : List UInt8) (cwd : Nat)
  | mknod (path : List UInt8) (major minor : UInt16) (cwd : Nat)
  | chdir (path : List UInt8) (cwd : Nat)
  | fork (cwd : Nat)
  | exit (cwd : Nat)
  | close (ip : Nat)
  | read (ip off n : Nat)
  | write (ip off : Nat) (src : List UInt8)
  deriving DecidableEq

inductive Reply where
  | code (n : Int)
  | opened (file : Option (Nat × Bool))
  | moved (cwd : Option Nat)
  | data (n : Int) (bytes : List UInt8)
  deriving DecidableEq

/-- Of `fork`, `exit`, `fileclose`, `fileread` and `filewrite` what they do with inodes. -/
def Call.prog : Call → Calls Reply
  | .link old new cwd => do return .code (← sys_link old new cwd)
  | .unlink path cwd => do return .code (← sys_unlink path cwd)
  | .openFile path omode room cwd => do return .opened (← sys_open path omode room cwd)
  | .mkdir path cwd => do return .code (← sys_mkdir path cwd)
  | .mknod path major minor cwd => do return .code (← sys_mknod path major minor cwd)
  | .chdir path cwd => do return .moved (← sys_chdir path cwd)
  | .fork cwd => do
    idup cwd
    return .code 0
  | .exit ip | .close ip => do
    iput ip
    return .code 0
  | .read ip off n => do
    let x ← readi ip off n
    return .data x.1 x.2
  | .write ip off src => do return .code (← writei ip off src)

def system {σ δ : Type} (m : Machine σ Act Answer δ) : Machine (σ × List Nat) Call Reply (Panic ⊕ Refusal δ) :=
  ⟨fun s => m.init s.1, fun s c => c.prog.run (references m) s⟩

/-! ### What the calls are for -/

noncomputable def openSpace (space : Space) (path : List UInt8) (omode : UInt32) (cwd : Nat) : Option (Space × Nat) :=
  if omode &&& O_CREATE ≠ 0 then createSpace space path T_FILE 0 0 cwd
  else match under space false path cwd with
    | none => none
    | some (ip, _) => if isDir space ip ∧ omode ≠ O_RDONLY then none else some (space, ip)

noncomputable def serve (t : Space × List Nat) : Call → (Space × List Nat) × Reply
  | .link old new cwd => (((linkSpace t.1 old new cwd).1, t.2), .code (linkSpace t.1 old new cwd).2)
  | .unlink path cwd => (((unlinkSpace t.1 t.2 path cwd).1, t.2), .code (unlinkSpace t.1 t.2 path cwd).2)
  | .openFile path omode room cwd => match openSpace t.1 path omode cwd with
    | none => (t, .opened none)
    | some (space, ip) =>
      if room then ((space, ip :: t.2), .opened (some (ip, omode &&& O_WRONLY ≠ 0 ∨ omode &&& O_RDWR ≠ 0))) else ((space, t.2), .opened none)
  | .mkdir path cwd => match createSpace t.1 path T_DIR 0 0 cwd with
    | none => (t, .code (-1))
    | some (space, _) => ((space, t.2), .code 0)
  | .mknod path major minor cwd => match createSpace t.1 path T_DEV major minor cwd with
    | none => (t, .code (-1))
    | some (space, _) => ((space, t.2), .code 0)
  | .chdir path cwd => match under t.1 false path cwd with
    | none => (t, .moved none)
    | some (ip, _) =>
      if isDir t.1 ip then ((sweep t.1 ((ip :: t.2).erase cwd) cwd, (ip :: t.2).erase cwd), .moved (some ip)) else (t, .moved none)
  | .fork cwd => ((t.1, cwd :: t.2), .code 0)
  | .exit ip | .close ip => ((sweep t.1 (t.2.erase ip) ip, t.2.erase ip), .code 0)
  | .read ip off n => match t.1 ip with
    | some (.file type major minor bytes) => (t, .data ((⟨type, major, minor, 0, bytes⟩ : File).read off n).1 ((⟨type, major, minor, 0, bytes⟩ : File).read off n).2)
    | _ => (t, .code (-1))
  | .write ip off src => match t.1 ip with
    | some (.file type major minor bytes) =>
      ((update t.1 ip (some (.file type major minor ((⟨type, major, minor, 0, bytes⟩ : File).write off src).2)), t.2), .code ((⟨type, major, minor, 0, bytes⟩ : File).write off src).1)
    | _ => (t, .code (-1))

/-- A file that is neither a directory nor a device. -/
def Regular (s : Nat → Option File) (i : Nat) : Prop := ∃ f, s i = some f ∧ f.type = T_FILE

/-- What is up to the processes: they name what they use, and do not start from a directory
that has been removed. -/
def Fair (s : Nat → Option File) (refs : List Nat) : Call → Prop
  | .link old new cwd => From s cwd old ∧ From s cwd new
  | .unlink path cwd | .openFile path _ _ cwd | .mkdir path cwd | .mknod path _ _ cwd => From s cwd path
  | .chdir path cwd => From s cwd path ∧ cwd ∈ refs
  | .fork ip | .exit ip | .close ip => ip ∈ refs
  | .read ip _ n => Regular s ip ∧ n < 2 ^ 32
  | .write ip _ src => Regular s ip ∧ src.length < 2 ^ 32

/-! ### Each call -/

/-- The call has left what it should, and said so. -/
def Served (sb : Superblock) (after : (Space × List Nat) × Reply) (r : Reply) (t : (Nat → Option File) × List Nat) : Prop :=
  Tree sb t.1 t.2 ∧ ((spaceOf t.1, t.2), r) = after

theorem Tree.users (tree : Tree sb s refs) (same : ∀ j, j ∈ refs' ↔ j ∈ refs) : Tree sb s refs' :=
  ⟨tree.graph, tree.room, tree.counted, fun i f here none => (same i).mpr (tree.kept i f here none), fun i mem => tree.held i ((same i).mp mem)⟩

theorem releasedCons (held : i ∈ refs) : released s refs i = released s (i :: refs.erase i) i := by
  unfold released
  rw [(List.perm_cons_erase held).count_eq]

/-- A user gives up a file. -/
theorem giveUp {ρ : Type} {k : Unit → Calls ρ} {Q : ρ → (Nat → Option File) × List Nat → Prop} (tree : Tree sb s refs) (held : i ∈ refs)
    (next : ∀ s', Tree sb s' (refs.erase i) → spaceOf s' = sweep (spaceOf s) (refs.erase i) i → Goes sb devsw (k ()) s' (refs.erase i) Q) :
    Goes sb devsw (iput i >>= k) s refs Q := by
  obtain ⟨f, here⟩ := tree.held i held
  have tree' : Tree sb s (i :: refs.erase i) := tree.users fun j => ((List.perm_cons_erase held).mem_iff).symm
  refine doIput (tree.graph.range i f here) ?_
  rw [releasedCons held]
  exact next _ tree'.release (sweepReleased tree')

theorem openDoes (mild : Mild sb) (tree : Tree sb s refs) (from' : From s cwd path) (room : Bool) :
    Goes sb devsw (Call.openFile path omode room cwd).prog s refs (Served sb (serve (spaceOf s, refs) (.openFile path omode room cwd))) := by
  have graph := tree.graph
  -- what is left when the inode has been found
  have last : ∀ s' ip g, openSpace (spaceOf s) path omode cwd = some (spaceOf s', ip) → Tree sb s' refs → s' ip = some g → g.nlink ≠ 0 →
      Goes sb devsw ((if !room then do iput ip; return none else return some (ip, decide (omode &&& O_WRONLY ≠ 0 ∨ omode &&& O_RDWR ≠ 0))) >>= fun x => pure (Reply.opened x))
        s' (ip :: refs) (Served sb (serve (spaceOf s, refs) (.openFile path omode room cwd))) := by
    intro s' ip g same tree' here live
    cases room with
    | false =>
      rw [if_pos (show (!false) = true from rfl), bindAssoc]
      refine doIput (tree'.graph.range ip g here) ?_
      rw [releasedLinked here live, List.erase_cons_head]
      refine .done ⟨tree', ?_⟩
      simp [serve, same]
    | true =>
      rw [if_neg (show ¬ (!true) = true by decide)]
      refine .done ⟨tree'.hold here, ?_⟩
      simp [serve, same]
  have nothing : openSpace (spaceOf s) path omode cwd = none → Served sb (serve (spaceOf s, refs) (.openFile path omode room cwd)) (.opened none) (s, refs) := fun none => by
    refine ⟨tree, ?_⟩
    simp [serve, none]
  change Goes sb devsw (sys_open path omode room cwd >>= fun x => pure (Reply.opened x)) s refs _
  unfold sys_open sys_open.inode
  unfold openSpace at last nothing
  by_cases new : omode &&& O_CREATE ≠ 0
  · simp only [if_pos new] at last nothing ⊢
    rw [bindAssoc]
    exact doCreate mild tree from' (by decide) (fun none => .done (nothing none)) fun s' ip g same tree' here live _ => last s' ip g same tree' here live
  · simp only [if_neg new] at last nothing ⊢
    simp only [bindAssoc]
    refine doNamei graph from' (fun missing => ?_) fun ip name g leads here live => ?_
    · rw [missing] at nothing
      exact .done (nothing rfl)
    · have range := graph.range ip g here
      rw [leads] at last nothing
      simp only [bindAssoc]
      refine doIlock here range ?_
      change Goes sb devsw ((if g.type = T_DIR ∧ omode ≠ O_RDONLY then _ else _) >>= _) _ _ _
      by_cases bad : g.type = T_DIR ∧ omode ≠ O_RDONLY
      · rw [if_pos bad]
        simp only [bindAssoc]
        refine doIput range ?_
        rw [releasedLinked here live, List.erase_cons_head]
        refine .done (nothing ?_)
        simp [spaceIsDir here, bad]
      · rw [if_neg bad]
        refine last s ip g ?_ tree here live
        simpa [spaceIsDir here] using bad

/-- A file is made, and nobody keeps it. -/
theorem putDoes {c : Call} {type major minor : UInt16} {k : Option Nat → Calls Reply} (mild : Mild sb) (tree : Tree sb s refs) (from' : From s cwd path) (known : type ≠ 0)
    (nothing : createSpace (spaceOf s) path type major minor cwd = none → serve (spaceOf s, refs) c = ((spaceOf s, refs), .code (-1)))
    (something : ∀ space i, createSpace (spaceOf s) path type major minor cwd = some (space, i) → serve (spaceOf s, refs) c = ((space, refs), .code 0))
    (fails : k none = .done (.code (-1))) (works : ∀ ip, k (some ip) = iput ip >>= fun _ => .done (.code 0)) :
    Goes sb devsw (create path type major minor cwd >>= k) s refs (Served sb (serve (spaceOf s, refs) c)) := by
  refine doCreate mild tree from' known (fun none => ?_) fun s' ip g same tree' here live _ => ?_
  · rw [fails, nothing none]
    exact .done ⟨tree, rfl⟩
  · rw [works, something _ _ same]
    refine doIput (tree'.graph.range ip g here) ?_
    rw [releasedLinked here live, List.erase_cons_head]
    exact .done ⟨tree', rfl⟩

theorem mkdirDoes (mild : Mild sb) (tree : Tree sb s refs) (from' : From s cwd path) :
    Goes sb devsw (Call.mkdir path cwd).prog s refs (Served sb (serve (spaceOf s, refs) (.mkdir path cwd))) := by
  change Goes sb devsw (sys_mkdir path cwd >>= fun n => pure (Reply.code n)) s refs _
  unfold sys_mkdir
  rw [bindAssoc]
  exact putDoes mild tree from' (by decide) (fun none => by simp [serve, none]) (fun space i same => by simp [serve, same]) rfl fun _ => rfl

theorem mknodDoes (mild : Mild sb) (tree : Tree sb s refs) (from' : From s cwd path) (major minor : UInt16) :
    Goes sb devsw (Call.mknod path major minor cwd).prog s refs (Served sb (serve (spaceOf s, refs) (.mknod path major minor cwd))) := by
  change Goes sb devsw (sys_mknod path major minor cwd >>= fun n => pure (Reply.code n)) s refs _
  unfold sys_mknod
  rw [bindAssoc]
  exact putDoes mild tree from' (by decide) (fun none => by simp [serve, none]) (fun space i same => by simp [serve, same]) rfl fun _ => rfl

theorem chdirDoes (tree : Tree sb s refs) (from' : From s cwd path) (held : cwd ∈ refs) :
    Goes sb devsw (Call.chdir path cwd).prog s refs (Served sb (serve (spaceOf s, refs) (.chdir path cwd))) := by
  have graph := tree.graph
  change Goes sb devsw (sys_chdir path cwd >>= fun i => pure (Reply.moved i)) s refs _
  unfold sys_chdir
  rw [bindAssoc]
  refine doNamei graph from' (fun missing => .done ⟨tree, ?_⟩) fun ip name g leads here live => ?_
  · simp [serve, missing]
  · have range := graph.range ip g here
    simp only [bindAssoc]
    refine doIlock here range ?_
    by_cases dir : g.type = T_DIR
    · rw [if_neg (not_not.mpr (show g.stat.type = T_DIR from dir))]
      simp only [bindAssoc]
      refine giveUp (tree.hold here) (List.mem_cons_of_mem ip held) fun s' tree' space => .done ⟨tree', ?_⟩
      simp [serve, leads, spaceIsDir here, dir, space]
    · rw [if_pos (show g.stat.type ≠ T_DIR from dir)]
      simp only [bindAssoc]
      refine doIput range ?_
      rw [releasedLinked here live, List.erase_cons_head]
      refine .done ⟨tree, ?_⟩
      simp [serve, leads, spaceIsDir here, dir]

theorem regularPlain (type : f.type = T_FILE) : f.type ≠ T_DIR ∧ f.type ≠ T_DEV := by
  rw [type]
  decide

theorem writeShort (short : f.bytes.length ≤ MAXFILE * BSIZE) (off : Nat) (src : List UInt8) : (f.write off src).2.length ≤ MAXFILE * BSIZE := by
  unfold File.write
  split
  · exact short
  · rename_i near
    rw [spliceLength (by omega), List.length_take]
    unfold MAXFILE BSIZE at *
    omega

theorem writeDoes (tree : Tree sb s refs) (regular : Regular s ip) (off : Nat) {src : List UInt8} (words : src.length < 2 ^ 32) :
    Goes sb devsw (Call.write ip off src).prog s refs (Served sb (serve (spaceOf s, refs) (.write ip off src))) := by
  obtain ⟨f, here, type⟩ := regular
  obtain ⟨leaf, plain⟩ := regularPlain type
  refine doWritei here plain (tree.graph.range ip f here) words fun room => .done ⟨tree.write here leaf ?_ room, ?_⟩
  · exact writeShort (tree.graph.short ip f here) off src
  · simp only [serve]
    rw [spaceAt here, nodeFile leaf, spaceUpdate, Option.map_some, nodeFile (f := {f with bytes := (f.write off src).2}) leaf]
    rfl

theorem readDoes (tree : Tree sb s refs) (regular : Regular s ip) (off : Nat) {n : Nat} (words : n < 2 ^ 32) :
    Goes sb devsw (Call.read ip off n).prog s refs (Served sb (serve (spaceOf s, refs) (.read ip off n))) := by
  obtain ⟨f, here, type⟩ := regular
  obtain ⟨leaf, plain⟩ := regularPlain type
  refine doReadi here plain (tree.graph.range ip f here) words (.done ⟨tree, ?_⟩)
  simp only [serve]
  rw [spaceAt here, nodeFile leaf]
  rfl

/-- Every call does what it is for, or there is not enough room for it. -/
theorem callDoes (mild : Mild sb) (tree : Tree sb s refs) {c : Call} (fair : Fair s refs c) :
    Goes sb devsw c.prog s refs (Served sb (serve (spaceOf s, refs) c)) := by
  cases c with
  | link old new cwd =>
    refine (linkDoes mild tree fair.1 fair.2).bind fun n t done => .done ?_
    obtain ⟨tree', users, space⟩ := done
    rw [← users] at tree'
    exact ⟨tree', by simp [serve, ← space, users]⟩
  | unlink path cwd =>
    refine (unlinkDoes mild tree fair).bind fun n t done => .done ?_
    obtain ⟨tree', users, space⟩ := done
    rw [← users] at tree'
    exact ⟨tree', by simp [serve, ← space, users]⟩
  | openFile path omode room cwd => exact openDoes mild tree fair room
  | mkdir path cwd => exact mkdirDoes mild tree fair
  | mknod path major minor cwd => exact mknodDoes mild tree fair major minor
  | chdir path cwd => exact chdirDoes tree fair.1 fair.2
  | fork cwd =>
    obtain ⟨f, here⟩ := tree.held cwd fair
    exact doIdup (tree.graph.range cwd f here) (.done ⟨tree.hold here, rfl⟩)
  | exit ip => exact giveUp tree fair fun s' tree' space => .done ⟨tree', by rw [serve, ← space]⟩
  | close ip => exact giveUp tree fair fun s' tree' space => .done ⟨tree', by rw [serve, ← space]⟩
  | read ip off n => exact readDoes tree fair.1 off fair.2
  | write ip off src => exact writeDoes tree fair.1 off fair.2

end OpSys.Sysfile
