import OpSys.Kernel.Calls
import OpSys.Kernel.Mkfs

/-! The calls on a disk, one after another, in any order and by any processes. -/
namespace OpSys.Sysfile
open Function OpSys.Bytes OpSys.Transition OpSys.Scripts OpSys.Fs OpSys.Hierarchy

variable {sb : Superblock} {devsw : Devsw} {s : Nat → Option File} {refs : List Nat} {σ : Nat → Block} {x x' : (Nat → Block) × List Nat} {y : (Nat → Option File) × List Nat}
  {i cwd : Nat} {f : File} {names : List Name} {last : Name}

def Reasons : Refusal (Blocks.Stop Fs.Panic) → Refusal Fault → Prop
  | .files e, .files e' => Fs.Names e e'
  | .noSlot, .noSlot => True
  | _, _ => False

/-- The files need more blocks than the disk has. -/
def Lost : Refusal Fault → Prop
  | .files e => e = .full
  | .noSlot => False

/-- There is no inode, on the disk or in memory, or no room in the directory. -/
def Wanting (e : Panic ⊕ Refusal (Blocks.Stop Fs.Panic)) : Prop := ∃ e', reason Reasons e e' ∧ Scarce e' ∧ e' ≠ .inr (.files .full)

def Stored (sb : Superblock) (x : (Nat → Block) × List Nat) (y : (Nat → Option File) × List Nat) : Prop := WellFormed sb x.1 ∧ y = (files sb x.1, x.2)

theorem fileTracks (devsw : Devsw) (h : WellFormed sb σ) {a : Act} (known : Known sb a) (room : Room sb devsw (files sb σ) a) :
    Tracks Fs.Names (fun σ s => WellFormed sb σ ∧ s = files sb σ) (Fs.step devsw σ a) (storeStep sb devsw (files sb σ) a) := by
  have yields := progYields devsw h known room
  unfold Blocks.Yields at yields
  unfold Fs.step
  generalize (a.prog devsw).run σ [] = r at yields ⊢
  obtain ⟨e | o, σ', held⟩ := r
  · obtain ⟨e', names, stop⟩ := yields
    exact ⟨e', stop, names⟩
  · obtain ⟨_, fine, ok⟩ := yields
    exact ⟨files sb σ', ok, fine, rfl⟩

theorem besideTracks (refs : List Nat) {p : Except (Blocks.Stop Fs.Panic) ((Nat → Block) × Answer)} {q : Except Fault ((Nat → Option File) × Answer)}
    (h : Tracks Fs.Names (fun σ s => WellFormed sb σ ∧ s = files sb σ) p q) : Tracks Reasons (Stored sb) (beside refs p) (beside refs q) := by
  cases p with
  | ok o =>
    obtain ⟨t, rfl, fine, rfl⟩ := h
    exact ⟨_, rfl, fine, rfl⟩
  | error e =>
    obtain ⟨e', rfl, names⟩ := h
    exact ⟨_, rfl, names⟩

theorem besideRoom {a : Act} (room : ∀ e, beside refs (storeStep sb devsw s a) = .error e → ¬ Lost e) : Room sb devsw s a := by
  intro full
  rw [full] at room
  exact room _ rfl rfl

theorem askTracks (devsw : Devsw) {a : Ask} (known : Asked sb a) (h : Stored sb x y) (room : ∀ e, refStep (store sb devsw) y a = .error e → ¬ Lost e) :
    Tracks Reasons (Stored sb) (refStep (Fs.machine sb devsw) x a) (refStep (store sb devsw) y a) := by
  obtain ⟨fine, rfl⟩ := h
  cases a with
  | file b => exact besideTracks x.2 (fileTracks devsw fine known (besideRoom room))
  | iget i =>
    unfold refStep
    dsimp only
    split
    · exact ⟨_, rfl, trivial⟩
    · exact ⟨_, rfl, fine, rfl⟩
  | idup i => exact ⟨_, rfl, fine, rfl⟩
  | iput i =>
    unfold refStep at room ⊢
    dsimp only at room ⊢
    split
    · rename_i last
      rw [if_pos last] at room
      exact besideTracks (x.2.erase i) (fileTracks devsw fine known (besideRoom room))
    · exact ⟨_, rfl, fine, rfl⟩

structure Sane (sb : Superblock) (x : (Nat → Block) × List Nat) : Prop where
  disk : WellFormed sb x.1
  tree : Tree sb (files sb x.1) x.2

/-- While the call is served the files fit on the disk. -/
def RoomOn (sb : Superblock) (devsw : Devsw) (y : (Nat → Option File) × List Nat) (c : Call) : Prop :=
  ∀ e, (system (store sb devsw)).step y c = .error (.inr e) → ¬ Lost e

abbrev FairOn (sb : Superblock) (devsw : Devsw) (x : (Nat → Block) × List Nat) (c : Call) : Prop :=
  Fair (files sb x.1) x.2 c ∧ RoomOn sb devsw (files sb x.1, x.2) c

def spaceOn (sb : Superblock) (x : (Nat → Block) × List Nat) : Space × List Nat := (spaceOf (files sb x.1), x.2)

theorem systemStored (mild : Mild sb) (devsw : Devsw) (sane : Sane sb x) {c : Call} (fair : FairOn sb devsw x c) :
    (∃ x' r, (system (Fs.machine sb devsw)).step x c = .ok (x', r) ∧ Sane sb x' ∧ (spaceOn sb x', r) = serve (spaceOn sb x) c ∧
      (system (store sb devsw)).step (files sb x.1, x.2) c = .ok ((files sb x'.1, x'.2), r)) ∨
      ∃ e, (system (Fs.machine sb devsw)).step x c = .error e ∧ Wanting e := by
  have does : Goes sb devsw c.prog (files sb x.1) x.2 _ := callDoes mild sane.tree fair.1
  have disk := (does.transfer (m := references (Fs.machine sb devsw)) (n := references (store sb devsw)) (N := Reasons) (S := Stored sb) (s := x)
    (fun x y a related known room => askTracks devsw known related room) ⟨sane.disk, rfl⟩ fair.2).run
  rcases disk with ⟨r, x', ok, y, ⟨fine, rfl⟩, ⟨tree, same⟩, stored⟩ | ⟨e, stop, e', names, scarce, stored⟩
  · exact .inl ⟨x', r, ok, ⟨fine, tree⟩, same, stored⟩
  · refine .inr ⟨e, stop, e', names, scarce, ?_⟩
    rintro rfl
    exact fair.2 _ stored rfl

theorem systemStep (mild : Mild sb) (devsw : Devsw) (sane : Sane sb x) {c : Call} (fair : FairOn sb devsw x c) :
    (∃ x' r, (system (Fs.machine sb devsw)).step x c = .ok (x', r) ∧ Sane sb x' ∧ (spaceOn sb x', r) = serve (spaceOn sb x) c) ∨
      ∃ e, (system (Fs.machine sb devsw)).step x c = .error e ∧ Wanting e :=
  (systemStored mild devsw sane fair).imp (fun ⟨x', r, ok, sane', same, _⟩ => ⟨x', r, ok, sane', same⟩) id

/-- There is room in every state on the way if the store of files gets to the end. -/
theorem fairRun (mild : Mild sb) (sane : Sane sb x) {calls : List Call} {rs : List Reply}
    (fair : (system (Fs.machine sb devsw)).Passes (fun x c => Fair (files sb x.1) x.2 c) x calls)
    (ok : (system (store sb devsw)).run (files sb x.1, x.2) calls = .ok (y, rs)) : (system (Fs.machine sb devsw)).Passes (FairOn sb devsw) x calls := by
  induction calls generalizing x rs with
  | nil => trivial
  | cons c rest ih =>
    obtain ⟨mid, r, rs', here, later, _⟩ := Machine.runCons ok
    have room : RoomOn sb devsw (files sb x.1, x.2) c := fun e stop => by cases here.symm.trans stop
    refine ⟨⟨fair.1, room⟩, fun x' r' step => ?_⟩
    rcases systemStored mild devsw sane ⟨fair.1, room⟩ with ⟨x'', r'', ok', sane', _, stored⟩ | ⟨e, stop, _⟩
    · cases step.symm.trans ok'
      cases here.symm.trans stored
      exact ih sane' (fair.2 _ _ step) later
    · cases step.symm.trans stop

/-! ### The root directory -/

def rooted : Nat → Option File := update (fun _ => none) ROOTINO (some (dotted 0 0 ROOTINO ROOTINO))

theorem rootedAt (here : rooted i = some f) : i = ROOTINO ∧ f = dotted 0 0 ROOTINO ROOTINO := by
  unfold rooted at here
  rw [update_apply] at here
  split at here
  · rename_i same
    exact ⟨same, (Option.some.inj here).symm⟩
  · cases here

theorem rootLinked : Linked rooted ROOTINO (dotted 0 0 ROOTINO ROOTINO) := ⟨update_self .., rfl, show (1 : UInt16) ≠ 0 by decide⟩

theorem rootFolder : Folder ROOTINO (dotted 0 0 ROOTINO ROOTINO) := dottedFolder (by decide) (by decide) (by decide)

theorem rootSound : Sound (shape rooted) := by
  have dir : ∀ i, (shape rooted).dir i ↔ i = ROOTINO := fun i =>
    ⟨fun ⟨f, linked⟩ => (rootedAt linked.1).1, fun same => same ▸ ⟨_, rootLinked⟩⟩
  have up : (shape rooted).up ROOTINO = ROOTINO := by
    rw [upAt rootLinked, (dottedInum (by decide) (by decide) 0 0).2]
  have none : ∀ d k i, ¬ (shape rooted).child d k i := by
    rintro d k i ⟨high, f, here, _, _, less, _⟩
    rw [(rootedAt here).2, dottedSlots] at less
    omega
  refine ⟨fun i mine => ?_, ⟨(dir _).mpr rfl, up⟩, fun d k i bad => absurd bad (none d k i), fun d k i bad => absurd bad (none d k i), fun d k j i bad => absurd bad (none d k i),
    fun i mine => ?_, ⟨fun _ => 0, fun d k i bad => absurd bad (none d k i)⟩⟩
  · rw [(dir i).mp mine]
    exact rootLinked.live
  · rw [(dir i).mp mine, up]
    exact ⟨(dir _).mpr rfl, fun bad => absurd rfl bad⟩

theorem rootCites : (dotted 0 0 ROOTINO ROOTINO).cites ROOTINO = 1 := by
  have up : (dotted 0 0 ROOTINO ROOTINO).inum 1 = ROOTINO := (dottedInum (by decide) (by decide) 0 0).2
  unfold File.cites
  rw [if_pos ⟨rfl, rootLinked.2.2⟩, dottedSlots]
  simp [Finset.range_add_one, Finset.filter_insert, up]

theorem rootTree (more : ROOTINO < sb.ninodes) (room : demand sb rooted ≤ capacity sb) : Tree sb rooted [] := by
  refine ⟨⟨fun i f here => ?_, fun i f here => ?_, fun i f linked => ?_, rootSound⟩, room, fun i f here => ?_, fun i f here none => ?_, fun i mem => by cases mem⟩
  · rw [(rootedAt here).1]
    exact ⟨by decide, more⟩
  · rw [(rootedAt here).2, dottedLength]
    decide
  · obtain ⟨rfl, rfl⟩ := rootedAt linked.1
    exact rootFolder
  · obtain ⟨rfl, rfl⟩ := rootedAt here
    have sum := linksUpdate more (fun _ => none) (some (dotted 0 0 ROOTINO ROOTINO)) ROOTINO
    have before : links sb (fun _ => none) ROOTINO = 0 := Finset.sum_eq_zero fun _ _ => rfl
    have file : citesOf (some (dotted 0 0 ROOTINO ROOTINO)) ROOTINO = (dotted 0 0 ROOTINO ROOTINO).cites ROOTINO := rfl
    rw [file, rootCites, before] at sum
    exact sum.symm
  · obtain ⟨rfl, rfl⟩ := rootedAt here
    exact absurd none rootLinked.2.2

def rootActs : List Act := [.ialloc T_DIR, .iupdate ROOTINO 0 0 1, .writei ROOTINO 0 (dirent ROOTINO dot ++ dirent ROOTINO dotdot)]

def rootDisk : Nat → Block := match (Fs.machine small noDevices).run (format small) rootActs with
  | .ok (σ, _) => σ
  | .error _ => format small

theorem rootStored : (store small noDevices).run (fun _ => none) rootActs = .ok (rooted, [.inum 1, .none, .count 32]) := by
  have none : (store small noDevices).step (fun _ => none) (.ialloc T_DIR) = .ok (update (fun _ => none) ROOTINO (some ⟨T_DIR, 0, 0, 0, []⟩), .inum 1) := rfl
  have bare : (store small noDevices).step (update (fun _ => .none) ROOTINO (some ⟨T_DIR, 0, 0, 0, []⟩)) (.iupdate ROOTINO 0 0 1) =
      .ok (update (fun _ => .none) ROOTINO (some (blank T_DIR 0 0)), .none) := by
    simp [store, storeStep, found, bind, Except.bind, pure, Except.pure, blank]
  have full : (store small noDevices).step (update (fun _ => .none) ROOTINO (some (blank T_DIR 0 0))) (.writei ROOTINO 0 (dirent ROOTINO dot ++ dirent ROOTINO dotdot)) =
      .ok (rooted, .count 32) := by
    have bytes : (blank T_DIR 0 0).write 0 (dirent ROOTINO dot ++ dirent ROOTINO dotdot) = (32, (dotted 0 0 ROOTINO ROOTINO).bytes) := by decide
    have room : demand small rooted ≤ capacity small := by decide
    have plain : ¬ (blank T_DIR 0 0).type = T_DEV := by decide
    have whole : update (update (fun _ => .none) ROOTINO (some (blank T_DIR 0 0))) ROOTINO (some {blank T_DIR 0 0 with bytes := (dotted 0 0 ROOTINO ROOTINO).bytes}) = rooted :=
      update_idem ..
    simp only [store, storeStep, found, update_self, bind, Except.bind, plain, if_false, bytes, put, whole, room, if_true]
  exact Machine.runStep none (Machine.runStep bare (Machine.runStep full rfl))

theorem rootFiles : WellFormed small rootDisk ∧ files small rootDisk = rooted := by
  have known : ∀ a ∈ rootActs, Known small a := by decide
  have stored := rootStored
  rw [← formatFiles] at stored
  have matched := filesRefine (formatWellFormed smallFits) (fittingRun (formatWellFormed smallFits) known stored)
  rw [stored] at matched
  unfold rootDisk
  generalize (Fs.machine small noDevices).run (format small) rootActs = r at matched
  cases matched with
  | next related => exact ⟨related.1, related.2.symm⟩

theorem rootSane : Sane small (rootDisk, []) := by
  obtain ⟨fine, same⟩ := rootFiles
  refine ⟨fine, ?_⟩
  change Tree small (files small rootDisk) []
  have room := demandFits fine
  rw [same] at room ⊢
  exact rootTree (by decide) room

/-! ### Whole runs -/

/-- The files as the processes see them, which nothing stops. -/
noncomputable def purpose : Machine (Space × List Nat) Call Reply Empty := ⟨fun _ => True, fun t c => .ok (serve t c)⟩

/-- The kernel does what the calls are for, as long as the files fit on the disk. -/
theorem callsRefine (mild : Mild sb) (devsw : Devsw) (sane : Sane sb x) {calls : List Call} (fair : (system (Fs.machine sb devsw)).Passes (FairOn sb devsw) x calls) :
    (∃ x' rs, (system (Fs.machine sb devsw)).run x calls = .ok (x', rs) ∧ Sane sb x' ∧ purpose.run (spaceOn sb x) calls = .ok (spaceOn sb x', rs)) ∨
      ∃ e, (system (Fs.machine sb devsw)).run x calls = .error e ∧ Wanting e := by
  induction calls generalizing x with
  | nil => exact .inl ⟨x, [], rfl, sane, rfl⟩
  | cons c rest ih =>
    rcases systemStep mild devsw sane fair.1 with ⟨mid, r, ok, sane', same⟩ | ⟨e, stop, wanting⟩
    · have one : purpose.step (spaceOn sb x) c = .ok (spaceOn sb mid, r) := congrArg Except.ok same.symm
      rcases ih sane' (fair.2 mid r ok) with ⟨x', rs, ran, sane'', goal⟩ | ⟨e, stop, wanting⟩
      · exact .inl ⟨x', r :: rs, Machine.runStep ok ran, sane'', Machine.runStep one goal⟩
      · refine .inr ⟨e, ?_, wanting⟩
        simp [Machine.run, ok, stop, bind, Except.bind]
    · refine .inr ⟨e, ?_, wanting⟩
      simp [Machine.run, stop, bind, Except.bind]

def session : List Call := [.openFile [slash, 102] (O_CREATE ||| O_RDWR) true 0, .link [slash, 102] [slash, 103] 0, .unlink [slash, 102] 0]

theorem topFair {s : Nat → Option File} {path : List UInt8} (plain : 0 ∉ path) (top : path.head? = some slash) (cwd : Nat) : From s cwd path :=
  ⟨plain, fun below => absurd top below⟩

theorem smallMild : Mild small := ⟨by decide, by decide⟩

theorem sessionStored : Machine.Ends ((system (store small noDevices)).run (rooted, []) session) fun _ rs =>
    rs = [.opened (some (2, true)), .code 0, .code 0] := by decide +kernel

theorem sessionFair : (system (Fs.machine small noDevices)).Passes (FairOn small noDevices) (rootDisk, []) session := by
  obtain ⟨y, rs, ok, _⟩ := sessionStored.run
  rw [← rootFiles.2] at ok
  refine fairRun smallMild rootSane (Machine.passesAll (fun c mem x => ?_) _) ok
  simp only [session, List.mem_cons, List.not_mem_nil, or_false] at mem
  rcases mem with rfl | rfl | rfl
  · exact topFair (by decide) rfl 0
  · exact ⟨topFair (by decide) rfl 0, topFair (by decide) rfl 0⟩
  · exact topFair (by decide) rfl 0

theorem callsRefineSmall : Machine.Ends ((system (Fs.machine small noDevices)).run (rootDisk, []) session) fun x rs =>
    rs = [.opened (some (2, true)), .code 0, .code 0] ∧ purpose.run (spaceOn small (rootDisk, [])) session = .ok (spaceOn small x, rs) := by
  have run : Machine.Ends ((system (Fs.machine small noDevices)).run (rootDisk, []) session) fun _ rs =>
      rs = [.opened (some (2, true)), .code 0, .code 0] := by decide +kernel
  obtain ⟨x, rs, ok, answers⟩ := run.run
  rcases callsRefine smallMild noDevices rootSane sessionFair with ⟨x', rs', ok', _, goal⟩ | ⟨e, stop, _⟩
  · cases ok.symm.trans ok'
    rw [ok]
    exact ⟨answers, goal⟩
  · cases ok.symm.trans stop

theorem reachSane (mild : Mild sb) (reach : ((system (Fs.machine sb devsw)).within (Sane sb)).Reach (FairOn sb devsw) x) : Sane sb x :=
  Machine.Reach.invariant (fun _ first => first) (fun x c x' r sane fair ok => by
    change (system (Fs.machine sb devsw)).step x c = .ok (x', r) at ok
    rcases systemStep mild devsw sane fair with ⟨_, _, ok', sane', _⟩ | ⟨e, stop, _⟩
    · cases ok.symm.trans ok'
      exact sane'
    · cases ok.symm.trans stop) reach

theorem sessionReach : Machine.Ends ((system (Fs.machine small noDevices)).run (rootDisk, []) session) fun x _ =>
    ((system (Fs.machine small noDevices)).within (Sane small)).Reach (FairOn small noDevices) x := by
  obtain ⟨x, rs, ok, _⟩ := callsRefineSmall.run
  rw [ok]
  exact Machine.runReach (m := (system (Fs.machine small noDevices)).within (Sane small)) (.start rootSane) sessionFair.within ok

theorem pathReached (tree : Tree sb s refs) (here : s i = some f) (live : f.nlink ≠ 0) (cwd : Nat) :
    ∃ path n, path.head? = some slash ∧ 0 ∉ path ∧ under (spaceOf s) false path cwd = some (i, n) := by
  have graph := tree.graph
  have pos : 0 < links sb s i := by
    rw [← tree.counted i f here]
    exact Nat.pos_of_ne_zero fun zero => live (UInt16.toNat_inj.mp zero)
  -- some directory has a name for it, and is itself in the tree
  obtain ⟨d, g, k, linked, _, less, rfl⟩ := (linksPos graph.range).mp pos
  have folder := graph.folder d g linked
  have some' : g.inum k ≠ 0 := Nat.pos_iff_ne_zero.mp (graph.range (g.inum k) f here).1
  obtain ⟨names, n, proper, found⟩ := walkReached graph ⟨g, linked⟩
  have proper' : ∀ m ∈ names ++ [g.name k], Proper m := by
    intro m mem
    rcases List.mem_append.mp mem with mem | mem
    · exact proper m mem
    · rw [List.mem_singleton.mp mem]
      exact folder.proper k less some'
  have top : (absolute (names ++ [g.name k])).head? = some slash := by
    cases names <;> simp [absolute]
  refine ⟨absolute (names ++ [g.name k]), g.name k, top, fun bad => ?_, ?_⟩
  · obtain ⟨m, mem, inside⟩ := List.mem_flatMap.mp bad
    rcases List.mem_cons.mp inside with zero | inside
    · exact absurd zero (by decide)
    · exact (proper' m mem).plain inside
  · rw [← underResolve graph fun below => absurd top below]
    unfold resolve start
    rw [if_pos top, elemsAbsolute proper']
    exact walkAppend found linked (folder.lookup less some')

/-- The files that have links are those that a path from the root leads to. -/
theorem filesReached (mild : Mild sb) (reach : ((system (Fs.machine sb devsw)).within (Sane sb)).Reach (FairOn sb devsw) x) (i cwd : Nat) :
    (∃ f, files sb x.1 i = some f ∧ f.nlink ≠ 0) ↔ ∃ path n, path.head? = some slash ∧ 0 ∉ path ∧ under (spaceOn sb x).1 false path cwd = some (i, n) := by
  have tree := (reachSane mild reach).tree
  constructor
  · rintro ⟨f, here, live⟩
    exact pathReached tree here live cwd
  · rintro ⟨path, n, top, _, found⟩
    change under (spaceOf (files sb x.1)) false path cwd = some (i, n) at found
    rw [← underResolve tree.graph fun below => absurd top below] at found
    unfold resolve start at found
    rw [if_pos top] at found
    exact walkLive tree.graph tree.graph.top found

theorem filesReachedSmall : Machine.Ends ((system (Fs.machine small noDevices)).run (rootDisk, []) session) fun x _ => ∀ i cwd,
    (∃ f, files small x.1 i = some f ∧ f.nlink ≠ 0) ↔ ∃ path n, path.head? = some slash ∧ 0 ∉ path ∧ under (spaceOn small x).1 false path cwd = some (i, n) := by
  obtain ⟨x, rs, ok, reach⟩ := sessionReach.run
  have reached := fun i cwd => filesReached smallMild reach i cwd
  rw [ok]
  exact reached

end OpSys.Sysfile
