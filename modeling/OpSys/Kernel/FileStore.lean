import OpSys.Kernel.Capacity
import OpSys.Kernel.Directories
import OpSys.Lib.Transition

/-! The calls of `fs.c` one after another, against a store of files that has room for so many
blocks. -/
namespace OpSys.Fs
open Function OpSys.Blocks OpSys.Bytes OpSys.Allotment OpSys.Transition

variable {sb : Superblock} {σ σ' τ : Nat → Block} {ip ip' : Inode} {i j n : Nat} {devsw : Devsw} {f : File} {s : Nat → Option File}

inductive Act where
  | ialloc (type : UInt16)
  | inode (i : Nat)
  | iupdate (i : Nat) (major minor nlink : UInt16)
  | readi (i off n : Nat)
  | writei (i off : Nat) (src : List UInt8)
  | dirlookup (i : Nat) (name : Name)
  | iput (i : Nat)

structure Stat where
  type : UInt16
  major : UInt16
  minor : UInt16
  nlink : UInt16
  size : Nat
  deriving DecidableEq

inductive Answer where
  | none
  | inum (i : Nat)
  | stat (st : Stat)
  | entry (found : Option (Nat × Nat))
  | count (n : Int)
  | bytes (n : Int) (dst : List UInt8)
  deriving DecidableEq

/-- A call by who has just locked the inode. -/
def Act.prog (devsw : Devsw) : Act → Io Answer
  | .ialloc type => do
    let i ← Fs.ialloc type
    return .inum i
  | .inode i => do
    let ip ← iload i
    return .stat ⟨ip.type, ip.major, ip.minor, ip.nlink, ip.size⟩
  | .iupdate i major minor nlink => do
    let ip ← iload i
    Fs.iupdate i {ip with major := major, minor := minor, nlink := nlink}
    return .none
  | .readi i off n => do
    let ip ← iload i
    let x ← Fs.readi devsw ip off n
    return .bytes x.1 x.2.1
  | .writei i off src => do
    let ip ← iload i
    let x ← Fs.writei devsw i ip off src
    return .count x.1
  | .dirlookup i name => do
    let ip ← iload i
    let x ← Fs.dirlookup ip (chars name)
    return .entry x.1
  | .iput i => do
    ilast i
    return .none

/-- Nothing keeps `balloc` to the blocks of the disk, and the numbers past them are taken as
blocks like the others. -/
def step (devsw : Devsw) (σ : Nat → Block) (a : Act) : Except (Stop Panic) ((Nat → Block) × Answer) :=
  match (a.prog devsw).run σ [] with
  | (.ok x, σ', _) => .ok (σ', x)
  | (.error e, _, _) => .error e

def machine (sb : Superblock) (devsw : Devsw) : Machine (Nat → Block) Act Answer (Stop Panic) := ⟨WellFormed sb, step devsw⟩

/-- The numbers are those of inodes, and lengths are words. -/
def Known (sb : Superblock) : Act → Prop
  | .ialloc type => type ≠ 0
  | .iupdate i _ _ _ => 0 < i ∧ i < sb.ninodes
  | .readi i _ n => 0 < i ∧ i < sb.ninodes ∧ n < 2 ^ 32
  | .writei i _ src => 0 < i ∧ i < sb.ninodes ∧ src.length < 2 ^ 32
  | .inode i | .dirlookup i _ | .iput i => 0 < i ∧ i < sb.ninodes

instance (sb : Superblock) : (a : Act) → Decidable (Known sb a)
  | .ialloc type => inferInstanceAs (Decidable (type ≠ 0))
  | .iupdate i _ _ _ => inferInstanceAs (Decidable (0 < i ∧ i < sb.ninodes))
  | .readi i _ n => inferInstanceAs (Decidable (0 < i ∧ i < sb.ninodes ∧ n < 2 ^ 32))
  | .writei i _ src => inferInstanceAs (Decidable (0 < i ∧ i < sb.ninodes ∧ src.length < 2 ^ 32))
  | .inode i | .dirlookup i _ | .iput i => inferInstanceAs (Decidable (0 < i ∧ i < sb.ninodes))

/-! ### What the calls are for -/

inductive Fault where
  | noFile
  | noInodes
  | full
  | notDir
  deriving DecidableEq

def Devsw.reads (devsw : Devsw) (f : File) (n : Nat) : Answer :=
  match if f.major.toNat < NDEV then devsw.read f.major.toNat else none with
  | none => .bytes (-1) []
  | some read => .bytes (read n).1 (read n).2

def Devsw.writes (devsw : Devsw) (f : File) (src : List UInt8) : Answer :=
  match if f.major.toNat < NDEV then devsw.write f.major.toNat else none with
  | none => .count (-1)
  | some write => .count (write src)

def File.stat (f : File) : Stat := ⟨f.type, f.major, f.minor, f.nlink, f.bytes.length⟩

def put (sb : Superblock) (s : Nat → Option File) (i : Nat) (f : File) (x : Answer) : Except Fault ((Nat → Option File) × Answer) :=
  if demand sb (update s i (some f)) ≤ capacity sb then .ok (update s i (some f), x) else .error .full

def found (s : Nat → Option File) (i : Nat) : Except Fault File := match s i with
  | none => .error .noFile
  | some f => .ok f

def storeStep (sb : Superblock) (devsw : Devsw) (s : Nat → Option File) : Act → Except Fault ((Nat → Option File) × Answer)
  | .ialloc type => match (List.range' 1 (sb.ninodes - 1)).find? fun i => (s i).isNone with
    | none => .error .noInodes
    | some i => .ok (update s i (some ⟨type, 0, 0, 0, []⟩), .inum i)
  | .inode i => do
    let f ← found s i
    return (s, .stat f.stat)
  | .iupdate i major minor nlink => do
    let f ← found s i
    return (update s i (some {f with major := major, minor := minor, nlink := nlink}), .none)
  | .readi i off n => do
    let f ← found s i
    if f.type = T_DEV then return (s, devsw.reads f n) else return (s, .bytes (f.read off n).1 (f.read off n).2)
  | .writei i off src => do
    let f ← found s i
    if f.type = T_DEV then return (s, devsw.writes f src) else put sb s i {f with bytes := (f.write off src).2} (.count (f.write off src).1)
  | .dirlookup i name => do
    let f ← found s i
    if f.type = T_DIR then return (s, .entry ((f.lookup (text (chars name) DIRSIZ 0)).map fun k => (f.inum k, 16 * k))) else .error .notDir
  | .iput i => match s i with
    | none => .ok (s, .none)
    | some f => if f.nlink = 0 then .ok (update s i none, .none) else .ok (s, .none)

def store (sb : Superblock) (devsw : Devsw) : Machine (Nat → Option File) Act Answer Fault := ⟨fun s => demand sb s ≤ capacity sb, storeStep sb devsw⟩

/-- The files fit on the disk after the call. -/
def Room (sb : Superblock) (devsw : Devsw) (s : Nat → Option File) (a : Act) : Prop := storeStep sb devsw s a ≠ .error .full

instance (sb : Superblock) (devsw : Devsw) (s : Nat → Option File) (a : Act) : Decidable (Room sb devsw s a) :=
  match same : storeStep sb devsw s a with
  | .ok _ => .isTrue (by simp [Room, same])
  | .error e => decidable_of_iff (e ≠ .full) (by simp [Room, same])

inductive Names : Stop Panic → Fault → Prop where
  | noFile : Names (.fails .noType) .noFile
  | noInodes : Names (.fails .noInodes) .noInodes
  | outOfBlocks : Names (.fails .outOfBlocks) .full
  | beyond : Names .beyond .full
  | notDir : Names (.fails .notDir) .notDir

/-! ### They agree -/

theorem filesUse (use : InUse sb (inodes σ) i) : files sb σ i = some ((inodes σ i).file σ) := if_pos use

theorem filesNot (not : ¬ InUse sb (inodes σ) i) : files sb σ i = none := if_neg not

theorem settlesFiles (h : Settles sb σ i σ' ip) (range : 0 < i ∧ i < sb.ninodes) : files sb σ' = update (files sb σ) i (if ip.type ≠ 0 then some (ip.file σ') else none) := by
  funext j
  by_cases here : j = i
  · subst here
    rw [update_self]
    unfold files
    have used : InUse sb (inodes σ') j ↔ ip.type ≠ 0 := by
      unfold InUse
      rw [h.inode]
      exact ⟨fun use => use.2.2, fun type => ⟨range.1, range.2, type⟩⟩
    rw [if_congr used rfl rfl, h.inode]
  · rw [update_of_ne here, h.files j here]

theorem settlesSome (h : Settles sb σ i σ' ip) (range : 0 < i ∧ i < sb.ninodes) (type : ip.type ≠ 0) (file : ip.file σ' = f) :
    files sb σ' = update (files sb σ) i (some f) := by
  rw [settlesFiles h range, if_pos type, file]

theorem iloadDoes (h : WellFormed sb σ) (range : 0 < i ∧ i < sb.ninodes) : Does sb.size (iload i) σ [] [] (fun ip σ' => ip = inodes σ i ∧ σ' = σ ∧ InUse sb (inodes σ) i)
    fun e _ => e = .fails .noType ∧ ¬ InUse sb (inodes σ) i := by
  have low := iBlockLow range.2
  refine doesBread (Nat.lt_of_lt_of_le (Nat.lt_trans low.2 (firstPos sb).2) h.layout.allotted.some.2) List.not_mem_nil (doesBrelse ?_)
  split
  · rename_i none
    exact doesPanic ⟨rfl, fun use => use.2.2 none⟩
  · rename_i some
    exact doesPure ⟨rfl, rfl, range.1, range.2, some⟩

abbrev Follows (sb : Superblock) (devsw : Devsw) (σ : Nat → Block) (a : Act) (x : Answer) (σ' : Nat → Block) : Prop :=
  WellFormed sb σ' ∧ storeStep sb devsw (files sb σ) a = .ok (files sb σ', x)

abbrev Stops (sb : Superblock) (devsw : Devsw) (σ : Nat → Block) (a : Act) (e : Stop Panic) : Prop :=
  ∃ e', Names e e' ∧ storeStep sb devsw (files sb σ) a = .error e'

theorem foundSome (here : s i = some f) : found s i = .ok f := by rw [found, here]

theorem foundNone (here : s i = none) : found s i = .error .noFile := by rw [found, here]

theorem freeInode (h : ∀ j, 0 < j → j < sb.ninodes → (inodes σ j).type ≠ 0) : (List.range' 1 (sb.ninodes - 1)).find? (fun i => (files sb σ i).isNone) = none := by
  refine List.find?_eq_none.mpr fun j mem => ?_
  obtain ⟨low, high⟩ := List.mem_range'_1.mp mem
  have less : j < sb.ninodes := by omega
  rw [filesUse ⟨low, less, h j low less⟩]
  exact Bool.false_ne_true

theorem firstInode (pos : 0 < i) (less : i < sb.ninodes) (free : (inodes σ i).type = 0) (before : ∀ j, 0 < j → j < i → (inodes σ j).type ≠ 0) :
    (List.range' 1 (sb.ninodes - 1)).find? (fun i => (files sb σ i).isNone) = some i := by
  have split' : List.range' 1 (sb.ninodes - 1) = List.range' 1 (i - 1) ++ i :: List.range' (i + 1) (sb.ninodes - 1 - i) := by
    rw [show sb.ninodes - 1 = (i - 1) + (sb.ninodes - 1 - i + 1) by omega, ← List.range'_append_1, List.range'_succ, show 1 + (i - 1) = i by omega]
    congr 3
    omega
  rw [split', List.find?_append, List.find?_eq_none.mpr fun j mem => ?_, Option.none_or, List.find?_cons_of_pos]
  · rw [filesNot fun use => use.2.2 free]
    rfl
  · obtain ⟨low, high⟩ := List.mem_range'_1.mp mem
    rw [filesUse ⟨low, by omega, before j low (by omega)⟩]
    exact Bool.false_ne_true

theorem loadDoes (h : WellFormed sb σ) {a : Act} (range : 0 < i ∧ i < sb.ninodes) {k : Inode → Io Answer} {Q : Answer → (Nat → Block) → Prop}
    (missing : files sb σ i = none → storeStep sb devsw (files sb σ) a = .error .noFile)
    (next : InUse sb (inodes σ) i → Does sb.size (k (inodes σ i)) σ [] [] Q fun e _ => Stops sb devsw σ a e) :
    Does sb.size (iload i >>= k) σ [] [] Q fun e _ => Stops sb devsw σ a e := by
  refine ((iloadDoes h range).weaken (fun ip σ' done => done) fun e _ stop => ?_).bind fun ip σ' done => ?_
  · obtain ⟨rfl, not⟩ := stop
    exact ⟨.noFile, .noFile, missing (filesNot not)⟩
  · obtain ⟨rfl, rfl, use⟩ := done
    exact next use

theorem iupdateSettles (h : WellFormed sb σ) (use : InUse sb (inodes σ) i) (major minor nlink : UInt16) {F : Stop Panic → (Nat → Block) → Prop} :
    Does sb.size (iupdate i {inodes σ i with major := major, minor := minor, nlink := nlink}) σ [] []
      (fun _ σ' => WellFormed sb σ' ∧ files sb σ' = update (files sb σ) i (some {(inodes σ i).file σ with major := major, minor := minor, nlink := nlink})) F := by
  have sized := h.sized i use
  have layout : Layout sb σ (update (inodes σ) i (inodes σ i)) := by rw [update_eq_self]; exact h.layout
  have left : Leaves sb σ i σ {inodes σ i with major := major, minor := minor, nlink := nlink} :=
    ⟨layoutFields layout rfl rfl, fun _ => sized.congr rfl (fun _ => rfl) rfl, fun _ _ _ _ _ => rfl, fun _ _ => rfl⟩
  refine (iupdateDoes left.layout use.2.1).weaken (fun _ σ' written => ?_) fun _ _ stop => stop
  have words : (inodes σ i).size < 2 ^ 32 := by
    have fits := sized.fits
    unfold MAXFILE BSIZE at fits
    omega
  obtain ⟨settled, kept⟩ := left.written h ⟨use.1, use.2.1⟩ words (addrsFit h.layout use)
  rw [written]
  exact ⟨settled.wellFormed, settlesSome settled ⟨use.1, use.2.1⟩ use.2.2 (kept use.2.2)⟩

theorem readiFollows (h : WellFormed sb σ) (use : InUse sb (inodes σ) i) {off : Nat} (words : n < 2 ^ 32) {F : Stop Panic → (Nat → Block) → Prop} :
    Does sb.size (readi devsw (inodes σ i) off n) σ [] [] (fun x σ' => Follows sb devsw σ (.readi i off n) (.bytes x.1 x.2.1) σ') F := by
  by_cases device : (inodes σ i).type = T_DEV
  · have step : storeStep sb devsw (files sb σ) (.readi i off n) = .ok (files sb σ, devsw.reads ((inodes σ i).file σ) n) := by
      rw [storeStep, foundSome (filesUse use)]
      exact if_pos device
    unfold readi
    rw [if_pos device]
    unfold Devsw.reads at step
    change storeStep sb devsw (files sb σ) (.readi i off n) =
      .ok (files sb σ, match if (inodes σ i).major.toNat < NDEV then devsw.read (inodes σ i).major.toNat else none with
        | none => .bytes (-1) []
        | some read => .bytes (read n).1 (read n).2) at step
    generalize (if (inodes σ i).major.toNat < NDEV then devsw.read (inodes σ i).major.toNat else none) = driver at step ⊢
    cases driver with
    | none => exact doesPure ⟨h, step⟩
    | some read => exact doesPure ⟨h, step⟩
  · refine (readiDoes h use device words).weaken (fun x σ' done => ?_) fun _ _ stop => stop
    obtain ⟨answer, _, rfl⟩ := done
    refine ⟨h, ?_⟩
    rw [storeStep, foundSome (filesUse use)]
    refine (if_neg device).trans ?_
    rw [← answer]
    rfl

theorem writeFits (off : Nat) (src : List UInt8) (sized : Sized σ ip) :
    ip.size ≤ ((ip.file σ).write off src).2.length ∧ ((ip.file σ).write off src).2.length ≤ MAXFILE * BSIZE := by
  have fits := sized.fits
  unfold File.write
  split
  · rw [bytesLength]
    exact ⟨le_rfl, fits⟩
  · rename_i near
    rw [bytesLength] at near
    dsimp only
    rw [spliceLength (by rw [bytesLength]; omega), bytesLength, List.length_take]
    omega

theorem writeiFollows (h : WellFormed sb σ) (use : InUse sb (inodes σ) i) {off : Nat} {src : List UInt8} (words : src.length < 2 ^ 32) :
    Does sb.size (writei devsw i (inodes σ i) off src) σ [] [] (fun x σ' => Follows sb devsw σ (.writei i off src) (.count x.1) σ')
      fun e _ => Stops sb devsw σ (.writei i off src) e := by
  by_cases device : (inodes σ i).type = T_DEV
  · have step : storeStep sb devsw (files sb σ) (.writei i off src) = .ok (files sb σ, devsw.writes ((inodes σ i).file σ) src) := by
      rw [storeStep, foundSome (filesUse use)]
      exact if_pos device
    unfold writei
    rw [if_pos device]
    change storeStep sb devsw (files sb σ) (.writei i off src) =
      .ok (files sb σ, match if (inodes σ i).major.toNat < NDEV then devsw.write (inodes σ i).major.toNat else none with
        | none => .count (-1)
        | some write => .count (write src)) at step
    generalize (if (inodes σ i).major.toNat < NDEV then devsw.write (inodes σ i).major.toNat else none) = driver at step ⊢
    cases driver with
    | none => exact doesPure ⟨h, step⟩
    | some write => exact doesPure ⟨h, step⟩
  · have step : storeStep sb devsw (files sb σ) (.writei i off src) = put sb (files sb σ) i
        {(inodes σ i).file σ with bytes := (((inodes σ i).file σ).write off src).2} (.count (((inodes σ i).file σ).write off src).1) := by
      rw [storeStep, foundSome (filesUse use)]
      exact if_neg device
    obtain ⟨le, fits⟩ := writeFits off src (h.sized i use)
    refine (writeiDoes h use device words).weaken (fun x σ' done => ?_) fun e _ stop => ?_
    · obtain ⟨count, settled, file⟩ := done
      have type : x.2.type ≠ 0 := by
        have same : x.2.type = (inodes σ i).type := congrArg File.type file
        rw [same]
        exact use.2.2
      have changed := settlesSome settled ⟨use.1, use.2.1⟩ type file
      refine ⟨settled.wellFormed, ?_⟩
      have room := demandFits settled.wellFormed
      rw [changed] at room
      rw [step, put, if_pos room, changed, count]
    · obtain ⟨reason, spent⟩ := stop
      have exceeds := spentExceeds (f := {(inodes σ i).file σ with bytes := (((inodes σ i).file σ).write off src).2}) h use spent le fits rfl
      refine ⟨.full, ?_, ?_⟩
      · rcases reason with rfl | rfl
        · exact .outOfBlocks
        · exact .beyond
      · rw [step, put, if_neg (Nat.not_le.mpr exceeds)]

theorem ilastDoes (devsw : Devsw) (h : WellFormed sb σ) (range : 0 < i ∧ i < sb.ninodes) {F : Stop Panic → (Nat → Block) → Prop} :
    Does sb.size (ilast i) σ [] [] (fun _ σ' => Follows sb devsw σ (.iput i) .none σ') F := by
  have low := iBlockLow range.2
  refine doesBread (Nat.lt_of_lt_of_le (Nat.lt_trans low.2 (firstPos sb).2) h.layout.allotted.some.2) List.not_mem_nil (doesBrelse ?_)
  by_cases use : InUse sb (inodes σ) i
  · have step : storeStep sb devsw (files sb σ) (.iput i) =
        if (inodes σ i).nlink = 0 then .ok (update (files sb σ) i none, .none) else .ok (files sb σ, .none) := by
      rw [storeStep, filesUse use]
      rfl
    split
    · rename_i last
      refine (ifreeDoes h use).weaken (fun _ σ' done => ?_) fun _ _ stop => stop
      obtain ⟨ip, type, settled⟩ := done
      refine ⟨settled.wellFormed, ?_⟩
      rw [step, if_pos (show (inodes σ i).nlink = 0 from last.2), settlesFiles settled range, if_neg fun bad => bad type]
    · rename_i more
      refine doesPure ⟨h, ?_⟩
      rw [step, if_neg fun (none : (inodes σ i).nlink = 0) => more ⟨use.2.2, none⟩]
  · rw [if_neg fun last => use ⟨range.1, range.2, last.1⟩]
    refine doesPure ⟨h, ?_⟩
    rw [storeStep, filesNot use]

theorem progDoes (devsw : Devsw) (h : WellFormed sb σ) {a : Act} (known : Known sb a) :
    Does sb.size (a.prog devsw) σ [] [] (Follows sb devsw σ a) fun e _ => Stops sb devsw σ a e := by
  cases a with
  | ialloc type =>
    refine ((iallocDoes h).weaken (fun j σ' done => done) fun e _ stop => ?_).bind fun j σ' done => doesPure ?_
    · obtain ⟨rfl, used⟩ := stop
      refine ⟨.noInodes, .noInodes, ?_⟩
      rw [storeStep, freeInode used]
    · obtain ⟨pos, less, free, before, settled⟩ := done
      refine ⟨settled.wellFormed, ?_⟩
      rw [storeStep, firstInode pos less free before, settlesSome settled ⟨pos, less⟩ known rfl]
      rfl
  | iupdate i major minor nlink =>
    refine loadDoes h known (fun none => by rw [storeStep, foundNone none]; rfl) fun use => ?_
    refine (iupdateSettles h use major minor nlink).bind fun _ σ' done => doesPure ⟨done.1, ?_⟩
    rw [storeStep, foundSome (filesUse use), done.2]
    rfl
  | readi i off n =>
    exact loadDoes h ⟨known.1, known.2.1⟩ (fun none => by rw [storeStep, foundNone none]; rfl) fun use =>
      (readiFollows h use known.2.2).bind fun x σ' done => doesPure done
  | writei i off src =>
    exact loadDoes h ⟨known.1, known.2.1⟩ (fun none => by rw [storeStep, foundNone none]; rfl) fun use =>
      (writeiFollows h use known.2.2).bind fun x σ' done => doesPure done
  | inode i =>
    refine loadDoes h known (fun none => by rw [storeStep, foundNone none]; rfl) fun use => doesPure ⟨h, ?_⟩
    rw [storeStep, foundSome (filesUse use), ← bytesLength (σ := σ)]
    rfl
  | dirlookup i name =>
    refine loadDoes h known (fun none => by rw [storeStep, foundNone none]; rfl) fun use => ?_
    by_cases dir : (inodes σ i).type = T_DIR
    · refine (dirlookupDoes h use dir (chars name)).bind fun x σ' done => doesPure ?_
      rw [done.1, done.2]
      refine ⟨h, ?_⟩
      rw [storeStep, foundSome (filesUse use)]
      exact if_pos dir
    · unfold dirlookup
      rw [if_pos dir]
      refine doesPanic ⟨.notDir, .notDir, ?_⟩
      rw [storeStep, foundSome (filesUse use)]
      exact if_neg dir
  | iput i => exact (ilastDoes devsw h known).bind fun _ σ' done => doesPure done

theorem progYields (devsw : Devsw) (h : WellFormed sb σ) {a : Act} (known : Known sb a) (room : Room sb devsw (files sb σ) a) :
    Yields (a.prog devsw) σ [] [] (Follows sb devsw σ a) fun e _ => Stops sb devsw σ a e := by
  refine (progDoes devsw h known).yields fun σ' stop => ?_
  obtain ⟨_, names, full⟩ := stop
  cases names with
  | beyond => exact room full

theorem stepMatched (devsw : Devsw) (h : WellFormed sb σ) {a : Act} (known : Known sb a) (room : Room sb devsw (files sb σ) a) :
    Machine.Matched (fun σ s => WellFormed sb σ ∧ s = files sb σ) (step devsw σ a) (storeStep sb devsw (files sb σ) a) := by
  have yields := progYields devsw h known room
  unfold Yields at yields
  unfold step
  generalize (a.prog devsw).run σ [] = r at yields ⊢
  obtain ⟨e | x, σ', held⟩ := r
  · obtain ⟨_, _, ok⟩ := yields
    rw [ok]
    exact .stop
  · obtain ⟨_, fine, ok⟩ := yields
    rw [ok]
    exact .next ⟨fine, rfl⟩

/-! ### Whole runs -/

/-- What may be asked while there is room. -/
abbrev Fitting (sb : Superblock) (devsw : Devsw) (σ : Nat → Block) (a : Act) : Prop := Known sb a ∧ Room sb devsw (files sb σ) a

/-- As long as the files fit on the disk the calls give the answers that the store of files
gives, and stop when it stops. -/
theorem filesRefine (h : WellFormed sb σ) {acts : List Act} (fitting : (machine sb devsw).Passes (Fitting sb devsw) σ acts) :
    Machine.Matched (fun σ s => WellFormed sb σ ∧ s = files sb σ) ((machine sb devsw).run σ acts) ((store sb devsw).run (files sb σ) acts) := by
  refine Machine.runMatched (Q := Fitting sb devsw) (fun σ s a related fits => ?_) ⟨h, rfl⟩ fitting
  obtain ⟨fine, rfl⟩ := related
  exact stepMatched devsw fine fits.1 fits.2

/-- There is room in every state on the way if the store of files gets to the end. -/
theorem fittingRun (h : WellFormed sb σ) {acts : List Act} (known : ∀ a ∈ acts, Known sb a) {s : Nat → Option File} {os : List Answer}
    (ok : (store sb devsw).run (files sb σ) acts = .ok (s, os)) : (machine sb devsw).Passes (Fitting sb devsw) σ acts := by
  induction acts generalizing σ os with
  | nil => trivial
  | cons a rest ih =>
    obtain ⟨mid, o, os', here, later, _⟩ := Machine.runCons ok
    have stored : storeStep sb devsw (files sb σ) a = .ok (mid, o) := here
    have room : Room sb devsw (files sb σ) a := by simp [Room, stored]
    refine ⟨⟨known a List.mem_cons_self, room⟩, fun σ' o' step => ?_⟩
    have matched := stepMatched devsw h (known a List.mem_cons_self) room
    rw [stored, show Fs.step devsw σ a = .ok (σ', o') from step] at matched
    cases matched with
    | next related => exact ih related.1 (fun a mem => known a (List.mem_cons_of_mem _ mem)) (related.2 ▸ later)

theorem reachWellFormed (reach : (machine sb devsw).Reach (Fitting sb devsw) σ) : WellFormed sb σ :=
  Machine.Reach.invariant (fun _ first => first) (fun σ a σ' x h fits ok => by
    have matched := stepMatched devsw h fits.1 fits.2
    have ok' : step devsw σ a = .ok (σ', x) := ok
    rw [ok'] at matched
    generalize storeStep sb devsw (files sb σ) a = y at matched
    cases matched with
    | next related => exact related.1) reach

/-- The bitmap says which blocks are taken, and by whom: nobody shares one, those that are free
are blank, and there are as many as the files leave. -/
theorem blocksAccounted (reach : (machine sb devsw).Reach (Fitting sb devsw) σ) :
    (∀ b < sb.size, taken sb σ b = true ↔ b < sb.first ∨ ∃ i s, InUse sb (inodes σ) i ∧ (inodes σ i).block σ s = b) ∧
      (∀ i j s s', InUse sb (inodes σ) i → InUse sb (inodes σ) j → (inodes σ i).block σ s = (inodes σ j).block σ s' → (inodes σ i).block σ s ≠ 0 → i = j ∧ s = s') ∧
      (∀ b < sb.size, taken sb σ b = false → ∀ o < BSIZE, σ b o = 0) ∧
      demand sb (files sb σ) + ((Finset.Ico sb.first sb.size).filter fun b => taken sb σ b = false).card = capacity sb := by
  have h := reachWellFormed reach
  refine ⟨fun b less => ?_, fun i j s s' use use' same some => h.layout.apart use use' same some, h.layout.blank, ?_⟩
  · by_cases low : b < sb.first
    · exact iff_of_true (h.layout.allotted.below b low) (.inl low)
    · rw [h.layout.allotted.marked b (Nat.not_lt.mp low) less, or_iff_right low]
      have pos : b ≠ 0 := by
        have := firstPos sb
        omega
      constructor
      · rintro ⟨⟨i, s⟩, mine⟩
        unfold holds at mine
        split at mine
        · rename_i use
          exact ⟨i, s, use, mine⟩
        · exact absurd mine.symm pos
      · rintro ⟨i, s, use, mine⟩
        exact ⟨(i, s), (holdsUse use).trans mine⟩
  · have parts := Finset.card_filter_add_card_filter_not (s := Finset.Ico sb.first sb.size) fun b => taken sb σ b = true
    rw [demandTaken h, capacity, ← Nat.card_Ico, ← parts]
    simp only [Bool.not_eq_true]

/-- As long as there is room a call gives back the buffers that it took, never waits for a
buffer of its own, and stops only where the store does: it finds no block free that it frees. -/
theorem callsEnd (reach : (machine sb devsw).Reach (Fitting sb devsw) σ) {a : Act} (known : Known sb a) (room : Room sb devsw (files sb σ) a) :
    Yields (a.prog devsw) σ [] [] (fun x σ' => storeStep sb devsw (files sb σ) a = .ok (files sb σ', x))
      fun e _ => ∃ e', Names e e' ∧ e' ≠ .full ∧ storeStep sb devsw (files sb σ) a = .error e' := by
  have yields := progYields devsw (reachWellFormed reach) known room
  unfold Yields at yields ⊢
  split at yields
  · exact ⟨yields.1, yields.2.2⟩
  · obtain ⟨e', names, stop⟩ := yields
    exact ⟨e', names, fun full => room (full ▸ stop), stop⟩

end OpSys.Fs
