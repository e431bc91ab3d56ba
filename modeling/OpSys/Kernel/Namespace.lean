import Mathlib.Data.Nat.Find
import Mathlib.Tactic.Push
import OpSys.Kernel.Tree

/-! What the calls are for: files that are there as long as they have a name or a user. Of
directories there are the names only, and of links nothing. -/
namespace OpSys.Sysfile
open Function OpSys.Fs OpSys.Hierarchy

inductive Node where
  | dir (names : Name → Option Nat)
  | file (type major minor : UInt16) (bytes : List UInt8)

abbrev Space := Nat → Option Node

variable {sb : Superblock} {s : Nat → Option File} {refs : List Nat} {i j k ip dp inum cwd : Nat} {f g : File} {name n last : Name} {path : List UInt8}
  {names : Name → Option Nat} {space : Space}

def follow (space : Space) (parent : Bool) : Nat → List Name → Name → Option (Nat × Name)
  | ip, [], last => if parent then none else some (ip, last)
  | ip, name :: rest, _ => match space ip with
    | some (.dir names) =>
      if parent ∧ rest = [] then some (ip, name)
      else match names name with
        | none => none
        | some i => follow space parent i rest name
    | _ => none

/-- Where a path leads. -/
def under (space : Space) (parent : Bool) (path : List UInt8) (cwd : Nat) : Option (Nat × Name) := follow space parent (start path cwd) (elems path) []

def Named (space : Space) (i : Nat) : Prop := ∃ d names n, space d = some (.dir names) ∧ names n = some i

/-- There is something in the directory. -/
def Busy (space : Space) (i : Nat) : Prop := ∃ names n, space i = some (.dir names) ∧ n ≠ dot ∧ n ≠ dotdot ∧ names n ≠ none

open Classical in
/-- A file without a name and without users is no more. -/
noncomputable def sweep (space : Space) (users : List Nat) (i : Nat) : Space := if Named space i ∨ i ∈ users then space else update space i none

def enter (space : Space) (dp : Nat) (names : Name → Option Nat) (name : Name) (i : Option Nat) : Space := update space dp (some (.dir (update names name i)))

def isDir (space : Space) (i : Nat) : Bool := match space i with
  | some (.dir _) => true
  | _ => false

def linkInto (space : Space) (new : List UInt8) (cwd ip : Nat) : Space × Int := match under space true new cwd with
  | none => (space, -1)
  | some (dp, name) => match space dp with
    | some (.dir names) => if names name = none then (enter space dp names name ip, 0) else (space, -1)
    | _ => (space, -1)

def linkSpace (space : Space) (old new : List UInt8) (cwd : Nat) : Space × Int := match under space false old cwd with
  | none => (space, -1)
  | some (ip, _) => if isDir space ip then (space, -1) else linkInto space new cwd ip

open Classical in
noncomputable def unlinkSpace (space : Space) (users : List Nat) (path : List UInt8) (cwd : Nat) : Space × Int := match under space true path cwd with
  | none => (space, -1)
  | some (dp, name) =>
    if name = dot ∨ name = dotdot then (space, -1)
    else match space dp with
      | some (.dir names) => match names name with
        | none => (space, -1)
        | some ip =>
          if Busy space ip then (space, -1)
          else if isDir space ip then (sweep (update (enter space dp names name none) ip (some (.dir fun _ => none))) users ip, 0)
          else (sweep (enter space dp names name none) users ip, 0)
      | _ => (space, -1)

open Classical in
/-- The first number that is free. -/
noncomputable def fresh (space : Space) : Nat := if free : ∃ i, 0 < i ∧ space i = none then Nat.find free else 0

/-- A new file in the directory, and its number. -/
noncomputable def madeSpace (space : Space) (dp : Nat) (names : Name → Option Nat) (name : Name) (type major minor : UInt16) : Space × Nat :=
  if type = T_DIR then
    (enter (update space (fresh space) (some (.dir (update (update (fun _ => none) dotdot (some dp)) dot (some (fresh space)))))) dp names name (fresh space), fresh space)
  else (enter (update space (fresh space) (some (.file type major minor []))) dp names name (fresh space), fresh space)

noncomputable def createSpace (space : Space) (path : List UInt8) (type major minor : UInt16) (cwd : Nat) : Option (Space × Nat) := match under space true path cwd with
  | none => none
  | some (dp, name) => match space dp with
    | some (.dir names) => match names name with
      | some ip => match space ip with
        | some (.file type' _ _ _) => if type = T_FILE ∧ type' = T_FILE then some (space, ip) else none
        | _ => none
      | none => some (madeSpace space dp names name type major minor)
    | _ => none

/-! ### What the files stand for -/


/-- A directory that has been removed has no names. -/
def contents (f : File) : Name → Option Nat := fun n => if f.nlink = 0 then none else (f.lookup n).map f.inum

def node (f : File) : Node := if f.type = T_DIR then .dir (contents f) else .file f.type f.major f.minor f.bytes

def spaceOf (s : Nat → Option File) : Space := fun i => (s i).map node

theorem contentsSome (folder : Folder i f) (live : f.nlink ≠ 0) : contents f n = some j ↔ ∃ k < f.slots, f.inum k ≠ 0 ∧ f.name k = n ∧ f.inum k = j := by
  unfold contents
  rw [if_neg live, Option.map_eq_some_iff]
  constructor
  · rintro ⟨k, found, inum⟩
    obtain ⟨less, some, name⟩ := lookupSome found
    exact ⟨k, less, some, name, inum⟩
  · rintro ⟨k, less, some, rfl, inum⟩
    exact ⟨k, folder.lookup less some, inum⟩

theorem contentsEnter (folder : Folder dp f) (live : f.nlink ≠ 0) (pos : dp ≠ 0) (fits : inum < 2 ^ 16) (some : inum ≠ 0) (place : Place f k name) :
    contents (f.enter k inum name) = update (contents f) name inum := by
  have high := place.high folder pos
  have inums := enterInum folder.whole place.place fits name
  have names := enterName folder.whole place.place inum name
  funext n
  refine Option.ext fun j => ?_
  rw [contentsSome (folder.enter place.place high fits place.proper place.fresh) live, update_apply]
  constructor
  · rintro ⟨m, less, live', name', inum'⟩
    rw [inums] at live' inum'
    rw [names] at name'
    rw [enterSlots folder.whole place.place] at less
    by_cases new : m = k
    · rw [if_pos new, textName place.proper] at name'
      rw [if_pos new] at inum'
      rw [if_pos name'.symm, inum']
    · rw [if_neg new] at name' inum' live'
      have old : m < f.slots := by
        have le := place.place
        omega
      have other : n ≠ name := fun same => lookupNone place.fresh old live' (name'.trans same)
      rw [if_neg other]
      exact (contentsSome folder live).mpr ⟨m, old, live', name', inum'⟩
  · intro here
    have slots := enterSlots folder.whole place.place inum name
    split at here
    · rename_i same
      cases here
      refine ⟨k, by omega, ?_, ?_, ?_⟩
      · rwa [inums, if_pos rfl]
      · rw [names, if_pos rfl, textName place.proper, same]
      · rw [inums, if_pos rfl]
    · obtain ⟨m, less, live', name', inum'⟩ := (contentsSome folder live).mp here
      have other : m ≠ k := fun same => live' (same ▸ place.empty (same ▸ less))
      refine ⟨m, by omega, ?_, ?_, ?_⟩
      · rwa [inums, if_neg other]
      · rwa [names, if_neg other]
      · rwa [inums, if_neg other]

theorem contentsClear (folder : Folder dp f) (live : f.nlink ≠ 0) (less : k < f.slots) (high : 2 ≤ k) (some : f.inum k ≠ 0) (live' : (cleared f k g).nlink ≠ 0) :
    contents (cleared f k g) = update (contents f) (f.name k) none := by
  have inums := enterInum folder.whole less.le (show 0 < 2 ^ 16 by decide) []
  have names := enterName folder.whole less.le 0 []
  have entries := folder.clear less high
  have folder' : Folder dp (cleared f k g) :=
    ⟨entries.whole, entries.long, entries.self, entries.dot, entries.up, entries.dotdot, entries.distinct, entries.proper⟩
  have slots : (cleared f k g).slots = f.slots := by
    have all := enterSlots folder.whole less.le 0 []
    have same : (cleared f k g).slots = (f.enter k 0 []).slots := rfl
    omega
  have inum' : ∀ m, (cleared f k g).inum m = if m = k then 0 else f.inum m := inums
  have name' : ∀ m, (cleared f k g).name m = if m = k then text (chars []) DIRSIZ 0 else f.name m := names
  funext n
  refine Option.ext fun j => ?_
  rw [contentsSome folder' live', update_apply]
  constructor
  · rintro ⟨m, less', some', same, here⟩
    rw [inum'] at some' here
    rw [name'] at same
    have other : m ≠ k := fun bad => some' (if_pos bad)
    rw [if_neg other] at some' here same
    rw [slots] at less'
    have differ : n ≠ f.name k := fun bad => other (folder.distinct m less' k less some' some (same.trans bad))
    rw [if_neg differ]
    exact (contentsSome folder live).mpr ⟨m, less', some', same, here⟩
  · intro here
    split at here
    · cases here
    · rename_i differ
      obtain ⟨m, less', some', same, here⟩ := (contentsSome folder live).mp here
      have other : m ≠ k := fun bad => differ (bad ▸ same.symm)
      refine ⟨m, slots ▸ less', ?_, ?_, ?_⟩
      · rwa [inum', if_neg other]
      · rwa [name', if_neg other]
      · rwa [inum', if_neg other]

theorem nodeDir (dir : f.type = T_DIR) : node f = .dir (contents f) := if_pos dir

theorem nodeFile (leaf : f.type ≠ T_DIR) : node f = .file f.type f.major f.minor f.bytes := if_neg leaf

theorem spaceAt (here : s i = some f) : spaceOf s i = some (node f) := by
  unfold spaceOf
  rw [here]
  rfl

theorem spaceNone (here : s i = none) : spaceOf s i = none := by
  unfold spaceOf
  rw [here]
  rfl

theorem spaceUpdate (s : Nat → Option File) (i : Nat) (o : Option File) : spaceOf (update s i o) = update (spaceOf s) i (o.map node) := by
  funext j
  unfold spaceOf
  rw [update_apply, update_apply]
  split <;> rfl

theorem spaceIsDir (here : s i = some f) : isDir (spaceOf s) i = decide (f.type = T_DIR) := by
  unfold isDir
  rw [spaceAt here]
  by_cases dir : f.type = T_DIR
  · rw [nodeDir dir, decide_eq_true dir]
  · rw [nodeFile dir, decide_eq_false dir]

theorem freshFirst (pos : 0 < i) (free : s i = none) (before : ∀ j, 0 < j → j < i → s j ≠ none) : fresh (spaceOf s) = i := by
  have some : ∃ i, 0 < i ∧ spaceOf s i = none := ⟨i, pos, spaceNone free⟩
  unfold fresh
  rw [dif_pos some]
  refine (Nat.find_eq_iff some).mpr ⟨⟨pos, spaceNone free⟩, fun j less bad => before j bad.1 less ?_⟩
  simpa [spaceOf] using bad.2

/-- Paths lead to the same place. -/
theorem followWalk (graph : Graph sb s) {parent : Bool} {elements : List Name} (live : Live s ip) :
    walk s parent ip elements last = follow (spaceOf s) parent ip elements last := by
  induction elements generalizing ip last with
  | nil => rfl
  | cons name rest ih =>
    obtain ⟨f, here, some⟩ := live
    unfold walk follow
    rw [here, spaceAt here]
    by_cases dir : f.type = T_DIR
    · have linked : Linked s ip f := ⟨here, dir, some⟩
      rw [nodeDir dir]
      simp only [dir, ne_eq, not_true_eq_false, if_false]
      refine if_congr Iff.rfl rfl ?_
      unfold contents
      rw [if_neg some]
      cases found : f.lookup name with
      | none => rfl
      | some k => exact ih (linked.next graph found)
    · rw [nodeFile dir]
      simp [dir]

theorem underResolve (graph : Graph sb s) {parent : Bool} (live : path.head? ≠ some slash → Live s cwd) :
    resolve s parent path cwd = under (spaceOf s) parent path cwd := by
  refine followWalk graph ?_
  unfold start
  split
  · exact graph.top
  · rename_i below
    exact live below

/-- What has a link has a name, and what has none has none. -/
theorem namedLinks (tree : Tree sb s refs) (here : s i = some f) : Named (spaceOf s) i ↔ f.nlink ≠ 0 := by
  have graph := tree.graph
  constructor
  · rintro ⟨d, names, n, there, mine⟩
    cases at' : s d with
    | none =>
      rw [spaceNone at'] at there
      cases there
    | some g =>
      rw [spaceAt at'] at there
      by_cases dir : g.type = T_DIR
      · rw [nodeDir dir] at there
        cases there
        have live : g.nlink ≠ 0 := fun zero => by
          unfold contents at mine
          rw [if_pos zero] at mine
          cases mine
        have linked : Linked s d g := ⟨at', dir, live⟩
        obtain ⟨k, less, some, _, rfl⟩ := (contentsSome (graph.folder d g linked) live).mp mine
        obtain ⟨h, there, live'⟩ := linked.named graph less some
        cases here.symm.trans there
        exact live'
      · rw [nodeFile dir] at there
        cases there
  · intro live
    have pos : 0 < links sb s i := by
      rw [← tree.counted i f here]
      exact Nat.pos_of_ne_zero fun zero => live (UInt16.toNat_inj.mp zero)
    obtain ⟨d, g, k, linked, _, less, inum⟩ := (linksPos graph.range).mp pos
    have some : g.inum k ≠ 0 := by
      rw [inum]
      exact Nat.pos_iff_ne_zero.mp (graph.range i f here).1
    refine ⟨d, contents g, g.name k, ?_, (contentsSome (graph.folder d g linked) linked.2.2).mpr ⟨k, less, some, rfl, inum⟩⟩
    rw [spaceAt linked.1, nodeDir linked.2.1]

/-- `iput` frees what has no name and no user. -/
theorem sweepReleased (tree : Tree sb s (i :: refs)) : spaceOf (released s (i :: refs) i) = sweep (spaceOf s) refs i := by
  obtain ⟨f, here⟩ := tree.held i List.mem_cons_self
  unfold sweep
  rw [namedLinks tree here]
  by_cases still : i ∈ refs
  · rw [releasedHeld (by rwa [List.erase_cons_head]), if_pos (.inr still)]
  · by_cases bare : f.nlink = 0
    · rw [releasedLast here bare List.mem_cons_self (by rwa [List.erase_cons_head]), if_neg (not_or.mpr ⟨not_not.mpr bare, still⟩), spaceUpdate]
      rfl
    · rw [releasedLinked here bare, if_pos (.inl bare)]

theorem busyBare (mine : Linked s i g) (folder : Folder i g) (pos : i ≠ 0) : Busy (spaceOf s) i ↔ ¬ Bare g := by
  constructor
  · rintro ⟨names, n, there, notDot, notDots, some⟩ bare
    rw [spaceAt mine.1, nodeDir mine.2.1] at there
    cases there
    obtain ⟨j, here⟩ := Option.ne_none_iff_exists'.mp some
    obtain ⟨k, less, live, name, _⟩ := (contentsSome folder mine.2.2).mp here
    rcases Nat.lt_or_ge k 2 with low | high
    · rcases Nat.le_one_iff_eq_zero_or_eq_one.mp (Nat.le_of_lt_succ low) with rfl | rfl
      · exact notDot (name.symm.trans folder.dot)
      · exact notDots (name.symm.trans folder.dotdot)
    · exact live (bare k high less)
  · intro some
    unfold Bare at some
    push Not at some
    obtain ⟨k, high, less, live⟩ := some
    have long := folder.long
    refine ⟨contents g, g.name k, ?_, fun same => ?_, fun same => ?_, ?_⟩
    · rw [spaceAt mine.1, nodeDir mine.2.1]
    · have first : g.inum 0 ≠ 0 := by
        rwa [folder.self]
      have bad := folder.distinct k less 0 (by omega) live first (same.trans folder.dot.symm)
      omega
    · have bad := folder.distinct k less 1 (by omega) live folder.up (same.trans folder.dotdot.symm)
      omega
    · rw [(contentsSome folder mine.2.2).mpr ⟨k, less, live, rfl, rfl⟩]
      exact Option.some_ne_none _

end OpSys.Sysfile
