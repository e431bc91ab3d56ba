import OpSys.Kernel.Asking
import OpSys.Lib.Hierarchy

/-! The directories as a graph, and where a path leads in it. -/
namespace OpSys.Sysfile
open Function OpSys.Bytes OpSys.Transition OpSys.Scripts OpSys.Fs OpSys.Hierarchy

variable {ρ : Type} {sb : Superblock} {devsw : Devsw} {s : Nat → Option File} {refs : List Nat} {d i j k ip cwd : Nat} {f g : File} {name last : Name}
  {path : List UInt8} {Q : ρ → (Nat → Option File) × List Nat → Prop}

/-- A file that has not been removed. -/
def Live (s : Nat → Option File) (i : Nat) : Prop := ∃ f, s i = some f ∧ f.nlink ≠ 0

def Linked (s : Nat → Option File) (d : Nat) (f : File) : Prop := s d = some f ∧ f.type = T_DIR ∧ f.nlink ≠ 0

/-- In place `k` of the directory stands `i`. -/
def Holds (f : File) (k i : Nat) : Prop := f.type = T_DIR ∧ f.nlink ≠ 0 ∧ k < f.slots ∧ f.inum k = i ∧ i ≠ 0

/-- The first two entries of a directory are for itself and for the one that it is in. -/
def shape (s : Nat → Option File) : Shape Nat Nat where
  live := Live s
  dir i := ∃ f, Linked s i f
  child d k i := 2 ≤ k ∧ ∃ f, s d = some f ∧ Holds f k i
  up i := ((s i).map fun f => f.inum 1).getD 0
  root := ROOTINO

structure Graph (sb : Superblock) (s : Nat → Option File) : Prop where
  range : ∀ i f, s i = some f → 0 < i ∧ i < sb.ninodes
  short : ∀ i f, s i = some f → f.bytes.length ≤ MAXFILE * BSIZE
  folder : ∀ i f, Linked s i f → Folder i f
  sound : Sound (shape s)

theorem Linked.live (h : Linked s d f) : Live s d := ⟨f, h.1, h.2.2⟩

theorem Live.range (graph : Graph sb s) (live : Live s i) : 0 < i ∧ i < sb.ninodes := by
  obtain ⟨f, here, _⟩ := live
  exact graph.range i f here

theorem Linked.open' (graph : Graph sb s) (h : Linked s d f) : Open sb s d f :=
  ⟨h.1, h.2.1, graph.range d f h.1, (graph.folder d f h).whole, graph.short d f h.1⟩

theorem Linked.same (h : Linked s d f) (h' : Linked s d g) : f = g := Option.some.inj (h.1.symm.trans h'.1)

theorem Linked.up (graph : Graph sb s) (h : Linked s d f) : ∃ g, Linked s (f.inum 1) g := by
  have above := (graph.sound.parent d ⟨f, h⟩).1
  have here : (shape s).up d = f.inum 1 := by simp [shape, h.1]
  rwa [here] at above

/-- No entry of a directory is for a file that has been removed. -/
theorem Linked.named (graph : Graph sb s) (h : Linked s d f) (less : k < f.slots) (some : f.inum k ≠ 0) : Live s (f.inum k) := by
  rcases Nat.lt_or_ge k 2 with low | high
  · rcases Nat.le_one_iff_eq_zero_or_eq_one.mp (Nat.le_of_lt_succ low) with rfl | rfl
    · rw [(graph.folder d f h).self]
      exact h.live
    · obtain ⟨g, above⟩ := h.up graph
      exact above.live
  · exact (graph.sound.named d k _ ⟨high, f, h.1, h.2.1, h.2.2, less, rfl, some⟩).2

theorem Linked.next (graph : Graph sb s) (h : Linked s d f) (found : f.lookup name = some k) : Live s (f.inum k) := by
  obtain ⟨less, some, _⟩ := lookupSome found
  exact h.named graph less some

/-! ### Paths -/

/-- Where the elements lead from `ip`. With `parent` the last of them stays. -/
def walk (s : Nat → Option File) (parent : Bool) : Nat → List Name → Name → Option (Nat × Name)
  | ip, [], last => if parent then none else some (ip, last)
  | ip, name :: rest, _ => match s ip with
    | none => none
    | some f =>
      if f.type ≠ T_DIR then none
      else if parent ∧ rest = [] then some (ip, name)
      else match f.lookup name with
        | none => none
        | some k => walk s parent (f.inum k) rest name

def start (path : List UInt8) (cwd : Nat) : Nat := if path.head? = some slash then ROOTINO else cwd

def resolve (s : Nat → Option File) (parent : Bool) (path : List UInt8) (cwd : Nat) : Option (Nat × Name) := walk s parent (start path cwd) (elems path) []

theorem walkLive (graph : Graph sb s) {parent : Bool} {names : List Name} (live : Live s ip) (found : walk s parent ip names last = some (i, name)) : Live s i := by
  induction names generalizing ip last with
  | nil =>
    unfold walk at found
    split at found
    · cases found
    · cases found
      exact live
  | cons n rest ih =>
    obtain ⟨f, here, linked⟩ := live
    unfold walk at found
    rw [here] at found
    dsimp only at found
    split at found
    · cases found
    · rename_i dir
      split at found
      · cases found
        exact ⟨f, here, linked⟩
      · split at found
        · cases found
        · rename_i k hit
          exact ih (Linked.next graph ⟨here, not_not.mp dir, linked⟩ hit) found

/-- The parent is a directory, and the name has come from the path. -/
theorem walkParent {names : List Name} (found : walk s true ip names last = some (i, name)) : (∃ f, s i = some f ∧ f.type = T_DIR) ∧ name ∈ names := by
  induction names generalizing ip last with
  | nil => cases found
  | cons n rest ih =>
    unfold walk at found
    split at found
    · cases found
    · rename_i f here
      split at found
      · cases found
      · rename_i dir
        split at found
        · cases found
          exact ⟨⟨f, here, not_not.mp dir⟩, List.mem_cons_self⟩
        · split at found
          · cases found
          · exact ⟨(ih found).1, List.mem_cons_of_mem _ (ih found).2⟩

/-- One element more. -/
theorem walkAppend {names : List Name} {n : Name} (found : walk s false i names last = some (d, n)) (linked : Linked s d f) (hit : f.lookup name = some k) :
    walk s false i (names ++ [name]) last = some (f.inum k, name) := by
  induction names generalizing i last with
  | nil =>
    simp only [walk] at found
    cases found
    simp [walk, linked.1, linked.2.1, hit]
  | cons m rest ih =>
    unfold walk at found
    rw [List.cons_append]
    unfold walk
    split at found
    · cases found
    · rename_i g here
      split at found
      · cases found
      · rename_i dir
        rw [if_neg dir]
        simp only [Bool.false_eq_true, false_and, if_false] at found ⊢
        split at found
        · cases found
        · exact ih found

/-- There is a way from the root to each directory. -/
theorem walkReached (graph : Graph sb s) (dir : (shape s).dir i) : ∃ names n, (∀ m ∈ names, Proper m) ∧ walk s false ROOTINO names [] = some (i, n) := by
  induction graph.sound.reached dir with
  | refl => exact ⟨[], [], by simp, rfl⟩
  | @tail d i _ child ih =>
    obtain ⟨k, _, f, here, holds⟩ := child
    have linked : Linked s d f := ⟨here, holds.1, holds.2.1⟩
    have folder := graph.folder d f linked
    have some : f.inum k ≠ 0 := by
      rw [holds.2.2.2.1]
      exact holds.2.2.2.2
    obtain ⟨names, n, proper, found⟩ := ih ⟨f, linked⟩
    refine ⟨names ++ [f.name k], f.name k, fun m mem => ?_, ?_⟩
    · rcases List.mem_append.mp mem with mem | mem
      · exact proper m mem
      · rw [List.mem_singleton.mp mem]
        exact folder.proper k holds.2.2.1 some
    · rw [walkAppend found linked (folder.lookup holds.2.2.1 some), holds.2.2.2.1]

theorem eraseSecond (i j : Nat) (refs : List Nat) : (i :: j :: refs).erase j = i :: refs := by
  by_cases same : i = j
  · rw [same, List.erase_cons_head]
  · rw [List.erase_cons_tail (by simpa using same), List.erase_cons_head]

theorem doNamexEnd {k : Option (Nat × Name) → Calls ρ} (graph : Graph sb s) (live : Live s ip) {parent : Bool}
    (missing : walk s parent ip [] last = none → Goes sb devsw (k none) s refs Q)
    (found : ∀ i name, walk s parent ip [] last = some (i, name) → Goes sb devsw (k (some (i, name))) s (i :: refs) Q) :
    Goes sb devsw (namexEnd parent ip last >>= k) s (ip :: refs) Q := by
  unfold namexEnd
  obtain ⟨f, here, linked⟩ := id live
  cases parent with
  | true =>
    rw [if_pos rfl, bindAssoc]
    refine doIput (live.range graph) ?_
    rw [releasedLinked here linked, List.erase_cons_head]
    exact missing rfl
  | false => exact found ip last rfl

theorem doNamexLoop {k : Option (Nat × Name) → Calls ρ} (graph : Graph sb s) {parent : Bool} {rounds : Nat} (plain : 0 ∉ path) (enough : path.length ≤ rounds)
    (live : Live s ip) (missing : walk s parent ip (elems path) last = none → Goes sb devsw (k none) s refs Q)
    (found : ∀ i name, walk s parent ip (elems path) last = some (i, name) → Goes sb devsw (k (some (i, name))) s (i :: refs) Q) :
    Goes sb devsw (namexLoop parent rounds ip path last >>= k) s (ip :: refs) Q := by
  induction rounds generalizing ip path last with
  | zero =>
    rw [List.length_eq_zero_iff.mp (Nat.le_zero.mp enough)] at missing found
    exact doNamexEnd graph live missing found
  | succ rounds ih =>
    rw [elemsSkip] at missing found
    unfold namexLoop
    cases skip : skipelem path with
    | none =>
      rw [skip] at missing found
      exact doNamexEnd graph live missing found
    | some pair =>
      obtain ⟨rest, name⟩ := pair
      rw [skip] at missing found
      obtain ⟨sub, shorter⟩ := skipelemRest skip
      have proper : ∀ n ∈ name :: elems rest, Proper n := by
        have all := elemsProper plain
        rwa [elemsSkip, skip] at all
      obtain ⟨f, here, linked⟩ := id live
      have range := live.range graph
      unfold walk at missing found
      rw [here] at missing found
      dsimp only at missing found ⊢
      simp only [bindAssoc]
      refine doIlock here range ?_
      change Goes sb devsw ((if f.type ≠ T_DIR then _ else _) >>= k) _ _ _
      by_cases dir : f.type = T_DIR
      · rw [if_neg (not_not.mpr dir)] at missing found ⊢
        by_cases final : parent = true ∧ rest = []
        · have done : parent = true ∧ elems rest = [] := ⟨final.1, (skipelemLast skip).mp final.2⟩
          rw [if_pos done] at found
          rw [if_pos final]
          exact found ip name rfl
        · have more : ¬ (parent = true ∧ elems rest = []) := fun done => final ⟨done.1, (skipelemLast skip).mpr done.2⟩
          rw [if_neg more] at missing found
          rw [if_neg final, bindAssoc]
          have same := textName (proper name List.mem_cons_self)
          have open' : Linked s ip f := ⟨here, dir, linked⟩
          refine doDirlookup here dir range (fun none => ?_) fun j hit => ?_
          · rw [same] at none
            rw [none] at missing
            simp only [bindAssoc]
            refine doIput range ?_
            rw [releasedLinked here linked, List.erase_cons_head]
            exact missing rfl
          · rw [same] at hit
            rw [hit] at missing found
            have next := open'.next graph hit
            refine ⟨next.range graph, ?_⟩
            simp only [bindAssoc]
            refine doIput range ?_
            rw [releasedLinked here linked, eraseSecond]
            exact ih (fun bad => plain (sub.subset bad)) (by omega) next missing found
      · rw [if_pos dir] at missing
        rw [if_pos dir]
        simp only [bindAssoc]
        refine doIput range ?_
        rw [releasedLinked here linked, List.erase_cons_head]
        exact missing rfl

theorem Graph.top (graph : Graph sb s) : Live s ROOTINO := by
  obtain ⟨f, linked⟩ := graph.sound.root.1
  exact linked.live

/-- `namex` finds what the names lead to, and takes one reference. -/
theorem doNamex {k : Option (Nat × Name) → Calls ρ} (graph : Graph sb s) {parent : Bool} (plain : 0 ∉ path) (live : path.head? ≠ some slash → Live s cwd)
    (missing : resolve s parent path cwd = none → Goes sb devsw (k none) s refs Q)
    (found : ∀ i name, resolve s parent path cwd = some (i, name) → Live s i → Goes sb devsw (k (some (i, name))) s (i :: refs) Q) :
    Goes sb devsw (namex path parent cwd >>= k) s refs Q := by
  unfold namex
  unfold resolve start at missing found
  split
  · rename_i top
    rw [if_pos top] at missing found
    rw [bindAssoc]
    exact doIget (graph.top.range graph) (doNamexLoop graph plain le_rfl graph.top missing fun i name leads => found i name leads (walkLive graph graph.top leads))
  · rename_i below
    rw [if_neg below] at missing found
    rw [bindAssoc]
    exact doIdup ((live below).range graph) (doNamexLoop graph plain le_rfl (live below) missing fun i name leads => found i name leads (walkLive graph (live below) leads))

end OpSys.Sysfile
