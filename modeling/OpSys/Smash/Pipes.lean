import Mathlib.Data.List.Basic
import Mathlib.Tactic.Cases

/-! `fork_pipes` down to the descriptors of each process. `pipe` and `fork` do not fail;
a stage has the descriptors here with which it starts its program. -/
namespace OpSys.Smash.Pipes

/-- What is open: something from before, or an end of pipe number `i`. -/
inductive File where
  | inherited (k : Nat)
  | readEnd (i : Nat)
  | writeEnd (i : Nat)
  deriving DecidableEq

abbrev Table := List (Option File)

def file (t : Table) (fd : Nat) : Option File := t.getD fd none

def put (t : Table) (fd : Nat) (f : Option File) : Table :=
  if fd < t.length then t.set fd f else t ++ List.replicate (fd - t.length) none ++ [f]

def close (t : Table) (fd : Nat) : Table := put t fd none

def dup2 (t : Table) (fd fd' : Nat) : Table := put t fd' (file t fd)

def free (t : Table) : Nat := t.idxOf none

def pipe (t : Table) (i : Nat) : Table × Nat × Nat :=
  let r := free t
  let t := put t r (some (.readEnd i))
  let w := free t
  (put t w (some (.writeEnd i)), r, w)

/-- The child. The parent goes on with the table it had. -/
def spawnProc (t : Table) (inp out : Nat) : Table :=
  let t := if inp ≠ 0 then close (dup2 t inp 0) inp else t
  if out ≠ 1 then close (dup2 t out 1) out else t

structure Loop where
  parent : Table
  inp : Nat
  children : List Table

def turn (s : Loop) (i : Nat) : Loop :=
  let (t, r, w) := pipe s.parent i
  ⟨close t w, r, s.children ++ [spawnProc t s.inp w]⟩

def turns (t : Table) : Nat → Loop
  | 0 => ⟨t, 0, []⟩
  | i + 1 => turn (turns t i) i

/-- The tables of the `n` stages. The last is the process that makes the others. -/
def forkPipes (n : Nat) (t : Table) : List Table :=
  let s := turns t (n - 1)
  s.children ++ [if s.inp ≠ 0 then dup2 s.parent s.inp 0 else s.parent]

/-! ### What is expected -/

def Holds (t : Table) (f : File) : Prop := ∃ fd, file t fd = some f

/-- Standard input and output are open, and no pipe is. -/
structure Start (t : Table) : Prop where
  input : file t 0 = some (.inherited 0)
  output : file t 1 = some (.inherited 1)
  only : ∀ f, Holds t f → ∃ k, f = .inherited k

structure Wired (n : Nat) (stages : List Table) : Prop where
  count : stages.length = n
  first : ∀ t ∈ stages[0]?, file t 0 = some (.inherited 0)
  last : ∀ t ∈ stages[n - 1]?, file t 1 = some (.inherited 1)
  writes : ∀ i < n - 1, ∀ t ∈ stages[i]?, file t 1 = some (.writeEnd i)
  reads : ∀ i < n - 1, ∀ t ∈ stages[i + 1]?, file t 0 = some (.readEnd i)

/-- No process but stage `i` holds the write end of pipe `i`, and none but the next its
read end. -/
def Clean (n : Nat) (processes : List Table) : Prop := ∀ i < n - 1, ∀ j, ∀ t ∈ processes[j]?,
  (Holds t (.writeEnd i) → j = i) ∧ (Holds t (.readEnd i) → j = i + 1)

/-! ### Tables -/

variable {t : Table} {fd fd' i j k n : Nat} {f : Option File} {s : Loop}

theorem filePut (t : Table) (fd fd' : Nat) (f : Option File) : file (put t fd f) fd' = if fd' = fd then f else file t fd' := by
  unfold file put
  simp only [List.getD_eq_getElem?_getD]
  split
  · rename_i inside
    rw [List.getElem?_set]
    by_cases same : fd' = fd
    · rw [if_pos same.symm, if_pos inside, if_pos same]
      rfl
    · rw [if_neg (Ne.symm same), if_neg same]
  · rename_i past
    by_cases same : fd' = fd
    · rw [if_pos same, same, List.getElem?_append_right (by simp; omega)]
      simp [show fd - (t.length + (fd - t.length)) = 0 by omega]
    · rw [if_neg same, List.append_assoc]
      by_cases inside : fd' < t.length
      · rw [List.getElem?_append_left inside]
      · rw [List.getElem?_append_right (by omega), List.getElem?_eq_none (by omega : t.length ≤ fd')]
        rcases Nat.lt_or_gt_of_ne same with before | after
        · rw [List.getElem?_append_left (by rw [List.length_replicate]; omega), List.getElem?_replicate]
          split <;> rfl
        · rw [List.getElem?_eq_none (by rw [List.length_append, List.length_replicate, List.length_singleton]; omega)]

theorem fileFree (t : Table) : file t (free t) = none := by
  unfold file free
  rw [List.getD_eq_getElem?_getD]
  by_cases mem : none ∈ t
  · rw [List.getElem?_eq_getElem (List.idxOf_lt_length_of_mem mem), List.getElem_idxOf]
    rfl
  · rw [List.getElem?_eq_none (Nat.le_of_eq (List.idxOf_eq_length mem).symm)]
    rfl

theorem fileDup2 : file (dup2 t fd fd') k = if k = fd' then file t fd else file t k := filePut t fd' k (file t fd)

theorem fileClose : file (close t fd) k = if k = fd then none else file t k := filePut t fd k none

structure Piped (t : Table) (i : Nat) (r w : Nat) (t' : Table) : Prop where
  distinct : r ≠ w
  freeRead : file t r = none
  freeWrite : file t w = none
  read : file t' r = some (.readEnd i)
  write : file t' w = some (.writeEnd i)
  rest : ∀ fd, fd ≠ r → fd ≠ w → file t' fd = file t fd

theorem pipeSpec (t : Table) (i : Nat) : Piped t i (pipe t i).2.1 (pipe t i).2.2 (pipe t i).1 := by
  unfold pipe
  dsimp only
  have second := fileFree (put t (free t) (some (.readEnd i)))
  have other : free (put t (free t) (some (.readEnd i))) ≠ free t := by
    intro same
    rw [same, filePut, if_pos rfl] at second
    cases second
  refine ⟨other.symm, fileFree t, ?_, ?_, ?_, fun fd read write => ?_⟩
  · rwa [filePut, if_neg other] at second
  · rw [filePut, if_neg other.symm, filePut, if_pos rfl]
  · rw [filePut, if_pos rfl]
  · rw [filePut, if_neg write, filePut, if_neg read]

theorem Piped.beside {r w : Nat} {t' : Table} (piped : Piped t i r w t') (other : fd ≠ w) :
    file t' fd = if fd = r then some (.readEnd i) else file t fd := by
  split
  · rename_i read
    rw [read, piped.read]
  · rename_i free
    exact piped.rest fd free other

theorem Piped.unused {r w : Nat} {t' : Table} {f : File} (piped : Piped t i r w t') (here : file t fd = some f) : fd ≠ r ∧ fd ≠ w := by
  constructor
  · rintro rfl
    cases here.symm.trans piped.freeRead
  · rintro rfl
    cases here.symm.trans piped.freeWrite

theorem appendedMem {ts : List Table} {t' : Table} (mem : t' ∈ (ts ++ [t])[j]?) : j < ts.length ∧ t' ∈ ts[j]? ∨ j = ts.length ∧ t' = t := by
  rcases Nat.lt_or_ge j ts.length with earlier | later
  · rw [List.getElem?_append_left earlier] at mem
    exact .inl ⟨earlier, mem⟩
  · rw [List.getElem?_append_right later] at mem
    have less := (List.getElem?_eq_some_iff.mp mem).1
    rw [List.length_singleton] at less
    have here : j = ts.length := by omega
    rw [here, Nat.sub_self] at mem
    cases mem
    exact .inr ⟨here, rfl⟩

/-! ### The loop -/

structure Stage (i : Nat) (t : Table) : Prop where
  input : file t 0 = some (if i = 0 then .inherited 0 else .readEnd (i - 1))
  output : file t 1 = some (.writeEnd i)
  writes : ∀ k, Holds t (.writeEnd k) ↔ k = i
  reads : ∀ k, Holds t (.readEnd k) ↔ k ≤ i

structure Running (i : Nat) (s : Loop) : Prop where
  input : file s.parent 0 = some (.inherited 0)
  output : file s.parent 1 = some (.inherited 1)
  writes : ∀ k, ¬ Holds s.parent (.writeEnd k)
  reads : ∀ k, Holds s.parent (.readEnd k) ↔ k < i
  inp : if i = 0 then s.inp = 0 else file s.parent s.inp = some (.readEnd (i - 1))
  count : s.children.length = i
  stages : ∀ j, ∀ t ∈ s.children[j]?, Stage j t

theorem Running.inpCases (h : Running i s) : i = 0 ∧ s.inp = 0 ∨ 0 < i ∧ s.inp ≠ 0 ∧ s.inp ≠ 1 ∧ file s.parent s.inp = some (.readEnd (i - 1)) := by
  have inp := h.inp
  split at inp
  · rename_i zero
    exact .inl ⟨zero, inp⟩
  · rename_i more
    refine .inr ⟨Nat.pos_of_ne_zero more, fun zero => ?_, fun one => ?_, inp⟩
    · cases inp.symm.trans (zero ▸ h.input)
    · cases inp.symm.trans (one ▸ h.output)

theorem startRunning (start : Start t) : Running 0 (turns t 0) := by
  refine ⟨start.input, start.output, fun k holds => ?_, fun k => iff_of_false (fun holds => ?_) (Nat.not_lt_zero k), rfl, rfl, by simp [turns]⟩
  · obtain ⟨_, bad⟩ := start.only _ holds
    cases bad
  · obtain ⟨_, bad⟩ := start.only _ holds
    cases bad

theorem spawnFile {inp out : Nat} (apart : out ≠ inp) (zero : out ≠ 0) (one : out ≠ 1) :
    file (spawnProc t inp out) fd = if fd = out then none else if fd = 1 then file t out
      else if inp = 0 then file t fd else if fd = inp then none else if fd = 0 then file t inp else file t fd := by
  unfold spawnProc
  dsimp only
  rw [if_pos one, fileClose]
  by_cases closed : fd = out
  · rw [if_pos closed, if_pos closed]
  · rw [if_neg closed, if_neg closed, fileDup2]
    by_cases original : inp = 0
    · rw [if_neg (not_not_intro original), if_pos original]
    · rw [if_pos original, if_neg original, fileClose, fileDup2, if_neg apart, if_neg zero, fileClose, fileDup2]

theorem Running.other (h : Running i s) {r w : Nat} {t' : Table} (piped : Piped s.parent i r w t') :
    w ≠ s.inp ∧ r ≠ s.inp ∧ w ≠ 0 ∧ w ≠ 1 ∧ r ≠ 0 ∧ r ≠ 1 := by
  have used : ∀ fd f, file s.parent fd = some f → w ≠ fd ∧ r ≠ fd := fun fd f here =>
    ⟨(piped.unused here).2.symm, (piped.unused here).1.symm⟩
  have zero := used 0 _ h.input
  have one := used 1 _ h.output
  rcases h.inpCases with ⟨_, same⟩ | ⟨_, _, _, open_⟩
  · exact ⟨same ▸ zero.1, same ▸ zero.2, zero.1, one.1, zero.2, one.2⟩
  · exact ⟨(used _ _ open_).1, (used _ _ open_).2, zero.1, one.1, zero.2, one.2⟩

structure Spawned (i : Nat) (s : Loop) (r w : Nat) (t : Table) : Prop where
  input : file t 0 = some (if i = 0 then .inherited 0 else .readEnd (i - 1))
  output : file t 1 = some (.writeEnd i)
  closed : file t w = none
  rest : ∀ fd, fd ≠ 0 → fd ≠ 1 → fd ≠ w → file t fd = if fd = s.inp then none else if fd = r then some (.readEnd i) else file s.parent fd

theorem spawnSpawned (h : Running i s) {r w : Nat} {t' : Table} (piped : Piped s.parent i r w t') :
    Spawned i s r w (spawnProc t' s.inp w) := by
  obtain ⟨apart, apart', zero, one, zero', one'⟩ := h.other piped
  have files : ∀ fd, file (spawnProc t' s.inp w) fd = if fd = w then none else if fd = 1 then some (.writeEnd i)
      else if s.inp = 0 then file t' fd else if fd = s.inp then none else if fd = 0 then file t' s.inp else file t' fd := by
    intro fd
    rw [spawnFile apart zero one, piped.write]
  refine ⟨?_, ?_, ?_, fun fd fd0 fd1 fdw => ?_⟩
  · rw [files, if_neg zero.symm, if_neg (by decide)]
    rcases h.inpCases with ⟨none, same⟩ | ⟨some, other, _, open_⟩
    · rw [if_pos same, if_pos none, piped.rest 0 zero'.symm zero.symm, h.input]
    · rw [if_neg other, if_neg other.symm, if_pos rfl, if_neg (by omega), piped.rest _ apart'.symm apart.symm, open_]
  · rw [files, if_neg one.symm, if_pos rfl]
  · rw [files, if_pos rfl]
  · rw [files, if_neg fdw, if_neg fd1, if_neg fd0, piped.beside fdw]
    by_cases original : s.inp = 0
    · have other : fd ≠ s.inp := fun same => fd0 (same.trans original)
      rw [if_pos original, if_neg other]
    · rw [if_neg original]

theorem Spawned.holds {r w : Nat} (h : Spawned i s r w t) {f : File} (here : file t fd = some f) :
    f = (if i = 0 then .inherited 0 else .readEnd (i - 1)) ∨ f = .writeEnd i ∨ f = .readEnd i ∨ file s.parent fd = some f := by
  by_cases fd0 : fd = 0
  · rw [fd0, h.input] at here
    exact .inl (Option.some.inj here).symm
  by_cases fd1 : fd = 1
  · rw [fd1, h.output] at here
    exact .inr (.inl (Option.some.inj here).symm)
  have fdw : fd ≠ w := by
    rintro rfl
    cases h.closed.symm.trans here
  rw [h.rest fd fd0 fd1 fdw] at here
  split at here
  · cases here
  · split at here
    · exact .inr (.inr (.inl (Option.some.inj here).symm))
    · exact .inr (.inr (.inr here))

theorem spawnStage (h : Running i s) {r w : Nat} {t' : Table} (piped : Piped s.parent i r w t') : Stage i (spawnProc t' s.inp w) := by
  have spawned := spawnSpawned h piped
  obtain ⟨_, apart, _, _, zero, one⟩ := h.other piped
  refine ⟨spawned.input, spawned.output, fun k => ⟨fun ⟨fd, here⟩ => ?_, ?_⟩, fun k => ⟨fun ⟨fd, here⟩ => ?_, fun below => ?_⟩⟩
  · rcases spawned.holds here with input | output | read | old
    · split at input <;> cases input
    · cases output
      rfl
    · cases read
    · exact absurd ⟨fd, old⟩ (h.writes k)
  · rintro rfl
    exact ⟨1, spawned.output⟩
  · rcases spawned.holds here with input | output | read | old
    · split at input <;> cases input
      exact Nat.sub_le i 1
    · cases output
    · cases read
      exact Nat.le_refl i
    · exact Nat.le_of_lt ((h.reads k).mp ⟨fd, old⟩)
  · rcases Nat.lt_or_eq_of_le below with earlier | same
    · obtain ⟨fd, old⟩ := (h.reads k).mpr earlier
      by_cases last : fd = s.inp
      · have inp := h.inp
        rw [if_neg (by omega), ← last, old] at inp
        refine ⟨0, ?_⟩
        rw [spawned.input, if_neg (by omega), inp]
      · refine ⟨fd, ?_⟩
        rw [spawned.rest fd ?_ ?_ (piped.unused old).2, if_neg last, if_neg (piped.unused old).1, old]
        · rintro rfl
          cases old.symm.trans h.input
        · rintro rfl
          cases old.symm.trans h.output
    · refine ⟨r, ?_⟩
      rw [spawned.rest r zero one piped.distinct, if_neg apart, if_pos rfl, same]

/-- The parent has closed the write end and keeps the read end. -/
theorem Running.kept (h : Running i s) {r w : Nat} {t' : Table} (piped : Piped s.parent i r w t') :
    (∀ k, ¬ Holds (close t' w) (.writeEnd k)) ∧ ∀ k, Holds (close t' w) (.readEnd k) ↔ k < i + 1 := by
  have inside : ∀ fd f, file (close t' w) fd = some f → f = .readEnd i ∨ file s.parent fd = some f := by
    intro fd f here
    rw [fileClose] at here
    split at here
    · cases here
    · rename_i other
      rw [piped.beside other] at here
      split at here
      · exact .inl (Option.some.inj here).symm
      · exact .inr here
  refine ⟨fun k ⟨fd, here⟩ => ?_, fun k => ⟨fun ⟨fd, here⟩ => ?_, fun below => ?_⟩⟩
  · rcases inside fd _ here with read | old
    · cases read
    · exact h.writes k ⟨fd, old⟩
  · rcases inside fd _ here with read | old
    · cases read
      exact Nat.lt_succ_self i
    · exact Nat.lt_succ_of_lt ((h.reads k).mp ⟨fd, old⟩)
  · rcases Nat.lt_or_eq_of_le (Nat.le_of_lt_succ below) with earlier | same
    · obtain ⟨fd, old⟩ := (h.reads k).mpr earlier
      have unused := piped.unused old
      exact ⟨fd, by rw [fileClose, if_neg unused.2, piped.beside unused.2, if_neg unused.1, old]⟩
    · exact ⟨r, by rw [fileClose, if_neg piped.distinct, piped.read, same]⟩

theorem turnRunning (h : Running i s) : Running (i + 1) (turn s i) := by
  have piped := pipeSpec s.parent i
  have stage := spawnStage h piped
  have kept := h.kept piped
  have same : ∀ fd f, file s.parent fd = some f → file (close (pipe s.parent i).1 (pipe s.parent i).2.2) fd = some f := fun fd f here => by
    rw [fileClose, if_neg (piped.unused here).2, piped.beside (piped.unused here).2, if_neg (piped.unused here).1, here]
  unfold turn
  dsimp only
  refine ⟨same 0 _ h.input, same 1 _ h.output, kept.1, kept.2, ?_, ?_, fun j t mem => ?_⟩
  · rw [if_neg (Nat.succ_ne_zero i), fileClose, if_neg piped.distinct, piped.read, Nat.add_sub_cancel]
  · rw [List.length_append, h.count]
    rfl
  · rcases appendedMem mem with ⟨_, earlier⟩ | ⟨here, rfl⟩
    · exact h.stages j t earlier
    · rw [here, h.count]
      exact stage

theorem turnsRunning (start : Start t) (i : Nat) : Running i (turns t i) := by
  induction i with
  | zero => exact startRunning start
  | succ i ih => exact turnRunning ih

/-! ### All stages -/

structure Last (m : Nat) (t : Table) : Prop where
  input : file t 0 = some (.readEnd (m - 1))
  output : file t 1 = some (.inherited 1)
  writes : ∀ k, ¬ Holds t (.writeEnd k)
  reads : ∀ k, Holds t (.readEnd k) ↔ k < m

theorem Running.last (h : Running i s) (some : 0 < i) : Last i (if s.inp ≠ 0 then dup2 s.parent s.inp 0 else s.parent) := by
  have zero : i ≠ 0 := Nat.ne_of_gt some
  rcases h.inpCases with ⟨none, _⟩ | ⟨_, other, _, open_⟩
  · exact absurd none zero
  rw [if_pos other]
  have inside : ∀ fd f, file (dup2 s.parent s.inp 0) fd = .some f → Holds s.parent f := by
    intro fd f here
    rw [fileDup2] at here
    split at here
    · exact ⟨_, here⟩
    · exact ⟨fd, here⟩
  refine ⟨?_, ?_, fun k ⟨fd, here⟩ => h.writes k (inside fd _ here), fun k => ⟨fun ⟨fd, here⟩ => (h.reads k).mp (inside fd _ here), fun below => ?_⟩⟩
  · rw [fileDup2, if_pos rfl, open_]
  · rw [fileDup2, if_neg (by decide), h.output]
  · obtain ⟨fd, old⟩ := (h.reads k).mpr below
    refine ⟨fd, ?_⟩
    rw [fileDup2, if_neg, old]
    rintro rfl
    cases old.symm.trans h.input

theorem forkPipesStages (start : Start t) (two : 2 ≤ n) : (forkPipes n t).length = n ∧
    ∀ j, ∀ t' ∈ (forkPipes n t)[j]?, j < n - 1 ∧ Stage j t' ∨ j = n - 1 ∧ Last (n - 1) t' := by
  have running := turnsRunning start (n - 1)
  unfold forkPipes
  dsimp only
  refine ⟨by rw [List.length_append, running.count, List.length_singleton]; omega, fun j t' mem => ?_⟩
  rcases appendedMem mem with ⟨less, earlier⟩ | ⟨here, rfl⟩
  · exact .inl ⟨running.count ▸ less, running.stages j t' earlier⟩
  · exact .inr ⟨here.trans running.count, running.last (by omega)⟩

/-- A child does not close the read end of its own pipe, nor the parent those that it
has passed on: stage `j` holds the read ends of all pipes up to its own. -/
theorem forkPipesHolds (start : Start t) (two : 2 ≤ n) : Wired n (forkPipes n t) ∧
    (∀ j, ∀ t' ∈ (forkPipes n t)[j]?, ∀ i < n - 1, (Holds t' (.writeEnd i) ↔ j = i) ∧ (Holds t' (.readEnd i) ↔ i ≤ j)) ∧
    ¬ Clean n (forkPipes n t ++ [t]) := by
  obtain ⟨count, stages⟩ := forkPipesStages start two
  have holds : ∀ j, ∀ t' ∈ (forkPipes n t)[j]?, ∀ i < n - 1, (Holds t' (.writeEnd i) ↔ j = i) ∧ (Holds t' (.readEnd i) ↔ i ≤ j) := by
    intro j t' mem i less
    rcases stages j t' mem with ⟨_, stage⟩ | ⟨here, last⟩
    · rw [stage.writes, stage.reads]
      exact ⟨eq_comm, Iff.rfl⟩
    · rw [last.reads]
      exact ⟨iff_of_false (last.writes i) (by omega), by omega⟩
  refine ⟨⟨count, fun t' mem => ?_, fun t' mem => ?_, fun i less t' mem => ?_, fun i less t' mem => ?_⟩, holds, fun clean => ?_⟩
  · rcases stages 0 t' mem with ⟨_, stage⟩ | ⟨here, _⟩
    · exact stage.input
    · omega
  · rcases stages (n - 1) t' mem with ⟨bad, _⟩ | ⟨_, last⟩
    · omega
    · exact last.output
  · rcases stages i t' mem with ⟨_, stage⟩ | ⟨here, _⟩
    · exact stage.output
    · omega
  · rcases stages (i + 1) t' mem with ⟨_, stage⟩ | ⟨here, last⟩
    · rw [stage.input, if_neg (Nat.succ_ne_zero i), Nat.add_sub_cancel]
    · rw [last.input, ← here, Nat.add_sub_cancel]
  · have first : (forkPipes n t)[0]? = some (forkPipes n t)[0] := List.getElem?_eq_getElem (by omega)
    have read := ((holds 0 _ first 0 (by omega)).2).mpr (Nat.le_refl 0)
    have bad := (clean 0 (by omega) 0 _ (by rw [List.getElem?_append_left (by omega)]; exact first)).2 read
    cases bad

def console : Table := [some (.inherited 0), some (.inherited 1), some (.inherited 2)]

theorem consoleStart : Start console := by
  refine ⟨rfl, rfl, fun f ⟨fd, here⟩ => ?_⟩
  match fd with
  | 0 | 1 | 2 =>
    cases here
    exact ⟨_, rfl⟩
  | fd + 3 => cases here

theorem forkPipesHoldsConsole : Wired 3 (forkPipes 3 console) ∧ (∃ t ∈ (forkPipes 3 console)[1]?, Holds t (.readEnd 0) ∧ Holds t (.readEnd 1)) ∧
    ¬ Clean 3 (forkPipes 3 console ++ [console]) := by
  obtain ⟨wired, holds, stray⟩ := forkPipesHolds (n := 3) consoleStart (by decide)
  have second : (forkPipes 3 console)[1]? = some (forkPipes 3 console)[1] := rfl
  refine ⟨wired, ⟨_, second, ?_, ?_⟩, stray⟩
  · exact ((holds 1 _ second 0 (by decide)).2).mpr (by decide)
  · exact ((holds 1 _ second 1 (by decide)).2).mpr (by decide)

/-- Two stages: the first has its own pipe open for reading as descriptor 3. -/
theorem writerHoldsReadEnd : (forkPipes 2 console)[0]? =
    some [some (.inherited 0), some (.writeEnd 0), some (.inherited 2), some (.readEnd 0), none] ∧
    ¬ Clean 2 (forkPipes 2 console ++ [console]) := by
  have first : (forkPipes 2 console)[0]? =
      some [some (.inherited 0), some (.writeEnd 0), some (.inherited 2), some (.readEnd 0), none] := by decide
  refine ⟨first, fun clean => ?_⟩
  have bad := (clean 0 (by decide) 0 _ (by rw [List.getElem?_append_left (by decide)]; exact first)).2 ⟨3, rfl⟩
  cases bad

end OpSys.Smash.Pipes
