import OpSys.Lib.Pieces
import OpSys.Smash.Main
import Mathlib.Tactic.Cases

/-! `exec_prog`: how a command with `|` and `>` in it becomes processes. `fork`, `pipe` and
`malloc` do not fail. -/
namespace OpSys.Smash
open OpSys.Pieces OpSys.Strtok

def bar : Bytes := [124]
def gt : Bytes := [62]

structure Outside where
  opens : Bytes → Bool
  execv : List Bytes → Bool
  execvp : List Bytes → Bool

/-- `became`: the process runs another program. -/
inductive End where
  | became
  | returns (r : Int)
  | fault (f : Fault)
  deriving DecidableEq

/-- `child`: how a child ends whose program was not started. -/
inductive Event where
  | exec (stage : Nat) (argv : List Bytes)
  | truncate (file : Bytes)
  | child (e : End)
  deriving DecidableEq

abbrev Trace := List Event × End

/-- Without arguments the path is a null pointer, which `execv` hands to the kernel. -/
def call (starts : List Bytes → Bool) (stage : Nat) (argv : List Bytes) : Trace :=
  ([.exec stage argv], if argv ≠ [] ∧ starts argv then .became else .returns (-1))

/-- `execvp` reads the name itself, to look for it in `PATH`. -/
def callPath (starts : List Bytes → Bool) (stage : Nat) (argv : List Bytes) : Trace :=
  if argv = [] then ([.exec stage argv], .fault .null) else call starts stage argv

def redirect (o : Outside) (args : List Bytes) : Trace :=
  let parmList := args.take (args.length - 2)
  match args[args.length - 1]? with
  | none => ([], .fault .unset)
  | some file =>
    if o.opens file then
      let (es, e) := call o.execv 0 parmList
      (.truncate file :: es, e)
    else ([], .returns (-1))

/-- The last stage, with standard input from the pipe before it. -/
def lastStage (o : Outside) (args : List Bytes) (stage : Nat) (argv : List Bytes) : Trace :=
  if args[args.length - 2]? = some gt then
    match argv.idxOf? gt with
    | none => ([], .fault .null)
    | some i => match argv[i + 1]? with
      | none => ([], .returns (-1))
      | some file =>
        if o.opens file then
          let (es, e) := call o.execv stage (if i = 0 then argv else argv.take i)
          (.truncate file :: es, e)
        else ([], .returns (-1))
  else callPath o.execvp stage argv

/-- A child whose program is not started goes on in the loop, as its parent does. -/
def goesOn (t : Trace) : End → List Event
  | .became => []
  | .fault f => [.child (.fault f)]
  | .returns _ => t.1 ++ [.child t.2]

def forkPipes (o : Outside) (args : List Bytes) (i : Nat) : List (List Bytes) → Trace
  | [] => ([], .fault .unset)
  | argv :: more =>
    if more = [] then lastStage o args i argv
    else
      let t := forkPipes o args (i + 1) more
      let (tried, out) := callPath o.execvp i argv
      (tried ++ goesOn t out ++ t.1, t.2)

/-- `cmd`: ten stages, each with ten pointers, the last of which is for the NULL. -/
def piping (done : List (List Bytes)) (argv : List Bytes) : List Bytes → Except Fault (List (List Bytes))
  | [] => if argv.length < 10 then .ok (done ++ [argv]) else .error .wild
  | arg :: args =>
    if arg = bar then
      if argv.length < 10 ∧ done.length + 1 < 10 then piping (done ++ [argv]) [] args else .error .wild
    else if argv.length < 10 ∧ arg.length < 256 then piping done (argv ++ [arg]) args
    else .error .wild

def execProg (o : Outside) (args : List Bytes) : Trace :=
  if bar ∈ args.tail then
    match piping [] [] args with
    | .error f => ([], .fault f)
    | .ok cmd => forkPipes o args 0 cmd
  else if gt ∈ args.tail then
    if args[args.length - 2]? ≠ some gt then ([], .returns (-1)) else redirect o args
  else if args.length < 32 then call o.execv 0 args
  else ([], .fault .wild)

/-! ### What is expected -/

/-- The only `>` comes before the last argument, and a word of the last command before it. -/
def Redirects (args : List Bytes) (file : Bytes) : Prop :=
  ∃ pre word, args = pre ++ [word, gt, file] ∧ gt ∉ pre ++ [word, file] ∧ word ≠ bar ∧ file ≠ bar

def vectors (args : List Bytes) : List (List Bytes) :=
  (if gt ∈ args then args.take (args.length - 2) else args).splitOnP (· == bar)

structure Runs (args : List Bytes) (t : Trace) : Prop where
  own : ∀ i argv, .exec i argv ∈ t.1 → (vectors args)[i]? = some argv
  each : ∀ i < (vectors args).length, ∃ argv, .exec i argv ∈ t.1
  files : ∀ file, .truncate file ∈ t.1 ↔ Redirects args file
  sound : ∀ f, t.2 ≠ .fault f ∧ .child (.fault f) ∉ t.1

def Accepted (args : List Bytes) : Prop := gt ∈ args → ∃ file, Redirects args file

def Obeys (args : List Bytes) (t : Trace) : Prop := (Accepted args → Runs args t) ∧ (¬ Accepted args → t = ([], .returns (-1)))

/-! ### When it is so -/

def Stage (argv : List Bytes) : Prop := argv.length < 10 ∧ ∀ arg ∈ argv, arg.length < 256

structure Room (done : Nat) (cmd : List (List Bytes)) : Prop where
  count : done + cmd.length ≤ 10
  stages : ∀ argv ∈ cmd, Stage argv

def Opens (o : Outside) (args : List Bytes) : Prop := gt ∈ args → ∃ file, Redirects args file ∧ o.opens file = true

def Handled (o : Outside) (args : List Bytes) : Prop :=
  if bar ∈ args.tail then Room 0 (args.splitOnP (· == bar)) ∧ [] ∉ args.splitOnP (· == bar) ∧ Opens o args
  else
    (Accepted args → args.head? ≠ some bar ∧ Opens o args ∧ (gt ∉ args → args.length < 32)) ∧
    (¬ Accepted args → gt ∈ args.tail ∧ (args[args.length - 2]? = some gt → ∀ file ∈ args.getLast?, o.opens file = false))

variable {o : Outside} {args argv : List Bytes} {done init : List (List Bytes)} {last : List Bytes} {arg file : Bytes} {i j : Nat}

/-! ### The stages -/

theorem pipingOk (room : Room done.length (pieces bar argv args)) : piping done argv args = .ok (done ++ pieces bar argv args) := by
  induction args generalizing done argv with
  | nil =>
    rw [piecesEnd] at room ⊢
    unfold piping
    rw [if_pos (room.stages argv List.mem_cons_self).1]
  | cons arg args ih =>
    unfold piping
    by_cases mark : arg = bar
    · rw [mark, piecesMark] at room ⊢
      obtain ⟨count, stages⟩ := room
      obtain ⟨more, rest, head⟩ : ∃ more rest, pieces bar [] args = ([] ++ more) :: rest := piecesHead [] args
      have two : done.length + 1 < 10 := by
        rw [head, List.length_cons, List.length_cons] at count
        omega
      have later : Room (done ++ [argv]).length (pieces bar [] args) := by
        refine ⟨?_, fun argv mem => stages argv (List.mem_cons_of_mem _ mem)⟩
        rw [List.length_append, List.length_singleton]
        rw [List.length_cons] at count
        omega
      rw [if_pos rfl, if_pos ⟨(stages argv List.mem_cons_self).1, two⟩, ih later, List.append_assoc]
      rfl
    · rw [piecesCons mark] at room ⊢
      obtain ⟨more, rest, head⟩ : ∃ more rest, pieces bar (argv ++ [arg]) args = (argv ++ [arg] ++ more) :: rest := piecesHead (argv ++ [arg]) args
      obtain ⟨length, each⟩ := room.stages _ (by rw [head]; exact List.mem_cons_self)
      have short : argv.length < 10 := by
        rw [List.length_append, List.length_append, List.length_singleton] at length
        omega
      rw [if_neg mark, if_pos ⟨short, each arg (by simp)⟩]
      exact ih room

theorem pipingRoom {cmd : List (List Bytes)} (ok : piping done argv args = .ok cmd) (count : done.length < 10)
    (small : ∀ arg ∈ argv, arg.length < 256) : Room done.length (pieces bar argv args) := by
  induction args generalizing done argv with
  | nil =>
    unfold piping at ok
    rw [piecesEnd]
    split at ok
    · rename_i short
      exact ⟨count, fun argv' mem => by rw [List.mem_singleton.mp mem]; exact ⟨short, small⟩⟩
    · cases ok
  | cons arg args ih =>
    unfold piping at ok
    by_cases mark : arg = bar
    · rw [if_pos mark] at ok
      rw [mark, piecesMark]
      split at ok
      · rename_i fits
        have later := ih ok (by rw [List.length_append]; exact fits.2) (by simp)
        have total := later.count
        rw [List.length_append, List.length_singleton] at total
        refine ⟨by rw [List.length_cons]; omega, fun argv' mem => ?_⟩
        rcases List.mem_cons.mp mem with rfl | mem
        · exact ⟨fits.1, small⟩
        · exact later.stages argv' mem
      · cases ok
    · rw [if_neg mark] at ok
      rw [piecesCons mark]
      split at ok
      · rename_i fits
        refine ih ok count fun arg' mem => ?_
        rcases List.mem_append.mp mem with mem | mem
        · exact small arg' mem
        · rw [List.mem_singleton.mp mem]
          exact fits.2
      · cases ok

/-! ### The processes -/

theorem callPathFull {starts : List Bytes → Bool} (full : argv ≠ []) : callPath starts i argv = call starts i argv := if_neg full

theorem callPathTried {starts : List Bytes → Bool} : (callPath starts i argv).1 = [.exec i argv] := by
  unfold callPath
  split <;> rfl

theorem callSound {starts : List Bytes → Bool} (i : Nat) (f : Fault) : (call starts i argv).2 ≠ .fault f := by
  unfold call
  dsimp only
  split <;> simp

theorem forkPipesCons (some : done ≠ []) : forkPipes o args i (argv :: done) =
    (.exec i argv :: goesOn (forkPipes o args (i + 1) done) (callPath o.execvp i argv).2 ++ (forkPipes o args (i + 1) done).1,
      (forkPipes o args (i + 1) done).2) := by
  rw [forkPipes, if_neg some]
  dsimp only
  rw [callPathTried]
  rfl

theorem forkPipesLast : forkPipes o args i [last] = lastStage o args i last := by
  rw [forkPipes, if_pos rfl]

theorem forkPipesEnd : (forkPipes o args i (init ++ [last])).2 = (lastStage o args (i + init.length) last).2 := by
  induction init generalizing i with
  | nil => exact congrArg Prod.snd forkPipesLast
  | cons argv init ih =>
    rw [List.cons_append, forkPipesCons (by simp), List.length_cons, Nat.add_comm init.length, ← Nat.add_assoc]
    exact ih

theorem forkPipesMem {ev : Event} (some : done ≠ []) (tries : ∀ e, ev ≠ .child e) : ev ∈ (forkPipes o args i (argv :: done)).1 ↔
    ev = .exec i argv ∨ ev ∈ (forkPipes o args (i + 1) done).1 := by
  rw [forkPipesCons some]
  unfold goesOn
  dsimp only
  split <;> simp [tries]

theorem forkPipesExec : .exec j argv ∈ (forkPipes o args i (init ++ [last])).1 ↔
    (∃ k, j = i + k ∧ init[k]? = some argv) ∨ .exec j argv ∈ (lastStage o args (i + init.length) last).1 := by
  induction init generalizing i with
  | nil =>
    rw [List.nil_append, forkPipesLast]
    simp
  | cons first init ih =>
    rw [List.cons_append, forkPipesMem (by simp) (by simp), ih, List.length_cons, Nat.add_comm init.length, ← Nat.add_assoc]
    constructor
    · rintro (here | ⟨k, at_, is⟩ | last)
      · cases here
        exact .inl ⟨0, rfl, rfl⟩
      · exact .inl ⟨k + 1, by omega, is⟩
      · exact .inr last
    · rintro (⟨k, at_, is⟩ | last)
      · cases k with
        | zero =>
          cases is
          exact .inl (by rw [at_]; rfl)
        | succ k => exact .inr (.inl ⟨k, by omega, is⟩)
      · exact .inr (.inr last)

theorem forkPipesTruncate : .truncate file ∈ (forkPipes o args i (init ++ [last])).1 ↔
    .truncate file ∈ (lastStage o args (i + init.length) last).1 := by
  induction init generalizing i with
  | nil => rw [List.nil_append, forkPipesLast]; rfl
  | cons first init ih =>
    rw [List.cons_append, forkPipesMem (by simp) (by simp), ih, List.length_cons, Nat.add_comm init.length, ← Nat.add_assoc]
    simp

theorem lastStageChild {e : End} : .child e ∉ (lastStage o args i argv).1 := by
  unfold lastStage
  split
  · split
    · simp
    · split
      · simp
      · split <;> simp [call]
  · rw [callPathTried]
    simp

theorem forkPipesChild {e : End} (full : [] ∉ init) (mem : .child e ∈ (forkPipes o args i (init ++ [last])).1) :
    e = (lastStage o args (i + init.length) last).2 := by
  induction init generalizing i with
  | nil =>
    rw [List.nil_append, forkPipesLast] at mem
    exact absurd mem lastStageChild
  | cons first init ih =>
    have ih := @ih (i + 1) fun none => full (List.mem_cons_of_mem _ none)
    have words : first ≠ [] := fun none => full (by simp [none])
    have later := @forkPipesEnd o args init last (i + 1)
    rw [List.length_cons, Nat.add_comm init.length, ← Nat.add_assoc]
    rw [List.cons_append, forkPipesCons (by simp), callPathFull words] at mem
    cases out : (call o.execvp i first).2 with
    | became =>
      rw [out] at mem
      exact ih (by simpa [goesOn] using mem)
    | fault f => exact absurd out (callSound i f)
    | returns r =>
      rw [out] at mem
      unfold goesOn at mem
      dsimp only at mem
      rw [later] at mem
      simp only [List.mem_cons, List.mem_append, reduceCtorEq, false_or, List.not_mem_nil, or_false, Event.child.injEq] at mem
      rcases mem with (here | here) | here
      · exact ih here
      · exact here
      · exact ih here

theorem forkPipesCrash (none : [] ∈ init) : .child (.fault .null) ∈ (forkPipes o args i (init ++ [last])).1 := by
  induction init generalizing i with
  | nil => cases none
  | cons first init ih =>
    rw [List.cons_append, forkPipesCons (by simp)]
    rcases List.mem_cons.mp none with here | later
    · rw [← here, callPath, if_pos rfl]
      simp [goesOn]
    · exact List.mem_append_right _ (ih later)

/-! ### Redirection -/

theorem redirectsFile (redirects : Redirects args file) : args.getLast? = some file ∧ gt ∈ args ∧ gt ∈ args.tail ∧
    args[args.length - 2]? = some gt ∧ args[args.length - 1]? = some file := by
  obtain ⟨pre, word, rfl, _⟩ := redirects
  have length : (pre ++ [word, gt, file]).length = pre.length + 3 := by simp
  refine ⟨by simp, by simp, ?_, ?_, ?_⟩
  · cases pre <;> simp
  · rw [length, List.getElem?_append_right (by omega), show pre.length + 3 - 2 - pre.length = 1 by omega]
    rfl
  · rw [length, List.getElem?_append_right (by omega), show pre.length + 3 - 1 - pre.length = 2 by omega]
    rfl

theorem redirectsOne {file' : Bytes} (redirects : Redirects args file) (redirects' : Redirects args file') : file = file' :=
  Option.some.inj ((redirectsFile redirects).1.symm.trans (redirectsFile redirects').1)

theorem redirectsIff {file' : Bytes} (redirects : Redirects args file) : file' = file ↔ Redirects args file' :=
  ⟨fun same => same ▸ redirects, fun redirects' => redirectsOne redirects' redirects⟩

theorem opensIff (redirects : Redirects args file) : Opens o args ↔ o.opens file = true := by
  refine ⟨fun h => ?_, fun opens _ => ⟨file, redirects, opens⟩⟩
  obtain ⟨file', redirects', opens⟩ := h (redirectsFile redirects).2.1
  rwa [redirectsOne redirects redirects']

theorem firstGt {xs ys : List Bytes} (none : gt ∉ xs) : (xs ++ gt :: ys).idxOf? gt = some xs.length := by
  induction xs with
  | nil => rfl
  | cons x xs ih =>
    have other : ¬ (x == gt) = true := by
      rw [beq_iff_eq]
      exact fun same => none (same ▸ List.mem_cons_self)
    rw [List.cons_append, List.idxOf?_cons, if_neg other, ih fun mem => none (List.mem_cons_of_mem _ mem)]
    rfl

theorem lastStageGt (second : args[args.length - 2]? = some gt) (none : gt ∉ argv) (some : argv ≠ []) :
    lastStage o args i (argv ++ [gt, file]) =
      if o.opens file then (.truncate file :: (call o.execv i argv).1, (call o.execv i argv).2) else ([], .returns (-1)) := by
  have name : (argv ++ [gt, file])[argv.length + 1]? = .some file := by
    rw [List.getElem?_append_right (by omega), show argv.length + 1 - argv.length = 1 by omega]
    rfl
  unfold lastStage
  rw [if_pos second, firstGt none]
  dsimp only
  rw [name]
  dsimp only
  rw [if_neg (fun zero => some (List.length_eq_zero_iff.mp zero) : ¬ argv.length = 0), List.take_left]

theorem lastStagePlain (none : gt ∉ args) : lastStage o args i argv = callPath o.execvp i argv := by
  unfold lastStage
  exact if_neg fun second => none (List.mem_of_getElem? second)

/-! ### A command -/

theorem runsOf {t : Trace} {v : List Bytes} (vec : vectors args = init ++ [v])
    (exec : ∀ j argv, .exec j argv ∈ t.1 ↔ init[j]? = some argv ∨ j = init.length ∧ argv = v)
    (files : ∀ file, .truncate file ∈ t.1 ↔ Redirects args file) (sound : ∀ f, t.2 ≠ .fault f ∧ .child (.fault f) ∉ t.1) : Runs args t := by
  refine ⟨fun i argv mem => ?_, fun i less => ?_, files, sound⟩
  · rw [vec]
    rcases (exec i argv).mp mem with here | ⟨rfl, rfl⟩
    · have less := (List.getElem?_eq_some_iff.mp here).1
      rwa [List.getElem?_append_left less]
    · simp
  · rw [vec, List.length_append, List.length_singleton] at less
    rcases Nat.lt_or_eq_of_le (Nat.le_of_lt_succ less) with inner | last
    · exact ⟨init[i], (exec i _).mpr (.inl (List.getElem?_eq_getElem inner))⟩
    · exact ⟨v, (exec i v).mpr (.inr ⟨last, rfl⟩)⟩

theorem callExec {starts : List Bytes → Bool} {v : List Bytes} : .exec j argv ∈ (call starts i v).1 ↔ j = i ∧ argv = v := by
  simp [call]

theorem pipesRun {v : List Bytes} (vec : vectors args = init ++ [v]) (full : [] ∉ init)
    (exec : ∀ j argv, .exec j argv ∈ (lastStage o args init.length last).1 ↔ j = init.length ∧ argv = v)
    (files : ∀ file, .truncate file ∈ (lastStage o args init.length last).1 ↔ Redirects args file)
    (sound : ∀ f, (lastStage o args init.length last).2 ≠ .fault f) : Runs args (forkPipes o args 0 (init ++ [last])) := by
  refine runsOf vec (fun j argv => ?_) (fun file => ?_) fun f => ⟨?_, fun mem => ?_⟩
  · rw [forkPipesExec, Nat.zero_add, exec]
    simp
  · rw [forkPipesTruncate, Nat.zero_add, files]
  · rw [forkPipesEnd, Nat.zero_add]
    exact sound f
  · have same := forkPipesChild full mem
    rw [Nat.zero_add] at same
    exact sound f same.symm

theorem redirectsSplit (redirects : Redirects args file) : ∃ init argv, vectors args = init ++ [argv] ∧
    args.splitOnP (· == bar) = init ++ [argv ++ [gt, file]] ∧ gt ∉ argv ∧ argv ≠ [] := by
  obtain ⟨pre, word, rfl, none, other, name⟩ := redirects
  obtain ⟨init, argv, split⟩ := splitLast bar pre
  have wordBar : bar ∉ [word] := by simpa using other.symm
  have fileBar : bar ∉ [gt, file] := by
    intro mem
    rcases List.mem_cons.mp mem with bad | mem
    · cases bad
    · exact name (List.mem_singleton.mp mem).symm
  have front := splitAppend wordBar split
  have whole := splitAppend fileBar front
  rw [List.append_assoc, List.append_assoc] at whole
  refine ⟨init, argv ++ [word], ?_, ?_, ?_, by simp⟩
  · have length : (pre ++ [word, gt, file]).length - 2 = (pre ++ [word]).length := by simp
    unfold vectors
    rw [if_pos (by simp), length, show pre ++ [word, gt, file] = (pre ++ [word]) ++ [gt, file] by simp, List.take_left, front]
  · rw [List.append_assoc]
    exact whole
  · intro mem
    rcases List.mem_append.mp mem with mem | mem
    · have inside : argv ∈ pre.splitOnP (· == bar) := by simp [split]
      exact none (List.mem_append_left _ (splitMem inside mem))
    · exact none (by simp [List.mem_singleton.mp mem])

theorem roomPiping (room : Room 0 (args.splitOnP (· == bar))) : piping [] [] args = .ok (args.splitOnP (· == bar)) := by
  rw [← piecesNil] at room ⊢
  exact pipingOk room

theorem crashDisobeys (accepts : Accepted args) (none : [] ∈ init) : ¬ Obeys args (forkPipes o args 0 (init ++ [last])) :=
  fun obeys => ((obeys.1 accepts).sound .null).2 (forkPipesCrash none)

theorem redirectedObey (redirects : Redirects args file) : Obeys args (forkPipes o args 0 (args.splitOnP (· == bar))) ↔
    [] ∉ args.splitOnP (· == bar) ∧ o.opens file = true := by
  obtain ⟨init, argv, vec, split, none, some⟩ := redirectsSplit redirects
  have last := @lastStageGt o args argv file init.length (redirectsFile redirects).2.2.2.1 none some
  have accepts : Accepted args := fun _ => ⟨file, redirects⟩
  rw [split]
  by_cases full : [] ∈ init
  · exact iff_of_false (crashDisobeys accepts full) fun h => h.1 (List.mem_append_left _ full)
  rw [and_iff_right (by simpa using full)]
  by_cases opens : o.opens file = true
  · rw [if_pos opens] at last
    refine iff_of_true ⟨fun _ => pipesRun vec full ?_ ?_ ?_, fun bad => absurd accepts bad⟩ opens <;> rw [last]
    · simp [call]
    · intro file'
      rw [← redirectsIff redirects]
      simp [call]
    · exact callSound init.length
  · rw [if_neg opens] at last
    refine iff_of_false (fun obeys => ?_) opens
    obtain ⟨argv', mem⟩ := (obeys.1 accepts).each init.length (by rw [vec]; simp)
    rw [forkPipesExec, Nat.zero_add, last] at mem
    simp at mem

theorem plainObey (none : gt ∉ args) : Obeys args (forkPipes o args 0 (args.splitOnP (· == bar))) ↔ [] ∉ args.splitOnP (· == bar) := by
  obtain ⟨init, last, split⟩ := splitLast bar args
  have vec : vectors args = init ++ [last] := by
    unfold vectors
    rw [if_neg none, split]
  have accepts : Accepted args := fun h => absurd h none
  rw [split]
  by_cases full : [] ∈ init
  · exact iff_of_false (crashDisobeys accepts full) fun h => h (List.mem_append_left _ full)
  by_cases words : last = []
  · refine iff_of_false (fun obeys => ((obeys.1 accepts).sound .null).1 ?_) fun h => h (by simp [words])
    rw [forkPipesEnd, lastStagePlain none, callPath, if_pos words]
  refine iff_of_true ⟨fun _ => pipesRun vec full ?_ ?_ ?_, fun bad => absurd accepts bad⟩ ?_
  all_goals try rw [lastStagePlain none, callPathFull words]
  · exact fun _ _ => callExec
  · exact fun file => iff_of_false (by simp [call]) fun redirects => none (redirectsFile redirects).2.1
  · exact callSound _
  · simpa using ⟨full, words⟩

/-- The first stage is tried before the last is looked at. -/
theorem wrongDisobeys (piped : bar ∈ args) (wrong : ¬ Accepted args) : ¬ Obeys args (forkPipes o args 0 (args.splitOnP (· == bar))) := by
  intro obeys
  obtain ⟨first, rest, split, more⟩ := splitTwo piped
  have rejected := obeys.2 wrong
  have tried := (@forkPipesMem o args first rest 0 (.exec 0 first) more (by simp)).mpr (.inl rfl)
  rw [split] at rejected
  rw [rejected] at tried
  cases tried

theorem forkPipesObey (piped : bar ∈ args) : Obeys args (forkPipes o args 0 (args.splitOnP (· == bar))) ↔
    [] ∉ args.splitOnP (· == bar) ∧ Opens o args := by
  by_cases marked : gt ∈ args
  · by_cases accepted : ∃ file, Redirects args file
    · obtain ⟨file, redirects⟩ := accepted
      rw [redirectedObey redirects, opensIff redirects]
    · refine iff_of_false (wrongDisobeys piped fun h => accepted (h marked)) fun h => ?_
      obtain ⟨file, redirects, _⟩ := h.2 marked
      exact accepted ⟨file, redirects⟩
  · rw [plainObey marked]
    exact (and_iff_left fun h => absurd h marked).symm

theorem pipesObey (piped : bar ∈ args.tail) : Obeys args (execProg o args) ↔
    Room 0 (args.splitOnP (· == bar)) ∧ [] ∉ args.splitOnP (· == bar) ∧ Opens o args := by
  by_cases room : Room 0 (args.splitOnP (· == bar))
  · have ran : execProg o args = forkPipes o args 0 (args.splitOnP (· == bar)) := by
      unfold execProg
      rw [if_pos piped, roomPiping room]
    rw [ran, and_iff_right room]
    exact forkPipesObey (List.mem_of_mem_tail piped)
  · refine iff_of_false (fun obeys => ?_) fun h => room h.1
    have ran : ∃ f, execProg o args = ([], .fault f) := by
      unfold execProg
      rw [if_pos piped]
      cases built : piping [] [] args with
      | error f => exact ⟨f, rfl⟩
      | ok cmd =>
        have fits := pipingRoom built (by decide) (by simp)
        rw [piecesNil] at fits
        exact absurd fits room
    obtain ⟨f, ran⟩ := ran
    rw [ran] at obeys
    by_cases accepted : Accepted args
    · exact ((obeys.1 accepted).sound f).1 rfl
    · cases obeys.2 accepted

theorem splitSingle (plain : bar ∉ args.tail) :
    args.head? ≠ some bar ∧ args.splitOnP (· == bar) = [args] ∨ args.head? = some bar ∧ (args.splitOnP (· == bar))[0]? = some [] ∧ args ≠ [] := by
  cases args with
  | nil => exact .inl ⟨by simp, rfl⟩
  | cons arg args =>
    by_cases mark : arg = bar
    · refine .inr ⟨by rw [mark]; rfl, ?_, by simp⟩
      rw [List.splitOnP_cons_eq_if_modifyHead, if_pos (by simpa using mark)]
      rfl
    · refine .inl ⟨by simpa using mark, splitWhole fun mem => ?_⟩
      rcases List.mem_cons.mp mem with same | mem
      · exact mark same.symm
      · exact plain mem

theorem redirectTrace (last : args[args.length - 1]? = some file) : redirect o args =
    if o.opens file then (.truncate file :: (call o.execv 0 (args.take (args.length - 2))).1, (call o.execv 0 (args.take (args.length - 2))).2)
    else ([], .returns (-1)) := by
  unfold redirect
  rw [last]

theorem singleRun {t : Trace} {v : List Bytes} (vec : vectors args = v.splitOnP (· == bar)) (plain : bar ∉ v.tail)
    (exec : ∀ j argv, .exec j argv ∈ t.1 ↔ j = 0 ∧ argv = v) (files : ∀ file, .truncate file ∈ t.1 ↔ Redirects args file)
    (sound : ∀ f, t.2 ≠ .fault f ∧ .child (.fault f) ∉ t.1) : Runs args t ↔ v.head? ≠ some bar := by
  rcases splitSingle plain with ⟨other, whole⟩ | ⟨mark, first, some⟩
  · refine iff_of_true (@runsOf args [] t v (vec.trans whole) (fun j argv => ?_) files sound) other
    rw [exec]
    simp
  · refine iff_of_false (fun runs => ?_) fun other => other mark
    have own := runs.own 0 v ((exec 0 v).mpr ⟨rfl, rfl⟩)
    rw [vec, first] at own
    exact some (Option.some.inj own).symm

theorem redirectObey (plain : bar ∉ args.tail) (redirects : Redirects args file) :
    Runs args (redirect o args) ↔ args.head? ≠ some bar ∧ o.opens file = true := by
  obtain ⟨_, marked, _, _, last⟩ := redirectsFile redirects
  obtain ⟨pre, word, eq, _⟩ := id redirects
  have front : args.take (args.length - 2) = pre ++ [word] := by
    have length : args.length - 2 = (pre ++ [word]).length := by simp [eq]
    rw [length, eq, show pre ++ [word, gt, file] = (pre ++ [word]) ++ [gt, file] by simp, List.take_left]
  have vec : vectors args = (pre ++ [word]).splitOnP (· == bar) := by
    unfold vectors
    rw [if_pos marked, front]
  have head : (pre ++ [word]).head? = args.head? := by
    rw [eq]
    cases pre <;> rfl
  have tail : bar ∉ (pre ++ [word]).tail := by
    intro mem
    refine plain ?_
    rw [eq, show pre ++ [word, gt, file] = (pre ++ [word]) ++ [gt, file] by simp, List.tail_append_of_ne_nil (by simp)]
    exact List.mem_append_left _ mem
  rw [redirectTrace last, front]
  by_cases opens : o.opens file = true
  · rw [if_pos opens, ← head, and_iff_left opens]
    refine singleRun vec tail (by simp [call]) (fun file' => ?_) fun f => ⟨callSound 0 f, by simp [call]⟩
    rw [← redirectsIff redirects]
    simp [call]
  · rw [if_neg opens]
    refine iff_of_false (fun runs => ?_) fun h => opens h.2
    obtain ⟨argv, mem⟩ := runs.each 0 (by rw [vec]; exact List.length_pos_iff.mpr (List.splitOnP_ne_nil _ _))
    cases mem

theorem execvObey (plain : bar ∉ args.tail) (none : gt ∉ args) :
    Runs args (if args.length < 32 then call o.execv 0 args else ([], .fault .wild)) ↔ args.head? ≠ some bar ∧ args.length < 32 := by
  by_cases short : args.length < 32
  · rw [if_pos short, and_iff_left short]
    refine singleRun (by unfold vectors; rw [if_neg none]) plain (by simp [call]) (fun file => ?_) fun f => ⟨callSound 0 f, by simp [call]⟩
    exact iff_of_false (by simp [call]) fun redirects => none (redirectsFile redirects).2.1
  · rw [if_neg short]
    exact iff_of_false (fun runs => (runs.sound .wild).1 rfl) fun h => short h.2

theorem rejectedObeys (plain : bar ∉ args.tail) (marked : gt ∈ args) (rejects : ¬ Accepted args) : Obeys args (execProg o args) ↔
    gt ∈ args.tail ∧ (args[args.length - 2]? = some gt → ∀ file ∈ args.getLast?, o.opens file = false) := by
  unfold Obeys execProg
  rw [if_neg plain, and_iff_right fun accepts => absurd accepts rejects, forall_prop_of_true rejects]
  by_cases tail : gt ∈ args.tail
  · rw [if_pos tail, and_iff_right tail]
    by_cases second : args[args.length - 2]? = some gt
    · obtain ⟨file, last⟩ : ∃ file, args[args.length - 1]? = some file := by
        have long := List.length_pos_iff.mpr (List.ne_nil_of_mem marked)
        exact ⟨_, List.getElem?_eq_getElem (by omega)⟩
      rw [if_neg (not_not_intro second), redirectTrace last, List.getLast?_eq_getElem?, last]
      cases opens : o.opens file with
      | true =>
        refine iff_of_false (fun bad => by cases bad) fun h => ?_
        cases opens.symm.trans (h second file rfl)
      | false =>
        refine iff_of_true rfl fun _ file' same => ?_
        rwa [← Option.some.inj same]
    · rw [if_pos second]
      exact iff_of_true rfl fun h => absurd h second
  · rw [if_neg tail]
    refine iff_of_false (fun bad => ?_) fun h => tail h.1
    split at bad <;> cases bad

theorem acceptedObeys (plain : bar ∉ args.tail) (accepts : Accepted args) : Obeys args (execProg o args) ↔
    args.head? ≠ some bar ∧ Opens o args ∧ (gt ∉ args → args.length < 32) := by
  unfold Obeys execProg
  rw [if_neg plain, and_iff_left fun bad => absurd accepts bad, forall_prop_of_true accepts]
  by_cases marked : gt ∈ args
  · obtain ⟨file, redirects⟩ := accepts marked
    obtain ⟨_, _, tail, second, _⟩ := redirectsFile redirects
    rw [if_pos tail, if_neg (not_not_intro second), redirectObey plain redirects, opensIff redirects]
    simp [marked]
  · have tail : gt ∉ args.tail := fun h => marked (List.mem_of_mem_tail h)
    have opens : Opens o args := fun h => absurd h marked
    rw [if_neg tail, execvObey plain marked, and_iff_right opens, forall_prop_of_true marked]

theorem singleObeys (plain : bar ∉ args.tail) : Obeys args (execProg o args) ↔
    (Accepted args → args.head? ≠ some bar ∧ Opens o args ∧ (gt ∉ args → args.length < 32)) ∧
    (¬ Accepted args → gt ∈ args.tail ∧ (args[args.length - 2]? = some gt → ∀ file ∈ args.getLast?, o.opens file = false)) := by
  by_cases accepts : Accepted args
  · rw [acceptedObeys plain accepts, forall_prop_of_true accepts, and_iff_left fun bad => absurd accepts bad]
  · have marked : gt ∈ args := by
      by_contra none
      exact accepts fun h => absurd h none
    rw [rejectedObeys plain marked accepts, forall_prop_of_true accepts, and_iff_right fun bad => absurd bad accepts]

/-- `exec_prog` looks at the last but one argument only, `piping` at none, and neither
counts what it stores. -/
theorem execProgObeys (o : Outside) (args : List Bytes) : Obeys args (execProg o args) ↔ Handled o args := by
  unfold Handled
  by_cases piped : bar ∈ args.tail
  · rw [if_pos piped]
    exact pipesObey piped
  · rw [if_neg piped]
    exact singleObeys piped

/-- `ls > a > b` -/
def twice : List Bytes := [[108, 115], gt, [97], gt, [98]]

theorem twiceRedirects : execProg ⟨fun _ => true, fun _ => true, fun _ => true⟩ twice =
    ([.truncate [98], .exec 0 [[108, 115], gt, [97]]], .became) ∧ ¬ ∀ o args, Obeys args (execProg o args) := by
  have ran : execProg ⟨fun _ => true, fun _ => true, fun _ => true⟩ twice = ([.truncate [98], .exec 0 [[108, 115], gt, [97]]], .became) := by
    decide
  refine ⟨ran, fun all => ?_⟩
  have rejects : ¬ Accepted twice := by
    intro accepted
    obtain ⟨file, pre, word, eq, none, _⟩ := accepted (by decide)
    have count := congrArg (List.count gt) eq
    have once : (pre ++ [word, gt, file]).count gt = 1 := by
      have zero := List.count_eq_zero.mpr none
      have both : (pre ++ [word, gt, file]).count gt = (pre ++ [word, file]).count gt + 1 := by
        simp only [List.count_append, List.count_cons, List.count_nil, beq_self_eq_true, if_true]
        omega
      rw [both, zero]
    rw [once] at count
    revert count
    decide
  have rejected := (all ⟨fun _ => true, fun _ => true, fun _ => true⟩ twice).2 rejects
  rw [ran] at rejected
  cases rejected

end OpSys.Smash
