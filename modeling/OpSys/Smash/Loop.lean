import OpSys.Smash.Exec
import OpSys.Smash.Split

/-! How `main` runs one command: `loop`, the commands that are built in, and the process
that is made for the others. `fork` does not fail. -/
namespace OpSys.Smash
open OpSys.Pieces OpSys.Strtok

/-- What is found in one turn of the loop. `pwd`: what comes of it. -/
structure World where
  outside : Outside
  chdir : Bytes → Int
  pwd : Int

inductive Act where
  | reports
  | runs (args : List Bytes)
  deriving DecidableEq

/-- `none`: the shell exits. -/
def execBuiltin (w : World) (name : Bytes) (args : List Bytes) : Option Int :=
  if name = exitName then if args.length ≠ 1 then some (-1) else none
  else if name = cdName then if args.length ≠ 2 then some (-1) else some (w.chdir (args.getD 1 []))
  else if name = pwdName then if args.length ≠ 1 then some (-1) else some w.pwd
  else some (-1)

/-- One message for each process in which `exec_prog` returns -1. -/
def reports (t : Trace) : List Act :=
  List.replicate (t.1.count (.child (.returns (-1))) + if t.2 = .returns (-1) then 1 else 0) .reports

def perform (w : World) (name : Bytes) (args : List Bytes) : List Act × Bool :=
  if name = exitName ∨ name = cdName ∨ name = pwdName then
    match execBuiltin w name args with
    | none => ([.runs args], true)
    | some r => (.runs args :: if r = -1 then [.reports] else [], false)
  else (.runs args :: reports (execProg w.outside args), false)

def turns (w : Nat → World) (name : Bytes) (args : List Bytes) (j : Nat) : Nat → List Act × Bool
  | 0 => ([], false)
  | n + 1 =>
    let (es, exited) := perform (w j) name args
    if exited then (es, true)
    else
      let (es', exited) := turns w name args (j + 1) n
      (es ++ es', exited)

def strings (block : Block) (n : Nat) : Except Fault (List Bytes) :=
  match (block.take n).mapM id with
  | none => .error .unset
  | some args => .ok args

def moveDown (block : Block) : Nat → Block
  | 0 => block
  | j + 1 =>
    let block := moveDown block j
    block.set j (block.getD (j + 2) none)

def repeatCommand (w : Nat → World) (block : Block) (argnum numLoop : Nat) : Except Fault (List Act × Bool) :=
  if numLoop = 0 then .ok ([], false)
  else match block.getD 0 none with
    | none => .error .unset
    | some name => do
      let args ← strings block argnum
      return turns w name args 0 numLoop

def runCommand (w : Nat → World) (block : Block) (argnum : Nat) : Except Fault (List Act × Bool) :=
  if argnum = 0 then .ok ([], false)
  else match block.getD 0 none with
    | none => .error .unset
    | some name =>
      if name = loopName then
        match block.getD 1 none with
        | none => .error .unset
        | some str =>
          let parsed := strtol str
          if parsed.errno then .ok ([.reports], false)
          else if !parsed.moved then .ok ([.reports], false)
          else repeatCommand w (moveDown block (argnum - 2)) (argnum - 2) (BitVec.ofInt 32 parsed.value).toInt.toNat
      else repeatCommand w block argnum 1

def runNumber (w : Nat → World) (line : Bytes) (i : Nat) : Except Fault (List Act × Bool) := do
  let s ← split (lexer line).1
  match s.cmds[i]?, s.argnumArray[i]? with
  | some block, some (some argnum) => runCommand w block argnum
  | _, _ => .error .wild

/-! ### What is expected -/

def endptr (str : Bytes) : Bytes :=
  (match str.dropWhile isspace with
    | 45 :: body => body
    | 43 :: body => body
    | body => body).dropWhile isdigit

def looped : List Bytes → Option (Int × List Bytes)
  | str :: arg :: args =>
    let parsed := strtol str
    if parsed.errno = false ∧ parsed.moved ∧ endptr str = [] then some (parsed.value, arg :: args) else none
  | _ => none

/-- Without arguments nothing is run. -/
def ran (es : List Act) : List (List Bytes) := es.filterMap fun
  | .reports => none
  | .runs args => if args = [] then none else some args

def Repeats (args : List Bytes) (r : Except Fault (List Act × Bool)) : Prop :=
  ∃ es exited, r = .ok (es, exited) ∧ match looped args with
    | some (n, command) => ran es = List.replicate n.toNat command
    | none => .reports ∈ es ∧ ran es = []

/-! ### When it is so -/

def Kept : List Bytes → Prop
  | [] => False
  | str :: command =>
    let parsed := strtol str
    let numLoop := (BitVec.ofInt 32 parsed.value).toInt
    parsed.errno = true ∨ parsed.moved = false ∨
      if command = [] then 0 < numLoop
      else endptr str = [] ∧ numLoop.toNat = parsed.value.toNat ∧ (command = [exitName] → parsed.value < 2)

variable {w : Nat → World} {name str : Bytes} {args command : List Bytes} {block : Block} {j k n : Nat}

/-! ### Turns -/

theorem ranAppend (es es' : List Act) : ran (es ++ es') = ran es ++ ran es' := List.filterMap_append

theorem ranReports (t : Trace) : ran (reports t) = [] := by
  unfold reports ran
  rw [List.filterMap_replicate]

theorem ranRuns (args : List Bytes) (es : List Act) : ran (.runs args :: es) = (if args = [] then [] else [args]) ++ ran es := by
  unfold ran
  rw [List.filterMap_cons]
  dsimp only
  split <;> rename_i none <;> split at none <;> simp_all

theorem execBuiltinExits (w : World) (name : Bytes) (args : List Bytes) :
    execBuiltin w name args = none ↔ (Command.mk name args).exits = true := by
  have exits : (Command.mk name args).exits = true ↔ name = exitName ∧ args.length = 1 := by simp [Command.exits]
  rw [exits]
  unfold execBuiltin
  split
  · rename_i exit
    rw [and_iff_right exit]
    split
    · rename_i wrong
      exact iff_of_false (by simp) wrong
    · rename_i one
      exact iff_of_true rfl (not_not.mp one)
  · rename_i other
    refine iff_of_false (fun bad => ?_) fun h => other h.1
    split at bad
    · split at bad <;> cases bad
    · split at bad
      · split at bad <;> cases bad
      · cases bad

theorem performRuns (w : World) (name : Bytes) (args : List Bytes) :
    ran (perform w name args).1 = (if args = [] then [] else [args]) ∧ (perform w name args).2 = (Command.mk name args).exits := by
  have exits := execBuiltinExits w name args
  unfold perform
  split
  · cases built : execBuiltin w name args with
    | none =>
      refine ⟨?_, (exits.mp built).symm⟩
      rw [ranRuns]
      exact List.append_nil _
    | some r =>
      rw [built] at exits
      refine ⟨?_, (Bool.eq_false_iff.mpr fun bad => by cases exits.mpr bad).symm⟩
      have silent : ran (if r = -1 then [.reports] else []) = [] := by split <;> rfl
      rw [ranRuns, silent]
      exact List.append_nil _
  · rename_i other
    refine ⟨?_, ?_⟩
    · rw [ranRuns, ranReports, List.append_nil]
    · have name : name ≠ exitName := fun same => other (.inl same)
      simp [Command.exits, name]

theorem turnsDispatch (w : Nat → World) (name : Bytes) (args : List Bytes) (j n : Nat) :
    ran (turns w name args j n).1 = ((dispatch ⟨name, args⟩ n).1.map Command.args).filter (· ≠ []) ∧
    (turns w name args j n).2 = (dispatch ⟨name, args⟩ n).2 := by
  induction n generalizing j with
  | zero => exact ⟨rfl, rfl⟩
  | succ n ih =>
    obtain ⟨runs, exits⟩ := performRuns (w j) name args
    have single : (if args = [] then [] else [args]) = [args].filter (· ≠ []) := by
      by_cases none : args = [] <;> simp [none]
    rw [single] at runs
    unfold turns dispatch
    dsimp only
    rw [exits]
    cases (Command.mk name args).exits with
    | true => exact ⟨runs, rfl⟩
    | false =>
      obtain ⟨later, past⟩ := ih (j + 1)
      refine ⟨?_, past⟩
      simp only [Bool.false_eq_true, if_false]
      rw [ranAppend, runs, later, ← List.filter_append]
      rfl

/-! ### The prefix -/

theorem moveDownSpec (room : k + 2 ≤ block.length) : moveDown block k = (block.drop 2).take k ++ block.drop k := by
  induction k with
  | zero => rfl
  | succ k ih =>
    have here : (block.drop 2)[k]? = some block[k + 2] := by rw [List.getElem?_drop, Nat.add_comm 2, List.getElem?_eq_getElem]
    have size : ((block.drop 2).take k).length = k := by
      rw [List.length_take, List.length_drop]
      omega
    have later : ((block.drop 2).take k ++ block.drop k).getD (k + 2) none = block[k + 2] := by
      rw [List.getD_eq_getElem?_getD, List.getElem?_append_right (by omega), size, Nat.add_sub_cancel_left, List.getElem?_drop,
        List.getElem?_eq_getElem (by omega)]
      rfl
    unfold moveDown
    dsimp only
    rw [ih (by omega), later, List.set_append_right _ _ (by omega), size, Nat.sub_self, List.take_add_one, here,
      List.drop_eq_getElem_cons (by omega : k < block.length), List.set_cons_zero, List.append_assoc]
    rfl

theorem stringsSome (args : List Bytes) (rest : Block) : strings (args.map some ++ rest) args.length = .ok args := by
  have all : (args.map some).mapM id = some args := by
    induction args with
    | nil => rfl
    | cons arg args ih => simp [ih]
  unfold strings
  have front : (args.map some ++ rest).take (args.map some).length = args.map some := List.take_left
  rw [List.length_map] at front
  rw [front, all]

theorem laidCons (arg : Bytes) (args : List Bytes) : ∃ rest, laid (arg :: args) = some arg :: (args.map some ++ rest) := ⟨_, rfl⟩

theorem loopBlock (str : Bytes) (command : List Bytes) : ∃ rest,
    moveDown (laid (loopName :: str :: command)) command.length = command.map some ++ rest ∧
    (command.map some ++ rest).getD 0 none = some (command.headD loopName) := by
  obtain ⟨rest, block⟩ := laidCons loopName (str :: command)
  have room : command.length + 2 ≤ (laid (loopName :: str :: command)).length := by simp [block]
  have front : ((laid (loopName :: str :: command)).drop 2).take command.length = command.map some := by
    rw [block, ← List.length_map (f := some)]
    exact List.take_left
  refine ⟨_, by rw [moveDownSpec room, front], ?_⟩
  cases command with
  | nil => rw [block]; rfl
  | cons arg command => rfl

theorem runLoop (w : Nat → World) (str : Bytes) (command : List Bytes) :
    runCommand w (laid (loopName :: str :: command)) (command.length + 2) =
      if (strtol str).errno = true ∨ (strtol str).moved = false then .ok ([.reports], false)
      else .ok (turns w (command.headD loopName) command 0 (BitVec.ofInt 32 (strtol str).value).toInt.toNat) := by
  obtain ⟨rest, block⟩ := laidCons loopName (str :: command)
  obtain ⟨after, moved, first⟩ := loopBlock str command
  unfold runCommand
  rw [if_neg (by omega), Nat.add_sub_cancel, moved]
  rw [block]
  simp only [List.map_cons, List.cons_append, List.getD_cons_zero, List.getD_cons_succ, if_true]
  cases (strtol str).errno with
  | true => rfl
  | false =>
    cases (strtol str).moved with
    | false => rfl
    | true =>
      simp only [Bool.false_eq_true, Bool.not_true, if_false, or_self, Bool.true_eq_false]
      unfold repeatCommand
      split
      · rename_i zero
        rw [zero]
        rfl
      · rw [first, stringsSome]
        rfl

theorem loopAlone (w : Nat → World) : runCommand w (laid [loopName]) 1 = .error .unset := rfl

/-! ### What is run -/

def times (c : Command) (n : Nat) : Nat := if c.exits then min n 1 else n

theorem untilExitReplicate (c : Command) (n : Nat) : untilExit (List.replicate n c) = List.replicate (times c n) c := by
  unfold times
  cases exits : c.exits with
  | false =>
    refine untilExitNone (List.any_eq_false.mpr fun c' mem => ?_)
    rw [List.eq_of_mem_replicate mem, exits]
    exact Bool.false_ne_true
  | true =>
    cases n with
    | zero => rfl
    | succ n =>
      rw [if_pos rfl, Nat.min_eq_right (Nat.succ_pos n), List.replicate_succ, untilExit, exits]
      rfl

theorem ranTurns (w : Nat → World) (name : Bytes) (args : List Bytes) (j n : Nat) :
    ran (turns w name args j n).1 = if args = [] then [] else List.replicate (times ⟨name, args⟩ n) args := by
  rw [(turnsDispatch w name args j n).1, dispatchSpec, untilExitReplicate, List.map_replicate]
  by_cases none : args = []
  · simp [none]
  · rw [if_neg none, List.filter_replicate, if_pos (by simpa using none)]

/-- `execv` has no path. -/
theorem turnsNothing : .reports ∈ (turns w loopName [] j n).1 ↔ 0 < n := by
  cases n with
  | zero => exact iff_of_false (by simp [turns]) (Nat.lt_irrefl 0)
  | succ n =>
    refine iff_of_true ?_ (Nat.succ_pos n)
    have first : (perform (w j) loopName []) = ([.runs [], .reports], false) := rfl
    unfold turns
    rw [first]
    simp

theorem timesExpected (some : command ≠ []) (v : Int) :
    times ⟨command.headD loopName, command⟩ (BitVec.ofInt 32 v).toInt.toNat = v.toNat ↔
      (BitVec.ofInt 32 v).toInt.toNat = v.toNat ∧ (command = [exitName] → v < 2) := by
  have exits : (Command.mk (command.headD loopName) command).exits = true ↔ command = [exitName] := by
    unfold Command.exits
    cases command with
    | nil => exact absurd rfl some
    | cons arg rest => simp
  unfold times
  by_cases last : command = [exitName]
  · have one : v = 1 → (BitVec.ofInt 32 v).toInt.toNat = 1 := by
      rintro rfl
      rfl
    rw [if_pos (exits.mpr last), forall_prop_of_true last]
    generalize (BitVec.ofInt 32 v).toInt.toNat = m at *
    omega
  · rw [if_neg (mt exits.mp last), and_iff_left fun bad => absurd bad last]

theorem repeatsOk {t : List Act × Bool} : Repeats args (.ok t) ↔ match looped args with
    | some (n, command) => ran t.1 = List.replicate n.toNat command
    | none => .reports ∈ t.1 ∧ ran t.1 = [] := by
  constructor
  · rintro ⟨es, exited, same, h⟩
    cases same
    exact h
  · exact fun h => ⟨t.1, t.2, rfl, h⟩

theorem loopedCons (some : command ≠ []) : looped (str :: command) =
    if (strtol str).errno = false ∧ (strtol str).moved = true ∧ endptr str = [] then .some ((strtol str).value, command) else none := by
  cases command with
  | nil => exact absurd rfl some
  | cons arg command => rfl

theorem loopWrong (wrong : (strtol str).errno = true ∨ (strtol str).moved = false) : Repeats (str :: command) (.ok ([.reports], false)) := by
  have none : looped (str :: command) = .none := by
    cases command with
    | nil => rfl
    | cons arg command =>
      rw [loopedCons (by simp), if_neg]
      rintro ⟨silent, moved, _⟩
      rw [silent, moved] at wrong
      rcases wrong with bad | bad <;> cases bad
  rw [repeatsOk, none]
  exact ⟨List.mem_cons_self, rfl⟩

theorem loopNothing (w : Nat → World) (str : Bytes) (n : Nat) : Repeats [str] (.ok (turns w loopName [] 0 n)) ↔ 0 < n := by
  rw [repeatsOk, ranTurns]
  exact (and_iff_left (if_pos rfl)).trans turnsNothing

theorem loopCommand (w : Nat → World) (some : command ≠ []) (silent : (strtol str).errno = false) (moved : (strtol str).moved = true) :
    let numLoop := (BitVec.ofInt 32 (strtol str).value).toInt
    Repeats (str :: command) (.ok (turns w (command.headD loopName) command 0 numLoop.toNat)) ↔
      endptr str = [] ∧ numLoop.toNat = (strtol str).value.toNat ∧ (command = [exitName] → (strtol str).value < 2) := by
  dsimp only
  rw [repeatsOk, loopedCons some, ranTurns, if_neg some]
  by_cases whole : endptr str = []
  · rw [if_pos ⟨silent, moved, whole⟩, and_iff_right whole, ← timesExpected some]
    dsimp only
    exact List.replicate_inj.trans (and_iff_left (.inr rfl))
  · rw [if_neg fun h => whole h.2.2]
    refine iff_of_false (fun ⟨reported, nothing⟩ => ?_) fun h => whole h.1
    have zero : (BitVec.ofInt 32 (strtol str).value).toInt.toNat = 0 := by
      have none : times ⟨command.headD loopName, command⟩ (BitVec.ofInt 32 (strtol str).value).toInt.toNat = 0 := by simpa using nothing
      unfold times at none
      split at none <;> omega
    rw [zero] at reported
    cases reported

theorem loopKept (w : Nat → World) (args : List Bytes) :
    Repeats args (runCommand w (laid (loopName :: args)) (args.length + 1)) ↔ Kept args := by
  cases args with
  | nil =>
    refine iff_of_false (fun ⟨es, exited, ok, _⟩ => ?_) id
    cases (loopAlone w).symm.trans ok
  | cons str command =>
    rw [List.length_cons, runLoop]
    unfold Kept
    dsimp only
    by_cases wrong : (strtol str).errno = true ∨ (strtol str).moved = false
    · rw [if_pos wrong, ← or_assoc]
      exact iff_of_true (loopWrong wrong) (.inl wrong)
    · rw [if_neg wrong, ← or_assoc, or_iff_right wrong]
      rw [not_or, Bool.not_eq_true, Bool.not_eq_false] at wrong
      by_cases none : command = []
      · rw [if_pos none, none, List.headD_nil, loopNothing]
        omega
      · rw [if_neg none]
        exact loopCommand w none wrong.1 wrong.2

/-- The characters after the count are not looked at, nor is it checked that a command
comes after it; and the count is stored in an `int`. -/
theorem loopRepeats (w : Nat → World) (line : Bytes) (i : Nat) (args : List Bytes) (command : (segments line)[i]? = some (loopName :: args)) :
    Repeats args (runNumber w line i) ↔ (Countable (words delim line) ∧ ∀ cmd ∈ segments line, Small cmd) ∧ Kept args := by
  unfold runNumber
  unfold segments at command ⊢
  rw [(lexerSpec line).1, ← piecesNil]
  rw [← piecesNil] at command
  rcases splitCases (words delim line) with ⟨fits, same⟩ | ⟨wide, wild⟩
  · have block : (stored (pieces semicolon [] (words delim line))).cmds[i]? = some (laid (loopName :: args)) := by
      rw [stored, List.getElem?_map, command]
      rfl
    have argnum : (stored (pieces semicolon [] (words delim line))).argnumArray[i]? = some (some (args.length + 1)) := by
      rw [stored, List.getElem?_map, command]
      rfl
    rw [same, and_iff_right fits, ← loopKept w args]
    simp only [bind, Except.bind, block, argnum]
  · rw [wild]
    refine iff_of_false (fun ⟨es, exited, bad, _⟩ => ?_) fun h => wide h.1
    cases bad

def quiet : Nat → World := fun _ => ⟨⟨fun _ => true, fun _ => true, fun _ => true⟩, fun _ => 0, 0⟩

def twiceLine : Bytes := [108, 115, 32, 59, 32, 108, 111, 111, 112, 32, 50, 32, 112, 119, 100, 10]

theorem loopRepeatsTwice : Repeats [[50], pwdName] (runNumber quiet twiceLine 1) := by
  have commands : segments twiceLine = [[[108, 115]], [loopName, [50], pwdName]] := by decide +kernel
  refine (loopRepeats quiet twiceLine 1 [[50], pwdName] (by rw [commands]; rfl)).mpr ⟨⟨by decide +kernel, ?_⟩, .inr (.inr ?_)⟩
  · rw [commands]
    unfold Small
    decide
  · rw [if_neg (by decide)]
    decide

def suffixedLine : Bytes := [108, 111, 111, 112, 32, 51, 120, 32, 112, 119, 100, 10]

theorem suffixedRuns : runNumber quiet suffixedLine 0 = .ok (List.replicate 3 (.runs [pwdName]), false) ∧
    ¬ ∀ w line i args, (segments line)[i]? = some (loopName :: args) → Repeats args (runNumber w line i) := by
  have runs : runNumber quiet suffixedLine 0 = .ok (List.replicate 3 (.runs [pwdName]), false) := by decide +kernel
  refine ⟨runs, fun all => ?_⟩
  obtain ⟨es, exited, same, expected⟩ := all quiet suffixedLine 0 [[51, 120], pwdName] (by decide +kernel)
  cases runs.symm.trans same
  rw [show looped [[51, 120], pwdName] = none by decide] at expected
  revert expected
  decide

end OpSys.Smash
