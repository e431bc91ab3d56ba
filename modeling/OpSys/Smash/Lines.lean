import OpSys.Lib.Transition
import OpSys.Smash.Getline
import OpSys.Smash.Lexer

/-! The loop of `main`, and which commands it dispatches for the lines of its input. At the
end of input the buffer still holds the first word of the last line, and that is run again
and again. -/
namespace OpSys.Smash
open OpSys.Pieces OpSys.Strtok OpSys.Transition

/-- `turn`: how many commands have been dispatched. -/
structure Shell where
  buf : Option Bytes
  stdin : Stdin
  turn : Nat
  exited : Bool

/-- One round of the loop in `main`, and the commands it dispatches. What `getline`
returns is not looked at. -/
def round (a : Around) (s : Shell) : Except Fault (Shell × List Command) :=
  match getline a s.buf s.stdin with
  | (none, _) => .error .null
  | (some line, stdin) => do
    let lexed ← Lexer.lexer line
    let cmds ← separate [] [] lexed.words
    let (cs, exited) ← execute cmds
    return (⟨some lexed.line, stdin.children a s.turn cs, s.turn + cs.length, exited⟩, cs)

def start : Shell := ⟨none, ⟨[], 0, false⟩, 0, false⟩

def machine (a : Around) : Machine Shell Unit (List Command) Fault where
  init s := s = start
  step s _ := if s.exited then .ok (s, []) else round a s

/-! ### What is expected -/

def segments (line : Bytes) : List (List Bytes) := (words delim line).splitOnP (· == semicolon)

def expand (cmd : List Bytes) : List Command := match prepare cmd with
  | .ok (n, c) => List.replicate n c
  | .error _ => []

def commands (line : Bytes) : List Command := (segments line).flatMap expand

def untilExit : List Command → List Command
  | [] => []
  | c :: rest => if c.exits then [c] else c :: untilExit rest

def Does (a : Around) (s : Shell) (n : Nat) (cs : List Command) : Prop :=
  ∃ s' os, (machine a).run s (List.replicate n ()) = .ok (s', os) ∧ os.flatten = cs

/-- `n` rounds run the commands of the first `n` lines, in order, and nothing else. -/
def RunsOnce (a : Around) : Prop := ∀ n, Does a start n (untilExit (((lines a.file).take n).flatMap commands))

/-! ### When it is so -/

def Small (cmd : List Bytes) : Prop := cmd.length ≤ 10 ∧ ∀ arg ∈ cmd, arg.length < 256

def Counted : List (List Bytes) → Prop
  | [] => True
  | cmd :: rest => cmd ≠ [loopName] ∧ ((expand cmd).any Command.exits = true ∨ Counted rest)

/-- The line fits the arrays of `lexer` and `main`, and each `loop` has a count. -/
structure Fits (line : Bytes) : Prop where
  countable : Countable (words delim line)
  small : ∀ cmd ∈ segments line, Small cmd
  counted : Counted (segments line)

def Exits (line : Bytes) : Prop := (commands line).any Command.exits = true

def Quiet (line : Bytes) : Prop := ∀ w ∈ (words delim line).head?, w = semicolon

/-- Every line that is read fits, and one of them exits or the last is quiet. -/
def Settles : List Bytes → Prop
  | [] => False
  | line :: rest => Fits line ∧ (Exits line ∨ if rest = [] then Quiet line else Settles rest)

/-- Where the shell has to read on, what the stream gives is the rest of the lines. -/
def Straight (a : Around) (turn : Nat) (s : Stdin) : List Bytes → Prop
  | [] => s.eof = true ∨ s.left a = []
  | line :: rest => (10 ∈ s.ahead ∨ s.left a = (line :: rest).flatten) ∧ (Exits line ∨
      Straight a (turn + (commands line).length) ((getline a none s).2.children a turn (commands line)) rest)

variable {a : Around} {s s' : Shell} {stdin : Stdin} {line input : Bytes} {cmd : List Bytes} {cmds done : List (List Bytes)} {args : List Bytes} {buf : Option Bytes}

/-! ### One line -/

theorem separateOk (small : ∀ piece ∈ pieces semicolon cmd args, Small piece) :
    separate done cmd args = .ok (done ++ pieces semicolon cmd args) := by
  induction args generalizing done cmd with
  | nil => simp [separate, pieces]
  | cons arg args ih =>
    unfold separate
    by_cases mark : arg = semicolon
    · subst arg
      rw [piecesMark] at small ⊢
      rw [if_pos rfl, ih fun piece mem => small piece (List.mem_cons_of_mem _ mem), List.append_assoc]
      rfl
    · rw [piecesCons mark] at small ⊢
      obtain ⟨more, rest, head⟩ := piecesHead (cmd ++ [arg]) args
      obtain ⟨length, each⟩ := small _ (by rw [head]; exact List.mem_cons_self)
      have room : cmd.length < 10 := by
        rw [List.length_append, List.length_append, List.length_singleton] at length
        omega
      rw [if_neg mark, if_pos ⟨room, each arg (by simp)⟩]
      exact ih small

theorem separateFits {cmds' : List (List Bytes)} (ok : separate done cmd args = .ok cmds') (small : Small cmd) :
    ∀ piece ∈ pieces semicolon cmd args, Small piece := by
  induction args generalizing done cmd with
  | nil =>
    intro piece mem
    simp [pieces] at mem
    rwa [mem]
  | cons arg args ih =>
    unfold separate at ok
    by_cases mark : arg = semicolon
    · subst arg
      rw [if_pos rfl] at ok
      rw [piecesMark]
      intro piece mem
      rcases List.mem_cons.mp mem with rfl | mem
      · exact small
      · exact ih ok ⟨Nat.zero_le _, by simp⟩ piece mem
    · rw [if_neg mark] at ok
      split at ok
      · rename_i room
        rw [piecesCons mark]
        refine ih ok ⟨?_, fun a mem => ?_⟩
        · rw [List.length_append, List.length_singleton]
          exact room.1
        · rcases List.mem_append.mp mem with mem | mem
          · exact small.2 a mem
          · rw [List.mem_singleton.mp mem]
            exact room.2
      · cases ok

theorem untilExitAppend (cs cs' : List Command) : untilExit (cs ++ cs') =
    if cs.any Command.exits then untilExit cs else cs ++ untilExit cs' := by
  induction cs with
  | nil => rfl
  | cons c rest ih =>
    rw [List.cons_append, untilExit, untilExit, ih, List.any_cons]
    cases c.exits with
    | true => simp
    | false =>
      cases rest.any Command.exits <;> simp

theorem untilExitNone {cs : List Command} (none : cs.any Command.exits = false) : untilExit cs = cs := by
  have both := untilExitAppend cs []
  rwa [List.append_nil, none, if_neg Bool.false_ne_true, show untilExit [] = [] from rfl, List.append_nil] at both

theorem dispatchSpec (c : Command) (n : Nat) :
    dispatch c n = (untilExit (List.replicate n c), (List.replicate n c).any Command.exits) := by
  induction n with
  | zero => rfl
  | succ n ih =>
    rw [dispatch, ih, List.replicate_succ, untilExit, List.any_cons]
    cases c.exits <;> rfl

theorem prepareUnset (cmd : List Bytes) : cmd = [loopName] ∧ prepare cmd = .error .unset ∨
    cmd ≠ [loopName] ∧ ∃ n c, prepare cmd = .ok (n, c) ∧ expand cmd = List.replicate n c := by
  unfold expand
  cases ran : prepare cmd with
  | ok x =>
    obtain ⟨n, c⟩ := x
    refine .inr ⟨?_, n, c, rfl, rfl⟩
    rintro rfl
    cases ran
  | error e =>
    left
    unfold prepare at ran
    split at ran
    · cases ran
    · rename_i name args
      split at ran
      · rename_i loop
        split at ran
        · cases ran
          exact ⟨by rw [loop], rfl⟩
        · dsimp only at ran
          split at ran <;> cases ran
      · cases ran

theorem executeOk (counted : Counted cmds) :
    execute cmds = .ok (untilExit (cmds.flatMap expand), (cmds.flatMap expand).any Command.exits) := by
  induction cmds with
  | nil => rfl
  | cons cmd rest ih =>
    obtain ⟨bare, later⟩ := counted
    rcases prepareUnset cmd with ⟨bad, _⟩ | ⟨_, n, c, ran, made⟩
    · exact absurd bad bare
    rw [List.flatMap_cons, untilExitAppend, List.any_append, made]
    rw [made] at later
    unfold execute
    rw [ran]
    simp only [bind, Except.bind, dispatchSpec]
    cases exited : (List.replicate n c).any Command.exits with
    | true => rfl
    | false =>
      rw [exited] at later
      rw [ih (later.resolve_left Bool.false_ne_true), untilExitNone exited]
      rfl

theorem executeCounted {r : List Command × Bool} (ok : execute cmds = .ok r) : Counted cmds := by
  induction cmds generalizing r with
  | nil => trivial
  | cons cmd rest ih =>
    unfold execute at ok
    rcases prepareUnset cmd with ⟨_, bad⟩ | ⟨bare, n, c, ran, made⟩
    · rw [bad] at ok
      cases ok
    rw [ran] at ok
    simp only [bind, Except.bind, dispatchSpec] at ok
    refine ⟨bare, ?_⟩
    rw [made]
    cases exited : (List.replicate n c).any Command.exits with
    | true => exact .inl rfl
    | false =>
      rw [exited] at ok
      cases later : execute rest with
      | error e =>
        rw [later] at ok
        cases ok
      | ok r' => exact .inr (ih later)

/-! ### One round -/

theorem wordsLexed (countable : Countable (words delim line)) : ∃ lexed, Lexer.lexer line = .ok lexed ∧ lexed.words = words delim line ∧
    lexed.line = (lexer line).2 := by
  have found := Lexer.lexerCases line
  rw [(lexerSpec line).1] at found
  obtain ⟨_, ran⟩ := found.resolve_right fun bad => bad.1 countable
  refine ⟨_, ran, ?_, rfl⟩
  unfold Lexer.Lexed.words
  dsimp only
  rw [Int.toNat_natCast, List.take_left' (List.length_map _)]
  rw [List.filterMap_map]
  exact List.filterMap_some

theorem roundOk (reads : getline a s.buf s.stdin = (some line, stdin)) (fits : Fits line) : round a s =
    .ok (⟨some (lexer line).2, stdin.children a s.turn (untilExit (commands line)), s.turn + (untilExit (commands line)).length,
      (commands line).any Command.exits⟩, untilExit (commands line)) := by
  have separated : separate [] [] (words delim line) = .ok ([] ++ pieces semicolon [] (words delim line)) :=
    separateOk (by rw [piecesNil]; exact fits.small)
  rw [piecesNil, List.nil_append] at separated
  obtain ⟨lexed, ran, all, left⟩ := wordsLexed fits.countable
  unfold round
  rw [reads]
  dsimp only
  rw [ran]
  simp only [bind, Except.bind]
  rw [all, separated]
  dsimp only
  rw [show (words delim line).splitOnP (· == semicolon) = segments line from rfl, executeOk fits.counted, left]
  rfl

theorem roundFits {r : Shell × List Command} (reads : getline a s.buf s.stdin = (some line, stdin)) (ok : round a s = .ok r) :
    Fits line := by
  unfold round at ok
  rw [reads] at ok
  dsimp only at ok
  by_cases countable : Countable (words delim line)
  · obtain ⟨lexed, ran, all, _⟩ := wordsLexed countable
    rw [ran] at ok
    simp only [bind, Except.bind] at ok
    rw [all] at ok
    cases separated : separate [] [] (words delim line) with
    | error e =>
      rw [separated] at ok
      cases ok
    | ok cmds =>
      have small := separateFits separated ⟨Nat.zero_le _, by simp⟩
      have same := separated.symm.trans (separateOk small)
      rw [piecesNil] at small
      rw [piecesNil, List.nil_append] at same
      cases same
      rw [separated] at ok
      dsimp only at ok
      cases ran : execute ((words delim line).splitOnP (· == semicolon)) with
      | error e =>
        rw [ran] at ok
        cases ok
      | ok r => exact ⟨countable, small, executeCounted ran⟩
  · have found := Lexer.lexerCases line
    rw [(lexerSpec line).1] at found
    rw [(found.resolve_left fun good => countable good.1).2] at ok
    cases ok

/-! ### All rounds -/

variable {mid : Shell} {n : Nat} {cs : List Command}

theorem doesZero : Does a s 0 cs ↔ cs = [] := by
  constructor
  · rintro ⟨s', os, ran, all⟩
    cases ran
    exact all.symm
  · rintro rfl
    exact ⟨s, [], rfl, rfl⟩

theorem doesSucc (fresh : s.exited = false) : Does a s (n + 1) cs ↔ ∃ mid here later, round a s = .ok (mid, here) ∧ Does a mid n later ∧
    cs = here ++ later := by
  have step : (machine a).step s () = round a s := by
    unfold machine
    dsimp only
    rw [fresh, if_neg Bool.false_ne_true]
  constructor
  · rintro ⟨s', os, ran, rfl⟩
    obtain ⟨mid, here, os', first, later, rfl⟩ := Machine.runCons ran
    exact ⟨mid, here, os'.flatten, step.symm.trans first, ⟨s', os', later, rfl⟩, rfl⟩
  · rintro ⟨mid, here, _, first, ⟨s', os, ran, rfl⟩, rfl⟩
    exact ⟨s', here :: os, Machine.runStep (step.trans first) ran, rfl⟩

theorem doesOver (exited : s.exited = true) (n : Nat) : Does a s n [] := by
  induction n with
  | zero => exact doesZero.mpr rfl
  | succ n ih =>
    obtain ⟨s', os, ran, none⟩ := ih
    have step : (machine a).step s () = .ok (s, []) := by
      unfold machine
      dsimp only
      rw [exited, if_pos rfl]
    exact ⟨s', [] :: os, Machine.runStep step ran, none⟩

theorem segmentsOne {w : Bytes} (one : words delim line = [w]) (other : w ≠ semicolon) : segments line = [[w]] := by
  unfold segments
  rw [one]
  exact List.splitOnP_eq_singleton fun x mem => by simpa [List.mem_singleton.mp mem] using other

theorem quietNothing (short : (words delim line).length ≤ 1) (quiet : Quiet line) : Fits line ∧ commands line = [] := by
  have countable : Countable (words delim line) := by
    unfold Countable
    omega
  have blank : ∀ cmd ∈ segments line, cmd = [] := by
    unfold segments
    cases here : words delim line with
    | nil => simp
    | cons w rest =>
      rw [here, List.length_cons] at short
      obtain rfl := List.length_eq_zero_iff.mp (Nat.le_zero.mp (Nat.le_of_succ_le_succ short))
      unfold Quiet at quiet
      rw [here] at quiet
      rw [quiet w rfl]
      decide
  have counted : ∀ cmds : List (List Bytes), (∀ cmd ∈ cmds, cmd = []) → Counted cmds ∧ cmds.flatMap expand = [] := by
    intro cmds all
    induction cmds with
    | nil => exact ⟨trivial, rfl⟩
    | cons cmd rest ih =>
      obtain ⟨later, none⟩ := ih fun cmd mem => all cmd (List.mem_cons_of_mem _ mem)
      rw [all cmd List.mem_cons_self, List.flatMap_cons, none]
      exact ⟨⟨by simp, .inr later⟩, rfl⟩
  obtain ⟨ok, none⟩ := counted _ blank
  exact ⟨⟨countable, fun cmd mem => by rw [blank cmd mem]; exact ⟨Nat.zero_le _, by simp⟩, ok⟩, none⟩

theorem idleIff {left : Bytes} (fresh : s.exited = false) (ahead : s.stdin.ahead = [])
    (past : s.stdin.eof = true ∨ a.file.drop s.stdin.offset = []) (buf : s.buf = some left)
    (short : (words delim left).length ≤ 1) : (∀ n, Does a s n []) ↔ Quiet left := by
  constructor
  · intro idle
    obtain ⟨stdin, reads, _⟩ := getlineOver s.buf ahead past
    rw [buf] at reads
    obtain ⟨mid, here, later, ran, _, none⟩ := (doesSucc fresh).mp (idle 1)
    have fits := roundFits (by rw [buf]; exact reads) ran
    cases ran.symm.trans (roundOk (by rw [buf]; exact reads) fits)
    have quiet := (List.append_eq_nil_iff.mp none.symm).1
    intro w first
    by_contra other
    have one : words delim left = [w] := by
      cases all : words delim left with
      | nil =>
        rw [all] at first
        cases first
      | cons w' rest =>
        rw [all] at first short
        cases first
        rw [List.length_eq_zero_iff.mp (Nat.le_zero.mp (Nat.le_of_succ_le_succ short))]
    have counted := fits.counted
    rw [segmentsOne one other] at counted
    have command : commands left = [⟨w, [w]⟩] := by
      unfold commands
      rw [segmentsOne one other]
      have name : w ≠ loopName := fun loop => counted.1 (by rw [loop])
      simp [expand, prepare, name]
    rw [command] at quiet
    unfold untilExit at quiet
    split at quiet <;> cases quiet
  · intro quiet n
    induction n generalizing s left with
    | zero => exact doesZero.mpr rfl
    | succ n ih =>
      obtain ⟨stdin, reads, ahead', ended⟩ := getlineOver s.buf ahead past
      rw [buf] at reads
      obtain ⟨fits, none⟩ := quietNothing short quiet
      have ran := roundOk (by rw [buf]; exact reads) fits
      rw [none] at ran
      have same : words delim (lexer left).2 = words delim left := (lexerSpec left).2.trans (List.take_of_length_le short)
      have quiet' : Quiet (lexer left).2 := by
        unfold Quiet
        rwa [same]
      exact (doesSucc fresh).mpr ⟨_, _, [], ran, ih rfl ahead' (.inl ended) rfl (by rwa [same]) quiet', rfl⟩

theorem expectedSucc (line : Bytes) (ls : List Bytes) (n : Nat) : untilExit (((line :: ls).take (n + 1)).flatMap commands) =
    if (commands line).any Command.exits then untilExit (commands line)
    else commands line ++ untilExit ((ls.take n).flatMap commands) := by
  rw [List.take_succ_cons, List.flatMap_cons, untilExitAppend]

theorem roundsGoOn {line : Bytes} {ls : List Bytes} (fresh : s.exited = false) (goes : (commands line).any Command.exits = false)
    (ran : round a s = .ok (mid, commands line)) :
    (∀ n, Does a s n (untilExit (((line :: ls).take n).flatMap commands))) ↔ ∀ n, Does a mid n (untilExit ((ls.take n).flatMap commands)) := by
  have expected := expectedSucc line ls
  simp only [goes, Bool.false_eq_true, if_false] at expected
  constructor
  · intro all n
    have here := all (n + 1)
    rw [expected] at here
    obtain ⟨mid', now, later, ran', rest, same⟩ := (doesSucc fresh).mp here
    cases ran.symm.trans ran'
    rwa [List.append_cancel_left same]
  · intro all n
    cases n with
    | zero => exact doesZero.mpr rfl
    | succ n =>
      rw [expected]
      exact (doesSucc fresh).mpr ⟨_, _, _, ran, all n, rfl⟩

theorem roundsExit {line : Bytes} {ls : List Bytes} (fresh : s.exited = false) (exits : (commands line).any Command.exits = true)
    (ran : round a s = .ok (mid, untilExit (commands line))) (ended : mid.exited = true) (n : Nat) :
    Does a s n (untilExit (((line :: ls).take n).flatMap commands)) := by
  cases n with
  | zero => exact doesZero.mpr rfl
  | succ n =>
    rw [expectedSucc, if_pos exits]
    exact (doesSucc fresh).mpr ⟨_, _, [], ran, doesOver ended n, (List.append_nil _).symm⟩

/-- What the lexer leaves of the last line is its first word. -/
theorem quietIff {line : Bytes} (fresh : s.exited = false) (ahead : s.stdin.ahead = []) (past : s.stdin.eof = true ∨ a.file.drop s.stdin.offset = [])
    (held : s.buf = some (lexer line).2) : (∀ n, Does a s n []) ↔ Quiet line := by
  have left := (lexerSpec line).2
  have short : (words delim (lexer line).2).length ≤ 1 := by
    rw [left]
    exact List.length_take_le 1 _
  rw [idleIff fresh ahead past held short]
  unfold Quiet
  rw [left, List.head?_take]
  simp

theorem roundsIff {ls : List Bytes} {text : Bytes} (fresh : s.exited = false) (ready : Ready a s.stdin text) (split : lines text = ls) (full : ls ≠ [])
    (straight : Straight a s.turn s.stdin ls) : (∀ n, Does a s n (untilExit ((ls.take n).flatMap commands))) ↔ Settles ls := by
  induction ls generalizing s text with
  | nil => exact absurd rfl full
  | cons line rest ih =>
    have nonempty : text ≠ [] := by
      rintro rfl
      cases split
    obtain ⟨place, later⟩ := straight
    rw [← split, linesFlatten] at place
    obtain ⟨stdin, reads, ready', _⟩ := getlineReady ready nonempty place
    cases split.symm.trans (linesNext nonempty)
    rw [reads none] at later
    by_cases fits : Fits (nextLine text).1
    · have ran := roundOk (reads s.buf) fits
      rw [Settles, and_iff_right fits]
      cases exited : (commands (nextLine text).1).any Command.exits with
      | true =>
        rw [exited] at ran
        exact iff_of_true (roundsExit fresh exited ran rfl) (.inl exited)
      | false =>
        rw [exited, untilExitNone exited] at ran
        have exits : ¬ Exits (nextLine text).1 := by
          unfold Exits
          rw [exited]
          exact Bool.false_ne_true
        have later := later.resolve_left exits
        rw [roundsGoOn fresh exited ran, or_iff_right exits]
        by_cases last : lines (nextLine text).2 = []
        · have ahead : (stdin.children a s.turn (commands (nextLine text).1)).ahead = [] := by
            rw [childrenAhead.1]
            have inside := ready'.ahead
            rwa [linesEnd last, List.prefix_nil] at inside
          rw [last] at later
          rw [if_pos last, last]
          simp only [List.take_nil, List.flatMap_nil, untilExit]
          have past := Or.imp_right (fun none => (List.append_eq_nil_iff.mp none).2) (show Stdin.eof _ = true ∨ Stdin.left a _ = [] from later)
          exact quietIff rfl ahead past rfl
        · rw [if_neg last]
          exact ih rfl (childrenReady ready') rfl last later
    · refine iff_of_false (fun all => ?_) fun settles => fits settles.1
      obtain ⟨mid, here, later, ran, _⟩ := (doesSucc fresh).mp (all 1)
      exact fits (roundFits (reads s.buf) ran)

/-- On an input without an offset no process can take back what the shell has read. -/
theorem straightStream {ls : List Bytes} {text : Bytes} {turn : Nat} (stream : a.seekable = false) (stay : ∀ turn o, a.leaves turn o = o)
    (ready : Ready a stdin text) (place : stdin.left a = text) (split : lines text = ls) : Straight a turn stdin ls := by
  induction ls generalizing stdin text turn with
  | nil => exact .inr (place.trans (linesEnd split))
  | cons line rest ih =>
    have nonempty : text ≠ [] := by
      rintro rfl
      cases split
    obtain ⟨stdin', reads, ready', place'⟩ := getlineReady ready nonempty (.inr place)
    have flat := linesFlatten text
    rw [split] at flat
    refine ⟨.inr (by rw [flat]; exact place), .inr ?_⟩
    rw [reads none, childrenStay stream stay]
    cases split.symm.trans (linesNext nonempty)
    exact ih ready' (place' place) rfl

/-- While the input goes on where the shell has left off, `smash` runs the lines once and
nothing else exactly when the input ends in a line of which nothing is left to run. -/
theorem linesRunOnce (a : Around) (straight : Straight a 0 ⟨[], 0, false⟩ (lines a.file)) : RunsOnce a ↔ Settles (lines a.file) := by
  by_cases empty : a.file = []
  · unfold RunsOnce
    rw [empty]
    refine iff_of_false (fun all => ?_) id
    obtain ⟨s', reads, _⟩ := @getlineOver a ⟨[], 0, false⟩ none rfl (.inr (by rw [empty]; rfl))
    obtain ⟨mid, here, later, ran, _⟩ := (doesSucc rfl).mp (all 1)
    unfold round at ran
    rw [show start.stdin = ⟨[], 0, false⟩ from rfl, show start.buf = none from rfl, reads] at ran
    cases ran
  · exact roundsIff rfl ⟨List.suffix_rfl, List.nil_prefix, fun ended => by cases ended⟩ rfl (fun none => empty (linesEnd none)) straight

def given (seekable : Bool) (input : Bytes) : Around :=
  ⟨fun _ => ⟨fun _ => false, fun _ => false, fun _ => false⟩, fun _ o => o, seekable, 4096, by decide, input⟩

def nosuchLine : Bytes := [110, 111, 115, 117, 99, 104, 10]
def exitLine : Bytes := [101, 120, 105, 116, 10]

/-- In a file the child of `nosuch` sets the offset back, and `exit` is in the buffer. -/
theorem linesRunOnceLeaving : RunsOnce (given false (nosuchLine ++ exitLine)) ∧ RunsOnce (given true (nosuchLine ++ exitLine)) := by
  have split : lines (nosuchLine ++ exitLine) = [nosuchLine, exitLine] := by decide +kernel
  have first : Fits nosuchLine := ⟨by decide +kernel, by unfold Small; decide +kernel, by decide +kernel, .inr trivial⟩
  have second : Fits exitLine := ⟨by decide +kernel, by unfold Small; decide +kernel, by decide +kernel, .inr trivial⟩
  have exits : Exits exitLine := by
    unfold Exits
    decide +kernel
  have settles : Settles (lines (nosuchLine ++ exitLine)) := by
    rw [split]
    exact ⟨first, .inr ⟨second, .inl exits⟩⟩
  refine ⟨(linesRunOnce (given false (nosuchLine ++ exitLine)) ?_).mpr settles,
    (linesRunOnce (given true (nosuchLine ++ exitLine)) ?_).mpr settles⟩
  · exact straightStream rfl (fun _ _ => rfl) ⟨List.suffix_rfl, List.nil_prefix, fun ended => by cases ended⟩ rfl rfl
  · rw [show (given true (nosuchLine ++ exitLine)).file = nosuchLine ++ exitLine from rfl, split]
    exact ⟨.inr rfl, .inr ⟨.inl (by decide +kernel), .inl exits⟩⟩

def pwdLine : Bytes := [112, 119, 100, 10]

theorem pwdAgain : Machine.Ends ((machine (given false pwdLine)).run start [(), (), ()])
    (fun _ os => os = List.replicate 3 [⟨[112, 119, 100], [[112, 119, 100]]⟩]) ∧ ¬ RunsOnce (given false pwdLine) := by
  have again : Machine.Ends ((machine (given false pwdLine)).run start [(), (), ()])
      (fun _ os => os = List.replicate 3 [⟨[112, 119, 100], [[112, 119, 100]]⟩]) := by decide +kernel
  refine ⟨again, fun once => ?_⟩
  obtain ⟨s, os, ran, rfl⟩ := again.run
  obtain ⟨s', os', ran', all⟩ := once 3
  cases ran.symm.trans ran'
  revert all
  decide

/-- `nosuch`, `pwd` and `;` in a file -/
def rereadFile : Around := given true (nosuchLine ++ pwdLine ++ [59, 10])

/-- The child of the first line sets the offset back, and the lines after it are read twice. -/
theorem rereadTwice : Machine.Ends ((machine rereadFile).run start [(), (), (), (), ()])
    (fun _ os => os = [[⟨[110, 111, 115, 117, 99, 104], [[110, 111, 115, 117, 99, 104]]⟩], [⟨pwdName, [pwdName]⟩], [], [⟨pwdName, [pwdName]⟩], []]) := by
  decide +kernel

end OpSys.Smash
