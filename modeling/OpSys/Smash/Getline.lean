import OpSys.Smash.Exec

/-! `getline` on the standard input, which is read one block at a time through an offset
that the shell shares with its children. -/
namespace OpSys.Smash
open OpSys.Strtok

/-- What the shell runs in. The numbers are those of the commands: how they find the files
and programs, and where their programs leave the offset of the input. -/
structure Around where
  outside : Nat → Outside
  leaves : Nat → Nat → Nat
  seekable : Bool
  block : Nat
  room : 0 < block
  file : Bytes

/-- `ahead`: what has been read and not yet passed on. -/
structure Stdin where
  ahead : Bytes
  offset : Nat
  eof : Bool
  deriving DecidableEq

/-- The next line with its newline, and what comes after it. -/
def nextLine (text : Bytes) : Bytes × Bytes :=
  match text.dropWhile (· != 10) with
  | [] => (text, [])
  | c :: rest => (text.takeWhile (· != 10) ++ [c], rest)

/-- The end of the input is seen once and for all. -/
def takeLine (a : Around) (line : Bytes) (s : Stdin) : (fuel : Nat) → Bytes × Stdin
  | 0 => (line, s)
  | fuel + 1 =>
    if 10 ∈ s.ahead then (line ++ (nextLine s.ahead).1, {s with ahead := (nextLine s.ahead).2})
    else if s.eof then (line ++ s.ahead, {s with ahead := []})
    else
      let got := (a.file.drop s.offset).take a.block
      if got = [] then (line ++ s.ahead, {s with ahead := [], eof := true})
      else takeLine a (line ++ s.ahead) {s with ahead := got, offset := s.offset + got.length} fuel

/-- At the end of input the buffer stays as it is. -/
def getline (a : Around) (buf : Option Bytes) (s : Stdin) : Option Bytes × Stdin :=
  let (line, s) := takeLine a [] s (a.file.length + 1)
  (if line = [] then buf else some line, s)

/-- A process that leaves by `exit` sets the offset back to what its copy of the stream has
not passed on; in a pipeline no process that does so has the input of the shell. -/
def Stdin.after (a : Around) (turn : Nat) (s : Stdin) (c : Command) : Stdin :=
  if c.name = exitName ∨ c.name = cdName ∨ c.name = pwdName then s
  else if c.args.tail.contains bar then {s with offset := a.leaves turn s.offset}
  else if (execProg (a.outside turn) c.args).2 = .returns (-1) then
    if a.seekable && s.ahead.length ≤ s.offset then {s with offset := s.offset - s.ahead.length} else s
  else {s with offset := a.leaves turn s.offset}

def Stdin.children (a : Around) (turn : Nat) (s : Stdin) : List Command → Stdin
  | [] => s
  | c :: cs => (s.after a turn c).children a (turn + 1) cs

/-- The lines of the input, each with its newline; the last may have none. -/
def lines : Bytes → List Bytes
  | [] => []
  | c :: rest =>
    if c = 10 then [c] :: lines rest
    else match lines rest with
      | [] => [[c]]
      | line :: more => (c :: line) :: more

/-- What the stream gives when the offset stays. -/
def Stdin.left (a : Around) (s : Stdin) : Bytes := s.ahead ++ a.file.drop s.offset

/-- The stream, when `text` is what has not been passed on of the file. -/
structure Ready (a : Around) (s : Stdin) (text : Bytes) : Prop where
  within : text <:+ a.file
  ahead : s.ahead <+: text
  ended : s.eof = true → text = []

variable {a : Around} {s s' : Stdin} {text rest line : Bytes} {fuel turn : Nat} {cs : List Command} {c : Command}

/-! ### Lines -/

theorem nextLineSplit (text : Bytes) : (nextLine text).1 ++ (nextLine text).2 = text := by
  have whole := List.takeWhile_append_dropWhile (p := (· != 10)) (l := text)
  unfold nextLine
  split
  · simp
  · rename_i c rest found
    rw [found] at whole
    simpa using whole

theorem nextLineAppend (mem : 10 ∈ text) : nextLine (text ++ rest) = ((nextLine text).1, (nextLine text).2 ++ rest) := by
  induction text with
  | nil => cases mem
  | cons c text ih =>
    by_cases newline : c = 10
    · simp [nextLine, newline]
    · have later := ih ((List.mem_cons.mp mem).resolve_left fun same => newline same.symm)
      unfold nextLine at later ⊢
      rw [List.cons_append, List.dropWhile_cons_of_pos (by simpa using newline), List.dropWhile_cons_of_pos (by simpa using newline),
        List.takeWhile_cons_of_pos (by simpa using newline), List.takeWhile_cons_of_pos (by simpa using newline)]
      revert later
      cases (text ++ rest).dropWhile (· != 10) <;> cases text.dropWhile (· != 10) <;> simp

theorem nextLineWhole (none : 10 ∉ text) : nextLine text = (text, []) := by
  have all : text.dropWhile (· != 10) = [] := by
    rw [List.dropWhile_eq_nil_iff]
    intro c mem
    simpa using fun same : c = 10 => none (same ▸ mem)
  unfold nextLine
  rw [all]

theorem nextLinePrepend (none : 10 ∉ text) : nextLine (text ++ rest) = (text ++ (nextLine rest).1, (nextLine rest).2) := by
  have all : ∀ c ∈ text, (c != 10) = true := fun c mem => by simpa using fun same : c = 10 => none (same ▸ mem)
  unfold nextLine
  rw [List.dropWhile_append_of_pos all, List.takeWhile_append_of_pos all]
  split <;> simp

theorem nextLineSome (some : text ≠ []) : (nextLine text).1 ≠ [] := by
  unfold nextLine
  split <;> simp [some]

theorem linesNext (some : text ≠ []) : lines text = (nextLine text).1 :: lines (nextLine text).2 := by
  induction text with
  | nil => exact absurd rfl some
  | cons c text ih =>
    by_cases newline : c = 10
    · simp [lines, nextLine, newline]
    · have taken : nextLine (c :: text) = (c :: (nextLine text).1, (nextLine text).2) := by
        unfold nextLine
        rw [List.dropWhile_cons_of_pos (by simpa using newline), List.takeWhile_cons_of_pos (by simpa using newline)]
        split <;> rfl
      rw [taken, lines, if_neg newline]
      by_cases last : text = []
      · subst last
        rfl
      · rw [ih last]

theorem linesFlatten (text : Bytes) : (lines text).flatten = text := by
  induction text with
  | nil => rfl
  | cons c text ih =>
    unfold lines
    split
    · rw [List.flatten_cons, ih]
      rfl
    · revert ih
      cases lines text <;> rintro rfl <;> simp

theorem linesEnd (last : lines text = []) : text = [] := by
  rw [← linesFlatten text, last]
  rfl

/-! ### The stream -/

/-- More fuel than there are bytes is not needed. -/
theorem takeLineFuel (enough : (a.file.drop s.offset).length < fuel) : takeLine a line s (fuel + 1) = takeLine a line s fuel := by
  induction fuel generalizing s line with
  | zero => omega
  | succ fuel ih =>
    rw [takeLine, takeLine]
    by_cases none : (a.file.drop s.offset).take a.block = []
    · simp only [none, if_true]
    · have some : 0 < ((a.file.drop s.offset).take a.block).length := List.length_pos_iff.mpr none
      simp only [none, if_false]
      rw [ih]
      simp only [List.length_drop, List.length_take] at *
      omega

theorem takeLineLeft (open_ : s.eof = false) (enough : (a.file.drop s.offset).length < fuel) : ∃ s',
    takeLine a line s fuel = (line ++ (nextLine (s.left a)).1, s') ∧ s'.left a = (nextLine (s.left a)).2 ∧ (s'.eof = true → s'.left a = []) := by
  induction fuel generalizing s line with
  | zero => omega
  | succ fuel ih =>
    unfold takeLine
    by_cases here : 10 ∈ s.ahead
    · unfold Stdin.left
      rw [if_pos here, nextLineAppend here]
      exact ⟨_, rfl, rfl, fun ended => by cases open_.symm.trans ended⟩
    rw [if_neg here, if_neg (by simp [open_])]
    dsimp only
    by_cases none : (a.file.drop s.offset).take a.block = []
    · have past : a.file.drop s.offset = [] := (List.take_eq_nil_iff.mp none).resolve_left (Nat.ne_of_gt a.room)
      unfold Stdin.left
      rw [if_pos none, past, List.append_nil, nextLineWhole here]
      exact ⟨_, rfl, by simp [past], fun _ => by simp [past]⟩
    · have some : 0 < ((a.file.drop s.offset).take a.block).length := List.length_pos_iff.mpr none
      obtain ⟨s', ran, left, ended⟩ := @ih ⟨(a.file.drop s.offset).take a.block, s.offset + ((a.file.drop s.offset).take a.block).length, s.eof⟩
        (line ++ s.ahead) open_ (by simp only [List.length_drop, List.length_take] at *; omega)
      have same : Stdin.left a ⟨(a.file.drop s.offset).take a.block, s.offset + ((a.file.drop s.offset).take a.block).length, s.eof⟩ =
          a.file.drop s.offset := by
        unfold Stdin.left
        dsimp only
        rw [← List.drop_drop, List.length_take]
        rcases Nat.le_total a.block (a.file.drop s.offset).length with less | more
        · rw [Nat.min_eq_left less, List.take_append_drop]
        · rw [Nat.min_eq_right more, List.take_of_length_le more, List.drop_length, List.append_nil]
      rw [same] at ran left
      have next : nextLine (s.left a) = (s.ahead ++ (nextLine (a.file.drop s.offset)).1, (nextLine (a.file.drop s.offset)).2) := by
        unfold Stdin.left
        exact nextLinePrepend here
      rw [if_neg none, ran, next, List.append_assoc]
      exact ⟨s', rfl, left, ended⟩

/-- The next line, from the buffer or from where the file goes on. -/
theorem getlineReady (ready : Ready a s text) (some : text ≠ []) (place : 10 ∈ s.ahead ∨ s.left a = text) :
    ∃ s', (∀ buf, getline a buf s = (.some (nextLine text).1, s')) ∧ Ready a s' (nextLine text).2 ∧ (s.left a = text → s'.left a = (nextLine text).2) := by
  have open_ : s.eof = false := Bool.eq_false_iff.mpr fun ended => some (ready.ended ended)
  have enough : (a.file.drop s.offset).length < a.file.length + 1 := by
    rw [List.length_drop]
    omega
  have suffix : (nextLine text).2 <:+ text := ⟨_, nextLineSplit text⟩
  have full := nextLineSome some
  by_cases here : 10 ∈ s.ahead
  · obtain ⟨after, ahead⟩ := ready.ahead
    have next := @nextLineAppend s.ahead after here
    rw [ahead] at next
    have ran : takeLine a [] s (a.file.length + 1) = ((nextLine text).1, {s with ahead := (nextLine s.ahead).2}) := by
      rw [takeLine, if_pos here, next]
      rfl
    refine ⟨{s with ahead := (nextLine s.ahead).2}, fun buf => ?_, ⟨suffix.trans ready.within, ⟨after, by rw [next]⟩, fun ended => ?_⟩, fun left => ?_⟩
    · unfold getline
      rw [ran]
      exact congrArg (·, _) (if_neg full)
    · cases open_.symm.trans ended
    · unfold Stdin.left at left ⊢
      rw [← left, nextLineAppend here]
  · have left := place.resolve_left here
    obtain ⟨s', ran, left', ended⟩ := @takeLineLeft a s [] _ open_ enough
    rw [left] at ran left'
    refine ⟨s', fun buf => ?_, ⟨suffix.trans ready.within, ⟨_, left'⟩, fun past => left'.symm.trans (ended past)⟩, fun _ => left'⟩
    unfold getline
    rw [ran]
    exact congrArg (·, _) (if_neg full)

/-- At the end the buffer stays, and the end is remembered. -/
theorem getlineOver (buf : Option Bytes) (ahead : s.ahead = []) (past : s.eof = true ∨ a.file.drop s.offset = []) :
    ∃ s', getline a buf s = (buf, s') ∧ s'.ahead = [] ∧ (s'.eof = true) := by
  unfold getline takeLine
  rw [if_neg (by rw [ahead]; exact List.not_mem_nil)]
  by_cases ended : s.eof = true
  · rw [if_pos ended]
    exact ⟨{s with ahead := []}, by simp [ahead], rfl, ended⟩
  · rw [if_neg ended, past.resolve_left ended]
    exact ⟨{s with ahead := [], eof := true}, by simp [ahead], rfl, rfl⟩

/-! ### The children -/

theorem afterAhead : (s.after a turn c).ahead = s.ahead ∧ (s.after a turn c).eof = s.eof := by
  unfold Stdin.after
  split_ifs <;> exact ⟨rfl, rfl⟩

theorem childrenAhead : (s.children a turn cs).ahead = s.ahead ∧ (s.children a turn cs).eof = s.eof := by
  induction cs generalizing s turn with
  | nil => exact ⟨rfl, rfl⟩
  | cons c cs ih =>
    unfold Stdin.children
    rw [ih.1, ih.2]
    exact afterAhead

theorem childrenReady (ready : Ready a s text) : Ready a (s.children a turn cs) text := by
  obtain ⟨ahead, eof⟩ := @childrenAhead a s turn cs
  exact ⟨ready.within, by rw [ahead]; exact ready.ahead, fun ended => ready.ended (eof.symm.trans ended)⟩

/-- An input without an offset, such as a pipe, stays where it is. -/
theorem childrenStay (stream : a.seekable = false) (stay : ∀ turn o, a.leaves turn o = o) : s.children a turn cs = s := by
  induction cs generalizing turn with
  | nil => rfl
  | cons c cs ih =>
    have same : s.after a turn c = s := by
      unfold Stdin.after
      rw [stream, stay]
      simp
    unfold Stdin.children
    rw [same, ih]

end OpSys.Smash
