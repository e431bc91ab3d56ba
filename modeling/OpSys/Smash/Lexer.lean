import OpSys.Lib.Cint
import OpSys.Smash.Main

/-! `lexer` with its two rounds of `strtok`: the first, on a copy of the line, counts the
words, and the second stores them to the array that was sized by the count. -/
namespace OpSys.Smash.Lexer
open OpSys.Strtok OpSys.Cint

/-- The first round. Each call passes a byte at least, so that `fuel` is the length. -/
def countArgs (numArgs : Int) (l : Bytes) : (fuel : Nat) → Int
  | 0 => numArgs
  | fuel + 1 => match strtok delim l with
    | none => numArgs
    | some (_, _, rest) => countArgs (int (numArgs + 1)) rest fuel

/-- `none` in `args` where nothing has been stored; `line` is what has been passed, as
`strtok` leaves it. -/
structure Lexed where
  args : List (Option Bytes)
  numArgs : Int
  ret : Int
  line : Bytes

/-- `args[0]` up to `args[num_args - 1]` -/
def Lexed.words (s : Lexed) : List Bytes := (s.args.take s.numArgs.toNat).filterMap id

def fillArgs (s : Lexed) (line : Bytes) : (fuel : Nat) → Except Fault Lexed
  | 0 => .ok {s with line := s.line ++ line}
  | fuel + 1 => match strtok delim line with
    | none => .ok {s with line := s.line ++ line}
    | some (token, passed, rest) =>
      if 0 ≤ s.numArgs ∧ s.numArgs < s.args.length then
        fillArgs {
          args := s.args.set s.numArgs.toNat (some token)
          numArgs := int (s.numArgs + 1)
          ret := if token = semicolon then int (s.ret + 1) else s.ret
          line := s.line ++ passed } rest fuel
      else .error .wild

/-- For a size that is negative `malloc` has no memory, and there is no slot at a null
pointer. -/
def lexer (line : Bytes) : Except Fault Lexed :=
  let l := cstring line
  let numArgs := countArgs 0 l l.length
  fillArgs ⟨List.replicate (int (numArgs + 1)).toNat none, 0, 0, []⟩ line line.length

/-- The words in their slots and one slot more, the number of words and that of the `;`. -/
def Lexes (line : Bytes) (ws : List Bytes) : Prop :=
  ∃ line', lexer line = .ok ⟨ws.map some ++ [none], ws.length, ws.count semicolon, line'⟩

variable {line l passed : Bytes} {done ws : List Bytes} {fuel m : Nat} {a : Int}

/-! ### The rounds -/

theorem countArgsTokens (a : Int) (l : Bytes) (fuel : Nat) : countArgs (int a) l fuel = int (a + (tokens delim fuel l).1.length) := by
  induction fuel generalizing a l with
  | zero => exact congrArg int (Int.add_zero a).symm
  | succ fuel ih =>
    unfold countArgs tokens
    cases strtok delim l with
    | none => exact congrArg int (Int.add_zero a).symm
    | some x =>
      dsimp only
      rw [intAdd, ih, List.length_cons]
      exact congrArg int (by omega)

theorem fillArgsTokens (room : done.length + m < 2147483648) : fillArgs ⟨done.map some ++ List.replicate m none, done.length, done.count semicolon, passed⟩ line fuel =
    if (tokens delim fuel line).1.length ≤ m then
      .ok ⟨(done ++ (tokens delim fuel line).1).map some ++ List.replicate (m - (tokens delim fuel line).1.length) none,
        (done ++ (tokens delim fuel line).1).length, (done ++ (tokens delim fuel line).1).count semicolon, passed ++ (tokens delim fuel line).2⟩
    else .error .wild := by
  induction fuel generalizing done m passed line with
  | zero => simp [fillArgs, tokens]
  | succ fuel ih =>
    unfold fillArgs tokens
    cases strtok delim line with
    | none => simp
    | some x =>
      obtain ⟨token, past, rest⟩ := x
      dsimp only
      cases m with
      | zero =>
        rw [if_neg (by simp), if_neg (by simp)]
      | succ m =>
        have size : done.length ≤ 2147483646 := by omega
        have few := List.count_le_length (a := semicolon) (l := done)
        have stored : (done.map some ++ List.replicate (m + 1) none).set done.length (some token) =
            (done ++ [token]).map some ++ List.replicate m none := by
          rw [List.set_append_right _ _ (by simp), List.length_map, Nat.sub_self, List.replicate_succ, List.set_cons_zero, List.map_append,
            List.append_assoc]
          rfl
        have counted : (if token = semicolon then int ((done.count semicolon : Nat) + 1) else (done.count semicolon : Nat)) =
            ((done ++ [token]).count semicolon : Nat) := by
          rw [List.count_append, List.count_singleton]
          split
          · rename_i mark
            rw [intSmall (by omega) (by omega), mark]
            simp
          · rename_i other
            simp [other]
        have next := @ih rest (passed ++ past) (done ++ [token]) m (by rw [List.length_append, List.length_singleton]; omega)
        rw [if_pos ⟨Int.natCast_nonneg _, by rw [List.length_append, List.length_map, List.length_replicate]; omega⟩, Int.toNat_natCast, stored, intSmall (by omega) (by omega), counted]
        rw [List.length_append, List.length_singleton, Int.natCast_add, Int.natCast_one] at next
        rw [next]
        simp only [List.append_assoc, List.singleton_append, List.length_cons, Nat.add_le_add_iff_right, Nat.add_sub_add_right]

/-! ### The words -/

theorem countArgsWords (line : Bytes) : countArgs 0 (cstring line) (cstring line).length = int (words delim line).length := by
  have counted := countArgsTokens 0 (cstring line) (cstring line).length
  rw [(tokensSpec (by decide) le_rfl).1, wordsCstring, Int.zero_add, intSmall (Int.le_refl 0) (by decide)] at counted
  exact counted

/-- The rounds find what `Smash.lexer` finds, where the number of words has a place. -/
theorem lexerCases (line : Bytes) : Countable (Smash.lexer line).1 ∧ lexer line =
      .ok ⟨(Smash.lexer line).1.map some ++ [none], (Smash.lexer line).1.length, (Smash.lexer line).1.count semicolon, (Smash.lexer line).2⟩ ∨
    ¬ Countable (Smash.lexer line).1 ∧ lexer line = .error .wild := by
  have slots : (int (countArgs 0 (cstring line) (cstring line).length + 1)).toNat = (int ((Smash.lexer line).1.length + 1)).toNat := by
    rw [countArgsWords, intAdd, (lexerSpec line).1]
  have less := intLess ((Smash.lexer line).1.length + 1)
  have round := @fillArgsTokens line [] [] line.length (int ((Smash.lexer line).1.length + 1)).toNat (by rw [List.length_nil]; omega)
  rw [show tokens delim line.length line = Smash.lexer line from rfl, List.map_nil, List.nil_append, List.nil_append, List.nil_append] at round
  unfold lexer
  dsimp only
  rw [slots]
  by_cases countable : Countable (Smash.lexer line).1
  · have size : (int ((Smash.lexer line).1.length + 1)).toNat = (Smash.lexer line).1.length + 1 := by
      unfold Countable at countable
      rw [intSmall (by omega) (by omega)]
      omega
    rw [size] at round ⊢
    rw [if_pos (Nat.le_succ _), Nat.add_sub_cancel_left] at round
    exact .inl ⟨countable, round⟩
  · have short : ¬ (Smash.lexer line).1.length ≤ (int ((Smash.lexer line).1.length + 1)).toNat := by
      unfold Countable at countable
      rcases Nat.lt_or_eq_of_le (not_lt.mp countable) with more | same
      · omega
      · rw [show ((Smash.lexer line).1.length : Int) + 1 = 2147483648 by omega]
        have negative : (int 2147483648).toNat = 0 := by decide
        omega
    rw [if_neg short] at round
    exact .inr ⟨countable, round⟩

theorem lexesWords (countable : Countable (words delim line)) : Lexes line (words delim line) := by
  have found := lexerCases line
  rw [(lexerSpec line).1] at found
  obtain ⟨_, ran⟩ := found.resolve_right fun bad => bad.1 countable
  exact ⟨_, ran⟩

/-- Both rounds find the words, and the words with a space between them have the same. -/
theorem lexerWords (countable : Countable (words delim line)) :
    Lexes line (words delim line) ∧ Lexes ([32].intercalate (words delim line)) (words delim line) := by
  have again := wordsJoined (c := 32) (by decide) (by decide) (@wordsInner delim (by decide) line)
  have joined := @lexesWords ([32].intercalate (words delim line))
  rw [again] at joined
  exact ⟨lexesWords countable, joined countable⟩

/-- `ls  ;\tpwd` -/
theorem lexerWordsTwo : let line : Bytes := [108, 115, 32, 32, 59, 9, 112, 119, 100, 10]
    words delim line = [[108, 115], semicolon, [112, 119, 100]] ∧
    Lexes line (words delim line) ∧ Lexes ([32].intercalate (words delim line)) (words delim line) :=
  ⟨by decide +kernel, lexerWords (by decide +kernel)⟩

theorem wordsRepeat (n : Nat) : words delim (List.replicate n [97, 32]).flatten = List.replicate n [97] := by
  induction n with
  | zero => rfl
  | succ n ih =>
    rw [List.replicate_succ, List.flatten_cons, List.replicate_succ]
    have first : words delim ([97] ++ 32 :: (List.replicate n [97, 32]).flatten) = [97] :: words delim (32 :: (List.replicate n [97, 32]).flatten) :=
      wordsToken (by decide) (List.cons_ne_nil _ _) (fun c mem => by rw [List.mem_singleton.mp mem]; rfl) fun c r eq => by cases eq; rfl
    rw [wordsDelim (by decide) (by decide), ih] at first
    exact first

/-- With so many words the size of the array wraps. -/
theorem lexerWraps : lexer (List.replicate 2147483647 [97, 32]).flatten = .error .wild ∧
    ¬ ∀ line, Lexes line (words delim line) := by
  have many : ¬ Countable (words delim (List.replicate 2147483647 [97, 32]).flatten) := by
    unfold Countable
    rw [wordsRepeat, List.length_replicate]
    omega
  rw [← (lexerSpec _).1] at many
  have wild := ((lexerCases _).resolve_left fun good => many good.1).2
  refine ⟨wild, fun all => ?_⟩
  obtain ⟨line', ran⟩ := all (List.replicate 2147483647 [97, 32]).flatten
  rw [wild] at ran
  cases ran

end OpSys.Smash.Lexer
