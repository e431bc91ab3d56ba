import OpSys.Smash.Lines

/-! How `main` splits a line at `;`, down to the blocks of memory that it stores to. -/
namespace OpSys.Smash
open OpSys.Pieces OpSys.Strtok

/-- A block of `cmds` has room for 32 pointers. The first ten are set, each to 256 bytes;
`none` where no string has been stored. -/
abbrev Block := List (Option Bytes)

def blank : Block := List.replicate 10 none

structure Store where
  cmds : List Block
  argnumArray : List (Option Nat)
  deriving DecidableEq

def Store.strcpy (s : Store) (argcount count : Nat) (arg : Bytes) : Except Fault Store :=
  match s.cmds[argcount]? with
  | none => .error .wild
  | some block =>
    if count < block.length ∧ arg.length + 1 ≤ 256 then .ok {s with cmds := s.cmds.set argcount (block.set count (some arg))}
    else .error .wild

def Store.setArgnum (s : Store) (argcount count : Nat) : Except Fault Store :=
  if argcount < s.argnumArray.length then .ok {s with argnumArray := s.argnumArray.set argcount (some count)}
  else .error .wild

/-- The loop over the arguments, and the store for the last command. -/
def splitLoop (cmdsNum : Nat) (s : Store) (argcount count : Nat) : List Bytes → Except Fault Store
  | [] => s.setArgnum (cmdsNum - 1) count
  | arg :: args =>
    if arg = semicolon then do
      let s ← s.setArgnum argcount count
      splitLoop cmdsNum s (argcount + 1) 0 args
    else do
      let s ← s.strcpy argcount count arg
      splitLoop cmdsNum s argcount (count + 1) args

/-- Where the count has wrapped there is no block for the arguments. -/
def split (args : List Bytes) : Except Fault Store :=
  if Countable args then
    let delimNum := args.count semicolon
    let cmdsNum := delimNum + 1
    splitLoop cmdsNum ⟨List.replicate cmdsNum blank, List.replicate cmdsNum none⟩ 0 0 args
  else .error .wild

/-! ### What is expected -/

def laid (cmd : List Bytes) : Block := cmd.map some ++ List.replicate (10 - cmd.length) none

/-- The command, and nothing after it. -/
def stored (cmds : List (List Bytes)) : Store := ⟨cmds.map laid, cmds.map fun cmd => some cmd.length⟩

def SplitsRight (line : Bytes) : Prop := split (lexer line).1 = .ok (stored (segments line))

/-! ### The loop -/

variable {cmds done : List (List Bytes)} {cmd args : List Bytes} {arg line : Bytes} {r : Nat}

/-- The commands that are done, the one that is being stored, and `r` more. -/
def partly (done : List (List Bytes)) (cmd : List Bytes) (r : Nat) : Store :=
  ⟨done.map laid ++ laid cmd :: List.replicate r blank, done.map (fun cmd => some cmd.length) ++ none :: List.replicate r none⟩

theorem laidLength (small : cmd.length ≤ 10) : (laid cmd).length = 10 := by
  unfold laid
  rw [List.length_append, List.length_map, List.length_replicate]
  omega

theorem laidSet (room : cmd.length < 10) : (laid cmd).set cmd.length (some arg) = laid (cmd ++ [arg]) := by
  obtain ⟨m, more⟩ : ∃ m, 10 - cmd.length = m + 1 := ⟨9 - cmd.length, by omega⟩
  unfold laid
  rw [List.length_append, List.length_singleton, Nat.sub_add_eq, more, Nat.add_sub_cancel, List.set_append_right _ _ (by simp),
    List.length_map, Nat.sub_self, List.replicate_succ, List.set_cons_zero, List.map_append, List.append_assoc]
  rfl

theorem strcpyPartly (small : cmd.length ≤ 10) : (partly done cmd r).strcpy done.length cmd.length arg =
    if cmd.length < 10 ∧ arg.length < 256 then .ok (partly done (cmd ++ [arg]) r) else .error .wild := by
  unfold Store.strcpy partly
  rw [List.getElem?_append_right (by simp), List.length_map, Nat.sub_self, List.getElem?_cons_zero]
  dsimp only
  rw [laidLength small]
  split
  · rename_i room
    rw [if_pos ⟨room.1, Nat.lt_of_succ_le room.2⟩, List.set_append_right _ _ (by simp), List.length_map, Nat.sub_self,
      List.set_cons_zero, laidSet room.1]
  · rename_i full
    rw [if_neg fun room => full ⟨room.1, Nat.succ_le_of_lt room.2⟩]

theorem argnumPartly : (partly done cmd r).setArgnum done.length cmd.length =
    .ok ⟨done.map laid ++ laid cmd :: List.replicate r blank, (done ++ [cmd]).map (fun cmd => some cmd.length) ++ List.replicate r none⟩ := by
  unfold Store.setArgnum partly
  rw [if_pos (by simp), List.set_append_right _ _ (by simp), List.length_map, Nat.sub_self, List.set_cons_zero, List.map_append,
    List.append_assoc]
  rfl

theorem argnumNext : (partly done cmd (r + 1)).setArgnum done.length cmd.length = .ok (partly (done ++ [cmd]) [] r) := by
  rw [argnumPartly]
  unfold partly
  rw [List.map_append, List.append_assoc]
  simp [laid, blank, List.replicate_succ]

/-- The stores of the loop follow `separate`. -/
theorem splitLoopSeparates (small : cmd.length ≤ 10) :
    splitLoop (done.length + args.count semicolon + 1) (partly done cmd (args.count semicolon)) done.length cmd.length args =
      (separate done cmd args).map stored := by
  induction args generalizing done cmd with
  | nil =>
    unfold splitLoop separate
    rw [List.count_nil, Nat.add_zero, Nat.add_sub_cancel, argnumPartly]
    unfold stored
    simp [Except.map]
  | cons arg args ih =>
    unfold splitLoop separate
    by_cases mark : arg = semicolon
    · have next := @ih (done ++ [cmd]) [] (Nat.zero_le _)
      rw [List.length_append, List.length_singleton, Nat.add_right_comm _ 1, Nat.add_assoc _ _ 1] at next
      rw [if_pos mark, if_pos mark, mark, List.count_cons_self, argnumNext]
      exact next
    · rw [if_neg mark, if_neg mark, List.count_cons_of_ne mark, strcpyPartly small]
      split
      · rename_i room
        have next := @ih done (cmd ++ [arg]) (by rw [List.length_append, List.length_singleton]; exact room.1)
        rw [List.length_append, List.length_singleton] at next
        exact next
      · rfl

theorem splitSeparates (countable : Countable args) : split args = (separate [] [] args).map stored := by
  unfold split
  dsimp only
  rw [if_pos countable]
  have loop := @splitLoopSeparates [] [] args (Nat.zero_le _)
  rw [List.length_nil, Nat.zero_add] at loop
  exact loop

theorem separateWild {e : Fault} (failed : separate done cmd args = .error e) : e = .wild := by
  induction args generalizing done cmd with
  | nil => cases failed
  | cons arg args ih =>
    unfold separate at failed
    split at failed
    · exact ih failed
    · split at failed
      · exact ih failed
      · exact (Except.error.inj failed).symm

theorem splitCases (args : List Bytes) : (Countable args ∧ ∀ cmd ∈ pieces semicolon [] args, Small cmd) ∧ split args = .ok (stored (pieces semicolon [] args)) ∨
    ¬ (Countable args ∧ ∀ cmd ∈ pieces semicolon [] args, Small cmd) ∧ split args = .error .wild := by
  by_cases countable : Countable args
  · rw [splitSeparates countable]
    by_cases small : ∀ cmd ∈ pieces semicolon [] args, Small cmd
    · rw [separateOk small]
      exact .inl ⟨⟨countable, small⟩, rfl⟩
    · refine .inr ⟨fun fits => small fits.2, ?_⟩
      cases separated : separate [] [] args with
      | error e => rw [separateWild separated]; rfl
      | ok cmds => exact absurd (separateFits separated ⟨Nat.zero_le _, by simp⟩) small
  · refine .inr ⟨fun fits => countable fits.1, ?_⟩
    unfold split
    exact if_neg countable

theorem splitIff : split args = .ok (stored (pieces semicolon [] args)) ↔ Countable args ∧ ∀ cmd ∈ pieces semicolon [] args, Small cmd := by
  rcases splitCases args with ⟨fits, same⟩ | ⟨wide, wild⟩
  · exact iff_of_true same fits
  · refine iff_of_false (fun ok => ?_) wide
    cases wild.symm.trans ok

/-- The length of a command is not compared with the ten buffers, nor that of an argument
with their size. -/
theorem splitsRight (line : Bytes) : SplitsRight line ↔ Countable (words delim line) ∧ ∀ cmd ∈ segments line, Small cmd := by
  unfold SplitsRight segments
  rw [(lexerSpec line).1, ← piecesNil]
  exact splitIff

/-- Eleven words. -/
def longLine : Bytes := (List.replicate 11 [97, 32]).flatten ++ [10]

theorem longLineWild : split (lexer longLine).1 = .error .wild ∧ ¬ SplitsRight longLine := by
  have wild : split (lexer longLine).1 = .error .wild := by decide +kernel
  refine ⟨wild, fun right => ?_⟩
  unfold SplitsRight at right
  rw [wild] at right
  cases right

end OpSys.Smash
