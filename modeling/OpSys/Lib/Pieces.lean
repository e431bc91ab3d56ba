import Mathlib.Data.List.TakeWhile

/-! What a loop makes of a list with separators in it when `cmd` is the piece that it is
in, and the last of the pieces. -/
namespace OpSys.Pieces

variable {α : Type} [BEq α] {mark x : α} {cmd args xs ys : List α} {init : List (List α)} {last : List α}

def pieces (mark : α) (cmd args : List α) : List (List α) := (args.splitOnP (· == mark)).modifyHead (cmd ++ ·)

theorem piecesNil : pieces mark [] args = args.splitOnP (· == mark) := by
  unfold pieces
  cases args.splitOnP (· == mark) <;> rfl

theorem piecesEnd : pieces mark cmd [] = [cmd] := by
  unfold pieces
  simp

theorem piecesHead (cmd args : List α) : ∃ more rest, pieces mark cmd args = (cmd ++ more) :: rest := by
  unfold pieces
  obtain ⟨first, rest, split⟩ := List.exists_cons_of_ne_nil (List.splitOnP_ne_nil (· == mark) args)
  exact ⟨first, rest, by rw [split]; rfl⟩

theorem splitLast (mark : α) (xs : List α) : ∃ init last, xs.splitOnP (· == mark) = init ++ [last] :=
  ⟨_, _, (List.dropLast_concat_getLast (List.splitOnP_ne_nil (· == mark) xs)).symm⟩

theorem splitMem (piece : cmd ∈ xs.splitOnP (· == mark)) (mem : x ∈ cmd) : x ∈ xs := by
  induction xs generalizing cmd with
  | nil =>
    cases List.mem_singleton.mp piece
    exact mem
  | cons y ys ih =>
    rw [List.splitOnP_cons_eq_if_modifyHead] at piece
    split at piece
    · rcases List.mem_cons.mp piece with rfl | piece
      · cases mem
      · exact List.mem_cons_of_mem _ (ih piece mem)
    · obtain ⟨first, rest, split⟩ := List.exists_cons_of_ne_nil (List.splitOnP_ne_nil (· == mark) ys)
      rw [split] at piece ih
      rcases List.mem_cons.mp piece with rfl | piece
      · rcases List.mem_cons.mp mem with rfl | mem
        · exact List.mem_cons_self
        · exact List.mem_cons_of_mem _ (ih List.mem_cons_self mem)
      · exact List.mem_cons_of_mem _ (ih (List.mem_cons_of_mem _ piece) mem)

variable [LawfulBEq α]

theorem piecesMark : pieces mark cmd (mark :: args) = cmd :: pieces mark [] args := by
  rw [piecesNil]
  unfold pieces
  rw [List.splitOnP_cons_eq_if_modifyHead, if_pos (by simp)]
  simp

theorem piecesCons (other : x ≠ mark) : pieces mark cmd (x :: args) = pieces mark (cmd ++ [x]) args := by
  unfold pieces
  rw [List.splitOnP_cons_eq_if_modifyHead, if_neg (by simpa using other)]
  cases args.splitOnP (· == mark) with
  | nil => rfl
  | cons first rest => simp

/-- A list with a separator in it has two pieces or more. -/
theorem splitTwo (mem : mark ∈ xs) : ∃ first rest, xs.splitOnP (· == mark) = first :: rest ∧ rest ≠ [] := by
  obtain ⟨ys, zs, rfl⟩ := List.append_of_mem mem
  obtain ⟨first, rest, split⟩ := List.exists_cons_of_ne_nil (List.splitOnP_ne_nil (· == mark) ys)
  refine ⟨first, rest ++ zs.splitOnP (· == mark), ?_, by simp⟩
  rw [List.splitOnP_append_cons ys zs (by simp), split]
  rfl

theorem splitWhole (none : mark ∉ xs) : xs.splitOnP (· == mark) = [xs] :=
  List.splitOnP_eq_singleton fun _ mem => beq_eq_false_iff_ne.mpr fun same => none (same ▸ mem)

/-- What has no separator in it goes to the last piece. -/
theorem splitAppend (none : mark ∉ ys) (split : xs.splitOnP (· == mark) = init ++ [last]) :
    (xs ++ ys).splitOnP (· == mark) = init ++ [last ++ ys] := by
  induction xs generalizing init last with
  | nil =>
    obtain ⟨rfl, same⟩ := List.append_inj' (show [] ++ [[]] = init ++ [last] from split) rfl
    cases same
    exact splitWhole none
  | cons x xs ih =>
    obtain ⟨init', last', split'⟩ := splitLast mark xs
    have tail := ih split'
    rw [List.cons_append, List.splitOnP_cons_eq_if_modifyHead, tail]
    rw [List.splitOnP_cons_eq_if_modifyHead, split'] at split
    split at split
    · rename_i here
      obtain ⟨rfl, same⟩ := List.append_inj' (show ([] :: init') ++ [last'] = init ++ [last] from split) rfl
      cases same
      rw [if_pos here]
      rfl
    · rename_i other
      rw [if_neg other]
      cases init' with
      | nil =>
        obtain ⟨rfl, same⟩ := List.append_inj' (show [] ++ [x :: last'] = init ++ [last] from split) rfl
        cases same
        rfl
      | cons first init' =>
        obtain ⟨rfl, same⟩ := List.append_inj' (show ((x :: first) :: init') ++ [last'] = init ++ [last] from split) rfl
        cases same
        rfl

end OpSys.Pieces
