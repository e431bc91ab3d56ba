import Mathlib.Data.List.TakeWhile

/-! The pieces between separators, without the empty ones. -/
namespace OpSys.Elements

variable {α : Type} [BEq α] {mark x : α} {xs : List α}

def elements (mark : α) (xs : List α) : List (List α) := (xs.splitOnP (· == mark)).filter fun piece => !piece.isEmpty

theorem elementsNil : elements mark [] = [] := by simp [elements]

theorem elementsPlain : ∀ piece ∈ elements mark xs, piece ≠ [] := by
  intro piece mem
  simpa using (List.mem_filter.mp mem).2

variable [LawfulBEq α]

theorem splitInside {piece : List α} (inside : piece ∈ xs.splitOnP (· == mark)) (mem : x ∈ piece) : x ∈ xs ∧ x ≠ mark := by
  induction xs generalizing piece with
  | nil => simp_all
  | cons y ys ih =>
    rw [List.splitOnP_cons_eq_if_modifyHead] at inside
    split at inside
    · rcases List.mem_cons.mp inside with rfl | inside
      · cases mem
      · exact ⟨List.mem_cons_of_mem _ (ih inside mem).1, (ih inside mem).2⟩
    · rename_i other
      obtain ⟨first, rest, split⟩ := List.exists_cons_of_ne_nil (List.splitOnP_ne_nil (· == mark) ys)
      rw [split] at inside ih
      rcases List.mem_cons.mp inside with rfl | inside
      · rcases List.mem_cons.mp mem with rfl | mem
        · exact ⟨List.mem_cons_self, by simpa using other⟩
        · have both := ih List.mem_cons_self mem
          exact ⟨List.mem_cons_of_mem _ both.1, both.2⟩
      · have both := ih (List.mem_cons_of_mem _ inside) mem
        exact ⟨List.mem_cons_of_mem _ both.1, both.2⟩

theorem elementsInside {piece : List α} (inside : piece ∈ elements mark xs) (mem : x ∈ piece) : x ∈ xs ∧ x ≠ mark :=
  splitInside (List.mem_filter.mp inside).1 mem

theorem elementsMark : elements mark (mark :: xs) = elements mark xs := by
  simp [elements, List.splitOnP_cons_eq_if_modifyHead]

theorem elementsDrop (xs : List α) : elements mark (xs.dropWhile (· == mark)) = elements mark xs := by
  induction xs with
  | nil => rfl
  | cons x xs ih =>
    rw [List.dropWhile_cons]
    split
    · rename_i same
      rw [ih, eq_of_beq same, elementsMark]
    · rfl

theorem elementsCons (other : x ≠ mark) :
    elements mark (x :: xs) = (x :: xs.takeWhile (· != mark)) :: elements mark (xs.dropWhile (· != mark)) := by
  have plain : ∀ y ∈ x :: xs.takeWhile (· != mark), (y == mark) = false := by
    intro y mem
    rcases List.mem_cons.mp mem with rfl | mem
    · simpa using other
    · simpa using List.mem_takeWhile_imp mem
  have parts : x :: xs = x :: xs.takeWhile (· != mark) ++ xs.dropWhile (· != mark) := by
    simp
  cases later : xs.dropWhile (· != mark) with
  | nil =>
    rw [later, List.append_nil] at parts
    rw [elementsNil, parts, elements, List.splitOnP_eq_singleton plain]
    simp
  | cons y rest =>
    have same : y = mark := by
      have stops := List.head_dropWhile_not (fun y => y != mark) (l := xs) (by simp [later])
      simpa [later] using stops
    rw [later] at parts
    rw [parts, same, elementsMark]
    unfold elements
    rw [List.splitOnP_append_cons_of_forall_mem plain mark (by simp)]
    simp

/-- There is an element unless all is separators. -/
theorem elementsEmpty : elements mark xs = [] ↔ xs.dropWhile (· == mark) = [] := by
  rw [← elementsDrop xs]
  cases here : xs.dropWhile (· == mark) with
  | nil => simp [elementsNil]
  | cons y rest =>
    have other : y ≠ mark := by
      have stops := List.head_dropWhile_not (fun y => y == mark) (l := xs) (by simp [here])
      simpa [here] using stops
    simp [elementsCons other]

end OpSys.Elements
