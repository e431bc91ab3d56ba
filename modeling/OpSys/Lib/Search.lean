import Mathlib.Data.List.Basic

/-! A search through a list that stops at the first item that has a result; what it
looks at may change its state. -/
namespace OpSys.Search

variable {σ ι ρ : Type*} {look : σ → ι → σ × Option ρ} {s : σ} {i : ι} {is js ks : List ι}

def search (look : σ → ι → σ × Option ρ) : List ι → σ → List ι × Option ρ
  | [], _ => ([], none)
  | i :: rest, s => match look s i with
    | (_, some r) => ([i], some r)
    | (s, none) => (i :: (search look rest s).1, (search look rest s).2)

def after (look : σ → ι → σ × Option ρ) (is : List ι) (s : σ) : σ := is.foldl (fun s i => (look s i).1) s

/-- One of the items has a result when it is its turn. -/
def Ends (look : σ → ι → σ × Option ρ) (is : List ι) (s : σ) : Prop :=
  ∃ before i later, is = before ++ i :: later ∧ (look (after look before s) i).2 ≠ none

theorem endsCons : Ends look (i :: is) s ↔ (look s i).2 ≠ none ∨ Ends look is (look s i).1 := by
  constructor
  · rintro ⟨before, j, later, same, result⟩
    cases before with
    | nil =>
      cases same
      exact .inl result
    | cons k before =>
      cases same
      exact .inr ⟨before, j, later, rfl, result⟩
  · rintro (here | ⟨before, j, later, rfl, result⟩)
    · exact ⟨[], i, is, rfl, here⟩
    · exact ⟨i :: before, j, later, rfl, result⟩

theorem searchStop (result : (look s i).2 ≠ none) : search look (i :: is) s = ([i], (look s i).2) := by
  rw [search]
  cases here : look s i with
  | mk s' r =>
    cases r with
    | none => exact absurd (congrArg Prod.snd here) result
    | some r => rfl

theorem searchNext (none : (look s i).2 = none) : search look (i :: is) s =
    (i :: (search look is (look s i).1).1, (search look is (look s i).1).2) := by
  rw [search]
  cases here : look s i with
  | mk s' r =>
    cases (congrArg Prod.snd here).symm.trans none
    rfl

theorem searchHead : (search look is s).1.head? = is.head? := by
  cases is with
  | nil => rfl
  | cons i is =>
    by_cases none : (look s i).2 = none
    · rw [searchNext none]
      rfl
    · rw [searchStop none]
      rfl

theorem searchEnds (ends : Ends look is s) : search look (is ++ js) s = search look is s := by
  induction is generalizing s with
  | nil =>
    obtain ⟨before, i, later, same, _⟩ := ends
    cases before <;> cases same
  | cons i is ih =>
    rw [List.cons_append]
    by_cases none : (look s i).2 = none
    · rw [searchNext none, searchNext none, ih ((endsCons.mp ends).resolve_left (not_not.mpr none))]
    · rw [searchStop none, searchStop none]

theorem searchAppend (through : ¬ Ends look is s) :
    search look (is ++ js) s = (is ++ (search look js (after look is s)).1, (search look js (after look is s)).2) := by
  induction is generalizing s with
  | nil => rfl
  | cons i is ih =>
    have both := not_or.mp (mt endsCons.mpr through)
    rw [List.cons_append, searchNext (not_not.mp both.1), ih both.2]
    rfl

/-- Two searches that part after `is` are the same only if they end before. -/
theorem searchParts (parts : js.head? ≠ ks.head?) : search look (is ++ js) s = search look (is ++ ks) s ↔ Ends look is s := by
  constructor
  · intro same
    by_contra through
    rw [searchAppend through, searchAppend through] at same
    have seen := congrArg List.head? (List.append_cancel_left (congrArg Prod.fst same))
    rw [searchHead, searchHead] at seen
    exact parts seen
  · intro ends
    rw [searchEnds ends, searchEnds ends]

end OpSys.Search
