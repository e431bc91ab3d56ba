import Mathlib.Logic.Function.Basic
import Mathlib.Logic.Relation

/-! Directories that have places for files and for other directories, each of which is in one
place only and knows where. -/
namespace OpSys.Hierarchy
open Function

variable {ι κ : Type}

structure Shape (ι κ : Type) where
  live : ι → Prop
  dir : ι → Prop
  child : ι → κ → ι → Prop
  up : ι → ι
  root : ι

variable {t t' : Shape ι κ} {d i : ι} {k : κ}

structure Sound (t : Shape ι κ) : Prop where
  dirs : ∀ i, t.dir i → t.live i
  root : t.dir t.root ∧ t.up t.root = t.root
  named : ∀ d k i, t.child d k i → t.dir d ∧ t.live i
  up : ∀ d k i, t.child d k i → t.dir i → t.up i = d ∧ i ≠ t.root
  once : ∀ d k j i, t.child d k i → t.child d j i → t.dir i → k = j
  parent : ∀ i, t.dir i → t.dir (t.up i) ∧ (i ≠ t.root → ∃ k, t.child (t.up i) k i)
  rank : ∃ r : ι → Nat, ∀ d k i, t.child d k i → t.dir i → r d < r i

/-- From one directory to what is in it. -/
def Leads (t : Shape ι κ) (d i : ι) : Prop := ∃ k, t.child d k i

/-- No directory is lost: each can be reached from the root. -/
theorem Sound.reached (h : Sound t) (dir : t.dir i) : Relation.ReflTransGen (Leads t) t.root i := by
  obtain ⟨r, rises⟩ := h.rank
  -- the place of a directory is in one of lower rank
  induction n : r i using Nat.strongRecOn generalizing i with
  | _ n ih =>
    by_cases top : i = t.root
    · rw [top]
    · obtain ⟨above, place⟩ := h.parent i dir
      obtain ⟨k, child⟩ := place top
      have lower := rises _ _ _ child dir
      exact (ih (r (t.up i)) (by omega) above rfl).tail ⟨k, child⟩

/-- Nothing is a part of itself. -/
theorem Sound.apart (h : Sound t) (child : t.child d k i) (dir : t.dir i) : i ≠ d := by
  rintro rfl
  obtain ⟨r, rises⟩ := h.rank
  exact Nat.lt_irrefl _ (rises _ _ _ child dir)

theorem Sound.alone (h : Sound t) (child : t.child d k i) (dir : t.dir i) {e : ι} {j : κ} (child' : t.child e j i) : e = d ∧ j = k := by
  obtain rfl : e = d := (h.up e j i child' dir).1.symm.trans (h.up d k i child dir).1
  exact ⟨rfl, h.once e j k i child' child dir⟩

theorem Sound.congr (h : Sound t) (live : ∀ i, t'.live i ↔ t.live i) (dir : ∀ i, t'.dir i ↔ t.dir i) (child : ∀ d k i, t'.child d k i ↔ t.child d k i)
    (up : ∀ i, t.dir i → t'.up i = t.up i) (root : t'.root = t.root) : Sound t' := by
  refine ⟨?_, ?_, ?_, ?_, ?_, ?_, ?_⟩
  · simpa only [live, dir] using h.dirs
  · rw [root, dir, up _ h.root.1]
    exact h.root
  · simpa only [live, dir, child] using h.named
  · intro d k i mine dir'
    rw [root, up i ((dir i).mp dir')]
    exact h.up d k i ((child d k i).mp mine) ((dir i).mp dir')
  · simpa only [dir, child] using h.once
  · intro i dir'
    rw [dir, root, up i ((dir i).mp dir')]
    simpa only [child] using h.parent i ((dir i).mp dir')
  · simpa only [dir, child] using h.rank

/-- A file gets a name. -/
theorem Sound.link (h : Sound t) (home : t.dir d) (leaf : ¬ t.dir i) (live : ∀ j, t'.live j ↔ t.live j ∨ j = i) (dir : ∀ j, t'.dir j ↔ t.dir j)
    (child : ∀ e j l, t'.child e j l ↔ t.child e j l ∨ e = d ∧ j = k ∧ l = i) (up : ∀ j, t.dir j → t'.up j = t.up j) (root : t'.root = t.root) : Sound t' := by
  have old : ∀ e j l, t'.child e j l → t.dir l → t.child e j l := by
    intro e j l mine dir'
    rcases (child e j l).mp mine with mine | ⟨_, _, rfl⟩
    · exact mine
    · exact absurd dir' leaf
  refine ⟨?_, ?_, ?_, ?_, ?_, ?_, ?_⟩
  · intro j dir'
    exact (live j).mpr (.inl (h.dirs j ((dir j).mp dir')))
  · rw [root, dir, up _ h.root.1]
    exact h.root
  · intro e j l mine
    rw [dir, live]
    rcases (child e j l).mp mine with mine | ⟨rfl, _, rfl⟩
    · exact ⟨(h.named e j l mine).1, .inl (h.named e j l mine).2⟩
    · exact ⟨home, .inr rfl⟩
  · intro e j l mine dir'
    have before := (dir l).mp dir'
    rw [root, up l before]
    exact h.up e j l (old e j l mine before) before
  · intro e j j' l mine mine' dir'
    have before := (dir l).mp dir'
    exact h.once e j j' l (old e j l mine before) (old e j' l mine' before) before
  · intro j dir'
    have before := (dir j).mp dir'
    rw [dir, root, up j before]
    obtain ⟨above, place⟩ := h.parent j before
    refine ⟨above, fun below => ?_⟩
    obtain ⟨l, mine⟩ := place below
    exact ⟨l, (child _ l j).mpr (.inl mine)⟩
  · obtain ⟨r, rises⟩ := h.rank
    exact ⟨r, fun e j l mine dir' => rises e j l (old e j l mine ((dir l).mp dir')) ((dir l).mp dir')⟩

/-- A new directory. -/
theorem Sound.make [DecidableEq ι] (h : Sound t) (home : t.dir d) (fresh : ¬ t.live i) (live : ∀ j, t'.live j ↔ t.live j ∨ j = i)
    (dir : ∀ j, t'.dir j ↔ t.dir j ∨ j = i) (child : ∀ e j l, t'.child e j l ↔ t.child e j l ∨ e = d ∧ j = k ∧ l = i)
    (up : ∀ j, t.dir j → t'.up j = t.up j) (mine : t'.up i = d) (root : t'.root = t.root) : Sound t' := by
  have notDir : ∀ j, t.dir j → j ≠ i := by
    rintro j dir' rfl
    exact fresh (h.dirs j dir')
  have notChild : ∀ e j, ¬ t.child e j i := fun e j bad => fresh (h.named e j i bad).2
  refine ⟨?_, ?_, ?_, ?_, ?_, ?_, ?_⟩
  · intro j dir'
    exact (live j).mpr (((dir j).mp dir').imp_left (h.dirs j))
  · rw [root, dir, up _ h.root.1]
    exact ⟨.inl h.root.1, h.root.2⟩
  · intro e j l mine
    rw [dir, live]
    rcases (child e j l).mp mine with mine | ⟨rfl, _, rfl⟩
    · exact ⟨.inl (h.named e j l mine).1, .inl (h.named e j l mine).2⟩
    · exact ⟨.inl home, .inr rfl⟩
  · intro e j l place dir'
    rw [root]
    rcases (child e j l).mp place with place | ⟨rfl, _, rfl⟩
    · rcases (dir l).mp dir' with before | rfl
      · rw [up l before]
        exact h.up e j l place before
      · exact absurd place (notChild e j)
    · exact ⟨mine, (notDir _ h.root.1).symm⟩
  · intro e j j' l place place' dir'
    rcases (child e j l).mp place with place | ⟨rfl, rfl, rfl⟩
    · rcases (child e j' l).mp place' with place' | ⟨_, _, rfl⟩
      · rcases (dir l).mp dir' with before | rfl
        · exact h.once e j j' l place place' before
        · exact absurd place (notChild e j)
      · exact absurd place (notChild e j)
    · rcases (child e j' l).mp place' with place' | ⟨_, rfl, _⟩
      · exact absurd place' (notChild e j')
      · rfl
  · intro j dir'
    rw [root]
    rcases (dir j).mp dir' with before | rfl
    · rw [dir, up j before]
      obtain ⟨above, place⟩ := h.parent j before
      refine ⟨.inl above, fun below => ?_⟩
      obtain ⟨l, mine⟩ := place below
      exact ⟨l, (child _ l j).mpr (.inl mine)⟩
    · rw [mine, dir]
      exact ⟨.inl home, fun _ => ⟨k, (child d k j).mpr (.inr ⟨rfl, rfl, rfl⟩)⟩⟩
  · obtain ⟨r, rises⟩ := h.rank
    refine ⟨update r i (r d + 1), fun e j l place dir' => ?_⟩
    rcases (child e j l).mp place with place | ⟨rfl, _, rfl⟩
    · have other : l ≠ i := by
        rintro rfl
        exact notChild e j place
      rw [update_of_ne (notDir e (h.named e j l place).1), update_of_ne other]
      exact rises e j l place (((dir l).mp dir').resolve_right other)
    · rw [update_of_ne (notDir e home), update_self]
      exact Nat.lt_succ_self _

/-- A file loses a name, or an empty directory its only one and is none any more. -/
theorem Sound.unlink (h : Sound t) (place : t.child d k i) (only : ∀ j, t.child d k j → j = i) (empty : ∀ j l, ¬ (t.dir i ∧ t.child i j l))
    (kept : ∀ j, t.live j → j ≠ i → t'.live j) (stays : t'.live i ∨ ∀ e j, ¬ t'.child e j i) (dir : ∀ j, t'.dir j ↔ t.dir j ∧ j ≠ i)
    (child : ∀ e j l, t'.child e j l ↔ t.child e j l ∧ ¬ (e = d ∧ j = k)) (up : ∀ j, t.dir j → t'.up j = t.up j) (root : t'.root = t.root) : Sound t' := by
  have top : t.root ≠ i := by
    rintro rfl
    exact (h.up d k _ place h.root.1).2 rfl
  refine ⟨?_, ?_, ?_, ?_, ?_, ?_, ?_⟩
  · intro j dir'
    obtain ⟨before, other⟩ := (dir j).mp dir'
    exact kept j (h.dirs j before) other
  · rw [root, dir, up _ h.root.1]
    exact ⟨⟨h.root.1, top⟩, h.root.2⟩
  · intro e j l mine
    obtain ⟨before, _⟩ := (child e j l).mp mine
    obtain ⟨dir', live'⟩ := h.named e j l before
    refine ⟨(dir e).mpr ⟨dir', fun same => ?_⟩, ?_⟩
    · rw [same] at dir' before
      exact empty j l ⟨dir', before⟩
    · by_cases here : l = i
      · rw [here] at mine ⊢
        exact stays.resolve_right fun none => none e j mine
      · exact kept l live' here
  · intro e j l mine dir'
    obtain ⟨before, _⟩ := (dir l).mp dir'
    rw [root, up l before]
    exact h.up e j l ((child e j l).mp mine).1 before
  · intro e j j' l mine mine' dir'
    exact h.once e j j' l ((child e j l).mp mine).1 ((child e j' l).mp mine').1 ((dir l).mp dir').1
  · intro j dir'
    obtain ⟨before, other⟩ := (dir j).mp dir'
    obtain ⟨above, below⟩ := h.parent j before
    rw [root, up j before, dir]
    constructor
    · refine ⟨above, fun same => ?_⟩
      by_cases isTop : j = t.root
      · rw [isTop, h.root.2] at same
        exact top same
      · obtain ⟨l, mine⟩ := below isTop
        rw [same] at above mine
        exact empty l j ⟨above, mine⟩
    · intro notTop
      obtain ⟨l, mine⟩ := below notTop
      refine ⟨l, (child _ l j).mpr ⟨mine, fun same => other ?_⟩⟩
      rw [same.1, same.2] at mine
      exact only j mine
  · obtain ⟨r, rises⟩ := h.rank
    exact ⟨r, fun e j l mine dir' => rises e j l ((child e j l).mp mine).1 ((dir l).mp dir').1⟩

end OpSys.Hierarchy
