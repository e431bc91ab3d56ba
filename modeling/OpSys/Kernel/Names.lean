import Mathlib.Data.List.DropRight
import OpSys.Lib.Bytes
import OpSys.Lib.Elements

/-! The strings of `string.c` and of `skipelem`. A string stands before its first NUL, and no
more than `DIRSIZ` bytes of a name count. -/
namespace OpSys.Fs
open OpSys.Bytes OpSys.Elements

abbrev DIRSIZ : Nat := 14

abbrev Name := List UInt8

/-- What a `char *` points to. -/
def chars (s : List UInt8) : Row := fun k => s.getD k 0

/-- `n` bytes from `k` on are still to compare. -/
def strncmp (p q : Row) : Nat → Nat → Int
  | 0, _ => 0
  | n + 1, k => if p k ≠ 0 ∧ p k = q k then strncmp p q n (k + 1) else (p k).toNat - (q k).toNat

/-- The `n` bytes that it writes. -/
def strncpy (t : Row) : Nat → Nat → List UInt8
  | 0, _ => []
  | n + 1, k => if t k = 0 then List.replicate (n + 1) 0 else t k :: strncpy t n (k + 1)

def namecmp (s t : Row) : Int := strncmp s t DIRSIZ 0

abbrev slash : UInt8 := 47

/-- The rest of the path and the element before it. -/
def skipelem (path : List UInt8) : Option (List UInt8 × Name) :=
  match path.dropWhile (· == slash) with
  | [] => none
  | c :: s => some (((c :: s).dropWhile (· != slash)).dropWhile (· == slash), ((c :: s).takeWhile (· != slash)).take DIRSIZ)

/-! ### What they mean -/

/-- The string, or the first `n` bytes of it. -/
def text (p : Row) : Nat → Nat → Name
  | 0, _ => []
  | n + 1, k => if p k = 0 then [] else p k :: text p n (k + 1)

variable {p q : Row} {n m k : Nat} {s : List UInt8}

theorem strncmpText (p q : Row) (n k : Nat) : strncmp p q n k = 0 ↔ text p n k = text q n k := by
  induction n generalizing k with
  | zero => simp [strncmp, text]
  | succ n ih =>
    rw [strncmp]
    split
    · rename_i same
      obtain ⟨some, same⟩ := same
      simp [text, ← same, some, ih]
    · rename_i differ
      have apart : ((p k).toNat : Int) - (q k).toNat = 0 ↔ p k = q k := by
        rw [← UInt8.toNat_inj]
        omega
      rw [apart, text, text]
      by_cases none : p k = 0
      · by_cases same : q k = 0
        · simp [none, same]
        · simp [none, same, Ne.symm same]
      · have other : p k ≠ q k := fun same => differ ⟨none, same⟩
        by_cases last : q k = 0 <;> simp [none, last, other]

theorem textCongr (same : ∀ j < n, p (k + j) = q (m + j)) : text p n k = text q n m := by
  induction n generalizing k m with
  | zero => rfl
  | succ n ih =>
    have here : p k = q m := same 0 (Nat.succ_pos n)
    have later : text p n (k + 1) = text q n (m + 1) := ih fun j less => by
      have next := same (j + 1) (Nat.succ_lt_succ less)
      rwa [Nat.add_comm j 1, ← Nat.add_assoc, ← Nat.add_assoc] at next
    simp [text, here, later]

theorem textChars (plain : 0 ∉ s) : text (chars s) n 0 = s.take n := by
  induction s generalizing n with
  | nil => cases n <;> simp [text, chars]
  | cons b s ih =>
    cases n with
    | zero => rfl
    | succ n =>
      have some : b ≠ 0 := fun same => plain (by simp [same])
      have rest : 0 ∉ s := fun mem => plain (by simp [mem])
      have later : text (chars (b :: s)) n 1 = text (chars s) n 0 := textCongr fun j _ => by simp [chars, Nat.add_comm 1 j]
      rw [text, later, ih rest]
      simp [chars, some]

theorem strncpyLength (t : Row) (n k : Nat) : (strncpy t n k).length = n := by
  induction n generalizing k with
  | zero => rfl
  | succ n ih =>
    rw [strncpy]
    split <;> simp [ih]

/-- What `strncpy` has written reads as what it has copied. -/
theorem textCopy (p : Row) (n k : Nat) : text (chars (strncpy p n k)) n 0 = text p n k := by
  induction n generalizing k with
  | zero => rfl
  | succ n ih =>
    by_cases last : p k = 0
    · simp [strncpy, text, last, chars]
    · have later : text (chars (strncpy p (n + 1) k)) n 1 = text (chars (strncpy p n (k + 1))) n 0 :=
        textCongr fun j _ => by simp [strncpy, last, chars, Nat.add_comm 1 j]
      rw [text, later, ih, text]
      simp [strncpy, last, chars]

/-! ### Paths -/

def elems (path : List UInt8) : List Name := (elements slash path).map (List.take DIRSIZ)

theorem elemsSkip (path : List UInt8) : elems path = match skipelem path with
    | none => []
    | some (rest, name) => name :: elems rest := by
  unfold elems skipelem
  rw [← elementsDrop path]
  cases here : path.dropWhile (· == slash) with
  | nil => rfl
  | cons c s =>
    have other : c ≠ slash := by
      have stops := List.head_dropWhile_not (fun y => y == slash) (l := path) (by simp [here])
      simpa [here] using stops
    simp [elementsCons other, elementsDrop, other]

/-- No slashes are in front of the rest, so that it is empty when the element was the last. -/
theorem skipelemLast {path rest : List UInt8} {name : Name} (found : skipelem path = some (rest, name)) : rest = [] ↔ elems rest = [] := by
  have idle : rest.dropWhile (· == slash) = rest := by
    unfold skipelem at found
    split at found
    · cases found
    · cases found
      exact List.dropWhile_idempotent (· == slash) _
  simp [elems, elementsEmpty, idle]

theorem skipelemRest {path rest : List UInt8} {name : Name} (found : skipelem path = some (rest, name)) : rest.Sublist path ∧ rest.length < path.length := by
  unfold skipelem at found
  split at found
  · cases found
  · rename_i c s here
    cases found
    have other : c ≠ slash := by
      have stops := List.head_dropWhile_not (fun y => y == slash) (l := path) (by simp [here])
      simpa [here] using stops
    have first : (c :: s).Sublist path := by
      rw [← here]
      exact List.dropWhile_sublist _
    have step : (c :: s).dropWhile (· != slash) = s.dropWhile (· != slash) := by simp [other]
    have second : (((c :: s).dropWhile (· != slash)).dropWhile (· == slash)).Sublist s := by
      rw [step]
      exact (List.dropWhile_sublist _).trans (List.dropWhile_sublist _)
    have length := first.length_le
    have length' := second.length_le
    rw [List.length_cons] at length
    exact ⟨second.trans ((List.sublist_cons_self c s).trans first), by omega⟩

/-- What can stand in a directory as a name. -/
structure Proper (name : Name) : Prop where
  some : name ≠ []
  short : name.length ≤ DIRSIZ
  plain : 0 ∉ name
  whole : slash ∉ name

theorem elemsProper {path : List UInt8} (plain : 0 ∉ path) : ∀ name ∈ elems path, Proper name := by
  intro name mem
  obtain ⟨piece, inside, rfl⟩ := List.mem_map.mp mem
  refine ⟨?_, List.length_take_le _ _, fun bad => ?_, fun bad => (elementsInside inside (List.mem_of_mem_take bad)).2 rfl⟩
  · simpa using elementsPlain piece inside
  · exact plain (elementsInside inside (List.mem_of_mem_take bad)).1

/-- A path from the root with these elements. -/
def absolute (names : List Name) : List UInt8 := names.flatMap fun n => slash :: n

theorem elemsAbsolute {names : List Name} (proper : ∀ n ∈ names, Proper n) : elems (absolute names) = names := by
  induction names with
  | nil => simp [elems, absolute, elementsNil]
  | cons n rest ih =>
    have mine := proper n List.mem_cons_self
    have others := ih fun m mem => proper m (List.mem_cons_of_mem n mem)
    have next : (absolute rest).takeWhile (· != slash) = [] ∧ (absolute rest).dropWhile (· != slash) = absolute rest := by
      cases rest <;> simp [absolute]
    have whole : absolute (n :: rest) = slash :: (n ++ absolute rest) := rfl
    cases n with
    | nil => exact absurd rfl mine.some
    | cons b bs =>
      have other : slash ≠ b := fun same => mine.whole (same ▸ List.mem_cons_self)
      have inside : slash ∉ bs := fun mem => mine.whole (List.mem_cons_of_mem b mem)
      have plain : ∀ c ∈ bs, (c != slash) = true := fun c mem => bne_iff_ne.mpr fun same => inside (same ▸ mem)
      unfold elems at others ⊢
      rw [whole, elementsMark, List.cons_append, elementsCons (Ne.symm other), List.takeWhile_append_of_pos plain, List.dropWhile_append_of_pos plain, next.1, next.2,
        List.append_nil, List.map_cons, others, List.take_of_length_le mine.short]

theorem textName {name : Name} (proper : Proper name) : text (chars name) DIRSIZ 0 = name := by
  rw [textChars proper.plain, List.take_of_length_le proper.short]

end OpSys.Fs
