import OpSys.Lib.Cint
import OpSys.Psort.MergeSort
import Mathlib.Tactic.Cases

/-! `merge` and `mergeSort` as they are called, down to the indices into the array and
into the temporary arrays. Of the indices only `k` can pass the bound of an `int`, after
the last store. -/
namespace OpSys.Psort.Calls
open OpSys.Cint OpSys.Interleave OpSys.StableSort Function

def read (arr : Block) (i : Int) : Except Stop KeyValuePair := load (fun _ => arr) 0 i

def write (arr : Block) (i : Int) (x : KeyValuePair) : Except Stop Block := (store (fun _ => arr) 0 i x).map (· 0)

/-- `temp[i] = arr[base + i]` for `i` up to `n`. -/
def copy (arr : Block) (base : Int) (temp : Block) (n i : Int) : Except Stop Block :=
  if i < n then do
    let x ← read arr (base + i)
    let temp ← write temp i x
    copy arr base temp n (i + 1)
  else .ok temp
termination_by (n - i).toNat

/-- The loop with two arrays, and where `i`, `j` and `k` end. -/
def mergeBack (arr L R : Block) (n1 n2 i j k : Int) : Except Stop (Block × Int × Int × Int) :=
  if i < n1 ∧ j < n2 then do
    let a ← read L i
    let b ← read R j
    if a.key ≤ b.key then
      let arr ← write arr k a
      mergeBack arr L R n1 n2 (i + 1) j (int (k + 1))
    else
      let arr ← write arr k b
      mergeBack arr L R n1 n2 i (j + 1) (int (k + 1))
  else .ok (arr, i, j, k)
termination_by (n1 - i + (n2 - j)).toNat

def remaining (arr temp : Block) (n i k : Int) : Except Stop (Block × Int) :=
  if i < n then do
    let x ← read temp i
    let arr ← write arr k x
    remaining arr temp n (i + 1) (int (k + 1))
  else .ok (arr, k)
termination_by (n - i).toNat

def mergeInto (arr L R : Block) (n1 n2 i j k : Int) : Except Stop Block := do
  let (arr, i, j, k) ← mergeBack arr L R n1 n2 i j k
  let (arr, k) ← remaining arr L n1 i k
  let (arr, _) ← remaining arr R n2 j k
  return arr

def merge (arr : Block) (l m r : Int) : Except Stop Block := do
  let n1 := m - l + 1
  let n2 := r - m
  let L ← copy arr l (List.replicate n1.toNat none) n1 0
  let R ← copy arr (m + 1) (List.replicate n2.toNat none) n2 0
  mergeInto arr L R n1 n2 0 0 l

def mergeSort (arr : Block) (l r : Int) : Except Stop Block :=
  if l < r then do
    let m := l + (r - l).tdiv 2
    let arr ← mergeSort arr l m
    let arr ← mergeSort arr (m + 1) r
    merge arr l m r
  else .ok arr
termination_by (r - l).toNat
decreasing_by
  all_goals
    rw [Int.tdiv_eq_ediv_of_nonneg (by omega)]
    omega

/-! ### What is expected -/

/-- The elements from `l` to `r`. -/
def slice (arr : List KeyValuePair) (l r : Int) : List KeyValuePair := (arr.drop l.toNat).take (r + 1 - l).toNat

structure SortsRange (arr : List KeyValuePair) (l r : Int) (out : List KeyValuePair) : Prop where
  length : out.length = arr.length
  outside : ∀ i : Nat, i < l ∨ r < i → out[i]? = arr[i]?
  inside : Stable KeyValuePair.key (slice arr l r) (slice out l r)

variable {arr pre post gap : Block} {xs ys zs done done' : List KeyValuePair} {x : KeyValuePair} {i j k l m n r base : Int}

/-! ### The loops -/

theorem readAt (here : arr = pre ++ some x :: post) (index : i = pre.length) : read arr i = .ok x := by
  unfold read
  rw [index]
  exact loadAt here

theorem writeAt {c : Option KeyValuePair} (here : arr = pre ++ c :: post) (index : i = pre.length) :
    write arr i x = .ok (pre ++ some x :: post) := by
  unfold write
  rw [index, storeAt c here]
  simp [Except.map]

theorem copyNext {temp temp' : Block} (less : i < n) (loaded : read arr (base + i) = .ok x) (stored : write temp i x = .ok temp') :
    copy arr base temp n i = copy arr base temp' n (i + 1) := by
  rw [copy, if_pos less, loaded]
  simp only [bind, Except.bind, stored]

theorem remainingNext {temp arr' : Block} (less : i < n) (loaded : read temp i = .ok x) (stored : write arr k x = .ok arr') :
    remaining arr temp n i k = remaining arr' temp n (i + 1) (int (k + 1)) := by
  rw [remaining, if_pos less, loaded]
  simp only [bind, Except.bind, stored]

theorem mergeLeft {L R arr' : Block} {n1 n2 : Int} {y : KeyValuePair} (less : i < n1 ∧ j < n2) (left : read L i = .ok x) (right : read R j = .ok y)
    (first : x.key ≤ y.key) (stored : write arr k x = .ok arr') :
    mergeInto arr L R n1 n2 i j k = mergeInto arr' L R n1 n2 (i + 1) j (int (k + 1)) := by
  unfold mergeInto
  rw [mergeBack, if_pos less, left]
  simp only [bind, Except.bind, right, if_pos first, stored]

theorem mergeRight {L R arr' : Block} {n1 n2 : Int} {y : KeyValuePair} (less : i < n1 ∧ j < n2) (left : read L i = .ok x) (right : read R j = .ok y)
    (first : ¬ x.key ≤ y.key) (stored : write arr k y = .ok arr') :
    mergeInto arr L R n1 n2 i j k = mergeInto arr' L R n1 n2 i (j + 1) (int (k + 1)) := by
  unfold mergeInto
  rw [mergeBack, if_pos less, left]
  simp only [bind, Except.bind, right, if_neg first, stored]

theorem mergeRest {L R arr' arr'' : Block} {n1 n2 k' k'' : Int} (past : ¬ (i < n1 ∧ j < n2)) (left : remaining arr L n1 i k = .ok (arr', k'))
    (right : remaining arr' R n2 j k' = .ok (arr'', k'')) : mergeInto arr L R n1 n2 i j k = .ok arr'' := by
  unfold mergeInto
  rw [mergeBack, if_neg past]
  simp only [bind, Except.bind, left, right]
  rfl

theorem loadPart (done xs : List KeyValuePair) (x : KeyValuePair) : read ((done ++ x :: xs).map some) done.length = .ok x := by
  have here : (done ++ x :: xs).map some = done.map some ++ some x :: xs.map some := by simp
  exact readAt here (by simp)

theorem snocLength {α : Type} (done : List α) (x : α) : (done ++ [x]).length = done.length + 1 := by simp

theorem copySpec (here : arr = pre ++ (done ++ xs).map some ++ post) (index : base = pre.length) (size : n = (done ++ xs).length) :
    copy arr base (done.map some ++ List.replicate xs.length none) n done.length = .ok ((done ++ xs).map some) := by
  induction xs generalizing done with
  | nil =>
    rw [copy, if_neg (by rw [size, List.append_nil]; omega)]
    simp
  | cons x xs ih =>
    have cell : arr = (pre ++ done.map some) ++ some x :: (xs.map some ++ post) := by
      rw [here]
      simp
    have loaded : read arr (base + done.length) = .ok x := readAt cell (by simp [index])
    have stored : write (done.map some ++ List.replicate (x :: xs).length none) done.length x =
        .ok (done.map some ++ some x :: List.replicate xs.length none) := writeAt rfl (by simp)
    have next := @ih (done ++ [x]) (by simpa using here) (by simpa using size)
    rw [snocLength, Int.natCast_add, List.map_append, List.append_assoc, List.append_assoc] at next
    rw [copyNext (by rw [size]; simp only [List.length_append, List.length_cons]; omega) loaded stored]
    exact next

theorem copyAll (pre post : Block) (xs : List KeyValuePair) (here : arr = pre ++ xs.map some ++ post) (index : base = pre.length) :
    copy arr base (List.replicate xs.length none) xs.length 0 = .ok (xs.map some) :=
  @copySpec arr pre post xs [] xs.length base here index rfl

theorem storeNext {c : Option KeyValuePair} (fits : pre.length < 2147483648) :
    write (pre ++ c :: gap ++ post) (int pre.length) x = .ok ((pre ++ [some x]) ++ gap ++ post) := by
  have here : pre ++ c :: gap ++ post = pre ++ c :: (gap ++ post) := by simp
  rw [intSmall (by omega) (by omega), writeAt here rfl]
  simp

theorem remainingSpec (size : gap.length = xs.length) (fits : pre.length + xs.length ≤ 2147483648) :
    remaining (pre ++ gap ++ post) ((done ++ xs).map some) (done ++ xs).length done.length (int pre.length) =
      .ok (pre ++ xs.map some ++ post, int ((pre.length + xs.length : Nat))) := by
  induction xs generalizing done pre gap with
  | nil =>
    rw [List.length_eq_zero_iff.mp size, remaining, if_neg (by rw [List.append_nil]; omega), List.length_nil, Nat.add_zero, List.map_nil]
  | cons x xs ih =>
    cases gap with
    | nil => cases size
    | cons c gap =>
      rw [List.length_cons] at fits
      have next := @ih (pre ++ [some x]) gap (done ++ [x]) (Nat.succ.inj size) (by rw [snocLength]; omega)
      rw [List.append_assoc done, List.singleton_append, snocLength, snocLength, Int.natCast_add, Int.natCast_one, ← intNext] at next
      rw [remainingNext (by simp only [List.length_append, List.length_cons]; omega) (loadPart done xs x) (storeNext (by omega)), next,
        List.length_cons, Nat.add_right_comm _ 1, Nat.add_assoc _ _ 1, List.map_cons, List.append_assoc pre, List.singleton_append]

theorem remainingNone (arr : Block) (k : Int) (done : List KeyValuePair) : remaining arr (done.map some) done.length done.length k = .ok (arr, k) := by
  rw [remaining, if_neg (Int.lt_irrefl _)]

theorem mergeIntoSpec (size : gap.length = ys.length + zs.length) (fits : pre.length + gap.length ≤ 2147483648) :
    mergeInto (pre ++ gap ++ post) ((done ++ ys).map some) ((done' ++ zs).map some) (done ++ ys).length (done' ++ zs).length
      done.length done'.length (int pre.length) = .ok (pre ++ (ys.merge zs byKey).map some ++ post) := by
  rw [size] at fits
  induction ys, zs using List.merge.induct byKey generalizing pre gap done done' with
  | case1 zs =>
    rw [List.length_nil, Nat.zero_add] at size fits
    have left := remainingNone (pre ++ gap ++ post) (int pre.length) done
    have right : remaining (pre ++ gap ++ post) _ _ done'.length _ = _ := remainingSpec size fits
    rw [List.append_nil, List.nil_merge]
    exact mergeRest (by omega) left right
  | case2 ys full =>
    have left : remaining (pre ++ gap ++ post) _ _ done.length _ = _ := remainingSpec size fits
    have right := remainingNone (pre ++ ys.map some ++ post) (int ((pre.length + ys.length : Nat))) done'
    rw [List.append_nil, List.merge_right]
    exact mergeRest (by omega) left right
  | case3 a ys b zs first ih =>
    cases gap with
    | nil => simp at size
    | cons c gap =>
      simp only [List.length_cons] at size fits ih
      have next := @ih (pre ++ [some a]) gap (done ++ [a]) done' (by omega) (by rw [snocLength]; omega)
      rw [List.append_assoc done, List.singleton_append, snocLength, snocLength, Int.natCast_add, Int.natCast_one, ← intNext] at next
      rw [List.cons_merge_cons_pos _ _ _ first, mergeLeft (by simp only [List.length_append, List.length_cons]; omega) (loadPart done ys a)
        (loadPart done' zs b) (of_decide_eq_true first) (storeNext (by omega)), next]
      simp
  | case4 a ys b zs first ih =>
    cases gap with
    | nil => simp at size
    | cons c gap =>
      simp only [List.length_cons] at size fits ih
      have next := @ih (pre ++ [some b]) gap done (done' ++ [b]) (by omega) (by rw [snocLength]; omega)
      rw [List.append_assoc done', List.singleton_append, snocLength, snocLength, Int.natCast_add, Int.natCast_one, ← intNext] at next
      rw [List.cons_merge_cons_neg _ _ _ first, mergeRight (by simp only [List.length_append, List.length_cons]; omega) (loadPart done ys a)
        (loadPart done' zs b) (fun le => first (decide_eq_true le)) (storeNext (by omega)), next]
      simp

/-! ### The calls -/

theorem mergeSpec (left : l = pre.length) (less : l ≤ r) (middle : m + 1 = l + ys.length) (right : r = m + zs.length) (fits : r < 2147483648) :
    merge (pre ++ (ys ++ zs).map some ++ post) l m r = .ok (pre ++ (ys.merge zs byKey).map some ++ post) := by
  have n1 : m - l + 1 = ys.length := by omega
  have n2 : r - m = zs.length := by omega
  have copyL : copy (pre ++ (ys ++ zs).map some ++ post) l (List.replicate ys.length none) ys.length 0 = .ok (ys.map some) :=
    copyAll pre (zs.map some ++ post) ys (by simp) left
  have copyR : copy (pre ++ (ys ++ zs).map some ++ post) (m + 1) (List.replicate zs.length none) zs.length 0 = .ok (zs.map some) :=
    copyAll (pre ++ ys.map some) post zs (by simp) (by simp [middle, left])
  have merged := @mergeIntoSpec pre post ((ys ++ zs).map some) ys zs [] [] (by simp) (by simp only [List.length_map, List.length_append]; omega)
  rw [intSmall (by omega) (by omega), ← left] at merged
  unfold merge
  simp only [n1, n2, Int.toNat_natCast, copyL, copyR, bind, Except.bind]
  exact merged

theorem mergeSortSpec (xs : List KeyValuePair) (pre post : Block) (left : l = pre.length) (right : r = l + xs.length - 1) (fits : r < 2147483648) :
    mergeSort (pre ++ xs.map some ++ post) l r = .ok (pre ++ (sorted xs).map some ++ post) := by
  induction size : xs.length using Nat.strong_induction_on generalizing xs pre post l r with
  | _ n ih =>
    rw [size] at right
    rcases Nat.lt_or_ge n 2 with short | long
    · have same : sorted xs = xs := sortShort (by omega)
      rw [same, mergeSort, if_neg (by omega)]
    · obtain ⟨ys, zs, rfl, half⟩ : ∃ ys zs, xs = ys ++ zs ∧ ys.length = (n + 1) / 2 :=
        ⟨xs.take ((n + 1) / 2), xs.drop ((n + 1) / 2), (List.take_append_drop _ _).symm, by rw [List.length_take]; omega⟩
      have sizes := size
      rw [List.length_append] at sizes
      have middle : l + (r - l).tdiv 2 = l + ys.length - 1 := by
        rw [Int.tdiv_eq_ediv_of_nonneg (by omega)]
        omega
      have first := ih ys.length (by omega) ys pre (zs.map some ++ post) left rfl (by omega) rfl
      have second := ih zs.length (by omega) zs (pre ++ (sorted ys).map some) post (l := l + ys.length - 1 + 1) (r := r)
        (by simp [left, sortLength]) (by omega) fits rfl
      have last := @mergeSpec pre post (sorted ys) (sorted zs) l (l + ys.length - 1) r left (by omega)
        (by rw [sortLength]; omega) (by rw [sortLength]; omega) fits
      have merged : sorted (ys ++ zs) = (sorted ys).merge (sorted zs) byKey := sortHalves (by rwa [size]) (by rwa [size])
      rw [← merged] at last
      simp only [List.map_append, List.append_assoc] at first second last ⊢
      rw [mergeSort, if_pos (by omega)]
      simp only [middle, bind, Except.bind, first, second]
      exact last

/-! ### The range -/

theorem sliceSplit {arr : List KeyValuePair} (low : 0 ≤ l) (range : l ≤ r + 1) (inside : r < arr.length) : ∃ pre post,
    arr = pre ++ slice arr l r ++ post ∧ l = pre.length ∧ r = l + (slice arr l r).length - 1 := by
  refine ⟨arr.take l.toNat, (arr.drop l.toNat).drop (r + 1 - l).toNat, ?_, ?_, ?_⟩
  · unfold slice
    rw [List.append_assoc, List.take_append_drop, List.take_append_drop]
  · rw [List.length_take]
    omega
  · unfold slice
    rw [List.length_take, List.length_drop]
    omega

theorem sliceMiddle (pre post : List KeyValuePair) (left : l = pre.length) (right : r = l + xs.length - 1) : slice (pre ++ xs ++ post) l r = xs := by
  unfold slice
  rw [List.append_assoc, left, Int.toNat_natCast, List.drop_left, show (r + 1 - pre.length).toNat = xs.length by omega, List.take_left]

theorem sortsRange (pre post : List KeyValuePair) (left : l = pre.length) (right : r = l + xs.length - 1) :
    SortsRange (pre ++ xs ++ post) l r (pre ++ sorted xs ++ post) := by
  have size : (sorted xs).length = xs.length := sortLength _ _
  refine ⟨by simp only [List.length_append, size], fun i out => ?_, ?_⟩
  · rw [List.append_assoc, List.append_assoc]
    rcases out with before | after
    · rw [List.getElem?_append_left (by omega), List.getElem?_append_left (by omega)]
    · rw [List.getElem?_append_right (by omega), List.getElem?_append_right (by omega), List.getElem?_append_right (by omega),
        List.getElem?_append_right (by omega), size]
  · rw [sliceMiddle pre post left right, sliceMiddle pre post left (by rw [size, right])]
    exact sortStable _ _

/-- No access fails, and the steps that a thread takes for the call end with the same
array. -/
theorem mergeSortSortsRange (arr : List KeyValuePair) (l r : Int) (low : 0 ≤ l) (range : l ≤ r + 1) (inside : r < arr.length) (bound : r < 2147483648) :
    ∃ out, mergeSort (arr.map some) l r = .ok (out.map some) ∧ SortsRange arr l r out ∧
      ∀ rest, Leads next (arr.map some, Work.mergeSort l r :: rest) (out.map some, rest) := by
  obtain ⟨pre, post, split, left, right⟩ := sliceSplit low range inside
  have mapped : ∀ xs : List KeyValuePair, (pre ++ xs ++ post).map some = pre.map some ++ xs.map some ++ post.map some := by simp
  have front : l = (pre.map some).length := by rw [List.length_map, left]
  generalize slice arr l r = xs at *
  subst split
  refine ⟨pre ++ sorted xs ++ post, ?_, sortsRange pre post left right, fun rest => ?_⟩
  · rw [mapped, mapped]
    exact mergeSortSpec xs _ _ front right bound
  · rw [mapped, mapped]
    exact mergeSortLeads xs _ _ rest front right

def sampleRange : List KeyValuePair := [⟨9, [0]⟩, ⟨3, [1]⟩, ⟨1, [2]⟩, ⟨3, [3]⟩, ⟨0, [4]⟩]

theorem mergeSortSortsRangeSample : ∃ out, mergeSort (sampleRange.map some) 1 3 = .ok (out.map some) ∧ SortsRange sampleRange 1 3 out := by
  obtain ⟨out, ran, sorts, _⟩ := mergeSortSortsRange sampleRange 1 3 (by decide) (by decide) (by decide) (by decide)
  exact ⟨out, ran, sorts⟩

end OpSys.Psort.Calls
