import OpSys.Psort.Merge
import OpSys.Psort.Sorted

/-! `main` from the count of threads on, with an index into each of its arrays. A thread is
run when it is joined here: it makes no difference when it takes its steps. -/
namespace OpSys.Psort.Calls
open OpSys.Interleave OpSys.StableSort Function

/-! ### Arrays -/

def fetch {α : Type} (arr : List α) (i : Int) : Except Stop α :=
  if i < 0 then .error .wild
  else match arr[i.toNat]? with
    | none => .error .wild
    | some x => .ok x

def assign {α : Type} (arr : List α) (i : Int) (x : α) : Except Stop (List α) :=
  if 0 ≤ i ∧ i < arr.length then .ok (arr.set i.toNat x) else .error .wild

/-- `arr[i] = f(i)` for `n` values of `i`. -/
def assignAll {α : Type} (f : Nat → Except Stop α) (arr : List (Option α)) (i : Nat) : Nat → Except Stop (List (Option α))
  | 0 => .ok arr
  | n + 1 => do
    let x ← f i
    let arr ← assign arr i (some x)
    assignAll f arr (i + 1) n

/-! ### `main` -/

def quotient (a b : Int) : Except Stop Int := if b = 0 then .error .division else .ok (a.tdiv b)

def modulo (a b : Int) : Except Stop Int := if b = 0 then .error .division else .ok (a.tmod b)

/-- `num_thread`, `lines_each_thread` and `remainder`, where an array can have
`num_thread` elements. -/
def counts (numThread numLines : Int) : Except Stop (Int × Int × Int) := do
  let linesEachThread ← quotient numLines numThread
  let (numThread, linesEachThread) ←
    if linesEachThread = 0 then (quotient numLines 2).map fun linesEachThread => ((2 : Int), linesEachThread)
    else .ok (numThread, linesEachThread)
  let remainder ← modulo numLines numThread
  if numThread < 0 then .error .wild
  else return (numThread, linesEachThread, remainder)

def fillArrays (lines : List KeyValuePair) (linesEachThread : Int) (parentArray : List Block) (j : Nat) (k : Int) (i : Nat) :
    Nat → Except Stop (List Block)
  | 0 => .ok parentArray
  | n + 1 => do
    let line ← fetch lines i
    let arr ← fetch parentArray j
    let arr ← write arr k line
    let parentArray ← assign parentArray j arr
    if k = linesEachThread - 1 then fillArrays lines linesEachThread parentArray (j + 1) 0 (i + 1) n
    else fillArrays lines linesEachThread parentArray j (k + 1) (i + 1) n

/-- `arr` is the number of the child array. -/
structure ThreadData where
  arr : Nat
  l : Int
  r : Int

def thrFunc (data : List (Option ThreadData)) (parentArray : List Block) (arg : Nat) : Except Stop (List Block) := do
  match ← fetch data arg with
  | none => .error .unset
  | some data =>
    let arr ← fetch parentArray data.arr
    let arr ← mergeSort arr data.l data.r
    assign parentArray data.arr arr

/-- `thr[i]` holds the argument of the thread. -/
def join (data : List (Option ThreadData)) (thr : List (Option Nat)) (parentArray : List Block) (i : Nat) : Nat → Except Stop (List Block)
  | 0 => .ok parentArray
  | n + 1 => do
    match ← fetch thr i with
    | none => .error .unset
    | some arg =>
      let parentArray ← thrFunc data parentArray arg
      join data thr parentArray (i + 1) n

def gatherArrays (linesEachThread : Int) (parentArray : List Block) (finalArray : Block) (j : Nat) (k : Int) (i : Nat) : Nat → Except Stop Block
  | 0 => .ok finalArray
  | n + 1 => do
    let arr ← fetch parentArray j
    let line ← read arr k
    let finalArray ← write finalArray i line
    if k = linesEachThread - 1 then gatherArrays linesEachThread parentArray finalArray (j + 1) 0 (i + 1) n
    else gatherArrays linesEachThread parentArray finalArray j (k + 1) (i + 1) n

def output (finalArray : Block) (i : Nat) : Nat → Except Stop Bytes
  | 0 => .ok []
  | n + 1 => do
    let line ← read finalArray i
    let rest ← output finalArray (i + 1) n
    return line.value ++ rest

def addBack (lines : List KeyValuePair) (finalArray : Block) (numLines remainder : Nat) : Except Stop Block :=
  if remainder ≠ 0 then assignAll (fun i => fetch lines i) finalArray numLines remainder else .ok finalArray

def runThreads (numThread : Nat) (linesEachThread : Int) (parentArray : List Block) : Except Stop (List Block) := do
  let data ← assignAll (fun i => do
    let _ ← fetch parentArray i
    return ⟨i, 0, linesEachThread - 1⟩) (List.replicate numThread none) 0 numThread
  let thr ← assignAll (fun i => do
    let _ ← fetch data i
    return i) (List.replicate numThread none) 0 numThread
  join data thr parentArray 0 numThread

def sortLines (lines : List KeyValuePair) (numThread : Nat) (linesEachThread : Int) (remainder : Nat) : Except Stop Bytes := do
  let numLines := lines.length - remainder
  let parentArray ← fillArrays lines linesEachThread (List.replicate numThread (List.replicate linesEachThread.toNat none)) 0 0 0 numLines
  let parentArray ← runThreads numThread linesEachThread parentArray
  let finalArray ← gatherArrays linesEachThread parentArray (List.replicate lines.length none) 0 0 0 numLines
  let finalArray ← addBack lines finalArray numLines remainder
  let finalArray ← mergeSort finalArray 0 (lines.length - 1)
  output finalArray 0 lines.length

def psort (numThread : Int) (lines : List KeyValuePair) : Except Stop Bytes :=
  if 2147483648 ≤ lines.length then .error .overflow
  else do
    let (numThread, linesEachThread, remainder) ← counts numThread lines.length
    sortLines lines numThread.toNat linesEachThread remainder.toNat

/-! ### Indices -/

variable {α : Type} {arr : List α} {x y : α} {xs ys : List α} {heap heap' : Heap} {lines : List KeyValuePair} {parentArray : List Block}
  {finalArray : Block} {i j n : Nat} {e k : Int}

theorem fetchAt (here : arr[i]? = some x) : fetch arr i = .ok x := by
  unfold fetch
  rw [if_neg (by omega), Int.toNat_natCast, here]

theorem assignAt (inside : i < arr.length) : assign arr i x = .ok (arr.set i x) := by
  unfold assign
  rw [if_pos ⟨Int.natCast_nonneg i, by omega⟩, Int.toNat_natCast]

theorem setNext (xs : List α) (x : α) (rest : List (Option α)) :
    (xs.map some ++ none :: rest).set xs.length (some x) = (xs ++ [x]).map some ++ rest := by
  rw [List.set_append_right _ _ (by simp), List.length_map, Nat.sub_self, List.set_cons_zero, List.map_append, List.append_assoc]
  rfl

theorem assignAllSpec {f : Nat → Except Stop α} (xs ys : List α) (makes : ∀ d y, ys[d]? = some y → f (xs.length + d) = .ok y) :
    assignAll f (xs.map some ++ List.replicate ys.length none) xs.length ys.length = .ok ((xs ++ ys).map some) := by
  induction ys generalizing xs with
  | nil =>
    rw [List.append_nil]
    exact congrArg Except.ok (List.append_nil _)
  | cons y ys ih =>
    have first := makes 0 y rfl
    have next := ih (xs ++ [y]) fun d y' here => by
      rw [snocLength, Nat.add_assoc, Nat.add_comm 1]
      exact makes (d + 1) y' here
    rw [snocLength, List.append_assoc, List.singleton_append] at next
    rw [Nat.add_zero] at first
    rw [List.length_cons, assignAll, first]
    simp only [bind, Except.bind]
    rw [assignAt (by simp), List.replicate_succ, setNext]
    exact next

/-! ### The child arrays -/

/-- The child arrays as blocks of a heap. -/
def heapOf (parentArray : List Block) : Heap := fun j => parentArray.getD j []

theorem heapOfSome (some : heapOf parentArray j ≠ []) : parentArray[j]? = .some (heapOf parentArray j) := by
  unfold heapOf at some ⊢
  rw [List.getD_eq_getElem?_getD] at some ⊢
  cases here : parentArray[j]? with
  | none =>
    rw [here] at some
    exact absurd rfl some
  | some b => rfl

theorem heapOfSet {b : Block} (here : parentArray[j]? = some b) (b' : Block) : heapOf (parentArray.set j b') = update (heapOf parentArray) j b' := by
  have inside := (List.getElem?_eq_some_iff.mp here).1
  funext i
  unfold heapOf
  rw [List.getD_eq_getElem?_getD, List.getElem?_set]
  by_cases same : i = j
  · rw [if_pos same.symm, if_pos inside, same, update_self]
    rfl
  · rw [if_neg (Ne.symm same), update_of_ne same, List.getD_eq_getElem?_getD]

theorem heapOfMap (pieces : List (List KeyValuePair)) (i : Nat) : heapOf (pieces.map fun xs => xs.map some) i = (pieces.getD i []).map some := by
  unfold heapOf
  rw [List.getD_eq_getElem?_getD, List.getD_eq_getElem?_getD, List.getElem?_map]
  cases pieces[i]? <;> rfl

theorem storeWrite (heap : Heap) (j : Nat) (k : Int) (x : KeyValuePair) : store heap j k x = (write (heap j) k x).map (update heap j) := by
  unfold write
  rw [storeIn]
  cases store (fun _ => heap j) 0 k x <;> rfl

theorem writeSome {b b' : Block} {x : KeyValuePair} (ok : write b k x = .ok b') : b ≠ [] := by
  rintro rfl
  unfold write store at ok
  rw [if_neg (by simp)] at ok
  cases ok

theorem readSome {b : Block} {x : KeyValuePair} (ok : read b k = .ok x) : b ≠ [] := by
  rintro rfl
  unfold read load at ok
  split at ok
  · cases ok
  · rw [List.getElem?_nil] at ok
    cases ok

theorem fillArraysFill {xs : List KeyValuePair} (filled : fill e (heapOf parentArray) j k xs = .ok heap') (inside : ∀ d x, xs[d]? = some x → lines[i + d]? = some x) :
    ∃ parentArray', fillArrays lines e parentArray j k i xs.length = .ok parentArray' ∧ heapOf parentArray' = heap' ∧
      parentArray'.length = parentArray.length := by
  induction xs generalizing parentArray j k i with
  | nil =>
    cases filled
    exact ⟨parentArray, rfl, rfl, rfl⟩
  | cons x xs ih =>
    cases wrote : write (heapOf parentArray j) k x with
    | error r =>
      rw [fill, storeWrite, wrote] at filled
      cases filled
    | ok b =>
      have here := heapOfSome (writeSome wrote)
      have line : lines[i]? = some x := inside 0 x rfl
      have later : ∀ d x, xs[d]? = some x → lines[i + 1 + d]? = some x := fun d x mem => by
        rw [Nat.add_assoc, Nat.add_comm 1]
        exact inside (d + 1) x mem
      -- both go on at the same place
      obtain ⟨j', k', before, after⟩ : ∃ j' k', fill e (heapOf parentArray) j k (x :: xs) = fill e (heapOf (parentArray.set j b)) j' k' xs ∧
          fillArrays lines e parentArray j k i (xs.length + 1) = fillArrays lines e (parentArray.set j b) j' k' (i + 1) xs.length := by
        rw [fill, fillArrays, storeWrite, fetchAt line, fetchAt here, wrote]
        simp only [bind, Except.bind, Except.map, wrote, assignAt (List.getElem?_eq_some_iff.mp here).1, ← heapOfSet here b]
        split
        · exact ⟨_, _, rfl, rfl⟩
        · exact ⟨_, _, rfl, rfl⟩
      rw [before] at filled
      obtain ⟨parentArray', ran, same, size⟩ := ih filled later
      exact ⟨parentArray', after.trans ran, same, size.trans List.length_set⟩

theorem gatherArraysGather {xs ys : List KeyValuePair} {rest : Block} (gathered : gather e (heapOf parentArray) j k n = .ok ys) :
    gatherArrays e parentArray (xs.map some ++ List.replicate n none ++ rest) j k xs.length n = .ok ((xs ++ ys).map some ++ rest) := by
  induction n generalizing xs ys j k with
  | zero =>
    cases gathered
    rw [gatherArrays, List.append_nil]
    exact congrArg (fun b => Except.ok (b ++ rest)) (List.append_nil _)
  | succ n ih =>
    cases loaded : load (heapOf parentArray) j k with
    | error r =>
      rw [gather, loaded] at gathered
      cases gathered
    | ok x =>
      have reads : read (heapOf parentArray j) k = .ok x := loaded
      have here := heapOfSome (readSome reads)
      have cell : xs.map some ++ List.replicate (n + 1) none ++ rest = xs.map some ++ none :: (List.replicate n none ++ rest) := by
        rw [List.append_assoc, List.replicate_succ, List.cons_append]
      have stored : write (xs.map some ++ List.replicate (n + 1) none ++ rest) xs.length x = .ok ((xs ++ [x]).map some ++ List.replicate n none ++ rest) := by
        rw [writeAt cell (by simp)]
        simp
      obtain ⟨j', k', before, after⟩ : ∃ j' k', gather e (heapOf parentArray) j k (n + 1) = (gather e (heapOf parentArray) j' k' n).map (x :: ·) ∧
          gatherArrays e parentArray (xs.map some ++ List.replicate (n + 1) none ++ rest) j k xs.length (n + 1) =
            gatherArrays e parentArray ((xs ++ [x]).map some ++ List.replicate n none ++ rest) j' k' (xs.length + 1) n := by
        rw [gather, gatherArrays, loaded, fetchAt here]
        simp only [bind, Except.bind, reads, stored]
        split
        · exact ⟨_, _, by cases gather e (heapOf parentArray) (j + 1) 0 n <;> rfl, rfl⟩
        · exact ⟨_, _, by cases gather e (heapOf parentArray) j (k + 1) n <;> rfl, rfl⟩
      rw [before] at gathered
      rw [after]
      cases more : gather e (heapOf parentArray) j' k' n with
      | error r =>
        rw [more] at gathered
        cases gathered
      | ok ys' =>
        rw [more] at gathered
        cases gathered
        have later := @ih j' k' (xs ++ [x]) ys' more
        have both : xs ++ [x] ++ ys' = xs ++ x :: ys' := by simp
        rwa [snocLength, both] at later

/-! ### The threads -/

theorem joinSpec {t : Nat} {data : List (Option ThreadData)} {thr : List (Option Nat)} (few : e < 2147483648)
    (hands : ∀ i < t, data[i]? = some (some ⟨i, 0, e - 1⟩)) (threads : ∀ i < t, thr[i]? = some (some i))
    (todo done : List (List KeyValuePair)) (size : ∀ piece ∈ todo, (piece.length : Int) = e) (count : done.length + todo.length = t) :
    join data thr ((done ++ todo).map fun xs => xs.map some) done.length todo.length =
      .ok ((done ++ todo.map sorted).map fun xs => xs.map some) := by
  induction todo generalizing done with
  | nil => rfl
  | cons piece todo ih =>
    rw [List.length_cons] at count
    have here : ((done ++ piece :: todo).map fun xs => xs.map some)[done.length]? = some (piece.map some) := by simp
    have sorts : mergeSort (piece.map some) 0 (e - 1) = .ok ((sorted piece).map some) := by
      have sorts := @mergeSortSpec 0 (e - 1) piece [] [] rfl (by rw [size piece List.mem_cons_self]; omega) (by omega)
      simpa using sorts
    have set : ((done ++ piece :: todo).map fun xs => xs.map some).set done.length ((sorted piece).map some) =
        (((done ++ [sorted piece]) ++ todo).map fun xs => xs.map some) := by
      simp [List.set_append_right]
    have next := ih (done ++ [sorted piece]) (fun p mem => size p (List.mem_cons_of_mem _ mem)) (by rw [snocLength]; omega)
    have ran : thrFunc data ((done ++ piece :: todo).map fun xs => xs.map some) done.length =
        .ok (((done ++ [sorted piece]) ++ todo).map fun xs => xs.map some) := by
      unfold thrFunc
      rw [fetchAt (hands done.length (by omega))]
      simp only [bind, Except.bind]
      rw [fetchAt here]
      simp only [sorts]
      rw [assignAt (by simp), set]
    rw [snocLength] at next
    rw [List.length_cons, join, fetchAt (threads done.length (by omega))]
    simp only [bind, Except.bind, ran]
    rw [next]
    simp

theorem assignFirst {f : Nat → Except Stop α} {g : Nat → α} {t : Nat} (makes : ∀ i < t, f i = .ok (g i)) :
    assignAll f (List.replicate t none) 0 t = .ok (((List.range t).map g).map some) := by
  have all := assignAllSpec (f := f) [] ((List.range t).map g) fun d y here => by
    have less := (List.getElem?_eq_some_iff.mp here).1
    rw [List.length_map, List.length_range] at less
    rw [List.getElem?_map, List.getElem?_range less] at here
    cases here
    rw [List.length_nil, Nat.zero_add]
    exact makes d less
  rw [List.length_map, List.length_range] at all
  exact all

theorem runThreadsSpec (few : e < 2147483648) (pieces : List (List KeyValuePair)) (size : ∀ piece ∈ pieces, (piece.length : Int) = e) :
    runThreads pieces.length e (pieces.map fun xs => xs.map some) = .ok ((pieces.map sorted).map fun xs => xs.map some) := by
  have data := assignFirst (f := fun i => do let _ ← fetch (pieces.map fun xs => xs.map some) i; return (⟨i, 0, e - 1⟩ : ThreadData))
    (g := fun i => ⟨i, 0, e - 1⟩) (t := pieces.length) fun i less => by
      have here : (pieces.map fun xs => xs.map some)[i]? = some (pieces[i].map some) := by simp [less]
      simp only [fetchAt here, bind, Except.bind]
      rfl
  have hands : ∀ i < pieces.length, (((List.range pieces.length).map fun i => (⟨i, 0, e - 1⟩ : ThreadData)).map some)[i]? = some (some ⟨i, 0, e - 1⟩) :=
    fun i less => by simp [less]
  have thr := assignFirst (g := fun i => i) (f := fun i => do
      let _ ← fetch (((List.range pieces.length).map fun i => (⟨i, 0, e - 1⟩ : ThreadData)).map some) i
      return i) (t := pieces.length) fun i less => by
    simp only [fetchAt (hands i less), bind, Except.bind]
    rfl
  have threads : ∀ i < pieces.length, (((List.range pieces.length).map fun i => i).map some)[i]? = some (some i) := fun i less => by simp [less]
  have joined := joinSpec few hands threads pieces [] size (Nat.zero_add _)
  unfold runThreads
  rw [data]
  simp only [bind, Except.bind] at thr ⊢
  rw [thr]
  exact joined

theorem outputSpec (done xs : List KeyValuePair) : output ((done ++ xs).map some) done.length xs.length = .ok (xs.flatMap KeyValuePair.value) := by
  induction xs generalizing done with
  | nil => rfl
  | cons x xs ih =>
    have later := ih (done ++ [x])
    rw [snocLength, List.append_assoc, List.singleton_append] at later
    rw [List.length_cons, output, loadPart done xs x]
    simp only [bind, Except.bind, later]
    rfl

/-! ### All of it -/

theorem blankHeap (t e : Nat) : heapOf (List.replicate t (List.replicate e none)) = fun i => if i < t then List.replicate e none else [] := by
  funext i
  unfold heapOf
  rw [List.getD_eq_getElem?_getD, List.getElem?_replicate]
  split <;> rfl

theorem heapOfArrays {pieces : List (List KeyValuePair)} (size : parentArray.length = pieces.length)
    (arrays : ∀ i, heapOf parentArray i = (pieces.getD i []).map some) : parentArray = pieces.map fun xs => xs.map some := by
  refine List.ext_getElem (by rw [size, List.length_map]) fun i less less' => ?_
  have here := arrays i
  rw [List.length_map] at less'
  unfold heapOf at here
  rw [List.getD_eq_getElem?_getD, List.getD_eq_getElem?_getD, List.getElem?_eq_getElem less, List.getElem?_eq_getElem less'] at here
  rw [List.getElem_map]
  exact here

theorem arraysSpec {t e : Nat} (fits : t * e ≤ lines.length) :
    fillArrays lines e (List.replicate t (List.replicate e none)) 0 0 0 (t * e) = .ok ((pieces t e lines).map fun xs => xs.map some) := by
  obtain ⟨heap, filled, shares⟩ := fillShared fits
  rw [← blankHeap] at filled
  have inside : ∀ d x, (lines.take (t * e))[d]? = some x → lines[0 + d]? = some x := fun d x here => by
    rw [List.getElem?_take] at here
    split at here
    · rwa [Nat.zero_add]
    · cases here
  obtain ⟨parentArray, ran, same, size⟩ := fillArraysFill filled inside
  rw [List.length_take, Nat.min_eq_left fits] at ran
  have count : parentArray.length = (pieces t e lines).length := by
    rw [size, List.length_replicate]
    simp [pieces]
  rw [ran, heapOfArrays count fun i => (congrFun same i).trans (shares i)]

theorem flattenSize {w : Nat} {chunks : List (List KeyValuePair)} (size : ∀ chunk ∈ chunks, chunk.length = w) :
    chunks.flatten.length = chunks.length * w := by
  induction chunks with
  | nil => exact (Nat.zero_mul w).symm
  | cons chunk chunks ih =>
    rw [List.flatten_cons, List.length_append, size chunk List.mem_cons_self, ih fun chunk mem => size chunk (List.mem_cons_of_mem _ mem),
      List.length_cons, Nat.succ_mul, Nat.add_comm]

theorem gatherChunks {w : Nat} {chunks : List (List KeyValuePair)} (size : ∀ chunk ∈ chunks, chunk.length = w) (fits : chunks.length * w ≤ n) :
    gatherArrays w (chunks.map fun xs => xs.map some) (List.replicate n none) 0 0 0 (chunks.length * w) =
      .ok (chunks.flatten.map some ++ List.replicate (n - chunks.length * w) none) := by
  have all : gather w (heapOf (chunks.map fun xs => xs.map some)) 0 0 (chunks.length * w) = .ok chunks.flatten := by
    have total := flattenSize size
    rcases Nat.eq_zero_or_pos w with rfl | pos
    · rw [Nat.mul_zero] at total ⊢
      rw [List.length_eq_zero_iff.mp total]
      rfl
    · rw [← total]
      refine gatherPieces chunks 0 pos size fun i piece here => ?_
      rw [Nat.zero_add, heapOfMap, List.getD_eq_getElem?_getD, here]
      rfl
  have blank : List.replicate n (none : Option KeyValuePair) =
      ([] : List KeyValuePair).map some ++ List.replicate (chunks.length * w) none ++ List.replicate (n - chunks.length * w) none := by
    rw [List.map_nil, List.nil_append, List.replicate_append_replicate, Nat.add_sub_cancel' fits]
  rw [blank]
  exact gatherArraysGather all

theorem addBackAll (lines xs : List KeyValuePair) :
    addBack lines (xs.map some ++ List.replicate (lines.length - xs.length) none) xs.length (lines.length - xs.length) =
      .ok ((xs ++ lines.drop xs.length).map some) := by
  have all := assignAllSpec (f := fun i => fetch lines i) xs (lines.drop xs.length) fun d x here => by
    rw [List.getElem?_drop] at here
    exact fetchAt here
  rw [List.length_drop] at all
  unfold addBack
  split
  · exact all
  · rename_i none
    rw [not_not.mp none] at all ⊢
    exact all

theorem gatherSpec {t e : Nat} (fits : t * e ≤ lines.length) :
    gatherArrays e ((pieces t e lines).map sorted |>.map fun xs => xs.map some) (List.replicate lines.length none) 0 0 0 (t * e) =
      .ok (((pieces t e lines).map sorted).flatten.map some ++ List.replicate (lines.length - t * e) none) := by
  have count : ((pieces t e lines).map sorted).length = t := by simp [pieces]
  have size : ∀ chunk ∈ (pieces t e lines).map sorted, chunk.length = e := fun chunk mem => by
    obtain ⟨piece, inside, rfl⟩ := List.mem_map.mp mem
    rw [sortLength]
    exact piecesSize fits piece inside
  have all := gatherChunks (n := lines.length) size (by rw [count]; exact fits)
  rwa [count] at all

theorem addBackSpec {t e : Nat} (fits : t * e ≤ lines.length) :
    addBack lines (((pieces t e lines).map sorted).flatten.map some ++ List.replicate (lines.length - t * e) none) (t * e) (lines.length - t * e) =
      .ok ((gathered t e lines).map some) := by
  have size : ((pieces t e lines).map sorted).flatten.length = t * e := by
    have all := gatheredLength t e lines
    rw [gathered, List.length_append, List.length_drop] at all
    omega
  have all := addBackAll lines ((pieces t e lines).map sorted).flatten
  rw [size] at all
  exact all

theorem sortLinesSpec {t e : Nat} (few : lines.length < 2147483648) (fits : t * e ≤ lines.length) (pos : 0 < t) :
    sortLines lines t e (lines.length - t * e) = .ok ((sorted lines).flatMap KeyValuePair.value) := by
  have whole : lines.length - (lines.length - t * e) = t * e := by omega
  have small : (e : Int) < 2147483648 := by
    have less := Nat.le_mul_of_pos_left e pos
    omega
  have count : (pieces t e lines).length = t := by simp [pieces]
  have threads := runThreadsSpec small (pieces t e lines) fun piece mem => by rw [piecesSize fits piece mem]
  have sorts := @mergeSortSpec 0 (lines.length - 1) (gathered t e lines) [] [] rfl (by rw [gatheredLength]; omega) (by omega)
  have out := outputSpec [] (sorted lines)
  rw [count] at threads
  rw [gatheredSorted] at sorts
  rw [List.nil_append, List.append_nil, List.nil_append, List.append_nil] at sorts
  rw [List.nil_append, sortLength] at out
  unfold sortLines
  simp only [whole, Int.toNat_natCast, arraysSpec fits, threads, gatherSpec fits, addBackSpec fits, sorts, bind, Except.bind]
  exact out

theorem countsShare {numThread numLines : Int} (some : numThread ≠ 0) : counts numThread numLines =
    if (share numLines numThread).1 < 0 then .error .wild
    else .ok ((share numLines numThread).1, (share numLines numThread).2, numLines.tmod (share numLines numThread).1) := by
  unfold counts share quotient modulo
  rw [if_neg some]
  simp only [bind, Except.bind]
  split <;> rfl

theorem psortRuns {numThread : Int} (few : lines.length < 2147483648) (serves : Serves lines.length numThread) :
    psort numThread lines = .ok ((sorted lines).flatMap KeyValuePair.value) := by
  obtain ⟨t, e, shares, fits, rest, pos⟩ := shareSpec lines.length serves
  have some : numThread ≠ 0 := by rcases serves with positive | less <;> omega
  have counted := @countsShare numThread lines.length some
  rw [shares] at counted
  unfold psort
  rw [if_neg (by omega), counted, if_neg (by omega)]
  simp only [bind, Except.bind, rest, Int.toNat_natCast]
  exact sortLinesSpec few fits pos

theorem psortServes {numThread : Int} {outputFile : Bytes} (ran : psort numThread lines = .ok outputFile) :
    lines.length < 2147483648 ∧ Serves lines.length numThread := by
  unfold psort at ran
  split at ran
  · cases ran
  · rename_i few
    refine ⟨not_le.mp few, ?_⟩
    by_contra bad
    have fits := not_lt.mp fun less => bad (.inr less)
    have negative := not_le.mp fun positive => bad (.inl positive)
    by_cases zero : numThread = 0
    · rw [zero] at ran
      cases ran
    · rw [countsShare zero, if_pos (shareNegative (by omega) fits)] at ran
      cases ran

/-- Each order of the steps of the threads writes the same file. -/
theorem psortAgrees (records : List Record) {numThread : Int} {outputFile : Bytes} (ran : psort numThread (records.map Record.line) = .ok outputFile) :
    ∃ s, start numThread (file records) = .ok s ∧ Writes s outputFile := by
  obtain ⟨few, serves⟩ := psortServes ran
  have same := (psortRuns few serves).symm.trans ran
  rw [sortedFile] at same
  rw [List.length_map] at few serves
  rw [← Except.ok.inj same]
  exact psortWrites records few serves

/-- A count of threads of zero is divided by, and one below zero sizes the arrays, except
where the lines are fewer. -/
theorem psortSafe (numThread : Int) (lines : List KeyValuePair) :
    (∃ outputFile, psort numThread lines = .ok outputFile) ↔ lines.length < 2147483648 ∧ Serves lines.length numThread :=
  ⟨fun ⟨_, ran⟩ => psortServes ran, fun ⟨few, serves⟩ => ⟨_, psortRuns few serves⟩⟩

theorem threadsFail : psort 0 [⟨3, [3]⟩, ⟨1, [1]⟩] = .error .division ∧ psort (-1) [⟨3, [3]⟩, ⟨1, [1]⟩] = .error .wild ∧
    ¬ ∀ numThread lines, ∃ outputFile, psort numThread lines = .ok outputFile := by
  refine ⟨rfl, rfl, fun all => ?_⟩
  obtain ⟨outputFile, ran⟩ := all 0 [⟨3, [3]⟩, ⟨1, [1]⟩]
  cases ran

end OpSys.Psort.Calls
