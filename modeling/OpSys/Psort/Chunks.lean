import OpSys.Lib.Traced
import OpSys.Psort.Threads

/-! The cells of the child arrays that the loops of `main` store to and load from. -/
namespace OpSys.Psort.Calls
open OpSys.Traced

abbrev Cell := Nat × Int

/-- `fillArrays`, with the cells. -/
def distribute (lines : List KeyValuePair) (linesEachThread : Int) (parentArray : List Block) (j : Nat) (k : Int) (i : Nat) :
    Nat → Run Cell Stop (List Block)
  | 0 => pure parentArray
  | n + 1 => do
    let line ← lift (fetch lines i)
    let arr ← lift (fetch parentArray j)
    let arr ← lift (write arr k line)
    leave (j, k)
    let parentArray ← lift (assign parentArray j arr)
    if k = linesEachThread - 1 then distribute lines linesEachThread parentArray (j + 1) 0 (i + 1) n
    else distribute lines linesEachThread parentArray j (k + 1) (i + 1) n

/-- `gatherArrays`, with the cells. -/
def collect (linesEachThread : Int) (parentArray : List Block) (finalArray : Block) (j : Nat) (k : Int) (i : Nat) :
    Nat → Run Cell Stop Block
  | 0 => pure finalArray
  | n + 1 => do
    let arr ← lift (fetch parentArray j)
    let line ← lift (read arr k)
    leave (j, k)
    let finalArray ← lift (write finalArray i line)
    if k = linesEachThread - 1 then collect linesEachThread parentArray finalArray (j + 1) 0 (i + 1) n
    else collect linesEachThread parentArray finalArray j (k + 1) (i + 1) n

/-- The pairs of indices that both loops go through. -/
def walk (linesEachThread : Int) (j : Nat) (k : Int) : Nat → List Cell
  | 0 => []
  | n + 1 => (j, k) :: if k = linesEachThread - 1 then walk linesEachThread (j + 1) 0 n else walk linesEachThread j (k + 1) n

/-- Each cell of `t` arrays of length `e` once, and no other. -/
def EachOnce (t : Nat) (e : Int) (cells : List Cell) : Prop := ∀ j k, cells.count (j, k) = if j < t ∧ 0 ≤ k ∧ k < e then 1 else 0

def blankArrays (numThread : Nat) (linesEachThread : Int) : List Block := List.replicate numThread (List.replicate linesEachThread.toNat none)

/-- The loops for any arrays the threads leave, and for those that they leave as they are. -/
structure Lays (lines : List KeyValuePair) (numThread : Nat) (linesEachThread : Int) (remainder : Nat) : Prop where
  writes : EachOnce numThread linesEachThread
    (distribute lines linesEachThread (blankArrays numThread linesEachThread) 0 0 0 (lines.length - remainder)).trace
  reads : ∀ chunks : List (List KeyValuePair), chunks.length = numThread → (∀ chunk ∈ chunks, (chunk.length : Int) = linesEachThread) →
    let run := collect linesEachThread (chunks.map fun xs => xs.map some) (List.replicate lines.length none) 0 0 0 (lines.length - remainder)
    EachOnce numThread linesEachThread run.trace ∧
    ∃ (finalArray : Block) (xs : List KeyValuePair), run.result = .ok finalArray ∧ xs.length = lines.length ∧
      addBack lines finalArray (lines.length - remainder) remainder = .ok (xs.map some)
  unsorted : ∃ parentArray finalArray,
    (distribute lines linesEachThread (blankArrays numThread linesEachThread) 0 0 0 (lines.length - remainder)).result = .ok parentArray ∧
    (collect linesEachThread parentArray (List.replicate lines.length none) 0 0 0 (lines.length - remainder)).result = .ok finalArray ∧
    addBack lines finalArray (lines.length - remainder) remainder = .ok (lines.map some)

variable {lines : List KeyValuePair} {parentArray parentArray' : List Block} {finalArray finalArray' : Block} {e k : Int} {t w i j m n : Nat}

/-! ### The trace -/

theorem distributeResult : (distribute lines e parentArray j k i n).result = fillArrays lines e parentArray j k i n := by
  induction n generalizing parentArray j k i with
  | zero => rfl
  | succ n ih =>
    unfold distribute fillArrays
    rw [bindResult]
    refine bind_congr fun line => ?_
    rw [bindResult]
    refine bind_congr fun arr => ?_
    rw [bindResult]
    refine bind_congr fun arr => ?_
    rw [leaveBind]
    dsimp only
    rw [bindResult]
    refine bind_congr fun parentArray => ?_
    split
    · exact ih
    · exact ih

theorem collectResult : (collect e parentArray finalArray j k i n).result = gatherArrays e parentArray finalArray j k i n := by
  induction n generalizing finalArray j k i with
  | zero => rfl
  | succ n ih =>
    unfold collect gatherArrays
    rw [bindResult]
    refine bind_congr fun arr => ?_
    rw [bindResult]
    refine bind_congr fun line => ?_
    rw [leaveBind]
    dsimp only
    rw [bindResult]
    refine bind_congr fun finalArray => ?_
    split
    · exact ih
    · exact ih

theorem distributeTrace (ok : (distribute lines e parentArray j k i n).result = .ok parentArray') :
    (distribute lines e parentArray j k i n).trace = walk e j k n := by
  induction n generalizing parentArray j k i with
  | zero => rfl
  | succ n ih =>
    unfold distribute at ok ⊢
    obtain ⟨line, _, same, ok⟩ := liftDone ok
    rw [same]
    obtain ⟨arr, _, same, ok⟩ := liftDone ok
    rw [same]
    obtain ⟨block, _, same, ok⟩ := liftDone ok
    rw [same, leaveBind]
    obtain ⟨next, _, same, ok⟩ := liftDone ok
    rw [same, walk]
    split at ok
    · rename_i last
      rw [if_pos last, if_pos last, ih ok]
    · rename_i more
      rw [if_neg more, if_neg more, ih ok]

theorem collectTrace (ok : (collect e parentArray finalArray j k i n).result = .ok finalArray') :
    (collect e parentArray finalArray j k i n).trace = walk e j k n := by
  induction n generalizing finalArray j k i with
  | zero => rfl
  | succ n ih =>
    unfold collect at ok ⊢
    obtain ⟨arr, _, same, ok⟩ := liftDone ok
    rw [same]
    obtain ⟨line, _, same, ok⟩ := liftDone ok
    rw [same, leaveBind]
    obtain ⟨next, _, same, ok⟩ := liftDone ok
    rw [same, walk]
    split at ok
    · rename_i last
      rw [if_pos last, if_pos last, ih ok]
    · rename_i more
      rw [if_neg more, if_neg more, ih ok]

/-! ### The cells -/

def row (j k m : Nat) : List Cell := (List.range' k m).map fun (k : Nat) => (j, (k : Int))

theorem walkRow (m k : Nat) (size : k + (m + 1) = w) : walk w j k (m + 1 + n) = row j k (m + 1) ++ walk w (j + 1) 0 n := by
  induction m generalizing k with
  | zero =>
    rw [Nat.zero_add, Nat.add_comm 1 n, walk, if_pos (by omega)]
    rfl
  | succ m ih =>
    have next := ih (k + 1) (by omega)
    rw [Nat.add_right_comm (m + 1) 1 n, walk, if_neg (by omega)]
    rw [Int.natCast_add, Int.natCast_one] at next
    rw [next]
    rfl

theorem walkGrid (t j : Nat) (some : 0 < w) : walk w j 0 (t * w) = (List.range' j t).flatMap fun j => row j 0 w := by
  induction t generalizing j with
  | zero =>
    rw [Nat.zero_mul]
    rfl
  | succ t ih =>
    obtain ⟨m, rfl⟩ : ∃ m, w = m + 1 := ⟨w - 1, by omega⟩
    have first := walkRow (j := j) (n := t * (m + 1)) m 0 (Nat.zero_add _)
    rw [Nat.succ_mul, Nat.add_comm (t * (m + 1))]
    rw [Int.natCast_zero] at first
    rw [first, ih]
    rfl

theorem walkOnce (t w : Nat) : EachOnce t w (walk w 0 0 (t * w)) := by
  intro j k
  rcases Nat.eq_zero_or_pos w with rfl | some
  · rw [Nat.mul_zero, if_neg (by omega)]
    rfl
  have grid : walk w 0 0 (t * w) = (List.range t).product ((List.range w).map fun k : Nat => (k : Int)) := by
    rw [walkGrid t 0 some]
    unfold List.product row
    rw [List.range_eq_range', List.range_eq_range']
    simp only [List.map_map]
    rfl
  have nodup : ((List.range t).product ((List.range w).map fun k : Nat => (k : Int))).Nodup :=
    List.nodup_range.product (List.nodup_range.map fun a b same => Int.ofNat.inj same)
  have inside : (j, k) ∈ (List.range t).product ((List.range w).map fun k : Nat => (k : Int)) ↔ j < t ∧ 0 ≤ k ∧ k < w := by
    rw [List.pair_mem_product, List.mem_range, List.mem_map]
    refine and_congr_right fun _ => ⟨?_, fun ⟨low, high⟩ => ⟨k.toNat, List.mem_range.mpr (by omega), by omega⟩⟩
    rintro ⟨i, mem, rfl⟩
    have less := List.mem_range.mp mem
    omega
  rw [grid]
  split
  · rename_i here
    exact List.count_eq_one_of_mem nodup (inside.mpr here)
  · rename_i out
    exact List.count_eq_zero.mpr fun mem => out (inside.mp mem)

/-! ### The loops -/

theorem distributeChunks (fits : t * w ≤ lines.length) :
    distribute lines w (blankArrays t w) 0 0 0 (t * w) = ⟨walk w 0 0 (t * w), .ok ((pieces t w lines).map fun xs => xs.map some)⟩ := by
  have ok : (distribute lines w (blankArrays t w) 0 0 0 (t * w)).result = .ok ((pieces t w lines).map fun xs => xs.map some) := by
    rw [distributeResult]
    unfold blankArrays
    rw [Int.toNat_natCast]
    exact arraysSpec fits
  rw [← distributeTrace ok, ← ok]

theorem collectChunks {chunks : List (List KeyValuePair)} (size : ∀ chunk ∈ chunks, chunk.length = w) (fits : chunks.length * w ≤ n) :
    collect w (chunks.map fun xs => xs.map some) (List.replicate n none) 0 0 0 (chunks.length * w) =
      ⟨walk w 0 0 (chunks.length * w), .ok (chunks.flatten.map some ++ List.replicate (n - chunks.length * w) none)⟩ := by
  have ok : (collect w (chunks.map fun xs => xs.map some) (List.replicate n none) 0 0 0 (chunks.length * w)).result =
      .ok (chunks.flatten.map some ++ List.replicate (n - chunks.length * w) none) :=
    collectResult.trans (gatherChunks size fits)
  rw [← collectTrace ok, ← ok]

theorem addBackChunks (lines : List KeyValuePair) {chunks : List (List KeyValuePair)} (size : ∀ chunk ∈ chunks, chunk.length = w) :
    addBack lines (chunks.flatten.map some ++ List.replicate (lines.length - chunks.length * w) none) (chunks.length * w)
      (lines.length - chunks.length * w) = .ok ((chunks.flatten ++ lines.drop (chunks.length * w)).map some) := by
  have total := flattenSize size
  have all := addBackAll lines chunks.flatten
  rwa [total] at all

theorem laysChunks (fits : t * w ≤ lines.length) : Lays lines t w (lines.length - t * w) := by
  have whole : lines.length - (lines.length - t * w) = t * w := by omega
  have filled := distributeChunks fits
  refine ⟨?_, ?_, ?_⟩
  · rw [whole, filled]
    exact walkOnce t w
  · intro chunks count size
    have size : ∀ chunk ∈ chunks, chunk.length = w := fun chunk mem => Int.ofNat.inj (size chunk mem)
    subst count
    have total := flattenSize size
    rw [whole, collectChunks size fits]
    refine ⟨walkOnce _ _, _, _, rfl, ?_, addBackChunks lines size⟩
    rw [List.length_append, List.length_drop, total]
    omega
  · have count : (pieces t w lines).length = t := by simp [pieces]
    have size := piecesSize fits
    have inside : (pieces t w lines).length * w ≤ lines.length := by rwa [count]
    have gathered := collectChunks (n := lines.length) size inside
    have added := addBackChunks lines size
    rw [count] at gathered added
    rw [piecesFlatten, List.take_append_drop] at added
    rw [whole, filled]
    refine ⟨_, _, rfl, ?_, added⟩
    rw [gathered, piecesFlatten]

theorem laysShared (lines : List KeyValuePair) (t : Nat) :
    Lays lines t ((lines.length / t : Nat) : Int) (lines.length % t) := by
  rw [Nat.mod_eq_sub]
  exact laysChunks (Nat.mul_div_le _ _)

/-- The layout of the child arrays, for each count of threads from 1 on: there are two of
them where the lines are fewer than the threads. -/
theorem chunksLay (lines : List KeyValuePair) {numThread : Int} (positive : 1 ≤ numThread) :
    let t := if lines.length < numThread.toNat then 2 else numThread.toNat
    counts numThread lines.length = .ok ((t : Int), ((lines.length / t : Nat) : Int), ((lines.length % t : Nat) : Int)) ∧
      Lays lines t ((lines.length / t : Nat) : Int) (lines.length % t) := by
  obtain ⟨n, rfl⟩ := Int.eq_ofNat_of_zero_le (show 0 ≤ numThread by omega)
  have counted := @countsShare n lines.length (by omega)
  intro t
  refine ⟨?_, laysShared lines t⟩
  have shares : share lines.length n = ((t : Int), ((lines.length / t : Nat) : Int)) := by
    unfold share
    rw [← Int.ofNat_tdiv]
    by_cases fewer : lines.length < n
    · have two : t = 2 := if_pos fewer
      rw [if_pos (by rw [Nat.div_eq_of_lt fewer]; rfl), two]
      rfl
    · have own : t = n := if_neg fewer
      have some : 0 < lines.length / n := Nat.div_pos (not_lt.mp fewer) (by omega)
      rw [if_neg (by omega), own]
  rw [shares, if_neg (by omega)] at counted
  exact counted

theorem chunksLaySeven : counts 3 7 = .ok (3, 2, 1) ∧ Lays (List.replicate 7 ⟨0, []⟩) 3 2 1 :=
  chunksLay (List.replicate 7 ⟨0, []⟩) (by decide)

end OpSys.Psort.Calls
