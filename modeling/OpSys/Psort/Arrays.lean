import OpSys.Psort.MergeSort

/-! What the loops of `main` do: the lines of a file of whole records, the share of each
thread, and what is gathered and written in the end. -/
namespace OpSys.Psort
open Function

structure Record where
  bytes : Bytes
  full : bytes.length = lineLength

def Record.key (r : Record) : Int := Psort.key r.bytes
def Record.line (r : Record) : KeyValuePair := ⟨r.key, r.bytes⟩
def file (records : List Record) : Bytes := records.flatMap Record.bytes

variable {heap : Heap} {e : Nat} {j : Nat}

/-! ### The lines -/

theorem parseNext (lines : List KeyValuePair) (buffer : Bytes) (r : Record) (rest : Bytes) (old : buffer.length ≤ lineLength) :
    parse lines buffer (r.bytes ++ rest) =
      if 2 ^ 31 ≤ lines.length + 1 then .error .overflow else parse (lines ++ [r.line]) r.bytes rest := by
  have some : r.bytes ++ rest ≠ [] := by
    have full := r.full
    unfold lineLength at full
    intro empty
    rw [(List.append_eq_nil_iff.mp empty).1] at full
    cases full
  have read : (r.bytes ++ rest).take lineLength = r.bytes := List.take_left' r.full
  have left : (r.bytes ++ rest).drop lineLength = rest := List.drop_left' r.full
  rw [parse, if_neg some]
  simp only [read, left, r.full, List.drop_eq_nil_of_le old, List.append_nil, Nat.lt_irrefl, if_false]
  rfl

theorem parseFile (records : List Record) (lines : List KeyValuePair) (buffer : Bytes) (old : buffer.length ≤ lineLength)
    (few : lines.length + records.length < 2 ^ 31) : parse lines buffer (file records) = .ok (lines ++ records.map Record.line) := by
  induction records generalizing lines buffer with
  | nil =>
    rw [parse, List.map_nil, List.append_nil]
    rfl
  | cons r records ih =>
    rw [List.length_cons] at few
    have next := parseNext lines buffer r (file records) old
    rw [if_neg (by omega), ih (lines ++ [r.line]) r.bytes r.full.le (by simp only [List.length_append, List.length_singleton]; omega)] at next
    rw [file, List.flatMap_cons, ← file, next, List.append_assoc]
    rfl

theorem parseOverflows (records : List Record) (lines : List KeyValuePair) (buffer : Bytes) (old : buffer.length ≤ lineLength)
    (start : lines.length < 2 ^ 31) (many : 2 ^ 31 ≤ lines.length + records.length) :
    parse lines buffer (file records) = .error .overflow := by
  induction records generalizing lines buffer with
  | nil => exact absurd start (Nat.not_lt.mpr many)
  | cons r records ih =>
    rw [List.length_cons] at many
    rw [file, List.flatMap_cons, ← file, parseNext lines buffer r (file records) old]
    split
    · rfl
    · exact ih _ _ r.full.le (by simp only [List.length_append, List.length_singleton]; omega)
        (by simp only [List.length_append, List.length_singleton]; omega)

/-! ### The child arrays -/

theorem fillNext (x : KeyValuePair) (done rest : List KeyValuePair) {gap : Block} (here : heap j = done.map some ++ none :: gap) :
    fill e heap j done.length (x :: rest) =
      if (done.length : Int) = e - 1 then fill e (update heap j ((done ++ [x]).map some ++ gap)) (j + 1) 0 rest
      else fill e (update heap j ((done ++ [x]).map some ++ gap)) j (done.length + 1) rest := by
  have stored := storeAt (x := x) none here
  rw [List.length_map] at stored
  rw [fill, stored, List.map_append, List.append_assoc]
  rfl

theorem fillBlock (xs done rest : List KeyValuePair) (heap : Heap) (more : 0 < xs.length) (size : done.length + xs.length = e)
    (here : heap j = done.map some ++ List.replicate xs.length none) :
    fill e heap j done.length (xs ++ rest) = fill e (update heap j ((done ++ xs).map some)) (j + 1) 0 rest := by
  induction xs generalizing done heap with
  | nil => cases more
  | cons x xs ih =>
    rw [List.length_cons] at size here
    rw [List.cons_append, fillNext x done (xs ++ rest) here]
    cases xs with
    | nil =>
      rw [if_pos (by simp only [List.length_nil] at size; omega)]
      simp
    | cons y xs =>
      have later := ih (done ++ [x]) (update heap j ((done ++ [x]).map some ++ List.replicate (y :: xs).length none)) (Nat.succ_pos _)
        (by simp only [List.length_append, List.length_singleton]; omega) (update_self _ _ _)
      rw [List.length_append, List.length_singleton, Int.natCast_add, update_idem, List.append_assoc] at later
      rw [if_neg (by simp only [List.length_cons] at size; omega)]
      exact later

theorem fillPieces (pieces : List (List KeyValuePair)) (heap : Heap) (j : Nat) (some : 0 < e) (size : ∀ piece ∈ pieces, piece.length = e)
    (blank : ∀ i < pieces.length, heap (j + i) = List.replicate e none) :
    ∃ heap', fill e heap j 0 pieces.flatten = .ok heap' ∧ (∀ i piece, pieces[i]? = .some piece → heap' (j + i) = piece.map .some) ∧
      ∀ t, t < j ∨ j + pieces.length ≤ t → heap' t = heap t := by
  induction pieces generalizing heap j with
  | nil => exact ⟨heap, rfl, fun i piece mem => by simp at mem, fun t _ => rfl⟩
  | cons piece pieces ih =>
    have first := fillBlock piece [] pieces.flatten heap (e := e) (j := j)
      (by rw [size piece List.mem_cons_self]; exact some) (by simpa using size piece List.mem_cons_self)
      (by rw [size piece List.mem_cons_self]; exact blank 0 (Nat.succ_pos _))
    obtain ⟨heap', ok, arrays, others⟩ := ih (update heap j (piece.map .some)) (j + 1) (fun p mem => size p (List.mem_cons_of_mem _ mem))
      fun i less => by
        rw [update_of_ne (by omega), Nat.add_right_comm]
        exact blank (i + 1) (Nat.succ_lt_succ less)
    refine ⟨heap', first.trans ok, ?_, ?_⟩
    · intro i p mem
      cases i with
      | zero =>
        cases mem
        rw [Nat.add_zero, others _ (.inl (Nat.lt_succ_self _)), update_self]
      | succ i =>
        rw [Nat.add_comm i 1, ← Nat.add_assoc]
        exact arrays i p mem
    · intro t out
      rw [List.length_cons] at out
      rw [others t (by omega), update_of_ne (by omega)]

/-! ### The final array -/

theorem gatherBlock (xs done : List KeyValuePair) {n : Nat} {rest : List KeyValuePair} (more : 0 < xs.length) (size : done.length + xs.length = e)
    (here : heap j = (done ++ xs).map some) (later : gather e heap (j + 1) 0 n = .ok rest) :
    gather e heap j done.length (xs.length + n) = .ok (xs ++ rest) := by
  induction xs generalizing done with
  | nil => cases more
  | cons x xs ih =>
    have cell : heap j = done.map some ++ some x :: xs.map some := by simpa using here
    have loaded := loadAt cell
    rw [List.length_map] at loaded
    rw [List.length_cons] at size
    rw [List.length_cons, Nat.add_right_comm, gather, loaded]
    cases xs with
    | nil =>
      simp only [bind, Except.bind]
      rw [if_pos (by simp only [List.length_nil] at size; omega), List.length_nil, Nat.zero_add, later]
      rfl
    | cons y xs =>
      have next := ih (done ++ [x]) (Nat.succ_pos _) (by simp only [List.length_append, List.length_singleton]; omega) (by simpa using here)
      rw [List.length_append, List.length_singleton, Int.natCast_add, Int.natCast_one] at next
      simp only [bind, Except.bind]
      rw [if_neg (by simp only [List.length_cons] at size; omega)]
      rw [next]
      rfl

theorem gatherPieces (pieces : List (List KeyValuePair)) (j : Nat) (some : 0 < e) (size : ∀ piece ∈ pieces, piece.length = e)
    (arrays : ∀ i piece, pieces[i]? = .some piece → heap (j + i) = piece.map .some) :
    gather e heap j 0 pieces.flatten.length = .ok pieces.flatten := by
  induction pieces generalizing j with
  | nil => rfl
  | cons piece pieces ih =>
    have later := ih (j + 1) (fun p mem => size p (List.mem_cons_of_mem _ mem)) fun i p mem => by
      rw [Nat.add_right_comm]
      exact arrays (i + 1) p mem
    rw [List.flatten_cons, List.length_append]
    exact gatherBlock piece [] (by rw [size piece List.mem_cons_self]; exact some) (by simpa using size piece List.mem_cons_self)
      (arrays 0 piece rfl) later

theorem fwriteFile (xs : List KeyValuePair) (done : List KeyValuePair) (here : heap j = (done ++ xs).map some) :
    fwrite heap j done.length xs.length = .ok (xs.flatMap KeyValuePair.value) := by
  induction xs generalizing done with
  | nil => rfl
  | cons x xs ih =>
    have cell : heap j = done.map some ++ some x :: xs.map some := by simpa using here
    have loaded := loadAt cell
    have later := ih (done ++ [x]) (by simpa using here)
    rw [List.length_map] at loaded
    rw [List.length_append, List.length_singleton] at later
    rw [List.length_cons, fwrite, loaded]
    simp only [bind, Except.bind, later]
    rfl

end OpSys.Psort
