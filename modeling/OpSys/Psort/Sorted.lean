import OpSys.Psort.Arrays
import Mathlib.Tactic.Cases

/-! The file that `psort` writes: whatever the number of threads, and in whatever order
they take their steps, it is the stable sort of the records by their keys. -/
namespace OpSys.Psort
open OpSys.Transition OpSys.Interleave OpSys.StableSort Function

/-! ### What is expected -/

/-- After `turns` steps: there are no more than `total`, none fails, and as long as `out`
is not written there is one to take. -/
structure OnCourse (total : Nat) (out : Bytes) (turns : Nat) (s : Sys) : Prop where
  short : turns ≤ total
  sound : ∀ a e, machine.step s a = .error e → e = .idle
  goesOn : s.main = .written out ∨ ∃ a s', machine.step s a = .ok (s', ())
  file : ∀ out', s.main = .written out' → out' = out

/-- In whatever order steps are taken, they come to an end, and leave `out` in the file. -/
def Writes (s : Sys) (out : Bytes) : Prop :=
  ∃ total, ∀ turns s' os, machine.run s turns = .ok (s', os) → OnCourse total out turns.length s'

def Sorts (records : List Record) : Prop :=
  ∃ sorted, Stable Record.key records sorted ∧ ∀ numThread ≥ 1, ∃ s, start numThread (file records) = .ok s ∧ Writes s (file sorted)

/-! ### The shares of the threads -/

def pieces (t e : Nat) (lines : List KeyValuePair) : List (List KeyValuePair) := (List.range t).map fun i => (lines.drop (i * e)).take e

variable {t e i : Nat} {lines : List KeyValuePair} {s s' : Sys} {b : Block} {work work' : List Work}

theorem piecesFlatten (t e : Nat) (lines : List KeyValuePair) : (pieces t e lines).flatten = lines.take (t * e) := by
  induction t with
  | zero => simp [pieces]
  | succ t ih =>
    unfold pieces at ih ⊢
    rw [List.range_succ, List.map_append, List.flatten_append, ih, Nat.succ_mul, List.take_add]
    simp

theorem piecesSize (fits : t * e ≤ lines.length) : ∀ piece ∈ pieces t e lines, piece.length = e := by
  intro piece mem
  obtain ⟨i, less, rfl⟩ := List.mem_map.mp mem
  have room : (i + 1) * e ≤ t * e := Nat.mul_le_mul_right e (List.mem_range.mp less)
  rw [Nat.succ_mul] at room
  rw [List.length_take, List.length_drop]
  omega

/-- A count of threads that is positive, or so far below zero that 2 takes its place. -/
def Serves (size : Nat) (numThread : Int) : Prop := 1 ≤ numThread ∨ (size : Int) < -numThread

theorem shareSpec (size : Nat) {numThread : Int} (serves : Serves size numThread) :
    ∃ t e : Nat, share size numThread = ((t : Int), (e : Int)) ∧ t * e ≤ size ∧ ((size : Int).tmod t).toNat = size - t * e ∧ 0 < t := by
  have fits : ∀ t : Nat, t * (size / t) ≤ size ∧ ((size : Int).tmod t).toNat = size - t * (size / t) := fun t => by
    have whole := Nat.div_add_mod size t
    rw [← Int.ofNat_tmod, Int.toNat_natCast]
    omega
  unfold share
  split
  · exact ⟨2, size / 2, by rw [Int.ofNat_tdiv]; rfl, (fits 2).1, (fits 2).2, Nat.two_pos⟩
  · rename_i more
    have pos : 1 ≤ numThread := by
      refine serves.resolve_right fun less => more ?_
      rw [← Int.neg_neg numThread, Int.tdiv_neg, Int.tdiv_eq_zero_of_lt (Int.natCast_nonneg size) less, Int.neg_zero]
    obtain ⟨t, rfl⟩ := Int.eq_ofNat_of_zero_le (show 0 ≤ numThread by omega)
    exact ⟨t, size / t, by rw [Int.ofNat_tdiv], (fits t).1, (fits t).2, by omega⟩

theorem shareNegative {size : Nat} {numThread : Int} (negative : numThread < 0) (fits : -numThread ≤ size) : (share size numThread).1 < 0 := by
  have some : (size : Int).tdiv numThread ≠ 0 := by
    have one : 1 ≤ (size : Int) / -numThread := Int.le_ediv_of_mul_le (by omega) (by omega)
    rw [← Int.neg_neg numThread, Int.tdiv_neg, Int.tdiv_eq_ediv_of_nonneg (Int.natCast_nonneg size)]
    omega
  unfold share
  rw [if_neg some]
  exact negative

def sys (t e : Nat) (lines : List KeyValuePair) (heap : Heap) (thr : Nat → List Work) (main : Main) : Sys :=
  ⟨lines, t, e, lines.length - t * e, heap, thr, main⟩

def calls (t e : Nat) (i : Nat) : List Work := if i < t then [.mergeSort 0 (e - 1)] else []

def shared (t e : Nat) (lines : List KeyValuePair) (i : Nat) : List KeyValuePair := (pieces t e lines).getD i []

theorem fillShared (fits : t * e ≤ lines.length) :
    ∃ heap, fill e (fun i => if i < t then List.replicate e none else []) 0 0 (lines.take (t * e)) = .ok heap ∧
      ∀ i, heap i = (shared t e lines i).map some := by
  have count : (pieces t e lines).length = t := by simp [pieces]
  rcases Nat.eq_zero_or_pos e with rfl | pos
  · refine ⟨_, by rw [Nat.mul_zero, List.take_zero]; rfl, fun i => ?_⟩
    have none : shared t 0 lines i = [] := by
      have empty := piecesSize fits
      unfold shared
      rw [List.getD_eq_getElem?_getD]
      cases here : (pieces t 0 lines)[i]? with
      | none => rfl
      | some piece => exact List.length_eq_zero_iff.mp (empty piece (List.mem_of_getElem? here))
    rw [none]
    simp
  · obtain ⟨heap, filled, arrays, others⟩ := fillPieces (pieces t e lines) (fun i => if i < t then List.replicate e none else []) 0 pos
      (piecesSize fits) fun i less => by
        rw [count] at less
        simp only [Nat.zero_add, if_pos less]
    rw [piecesFlatten] at filled
    refine ⟨heap, filled, fun i => ?_⟩
    unfold shared
    rw [List.getD_eq_getElem?_getD]
    cases here : (pieces t e lines)[i]? with
    | none =>
      rw [List.getElem?_eq_none_iff, count] at here
      rw [others i (.inr (by omega)), if_neg (by omega)]
      rfl
    | some piece =>
      have array := arrays i piece here
      rwa [Nat.zero_add] at array

theorem startShared (records : List Record) {numThread : Int} (few : records.length < 2 ^ 31) (serves : Serves records.length numThread) :
    ∃ t e heap, start numThread (file records) = .ok (sys t e (records.map Record.line) heap (calls t e) .join) ∧
      t * e ≤ records.length ∧ ∀ i, heap i = (shared t e (records.map Record.line) i).map some := by
  have parsed := parseFile records [] [] (Nat.zero_le _) (by simpa using few)
  rw [List.nil_append] at parsed
  have size : (records.map Record.line).length = records.length := List.length_map _
  rw [← size] at serves ⊢
  generalize records.map Record.line = lines at *
  obtain ⟨t, e, shares, fits, rest, _⟩ := shareSpec lines.length serves
  obtain ⟨heap, filled, arrays⟩ := fillShared fits
  refine ⟨t, e, heap, ?_, fits, arrays⟩
  have left : lines.length - (lines.length - t * e) = t * e := by omega
  simp only [start, parsed, bind, Except.bind, shares, rest, left, Int.toNat_natCast]
  rw [if_neg (by rcases serves with pos | less <;> omega)]
  simp only [pure, Except.pure]
  rw [if_neg (Int.not_lt.mpr (Int.natCast_nonneg t))]
  simp only [filled]
  rfl

/-! ### Turns -/

theorem stepCases (heap : Heap) (arr : Nat) (work : List Work) :
    (∃ b work', step heap arr work = .ok (update heap arr b, work') ∧ next (heap arr, work) = some (b, work')) ∨
      next (heap arr, work) = none := by
  rw [stepFrame]
  unfold next
  cases stepIn (heap arr) work with
  | error e => exact .inr rfl
  | ok s => exact .inl ⟨s.1, s.2, rfl, rfl⟩

def gathered (t e : Nat) (lines : List KeyValuePair) : List KeyValuePair :=
  ((pieces t e lines).map sorted).flatten ++ lines.drop (t * e)

theorem gatheredSorted (t e : Nat) (lines : List KeyValuePair) : sorted (gathered t e lines) = sorted lines := by
  have same : sorted _ = sorted _ := sortPieces (pieces t e lines) (lines.drop (t * e))
  rwa [piecesFlatten, List.take_append_drop] at same

theorem gatheredLength (t e : Nat) (lines : List KeyValuePair) : (gathered t e lines).length = lines.length := by
  have same := congrArg List.length (gatheredSorted t e lines)
  rwa [sortLength, sortLength] at same

/-- The steps that are left: each thread is on its way to its sorted share, and `main` to
the sorted lines. -/
inductive Going (t e : Nat) (lines : List KeyValuePair) : Sys → Nat → Prop where
  | join {heap thr left last}
      (ahead : Ahead next (fun i => (heap i, thr i)) left fun i => ((sorted (shared t e lines i)).map some, []))
      (others : ∀ i, t ≤ i → left i = 0)
      (later : Path next ((gathered t e lines).map some, [.mergeSort 0 (lines.length - 1)]) last ((sorted lines).map some, [])) :
      Going t e lines (sys t e lines heap thr .join) (∑ i ∈ Finset.range t, left i + (last + 2))
  | sorting {heap thr work n} (quiet : ∀ i, thr i = []) (later : Path next (heap t, work) n ((sorted lines).map some, [])) :
      Going t e lines (sys t e lines heap thr (.sorting work)) (n + 1)
  | written {heap thr} (quiet : ∀ i, thr i = []) :
      Going t e lines (sys t e lines heap thr (.written ((sorted lines).flatMap KeyValuePair.value))) 0

variable {heap : Heap} {thr : Nat → List Work} {main : Main} {left : Nat → Nat} {n last : Nat}

theorem mainStops {r : Stop} (stop : mainStep s = .error r) : machine.step s none = .error r := congrArg (Except.map (·, ())) stop
theorem mainTurn (turn : mainStep s = .ok s') : machine.step s none = .ok (s', ()) := congrArg (Except.map (·, ())) turn

theorem threadIdle (quiet : thr i = []) : machine.step (sys t e lines heap thr main) (some i) = .error .idle := by
  have idle : threadStep (sys t e lines heap thr main) i = .error .idle := by
    unfold threadStep
    rw [show (sys t e lines heap thr main).thr i = [] from quiet]
    rfl
  exact congrArg (Except.map (·, ())) idle

theorem threadTurn (ran : step heap i (thr i) = .ok (update heap i b, work)) :
    machine.step (sys t e lines heap thr main) (some i) = .ok (sys t e lines (update heap i b) (update thr i work) main, ()) := by
  have turn : threadStep (sys t e lines heap thr main) i = .ok (sys t e lines (update heap i b) (update thr i work) main) := by
    unfold threadStep
    rw [show step (sys t e lines heap thr main).heap i ((sys t e lines heap thr main).thr i) = _ from ran]
    rfl
  exact congrArg (Except.map (·, ())) turn

theorem gatherShared (fits : t * e ≤ lines.length) (arrays : ∀ i < t, heap i = (sorted (shared t e lines i)).map some) :
    gather e heap 0 0 (t * e) = .ok ((pieces t e lines).map sorted).flatten := by
  have size : ((pieces t e lines).map sorted).flatten.length = t * e := by
    have all := gatheredLength t e lines
    rw [gathered, List.length_append, List.length_drop] at all
    omega
  rcases Nat.eq_zero_or_pos e with rfl | pos
  · rw [Nat.mul_zero] at size ⊢
    rw [List.length_eq_zero_iff.mp size]
    rfl
  · rw [← size]
    refine gatherPieces _ 0 pos (fun piece mem => ?_) fun i piece here => ?_
    · obtain ⟨piece, inside, rfl⟩ := List.mem_map.mp mem
      rw [sortLength]
      exact piecesSize fits piece inside
    · rw [List.getElem?_map, Option.map_eq_some_iff] at here
      obtain ⟨piece, here, rfl⟩ := here
      have less : i < t := by
        have less := (List.getElem?_eq_some_iff.mp here).1
        unfold pieces at less
        rwa [List.length_map, List.length_range] at less
      rw [Nat.zero_add, arrays i less, shared, List.getD_eq_getElem?_getD, here]
      rfl

theorem joinTurn (fits : t * e ≤ lines.length) (quiet : ∀ i < t, thr i = [])
    (arrays : ∀ i < t, heap i = (sorted (shared t e lines i)).map some) :
    machine.step (sys t e lines heap thr .join) none = .ok (sys t e lines (update heap t ((gathered t e lines).map some)) thr
      (.sorting [.mergeSort 0 (lines.length - 1)]), ()) := by
  have size : lines.length - (lines.length - t * e) = t * e := by omega
  apply mainTurn
  simp only [mainStep, sys, size, gatherShared fits arrays]
  rw [if_pos quiet]
  rfl

theorem joinIdle (busy : ¬ ∀ i < t, thr i = []) : machine.step (sys t e lines heap thr .join) none = .error .idle :=
  mainStops (if_neg busy)

theorem sortingTurn (ran : step heap t work = .ok (update heap t b, work')) :
    machine.step (sys t e lines heap thr (.sorting work)) none = .ok (sys t e lines (update heap t b) thr (.sorting work'), ()) := by
  apply mainTurn
  cases work with
  | nil => cases ran
  | cons w rest =>
    unfold mainStep sys
    dsimp only
    rw [ran]
    rfl

theorem writeTurn (array : heap t = (sorted lines).map some) : machine.step (sys t e lines heap thr (.sorting [])) none =
    .ok (sys t e lines heap thr (.written ((sorted lines).flatMap KeyValuePair.value)), ()) := by
  have wrote := fwriteFile (sorted lines) [] array
  rw [sortLength] at wrote
  apply mainTurn
  unfold mainStep sys
  dsimp only
  rw [show fwrite heap t 0 lines.length = _ from wrote]
  rfl

/-! ### Runs -/

theorem stateUpdate (heap : Heap) (thr : Nat → List Work) (i : Nat) (b : Block) (work : List Work) :
    (fun j => (update heap i b j, update thr i work j)) = update (fun j => (heap j, thr j)) i (b, work) := by
  funext j
  by_cases same : j = i
  · subst j
    rw [update_self, update_self, update_self]
  · rw [update_of_ne same, update_of_ne same, update_of_ne same]

def Turn (t e : Nat) (lines : List KeyValuePair) (s : Sys) (n : Nat) (a : Option Nat) : Prop :=
  ∃ s' m, machine.step s a = .ok (s', ()) ∧ n = m + 1 ∧ Going t e lines s' m

section
variable (fits : t * e ≤ lines.length)
  (ahead : Ahead next (fun i => (heap i, thr i)) left fun i => ((sorted (shared t e lines i)).map some, []))
  (others : ∀ i, t ≤ i → left i = 0)
  (later : Path next ((gathered t e lines).map some, [.mergeSort 0 (lines.length - 1)]) last ((sorted lines).map some, []))
include ahead others later

theorem threadGoes (busy : thr i ≠ []) :
    Turn t e lines (sys t e lines heap thr .join) (∑ i ∈ Finset.range t, left i + (last + 2)) (some i) := by
  rcases stepCases heap i (thr i) with ⟨b, work, ran, here⟩ | stopped
  · obtain ⟨m, count, nearer⟩ := ahead.turn here
    have less : i < t := by
      by_contra more
      rw [others i (Nat.le_of_not_lt more)] at count
      cases count
    rw [← stateUpdate] at nearer
    have still : ∀ j, t ≤ j → update left i m j = 0 := fun j more => by
      rw [update_of_ne (by omega)]
      exact others j more
    rw [turnsLeft (Finset.mem_range.mpr less) count]
    exact ⟨_, _, threadTurn ran, Nat.add_right_comm _ _ _, .join nearer still later⟩
  · exact absurd (congrArg Prod.snd (ahead.ended stopped).2) busy

include fits

theorem joinGoes (quiet : ∀ i < t, thr i = []) :
    Turn t e lines (sys t e lines heap thr .join) (∑ i ∈ Finset.range t, left i + (last + 2)) none := by
  have ended : ∀ i < t, left i = 0 ∧ heap i = (sorted (shared t e lines i)).map some := fun i less => by
    have stopped : next (heap i, thr i) = none := by rw [quiet i less, nextIdle]
    exact ⟨(ahead.ended stopped).1, congrArg Prod.fst (ahead.ended stopped).2⟩
  have all : ∀ i, thr i = [] := fun i => by
    rcases Nat.lt_or_ge i t with less | more
    · exact quiet i less
    · have path := (ahead i).1
      rw [others i more] at path
      exact congrArg Prod.snd path.zero
  refine ⟨_, last + 1, joinTurn fits quiet fun i less => (ended i less).2, ?_, .sorting all ?_⟩
  · rw [Finset.sum_eq_zero fun i mem => (ended i (Finset.mem_range.mp mem)).1]
    omega
  · rwa [update_self]

end

theorem sortingGoes (quiet : ∀ i, thr i = []) (later : Path next (heap t, work) n ((sorted lines).map some, [])) :
    Turn t e lines (sys t e lines heap thr (.sorting work)) (n + 1) none := by
  rcases stepCases heap t work with ⟨b, work', ran, here⟩ | stopped
  · obtain ⟨m, rfl, later⟩ := later.goes nextIdle here
    exact ⟨_, m + 1, sortingTurn ran, rfl, .sorting quiet (by rwa [update_self])⟩
  · obtain ⟨rfl, ends⟩ := later.ended stopped
    have done : work = [] := congrArg Prod.snd ends
    subst done
    exact ⟨_, 0, writeTurn (congrArg Prod.fst ends), rfl, .written quiet⟩

theorem goingTurn (fits : t * e ≤ lines.length) (h : Going t e lines s n) (a : Option Nat) :
    machine.step s a = .error .idle ∨ Turn t e lines s n a := by
  cases h with
  | @join heap thr left last ahead others later =>
    cases a with
    | none =>
      by_cases quiet : ∀ i < t, thr i = []
      · exact .inr (joinGoes fits ahead others later quiet)
      · exact .inl (joinIdle quiet)
    | some i =>
      by_cases quiet : thr i = []
      · exact .inl (threadIdle quiet)
      · exact .inr (threadGoes ahead others later quiet)
  | sorting quiet later =>
    cases a with
    | none => exact .inr (sortingGoes quiet later)
    | some i => exact .inl (threadIdle (quiet i))
  | written quiet =>
    cases a with
    | none => exact .inl rfl
    | some i => exact .inl (threadIdle (quiet i))

theorem goingOn (fits : t * e ≤ lines.length) (h : Going t e lines s n) :
    s.main = .written ((sorted lines).flatMap KeyValuePair.value) ∨ ∃ a, Turn t e lines s n a := by
  cases h with
  | @join heap thr left last ahead others later =>
    by_cases quiet : ∀ i < t, thr i = []
    · exact .inr ⟨none, joinGoes fits ahead others later quiet⟩
    · push Not at quiet
      obtain ⟨i, less, busy⟩ := quiet
      exact .inr ⟨some i, threadGoes ahead others later busy⟩
  | sorting quiet later => exact .inr ⟨none, sortingGoes quiet later⟩
  | written quiet => exact .inl rfl

theorem Going.writes (fits : t * e ≤ lines.length) (h : Going t e lines s n) : Writes s ((sorted lines).flatMap KeyValuePair.value) := by
  refine ⟨n, fun turns s' os ran => ?_⟩
  obtain ⟨m, rfl, going⟩ := Machine.runCounts (P := Going t e lines) (fun s n a s' o here ok => by
    rcases goingTurn fits here a with idle | ⟨mid, m, turn, count, later⟩
    · rw [idle] at ok
      cases ok
    · cases turn.symm.trans ok
      exact ⟨m, count, later⟩) h ran
  refine ⟨Nat.le_add_right _ _, fun a e failed => ?_, ?_, fun out written => ?_⟩
  · rcases goingTurn fits going a with idle | ⟨mid, k, turn, _⟩
    · cases idle.symm.trans failed
      rfl
    · cases turn.symm.trans failed
  · rcases goingOn fits going with written | ⟨a, mid, k, turn, _⟩
    · exact .inl written
    · exact .inr ⟨a, mid, turn⟩
  · cases going with
    | join => cases written
    | sorting => cases written
    | written => 
      cases written
      rfl

theorem callLeads (fits : t * e ≤ lines.length) (i : Nat) :
    ∃ n, Path next ((shared t e lines i).map some, calls t e i) n ((sorted (shared t e lines i)).map some, []) ∧ (t ≤ i → n = 0) := by
  unfold calls shared
  rw [List.getD_eq_getElem?_getD]
  cases here : (pieces t e lines)[i]? with
  | none =>
    have past := List.getElem?_eq_none_iff.mp here
    unfold pieces at past
    rw [List.length_map, List.length_range] at past
    have none : sorted [] = [] := sortShort (Nat.zero_le _)
    rw [if_neg (Nat.not_lt.mpr past), Option.getD_none, none]
    exact ⟨0, .stay, fun _ => rfl⟩
  | some piece =>
    have less := (List.getElem?_eq_some_iff.mp here).1
    unfold pieces at less
    rw [List.length_map, List.length_range] at less
    obtain ⟨n, path⟩ := sortsAll piece
    rw [piecesSize fits piece (List.mem_of_getElem? here)] at path
    rw [if_pos less]
    exact ⟨n, path, fun more => by omega⟩

theorem goingStart (fits : t * e ≤ lines.length) (arrays : ∀ i, heap i = (shared t e lines i).map some) :
    ∃ n, Going t e lines (sys t e lines heap (calls t e) .join) n := by
  choose left paths others using callLeads fits
  obtain ⟨last, later⟩ := sortsAll (gathered t e lines)
  rw [gatheredSorted, gatheredLength] at later
  refine ⟨_, .join (fun i => ⟨?_, nextIdle⟩) others later⟩
  have path := paths i
  rwa [← arrays i] at path

theorem sortedFile (records : List Record) : (sorted (records.map Record.line)).flatMap KeyValuePair.value = file (sort Record.key records) := by
  unfold sorted file
  rw [sortMap, List.flatMap_map]
  rfl

theorem psortWrites (records : List Record) {numThread : Int} (few : records.length < 2 ^ 31) (serves : Serves records.length numThread) :
    ∃ s, start numThread (file records) = .ok s ∧ Writes s (file (sort Record.key records)) := by
  obtain ⟨t, e, heap, ok, fits, arrays⟩ := startShared records few serves
  rw [← List.length_map (f := Record.line)] at fits
  obtain ⟨n, going⟩ := goingStart fits arrays
  have writes := going.writes fits
  rw [sortedFile] at writes
  exact ⟨_, ok, writes⟩

/-- A file of fewer than `2 ^ 31` records is sorted. -/
theorem psortSorts (records : List Record) (few : records.length < 2 ^ 31) : Sorts records :=
  ⟨sort Record.key records, sortStable _ _, fun _ pos => psortWrites records few (.inl pos)⟩

def sampleRecord (key tag : UInt8) : Record := ⟨key :: 0 :: 0 :: 0 :: tag :: List.replicate 95 0, rfl⟩

theorem psortSortsSample : [sampleRecord 3 0, sampleRecord 1 1, sampleRecord 3 2].length < 2 ^ 31 ∧
    Sorts [sampleRecord 3 0, sampleRecord 1 1, sampleRecord 3 2] :=
  ⟨by decide, psortSorts _ (by decide)⟩

/-- With `2 ^ 31` records the number of lines passes the bound of an `int`. -/
theorem psortOverflows : start 1 (file (List.replicate (2 ^ 31) (sampleRecord 0 0))) = .error .overflow ∧
    ¬ Sorts (List.replicate (2 ^ 31) (sampleRecord 0 0)) := by
  have fails : start 1 (file (List.replicate (2 ^ 31) (sampleRecord 0 0))) = .error .overflow := by
    have parsed := parseOverflows (List.replicate (2 ^ 31) (sampleRecord 0 0)) [] [] (Nat.zero_le _) (Nat.two_pow_pos 31)
      (by rw [List.length_replicate, List.length_nil, Nat.zero_add])
    unfold start
    rw [parsed]
    rfl
  refine ⟨fails, fun ⟨_, _, all⟩ => ?_⟩
  obtain ⟨s, ok, _⟩ := all 1 (le_refl 1)
  rw [fails] at ok
  cases ok

end OpSys.Psort
