import OpSys.Lib.Transition
import Mathlib.Algebra.Group.Int.Defs
import Mathlib.Algebra.GroupWithZero.Nat

/-! `psort`: `main`, and the threads it makes. A thread touches one cell of its array in a
step at most, and the threads take steps in any order. The environment does its part: files
open, memory and stack suffice, and threads are created. Every other `int` stays within
`num_lines`. -/
namespace OpSys.Psort
open OpSys.Transition

abbrev Bytes := List UInt8

def lineLength : Nat := 100

/-- `idle`: a thread has exited, or `main` waits or has returned. `overflow`: an `int`
passes its bound. `wild`: an address outside of its block. `unset`: memory is read that has
not been set. `division`: by zero. -/
inductive Stop where
  | idle
  | overflow
  | wild
  | unset
  | division
  deriving DecidableEq

structure KeyValuePair where
  key : Int
  value : Bytes
  deriving DecidableEq

/-! ### Memory -/

abbrev Block := List (Option KeyValuePair)
abbrev Heap := Nat → Block

def load (heap : Heap) (arr : Nat) (i : Int) : Except Stop KeyValuePair :=
  if i < 0 then .error .wild
  else match (heap arr)[i.toNat]? with
    | none => .error .wild
    | some none => .error .unset
    | some (some x) => .ok x

def store (heap : Heap) (arr : Nat) (i : Int) (x : KeyValuePair) : Except Stop Heap :=
  if 0 ≤ i ∧ i < (heap arr).length then .ok (Function.update heap arr ((heap arr).set i.toNat (some x)))
  else .error .wild

/-! ### `mergeSort` -/

/-- What is left to do, innermost call first: a call of `mergeSort`; the first two loops of
`merge`, with what has been copied; and its last three, with what is left of `L` and `R`. -/
inductive Work where
  | mergeSort (l r : Int)
  | copyL (l m r : Int) (L : List KeyValuePair)
  | copyR (l m r : Int) (L R : List KeyValuePair)
  | mergeBack (k : Int) (L R : List KeyValuePair)
  deriving DecidableEq

def merge (l m r : Int) : Work := .copyL l m r []

def step (heap : Heap) (arr : Nat) : List Work → Except Stop (Heap × List Work)
  | [] => .error .idle
  | .mergeSort l r :: rest =>
    if l < r then
      let m := l + (r - l).tdiv 2
      .ok (heap, .mergeSort l m :: .mergeSort (m + 1) r :: merge l m r :: rest)
    else .ok (heap, rest)
  | .copyL l m r L :: rest =>
    if L.length < m - l + 1 then do
      let x ← load heap arr (l + L.length)
      return (heap, .copyL l m r (L ++ [x]) :: rest)
    else .ok (heap, .copyR l m r L [] :: rest)
  | .copyR l m r L R :: rest =>
    if R.length < r - m then do
      let x ← load heap arr (m + 1 + R.length)
      return (heap, .copyR l m r L (R ++ [x]) :: rest)
    else .ok (heap, .mergeBack l L R :: rest)
  | .mergeBack k (a :: L) (b :: R) :: rest =>
    if a.key ≤ b.key then do
      let heap ← store heap arr k a
      return (heap, .mergeBack (k + 1) L (b :: R) :: rest)
    else do
      let heap ← store heap arr k b
      return (heap, .mergeBack (k + 1) (a :: L) R :: rest)
  | .mergeBack k (a :: L) [] :: rest => do
    let heap ← store heap arr k a
    return (heap, .mergeBack (k + 1) L [] :: rest)
  | .mergeBack k [] (b :: R) :: rest => do
    let heap ← store heap arr k b
    return (heap, .mergeBack (k + 1) [] R :: rest)
  | .mergeBack _ [] [] :: rest => .ok (heap, rest)

/-! ### `main` up to the threads -/

/-- `*(int *)buffer` -/
def key (buffer : Bytes) : Int := (BitVec.ofNat 32 ((buffer.take 4).foldr (fun b n => b.toNat + 256 * n) 0)).toInt

/-- `buffer` is what has been read into it so far; `num_lines` is the number of lines. -/
def parse (lines : List KeyValuePair) (buffer inputFile : Bytes) : Except Stop (List KeyValuePair) :=
  if inputFile = [] then .ok lines
  else
    let buffer := inputFile.take lineLength ++ buffer.drop (inputFile.take lineLength).length
    if 2 ^ 31 ≤ lines.length + 1 then .error .overflow
    else if buffer.length < lineLength then .error .unset
    else parse (lines ++ [⟨key buffer, buffer⟩]) buffer (inputFile.drop lineLength)
termination_by inputFile.length
decreasing_by
  have some : 0 < inputFile.length := List.length_pos_iff.mpr (by assumption)
  rw [List.length_drop]
  unfold lineLength
  omega

def fill (linesEachThread : Int) (heap : Heap) (j : Nat) (k : Int) : List KeyValuePair → Except Stop Heap
  | [] => .ok heap
  | line :: rest => do
    let heap ← store heap j k line
    if k = linesEachThread - 1 then fill linesEachThread heap (j + 1) 0 rest
    else fill linesEachThread heap j (k + 1) rest

inductive Main where
  | join
  | sorting (work : List Work)
  | written (outputFile : Bytes)

/-- `parent_array[t]` is the block at `t`, and `final_array` comes after them. -/
structure Sys where
  lines : List KeyValuePair
  numThread : Nat
  linesEachThread : Int
  remainder : Nat
  heap : Heap
  thr : Nat → List Work
  main : Main

def share (numLines numThread : Int) : Int × Int :=
  if numLines.tdiv numThread = 0 then (2, numLines.tdiv 2) else (numThread, numLines.tdiv numThread)

def start (numThread : Int) (inputFile : Bytes) : Except Stop Sys := do
  let lines ← parse [] [] inputFile
  if numThread = 0 then throw .division
  let (numThread, linesEachThread) := share lines.length numThread
  -- the arrays on the stack have `num_thread` elements
  if numThread < 0 then throw .wild
  let remainder := (lines.length : Int).tmod numThread
  let blank t := if t < numThread.toNat then List.replicate linesEachThread.toNat none else []
  let heap ← fill linesEachThread blank 0 0 (lines.take (lines.length - remainder.toNat))
  return {
    lines, linesEachThread, heap
    numThread := numThread.toNat
    remainder := remainder.toNat
    thr t := if t < numThread.toNat then [.mergeSort 0 (linesEachThread - 1)] else []
    main := .join }

/-! ### Threads, and the rest of `main` -/

def gather (linesEachThread : Int) (heap : Heap) (j : Nat) (k : Int) : Nat → Except Stop (List KeyValuePair)
  | 0 => .ok []
  | n + 1 => do
    let x ← load heap j k
    let rest ← if k = linesEachThread - 1 then gather linesEachThread heap (j + 1) 0 n
      else gather linesEachThread heap j (k + 1) n
    return x :: rest

def fwrite (heap : Heap) (arr i : Nat) : Nat → Except Stop Bytes
  | 0 => .ok []
  | n + 1 => do
    let x ← load heap arr i
    let rest ← fwrite heap arr (i + 1) n
    return x.value ++ rest

def mainStep (s : Sys) : Except Stop Sys :=
  match s.main with
  | .join =>
    if ∀ t < s.numThread, s.thr t = [] then do
      let numLines := s.lines.length - s.remainder
      let sorted ← gather s.linesEachThread s.heap 0 0 numLines
      let finalArray := (sorted ++ s.lines.drop numLines).map some
      return {s with
        heap := Function.update s.heap s.numThread finalArray
        main := .sorting [.mergeSort 0 (s.lines.length - 1)]}
    else .error .idle
  | .sorting [] => do
    let outputFile ← fwrite s.heap s.numThread 0 s.lines.length
    return {s with main := .written outputFile}
  | .sorting work => do
    let (heap, work) ← step s.heap s.numThread work
    return {s with heap, main := .sorting work}
  | .written _ => .error .idle

def threadStep (s : Sys) (t : Nat) : Except Stop Sys := do
  let (heap, work) ← step s.heap t (s.thr t)
  return {s with heap, thr := Function.update s.thr t work}

/-- `none` is `main`, and `some t` is thread `t`. -/
def machine : Machine Sys (Option Nat) Unit Stop where
  init s := ∃ numThread inputFile, start numThread inputFile = .ok s
  step s
    | none => (mainStep s).map (·, ())
    | some t => (threadStep s t).map (·, ())

end OpSys.Psort
