import OpSys.Fortune.Main
import Mathlib.Data.List.Forall2

/-! Which entries the modes use. The number is compared with the bounds in four places. -/
namespace OpSys.Fortune
open OpSys.Traced
open OpSys.Strtok (Bytes cstring)
open OpSys.Smash (lines strtol)

def InTable (n : Nat) (i : Int) : Prop := 1 ≤ i ∧ i ≤ n

instance (n : Nat) (i : Int) : Decidable (InTable n i) := inferInstanceAs (Decidable (_ ∧ _))

/-- The error for a number, on `stdout` or in the output file. -/
def Event.isInvalid : Event → Bool
  | .print text | .put text => text == invalidNumber || text == invalidNumber ++ ascii "\n"
  | .access _ => false

/-- What is done for a number, with a table of `n` fortunes: its entry is used, and no
other, or there is the error. -/
structure Admits (n : Nat) (number : Bytes) (trace : List Event) : Prop where
  entry : ∀ i, .access i ∈ trace ↔ InTable n (atoi number) ∧ i = atoi number - 1
  error : ¬ InTable n (atoi number) → ∃ e ∈ trace, e.isInvalid = true

/-- The events of a run line by line, as far as it comes. -/
def ByLine (n : Nat) (texts : List Bytes) (run : Prog Nat) : Prop :=
  ∃ traces : List (List Event), run.trace = traces.flatten ∧ List.Forall₂ (Admits n) (texts.take traces.length) traces ∧
    ∀ c, run.result = .ok c → traces.length = texts.length

variable {fortune fortune' : List Bytes} {number buf : Bytes} {i : Int} {n c : Nat} {counts : Bool} {α : Type} {f : Bytes → Prog α}
  {line : List Bytes → Bytes → Prog (List Bytes × Bool)}

/-! ### One number -/

theorem atoiEmpty (empty : cstring buf = []) : atoi buf = 0 := by
  cases buf with
  | nil => rfl
  | cons c buf =>
    by_cases zero : c = 0
    · rw [zero]
      rfl
    · rw [OpSys.Strtok.cstringCons zero] at empty
      cases empty

theorem endsLineOk (some : atoi buf ≠ 0) : ∃ last, endsLine buf = .ok last := by
  unfold endsLine
  cases here : (cstring buf).getLast? with
  | none => exact absurd (atoiEmpty (List.getLast?_eq_none_iff.mp here)) some
  | some c => exact ⟨_, rfl⟩

theorem entryTrace (fortune : List Bytes) (i : Int) : (entry fortune i).trace = [.access i] := by
  unfold entry
  rw [leaveBind]
  split
  · rfl
  · split <;> rfl

theorem textTrace (fortune : List Bytes) (i : Int) : (text fortune i).trace = [.access i] := by
  have whole := entryTrace fortune i
  unfold text
  cases ran : entry fortune i with
  | mk ts r =>
    rw [ran] at whole
    cases whole
    cases r with
    | error e => rfl
    | ok block => rfl

/-- The event uses no entry but this. -/
def Event.Only (i : Int) (e : Event) : Prop := ∀ j, e = .access j → j = i

theorem accessUses {x : Prog α} (access : x.trace = [.access i]) : ∀ e ∈ x.trace, e.Only i := by
  intro e mem j same
  rw [access, List.mem_singleton] at mem
  cases mem.symm.trans same
  rfl

theorem textOnly (later : ∀ s, ∀ e ∈ (f s).trace, e.Only i) (j : Int) : .access j ∈ (text fortune i >>= f).trace ↔ j = i := by
  have here := textTrace fortune i
  constructor
  · intro mem
    exact bindAll (P := Event.Only i) (accessUses here) (fun s _ => later s) _ mem j rfl
  · rintro rfl
    cases ran : text fortune j with
    | mk ts r =>
      rw [ran] at here
      cases here
      cases r with
      | error e => exact List.mem_cons_self
      | ok s => exact List.mem_cons_self

theorem dieAdmits {e : Event} (invalid : e.isInvalid = true) (out : ¬ InTable n (atoi number)) : Admits n number [e] := by
  refine ⟨fun i => iff_of_false (fun mem => ?_) fun here => out here.1, fun _ => ⟨e, List.mem_cons_self, invalid⟩⟩
  rw [← List.mem_singleton.mp mem] at invalid
  cases invalid

theorem usesAdmits {trace : List Event} (uses : ∀ j, .access j ∈ trace ↔ j = atoi number - 1) :
    Admits n number trace ↔ InTable n (atoi number) := by
  constructor
  · intro admits
    exact ((admits.entry _).mp ((uses _).mpr rfl)).1
  · intro inside
    exact ⟨fun i => by rw [uses, and_iff_right inside], fun out => absurd inside out⟩

theorem numberModeAdmits (fortune : List Bytes) (number : Bytes) :
    Admits fortune.length number (numberMode fortune.length fortune number).trace ↔ atoi number ≠ 0 := by
  unfold numberMode
  dsimp only
  split
  · rename_i out
    exact iff_of_true (dieAdmits (by decide) (by unfold InTable; omega)) (by omega)
  · rename_i low
    rw [usesAdmits (textOnly fun s e mem => by rw [List.mem_singleton.mp mem]; exact nofun)]
    unfold InTable
    omega

theorem numberOutputAdmits (fortune : List Bytes) (number : Bytes) :
    Admits fortune.length number (numberOutput fortune number).trace ↔ InTable fortune.length (atoi number) := by
  unfold numberOutput
  exact usesAdmits (textOnly fun s e mem => by rw [List.mem_singleton.mp mem]; exact nofun)

theorem textUses (fortune : List Bytes) (i : Int) : ∀ e ∈ (text fortune i).trace, e.Only i := accessUses (textTrace fortune i)

theorem cutTrace (fortune : List Bytes) (i len : Int) : (cut fortune i len).trace = [.access i] := by
  have whole := entryTrace fortune i
  unfold cut
  cases ran : entry fortune i with
  | mk ts r =>
    rw [ran] at whole
    cases whole
    cases r with
    | error e => rfl
    | ok block =>
      rw [bindOk]
      split <;> rfl

theorem cutUses (fortune : List Bytes) (i len : Int) : ∀ e ∈ (cut fortune i len).trace, e.Only i := accessUses (cutTrace fortune i len)

theorem leaveUses {t : Event} {next : Unit → Prog α} (quiet : ∀ j, t ≠ .access j) (later : ∀ e ∈ (next ()).trace, e.Only i) :
    ∀ e ∈ (leave t >>= next).trace, e.Only i := by
  rw [leaveBind]
  intro e mem
  rcases List.mem_cons.mp mem with rfl | mem
  · exact fun j same => absurd same (quiet j)
  · exact later e mem

theorem printQuiet (s : Bytes) (j : Int) : Event.print s ≠ .access j := fun same => by cases same

theorem putQuiet (s : Bytes) (j : Int) : Event.put s ≠ .access j := fun same => by cases same

theorem pureUses (a : α) : ∀ e ∈ (pure a : Prog α).trace, e.Only i := fun e mem => by cases mem

theorem batchLineAdmits (fortune : List Bytes) (buf : Bytes) :
    Admits fortune.length buf (batchLine fortune.length fortune buf).trace ↔ atoi buf ≠ 0 := by
  unfold batchLine
  dsimp only
  split
  · rename_i out
    exact iff_of_true (dieAdmits (by decide +kernel) (by unfold InTable; omega)) (by omega)
  rename_i low
  have inside : InTable fortune.length (atoi buf) ↔ atoi buf ≠ 0 := by
    unfold InTable
    omega
  cases ends : endsLine buf with
  | error e =>
    have zero : atoi buf = 0 := by
      by_contra some
      obtain ⟨_, ok⟩ := endsLineOk some
      cases ends.symm.trans ok
    refine iff_of_false (fun admits => ?_) fun more => more zero
    obtain ⟨e, mem, _⟩ := admits.error fun bad => inside.mp bad zero
    cases mem
  | ok last =>
    rw [liftBind, ← inside]
    cases last with
    | true => exact usesAdmits (textOnly fun s => leaveUses (printQuiet _) (pureUses _))
    | false =>
      refine usesAdmits (textOnly fun s => ?_)
      refine bindAll (cutUses _ _ _) fun _ _ => ?_
      refine bindAll (textUses _ _) fun s _ => ?_
      exact leaveUses (printQuiet s) (pureUses _)

theorem batchOutputLineAdmits (fortune : List Bytes) (buf : Bytes) :
    Admits fortune.length buf (batchOutputLine fortune.length fortune buf).trace := by
  unfold batchOutputLine
  dsimp only
  split
  · rename_i out
    exact dieAdmits (by decide +kernel) (by unfold InTable; omega)
  rename_i low
  have inside : InTable fortune.length (atoi buf) := by
    unfold InTable
    omega
  obtain ⟨last, ends⟩ := endsLineOk (show atoi buf ≠ 0 by omega)
  rw [ends, liftBind]
  cases last with
  | true =>
    refine (usesAdmits (textOnly fun s => ?_)).mpr inside
    exact leaveUses (putQuiet s) (leaveUses (putQuiet _) (pureUses _))
  | false =>
    refine (usesAdmits (textOnly fun s => ?_)).mpr inside
    exact leaveUses (putQuiet s) (pureUses _)

/-! ### A batch file -/

theorem cutLength {len : Int} (ok : (cut fortune i len).result = .ok fortune') : fortune'.length = fortune.length := by
  unfold cut at ok
  obtain ⟨block, _, ok, _⟩ := bindDone ok
  split at ok
  · cases ok
    exact List.length_set
  · cases ok

theorem batchLineLength (ok : (batchLine n fortune buf).result = .ok (fortune', counts)) : fortune'.length = fortune.length := by
  unfold batchLine at ok
  dsimp only at ok
  split at ok
  · cases ok
    rfl
  obtain ⟨last, _, _, ok⟩ := liftDone ok
  cases last with
  | true =>
    obtain ⟨s, _, ok, _⟩ := bindDone ok
    cases ok
    rfl
  | false =>
    obtain ⟨s, _, ok, _⟩ := bindDone ok
    obtain ⟨fortune, shorter, ok, _⟩ := bindDone ok
    obtain ⟨s, _, ok, _⟩ := bindDone ok
    cases ok
    exact cutLength shorter

theorem batchOutputLineSame (ok : (batchOutputLine n fortune buf).result = .ok (fortune', counts)) : fortune' = fortune := by
  unfold batchOutputLine at ok
  dsimp only at ok
  split at ok
  · cases ok
    rfl
  obtain ⟨last, _, _, ok⟩ := liftDone ok
  cases last with
  | true =>
    obtain ⟨s, _, ok, _⟩ := bindDone ok
    cases ok
    rfl
  | false =>
    obtain ⟨s, _, ok, _⟩ := bindDone ok
    cases ok
    rfl

/-- A line after the other, while the table keeps its length. -/
theorem batchByLine {texts : List Bytes} (size : fortune.length = n)
    (admits : ∀ fortune buf, fortune.length = n → buf ∈ texts → Admits n buf (line fortune buf).trace)
    (keeps : ∀ fortune buf fortune' counts, (line fortune buf).result = .ok (fortune', counts) → fortune'.length = fortune.length) :
    ByLine n texts (batchLoop line fortune c texts) := by
  induction texts generalizing fortune c with
  | nil => exact ⟨[], rfl, .nil, fun _ _ => rfl⟩
  | cons buf texts ih =>
    have here := admits fortune buf size List.mem_cons_self
    unfold batchLoop
    cases ran : line fortune buf with
    | mk trace r =>
      rw [ran] at here
      cases r with
      | error e => exact ⟨[trace], (List.append_nil trace).symm, .cons here .nil, nofun⟩
      | ok next =>
        obtain ⟨fortune', counts⟩ := next
        have kept := keeps fortune buf fortune' counts (by rw [ran])
        obtain ⟨traces, whole, all, ended⟩ := @ih fortune' (if counts then c + 1 else c) (kept.trans size)
          fun fortune buf size mem => admits fortune buf size (List.mem_cons_of_mem _ mem)
        rw [bindOk]
        dsimp only
        refine ⟨trace :: traces, by rw [whole]; rfl, .cons here all, fun c ok => ?_⟩
        rw [List.length_cons, List.length_cons, ended c ok]

/-- Batch mode with `-o` is right for every number; the two modes for `stdout` take 0 for a
number, and number mode with `-o` takes every one. -/
theorem modesAdmit (fortune : List Bytes) :
    (∀ number, (Admits fortune.length number (numberMode fortune.length fortune number).trace ↔ atoi number ≠ 0) ∧
      (Admits fortune.length number (batchLine fortune.length fortune number).trace ↔ atoi number ≠ 0) ∧
      (Admits fortune.length number (numberOutput fortune number).trace ↔ InTable fortune.length (atoi number)) ∧
      Admits fortune.length number (batchOutputLine fortune.length fortune number).trace) ∧
    ∀ file, ((∀ l ∈ lines file, atoi l ≠ 0) → ByLine fortune.length (lines file) (batchLoop (batchLine fortune.length) fortune 0 (lines file))) ∧
      ByLine fortune.length (lines file) (batchLoop (batchOutputLine fortune.length) fortune 0 (lines file)) := by
  refine ⟨fun number => ⟨numberModeAdmits _ _, batchLineAdmits _ _, numberOutputAdmits _ _, batchOutputLineAdmits _ _⟩, fun file => ⟨fun some => ?_, ?_⟩⟩
  · refine batchByLine rfl (fun fortune' buf size mem => ?_) fun _ _ _ _ ok => batchLineLength ok
    rw [← size]
    exact (batchLineAdmits fortune' buf).mpr (some buf mem)
  · refine batchByLine rfl (fun fortune' buf size _ => ?_) fun _ _ _ _ ok => by rw [batchOutputLineSame ok]
    rw [← size]
    exact batchOutputLineAdmits fortune' buf

/-- One fortune, and the numbers 0 and 2. -/
theorem numbersOutside : (numberMode 1 [ascii "hi\x00"] (ascii "0")).trace = [.access (-1)] ∧
    (batchLine 1 [ascii "hi\x00"] (ascii "x\n")).trace = [.access (-1)] ∧ (numberOutput [ascii "hi\x00"] (ascii "2")).trace = [.access 1] ∧
    ¬ ∀ fortune number, Admits fortune.length number (numberMode fortune.length fortune number).trace := by
  refine ⟨by decide +kernel, by decide +kernel, by decide +kernel, fun all => ?_⟩
  have trace : (numberMode 1 [ascii "hi\x00"] (ascii "0")).trace = [.access (-1)] := by decide +kernel
  have admits : Admits 1 (ascii "0") (numberMode 1 [ascii "hi\x00"] (ascii "0")).trace := all [ascii "hi\x00"] (ascii "0")
  rw [trace] at admits
  have zero : ¬ InTable 1 (atoi (ascii "0")) := by decide +kernel
  exact zero ((admits.entry _).mp List.mem_cons_self).1

end OpSys.Fortune
