import OpSys.Fortune.Batch

/-! The commands of the usage text, from the arguments to the bytes that come out. -/
namespace OpSys.Fortune
open OpSys.Traced
open OpSys.Strtok (Bytes cstring)
open OpSys.Smash (lines)

/-- What is on `stdout` and in the output file at the end. -/
structure Outcome where
  stdout : Bytes
  file : Bytes
  result : Except Stop Unit

def outcome (x : Prog Unit) : Outcome := ⟨printed x.trace, written x.trace, x.result⟩

/-- The argument is not taken for a flag. -/
def Operand (arg : Bytes) : Prop := arg ∉ [ascii "-f", ascii "-n", ascii "-b", ascii "-o"]

/-- `num[0]` and `fortune`, from the file with this name. -/
def table (files : Bytes → Option Bytes) (memory : Nat → Nat → UInt8) (name : Bytes) : Prog (Int × List Bytes) := do
  let file ← openFile files name (ascii "ERROR: Can't open fortune file\n")
  load memory file

variable {files : Bytes → Option Bytes} {creates : Bytes → Bool} {memory : Nat → Nat → UInt8} {prog name arg batchName out file batchFile h1 h2 s : Bytes}
  {sections : List (List Bytes)} {fortune fortune' ls argv : List Bytes} {flags : Flags} {counter i n : Nat} {num0 : Int} {num : List Int} {α : Type} {a : α}

/-- What the commands give when `texts` are the fortunes of the file. With `-o` the output file
gets what `stdout` gets without it, apart from the report. -/
structure Serves (files : Bytes → Option Bytes) (creates : Bytes → Bool) (memory : Nat → Nat → UInt8) (prog name : Bytes) (texts : List Bytes) : Prop where
  number : ∀ arg, Operand arg → atoi arg ≠ 0 → outcome (main files creates memory [prog, ascii "-f", name, ascii "-n", arg]) =
    if InTable texts.length (atoi arg) then ⟨texts.getD (atoi arg - 1).toNat [], [], .ok ()⟩ else ⟨invalidNumber, [], .error (.exit 1)⟩
  numberOut : ∀ arg out, Operand arg → Operand out → creates out = true → InTable texts.length (atoi arg) →
    outcome (main files creates memory [prog, ascii "-f", name, ascii "-n", arg, ascii "-o", out]) = ⟨[], texts.getD (atoi arg - 1).toNat [], .ok ()⟩
  batch : ∀ batchName batchFile, Operand batchName → files batchName = some batchFile → Plain texts batchFile →
    outcome (main files creates memory [prog, ascii "-f", name, ascii "-b", batchName]) = ⟨entries texts batchFile ++ report batchFile, [], status batchFile⟩
  batchOut : ∀ batchName batchFile out, Operand batchName → files batchName = some batchFile → Operand out → creates out = true → batchName ≠ out →
    Plain texts batchFile → outcome (main files creates memory [prog, ascii "-f", name, ascii "-b", batchName, ascii "-o", out]) =
      ⟨report batchFile, entries texts batchFile, status batchFile⟩

/-! ### The flags -/

theorem Holds.strings (holds : Holds fortune sections) : (∀ block ∈ fortune, 0 ∈ block) ∧ fortune.map cstring = sections.map List.flatten := by
  have both : List.Forall₂ (fun block sec => 0 ∈ block ∧ cstring block = sec.flatten) fortune sections := List.Forall₂.imp (fun _ _ => stringIff.mp) holds
  rw [List.forall₂_and_left] at both
  refine ⟨both.1, ?_⟩
  rw [← List.forall₂_eq_eq_eq, List.forall₂_map_left_iff, List.forall₂_map_right_iff]
  exact both.2

section
variable (format : Format file h1 h2 sections) (loads : Loads memory h1 h2 sections) (opens : files name = some file) (operand : Operand name)
include format loads opens operand

end

example : (outcome (main (fun name => if name = ascii "a" then some (ascii "1\n4\n%\nhi\n") else some (ascii "1\n")) (fun _ => true) (fun _ _ => 0)
    [ascii "fortune", ascii "-f", ascii "a", ascii "-b", ascii "b", ascii "-o", ascii "c"])).file = ascii "hi\n\n\n" := by decide +kernel

end OpSys.Fortune
