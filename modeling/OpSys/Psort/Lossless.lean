import OpSys.Psort.Sorted

/-! Whether the lines hold the bytes of the input and no others. Each of them has
`LINE_LENGTH` bytes, also where fewer were read. -/
namespace OpSys.Psort
open OpSys.Transition OpSys.Interleave OpSys.StableSort Function

/-! ### What is expected -/

/-- The lines are the input, and what is written holds the same bytes. -/
def Lossless (inputFile : Bytes) : Prop :=
  (∃ lines, parse [] [] inputFile = .ok lines ∧ lines.flatMap KeyValuePair.value = inputFile) ∧
  ∀ numThread s, start numThread inputFile = .ok s → ∀ turns s' os, machine.run s turns = .ok (s', os) →
    ∀ outputFile, s'.main = .written outputFile → outputFile.Perm inputFile

variable {lines lines' : List KeyValuePair} {buffer inputFile : Bytes} {s : Sys}

/-! ### The lines -/

structure Sized (lines : List KeyValuePair) : Prop where
  few : lines.length < 2 ^ 31
  each : ∀ x ∈ lines, x.value.length = lineLength

theorem parseSized (sized : Sized lines) (old : buffer.length ≤ lineLength) (ok : parse lines buffer inputFile = .ok lines') : Sized lines' := by
  induction size : inputFile.length using Nat.strong_induction_on generalizing lines buffer inputFile with
  | _ n ih =>
    rw [parse] at ok
    split at ok
    · cases ok
      exact sized
    · rename_i some
      dsimp only at ok
      split at ok
      · cases ok
      · rename_i few
        split at ok
        · cases ok
        · rename_i full
          have exact_ : (inputFile.take lineLength ++ buffer.drop (inputFile.take lineLength).length).length = lineLength := by
            have short := List.length_take_le lineLength inputFile
            rw [List.length_append, List.length_drop] at full ⊢
            omega
          have shorter : (inputFile.drop lineLength).length < n := by
            have long := List.length_pos_iff.mpr some
            rw [List.length_drop, size]
            unfold lineLength
            omega
          refine ih _ shorter ⟨?_, fun x mem => ?_⟩ exact_.le ok rfl
          · rw [List.length_append, List.length_singleton]
            omega
          · rcases List.mem_append.mp mem with mem | mem
            · exact sized.each x mem
            · rw [List.mem_singleton.mp mem]
              exact exact_

theorem sizedBytes (each : ∀ x ∈ lines, x.value.length = lineLength) : (lines.flatMap KeyValuePair.value).length = lineLength * lines.length := by
  induction lines with
  | nil => rfl
  | cons x lines ih =>
    rw [List.flatMap_cons, List.length_append, each x List.mem_cons_self, ih fun y mem => each y (List.mem_cons_of_mem _ mem), List.length_cons,
      Nat.mul_succ, Nat.add_comm]

theorem wholeFile {n : Nat} {inputFile : Bytes} (size : inputFile.length = lineLength * n) : ∃ records, file records = inputFile ∧ records.length = n := by
  induction n generalizing inputFile with
  | zero =>
    rw [List.length_eq_zero_iff.mp size]
    exact ⟨[], rfl, rfl⟩
  | succ n ih =>
    rw [Nat.mul_succ] at size
    obtain ⟨records, rest, count⟩ := @ih (inputFile.drop lineLength) (by rw [List.length_drop]; omega)
    refine ⟨⟨inputFile.take lineLength, by rw [List.length_take]; omega⟩ :: records, ?_, by rw [List.length_cons, count]⟩
    rw [file, List.flatMap_cons, ← file, rest]
    exact List.take_append_drop _ _

/-! ### The output -/

theorem startServes {numThread : Int} (parsed : parse [] [] inputFile = .ok lines) (ok : start numThread inputFile = .ok s) :
    Serves lines.length numThread := by
  by_contra bad
  have fits := not_lt.mp fun less => bad (.inr less)
  have negative := not_le.mp fun positive => bad (.inl positive)
  unfold start at ok
  rw [parsed] at ok
  simp only [bind, Except.bind] at ok
  by_cases zero : numThread = 0
  · rw [if_pos zero] at ok
    cases ok
  · rw [if_neg zero] at ok
    simp only [pure, Except.pure] at ok
    rw [if_pos (shareNegative (by omega) fits)] at ok
    cases ok

theorem fileLossless (records : List Record) (few : records.length < 2 ^ 31) : Lossless (file records) := by
  have parsed := parseFile records [] [] (Nat.zero_le _) (by simpa using few)
  rw [List.nil_append] at parsed
  refine ⟨⟨_, parsed, List.flatMap_map _ _ _⟩, fun numThread s ok turns s' os ran outputFile written => ?_⟩
  have serves := startServes parsed ok
  rw [List.length_map] at serves
  obtain ⟨s₀, ok₀, total, course⟩ := psortWrites records few serves
  cases ok₀.symm.trans ok
  rw [(course turns s' os ran).file outputFile written]
  exact (sortPerm Record.key records).flatMap_right Record.bytes

/-- A last read of fewer bytes leaves bytes of the record before it in the buffer, or
bytes that have not been set. -/
theorem losslessIff (inputFile : Bytes) : Lossless inputFile ↔ ∃ n < 2 ^ 31, inputFile.length = lineLength * n := by
  constructor
  · rintro ⟨⟨lines, parsed, same⟩, _⟩
    have none : Sized [] := ⟨Nat.two_pow_pos 31, nofun⟩
    have sized := parseSized none (Nat.zero_le _) parsed
    exact ⟨lines.length, sized.few, by rw [← same, sizedBytes sized.each]⟩
  · rintro ⟨n, few, size⟩
    obtain ⟨records, rfl, count⟩ := wholeFile size
    exact fileLossless records (by rwa [count])

/-- A record, and one byte more: the last 99 bytes of the record are written twice. -/
theorem lastReadRepeats : ∃ lines, parse [] [] ((sampleRecord 1 7).bytes ++ [2]) = .ok lines ∧
    lines.map KeyValuePair.value = [(sampleRecord 1 7).bytes, 2 :: (sampleRecord 1 7).bytes.tail] ∧
    ¬ Lossless ((sampleRecord 1 7).bytes ++ [2]) := by
  have first := parseNext [] [] (sampleRecord 1 7) [2] (Nat.zero_le _)
  rw [if_neg (by decide)] at first
  have ends : ∀ lines buffer, parse lines buffer [] = .ok lines := fun lines buffer => by rw [parse, if_pos rfl]
  have second : parse ([] ++ [(sampleRecord 1 7).line]) (sampleRecord 1 7).bytes [2] =
      .ok [(sampleRecord 1 7).line, ⟨key (2 :: (sampleRecord 1 7).bytes.tail), 2 :: (sampleRecord 1 7).bytes.tail⟩] := by
    rw [parse, if_neg (by decide)]
    dsimp only
    rw [if_neg (by decide), if_neg (by decide)]
    exact ends _ _
  refine ⟨_, first.trans second, rfl, fun lossless => ?_⟩
  obtain ⟨⟨lines, parsed, same⟩, _⟩ := lossless
  cases (first.trans second).symm.trans parsed
  have longer := congrArg List.length same
  revert longer
  decide +kernel

end OpSys.Psort
