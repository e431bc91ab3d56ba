import Mathlib.Data.List.TakeWhile
import Mathlib.Logic.Relation
import OpSys.Runscan.Ext2

/-! `name_search` of `runscan.c` in one directory: the block is read into a buffer of
1024 bytes and the step to the next entry is computed from the length of the name. -/
namespace OpSys.Runscan
open OpSys.Reading

/-- `outside`: an access beyond the buffer. `overflow`: an `int` does not hold the
value. `endless`: the steps that were granted are used up. -/
inductive Fault where
  | outside
  | overflow
  | endless
  deriving DecidableEq

/-- `found` has the bytes that are written to `inode_name`. -/
inductive Result where
  | found (name : List UInt8)
  | fault (fault : Fault)
  deriving DecidableEq

def bufferBytes : Nat := 1024

def nameLen (b : Bytes) (i : Nat) : Nat := (b (i + 6)).toNat

/-- `strncpy` of `n` bytes at `i`: NULs from the first NUL on, which is the last byte read. -/
def strncpy (b : Bytes) (i : Nat) : Nat → Option (List UInt8)
  | 0 => some []
  | n + 1 =>
    if bufferBytes ≤ i then none
    else if b i = 0 then some (List.replicate (n + 1) 0)
    else (strncpy b (i + 1) n).map (b i :: ·)

def takeName (b : Bytes) (i : Nat) : Result :=
  match strncpy b (i + 8) (nameLen b i) with
  | some name => .found name
  | none => .fault .outside

def nextEntry (b : Bytes) (i : Nat) : Nat :=
  let offset := if nameLen b i ≠ 4 then 4 - nameLen b i % 4 else 0
  i + 4 + 2 + 2 + nameLen b i + offset

/-- The offsets that are looked at, and how the search ends if not at the end of the
block. The last byte of the header that is read is that of `name_len`. -/
def run (b : Bytes) (inodeNo : Int) : Nat → Nat → List Nat × Option Result
  | 0, _ => ([], some (.fault .endless))
  | fuel + 1, i =>
    if bufferBytes ≤ i then ([], none)
    else if bufferBytes < i + 7 then ([i], some (.fault .outside))
    else if (le32 b i).toInt = inodeNo then ([i], some (takeName b i))
    else
      let (looked, ends) := run b inodeNo fuel (nextEntry b i)
      (i :: looked, ends)

def walk (b : Bytes) (inodeNo : Int) : List Nat × Option Result := run b inodeNo (bufferBytes + 1) 0

/-- The part of `name_search` that is done for a directory whose first block is `block`;
`buffer` is not set before the read. -/
def searchBlock (img : Image) (bs block : U32) (inodeNo : Int) (buffer : Bytes) : List Nat × Option Result :=
  let a := blockOffset block bs
  if bufferBytes < min bs.toNat (img.size - a) then ([], some (.fault .outside))
  else walk (fill img a bs.toNat buffer) inodeNo

variable {b : Bytes} {inodeNo : Int} {fuel i j n : Nat}

theorem nextMore : i + 12 ≤ nextEntry b i := by
  unfold nextEntry
  dsimp only
  split <;> omega

theorem nextAligned (aligned : 4 ∣ i) : 4 ∣ nextEntry b i := by
  unfold nextEntry
  dsimp only
  split <;> omega

theorem runPast (past : bufferBytes ≤ i) : run b inodeNo (fuel + 1) i = ([], none) := by
  unfold run
  rw [if_pos past]

theorem runNext (inside : i + 7 ≤ bufferBytes) (other : (le32 b i).toInt ≠ inodeNo) : run b inodeNo (fuel + 1) i =
    (i :: (run b inodeNo fuel (nextEntry b i)).1, (run b inodeNo fuel (nextEntry b i)).2) := by
  rw [run, if_neg (by omega), if_neg (by omega), if_neg other]

theorem runMatch (inside : i + 7 ≤ bufferBytes) (this : (le32 b i).toInt = inodeNo) :
    run b inodeNo (fuel + 1) i = ([i], some (takeName b i)) := by
  rw [run, if_neg (by omega), if_neg (by omega), if_pos this]

theorem runCut (near : i < bufferBytes) (cut : bufferBytes < i + 7) :
    run b inodeNo (fuel + 1) i = ([i], some (.fault .outside)) := by
  rw [run, if_neg (by omega), if_pos cut]

/-! ### Bounds -/

def Reaches (b : Bytes) (inodeNo : Int) : Nat → Nat → Prop :=
  Relation.ReflTransGen fun i j => i < bufferBytes ∧ (le32 b i).toInt ≠ inodeNo ∧ j = nextEntry b i

/-- The name is in the buffer, or at least its end. -/
def NameFits (b : Bytes) (i : Nat) : Prop := i + 8 + nameLen b i ≤ bufferBytes ∨ ∃ j, i + 8 ≤ j ∧ j < bufferBytes ∧ b j = 0

def Safe (ends : Option Result) : Prop := ∀ fault, ends ≠ some (.fault fault)

theorem strncpyIff : (strncpy b i n).isSome ↔ i + n ≤ bufferBytes ∨ n = 0 ∨ ∃ j, i ≤ j ∧ j < bufferBytes ∧ b j = 0 := by
  induction n generalizing i with
  | zero => exact iff_of_true rfl (.inr (.inl rfl))
  | succ n ih =>
    unfold strncpy
    split
    · refine iff_of_false (by simp) ?_
      rintro (_ | _ | ⟨j, _, _, _⟩) <;> omega
    · rename_i inside
      split
      · rename_i nul
        exact iff_of_true rfl (.inr (.inr ⟨i, le_rfl, by omega, nul⟩))
      · rename_i some
        rw [Option.isSome_map, ih]
        constructor
        · rintro (fits | none | ⟨j, le, less, nul⟩)
          · exact .inl (by omega)
          · exact .inl (by omega)
          · exact .inr (.inr ⟨j, by omega, less, nul⟩)
        · rintro (fits | none | ⟨j, le, less, nul⟩)
          · exact .inl (by omega)
          · cases none
          · have away : j ≠ i := fun same => some (same ▸ nul)
            exact .inr (.inr ⟨j, by omega, less, nul⟩)

theorem takeNameSafe (inside : i + 8 ≤ bufferBytes) : Safe (some (takeName b i)) ↔ NameFits b i := by
  have fits : (strncpy b (i + 8) (nameLen b i)).isSome ↔ NameFits b i := by
    rw [strncpyIff]
    constructor
    · rintro (room | none | nul)
      · exact .inl room
      · exact .inl (by omega)
      · exact .inr nul
    · exact fun h => h.imp_right .inr
  rw [← fits]
  unfold takeName
  cases strncpy b (i + 8) (nameLen b i) with
  | none => exact iff_of_false (fun safe => safe _ rfl) (by simp)
  | some name => exact iff_of_true (fun fault => nofun) rfl

theorem runEnds (enough : bufferBytes - i < fuel) : (run b inodeNo fuel i).2 ≠ some (.fault .endless) := by
  induction fuel generalizing i with
  | zero => omega
  | succ fuel ih =>
    rcases Nat.lt_or_ge i bufferBytes with near | past
    · rcases Nat.lt_or_ge bufferBytes (i + 7) with cut | inside
      · rw [runCut near cut]
        nofun
      · by_cases this : (le32 b i).toInt = inodeNo
        · rw [runMatch inside this]
          unfold takeName
          split <;> nofun
        · have more := nextMore (b := b) (i := i)
          rw [runNext inside this]
          exact ih (by omega)
    · rw [runPast past]
      nofun

theorem reachesIff {P : Nat → Prop} : (∀ j, Reaches b inodeNo i j → P j) ↔
    P i ∧ (i < bufferBytes → (le32 b i).toInt ≠ inodeNo → ∀ j, Reaches b inodeNo (nextEntry b i) j → P j) := by
  constructor
  · exact fun all => ⟨all i .refl, fun near other j later => all j (.head ⟨near, other, rfl⟩ later)⟩
  · rintro ⟨here, later⟩ j reaches
    rcases reaches.cases_head with rfl | ⟨_, ⟨near, other, rfl⟩, after⟩
    · exact here
    · exact later near other j after

theorem runSafe (enough : bufferBytes - i < fuel) (aligned : 4 ∣ i) : Safe (run b inodeNo fuel i).2 ↔
    ∀ j, Reaches b inodeNo i j → j < bufferBytes → j ≠ 1020 ∧ ((le32 b j).toInt = inodeNo → NameFits b j) := by
  have size : bufferBytes = 1024 := rfl
  induction fuel generalizing i with
  | zero => omega
  | succ fuel ih =>
    rw [reachesIff]
    rcases Nat.lt_or_ge i bufferBytes with near | past
    · rcases Nat.lt_or_ge bufferBytes (i + 7) with cut | inside
      · rw [runCut near cut]
        exact iff_of_false (fun safe => safe _ rfl) fun ⟨here, _⟩ => (here near).1 (by omega)
      · by_cases this : (le32 b i).toInt = inodeNo
        · rw [runMatch inside this, takeNameSafe (by omega)]
          exact ⟨fun fits => ⟨fun _ => ⟨by omega, fun _ => fits⟩, fun _ other => absurd this other⟩, fun h => (h.1 near).2 this⟩
        · have more := nextMore (b := b) (i := i)
          rw [runNext inside this]
          refine (ih (by omega) (nextAligned aligned)).trans ⟨fun later => ?_, fun h => h.2 near this⟩
          exact ⟨fun _ => ⟨by omega, fun here => absurd here this⟩, fun _ _ => later⟩
    · rw [runPast past]
      exact iff_of_true (fun fault => nofun) ⟨fun near => by omega, fun near => by omega⟩

theorem searchBlockSafe {img : Image} {bs block : U32} {buffer : Bytes} :
    (searchBlock img bs block inodeNo buffer).2 ≠ some (.fault .endless) ∧
    (Safe (searchBlock img bs block inodeNo buffer).2 ↔
      let b := fill img (blockOffset block bs) bs.toNat buffer
      min bs.toNat (img.size - blockOffset block bs) ≤ bufferBytes ∧
      ∀ i, Reaches b inodeNo 0 i → i < bufferBytes → i ≠ 1020 ∧ ((le32 b i).toInt = inodeNo → NameFits b i)) := by
  unfold searchBlock walk
  dsimp only
  split
  · rename_i more
    exact ⟨nofun, iff_of_false (fun safe => safe _ rfl) fun ⟨few, _⟩ => by omega⟩
  · rename_i few
    refine ⟨runEnds (by omega), (runSafe (by omega) (Nat.dvd_zero 4)).trans ?_⟩
    exact (and_iff_right (by omega)).symm

/-- A block that was wiped has entries of twelve bytes, the last one cut off. -/
theorem searchBlockWiped : ∃ (img : Image) (block : U32) (buffer : Bytes), (∀ i, img.byte i = 0) ∧
    ¬ Safe (searchBlock img (blockSize 0) block 12 buffer).2 := by
  refine ⟨⟨8192, fun _ => 0⟩, 5, fun _ => 0, fun _ => rfl, fun safe => safe .outside ?_⟩
  decide +kernel

end OpSys.Runscan
