import OpSys.Runscan.Entries

/-! The three paths that `main` of `runscan.c` builds for a file: arrays of fixed size
that strings are put together in, and a name from `malloc` that nobody terminates. -/
namespace OpSys.Runscan

/-- `argv[2]` without its NUL. -/
structure CString where
  bytes : List UInt8
  noNul : 0 ∉ bytes

def ascii (s : List Char) : List UInt8 := s.map fun c => UInt8.ofNat c.toNat

def fileDash : List UInt8 := ascii ['/', 'f', 'i', 'l', 'e', '-']
def dotJpg : List UInt8 := ascii ['.', 'j', 'p', 'g']
def slash : List UInt8 := ascii ['/']
def detailsTxt : List UInt8 := ascii ['-', 'd', 'e', 't', 'a', 'i', 'l', 's', '.', 't', 'x', 't']

def pathBytes : Nat := 255
def numberBytes : Nat := 10

/-- `%d` -/
def decimal (n : Int) : List UInt8 :=
  if n < 0 then ascii ('-' :: Nat.toDigits 10 n.natAbs) else ascii (Nat.toDigits 10 n.natAbs)

/-- A string in an array, with its NUL. -/
def stored (size : Nat) (s : List UInt8) : Except Fault (List UInt8) := if s.length < size then .ok s else .error .outside

def strncat (size : Nat) (dst src : List UInt8) (n : Nat) : Except Fault (List UInt8) := stored size (dst ++ src.take n)

/-- The array has no bytes but its own. -/
def strlen (size : Nat) (b : Bytes) : Except Fault Nat :=
  match (List.range size).find? fun i => b i == 0 with
  | some n => .ok n
  | none => .error .outside

/-- The array that `malloc` gave, after `name_search` has written a name to it or not. -/
def jpgName (written : Option (List UInt8)) (heap : Bytes) : Bytes := fun i => match written with
  | none => heap i
  | some name => name[i]?.getD (heap i)

structure Paths where
  name : List UInt8
  nameAct : List UInt8
  nameDet : List UInt8
  deriving DecidableEq

def paths (dir : CString) (inodeNo : Int) (written : Option (List UInt8)) (heap : Bytes) : Except Fault Paths := do
  let inodeNum ← stored numberBytes (decimal inodeNo)
  let name ← stored pathBytes dir.bytes
  let name ← strncat pathBytes name fileDash 7
  let name ← strncat pathBytes name inodeNum inodeNum.length
  let name ← strncat pathBytes name dotJpg 5
  let jpg := jpgName written heap
  let nameAct ← stored pathBytes dir.bytes
  let nameAct ← strncat pathBytes nameAct slash 2
  let length ← strlen pathBytes jpg
  let nameAct ← strncat pathBytes nameAct ((List.range length).map jpg) length
  let nameDet ← stored pathBytes dir.bytes
  let nameDet ← strncat pathBytes nameDet fileDash 7
  let nameDet ← strncat pathBytes nameDet inodeNum inodeNum.length
  let nameDet ← strncat pathBytes nameDet detailsTxt 13
  return ⟨name, nameAct, nameDet⟩

def writtenName (entry : Option DirEntry) : Option (List UInt8) := entry.map fun e => padded e.name

def foundName (entry : Option DirEntry) : List UInt8 := entry.elim [] DirEntry.name

def Exact (dir : CString) (inodeNo : Int) (entry : Option DirEntry) (heap : Bytes) : Prop :=
  paths dir inodeNo (writtenName entry) heap = .ok
    ⟨dir.bytes ++ fileDash ++ decimal inodeNo ++ dotJpg, dir.bytes ++ slash ++ foundName entry,
      dir.bytes ++ fileDash ++ decimal inodeNo ++ detailsTxt⟩

/-- The number and both longer paths fit their arrays, and the name ends where `malloc`
happens to have left a NUL behind it. -/
structure Fits (dir : CString) (inodeNo : Int) (entry : Option DirEntry) (heap : Bytes) : Prop where
  number : -100000000 < inodeNo ∧ inodeNo < 1000000000
  details : dir.bytes.length + 18 + (decimal inodeNo).length < pathBytes
  actual : dir.bytes.length + 1 + (foundName entry).length < pathBytes
  noNul : 0 ∉ foundName entry
  ended : heap (foundName entry).length = 0

variable {dir : CString} {inodeNo : Int} {entry : Option DirEntry} {heap b : Bytes} {size n : Nat} {s : List UInt8}

theorem storedThen {β : Type} {f : List UInt8 → Except Fault β} {x : β} :
    (stored size s >>= f) = .ok x ↔ s.length < size ∧ f s = .ok x := by
  unfold stored
  split
  · rename_i fits
    exact (and_iff_right fits).symm
  · rename_i long
    exact iff_of_false nofun fun h => long h.1

theorem strlenThen {β : Type} {f : Nat → Except Fault β} {x : β} : (strlen size b >>= f) = .ok x ↔
    ∃ n < size, b n = 0 ∧ (∀ i < n, b i ≠ 0) ∧ f n = .ok x := by
  unfold strlen
  cases found : (List.range size).find? fun i => b i == 0 with
  | none =>
    refine iff_of_false nofun fun ⟨n, less, nul, _⟩ => ?_
    have := List.find?_eq_none.mp found n (List.mem_range.mpr less)
    simp [nul] at this
  | some m =>
    obtain ⟨nul, mem, before⟩ := List.find?_range_eq_some.mp found
    have nul : b m = 0 := by simpa using nul
    have before : ∀ i < m, b i ≠ 0 := fun i less => by simpa using before i less
    constructor
    · exact fun ok => ⟨m, List.mem_range.mp mem, nul, before, ok⟩
    · rintro ⟨n, _, nul', before', ok⟩
      have same : m = n := by
        rcases Nat.lt_trichotomy m n with less | same | more
        · exact absurd nul (before' m less)
        · exact same
        · exact absurd nul' (before n more)
      exact same ▸ ok

theorem decimalFits : (decimal inodeNo).length < numberBytes ↔ -100000000 < inodeNo ∧ inodeNo < 1000000000 := by
  have digits : ∀ k, 0 < k → ((Nat.toDigits 10 inodeNo.natAbs).length ≤ k ↔ inodeNo.natAbs < 10 ^ k) := fun k some =>
    Nat.length_toDigits_le_iff (by decide) some
  have eight := digits 8 (by decide)
  have nine := digits 9 (by decide)
  unfold decimal ascii numberBytes
  split <;> rw [List.length_map]
  · rw [List.length_cons]
    omega
  · omega

theorem jpgNameAt (noNul : 0 ∉ foundName entry) (i : Nat) :
    jpgName (writtenName entry) heap i = (foundName entry)[i]?.getD (heap i) := by
  cases entry with
  | none => rfl
  | some e =>
    have plain : ∀ c ∈ e.name, (c != 0) = true := fun c mem => by
      rw [bne_iff_ne]
      exact fun nul => noNul (nul ▸ mem)
    have same : padded e.name = e.name := nulsLastIff.mpr fun c mem => by
      rw [List.dropWhile_eq_nil_iff.mpr plain] at mem
      cases mem
    exact congrArg (fun name : List UInt8 => name[i]?.getD (heap i)) same

theorem jpgNamePast : jpgName (writtenName entry) heap (foundName entry).length = heap (foundName entry).length := by
  cases entry with
  | none => rfl
  | some e =>
    have length : (padded e.name).length = e.name.length := by
      unfold padded
      rw [List.length_append, List.length_replicate, ← List.length_append, List.takeWhile_append_dropWhile]
    unfold jpgName writtenName foundName
    dsimp only [Option.elim_some, Option.map_some]
    rw [List.getElem?_eq_none length.le, Option.getD_none]

theorem pathsIff {written : Option (List UInt8)} {p : Paths} : paths dir inodeNo written heap = .ok p ↔
    (decimal inodeNo).length < numberBytes ∧ dir.bytes.length + 18 + (decimal inodeNo).length < pathBytes ∧
    ∃ n, dir.bytes.length + 1 + n < pathBytes ∧ jpgName written heap n = 0 ∧ (∀ i < n, jpgName written heap i ≠ 0) ∧
      p = ⟨dir.bytes ++ fileDash ++ decimal inodeNo ++ dotJpg, dir.bytes ++ slash ++ (List.range n).map (jpgName written heap),
        dir.bytes ++ fileDash ++ decimal inodeNo ++ detailsTxt⟩ := by
  have lengths : fileDash.length = 6 ∧ dotJpg.length = 4 ∧ slash.length = 1 ∧ detailsTxt.length = 12 := by decide
  have whole : fileDash.take 7 = fileDash ∧ dotJpg.take 5 = dotJpg ∧ slash.take 2 = slash ∧ detailsTxt.take 13 = detailsTxt := by decide
  have all : ∀ n, ((List.range n).map (jpgName written heap)).take n = (List.range n).map (jpgName written heap) := fun n =>
    List.take_of_length_le (by rw [List.length_map, List.length_range])
  unfold paths strncat
  simp only [storedThen, strlenThen, whole, all, List.take_length, List.length_append, lengths, List.length_map, List.length_range]
  constructor
  · rintro ⟨number, _, _, _, _, _, _, n, _, nul, before, actual, _, _, _, details, last⟩
    exact ⟨number, by omega, n, by omega, nul, before, (Except.ok.inj last).symm⟩
  · rintro ⟨number, details, n, actual, nul, before, rfl⟩
    refine ⟨number, ?_, ?_, ?_, ?_, ?_, ?_, n, ?_, nul, before, ?_, ?_, ?_, ?_, ?_, rfl⟩ <;> omega

theorem exactIff : Exact dir inodeNo entry heap ↔ Fits dir inodeNo entry heap := by
  unfold Exact
  rw [pathsIff]
  constructor
  · rintro ⟨number, details, n, actual, nul, before, same⟩
    have name : foundName entry = (List.range n).map (jpgName (writtenName entry) heap) := List.append_cancel_left (congrArg Paths.nameAct same)
    have length : (foundName entry).length = n := by rw [name, List.length_map, List.length_range]
    refine ⟨decimalFits.mp number, details, length ▸ actual, fun mem => ?_, ?_⟩
    · rw [name] at mem
      obtain ⟨i, less, zero⟩ := List.mem_map.mp mem
      exact before i (List.mem_range.mp less) zero
    · have past : jpgName (writtenName entry) heap (foundName entry).length = heap (foundName entry).length := jpgNamePast
      rw [← past, length]
      exact nul
  · rintro ⟨number, details, actual, noNul, ended⟩
    refine ⟨decimalFits.mpr number, details, (foundName entry).length, actual, jpgNamePast.trans ended, fun i less zero => ?_, ?_⟩
    · rw [jpgNameAt noNul, List.getElem?_eq_getElem less, Option.getD_some] at zero
      exact noNul (zero ▸ List.getElem_mem less)
    · have name : (List.range (foundName entry).length).map (jpgName (writtenName entry) heap) = foundName entry := by
        refine List.ext_getElem (by rw [List.length_map, List.length_range]) fun i _ less => ?_
        rw [List.getElem_map, List.getElem_range, jpgNameAt noNul, List.getElem?_eq_getElem less, Option.getD_some]
      rw [name]

/-- What `malloc` leaves decides, so no input is right whatever that is. -/
theorem outputPaths : (∀ heap, Exact dir inodeNo entry heap ↔ Fits dir inodeNo entry heap) ∧ ¬ ∀ heap, Exact dir inodeNo entry heap := by
  refine ⟨fun heap => exactIff, fun all => ?_⟩
  have ended := (exactIff.mp (all fun _ => 1)).ended
  cases ended

/-- The directory is `out`, the file is `a.jpg`, and `malloc` gives memory that had `Z`
where the name ends. -/
theorem pathsStray : ∃ (dir : CString) (e : DirEntry) (heap : Bytes), dir.bytes = ascii ['o', 'u', 't'] ∧
    e.name = ascii ['a', '.', 'j', 'p', 'g'] ∧ ¬ Exact dir 12 (some e) heap ∧ paths dir 12 (writtenName (some e)) heap = .ok
      ⟨ascii ['o', 'u', 't', '/', 'f', 'i', 'l', 'e', '-', '1', '2', '.', 'j', 'p', 'g'],
        ascii ['o', 'u', 't', '/', 'a', '.', 'j', 'p', 'g', 'Z'],
        ascii ['o', 'u', 't', '/', 'f', 'i', 'l', 'e', '-', '1', '2', '-', 'd', 'e', 't', 'a', 'i', 'l', 's', '.', 't', 'x', 't']⟩ := by
  refine ⟨⟨ascii ['o', 'u', 't'], by decide⟩, ⟨12, ascii ['a', '.', 'j', 'p', 'g'], by decide, by decide⟩,
    fun i => if i = 5 then 90 else 0, rfl, rfl, fun exact => ?_, by decide +kernel⟩
  have ended := (exactIff.mp exact).ended
  revert ended
  decide

end OpSys.Runscan
