import OpSys.Kernel.FileOps

/-! The entries of a directory, and that `dirlookup` finds them. -/
namespace OpSys.Fs
open Function OpSys.Blocks OpSys.Bytes

variable {sb : Superblock} {σ : Nat → Block} {ip : Inode} {i k m n off rounds : Nat} {c d key : Row} {f : File}

def File.row (f : File) : Row := chars f.bytes

def File.inum (f : File) (k : Nat) : Nat := direntInum f.row k

def File.name (f : File) (k : Nat) : Name := text (direntName f.row k) DIRSIZ 0

/-- The last entry may be cut short. -/
def File.slots (f : File) : Nat := (f.bytes.length + 15) / 16

/-- The place of the first entry with that name. -/
def File.lookup (f : File) (name : Name) : Option Nat := (List.range f.slots).find? fun k => decide (f.inum k ≠ 0 ∧ f.name k = name)

/-- Whether `dirlookup` stops at an entry. -/
def hits (d key : Row) (k : Nat) : Bool := decide (direntInum d k ≠ 0 ∧ text (direntName d k) DIRSIZ 0 = text key DIRSIZ 0)

theorem lookFromFind (d : Block) (key : Row) (left k : Nat) : lookFrom d key left k = (List.range' k left).find? (hits d key) := by
  induction left generalizing k with
  | zero => rfl
  | succ left ih =>
    have same : (direntInum d k ≠ 0 ∧ namecmp key (direntName d k) = 0) ↔ hits d key k = true := by
      rw [namecmp, strncmpText, hits, decide_eq_true_iff]
      exact and_congr_right fun _ => eq_comm
    rw [lookFrom, List.range'_succ, if_congr same rfl rfl, ih]
    split
    · rename_i hit
      exact (List.find?_cons_of_pos hit).symm
    · rename_i miss
      exact (List.find?_cons_of_neg miss).symm

theorem direntCongr (same : ∀ j < 16, d (16 * k + j) = c (16 * m + j)) : direntInum d k = direntInum c m ∧ text (direntName d k) DIRSIZ 0 = text (direntName c m) DIRSIZ 0 := by
  constructor
  · have low := same 0 (by decide)
    have high := same 1 (by decide)
    unfold direntInum
    rw [halfCongr (j := 8 * m)]
    · rwa [← Nat.mul_assoc, ← Nat.mul_assoc]
    · rwa [← Nat.mul_assoc, ← Nat.mul_assoc]
  · refine textCongr fun j less => ?_
    have here := same (2 + j) (Nat.add_lt_add_left less 2)
    unfold direntName
    rwa [Nat.zero_add, Nat.add_assoc, Nat.add_assoc]

theorem hitsCongr (same : ∀ j < 16, d (16 * k + j) = c (16 * m + j)) : hits d key k = hits c key m := by
  obtain ⟨inum, text⟩ := direntCongr same
  unfold hits
  rw [inum, text]

theorem hitsBlank (blank : ∀ p, 16 * k ≤ p → c p = 0) : hits c key k = false := by
  have none : direntInum c k = 0 := by
    unfold direntInum half
    rw [blank _ (by omega), blank _ (by omega)]
    rfl
  simp [hits, none]

/-- Behind the bytes of a file are the zeros of its last block. -/
theorem rowContent (sized : Sized σ ip) : (ip.file σ).row = ip.content σ := by
  funext p
  by_cases less : p < ip.size
  · simp [File.row, chars, Inode.file, less]
  · simp [File.row, chars, Inode.file, less, sized.tail p (Nat.not_lt.mp less)]

theorem findCongr {p q : Nat → Bool} {ks : List Nat} (same : ∀ k ∈ ks, p k = q k) : ks.find? p = ks.find? q := by
  induction ks with
  | nil => rfl
  | cons k ks ih =>
    rw [List.find?_cons, List.find?_cons, same k List.mem_cons_self, ih fun m mem => same m (List.mem_cons_of_mem k mem)]

theorem findShift (p : Nat → Bool) (a n : Nat) : (List.range' a n).find? p = ((List.range' 0 n).find? fun k => p (a + k)).map (a + ·) := by
  rw [← Nat.add_zero a, ← List.map_add_range', List.find?_map]
  rfl

theorem dirlookupLoopDoes (h : WellFormed sb σ) (use : InUse sb (inodes σ) i) (whole : off % BSIZE = 0) {F : Stop Panic → (Nat → Block) → Prop} :
    Does sb.size (dirlookupLoop key rounds (inodes σ i) off) σ [] []
      (fun x σ' => x = (((List.range' (off / 16) (BSIZE / 16 * rounds)).find? (hits ((inodes σ i).content σ) key)).map
        fun k => (direntInum ((inodes σ i).content σ) k, 16 * k), inodes σ i) ∧ σ' = σ) F := by
  have sized := h.sized i use
  have layout : Layout sb σ (update (inodes σ) i (inodes σ i)) := by
    rw [update_eq_self]
    exact h.layout
  have use' : InUse sb (update (inodes σ) i (inodes σ i)) i := by rwa [update_eq_self]
  generalize inodes σ i = ip at *
  induction rounds generalizing off with
  | zero => exact doesPure ⟨rfl, rfl⟩
  | succ rounds ih =>
    unfold dirlookupLoop
    split
    · rename_i less
      obtain ⟨inside, some⟩ := sized.some less
      refine (bmapHit layout use' inside some).bind fun x σ' hit => ?_
      rw [hit.1, hit.2]
      have range := layout.inside use' (s := off / BSIZE)
      rw [update_self] at range
      refine doesBread (range some).2 List.not_mem_nil (doesBrelse ?_)
      have bytes : ∀ k < BSIZE / 16, ∀ j < 16, σ (ip.block σ (off / BSIZE)) (16 * k + j) = ip.content σ (16 * (off / 16 + k) + j) := by
        intro k small j less
        have place : (16 * (off / 16 + k) + j) / BSIZE = off / BSIZE ∧ (16 * (off / 16 + k) + j) % BSIZE = 16 * k + j := by
          unfold BSIZE at *
          omega
        rw [contentAt inside some place.1, place.2]
      have first : (List.range' (off / 16) (BSIZE / 16)).find? (hits (ip.content σ) key) =
          (lookFrom (σ (ip.block σ (off / BSIZE))) key (BSIZE / 16) 0).map (off / 16 + ·) := by
        rw [findShift, lookFromFind]
        exact congrArg _ (findCongr fun k mem => (hitsCongr (bytes k (by simpa using (List.mem_range'_1.mp mem).2))).symm)
      have split : List.range' (off / 16) (BSIZE / 16 * (rounds + 1)) =
          List.range' (off / 16) (BSIZE / 16) ++ List.range' ((off + BSIZE) / 16) (BSIZE / 16 * rounds) := by
        rw [show (off + BSIZE) / 16 = off / 16 + BSIZE / 16 by unfold BSIZE; omega, List.range'_append_1, Nat.mul_succ, Nat.add_comm]
      rw [split, List.find?_append, first]
      cases found : lookFrom (σ (ip.block σ (off / BSIZE))) key (BSIZE / 16) 0 with
      | some k =>
        rw [lookFromFind] at found
        have small : k < BSIZE / 16 := by simpa using (List.mem_range'_1.mp (List.mem_of_find?_eq_some found)).2
        have place : off + 16 * k = 16 * (off / 16 + k) := by
          unfold BSIZE at *
          omega
        refine doesPure ⟨?_, rfl⟩
        rw [(direntCongr (bytes k small)).1, place]
        rfl
      | none => exact ih (by rwa [Nat.add_mod_right])
    · rename_i past
      refine doesPure ⟨Prod.ext ?_ rfl, rfl⟩
      rw [List.find?_eq_none.mpr fun k mem => ?_]
      · rfl
      · rw [hitsBlank fun p high => sized.tail p ?_]
        · exact Bool.false_ne_true
        · have low := (List.mem_range'_1.mp mem).1
          unfold BSIZE at *
          omega

theorem lookupFind (sized : Sized σ ip) (key : Row) {n : Nat} (enough : (ip.file σ).slots ≤ n) :
    (List.range' 0 n).find? (hits (ip.content σ) key) = (ip.file σ).lookup (text key DIRSIZ 0) := by
  have split : List.range' 0 n = List.range (ip.file σ).slots ++ List.range' (ip.file σ).slots (n - (ip.file σ).slots) := by
    have parts := List.range'_append_1 (s := 0) (m := (ip.file σ).slots) (n := n - (ip.file σ).slots)
    rw [Nat.zero_add, Nat.add_sub_cancel' enough] at parts
    rw [List.range_eq_range', parts]
  have rest : (List.range' (ip.file σ).slots (n - (ip.file σ).slots)).find? (hits (ip.content σ) key) = none := by
    refine List.find?_eq_none.mpr fun k mem => ?_
    have low := (List.mem_range'_1.mp mem).1
    rw [File.slots, bytesLength] at low
    rw [hitsBlank fun p high => sized.tail p (by omega)]
    exact Bool.false_ne_true
  rw [split, List.find?_append, rest, Option.or_none]
  unfold File.lookup File.inum File.name hits
  rw [rowContent sized]

theorem dirlookupDoes (h : WellFormed sb σ) (use : InUse sb (inodes σ) i) (dir : (inodes σ i).type = T_DIR) (key : Row) {F : Stop Panic → (Nat → Block) → Prop} :
    Does sb.size (dirlookup (inodes σ i) key) σ [] []
      (fun x σ' => x = ((((inodes σ i).file σ).lookup (text key DIRSIZ 0)).map fun k => (((inodes σ i).file σ).inum k, 16 * k), inodes σ i) ∧ σ' = σ) F := by
  have sized := h.sized i use
  unfold dirlookup
  rw [if_neg (not_not.mpr dir)]
  refine (dirlookupLoopDoes h use (Nat.zero_mod _)).weaken (fun x σ' done => ?_) fun _ _ stop => stop
  rw [Nat.zero_div, lookupFind sized key (by unfold File.slots BSIZE; rw [bytesLength]; omega), ← rowContent sized] at done
  exact done

end OpSys.Fs
