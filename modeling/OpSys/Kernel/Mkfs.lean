import OpSys.Kernel.FileStore

/-! The disk that `mkfs.c` makes when there are no files to put on it. -/
namespace OpSys.Fs
open Function OpSys.Blocks OpSys.Bytes OpSys.Allotment OpSys.Transition

variable {sb : Superblock} {σ σ' : Nat → Block} {n m i : Nat} {d : Block}

/-- `mkfs`: zeros but for the superblock. -/
def mkfs (sb : Superblock) : Nat → Block := update (fun _ _ => 0) 1 (setWord (setWord (setWord (fun _ => 0) 0 sb.size) 1 sb.nblocks) 2 sb.ninodes)

/-- `balloc` of `mkfs.c`, which marks the first blocks. -/
def markFirst (sb : Superblock) (used : Nat) (σ : Nat → Block) : Nat → Block := update σ sb.bitmap ((List.range used).foldl setBit fun _ => 0)

def format (sb : Superblock) : Nat → Block := markFirst sb sb.first (mkfs sb)

/-- The numbers fit into words, and the bits of the first blocks into one block. -/
structure Superblock.Fits (sb : Superblock) : Prop where
  size : sb.size < 2 ^ 32
  ninodes : sb.ninodes < 2 ^ 32
  one : sb.first < BPB
  room : sb.first ≤ sb.size

theorem bitFold (n m : Nat) : bit ((List.range n).foldl setBit fun _ => 0) m = decide (m < n) := by
  induction n with
  | zero =>
    unfold bit
    rw [List.range_zero, List.foldl_nil, UInt8.zero_and]
    rfl
  | succ n ih =>
    rw [List.range_succ, List.foldl_append, List.foldl_cons, List.foldl_nil, bitSet, ih]
    split
    · rename_i same
      rw [same, decide_eq_true (Nat.lt_succ_self n)]
    · exact decide_eq_decide.mpr (by omega)

theorem formatInode (less : i < sb.ninodes) : inodes (format sb) i = ⟨0, 0, 0, 0, 0, fun _ => 0⟩ := by
  obtain ⟨low, high⟩ := iBlockLow less
  have blank : format sb (iBlock i) = fun _ => 0 := by
    unfold format markFirst mkfs
    rw [update_of_ne high.ne, update_of_ne low.ne']
  unfold inodes dinode
  rw [blank]
  rfl

theorem formatTaken (fits : sb.Fits) (b : Nat) : taken sb (format sb) b = decide (b < sb.first) := by
  unfold taken
  by_cases near : b < BPB
  · have first : bBlock b sb.ninodes = sb.bitmap := by
      unfold bBlock Superblock.bitmap
      rw [Nat.div_eq_of_lt near, Nat.zero_add]
    rw [first, Nat.mod_eq_of_lt near]
    unfold format markFirst
    rw [update_self, bitFold]
  · have blank : format sb (bBlock b sb.ninodes) = fun _ => 0 := by
      have pos := firstPos sb
      have past : 0 < b / BPB := Nat.div_pos (Nat.not_lt.mp near) (by decide)
      have above : sb.bitmap < bBlock b sb.ninodes := by
        unfold bBlock Superblock.bitmap
        omega
      unfold format markFirst mkfs
      rw [update_of_ne above.ne', update_of_ne (by omega)]
    have one := fits.one
    rw [blank, decide_eq_false (by omega)]
    unfold bit
    rw [UInt8.zero_and]
    rfl

theorem formatWellFormed (fits : sb.Fits) : WellFormed sb (format sb) := by
  have pos := firstPos sb
  have one : format sb 1 = mkfs sb 1 := by
    unfold format markFirst
    rw [update_of_ne pos.1.ne]
  have none : ∀ i, ¬ InUse sb (inodes (format sb)) i := fun i use => use.2.2 (by rw [formatInode use.2.1])
  have bare : ∀ k, holds sb (format sb) (inodes (format sb)) k = 0 := fun k => if_neg (none k.1)
  refine ⟨⟨?_, ?_, ⟨fun k k' _ some => absurd (bare k) some, fun k some => absurd (bare k) some, fun b low _ => ?_, fun b less => ?_, by omega, fits.room⟩,
    fun b _ free o _ => ?_⟩, fun i use => absurd use (none i)⟩
  · rw [one, mkfs, update_self, wordSetOther (by decide), wordSetOther (by decide), wordSet fits.size]
  · rw [one, mkfs, update_self, wordSet fits.ninodes]
  · rw [formatTaken fits, decide_eq_false (by omega)]
    refine iff_of_false Bool.false_ne_true ?_
    rintro ⟨k, mine⟩
    rw [bare k] at mine
    omega
  · rw [formatTaken fits, decide_eq_true less]
  · rw [formatTaken fits] at free
    have high : ¬ b < sb.first := of_decide_eq_false free
    unfold format markFirst mkfs
    rw [update_of_ne (by omega), update_of_ne (by omega)]

/-! A disk with two inodes and room for eight blocks. -/

def small : Superblock := ⟨12, 8, 3⟩

def noDevices : Devsw := ⟨fun _ => none, fun _ => none⟩

theorem smallFits : small.Fits := ⟨by decide, by decide, by decide, by decide⟩

/-- Two files are made and written, and the first one is read and then removed. -/
def edits : List Act := [.ialloc T_FILE, .ialloc T_DIR, .writei 1 0 [1, 2, 3], .writei 2 0 [7], .writei 1 2 [4, 5], .readi 1 1 9, .iput 1]

theorem editsKnown : ∀ a ∈ edits, Known small a := by decide

theorem formatFiles : files small (format small) = fun _ => none := by
  funext i
  exact filesNot fun use => use.2.2 (by rw [formatInode use.2.1])

theorem editsStored : Machine.Ends ((store small noDevices).run (files small (format small)) edits) fun s os =>
    os = [.inum 1, .inum 2, .count 3, .count 1, .count 2, .bytes 3 [2, 4, 5], .none] ∧ Room small noDevices s (.writei 2 1 [8]) := by
  rw [formatFiles]
  decide +kernel

theorem editsFitting : (machine small noDevices).Passes (Fitting small noDevices) (format small) edits := by
  obtain ⟨s, os, ok, _⟩ := editsStored.run
  exact fittingRun (formatWellFormed smallFits) editsKnown ok

theorem filesRefineSmall : Machine.Ends ((machine small noDevices).run (format small) edits) fun σ os =>
    os = [.inum 1, .inum 2, .count 3, .count 1, .count 2, .bytes 3 [2, 4, 5], .none] ∧
      (store small noDevices).run (files small (format small)) edits = .ok (files small σ, os) := by
  have matched := filesRefine (formatWellFormed smallFits) editsFitting
  obtain ⟨s, os, ok, answers, _⟩ := editsStored.run
  rw [ok] at matched ⊢
  generalize (machine small noDevices).run (format small) edits = x at matched ⊢
  cases matched with
  | next related => exact ⟨answers, by rw [related.2]⟩

theorem editsReach : Machine.Ends ((machine small noDevices).run (format small) edits) fun σ _ =>
    (machine small noDevices).Reach (Fitting small noDevices) σ ∧ Room small noDevices (files small σ) (.writei 2 1 [8]) := by
  obtain ⟨s, os, stored, _, room⟩ := editsStored.run
  obtain ⟨σ, os', ok, _, same⟩ := filesRefineSmall.run
  cases stored.symm.trans same
  rw [ok]
  exact ⟨Machine.runReach (.start (formatWellFormed smallFits)) editsFitting ok, room⟩

/-- One block is taken of the eight. -/
theorem blocksAccountedSmall : Machine.Ends ((machine small noDevices).run (format small) edits) fun σ _ =>
    (∀ b < small.size, taken small σ b = true ↔ b < small.first ∨ ∃ i s, InUse small (inodes σ) i ∧ (inodes σ i).block σ s = b) ∧
      (∀ i j s s', InUse small (inodes σ) i → InUse small (inodes σ) j → (inodes σ i).block σ s = (inodes σ j).block σ s' →
        (inodes σ i).block σ s ≠ 0 → i = j ∧ s = s') ∧
      (∀ b < small.size, taken small σ b = false → ∀ o < BSIZE, σ b o = 0) ∧
      demand small (files small σ) + ((Finset.Ico small.first small.size).filter fun b => taken small σ b = false).card = 8 := by
  obtain ⟨σ, os, ok, reach, _⟩ := editsReach.run
  have accounted := blocksAccounted reach
  rw [ok]
  exact accounted

theorem callsEndSmall : Machine.Ends ((machine small noDevices).run (format small) edits) fun σ _ =>
    Yields ((Act.writei 2 1 [8]).prog noDevices) σ [] [] (fun x σ' => storeStep small noDevices (files small σ) (.writei 2 1 [8]) = .ok (files small σ', x))
      fun e _ => ∃ e', Names e e' ∧ e' ≠ .full ∧ storeStep small noDevices (files small σ) (.writei 2 1 [8]) = .error e' := by
  obtain ⟨σ, os, ok, reach, room⟩ := editsReach.run
  have ends := callsEnd reach (show Known small (.writei 2 1 [8]) by decide) room
  rw [ok]
  exact ends

end OpSys.Fs
