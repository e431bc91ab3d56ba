import OpSys.Kernel.Fs
import OpSys.Lib.Allotment

/-! `balloc` and `bfree` against the bitmap: which blocks are taken, and by whom. -/
namespace OpSys.Fs
open Function OpSys.Blocks OpSys.Bytes OpSys.Allotment

variable {K : Type} {sb : Superblock} {σ σ' : Nat → Block} {own : K → Nat} {k : K} {held : List Nat} {b c : Nat} {d : Block}

/-- Where the bitmap begins. -/
def Superblock.bitmap (sb : Superblock) : Nat := sb.ninodes / IPB + 3

/-- The first block for the files, as `mkfs` lays the disk out. -/
def Superblock.first (sb : Superblock) : Nat := sb.bitmap + sb.size / BPB + 1

def taken (sb : Superblock) (σ : Nat → Block) (b : Nat) : Bool := bit (σ (bBlock b sb.ninodes)) (b % BPB)

/-- The free blocks are blank, so that `balloc` need not clear them. -/
structure Disk (sb : Superblock) (σ : Nat → Block) (own : K → Nat) : Prop where
  size : word (σ 1) 0 = sb.size
  ninodes : word (σ 1) 2 = sb.ninodes
  allotted : Allotted own (taken sb σ) sb.first sb.size
  blank : ∀ b < sb.size, taken sb σ b = false → ∀ o < BSIZE, σ b o = 0

def Full (sb : Superblock) (σ : Nat → Block) : Prop := ∀ b < sb.size, taken sb σ b = true

/-- The blocks of a file, or those before the bitmap. -/
def Outside (sb : Superblock) (b : Nat) : Prop := b < sb.bitmap ∨ sb.first ≤ b

theorem mapOutside (low : sb.bitmap ≤ b) (high : b < sb.first) : ¬ Outside sb b := by
  unfold Outside
  omega

theorem bBlockLow (b : Nat) (sb : Superblock) : sb.bitmap ≤ bBlock b sb.ninodes := by
  unfold bBlock Superblock.bitmap
  rw [Nat.add_assoc]
  exact Nat.le_add_left _ _

theorem bBlockHigh (low : b / BPB ≤ sb.size / BPB) : bBlock b sb.ninodes < sb.first := by
  unfold bBlock Superblock.first Superblock.bitmap
  unfold BPB at *
  omega

theorem bBlockSame : bBlock b sb.ninodes = bBlock c sb.ninodes ↔ b / BPB = c / BPB := by
  unfold bBlock
  omega

/-- One bit of the bitmap has changed. -/
theorem takenUpdate {x : Bool} (bits : ∀ m, bit d m = if m = b % BPB then x else bit (σ (bBlock b sb.ninodes)) m) :
    taken sb (update σ (bBlock b sb.ninodes) d) = update (taken sb σ) b x := by
  funext c
  unfold taken
  by_cases same : c = b
  · subst same
    rw [update_self, update_self, bits, if_pos rfl]
  · rw [update_of_ne same]
    by_cases block : bBlock c sb.ninodes = bBlock b sb.ninodes
    · have whole := bBlockSame.mp block
      rw [block, update_self, bits, if_neg fun rest => same ?_]
      rw [← Nat.div_add_mod c BPB, whole, rest, Nat.div_add_mod]
    · rw [update_of_ne block]

theorem takenSame (same : ∀ b, sb.bitmap ≤ b → b < sb.first → σ' b = σ b) (less : b < sb.size) : taken sb σ' b = taken sb σ b := by
  unfold taken
  rw [same _ (bBlockLow b sb) (bBlockHigh (Nat.div_le_div_right less.le))]

theorem clearFromSome {left bi : Nat} (found : clearFrom d left bi = some c) :
    bi ≤ c ∧ c < bi + left ∧ bit d c = false ∧ ∀ m, bi ≤ m → m < c → bit d m = true := by
  induction left generalizing bi with
  | zero => cases found
  | succ left ih =>
    unfold clearFrom at found
    split at found
    · rename_i here
      obtain ⟨low, high, clear, before⟩ := ih found
      refine ⟨by omega, by omega, clear, fun m low' high' => ?_⟩
      by_cases same : m = bi
      · rwa [same]
      · exact before m (by omega) high'
    · rename_i here
      cases found
      exact ⟨le_rfl, by omega, Bool.eq_false_iff.mpr here, fun m low high => by omega⟩

theorem clearFromNone {left bi : Nat} (found : clearFrom d left bi = none) (m : Nat) (low : bi ≤ m) (high : m < bi + left) : bit d m = true := by
  induction left generalizing bi with
  | zero => omega
  | succ left ih =>
    unfold clearFrom at found
    split at found
    · rename_i here
      by_cases same : m = bi
      · rwa [same]
      · exact ih found (by omega) (by omega)
    · cases found

/-- What `balloc` has done when it returns `b`: the first block that was not taken is. It may
be one behind the end of the disk. -/
structure Allocs (sb : Superblock) (σ : Nat → Block) (b : Nat) (σ' : Nat → Block) : Prop where
  free : taken sb σ b = false
  before : ∀ c < b, taken sb σ c = true
  near : b / BPB * BPB < sb.size
  eq : σ' = update σ (bBlock b sb.ninodes) (setBit (σ (bBlock b sb.ninodes)) (b % BPB))

theorem placeMod (whole : b % BPB = 0) (small : c < BPB) : (b + c) % BPB = c := by
  rw [Nat.add_mod, whole, Nat.zero_add, Nat.mod_mod, Nat.mod_eq_of_lt small]

theorem placeDiv (whole : b % BPB = 0) (small : c < BPB) : (b + c) / BPB = b / BPB := by
  unfold BPB at *
  omega

theorem ballocLoopDoes {rounds : Nat} (h : Disk sb σ own) (apart : ∀ c ∈ held, sb.first ≤ c) (whole : b % BPB = 0)
    (before : ∀ c < b, taken sb σ c = true) (enough : sb.size < b + rounds * BPB) :
    Does sb.size (ballocLoop sb rounds b) σ held held (Allocs sb σ) fun e _ => e = .fails .outOfBlocks ∧ Full sb σ := by
  induction rounds generalizing b with
  | zero => exact doesPanic ⟨rfl, fun c less => before c (by omega)⟩
  | succ rounds ih =>
    unfold ballocLoop
    split
    · rename_i less
      have high : bBlock b sb.ninodes < sb.first := bBlockHigh (Nat.div_le_div_right less.le)
      refine doesBread (Nat.lt_of_lt_of_le high h.allotted.some.2) (fun mem => Nat.not_le.mpr high (apart _ mem)) ?_
      have inBlock : ∀ m < BPB, taken sb σ (b + m) = bit (σ (bBlock b sb.ninodes)) m := fun m small => by
        unfold taken
        rw [placeMod whole small, bBlockSame.mpr (placeDiv whole small)]
      split
      · rename_i bi found
        obtain ⟨_, small, clear, first⟩ := clearFromSome found
        refine doesBwrite List.mem_cons_self (doesBrelse (doesPure ⟨?_, fun c less => ?_, ?_, ?_⟩))
        · rw [inBlock bi (by omega), clear]
        · by_cases low : c < b
          · exact before c low
          · rw [show c = b + (c - b) by omega, inBlock _ (by omega), first _ (Nat.zero_le _) (by omega)]
        · rw [placeDiv whole (by omega)]
          exact Nat.lt_of_le_of_lt (Nat.div_mul_le_self b BPB) less
        · rw [placeMod whole (by omega), bBlockSame.mpr (placeDiv whole (by omega))]
      · rename_i found
        refine doesBrelse (ih (by rwa [Nat.add_mod_right]) (fun c less => ?_) (by rw [Nat.succ_mul] at enough; omega))
        by_cases low : c < b
        · exact before c low
        · rw [show c = b + (c - b) by omega, inBlock _ (by omega), clearFromNone found _ (Nat.zero_le _) (by omega)]
    · exact doesPanic ⟨rfl, fun c less => before c (by omega)⟩

theorem firstPos (sb : Superblock) : 1 < sb.bitmap ∧ sb.bitmap < sb.first := by
  unfold Superblock.first Superblock.bitmap
  exact ⟨Nat.lt_of_lt_of_le (by decide) (Nat.le_add_left 3 _), Nat.lt_succ_of_le (Nat.le_add_right _ _)⟩

theorem readsbDoes (h : Disk sb σ own) (apart : ∀ c ∈ held, sb.first ≤ c) {F : Stop Panic → (Nat → Block) → Prop} :
    Does sb.size readsb σ held held (fun x σ' => x = {sb with nblocks := word (σ 1) 1} ∧ σ' = σ) F := by
  have low := firstPos sb
  refine doesBread (Nat.lt_of_lt_of_le (by omega) h.allotted.some.2) (fun mem => ?_) (doesBrelse (doesPure ⟨?_, rfl⟩))
  · have := apart 1 mem
    omega
  · rw [h.size, h.ninodes]

theorem ballocDoes (h : Disk sb σ own) (apart : ∀ c ∈ held, sb.first ≤ c) :
    Does sb.size balloc σ held held (Allocs sb σ) fun e _ => e = .fails .outOfBlocks ∧ Full sb σ := by
  refine (readsbDoes h apart).bind fun x σ' read => ?_
  obtain ⟨rfl, rfl⟩ := read
  have enough : sb.size < 0 + (sb.size / BPB + 1) * BPB := by
    unfold BPB
    omega
  have h' : Disk {sb with nblocks := word (σ' 1) 1} σ' own := ⟨h.size, h.ninodes, h.allotted, h.blank⟩
  have loop := ballocLoopDoes h' apart (Nat.zero_mod _) (fun c less => absurd less (Nat.not_lt_zero c)) enough
  exact loop.weaken (fun b σ'' done => ⟨done.free, done.before, done.near, done.eq⟩) fun e _ stop => stop

variable [DecidableEq K]

theorem Allocs.same (done : Allocs sb σ b σ') (outside : Outside sb c) : σ' c = σ c := by
  rw [done.eq, update_of_ne]
  rintro rfl
  refine mapOutside (bBlockLow b sb) (bBlockHigh ?_) outside
  exact (Nat.le_div_iff_mul_le (by decide)).mpr done.near.le

theorem Allocs.taken (done : Allocs sb σ b σ') : taken sb σ' = update (taken sb σ) b true := by
  rw [done.eq]
  exact takenUpdate fun m => bitSet _ _ _

theorem Allocs.disk (done : Allocs sb σ b σ') (h : Disk sb σ own) (inside : b < sb.size) (blank : own k = 0) : Disk sb σ' (update own k b) := by
  have one : σ' 1 = σ 1 := done.same (.inl (firstPos sb).1)
  refine ⟨by rw [one, h.size], by rw [one, h.ninodes], ?_, fun c less free => ?_⟩
  · rw [done.taken]
    exact h.allotted.give done.free inside blank
  · rw [done.taken] at free
    by_cases same : c = b
    · rw [same, update_self] at free
      cases free
    · rw [update_of_ne same] at free
      rw [done.same (.inr (h.allotted.free free))]
      exact h.blank c less free

/-- A block behind the end of the disk is found when there is no other. -/
theorem Allocs.beyond (done : Allocs sb σ b σ') (outside : sb.size ≤ b) : Full sb σ := fun c less => done.before c (by omega)

omit [DecidableEq K]

theorem bzeroDoes (inside : b < sb.size) (free : b ∉ held) {F : Stop Panic → (Nat → Block) → Prop} :
    Does sb.size (bzero b) σ held held (fun _ σ' => σ' = update σ b fun o => if o < BSIZE then 0 else σ b o) F :=
  doesBread inside free (doesBwrite List.mem_cons_self (doesBrelse (doesPure rfl)))

/-- What is in the inodes and in the blocks of the files does not matter. -/
theorem Disk.frame (h : Disk sb σ own) (low : ∀ c < sb.first, c = 1 ∨ sb.bitmap ≤ c → σ' c = σ c) (free : ∀ c < sb.size, taken sb σ c = false → σ' c = σ c) :
    Disk sb σ' own := by
  have pos := firstPos sb
  have marks : ∀ c < sb.size, taken sb σ' c = taken sb σ c := fun c less => takenSame (fun b above high => low b high (.inr above)) less
  refine ⟨?_, ?_, h.allotted.congr (fun _ => rfl) marks, fun c less blank => ?_⟩
  · rw [low 1 (by omega) (.inl rfl), h.size]
  · rw [low 1 (by omega) (.inl rfl), h.ninodes]
  · rw [marks c less] at blank
    rw [free c less blank]
    exact h.blank c less blank

variable [DecidableEq K]

/-- The block of a key is clear and free afterwards. -/
theorem bfreeDoes (h : Disk sb σ own) (mine : own k ≠ 0) (apart : ∀ c ∈ held, sb.first ≤ c) (free : own k ∉ held) {F : Stop Panic → (Nat → Block) → Prop} :
    Does sb.size (bfree (own k)) σ held held (fun _ σ' => Disk sb σ' (update own k 0) ∧ ∀ c, Outside sb c → c ≠ own k → σ' c = σ c) F := by
  obtain ⟨low, high⟩ := h.allotted.inside k mine
  have marked := h.allotted.owned mine
  generalize here : own k = b at *
  refine (bzeroDoes high free).bind fun _ σ1 cleared => ?_
  have same : ∀ c, c ≠ b → σ1 c = σ c := fun c other => by rw [cleared, update_of_ne other]
  have h1 : Disk sb σ1 own := h.frame (fun c less _ => same c (by omega)) fun c less blank => same c (by rintro rfl; rw [blank] at marked; cases marked)
  refine (readsbDoes h1 apart).bind fun x σ2 read => ?_
  obtain ⟨rfl, rfl⟩ := read
  have place : bBlock b sb.ninodes < sb.first := bBlockHigh (Nat.div_le_div_right high.le)
  have bit' : bit (σ2 (bBlock b sb.ninodes)) (b % BPB) = true := by
    rw [same _ (by omega)]
    exact marked
  refine doesBread (Nat.lt_of_lt_of_le place h.allotted.some.2) (fun mem => Nat.not_le.mpr place (apart _ mem)) ?_
  rw [if_pos bit']
  refine doesBwrite List.mem_cons_self (doesBrelse (doesPure ⟨?_, fun c outside other => ?_⟩))
  · have marks : taken sb (update σ2 (bBlock b sb.ninodes) (clearBit (σ2 (bBlock b sb.ninodes)) (b % BPB))) = update (taken sb σ2) b false :=
      takenUpdate fun m => bitClear _ _ _
    have one : (1 : Nat) ≠ bBlock b sb.ninodes := by
      have := bBlockLow b sb
      have := firstPos sb
      omega
    refine ⟨by rw [update_of_ne one, h1.size], by rw [update_of_ne one, h1.ninodes], ?_, fun c less blank => ?_⟩
    · rw [marks, ← here]
      exact h1.allotted.takeBack (by rwa [here])
    · rw [marks] at blank
      by_cases freed : c = b
      · intro o small
        have above : b ≠ bBlock b sb.ninodes := by omega
        rw [freed, update_of_ne above, cleared, update_self, if_pos small]
      · rw [update_of_ne freed] at blank
        rw [update_of_ne]
        · exact h1.blank c less blank
        · rintro rfl
          rw [h1.allotted.below _ place] at blank
          cases blank
  · rw [update_of_ne, same c other]
    rintro rfl
    exact mapOutside (bBlockLow b sb) place outside

end OpSys.Fs
