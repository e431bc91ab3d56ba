import OpSys.Kernel.ReadWrite

/-! The inodes on the disk and the files that they stand for. -/
namespace OpSys.Fs
open Function OpSys.Blocks OpSys.Bytes OpSys.Allotment

variable {sb : Superblock} {σ σ' τ : Nat → Block} {t t' : Nat → Inode} {ip ip' : Inode} {i j s b k off n : Nat} {W : Nat → Prop} {src : List UInt8} {d d' : Block}

/-! ### The table of inodes -/

theorem setDinodeByte {o : Nat} (small : o < 64) : setDinode d k ip (64 * k + o) = ip.byte o := by
  unfold setDinode
  rw [if_pos (by omega), show (64 * k + o) % 64 = o by omega]

theorem setDinodeHalf {m : Nat} (small : m < 4) : half (setDinode d k ip) (32 * k + m) = ip.short m := by
  have bytes : ∀ q < 2, setDinode d k ip (2 * (32 * k + m) + q) = byteAt (ip.short m).toNat q := fun q less => by
    rw [show 2 * (32 * k + m) + q = 64 * k + (2 * m + q) by omega, setDinodeByte (by omega), Inode.byte, if_pos (by omega), show (2 * m + q) / 2 = m by omega,
      show (2 * m + q) % 2 = q by omega]
  exact halfOf _ (bytes 0 (by decide)) (bytes 1 (by decide))

theorem setDinodeSize (fits : ip.size < 2 ^ 32) : word (setDinode d k ip) (16 * k + 2) = ip.size := wordOf fits fun q less => by
  rw [show 4 * (16 * k + 2) + q = 64 * k + (8 + q) by omega, setDinodeByte (by omega), Inode.byte, if_neg (by omega), if_pos (by omega), show (8 + q) % 4 = q by omega]

theorem setDinodeAddr {m : Fin (NDIRECT + 1)} (fits : ip.addrs m < 2 ^ 32) : word (setDinode d k ip) (16 * k + 3 + m) = ip.addrs m := wordOf fits fun q less => by
  have small : m.val < 13 := m.isLt
  have same : Fin.ofNat 13 m.val = m := Fin.ext (Nat.mod_eq_of_lt small)
  rw [show 4 * (16 * k + 3 + m.val) + q = 64 * k + (12 + 4 * m.val + q) by omega, setDinodeByte (by omega), Inode.byte, if_neg (by omega), if_neg (by omega),
    show (12 + 4 * m.val + q) % 4 = q by omega, show (12 + 4 * m.val + q) / 4 - 3 = m.val by omega, same]

/-- What `iupdate` has written is what `ilock` reads. -/
theorem dinodeSet (size : ip.size < 2 ^ 32) (addrs : ∀ m, ip.addrs m < 2 ^ 32) : dinode (setDinode d k ip) k = ip := by
  have zero : half (setDinode d k ip) (32 * k) = ip.short 0 := setDinodeHalf (m := 0) (by decide)
  unfold dinode
  rw [zero, setDinodeHalf (by decide), setDinodeHalf (by decide), setDinodeHalf (by decide), setDinodeSize size, funext fun m => setDinodeAddr (addrs m)]
  rfl

theorem dinodeCongr (same : ∀ o, o / 64 = k → d o = d' o) : dinode d k = dinode d' k := by
  have halves : ∀ m < 4, half d (32 * k + m) = half d' (32 * k + m) := fun m small => halfCongr (same _ (by omega)) (same _ (by omega))
  have words : ∀ m < 16, word d (16 * k + m) = word d' (16 * k + m) := fun m small => wordCongr fun q less => same _ (by omega)
  have zero : half d (32 * k) = half d' (32 * k) := halves 0 (by decide)
  unfold dinode
  rw [zero, halves 1 (by decide), halves 2 (by decide), halves 3 (by decide), words 2 (by decide)]
  congr 1
  funext m
  have small : m.val < 13 := m.isLt
  rw [Nat.add_assoc]
  exact words _ (by omega)

theorem dinodeOther (other : j ≠ k) : dinode (setDinode d k ip) j = dinode d j := dinodeCongr fun o here => if_neg (by omega)

def inodes (σ : Nat → Block) (i : Nat) : Inode := dinode (σ (iBlock i)) (i % IPB)

theorem iBlockSame : iBlock i = iBlock j ∧ i % IPB = j % IPB ↔ i = j := by
  unfold iBlock
  unfold IPB
  omega

theorem iBlockLow (less : i < sb.ninodes) : 1 < iBlock i ∧ iBlock i < sb.bitmap := by
  unfold iBlock Superblock.bitmap
  unfold IPB
  omega

theorem inodesUpdate (size : ip.size < 2 ^ 32) (addrs : ∀ m, ip.addrs m < 2 ^ 32) :
    inodes (update σ (iBlock i) (setDinode (σ (iBlock i)) (i % IPB) ip)) = update (inodes σ) i ip := by
  funext j
  unfold inodes
  by_cases same : j = i
  · rw [same, update_self, update_self, dinodeSet size addrs]
  · rw [update_of_ne same]
    by_cases block : iBlock j = iBlock i
    · have other : j % IPB ≠ i % IPB := fun rest => same (iBlockSame.mp ⟨block, rest⟩)
      rw [block, update_self, dinodeOther other]
    · rw [update_of_ne block]

theorem inodesSame (low : ∀ b < sb.bitmap, σ' b = σ b) (less : i < sb.ninodes) : inodes σ' i = inodes σ i := by
  unfold inodes
  rw [low _ (iBlockLow less).2]

/-! ### Files -/

/-- The places that a file of `n` bytes has blocks for. -/
def Needs (n s : Nat) : Prop := if s = MAXFILE then NDIRECT * BSIZE < n else s * BSIZE < n

structure Sized (σ : Nat → Block) (ip : Inode) : Prop where
  fits : ip.size ≤ MAXFILE * BSIZE
  mapped : ∀ s ≤ MAXFILE, ip.block σ s ≠ 0 ↔ Needs ip.size s
  tail : ∀ p, ip.size ≤ p → ip.content σ p = 0

/-- What holds of the disk between the calls. -/
structure WellFormed (sb : Superblock) (σ : Nat → Block) : Prop where
  layout : Layout sb σ (inodes σ)
  sized : ∀ i, InUse sb (inodes σ) i → Sized σ (inodes σ i)

structure File where
  type : UInt16
  major : UInt16
  minor : UInt16
  nlink : UInt16
  bytes : List UInt8

def Inode.file (ip : Inode) (σ : Nat → Block) : File := ⟨ip.type, ip.major, ip.minor, ip.nlink, (List.range ip.size).map (ip.content σ)⟩

/-- What the disk stands for: a file for each inode that is in use. -/
def files (sb : Superblock) (σ : Nat → Block) (i : Nat) : Option File := if InUse sb (inodes σ) i then some ((inodes σ i).file σ) else none

theorem inUseCongr (same : ∀ j, 0 < j → j < sb.ninodes → t' j = t j) : InUse sb t' i ↔ InUse sb t i := by
  unfold InUse
  exact and_congr_right fun pos => and_congr_right fun less => by rw [same i pos less]

theorem layoutCongr (same : ∀ j, 0 < j → j < sb.ninodes → t' j = t j) (h : Layout sb σ t) : Layout sb σ t' := by
  have eq : holds sb σ t' = holds sb σ t := by
    funext ⟨j, s⟩
    exact if_ctx_congr (inUseCongr same) (fun use => by rw [same j use.1 use.2.1]) fun _ => rfl
  unfold Layout
  rwa [eq]

/-- The fields of an inode fit into the words on the disk. -/
theorem addrsFit (h : Layout sb σ t) (use : InUse sb t i) (m : Fin (NDIRECT + 1)) : (t i).addrs m < 2 ^ 32 := by
  have words : sb.size < 2 ^ 32 := h.size ▸ wordLt _ _
  by_cases none : (t i).addrs m = 0
  · rw [none]
    decide
  · have inside := h.inside use (s := place m)
    rw [blockPlace] at inside
    exact Nat.lt_trans (inside none).2 words

theorem needsAt {p : Nat} (less : p < n) : Needs n (p / BSIZE) ∨ MAXFILE ≤ p / BSIZE := by
  by_cases inside : p / BSIZE < MAXFILE
  · refine .inl ?_
    unfold Needs
    rw [if_neg (Nat.ne_of_lt inside)]
    exact Nat.lt_of_le_of_lt (Nat.div_mul_le_self p BSIZE) less
  · exact .inr (Nat.not_lt.mp inside)

/-! ### Changes to one inode -/

/-- The table of inodes is of no concern to the bitmap and the contents. -/
theorem layoutInode (h : Layout sb σ t) (low : 1 < b) (high : b < sb.bitmap) : Layout sb (update σ b d) t := by
  have same : ∀ c, c = 1 ∨ sb.bitmap ≤ c → update σ b d c = σ c := fun c out => update_of_ne (by omega) _ _
  have disk : Disk sb (update σ b d) (holds sb σ t) := h.frame (fun c _ => same c) fun c less free => same c (.inr (by
    have := h.allotted.free free
    have := firstPos sb
    omega))
  have eq : holds sb (update σ b d) t = holds sb σ t := by
    funext ⟨j, s⟩
    refine if_ctx_congr Iff.rfl (fun use => blockSame (fun some => same _ (.inr ?_)) s) fun _ => rfl
    have := (h.inside use (s := MAXFILE) some).1
    have := firstPos sb
    rw [blockTable] at *
    omega
  unfold Layout
  rwa [eq]

theorem Sized.congr (h : Sized σ ip) (size : ip'.size = ip.size) (block : ∀ s, ip'.block σ' s = ip.block σ s) (content : ip'.content σ' = ip.content σ) : Sized σ' ip' := by
  obtain ⟨fits, mapped, tail⟩ := h
  rw [← size] at fits mapped tail
  refine ⟨fits, fun s near => ?_, fun p past => ?_⟩
  · rw [block]
    exact mapped s near
  · rw [content]
    exact tail p past

/-- An inode has been changed and written to the disk. -/
structure Settles (sb : Superblock) (σ : Nat → Block) (i : Nat) (σ' : Nat → Block) (ip' : Inode) : Prop where
  wellFormed : WellFormed sb σ'
  inode : inodes σ' i = ip'
  others : ∀ j, j ≠ i → 0 < j → j < sb.ninodes → inodes σ' j = inodes σ j
  files : ∀ j, j ≠ i → files sb σ' j = files sb σ j

/-- How the call has left the disk before the inode is written. -/
structure Leaves (sb : Superblock) (σ : Nat → Block) (i : Nat) (τ : Nat → Block) (ip : Inode) : Prop where
  layout : Layout sb τ (update (inodes σ) i ip)
  sized : ip.type ≠ 0 → Sized τ ip
  others : ∀ j, j ≠ i → InUse sb (inodes σ) j → ∀ s, (inodes σ j).block σ s ≠ 0 → τ ((inodes σ j).block σ s) = σ ((inodes σ j).block σ s)
  low : ∀ b < sb.bitmap, τ b = σ b

theorem Leaves.settles (h : WellFormed sb σ) (range : 0 < i ∧ i < sb.ninodes) (left : Leaves sb σ i τ ip) (above : ∀ c, sb.first ≤ c → σ' c = τ c)
    (layout : Layout sb σ' (update (inodes σ) i ip)) (same : ∀ j, 0 < j → j < sb.ninodes → inodes σ' j = update (inodes σ) i ip j) : Settles sb σ i σ' ip := by
  have others : ∀ j, j ≠ i → 0 < j → j < sb.ninodes → inodes σ' j = inodes σ j := fun j other pos less => by rw [same j pos less, update_of_ne other]
  have kept : ∀ j, j ≠ i → InUse sb (inodes σ) j → ∀ s, (inodes σ j).block σ s ≠ 0 → σ' ((inodes σ j).block σ s) = σ ((inodes σ j).block σ s) :=
    fun j other use s some => (above _ (h.layout.inside use some).1).trans (left.others j other use s some)
  have mine : inodes σ' i = ip := by rw [same i range.1 range.2, update_self]
  have used : ∀ j, j ≠ i → (InUse sb (inodes σ') j ↔ InUse sb (inodes σ) j) := fun j other =>
    and_congr_right fun pos => and_congr_right fun less => by rw [others j other pos less]
  have self : update (inodes σ) i ip i = ip := update_self ..
  refine ⟨⟨layoutCongr same layout, fun j use => ?_⟩, mine, others, fun j other => ?_⟩
  · by_cases here : j = i
    · subst here
      have type := use.2.2
      rw [mine] at type ⊢
      have use' : InUse sb (update (inodes σ) j ip) j := ⟨range.1, range.2, by rwa [self]⟩
      have blocks : ∀ s, ip.block τ s ≠ 0 → σ' (ip.block τ s) = τ (ip.block τ s) := fun s some => by
        have inside := left.layout.inside use' (s := s)
        rw [self] at inside
        exact above _ (inside some).1
      exact (left.sized type).congr rfl (blockSame (blocks MAXFILE)) (contentSame blocks)
    · have use' := (used j here).mp use
      rw [others j here use.1 use.2.1]
      exact (h.sized j use').congr rfl (blockSame fun some => kept j here use' MAXFILE some) (contentSame (kept j here use'))
  · refine if_ctx_congr (used j other) (fun use => ?_) fun _ => rfl
    rw [others j other use.1 use.2.1, Inode.file, Inode.file, contentSame (kept j other use)]

/-- The inode is as it was on the disk. -/
theorem Leaves.same (h : WellFormed sb σ) (range : 0 < i ∧ i < sb.ninodes) (left : Leaves sb σ i τ ip) (eq : ip = inodes σ i) : Settles sb σ i τ ip :=
  left.settles h range (fun _ _ => rfl) left.layout fun j _ less => by rw [eq, update_eq_self, inodesSame left.low less]

/-- `iupdate` then makes the disk agree with the inode. -/
theorem Leaves.written (h : WellFormed sb σ) (range : 0 < i ∧ i < sb.ninodes) (left : Leaves sb σ i τ ip) (size : ip.size < 2 ^ 32) (addrs : ∀ m, ip.addrs m < 2 ^ 32) :
    Settles sb σ i (update τ (iBlock i) (setDinode (τ (iBlock i)) (i % IPB) ip)) ip ∧
      (ip.type ≠ 0 → ip.file (update τ (iBlock i) (setDinode (τ (iBlock i)) (i % IPB) ip)) = ip.file τ) := by
  obtain ⟨low, high⟩ := iBlockLow range.2
  have above : ∀ c, sb.first ≤ c → update τ (iBlock i) (setDinode (τ (iBlock i)) (i % IPB) ip) c = τ c := fun c first => by
    have := firstPos sb
    exact update_of_ne (by omega) _ _
  refine ⟨left.settles h range above (layoutInode left.layout low high) fun j _ less => ?_, fun type => ?_⟩
  · rw [inodesUpdate size addrs]
    by_cases here : j = i
    · rw [here, update_self, update_self]
    · rw [update_of_ne here, update_of_ne here, inodesSame left.low less]
  · have self : update (inodes σ) i ip i = ip := update_self ..
    have use' : InUse sb (update (inodes σ) i ip) i := ⟨range.1, range.2, by rwa [self]⟩
    have same : ip.content (update τ (iBlock i) (setDinode (τ (iBlock i)) (i % IPB) ip)) = ip.content τ := contentSame fun s some => by
      have inside := left.layout.inside use' (s := s)
      rw [self] at inside
      exact above _ (inside some).1
    rw [Inode.file, Inode.file, same]

theorem iupdateDoes (layout : Layout sb σ t) (less : i < sb.ninodes) {F : Stop Panic → (Nat → Block) → Prop} :
    Does sb.size (iupdate i ip) σ [] [] (fun _ σ' => σ' = update σ (iBlock i) (setDinode (σ (iBlock i)) (i % IPB) ip)) F := by
  have low := iBlockLow less
  have below : iBlock i < sb.size := Nat.lt_of_lt_of_le (Nat.lt_trans low.2 (firstPos sb).2) layout.allotted.some.2
  exact doesBread below List.not_mem_nil (doesBwrite List.mem_cons_self (doesBrelse (doesPure rfl)))

end OpSys.Fs
