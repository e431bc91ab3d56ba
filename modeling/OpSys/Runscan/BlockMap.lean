import OpSys.Runscan.DataCopy

/-! The file that an inode stands for, by the map of its blocks, and when `data_copy`
writes the bytes of that file. -/
namespace OpSys.Runscan
open OpSys.Reading

variable {img : Image} {inode : Inode} {bs : U32} {heap data : Bytes} {pos k n p : Nat}

def entry (img : Image) (bs : Nat) (b : U32) (i : Nat) : U32 := le32 img.byte (b.toNat * bs + 4 * i)

/-- The tables that lead to block `n`, and the block. A table has a pointer for every
four bytes. -/
def trail (img : Image) (inode : Inode) (bs n : Nat) : List U32 × U32 :=
  let pointers := bs / 4
  if n < 12 then ([], inode.block n)
  else
    let m := n - 12
    if m < pointers then ([inode.block 12], entry img bs (inode.block 12) m)
    else
      let m := m - pointers
      let table := entry img bs (inode.block 13) (m / pointers)
      ([inode.block 13, table], entry img bs table (m % pointers))

def mapBlock (img : Image) (inode : Inode) (bs n : Nat) : U32 := (trail img inode bs n).2

def fileByte (img : Image) (inode : Inode) (bs p : Nat) : UInt8 := img.byte ((mapBlock img inode bs (p / bs)).toNat * bs + p % bs)

def Holds (img : Image) (bs : Nat) (b : U32) : Prop := b.toNat * bs < 2 ^ 32 ∧ (b.toNat + 1) * bs ≤ img.size

/-- The image has every block of the file and every table that leads to one. -/
def Contained (img : Image) (inode : Inode) (bs : Nat) : Prop :=
  ∀ n, n * bs < inode.size.toNat → ∀ b ∈ (trail img inode bs n).2 :: (trail img inode bs n).1, Holds img bs b

/-- The byte where `data_copy` goes on for position `p` is the one meant, or else the
image ends before it and the file has the same byte one block earlier. -/
def Follows (img : Image) (inode : Inode) (bs : U32) (heap : Bytes) (p : Nat) : Prop :=
  let a := place img inode bs heap (p / bs.toNat) + p % bs.toNat
  if a < img.size then img.byte a = fileByte img inode bs.toNat p
  else fileByte img inode bs.toNat (p - bs.toNat) = fileByte img inode bs.toNat p

theorem writtenLe : written inode.size bs ≤ inode.size.toNat := by
  have whole := Nat.div_add_mod' inode.size.toNat bs.toNat
  unfold written
  dsimp only
  rw [BitVec.toNat_udiv, BitVec.toNat_umod]
  split <;> omega

theorem Holds.offset {b : U32} (h : Holds img bs.toNat b) : blockOffset b bs = b.toNat * bs.toNat := blockOffsetExact h.1

theorem mapDirect {bs : Nat} (direct : n < 12) : mapBlock img inode bs n = inode.block n := by
  unfold mapBlock trail
  rw [if_pos direct]

theorem Contained.block (h : Contained img inode bs.toNat) (inside : n * bs.toNat < inode.size.toNat) :
    Holds img bs.toNat (mapBlock img inode bs.toNat n) := h n inside _ List.mem_cons_self

theorem Contained.first (h : Contained img inode bs.toNat) (less : p < bs.toNat) (inside : p < inode.size.toNat) :
    place img inode bs heap (p / bs.toNat) + p % bs.toNat < img.size := by
  have holds := h.block (n := 0) (by omega)
  rw [mapDirect (by decide)] at holds
  have room := holds.2
  have zero : place img inode bs heap 0 = (inode.block 0).toNat * bs.toNat := by
    unfold place
    rw [if_pos (by decide), if_pos (.inr rfl), holds.offset]
  rw [Nat.div_eq_of_lt less, Nat.mod_eq_of_lt less, zero]
  rw [Nat.succ_mul] at room
  omega

theorem copiesFile (fits : k < 22) (contained : Contained img inode (blockSize k).toNat) :
    (∀ p, ∀ h : p < (dataCopy img inode (blockSize k) heap (opened pos data)).out.length,
      (dataCopy img inode (blockSize k) heap (opened pos data)).out[p] = fileByte img inode (blockSize k).toNat p) ↔
    ∀ p < written inode.size (blockSize k), Follows img inode (blockSize k) heap p := by
  have some : 0 < (blockSize k).toNat := by
    rw [blockSizeNat fits]
    exact Nat.mul_pos (by decide) (Nat.two_pow_pos k)
  generalize blockSize k = bs at *
  have out : (dataCopy img inode bs heap (opened pos data)).out =
      (List.range (written inode.size bs)).map (sent img bs.toNat (place img inode bs heap) data) := dataCopyOut some rfl
  have length : (dataCopy img inode bs heap (opened pos data)).out.length = written inode.size bs := writtenLength some
  have sent : ∀ p, ∀ h : p < (dataCopy img inode bs heap (opened pos data)).out.length,
      (dataCopy img inode bs heap (opened pos data)).out[p] = sent img bs.toNat (place img inode bs heap) data p := by
    intro p h
    simp only [out, List.getElem_map, List.getElem_range]
  have follows : ∀ p < written inode.size bs,
      (Agrees img bs.toNat (place img inode bs heap) data (fileByte img inode bs.toNat) p ↔ Follows img inode bs heap p) := by
    intro p less
    unfold Agrees Follows
    dsimp only
    split
    · exact Iff.rfl
    · rename_i short
      rw [if_pos]
      by_contra first
      exact short (contained.first (not_le.mp first) (less.trans_le writtenLe))
  rw [← forall₂_congr follows, ← sentIff some]
  constructor
  · intro right p less
    have h := less.trans_eq length.symm
    rw [← sent p h]
    exact right p h
  · intro right p h
    rw [sent p h]
    exact right p (h.trans_eq length)

theorem Contained.follows (h : Contained img inode bs.toNat) (some : 0 < bs.toNat) (inside : p < inode.size.toNat)
    (meets : place img inode bs heap (p / bs.toNat) = (mapBlock img inode bs.toNat (p / bs.toNat)).toNat * bs.toNat) :
    Follows img inode bs heap p := by
  have holds := (h.block (n := p / bs.toNat) (lt_of_le_of_lt (Nat.div_mul_le_self p bs.toNat) inside)).2
  have less := Nat.mod_lt p some
  unfold Follows
  dsimp only
  rw [meets, if_pos]
  · rfl
  · rw [Nat.succ_mul] at holds
    omega

/-! ### Runs of blocks -/

/-- The block whose pointer `data_copy` uses to read block `n` of a file with `q` whole
blocks: a run begins with a block of its own or with a table. -/
def runHead (q n : Nat) : Nat :=
  if n < 12 then if n < q ∨ n = 0 then n else n - 1 else if n < 268 then 12 else n - (n - 268) % 256

theorem Holds.word {b : U32} {i : Nat} {old : Bytes} (h : Holds img bs.toNat b) (room : 4 * i + 4 ≤ bs.toNat) :
    le32 (fill img (b.toNat * bs.toNat + 4 * i) 4 old) 0 = entry img bs.toNat b i := by
  have inside := h.2
  rw [Nat.succ_mul] at inside
  exact le32Congr fun o less => (congrArg _ (Nat.zero_add o)).trans (fillInside (by omega) less)

theorem Contained.indirect (h : Contained img inode bs.toNat) (more : 4 ≤ bs.toNat) (inside : 12 * bs.toNat < inode.size.toNat) :
    blockOffset (le32 (fill img (blockOffset (inode.block 12) bs) 4 fun _ => 0) 0) bs =
      (mapBlock img inode bs.toNat 12).toNat * bs.toNat := by
  have reached : trail img inode bs.toNat 12 = ([inode.block 12], entry img bs.toNat (inode.block 12) 0) := by
    unfold trail
    rw [if_neg (by decide), if_pos (by omega)]
  have table := h 12 inside (inode.block 12) (by rw [reached]; simp)
  have block := h.block inside
  have word : le32 (fill img ((inode.block 12).toNat * bs.toNat + 4 * 0) 4 fun _ => 0) 0 = entry img bs.toNat (inode.block 12) 0 :=
    table.word (by omega)
  unfold mapBlock at block ⊢
  rw [reached] at block ⊢
  rw [table.offset, show (inode.block 12).toNat * bs.toNat = (inode.block 12).toNat * bs.toNat + 4 * 0 from rfl, word]
  exact block.offset

/-- With tables of 256 pointers the word ends up as the first entry of the table. -/
theorem Contained.double {cnt : Nat} (h : Contained img inode bs.toNat) (size : bs.toNat = 1024)
    (inside : (268 + 256 * cnt) * bs.toNat < inode.size.toNat) (within : cnt < 256) :
    blockOffset (le32 (pointer img inode bs heap (cnt + 1)) 0) bs = (mapBlock img inode bs.toNat (268 + 256 * cnt)).toNat * bs.toNat := by
  have reached : trail img inode bs.toNat (268 + 256 * cnt) = ([inode.block 13, entry img bs.toNat (inode.block 13) cnt],
      entry img bs.toNat (entry img bs.toNat (inode.block 13) cnt) 0) := by
    unfold trail
    dsimp only
    rw [if_neg (by omega), if_neg (by omega), show (268 + 256 * cnt - 12 - bs.toNat / 4) / (bs.toNat / 4) = cnt by rw [size]; omega,
      show (268 + 256 * cnt - 12 - bs.toNat / 4) % (bs.toNat / 4) = 0 by rw [size]; omega]
  have outer := h _ inside (inode.block 13) (by rw [reached]; simp)
  have table := h _ inside (entry img bs.toNat (inode.block 13) cnt) (by rw [reached]; simp)
  have block := h.block inside
  have sought : (inode.block 13 * bs + BitVec.ofNat 32 (4 * cnt)).toNat = (inode.block 13).toNat * bs.toNat + 4 * cnt := by
    have fits := outer.1
    rw [size] at fits
    rw [BitVec.toNat_add, BitVec.toNat_mul, BitVec.toNat_ofNat, size]
    omega
  have word : ∀ old, le32 (fill img ((inode.block 13).toNat * bs.toNat + 4 * cnt) 4 old) 0 = entry img bs.toNat (inode.block 13) cnt :=
    fun old => outer.word (by omega)
  have word' : ∀ old, le32 (fill img ((entry img bs.toNat (inode.block 13) cnt).toNat * bs.toNat + 4 * 0) 4 old) 0 =
      entry img bs.toNat (entry img bs.toNat (inode.block 13) cnt) 0 := fun old => table.word (by omega)
  unfold mapBlock at block ⊢
  rw [reached] at block ⊢
  unfold pointer
  dsimp only
  rw [sought, word, table.offset]
  rw [Nat.mul_zero, Nat.add_zero] at word'
  rw [word']
  exact block.offset

theorem Contained.place (h : Contained img inode bs.toNat) (more : 4 ≤ bs.toNat) (inside : n * bs.toNat < inode.size.toNat)
    (near : n < 268 ∨ bs.toNat = 1024 ∧ n < 268 + 256 * 256) : place img inode bs heap n =
      ((mapBlock img inode bs.toNat (runHead (inode.size / bs).toNat n)).toNat + (n - runHead (inode.size / bs).toNat n)) * bs.toNat := by
  have before : ∀ m ≤ n, m * bs.toNat < inode.size.toNat := fun m le => lt_of_le_of_lt (Nat.mul_le_mul_right _ le) inside
  unfold Runscan.place runHead
  split
  · rename_i direct
    split
    · have holds := h.block inside
      rw [mapDirect direct] at holds ⊢
      rw [holds.offset, Nat.sub_self, Nat.add_zero]
    · have holds := h.block (before (n - 1) (by omega))
      rw [mapDirect (by omega)] at holds ⊢
      rw [holds.offset, show n - (n - 1) = 1 by omega, Nat.succ_mul]
  · rename_i far
    split
    · rw [h.indirect more (before 12 (by omega)), ← Nat.add_mul]
    · rename_i far'
      obtain ⟨size, room⟩ := near.resolve_left far'
      have head : n - (n - 268) % 256 = 268 + 256 * ((n - 268) / 256) := by omega
      have left : (n - 268) % 256 = n - (268 + 256 * ((n - 268) / 256)) := by omega
      rw [h.double size (before _ (by omega)) (by omega), head, ← Nat.add_mul, left]

theorem runsFollow (contained : Contained img inode 1024) (size : inode.size.toNat ≤ (12 + 256 + 256 * 256) * 1024)
    (runs : ∀ n, n * 1024 < inode.size.toNat → (mapBlock img inode 1024 n).toNat =
      (mapBlock img inode 1024 (runHead (inode.size.toNat / 1024) n)).toNat + (n - runHead (inode.size.toNat / 1024) n))
    (less : p < written inode.size (blockSize 0)) : Follows img inode (blockSize 0) heap p := by
  have bytes : (blockSize 0).toNat = 1024 := by decide
  have inside := less.trans_le writtenLe
  have here : p / 1024 * 1024 < inode.size.toNat := lt_of_le_of_lt (Nat.div_mul_le_self p 1024) inside
  have blocks : (inode.size / blockSize 0).toNat = inode.size.toNat / 1024 := by rw [BitVec.toNat_udiv, bytes]
  have contained : Contained img inode (blockSize 0).toNat := by rwa [bytes]
  refine contained.follows (by decide) inside ?_
  rw [contained.place (by decide) (by rwa [bytes]) (.inr ⟨bytes, by rw [bytes]; omega⟩), bytes, blocks, ← runs _ here]

/-! ### Two files of two blocks -/

def twoBlocks (size b b' : U32) : Inode := ⟨0x8000, 0, size, 1, fun i => if i = 0 then b else if i = 1 then b' else 0⟩

def eightBlocks : Image := ⟨8192, fun a => if a / 1024 = 7 then 1 else 0⟩

theorem twoContained {size b b' : U32} (short : size.toNat ≤ 2048) (first : b.toNat < 8) (second : b'.toNat < 8) :
    Contained eightBlocks (twoBlocks size b b') 1024 := by
  intro n inside
  have few : n = 0 ∨ n = 1 := by
    change n * 1024 < size.toNat at inside
    omega
  have holds : ∀ c : U32, c.toNat < 8 → Holds eightBlocks 1024 c := fun c less => by
    have size : eightBlocks.size = 8192 := rfl
    unfold Holds
    omega
  rcases few with rfl | rfl
  · exact fun c mem => List.mem_singleton.mp mem ▸ holds b first
  · exact fun c mem => List.mem_singleton.mp mem ▸ holds b' second

theorem copiesFileAdjacent :
    (dataCopy eightBlocks (twoBlocks 1500 6 7) (blockSize 0) (fun _ => 0) (opened 0 fun _ => 0)).out.length = 1500 ∧
    ∀ p, ∀ h : p < (dataCopy eightBlocks (twoBlocks 1500 6 7) (blockSize 0) (fun _ => 0) (opened 0 fun _ => 0)).out.length,
      (dataCopy eightBlocks (twoBlocks 1500 6 7) (blockSize 0) (fun _ => 0) (opened 0 fun _ => 0)).out[p] =
        fileByte eightBlocks (twoBlocks 1500 6 7) 1024 p := by
  have contained : Contained eightBlocks (twoBlocks 1500 6 7) 1024 := twoContained (by decide) (by decide) (by decide)
  refine ⟨(writtenLength (by decide)).trans (by decide), (copiesFile (k := 0) (by decide) contained).mpr fun p less => ?_⟩
  refine runsFollow contained (by decide) (fun n inside => ?_) less
  have few : n = 0 ∨ n = 1 := by
    change n * 1024 < 1500 at inside
    omega
  rcases few with rfl | rfl <;> decide

/-- The second block of the file does not stand behind the first. -/
theorem copiesOther : Contained eightBlocks (twoBlocks 1025 5 7) 1024 ∧
    ∃ h : 1024 < (dataCopy eightBlocks (twoBlocks 1025 5 7) (blockSize 0) (fun _ => 0) (opened 0 fun _ => 0)).out.length,
      (dataCopy eightBlocks (twoBlocks 1025 5 7) (blockSize 0) (fun _ => 0) (opened 0 fun _ => 0)).out[1024] ≠
        fileByte eightBlocks (twoBlocks 1025 5 7) 1024 1024 := by
  refine ⟨twoContained (by decide) (by decide) (by decide), ?_⟩
  have some : 0 < (blockSize 0).toNat := by decide
  have out : (dataCopy eightBlocks (twoBlocks 1025 5 7) (blockSize 0) (fun _ => 0) (opened 0 fun _ => 0)).out =
      (List.range (written 1025 (blockSize 0))).map
        (sent eightBlocks 1024 (place eightBlocks (twoBlocks 1025 5 7) (blockSize 0) fun _ => 0) fun _ => 0) := dataCopyOut some rfl
  have length := congrArg List.length out
  rw [List.length_map, List.length_range] at length
  refine ⟨length.trans_gt (by decide), ?_⟩
  simp only [out, List.getElem_map, List.getElem_range]
  decide

end OpSys.Runscan
