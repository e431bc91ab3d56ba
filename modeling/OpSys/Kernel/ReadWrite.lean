import OpSys.Kernel.Contents
import Mathlib.Data.List.GetD

/-! `readi` and `writei` against files that are rows of bytes. -/
namespace OpSys.Fs
open Function OpSys.Blocks OpSys.Bytes OpSys.Allotment

variable {sb : Superblock} {σ σ' τ : Nat → Block} {t : Nat → Inode} {ip ip' jp : Inode} {i j s b c bn off n rounds : Nat} {W : Nat → Prop} {src : List UInt8} {d : Block}

/-! ### Moving bytes -/

theorem memmoveNil : memmove d n [] = d := by
  funext p
  unfold memmove
  split
  · exact List.getD_nil ..
  · rfl

theorem memmoveBefore {p : Nat} (before : p < n) : memmove d n src p = d p := if_neg (Nat.not_le.mpr before)

theorem memmoveBehind {p : Nat} (behind : n + src.length ≤ p) : memmove d n src p = d p := by
  unfold memmove
  split
  · exact List.getD_eq_default _ _ (by omega)
  · rfl

theorem memmoveInside {p : Nat} (low : n ≤ p) (high : p < n + src.length) : memmove d n src p = src.getD (p - n) 0 := by
  unfold memmove
  rw [if_pos low, List.getD_eq_getElem _ _ (show p - n < src.length by omega), List.getD_eq_getElem _ _ (show p - n < src.length by omega)]

theorem memmoveSplit (k : Nat) : memmove (memmove d n (src.take k)) (n + min src.length k) (src.drop k) = memmove d n src := by
  have length : (src.take k).length = min src.length k := by rw [List.length_take, Nat.min_comm]
  funext p
  by_cases before : p < n
  · rw [memmoveBefore (by omega), memmoveBefore before, memmoveBefore before]
  · by_cases first : p < n + min src.length k
    · rw [memmoveBefore first, memmoveInside (by omega) (by omega), memmoveInside (by omega) (by omega)]
      rw [List.getD_eq_getElem _ _ (show p - n < (src.take k).length by omega), List.getD_eq_getElem _ _ (show p - n < src.length by omega), List.getElem_take]
    · by_cases second : p < n + src.length
      · have rest : (src.drop k).length = src.length - k := List.length_drop
        rw [memmoveInside (by omega) (by omega), memmoveInside (by omega) second]
        rw [List.getD_eq_getElem _ _ (show p - (n + min src.length k) < (src.drop k).length by omega), List.getD_eq_getElem _ _ (show p - n < src.length by omega),
          List.getElem_drop]
        congr 1
        omega
      · have rest : (src.drop k).length = src.length - k := List.length_drop
        rw [memmoveBehind (by omega), memmoveBehind (by omega), memmoveBehind (by omega)]

/-! ### A block of a file -/

theorem bmapHit (h : Layout sb σ (update t i ip)) (use : InUse sb (update t i ip) i) (inside : bn < MAXFILE) (some : ip.block σ bn ≠ 0)
    {F : Stop Panic → (Nat → Block) → Prop} : Does sb.size (bmap ip bn) σ [] [] (fun x σ' => x = (ip.block σ bn, ip) ∧ σ' = σ) F := by
  unfold bmap
  split
  · rename_i low
    have here : ip.block σ bn = ip.addrs ⟨bn, Nat.lt_succ_of_lt low⟩ := dif_pos low
    rw [here] at some ⊢
    unfold bmapAddr
    rw [if_neg some]
    exact doesPure ⟨rfl, rfl⟩
  · rename_i high
    have low := Nat.not_lt.mp high
    have table := entryTable low inside some
    have entry := blockEntry (σ := σ) low inside table
    rw [entry] at some ⊢
    rw [if_pos (by unfold MAXFILE at inside; unfold NDIRECT NINDIRECT at *; omega), bmapAddr, if_neg table]
    have range := h.inside use (s := MAXFILE)
    rw [update_self] at range
    refine doesBread (range table).2 List.not_mem_nil ?_
    rw [if_neg some]
    exact doesBrelse (doesPure ⟨rfl, rfl⟩)

/-- Another block `d` for what a file has. -/
theorem extendsWrite (h : Layout sb σ (update t i ip)) (use : InUse sb (update t i ip) i) (inside : bn < MAXFILE) (some : ip.block σ bn ≠ 0) :
    Extends sb W t i σ ip (update σ (ip.block σ bn) d) ip ∧
      ∀ p, ip.content (update σ (ip.block σ bn) d) p = if p / BSIZE = bn then d (p % BSIZE) else ip.content σ p := by
  have self : update t i ip i = ip := update_self ..
  have here : (update t i ip i).block σ bn = ip.block σ bn := by rw [self]
  have range := h.inside use (s := bn)
  have owned := h.owned use (s := bn)
  rw [here] at range owned
  obtain ⟨first, below⟩ := range some
  have away : ∀ j s, InUse sb (update t i ip) j → (update t i ip j).block σ s ≠ 0 → (j ≠ i ∨ s ≠ bn) →
      update σ (ip.block σ bn) d ((update t i ip j).block σ s) = σ ((update t i ip j).block σ s) := fun j s use' some' other => by
    rw [update_of_ne]
    intro same
    obtain ⟨rfl, rfl⟩ := h.apart use' use (same.trans here.symm) some'
    exact other.elim (fun bad => bad rfl) fun bad => bad rfl
  have blocks : ∀ j, InUse sb (update t i ip) j → ∀ s, (update t i ip j).block (update σ (ip.block σ bn) d) s = (update t i ip j).block σ s :=
    fun j use' => blockSame fun some' => away j MAXFILE use' some' (.inr (Nat.ne_of_gt inside))
  have mine := blocks i use
  rw [self] at mine
  refine ⟨⟨?_, rfl, fun s _ => mine s, fun s some' => .inl (by rwa [mine] at some'), fun j other use' s some' => ?_, fun c less => ?_⟩, fun p => ?_⟩
  · have disk : Disk sb (update σ (ip.block σ bn) d) (holds sb σ (update t i ip)) :=
      h.frame (fun c less _ => update_of_ne (by rintro rfl; exact Nat.not_le.mpr less first) _ _) fun c less free => update_of_ne (by
        rintro rfl
        rw [owned some] at free
        cases free) _ _
    have same : holds sb (update σ (ip.block σ bn) d) (update t i ip) = holds sb σ (update t i ip) := by
      funext ⟨j, s⟩
      exact if_ctx_congr Iff.rfl (fun use' => blocks j use' s) fun _ => rfl
    unfold Layout
    rwa [same]
  · have one := away j s
    unfold InUse at one
    rw [update_of_ne other] at one
    exact one use' some' (.inl other)
  · exact update_of_ne (by rintro rfl; exact Nat.not_le.mpr less (Nat.le_trans (firstPos sb).2.le first)) _ _
  · unfold Inode.content
    rw [mine]
    by_cases same : p / BSIZE = bn
    · rw [if_pos same, same, if_pos ⟨inside, some⟩, update_self]
    · rw [if_neg same]
      split
      · rename_i data
        have one := away i (p / BSIZE) use
        rw [self] at one
        rw [one data.2 (.inr same)]
      · rfl

theorem contentAt (inside : bn < MAXFILE) (some : ip.block σ bn ≠ 0) {p : Nat} (here : p / BSIZE = bn) : ip.content σ p = σ (ip.block σ bn) (p % BSIZE) := by
  subst here
  exact if_pos ⟨inside, some⟩

theorem inBlock (small : n < BSIZE - off % BSIZE) : (off + n) / BSIZE = off / BSIZE ∧ (off + n) % BSIZE = off % BSIZE + n := by
  unfold BSIZE at *
  omega

/-! ### The loops -/

theorem readBlocksDoes {left : Nat} (h : Layout sb σ (update t i ip)) (use : InUse sb (update t i ip) i) (enough : left ≤ rounds) (fits : off + left ≤ MAXFILE * BSIZE)
    (mapped : ∀ p, off ≤ p → p < off + left → ip.block σ (p / BSIZE) ≠ 0) {F : Stop Panic → (Nat → Block) → Prop} :
    Does sb.size (readBlocks rounds ip off left) σ [] [] (fun x σ' => x = ((List.range left).map fun k => ip.content σ (off + k), ip) ∧ σ' = σ) F := by
  induction rounds generalizing off left with
  | zero =>
    obtain rfl : left = 0 := by omega
    exact doesPure ⟨rfl, rfl⟩
  | succ rounds ih =>
    unfold readBlocks
    split
    · rename_i none
      subst none
      exact doesPure ⟨rfl, rfl⟩
    · rename_i more
      have room : 0 < BSIZE - off % BSIZE := Nat.sub_pos_of_lt (Nat.mod_lt off (by decide))
      have inside : off / BSIZE < MAXFILE := Nat.div_lt_of_lt_mul (by rw [Nat.mul_comm]; omega)
      have some := mapped off le_rfl (by omega)
      refine (bmapHit h use inside some).bind fun x σ' hit => ?_
      obtain ⟨rfl, rfl⟩ := hit
      have range := h.inside use (s := off / BSIZE)
      rw [update_self] at range
      refine doesBread (range some).2 List.not_mem_nil (doesBrelse ?_)
      generalize chunk : min left (BSIZE - off % BSIZE) = m
      refine (ih (show left - m ≤ rounds by omega) (by omega) fun p low high => mapped p (by omega) (by omega)).bind fun x σ'' read => ?_
      obtain ⟨rfl, rfl⟩ := read
      refine doesPure ⟨Prod.ext ?_ rfl, rfl⟩
      conv_rhs => rw [show left = m + (left - m) by omega, List.range_add, List.map_append, List.map_map]
      refine congrArg₂ (· ++ ·) (List.map_congr_left fun k mem => ?_) (List.map_congr_left fun k _ => ?_)
      · obtain ⟨same, rest⟩ := inBlock (show k < BSIZE - off % BSIZE by have := List.mem_range.mp mem; omega)
        rw [contentAt inside some same, rest]
      · rw [Function.comp_apply, Nat.add_assoc]

/-- What the loop of `writei` leaves. -/
structure Written (sb : Superblock) (W : Nat → Prop) (t : Nat → Inode) (i : Nat) (σ : Nat → Block) (ip : Inode) (off : Nat) (src : List UInt8) (x : Nat × Inode)
    (σ' : Nat → Block) : Prop where
  last : x.1 = off + src.length
  extends' : Extends sb W t i σ ip σ' x.2
  content : x.2.content σ' = memmove (ip.content σ) off src
  mapped : ∀ p, off ≤ p → p < off + src.length → x.2.block σ' (p / BSIZE) ≠ 0

/-- One round of the loop changes the bytes of one block. -/
theorem chunkWritten (inside : off / BSIZE < MAXFILE) (some : ip.block σ (off / BSIZE) ≠ 0) (p : Nat) :
    (if p / BSIZE = off / BSIZE then memmove (σ (ip.block σ (off / BSIZE))) (off % BSIZE) (src.take (BSIZE - off % BSIZE)) (p % BSIZE) else ip.content σ p) =
      memmove (ip.content σ) off (src.take (BSIZE - off % BSIZE)) p := by
  split
  · rename_i here
    unfold memmove
    rw [contentAt inside some here]
    refine if_congr ?_ ?_ rfl
    · unfold BSIZE at *
      omega
    · congr 1
      unfold BSIZE at *
      omega
  · rename_i other
    by_cases before : p < off
    · exact (memmoveBefore before).symm
    · refine (memmoveBehind ?_).symm
      have length := List.length_take_le (BSIZE - off % BSIZE) src
      unfold BSIZE at *
      omega

theorem writeBlocksDoes (h : Layout sb σ (update t i ip)) (use : InUse sb (update t i ip) i) (enough : src.length ≤ rounds) (fits : off + src.length ≤ MAXFILE * BSIZE)
    (want : ∀ p, off ≤ p → p < off + src.length → W (p / BSIZE) ∧ (NDIRECT ≤ p / BSIZE → W MAXFILE)) :
    Does sb.size (writeBlocks rounds ip off src) σ [] [] (Written sb W t i σ ip off src) fun e _ => Short sb W t i σ ip e := by
  induction rounds generalizing σ ip off src with
  | zero =>
    obtain rfl : src = [] := List.length_eq_zero_iff.mp (by omega)
    exact doesPure ⟨rfl, .refl h, memmoveNil.symm, fun p low high => absurd high (Nat.not_lt.mpr low)⟩
  | succ rounds ih =>
    unfold writeBlocks
    split
    · rename_i none
      subst none
      exact doesPure ⟨rfl, .refl h, memmoveNil.symm, fun p low high => absurd high (Nat.not_lt.mpr low)⟩
    · rename_i more
      have length : 0 < src.length := List.length_pos_of_ne_nil more
      have room : 0 < BSIZE - off % BSIZE := Nat.sub_pos_of_lt (Nat.mod_lt off (by decide))
      have inside : off / BSIZE < MAXFILE := Nat.div_lt_of_lt_mul (by rw [Nat.mul_comm]; omega)
      obtain ⟨wants, table⟩ := want off le_rfl (by omega)
      refine (bmapDoes h use inside wants table).bind fun x σ1 got => ?_
      obtain ⟨addr, ip1⟩ := x
      rcases got with maps | ⟨past, spent⟩
      · obtain ⟨ext1, same, block, some⟩ := maps
        have use1 := ext1.use use
        dsimp only at block
        subst block
        have range := ext1.layout.inside use1 (s := off / BSIZE)
        rw [update_self] at range
        refine doesBread (range some).2 List.not_mem_nil (doesBwrite List.mem_cons_self (doesBrelse ?_))
        obtain ⟨ext2, data⟩ := extendsWrite (W := W) (d := memmove (σ1 (ip1.block σ1 (off / BSIZE))) (off % BSIZE) (src.take (BSIZE - off % BSIZE))) ext1.layout use1 inside some
        have rest : (src.drop (BSIZE - off % BSIZE)).length = src.length - (BSIZE - off % BSIZE) := List.length_drop
        have loop := ih ext2.layout (ext2.use use1) (show (src.drop (BSIZE - off % BSIZE)).length ≤ rounds by omega)
          (show off + min src.length (BSIZE - off % BSIZE) + (src.drop (BSIZE - off % BSIZE)).length ≤ MAXFILE * BSIZE by omega) fun p low high => want p (by omega) (by omega)
        have ext := ext1.trans ext2
        refine loop.weaken (fun x σ' done => ⟨by rw [done.last]; omega, ext.trans done.extends', ?_, fun p low high => ?_⟩) fun e _ stop => ⟨stop.1, stop.2.after ext⟩
        · rw [done.content]
          refine Eq.trans (congrArg (memmove · _ _) ?_) (memmoveSplit (BSIZE - off % BSIZE))
          rw [← same]
          exact funext fun p => (data p).trans (chunkWritten inside some p)
        · by_cases first : p < off + min src.length (BSIZE - off % BSIZE)
          · have here : p / BSIZE = off / BSIZE := by
              rw [show p = off + (p - off) by omega]
              exact (inBlock (by omega)).1
            have kept : ip1.block (update σ1 (ip1.block σ1 (off / BSIZE)) _) (off / BSIZE) = ip1.block σ1 (off / BSIZE) := ext2.grows _ some
            rw [here, done.extends'.grows _ (by rwa [kept]), kept]
            exact some
          · exact done.mapped p (by omega) (by omega)
      · exact doesBeyond past ⟨.inr rfl, spent⟩

end OpSys.Fs
