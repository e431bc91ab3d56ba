import OpSys.Kernel.Inodes

/-! What the calls of `fs.c` do to files that are rows of bytes. -/
namespace OpSys.Fs
open Function OpSys.Blocks OpSys.Bytes OpSys.Allotment

variable {sb : Superblock} {σ σ' τ : Nat → Block} {t t' : Nat → Inode} {ip ip' jp : Inode} {i j s b k off n size : Nat} {W : Nat → Prop} {src bs : List UInt8}
  {c : Nat → UInt8} {devsw : Devsw}

def splice (bs : List UInt8) (off : Nat) (src : List UInt8) : List UInt8 := bs.take off ++ src ++ bs.drop (off + src.length)

/-- `writei` for the rows of bytes, with what it returns. -/
def File.write (f : File) (off : Nat) (src : List UInt8) : Int × List UInt8 :=
  if f.bytes.length < off ∨ 2 ^ 32 ≤ off + src.length then (-1, f.bytes)
  else ((src.take (MAXFILE * BSIZE - off)).length, splice f.bytes off (src.take (MAXFILE * BSIZE - off)))

def File.read (f : File) (off n : Nat) : Int × List UInt8 :=
  if f.bytes.length < off ∨ 2 ^ 32 ≤ off + n then (-1, [])
  else (((f.bytes.drop off).take n).length, (f.bytes.drop off).take n)

theorem spliceLength (inside : off ≤ bs.length) : (splice bs off src).length = max bs.length (off + src.length) := by
  unfold splice
  rw [List.length_append, List.length_append, List.length_take, List.length_drop]
  omega

theorem bytesSplice (inside : off ≤ size) :
    (List.range (max size (off + src.length))).map (memmove c off src) = splice ((List.range size).map c) off src := by
  refine List.ext_getElem ?_ fun p less less' => ?_
  · rw [spliceLength (by rwa [List.length_map, List.length_range]), List.length_map, List.length_map, List.length_range, List.length_range]
  · rw [List.getElem_map, List.getElem_range]
    have length : ((List.range size).map c).length = size := by rw [List.length_map, List.length_range]
    have front : (((List.range size).map c).take off).length = off := by rw [List.length_take, length, Nat.min_eq_left inside]
    unfold splice at less' ⊢
    by_cases before : p < off
    · rw [memmoveBefore before, List.getElem_append_left (by rw [List.length_append, front]; omega), List.getElem_append_left (by rwa [front]), List.getElem_take, List.getElem_map, List.getElem_range]
    · by_cases inside' : p < off + src.length
      · rw [memmoveInside (Nat.not_lt.mp before) inside', List.getElem_append_left (by rw [List.length_append, front]; exact inside'),
          List.getElem_append_right (by rw [front]; exact Nat.not_lt.mp before), List.getD_eq_getElem _ _ (by omega)]
        congr 1
        rw [front]
      · rw [memmoveBehind (Nat.not_lt.mp inside'), List.getElem_append_right (by rw [List.length_append, front]; exact Nat.not_lt.mp inside'), List.getElem_drop,
          List.getElem_map, List.getElem_range]
        congr 1
        rw [List.length_append, front]
        omega

/-! ### `readi` -/

theorem Sized.some (h : Sized σ ip) {p : Nat} (less : p < ip.size) : p / BSIZE < MAXFILE ∧ ip.block σ (p / BSIZE) ≠ 0 := by
  have inside : p / BSIZE < MAXFILE := Nat.div_lt_of_lt_mul (by have := h.fits; rw [Nat.mul_comm]; omega)
  exact ⟨inside, (h.mapped _ inside.le).mpr ((needsAt less).resolve_right (Nat.not_le.mpr inside))⟩

theorem bytesLength : (ip.file σ).bytes.length = ip.size := by rw [Inode.file, List.length_map, List.length_range]

theorem bytesFrom : (((List.range size).map c).drop off).take n = (List.range (min n (size - off))).map fun k => c (off + k) := by
  refine List.ext_getElem ?_ fun p less less' => ?_
  · rw [List.length_take, List.length_drop, List.length_map, List.length_map, List.length_range, List.length_range]
  · rw [List.getElem_take, List.getElem_drop, List.getElem_map, List.getElem_map, List.getElem_range, List.getElem_range]

theorem readiDoes (h : WellFormed sb σ) (use : InUse sb (inodes σ) i) (file : (inodes σ i).type ≠ T_DEV) (fits : n < 2 ^ 32) {F : Stop Panic → (Nat → Block) → Prop} :
    Does sb.size (readi devsw (inodes σ i) off n) σ [] []
      (fun x σ' => (x.1, x.2.1) = ((inodes σ i).file σ).read off n ∧ x.2.2 = inodes σ i ∧ σ' = σ) F := by
  have sized := h.sized i use
  have words := sized.fits
  generalize here : inodes σ i = ip at *
  unfold MAXFILE BSIZE at words
  unfold readi File.read
  rw [if_neg file, bytesLength]
  by_cases past : ip.size < off ∨ 2 ^ 32 ≤ off + n
  · rw [if_pos (by omega), if_pos past]
    exact doesPure ⟨rfl, rfl, rfl⟩
  · rw [if_neg (by omega), if_neg past]
    have total : (off + n) % 2 ^ 32 = off + n := Nat.mod_eq_of_lt (by omega)
    have clamp : (if ip.size < (off + n) % 2 ^ 32 then ip.size - off else n) = min n (ip.size - off) := by
      rw [total]
      split <;> omega
    have layout : Layout sb σ (update (inodes σ) i ip) := by rw [← here, update_eq_self]; exact h.layout
    have use' : InUse sb (update (inodes σ) i ip) i := by rwa [← here, update_eq_self]
    rw [clamp]
    have loop := readBlocksDoes (F := F) layout use' le_rfl (show off + min n (ip.size - off) ≤ MAXFILE * BSIZE by have := sized.fits; omega)
      fun p low high => (sized.some (by omega)).2
    refine loop.bind fun x σ' read => ?_
    obtain ⟨rfl, rfl⟩ := read
    refine doesPure ⟨?_, rfl, rfl⟩
    rw [Inode.file, bytesFrom, List.length_map, List.length_range]

/-! ### `writei` -/

theorem sizedNeeds (h : Sized σ ip) (le : ip.size ≤ n) (some : ip.block σ s ≠ 0) : Needs n s := by
  have needs := (h.mapped s (blockEnd some)).mp some
  unfold Needs at *
  split at needs
  · rename_i last
    rw [if_pos last]
    exact Nat.lt_of_lt_of_le needs le
  · rename_i data
    rw [if_neg data]
    exact Nat.lt_of_lt_of_le needs le

/-- The size after the loop, and the blocks and bytes that go with it. -/
theorem writtenSized {x : Nat × Inode} (h : Sized σ ip) (near : off ≤ ip.size) (fits : off + src.length ≤ MAXFILE * BSIZE)
    (done : Written sb (Needs (max ip.size (off + src.length))) t i σ ip off src x σ') :
    Sized σ' {x.2 with size := max ip.size (off + src.length)} := by
  have data : ∀ s < MAXFILE, s * BSIZE < max ip.size (off + src.length) → x.2.block σ' s ≠ 0 := fun s less needs => by
    by_cases old : s * BSIZE < ip.size
    · have some := (h.mapped s less.le).mpr (by rw [Needs, if_neg (Nat.ne_of_lt less)]; exact old)
      rwa [done.extends'.grows s some]
    · have here := done.mapped (s * BSIZE) (by omega) (by omega)
      rwa [Nat.mul_div_cancel s (by decide)] at here
  refine ⟨max_le h.fits fits, fun s place => ⟨fun some => ?_, fun needs => ?_⟩, fun p past => ?_⟩
  · rcases done.extends'.added s some with before | needs
    · exact sizedNeeds h (le_max_left _ _) before
    · exact needs
  · change x.2.block σ' s ≠ 0
    unfold Needs at needs
    split at needs
    · rename_i last
      have entry := data NDIRECT (by decide) needs
      rw [last]
      exact entryTable le_rfl (by decide) entry
    · rename_i other
      exact data s (Nat.lt_of_le_of_ne place other) needs
  · refine (congrFun done.content p).trans ?_
    dsimp only at past
    rw [memmoveBehind (by omega), h.tail p (by omega)]

theorem settleRefl (h : WellFormed sb σ) : Settles sb σ i σ (inodes σ i) :=
  ⟨h, rfl, fun _ _ _ _ => rfl, fun _ _ => rfl⟩

theorem layoutFields (h : Layout sb σ (update t i ip)) (addrs : ip'.addrs = ip.addrs) (type : ip'.type = ip.type) : Layout sb σ (update t i ip') := by
  have types : ∀ j, (update t i ip' j).type = (update t i ip j).type ∧ (update t i ip' j).addrs = (update t i ip j).addrs := fun j => by
    by_cases here : j = i
    · rw [here, update_self, update_self]
      exact ⟨type, addrs⟩
    · rw [update_of_ne here, update_of_ne here]
      exact ⟨rfl, rfl⟩
  have eq : holds sb σ (update t i ip') = holds sb σ (update t i ip) := by
    funext ⟨j, s⟩
    have block : (update t i ip' j).block σ s = (update t i ip j).block σ s := by
      unfold Inode.block Inode.table
      rw [(types j).2]
    exact if_congr (and_congr_right fun _ => and_congr_right fun _ => by rw [(types j).1]) block rfl
  unfold Layout
  rwa [eq]

/-- No block was missing. -/
theorem extendsSame (h : Sized σ ip) (ext : Extends sb (Needs ip.size) t i σ ip σ' ip') : ip' = ip := by
  have addrs : ip'.addrs = ip.addrs := funext fun m => by
    rw [← blockPlace (σ := σ') m, ← blockPlace (σ := σ) m]
    by_cases none : ip.block σ (place m) = 0
    · by_contra other
      have some : ip'.block σ' (place m) ≠ 0 := fun none' => other (none'.trans none.symm)
      rcases ext.added _ some with before | needs
      · exact before none
      · exact (h.mapped _ (blockEnd some)).mpr needs none
    · exact ext.grows _ none
  rw [ext.fields, addrs]

theorem writeiDoes (h : WellFormed sb σ) (use : InUse sb (inodes σ) i) (file : (inodes σ i).type ≠ T_DEV) (fits : src.length < 2 ^ 32) :
    Does sb.size (writei devsw i (inodes σ i) off src) σ [] []
      (fun x σ' => x.1 = (((inodes σ i).file σ).write off src).1 ∧ Settles sb σ i σ' x.2 ∧
        x.2.file σ' = {(inodes σ i).file σ with bytes := (((inodes σ i).file σ).write off src).2})
      fun e _ => Short sb (Needs (((inodes σ i).file σ).write off src).2.length) (inodes σ) i σ (inodes σ i) e := by
  have sized := h.sized i use
  have words := sized.fits
  unfold MAXFILE BSIZE at words
  unfold writei
  rw [if_neg file]
  by_cases past : (inodes σ i).size < off ∨ 2 ^ 32 ≤ off + src.length
  · have none : ((inodes σ i).file σ).write off src = (-1, ((inodes σ i).file σ).bytes) := if_pos (by rwa [bytesLength])
    rw [if_pos (by omega), none]
    exact doesPure ⟨rfl, settleRefl h, rfl⟩
  · have total : (off + src.length) % 2 ^ 32 = off + src.length := Nat.mod_eq_of_lt (by omega)
    have clamp : (if MAXFILE * BSIZE < (off + src.length) % 2 ^ 32 then src.take (MAXFILE * BSIZE - off) else src) = src.take (MAXFILE * BSIZE - off) := by
      rw [total]
      split
      · rfl
      · rw [List.take_of_length_le (by omega)]
    have some : ((inodes σ i).file σ).write off src =
        (((src.take (MAXFILE * BSIZE - off)).length : Int), splice ((inodes σ i).file σ).bytes off (src.take (MAXFILE * BSIZE - off))) := if_neg (by rwa [bytesLength])
    rw [if_neg (by omega), clamp, some]
    have room : off + (src.take (MAXFILE * BSIZE - off)).length ≤ MAXFILE * BSIZE := by
      rw [List.length_take]
      unfold MAXFILE BSIZE
      omega
    generalize src.take (MAXFILE * BSIZE - off) = src at *
    have near : off ≤ (inodes σ i).size := by omega
    have length : (splice ((inodes σ i).file σ).bytes off src).length = max (inodes σ i).size (off + src.length) := by
      rw [spliceLength (by rwa [bytesLength]), bytesLength]
    rw [length]
    have layout : Layout sb σ (update (inodes σ) i (inodes σ i)) := by rw [update_eq_self]; exact h.layout
    have use' : InUse sb (update (inodes σ) i (inodes σ i)) i := by rwa [update_eq_self]
    have loop := writeBlocksDoes (W := Needs (max (inodes σ i).size (off + src.length))) layout use' le_rfl room fun p low high => by
      have less : p < max (inodes σ i).size (off + src.length) := by omega
      refine ⟨(needsAt less).resolve_right fun past => ?_, fun indirect => ?_⟩
      · have := (Nat.le_div_iff_mul_le (by decide)).mp past
        omega
      · rw [Needs, if_pos rfl]
        exact Nat.lt_of_le_of_lt ((Nat.le_div_iff_mul_le (by decide)).mp indirect) less
    refine loop.bind fun x σ1 done => ?_
    have sized' := writtenSized sized near room done
    obtain ⟨last, ip1⟩ := x
    have fields : ip1 = {inodes σ i with addrs := ip1.addrs} := done.extends'.fields
    have file : ∀ s, s = max (inodes σ i).size (off + src.length) → ({ip1 with size := s} : Inode).file σ1 =
        {(inodes σ i).file σ with bytes := splice ((inodes σ i).file σ).bytes off src} := fun s same => by
      have content : ({ip1 with size := s} : Inode).content σ1 = memmove ((inodes σ i).content σ) off src := done.content
      unfold Inode.file
      rw [content, same, bytesSplice near, fields]
    have left : ∀ s, s = max (inodes σ i).size (off + src.length) → Leaves sb σ i σ1 {ip1 with size := s} := fun s same =>
      ⟨layoutFields done.extends'.layout rfl rfl, fun _ => by rw [same]; exact sized', done.extends'.others, done.extends'.low⟩
    have size : ip1.size = (inodes σ i).size := by rw [fields]
    have lastEq : last = off + src.length := done.last
    by_cases grow : 0 < src.length ∧ ip1.size < last
    · have longest : last = max (inodes σ i).size (off + src.length) := by omega
      have addrs : ∀ m, ip1.addrs m < 2 ^ 32 := fun m => by
        have fit := addrsFit done.extends'.layout (done.extends'.use use') m
        rwa [update_self] at fit
      dsimp only
      rw [if_pos grow]
      refine (iupdateDoes (left last longest).layout use.2.1).bind fun _ σ2 eq => doesPure ?_
      obtain ⟨settled, kept⟩ := (left last longest).written h ⟨use.1, use.2.1⟩ (show last < 2 ^ 32 by unfold MAXFILE BSIZE at room; omega) addrs
      have type : ip1.type ≠ 0 := by
        rw [fields]
        exact use.2.2
      rw [eq]
      exact ⟨rfl, settled, (kept type).trans (file last longest)⟩
    · have still : (inodes σ i).size = max (inodes σ i).size (off + src.length) := by omega
      have ext := done.extends'
      rw [← still] at ext
      have same : ip1 = inodes σ i := extendsSame sized ext
      have eq : ({ip1 with size := (inodes σ i).size} : Inode) = ip1 := by rw [same]
      have left' := left _ still
      have file' := file _ still
      rw [eq] at left' file'
      dsimp only
      rw [if_neg grow]
      exact doesPure ⟨rfl, left'.same h ⟨use.1, use.2.1⟩ same, file'⟩

end OpSys.Fs
