import OpSys.Kernel.Bitmap

/-! Which blocks an inode has and what is in them, and `bmap`, which adds blocks. -/
namespace OpSys.Fs
open Function OpSys.Blocks OpSys.Bytes OpSys.Allotment

variable {sb : Superblock} {σ σ' τ : Nat → Block} {t : Nat → Inode} {ip ip' jp : Inode} {i j s b c bn : Nat} {W : Nat → Prop}

/-- The block for the `s`th part of the file, or 0. The one of the table comes last. -/
def Inode.block (ip : Inode) (σ : Nat → Block) (s : Nat) : Nat :=
  if low : s < NDIRECT then ip.addrs ⟨s, Nat.lt_succ_of_lt low⟩
  else if s < MAXFILE then if ip.table = 0 then 0 else word (σ ip.table) (s - NDIRECT)
  else if s = MAXFILE then ip.table else 0

/-- The bytes of the file. There are zeros behind its end. -/
def Inode.content (ip : Inode) (σ : Nat → Block) (p : Nat) : UInt8 :=
  if p / BSIZE < MAXFILE ∧ ip.block σ (p / BSIZE) ≠ 0 then σ (ip.block σ (p / BSIZE)) (p % BSIZE) else 0

def InUse (sb : Superblock) (t : Nat → Inode) (i : Nat) : Prop := 0 < i ∧ i < sb.ninodes ∧ (t i).type ≠ 0

instance (sb : Superblock) (t : Nat → Inode) (i : Nat) : Decidable (InUse sb t i) := by unfold InUse; infer_instance

def holds (sb : Superblock) (σ : Nat → Block) (t : Nat → Inode) (k : Nat × Nat) : Nat := if InUse sb t k.1 then (t k.1).block σ k.2 else 0

abbrev Layout (sb : Superblock) (σ : Nat → Block) (t : Nat → Inode) : Prop := Disk sb σ (holds sb σ t)

theorem holdsUse (use : InUse sb t i) : holds sb σ t (i, s) = (t i).block σ s := if_pos use

theorem blockTable : ip.block σ MAXFILE = ip.table := rfl

theorem blockEntry (low : NDIRECT ≤ s) (high : s < MAXFILE) (some : ip.table ≠ 0) : ip.block σ s = word (σ ip.table) (s - NDIRECT) := by
  rw [Inode.block, dif_neg (Nat.not_lt.mpr low), if_pos high, if_neg some]

theorem entryTable (low : NDIRECT ≤ s) (high : s < MAXFILE) (some : ip.block σ s ≠ 0) : ip.table ≠ 0 := fun none => some <| by
  rw [Inode.block, dif_neg (Nat.not_lt.mpr low), if_pos high, if_pos none]

theorem blockEnd (some : ip.block σ s ≠ 0) : s ≤ MAXFILE := by
  by_contra past
  refine some ?_
  have high : ¬ s < NDIRECT := fun low => past (Nat.le_of_lt (Nat.lt_trans low (by decide)))
  rw [Inode.block, dif_neg high, if_neg fun low => past low.le, if_neg fun same => past same.le]

theorem blockSame (same : ip.table ≠ 0 → σ' ip.table = σ ip.table) (s : Nat) : ip.block σ' s = ip.block σ s := by
  unfold Inode.block
  by_cases none : ip.table = 0
  · rw [if_pos none, if_pos none]
  · rw [same none]

theorem contentSame (same : ∀ s, ip.block σ s ≠ 0 → σ' (ip.block σ s) = σ (ip.block σ s)) : ip.content σ' = ip.content σ := by
  funext p
  unfold Inode.content
  rw [blockSame fun some => same MAXFILE some]
  split
  · rename_i some
    rw [same _ some.2]
  · rfl

theorem Disk.apart (h : Layout sb σ t) (use : InUse sb t i) (use' : InUse sb t j) {s' : Nat} (same : (t i).block σ s = (t j).block σ s')
    (some : (t i).block σ s ≠ 0) : i = j ∧ s = s' := by
  have key := h.allotted.apart (i, s) (j, s') (by rw [holdsUse use, holdsUse use', same]) (by rwa [holdsUse use])
  exact ⟨congrArg Prod.fst key, congrArg Prod.snd key⟩

theorem Disk.inside (h : Layout sb σ t) (use : InUse sb t i) (some : (t i).block σ s ≠ 0) : sb.first ≤ (t i).block σ s ∧ (t i).block σ s < sb.size := by
  have inside := h.allotted.inside (i, s) (by rwa [holdsUse use])
  rwa [holdsUse use] at inside

theorem Disk.owned (h : Layout sb σ t) (use : InUse sb t i) (some : (t i).block σ s ≠ 0) : taken sb σ ((t i).block σ s) = true := by
  have owned := h.allotted.owned (k := (i, s)) (by rwa [holdsUse use])
  rwa [holdsUse use] at owned

/-- An inode has got more blocks, or what is in them has changed. The other files and the
blocks in front are as they were. -/
structure Extends (sb : Superblock) (W : Nat → Prop) (t : Nat → Inode) (i : Nat) (σ : Nat → Block) (ip : Inode) (σ' : Nat → Block) (ip' : Inode) : Prop where
  layout : Layout sb σ' (update t i ip')
  fields : ip' = {ip with addrs := ip'.addrs}
  grows : ∀ s, ip.block σ s ≠ 0 → ip'.block σ' s = ip.block σ s
  added : ∀ s, ip'.block σ' s ≠ 0 → ip.block σ s ≠ 0 ∨ W s
  others : ∀ j, j ≠ i → InUse sb t j → ∀ s, (t j).block σ s ≠ 0 → σ' ((t j).block σ s) = σ ((t j).block σ s)
  low : ∀ b < sb.bitmap, σ' b = σ b

theorem Extends.refl (h : Layout sb σ (update t i ip)) : Extends sb W t i σ ip σ ip :=
  ⟨h, rfl, fun _ _ => rfl, fun _ some => .inl some, fun _ _ _ _ _ => rfl, fun _ _ => rfl⟩

theorem Extends.trans (h : Extends sb W t i σ ip τ jp) (h' : Extends sb W t i τ jp σ' ip') : Extends sb W t i σ ip σ' ip' := by
  have others : ∀ j, j ≠ i → InUse sb t j → ∀ s, (t j).block τ s = (t j).block σ s := fun j other use => blockSame fun some => h.others j other use MAXFILE some
  refine ⟨h'.layout, ?_, fun s some => ?_, fun s some => ?_, fun j other use s some => ?_, fun b less => (h'.low b less).trans (h.low b less)⟩
  · rw [h'.fields, h.fields]
  · rw [h'.grows s (by rwa [h.grows s some]), h.grows s some]
  · rcases h'.added s some with before | wanted
    · exact h.added s before
    · exact .inr wanted
  · have here := others j other use s
    rw [← here, h'.others j other use s (by rwa [here]), here, h.others j other use s some]

theorem useUpdate (type : ip.type = (t i).type) : InUse sb (update t i ip) j ↔ InUse sb t j := by
  unfold InUse
  by_cases same : j = i
  · rw [same, update_self, type]
  · rw [update_of_ne same]

theorem extendsOne (ip' : Inode) (h : Layout sb σ t) (use : InUse sb t i) (free : taken sb σ b = false) (want : W s) (blank : (t i).block σ s = 0) (place : s ≤ MAXFILE)
    (disk : Disk sb σ' (update (holds sb σ t) (i, s) b)) (fields : ip' = {t i with addrs := ip'.addrs})
    (blocks : ∀ s', ip'.block σ' s' = update ((t i).block σ) s b s') (low : ∀ c < sb.bitmap, σ' c = σ c)
    (files : ∀ c, sb.first ≤ c → c ≠ (t i).table → σ' c = σ c) (inside : b < sb.size) :
    Extends sb W t i σ (t i) σ' ip' ∧ ip'.content σ' = (t i).content σ := by
  have away : ∀ j s', InUse sb t j → (t j).block σ s' ≠ 0 → (j ≠ i ∨ s' ≠ MAXFILE) → σ' ((t j).block σ s') = σ ((t j).block σ s') := fun j s' use' some other => by
    refine files _ (h.inside use' some).1 fun same => ?_
    obtain ⟨rfl, rfl⟩ := h.apart use' use (show _ = (t i).block σ MAXFILE from same) some
    exact other.elim (fun bad => bad rfl) fun bad => bad rfl
  have others : ∀ j, j ≠ i → InUse sb t j → ∀ s', (t j).block σ s' ≠ 0 → σ' ((t j).block σ s') = σ ((t j).block σ s') :=
    fun j other use' s' some => away j s' use' some (.inl other)
  refine ⟨⟨?_, fields, fun s' some => ?_, fun s' some => ?_, others, low⟩, ?_⟩
  · have same : holds sb σ' (update t i ip') = update (holds sb σ t) (i, s) b := by
      funext ⟨j, s'⟩
      unfold holds
      dsimp only
      rw [if_congr (useUpdate (by rw [fields])) rfl rfl]
      by_cases here : j = i
      · subst here
        rw [if_pos use, update_self, blocks]
        by_cases there : s' = s
        · subst there
          rw [update_self, update_self]
        · rw [update_of_ne there, update_of_ne fun bad => there (congrArg Prod.snd bad)]
          exact (if_pos use).symm
      · rw [update_of_ne here, update_of_ne fun bad => here (congrArg Prod.fst bad)]
        refine if_ctx_congr Iff.rfl (fun use' => ?_) fun _ => rfl
        exact blockSame (fun some => others j here use' MAXFILE some) s'
    unfold Layout
    rwa [same]
  · rw [blocks, update_of_ne]
    rintro rfl
    exact some blank
  · rw [blocks] at some
    by_cases here : s' = s
    · exact .inr (here ▸ want)
    · rw [update_of_ne here] at some
      exact .inl some
  · funext p
    unfold Inode.content
    rw [blocks]
    by_cases here : p / BSIZE = s
    · rw [here, update_self, blank, if_neg (c := s < MAXFILE ∧ (0 : Nat) ≠ 0) fun bad => bad.2 rfl]
      split
      · rename_i data
        have other : b ≠ (t i).table := by
          rintro rfl
          have some : (t i).block σ MAXFILE ≠ 0 := data.2
          have owned := h.owned use some
          rw [blockTable, free] at owned
          cases owned
        rw [files b (h.allotted.free free) other]
        exact h.blank b inside free _ (Nat.mod_lt p (by decide))
      · rfl
    · rw [update_of_ne here]
      split
      · rename_i data
        exact congrFun (away i _ use data.2 (.inr (Nat.ne_of_lt data.1))) _
      · rfl

theorem Extends.base (h : Extends sb W (update t i jp) i σ ip σ' ip') : Extends sb W t i σ ip σ' ip' := by
  obtain ⟨layout, fields, grows, added, others, low⟩ := h
  rw [update_idem] at layout
  refine ⟨layout, fields, grows, added, fun j other use s some => ?_, low⟩
  have same := others j other
  unfold InUse at same
  rw [update_of_ne other] at same
  exact same use s some

/-- There is no free block for a place that wants one. -/
def Spent (sb : Superblock) (W : Nat → Prop) (t : Nat → Inode) (i : Nat) (σ : Nat → Block) (ip : Inode) : Prop :=
  ∃ τ jp s, Extends sb W t i σ ip τ jp ∧ Full sb τ ∧ W s ∧ jp.block τ s = 0

theorem Spent.after (h : Extends sb W t i σ ip τ jp) (spent : Spent sb W t i τ jp) : Spent sb W t i σ ip := by
  obtain ⟨υ, kp, s, more, rest⟩ := spent
  exact ⟨υ, kp, s, h.trans more, rest⟩

/-- How a call stops that needs a block: `balloc` panics, or it gives a block behind the end of
the disk. -/
def Short (sb : Superblock) (W : Nat → Prop) (t : Nat → Inode) (i : Nat) (σ : Nat → Block) (ip : Inode) (e : Stop Panic) : Prop :=
  (e = .fails .outOfBlocks ∨ e = .beyond) ∧ Spent sb W t i σ ip

/-- The inode has a block for the place, and its contents are what they were. -/
structure Maps (sb : Superblock) (W : Nat → Prop) (t : Nat → Inode) (i : Nat) (σ : Nat → Block) (ip : Inode) (s addr : Nat) (σ' : Nat → Block) (ip' : Inode) : Prop where
  extends' : Extends sb W t i σ ip σ' ip'
  content : ip'.content σ' = ip.content σ
  block : ip'.block σ' s = addr
  some : addr ≠ 0

def Mapped (sb : Superblock) (W : Nat → Prop) (t : Nat → Inode) (i : Nat) (σ : Nat → Block) (ip : Inode) (s : Nat) (x : Nat × Inode) (σ' : Nat → Block) : Prop :=
  Maps sb W t i σ ip s x.1 σ' x.2 ∨ sb.size ≤ x.1 ∧ Spent sb W t i σ ip

def place (k : Fin (NDIRECT + 1)) : Nat := if k.val < NDIRECT then k else MAXFILE

theorem blockPlace (k : Fin (NDIRECT + 1)) : ip.block σ (place k) = ip.addrs k := by
  unfold place
  split
  · rename_i low
    exact dif_pos low
  · rename_i high
    have last : k = 12 := Fin.ext (show k.val = 12 by have := k.isLt; unfold NDIRECT at *; omega)
    rw [last]
    rfl

theorem setDirect {k : Fin (NDIRECT + 1)} (low : k.val < NDIRECT) (same : ip.table ≠ 0 → σ' ip.table = σ ip.table) (s : Nat) :
    (ip.setAddr k b).block σ' s = update (ip.block σ) (place k) b s := by
  have table : (ip.setAddr k b).table = ip.table := update_of_ne (fun bad => by rw [← bad] at low; exact absurd low (by decide)) _ _
  have here : place k = k.val := if_pos low
  rw [here]
  by_cases first : s < NDIRECT
  · rw [Inode.block, dif_pos first]
    by_cases hit : s = k.val
    · subst hit
      rw [update_self]
      exact update_self ..
    · rw [update_of_ne hit, Inode.block, dif_pos first]
      exact update_of_ne (fun bad => hit (congrArg Fin.val bad)) _ _
  · have other : s ≠ k.val := by rintro rfl; exact first low
    rw [update_of_ne other, ← blockSame same s]
    unfold Inode.block
    rw [dif_neg first, dif_neg first, table]

theorem setTable (none : ip.table = 0) (blank : ∀ o < BSIZE, σ' b o = 0) (s : Nat) : (ip.setAddr 12 b).block σ' s = update (ip.block σ) MAXFILE b s := by
  have table : (ip.setAddr 12 b).table = b := by
    change update ip.addrs 12 b 12 = b
    exact update_self ..
  by_cases first : s < NDIRECT
  · have other : s ≠ MAXFILE := by rintro rfl; exact absurd first (by decide)
    rw [update_of_ne other]
    unfold Inode.block
    rw [dif_pos first, dif_pos first]
    exact update_of_ne (fun bad => Nat.ne_of_lt first (congrArg Fin.val bad)) _ _
  · by_cases last : s = MAXFILE
    · rw [last, update_self]
      exact table
    · rw [update_of_ne last]
      unfold Inode.block
      rw [dif_neg first, dif_neg first, table, if_pos none]
      split
      · split
        · rfl
        · refine wordZero fun o less => blank _ ?_
          unfold BSIZE
          unfold MAXFILE NDIRECT at *
          omega
      · rfl

theorem allocsAddr (h : Layout sb σ (update t i ip)) (use : InUse sb (update t i ip) i) (done : Allocs sb σ b σ') {k : Fin (NDIRECT + 1)} (none : ip.addrs k = 0)
    (want : W (place k)) : Mapped sb W t i σ ip (place k) (b, ip.setAddr k b) σ' := by
  have self : update t i ip i = ip := update_self ..
  have blank : ip.block σ (place k) = 0 := (blockPlace k).trans none
  by_cases inside : b < sb.size
  · have low := h.allotted.free done.free
    have keep : ip.table ≠ 0 → σ' ip.table = σ ip.table := fun some => done.same (.inr (by
      have inside := h.inside use (s := MAXFILE)
      rw [self] at inside
      exact (inside some).1))
    have blocks : ∀ s, (ip.setAddr k b).block σ' s = update (ip.block σ) (place k) b s := by
      by_cases direct : k.val < NDIRECT
      · exact setDirect direct keep
      · have last : k = 12 := Fin.ext (show k.val = 12 by have := k.isLt; unfold NDIRECT at *; omega)
        subst last
        refine setTable none fun o less => ?_
        rw [done.same (.inr low)]
        exact h.blank b inside done.free o less
    have pos : b ≠ 0 := (Nat.lt_of_lt_of_le h.allotted.some.1 low).ne'
    have near : place k ≤ MAXFILE := by
      unfold place
      split
      · rename_i low
        exact Nat.le_of_lt (Nat.lt_trans low (by decide))
      · exact le_rfl
    have disk := done.disk (k := (i, place k)) h inside (by rw [holdsUse use, self, blank])
    have one := extendsOne (W := W) (ip.setAddr k b) h use done.free want (by rwa [self]) near disk (by rw [self]; rfl) (by rwa [self])
      (fun c less => done.same (.inl less)) (fun c high _ => done.same (.inr high)) inside
    rw [self] at one
    exact .inl ⟨one.1.base, one.2, by rw [blocks, update_self], pos⟩
  · exact .inr ⟨Nat.not_lt.mp inside, σ, ip, place k, .refl h, done.beyond (Nat.not_lt.mp inside), want, blank⟩

theorem bmapAddrDoes (h : Layout sb σ (update t i ip)) (use : InUse sb (update t i ip) i) {k : Fin (NDIRECT + 1)} (want : W (place k)) :
    Does sb.size (bmapAddr ip k) σ [] [] (Mapped sb W t i σ ip (place k)) fun e _ => Short sb W t i σ ip e := by
  unfold bmapAddr
  split
  · rename_i none
    have alloc := (ballocDoes h fun c (mem : c ∈ []) => absurd mem List.not_mem_nil).weaken (fun b σ' done => done) fun e _ stop =>
      (⟨.inl stop.1, σ, ip, place k, .refl h, stop.2, want, (blockPlace k).trans none⟩ : Short sb W t i σ ip e)
    exact alloc.bind fun b σ' done => doesPure (allocsAddr h use done none want)
  · rename_i some
    exact doesPure (.inl ⟨.refl h, rfl, blockPlace k, some⟩)

theorem Maps.after (h : Extends sb W t i σ ip τ jp) (same : jp.content τ = ip.content σ) (maps : Maps sb W t i τ jp s b σ' ip') : Maps sb W t i σ ip s b σ' ip' :=
  ⟨h.trans maps.extends', maps.content.trans same, maps.block, maps.some⟩

theorem allocsEntry (h : Layout sb σ (update t i ip)) (use : InUse sb (update t i ip) i) (some : ip.table ≠ 0) (low : NDIRECT ≤ bn) (high : bn < MAXFILE)
    (none : word (σ ip.table) (bn - NDIRECT) = 0) (done : Allocs sb σ b τ) (want : W bn) :
    Mapped sb W t i σ ip bn (b, ip) (update τ ip.table (setWord (σ ip.table) (bn - NDIRECT) b)) := by
  have self : update t i ip i = ip := update_self ..
  have blank : ip.block σ bn = 0 := (blockEntry low high some).trans none
  by_cases inside : b < sb.size
  · have first := h.allotted.free done.free
    have pos : b ≠ 0 := (Nat.lt_of_lt_of_le h.allotted.some.1 first).ne'
    have fits : b < 2 ^ 32 := Nat.lt_trans inside (h.size ▸ wordLt _ _)
    have table := h.inside use (s := MAXFILE)
    have owned := h.owned use (s := MAXFILE)
    rw [self] at table owned
    obtain ⟨tableLow, tableHigh⟩ := table some
    have other : ip.table ≠ b := fun same => by
      have owned := owned some
      rw [blockTable, same, done.free] at owned
      cases owned
    have blocks : ∀ s, ip.block (update τ ip.table (setWord (σ ip.table) (bn - NDIRECT) b)) s = update (ip.block σ) bn b s := fun s => by
      by_cases entry : NDIRECT ≤ s ∧ s < MAXFILE
      · rw [blockEntry entry.1 entry.2 some, update_self]
        by_cases here : s = bn
        · rw [here, update_self, wordSet fits]
        · rw [update_of_ne here, wordSetOther (by omega), blockEntry entry.1 entry.2 some]
      · rw [update_of_ne (by rintro rfl; exact entry ⟨low, high⟩)]
        unfold Inode.block
        by_cases direct : s < NDIRECT
        · rw [dif_pos direct, dif_pos direct]
        · have past : ¬ s < MAXFILE := fun less => entry ⟨Nat.not_lt.mp direct, less⟩
          rw [dif_neg direct, dif_neg direct, if_neg past, if_neg past]
    have disk := done.disk (k := (i, bn)) h inside (by rw [holdsUse use, self, blank])
    have disk' : Disk sb (update τ ip.table (setWord (σ ip.table) (bn - NDIRECT) b)) (update (holds sb σ (update t i ip)) (i, bn) b) :=
      disk.frame (fun c less _ => update_of_ne (by rintro rfl; exact Nat.not_le.mpr less tableLow) _ _) fun c less free => update_of_ne (by
        rintro rfl
        have mine := owned some
        rw [blockTable] at mine
        rw [done.taken, update_of_ne other, mine] at free
        cases free) _ _
    have one := extendsOne (W := W) ip h use done.free want (by rwa [self]) high.le disk' (by rw [self]) (by rwa [self])
      (fun c less => by
        rw [update_of_ne (by rintro rfl; exact Nat.not_le.mpr less (Nat.le_trans (firstPos sb).2.le tableLow))]
        exact done.same (.inl less))
      (fun c above apart => by
        rw [self] at apart
        rw [update_of_ne apart]
        exact done.same (.inr above)) inside
    rw [self] at one
    exact .inl ⟨one.1.base, one.2, by rw [blocks, update_self], pos⟩
  · exact .inr ⟨Nat.not_lt.mp inside, σ, ip, bn, .refl h, done.beyond (Nat.not_lt.mp inside), want, blank⟩

theorem Extends.use (h : Extends sb W t i σ ip σ' ip') (use : InUse sb (update t i ip) i) : InUse sb (update t i ip') i := by
  have type : ip'.type = ip.type := by rw [h.fields]
  unfold InUse at *
  rw [update_self] at *
  rwa [type]

theorem bmapDoes (h : Layout sb σ (update t i ip)) (use : InUse sb (update t i ip) i) (inside : bn < MAXFILE) (want : W bn) (table : NDIRECT ≤ bn → W MAXFILE) :
    Does sb.size (bmap ip bn) σ [] [] (Mapped sb W t i σ ip bn) fun e _ => Short sb W t i σ ip e := by
  unfold bmap
  split
  · rename_i low
    have here : place ⟨bn, Nat.lt_succ_of_lt low⟩ = bn := if_pos low
    have addr := bmapAddrDoes (W := W) (k := ⟨bn, Nat.lt_succ_of_lt low⟩) h use (by rwa [here])
    rwa [here] at addr
  · rename_i high
    have low := Nat.not_lt.mp high
    rw [if_pos (by unfold MAXFILE at inside; unfold NDIRECT NINDIRECT at *; omega)]
    refine (bmapAddrDoes (k := 12) h use (table low)).bind fun x σ1 mapped => ?_
    obtain ⟨addr, ip1⟩ := x
    rcases mapped with maps | ⟨past, spent⟩
    · have h1 := maps.extends'.layout
      have use1 := maps.extends'.use use
      have self : update t i ip1 i = ip1 := update_self ..
      obtain rfl : ip1.table = addr := maps.block
      have range := h1.inside use1 (s := MAXFILE)
      rw [self] at range
      obtain ⟨first, below⟩ := range maps.some
      refine doesBread below (List.not_mem_nil) ?_
      split
      · rename_i none
        have alloc := (ballocDoes h1 fun c (mem : c ∈ [ip1.table]) => by rwa [List.mem_singleton.mp mem]).weaken (fun b σ' done => done) fun e _ stop =>
          (⟨.inl stop.1, σ1, ip1, bn, maps.extends', stop.2, want, (blockEntry low inside maps.some).trans none⟩ : Short sb W t i σ ip e)
        refine alloc.bind fun b σ2 done => doesBwrite List.mem_cons_self (doesBrelse (doesPure ?_))
        rcases allocsEntry (W := W) h1 use1 maps.some low inside none done want with more | ⟨past, spent⟩
        · exact .inl (more.after maps.extends' maps.content)
        · exact .inr ⟨past, spent.after maps.extends'⟩
      · rename_i some
        refine doesBrelse (doesPure (.inl ⟨maps.extends', maps.content, ?_, some⟩))
        exact blockEntry low inside maps.some
    · exact doesBeyond past ⟨.inr rfl, spent⟩

end OpSys.Fs
