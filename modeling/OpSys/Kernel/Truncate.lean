import OpSys.Kernel.FileOps

/-! Files that come and go: `ialloc`, `itrunc` and the end of an inode in `iput`. -/
namespace OpSys.Fs
open Function OpSys.Blocks OpSys.Bytes OpSys.Allotment

variable {K : Type} [DecidableEq K] {sb : Superblock} {σ σ' τ : Nat → Block} {t : Nat → Inode} {ip ip' : Inode} {i j s b k : Nat} {own own' own'' : K → Nat} {S S' : K → Prop}
  {held : List Nat} {a : Block}

/-- The blocks of some keys have been given back. -/
structure Freed (sb : Superblock) (S : K → Prop) (σ : Nat → Block) (own : K → Nat) (σ' : Nat → Block) (own' : K → Nat) : Prop where
  disk : Disk sb σ' own'
  gone : ∀ k, S k → own' k = 0
  same : ∀ k, ¬ S k → own' k = own k
  kept : ∀ c, Outside sb c → (∀ k, S k → own k ≠ 0 → own k ≠ c) → σ' c = σ c

omit [DecidableEq K] in
theorem Freed.trans (h : Freed sb S σ own τ own') (h' : Freed sb S' τ own' σ' own'') : Freed sb (fun k => S k ∨ S' k) σ own σ' own'' := by
  refine ⟨h'.disk, fun k mem => ?_, fun k out => ?_, fun c outside other => ?_⟩
  · by_cases last : S' k
    · exact h'.gone k last
    · rw [h'.same k last, h.gone k (mem.resolve_right last)]
  · rw [h'.same k fun mem => out (.inr mem), h.same k fun mem => out (.inl mem)]
  · rw [h'.kept c outside fun k mem some => ?_, h.kept c outside fun k mem => other k (.inl mem)]
    by_cases first : S k
    · exact absurd (h.gone k first) some
    · rw [h.same k first] at some ⊢
      exact other k (.inr mem) some

omit [DecidableEq K] in
theorem Freed.congr (h : Freed sb S σ own σ' own') (iff : ∀ k, S' k ↔ S k) : Freed sb S' σ own σ' own' :=
  ⟨h.disk, fun k mem => h.gone k ((iff k).mp mem), fun k out => h.same k fun mem => out ((iff k).mpr mem),
    fun c outside other => h.kept c outside fun k mem => other k ((iff k).mpr mem)⟩

omit [DecidableEq K] in
/-- Who has no block has none to give back. -/
theorem Freed.refl (h : Disk sb σ own) (none : ∀ k, S k → own k = 0) : Freed sb S σ own σ own := ⟨h, none, fun _ _ => rfl, fun _ _ _ => rfl⟩

theorem bfreeFreed {k : K} (h : Disk sb σ own) (mine : own k ≠ 0) (apart : ∀ c ∈ held, sb.first ≤ c) (free : own k ∉ held) {F : Stop Panic → (Nat → Block) → Prop} :
    Does sb.size (bfree (own k)) σ held held (fun _ σ' => Freed sb (· = k) σ own σ' (update own k 0)) F := by
  refine (bfreeDoes h mine apart free).weaken (fun _ σ' done => ⟨done.1, ?_, fun k' other => update_of_ne other _ _, fun c outside other => ?_⟩) fun _ _ stop => stop
  · rintro k' rfl
    exact update_self ..
  · exact done.2 c outside fun same => other k rfl mine same.symm

/-! ### `itrunc` -/

variable {own own' : Nat × Nat → Nat}

theorem truncDirectDoes {ks : List (Fin NDIRECT)} (h : Disk sb σ own) (mine : ∀ k ∈ ks, own (i, k.val) = ip.addrs k.castSucc) (nodup : ks.Nodup)
    {F : Stop Panic → (Nat → Block) → Prop} :
    Does sb.size (truncDirect ks ip) σ [] [] (fun ip' σ' => (∃ own', Freed sb (fun key => ∃ k ∈ ks, key = (i, k.val)) σ own σ' own') ∧
      ip' = {ip with addrs := ip'.addrs} ∧ (∀ k ∈ ks, ip'.addrs k.castSucc = 0) ∧ ∀ m, (∀ k ∈ ks, m ≠ k.castSucc) → ip'.addrs m = ip.addrs m) F := by
  induction ks generalizing σ ip own with
  | nil => exact doesPure ⟨⟨own, .refl h fun _ ⟨_, mem, _⟩ => absurd mem List.not_mem_nil⟩, rfl, fun _ mem => absurd mem List.not_mem_nil, fun _ _ => rfl⟩
  | cons k ks ih =>
    obtain ⟨out, rest⟩ := List.nodup_cons.mp nodup
    have here := mine k List.mem_cons_self
    unfold truncDirect
    split
    · rename_i none
      refine (ih h (fun k mem => mine k (List.mem_cons_of_mem _ mem)) rest).weaken (fun ip' σ' done => ?_) fun _ _ stop => stop
      obtain ⟨⟨own', freed⟩, fields, gone, same⟩ := done
      refine ⟨⟨own', ((Freed.refl (S := (· = (i, k.val))) h fun key eq => ?_).trans freed).congr fun key => ?_⟩, fields, fun k' mem => ?_, fun m other => ?_⟩
      · rw [eq, here, none]
      · rw [List.exists_mem_cons_iff]
      · rcases List.mem_cons.mp mem with rfl | mem
        · rw [same _ fun k'' mem' eq => by obtain rfl := Fin.castSucc_injective _ eq; exact out mem', none]
        · exact gone k' mem
      · exact same m fun k' mem => other k' (List.mem_cons_of_mem _ mem)
    · rename_i some
      rw [← here] at some ⊢
      refine (bfreeFreed h some (fun c (mem : c ∈ []) => absurd mem List.not_mem_nil) List.not_mem_nil).bind fun _ σ1 freed => ?_
      have later : ∀ k' ∈ ks, update own (i, k.val) 0 (i, k'.val) = (ip.setAddr k.castSucc 0).addrs k'.castSucc := fun k' mem => by
        have other : k' ≠ k := by rintro rfl; exact out mem
        rw [update_of_ne fun eq => other (Fin.ext (congrArg Prod.snd eq)), mine k' (List.mem_cons_of_mem _ mem)]
        exact (update_of_ne (fun eq => other (Fin.castSucc_injective _ eq)) _ _).symm
      refine (ih freed.disk later rest).weaken (fun ip' σ' done => ?_) fun _ _ stop => stop
      obtain ⟨⟨own', freed'⟩, fields, gone, same⟩ := done
      refine ⟨⟨own', (freed.trans freed').congr fun key => ?_⟩, fields, fun k' mem => ?_, fun m other => ?_⟩
      · rw [List.exists_mem_cons_iff]
      · rcases List.mem_cons.mp mem with rfl | mem
        · rw [same _ fun k'' mem' eq => by obtain rfl := Fin.castSucc_injective _ eq; exact out mem']
          exact update_self ..
        · exact gone k' mem
      · rw [same m fun k' mem => other k' (List.mem_cons_of_mem _ mem)]
        exact update_of_ne (other k List.mem_cons_self) _ _

theorem truncEntriesDoes {js : List Nat} (h : Disk sb σ own) (mine : ∀ j ∈ js, own (i, NDIRECT + j) = word a j) (nodup : js.Nodup) (apart : ∀ c ∈ held, sb.first ≤ c)
    (free : ∀ j ∈ js, word a j ∉ held) {F : Stop Panic → (Nat → Block) → Prop} :
    Does sb.size (truncEntries a js) σ held held (fun _ σ' => ∃ own', Freed sb (fun key => ∃ j ∈ js, key = (i, NDIRECT + j)) σ own σ' own') F := by
  induction js generalizing σ own with
  | nil => exact doesPure ⟨own, .refl h fun _ ⟨_, mem, _⟩ => absurd mem List.not_mem_nil⟩
  | cons j js ih =>
    obtain ⟨out, rest⟩ := List.nodup_cons.mp nodup
    have here := mine j List.mem_cons_self
    unfold truncEntries
    split
    · rename_i none
      refine (ih h (fun j mem => mine j (List.mem_cons_of_mem _ mem)) rest fun j mem => free j (List.mem_cons_of_mem _ mem)).weaken (fun _ σ' done => ?_) fun _ _ stop => stop
      obtain ⟨own', freed⟩ := done
      refine ⟨own', ((Freed.refl (S := (· = (i, NDIRECT + j))) h fun key eq => ?_).trans freed).congr fun key => ?_⟩
      · rw [eq, here, none]
      · rw [List.exists_mem_cons_iff]
    · rename_i some
      have clear := free j List.mem_cons_self
      rw [← here] at some clear ⊢
      refine (bfreeFreed h some apart clear).bind fun _ σ1 freed => ?_
      have later : ∀ j' ∈ js, update own (i, NDIRECT + j) 0 (i, NDIRECT + j') = word a j' := fun j' mem => by
        have other : j' ≠ j := by rintro rfl; exact out mem
        rw [update_of_ne fun eq => other (Nat.add_left_cancel (congrArg Prod.snd eq)), mine j' (List.mem_cons_of_mem _ mem)]
      refine (ih freed.disk later rest fun j mem => free j (List.mem_cons_of_mem _ mem)).weaken (fun _ σ' done => ?_) fun _ _ stop => stop
      obtain ⟨own', freed'⟩ := done
      refine ⟨own', (freed.trans freed').congr fun key => ?_⟩
      rw [List.exists_mem_cons_iff]

theorem truncTableDoes (h : Disk sb σ own) (table : own (i, MAXFILE) = ip.table) (entries : ip.table ≠ 0 → ∀ j < NINDIRECT, own (i, NDIRECT + j) = word (σ ip.table) j)
    (blank : ip.table = 0 → ∀ j < NINDIRECT, own (i, NDIRECT + j) = 0) {F : Stop Panic → (Nat → Block) → Prop} :
    Does sb.size (truncTable ip) σ [] [] (fun ip' σ' => (∃ own', Freed sb (fun key => key.1 = i ∧ NDIRECT ≤ key.2 ∧ key.2 ≤ MAXFILE) σ own σ' own') ∧
      ip' = {ip with addrs := ip'.addrs} ∧ ip'.table = 0 ∧ ∀ m, m ≠ 12 → ip'.addrs m = ip.addrs m) F := by
  have split' : ∀ key : Nat × Nat, key.1 = i ∧ NDIRECT ≤ key.2 ∧ key.2 ≤ MAXFILE ↔ (∃ j ∈ List.range NINDIRECT, key = (i, NDIRECT + j)) ∨ key = (i, MAXFILE) := fun key => by
    obtain ⟨i', s⟩ := key
    constructor
    · rintro ⟨rfl, low, high⟩
      rcases Nat.lt_or_eq_of_le high with less | last
      · refine .inl ⟨s - NDIRECT, List.mem_range.mpr ?_, ?_⟩
        · unfold NINDIRECT
          unfold MAXFILE NDIRECT at *
          omega
        · rw [Nat.add_sub_cancel' low]
      · exact .inr (Prod.ext rfl last)
    · rintro (⟨j, mem, eq⟩ | eq)
      · cases eq
        have small := List.mem_range.mp mem
        refine ⟨rfl, Nat.le_add_right _ _, ?_⟩
        unfold MAXFILE NDIRECT
        unfold NINDIRECT at small
        omega
      · cases eq
        exact ⟨rfl, (by decide : NDIRECT ≤ MAXFILE), le_rfl⟩
  unfold truncTable
  split
  · rename_i none
    refine doesPure ⟨⟨own, .refl h fun key mem => ?_⟩, rfl, none, fun _ _ => rfl⟩
    rcases (split' key).mp mem with ⟨j, small, rfl⟩ | rfl
    · exact blank none j (List.mem_range.mp small)
    · rw [table, none]
  · rename_i some
    obtain ⟨low, high⟩ := h.allotted.inside (i, MAXFILE) (by rwa [table])
    rw [table] at low high
    refine doesBread high List.not_mem_nil ?_
    have free : ∀ j ∈ List.range NINDIRECT, word (σ ip.table) j ∉ [ip.table] := fun j mem same => by
      have small := List.mem_range.mp mem
      have same' : own (i, NDIRECT + j) = own (i, MAXFILE) := by rw [entries some j small, table, List.mem_singleton.mp same]
      have eq := h.allotted.apart _ _ same' (by rw [same', table]; exact some)
      have last := congrArg Prod.snd eq
      unfold NINDIRECT at small
      unfold NDIRECT MAXFILE at last
      dsimp only at last
      omega
    have loop := truncEntriesDoes (F := F) h (fun j mem => entries some j (List.mem_range.mp mem)) List.nodup_range
      (fun c (mem : c ∈ [ip.table]) => by rwa [List.mem_singleton.mp mem]) free
    refine loop.bind fun _ σ1 done => doesBrelse ?_
    obtain ⟨own', freed⟩ := done
    have kept : own' (i, MAXFILE) = ip.table := by
      rw [freed.same _ ?_, table]
      rintro ⟨j, mem, eq⟩
      have small := List.mem_range.mp mem
      have last := congrArg Prod.snd eq
      unfold NINDIRECT at small
      unfold NDIRECT MAXFILE at last
      dsimp only at last
      omega
    have last := bfreeFreed (F := F) (k := (i, MAXFILE)) freed.disk (by rwa [kept]) (fun c (mem : c ∈ []) => absurd mem List.not_mem_nil) List.not_mem_nil
    rw [kept] at last
    refine last.bind fun _ σ2 freed' => doesPure ⟨⟨_, (freed.trans freed').congr split'⟩, rfl, ?_, fun m other => update_of_ne other _ _⟩
    change update ip.addrs 12 0 12 = 0
    exact update_self ..

theorem blockNone (none : ip.addrs = fun _ => 0) (σ : Nat → Block) (s : Nat) : ip.block σ s = 0 := by
  have table : ip.table = 0 := congrFun none 12
  unfold Inode.block
  rw [none, table, if_pos rfl]
  split
  · rfl
  · split
    · rfl
    · split <;> rfl

/-- All that a file had is free again. -/
theorem freedLeaves (h : WellFormed sb σ) (use : InUse sb (inodes σ) i) (freed : Freed sb (fun key => key.1 = i ∧ key.2 ≤ MAXFILE) σ (holds sb σ (inodes σ)) σ' own')
    (size : ip.size = 0) (none : ip.addrs = fun _ => 0) : Leaves sb σ i σ' ip := by
  have others : ∀ j, j ≠ i → InUse sb (inodes σ) j → ∀ s, (inodes σ j).block σ s ≠ 0 → σ' ((inodes σ j).block σ s) = σ ((inodes σ j).block σ s) :=
    fun j other use' s some => freed.kept _ (.inr (h.layout.inside use' some).1) fun key mem some' same => by
      rw [← holdsUse use'] at same
      exact other ((congrArg Prod.fst (h.layout.allotted.apart _ _ same some')).symm.trans mem.1)
  refine ⟨?_, fun _ => ⟨?_, fun s _ => ?_, fun p _ => ?_⟩, others, fun b less => ?_⟩
  · have eq : own' = holds sb σ' (update (inodes σ) i ip) := by
      funext ⟨j, s⟩
      unfold holds
      dsimp only
      by_cases here : j = i
      · subst here
        rw [update_self, blockNone none, ite_self]
        by_cases near : s ≤ MAXFILE
        · exact freed.gone _ ⟨rfl, near⟩
        · rw [freed.same _ fun mem => near mem.2, holdsUse use]
          by_contra some
          exact near (blockEnd some)
      · rw [freed.same _ fun mem => here mem.1]
        have used : InUse sb (update (inodes σ) i ip) j ↔ InUse sb (inodes σ) j := by
          unfold InUse
          rw [update_of_ne here]
        refine if_ctx_congr used.symm (fun use' => ?_) fun _ => rfl
        have use'' := used.mp use'
        rw [update_of_ne here]
        exact (blockSame (fun some => others j here use'' MAXFILE some) s).symm
    unfold Layout
    rw [← eq]
    exact freed.disk
  · rw [size]
    exact Nat.zero_le _
  · rw [blockNone none, size]
    unfold Needs
    split <;> exact iff_of_false (fun bad => bad rfl) (Nat.not_lt_zero _)
  · unfold Inode.content
    rw [blockNone none, if_neg fun bad => bad.2 rfl]
  · refine freed.kept b (.inl less) fun key _ some same => ?_
    have := (h.layout.allotted.inside key some).1
    have := firstPos sb
    omega

/-- All blocks of the file are free and clear, and the inode on the disk has none. -/
theorem itruncDoes (h : WellFormed sb σ) (use : InUse sb (inodes σ) i) {F : Stop Panic → (Nat → Block) → Prop} :
    Does sb.size (itrunc i (inodes σ i)) σ [] [] (fun ip' σ' => Settles sb σ i σ' ip' ∧ ip' = {inodes σ i with size := 0, addrs := fun _ => 0}) F := by
  have holdsMine : ∀ s, holds sb σ (inodes σ) (i, s) = (inodes σ i).block σ s := fun s => holdsUse use
  have tableSame := fun (some : (inodes σ i).table ≠ 0) => h.layout.inside use (s := MAXFILE) some
  generalize here : inodes σ i = ip at *
  have direct : ∀ k ∈ List.finRange NDIRECT, holds sb σ (inodes σ) (i, k.val) = ip.addrs k.castSucc := fun k _ => by
    rw [holdsMine]
    exact dif_pos k.isLt
  unfold itrunc
  refine (truncDirectDoes (F := F) h.layout direct (List.nodup_finRange _)).bind fun ip1 σ1 done => ?_
  obtain ⟨⟨own1, freed1⟩, fields1, gone1, same1⟩ := done
  have table1 : ip1.table = ip.table := same1 12 fun k _ eq => by
    have less := k.isLt
    have val := congrArg Fin.val eq
    change 12 = k.val at val
    unfold NDIRECT at less
    omega
  have others1 : ∀ s, NDIRECT ≤ s → own1 (i, s) = ip.block σ s := fun s low => by
    rw [freed1.same, holdsMine]
    rintro ⟨k, _, eq⟩
    have val : s = k.val := congrArg Prod.snd eq
    rw [val] at low
    exact Nat.not_le.mpr k.isLt low
  have kept1 : ip.table ≠ 0 → σ1 ip.table = σ ip.table := fun some => freed1.kept _ (.inr (tableSame some).1) fun key mem some' same => by
    obtain ⟨k, _, rfl⟩ := mem
    have eq := h.layout.allotted.apart (i, k.val) (i, MAXFILE) (by rw [same, holdsMine, blockTable]) some'
    have less := k.isLt
    have val := congrArg Prod.snd eq
    change k.val = MAXFILE at val
    unfold NDIRECT at less
    unfold MAXFILE at val
    omega
  have entry : ∀ j < NINDIRECT, NDIRECT + j < MAXFILE := fun j less => by
    unfold NINDIRECT at less
    unfold NDIRECT MAXFILE
    omega
  have table := truncTableDoes (F := F) (i := i) freed1.disk (show own1 (i, MAXFILE) = ip1.table by rw [table1]; exact others1 MAXFILE (by decide))
    (fun some j less => by
      rw [table1] at some
      rw [others1 _ (Nat.le_add_right _ _), blockEntry (Nat.le_add_right _ _) (entry j less) some, table1, kept1 some, Nat.add_sub_cancel_left])
    fun none j less => by
      rw [table1] at none
      rw [others1 _ (Nat.le_add_right _ _)]
      by_contra some
      exact entryTable (Nat.le_add_right _ _) (entry j less) some none
  refine table.bind fun ip2 σ2 done => ?_
  obtain ⟨⟨own2, freed2⟩, fields2, gone2, same2⟩ := done
  have freed : Freed sb (fun key => key.1 = i ∧ key.2 ≤ MAXFILE) σ (holds sb σ (inodes σ)) σ2 own2 := (freed1.trans freed2).congr fun key => by
    obtain ⟨i', s⟩ := key
    constructor
    · rintro ⟨rfl, near⟩
      by_cases low : s < NDIRECT
      · exact .inl ⟨⟨s, low⟩, List.mem_finRange _, rfl⟩
      · exact .inr ⟨rfl, Nat.not_lt.mp low, near⟩
    · rintro (⟨k, _, eq⟩ | ⟨eq, _, near⟩)
      · cases eq
        exact ⟨rfl, Nat.le_of_lt (Nat.lt_trans k.isLt (by decide))⟩
      · exact ⟨eq, near⟩
  have addrs : ip2.addrs = fun _ => 0 := funext fun m => by
    by_cases last : m = 12
    · rw [last]
      exact gone2
    · have less : m.val < NDIRECT := by
        have less := m.isLt
        have other : m.val ≠ 12 := fun val => last (Fin.ext val)
        unfold NDIRECT at *
        omega
      rw [same2 m last]
      exact gone1 ⟨m.val, less⟩ (List.mem_finRange _)
  have eq : ({ip2 with size := 0} : Inode) = {ip with size := 0, addrs := fun _ => 0} := by rw [← addrs, fields2, fields1]
  rw [eq]
  have left : Leaves sb σ i σ2 {ip with size := 0, addrs := fun _ => 0} := freedLeaves h use freed rfl rfl
  refine (iupdateDoes left.layout use.2.1).bind fun _ σ3 written => doesPure ⟨?_, rfl⟩
  rw [written]
  exact (left.written h ⟨use.1, use.2.1⟩ (by decide : 0 < 2 ^ 32) fun _ => (by decide : 0 < 2 ^ 32)).1

/-! ### `iput` and `ialloc` -/

theorem Settles.trans (h : Settles sb σ i τ ip) (h' : Settles sb τ i σ' ip') : Settles sb σ i σ' ip' :=
  ⟨h'.wellFormed, h'.inode, fun j other pos less => (h'.others j other pos less).trans (h.others j other pos less),
    fun j other => (h'.files j other).trans (h.files j other)⟩

/-- A change of the type of an inode without blocks. -/
theorem retypeLeaves (h : WellFormed sb σ) (before : InUse sb (inodes σ) i → (inodes σ i).addrs = fun _ => 0) (size : ip.size = 0) (none : ip.addrs = fun _ => 0) :
    Leaves sb σ i σ ip := by
  refine ⟨?_, fun _ => ⟨?_, fun s _ => ?_, fun p _ => ?_⟩, fun _ _ _ _ _ => rfl, fun _ _ => rfl⟩
  · have eq : holds sb σ (update (inodes σ) i ip) = holds sb σ (inodes σ) := by
      funext ⟨j, s⟩
      unfold holds
      dsimp only
      by_cases here : j = i
      · subst here
        rw [update_self, blockNone none, ite_self]
        split
        · rename_i use
          exact (blockNone (before use) σ s).symm
        · rfl
      · have used : InUse sb (update (inodes σ) i ip) j ↔ InUse sb (inodes σ) j := by
          unfold InUse
          rw [update_of_ne here]
        exact if_congr used (by rw [update_of_ne here]) rfl
    unfold Layout
    rw [eq]
    exact h.layout
  · rw [size]
    exact Nat.zero_le _
  · rw [blockNone none, size]
    unfold Needs
    split <;> exact iff_of_false (fun bad => bad rfl) (Nat.not_lt_zero _)
  · unfold Inode.content
    rw [blockNone none, if_neg fun bad => bad.2 rfl]

theorem ifreeDoes (h : WellFormed sb σ) (use : InUse sb (inodes σ) i) {F : Stop Panic → (Nat → Block) → Prop} :
    Does sb.size (ifree i (inodes σ i)) σ [] [] (fun _ σ' => ∃ ip', ip'.type = 0 ∧ Settles sb σ i σ' ip') F := by
  refine (itruncDoes h use).bind fun ip1 σ1 done => ?_
  obtain ⟨settled, rfl⟩ := done
  have none : ∀ ip : Inode, ip.addrs = (fun _ => 0) → ip.size = 0 → Leaves sb σ1 i σ1 ip := fun ip addrs size =>
    retypeLeaves settled.wellFormed (fun _ => by rw [settled.inode]) size addrs
  refine (iupdateDoes settled.wellFormed.layout use.2.1).weaken (fun _ σ2 written => ?_) fun _ _ stop => stop
  rw [written]
  exact ⟨_, rfl, settled.trans ((none _ rfl rfl).written settled.wellFormed ⟨use.1, use.2.1⟩ (by decide : 0 < 2 ^ 32) fun _ => (by decide : 0 < 2 ^ 32)).1⟩

theorem iallocLoopDoes {type : UInt16} {rounds : Nat} (h : WellFormed sb σ) (pos : 0 < i) (before : ∀ j, 0 < j → j < i → (inodes σ j).type ≠ 0)
    (enough : sb.ninodes ≤ i + rounds) : Does sb.size (iallocLoop type sb.ninodes rounds i) σ [] []
      (fun j σ' => 0 < j ∧ j < sb.ninodes ∧ (inodes σ j).type = 0 ∧ (∀ j', 0 < j' → j' < j → (inodes σ j').type ≠ 0) ∧
        σ' = update σ (iBlock j) (setDinode (σ (iBlock j)) (j % IPB) ⟨type, 0, 0, 0, 0, fun _ => 0⟩))
      fun e _ => e = .fails .noInodes ∧ ∀ j, 0 < j → j < sb.ninodes → (inodes σ j).type ≠ 0 := by
  induction rounds generalizing i with
  | zero => exact doesPanic ⟨rfl, fun j pos' less => before j pos' (by omega)⟩
  | succ rounds ih =>
    unfold iallocLoop
    split
    · rename_i less
      have low := iBlockLow less
      refine doesBread (Nat.lt_of_lt_of_le (Nat.lt_trans low.2 (firstPos sb).2) h.layout.allotted.some.2) List.not_mem_nil ?_
      split
      · rename_i free
        exact doesBwrite List.mem_cons_self (doesBrelse (doesPure ⟨pos, less, free, before, rfl⟩))
      · rename_i used
        refine doesBrelse (ih (Nat.succ_pos i) (fun j pos' less' => ?_) (by omega))
        rcases Nat.lt_or_eq_of_le (Nat.le_of_lt_succ less') with low | rfl
        · exact before j pos' low
        · exact used
    · exact doesPanic ⟨rfl, fun j pos' less => before j pos' (by omega)⟩

/-- The first inode that is free is an empty file then. -/
theorem iallocDoes {type : UInt16} (h : WellFormed sb σ) : Does sb.size (ialloc type) σ [] []
    (fun j σ' => 0 < j ∧ j < sb.ninodes ∧ (inodes σ j).type = 0 ∧ (∀ j', 0 < j' → j' < j → (inodes σ j').type ≠ 0) ∧ Settles sb σ j σ' ⟨type, 0, 0, 0, 0, fun _ => 0⟩)
    fun e _ => e = .fails .noInodes ∧ ∀ j, 0 < j → j < sb.ninodes → (inodes σ j).type ≠ 0 := by
  refine (readsbDoes h.layout fun c (mem : c ∈ []) => absurd mem List.not_mem_nil).bind fun x τ read => ?_
  obtain ⟨rfl, rfl⟩ := read
  refine (iallocLoopDoes h (Nat.succ_pos 0) (fun j pos less => by omega) (by dsimp only; omega)).weaken (fun j σ' done => ?_) fun _ _ stop => stop
  obtain ⟨pos, less, free, first, eq⟩ := done
  have left : Leaves sb τ j τ ⟨type, 0, 0, 0, 0, fun _ => 0⟩ := retypeLeaves h (fun use => absurd free use.2.2) rfl rfl
  rw [eq]
  exact ⟨pos, less, free, first, (left.written h ⟨pos, less⟩ (by decide : 0 < 2 ^ 32) fun _ => (by decide : 0 < 2 ^ 32)).1⟩

end OpSys.Fs
