import OpSys.Kernel.Graph

/-! What holds of the files and their names between the calls, and that it stays so when a name
comes or goes. -/
namespace OpSys.Sysfile
open Function OpSys.Bytes OpSys.Fs OpSys.Hierarchy

variable {sb : Superblock} {s : Nat → Option File} {refs : List Nat} {a d i j k ip dp inum : Nat} {f g : File} {name : Name} {major minor : UInt16}

/-- Each file has as many links as there are names for it, and it is there as long as it has
one or somebody uses it. -/
structure Tree (sb : Superblock) (s : Nat → Option File) (refs : List Nat) : Prop where
  graph : Graph sb s
  room : demand sb s ≤ capacity sb
  counted : ∀ i f, s i = some f → f.nlink.toNat = links sb s i
  kept : ∀ i f, s i = some f → f.nlink = 0 → i ∈ refs
  held : ∀ i ∈ refs, ∃ f, s i = some f

/-- The numbers of inodes and links fit into shorts, as they do in the file system of
`mkfs.c`. -/
structure Mild (sb : Superblock) : Prop where
  ninodes : sb.ninodes ≤ 2 ^ 16
  size : sb.size ≤ 2 ^ 10

theorem citesBlocks (o : Option File) (i : Nat) : citesOf o i ≤ 32 * ((o.map fun f => blocksFor f.bytes.length).getD 0) := by
  cases o with
  | none => exact Nat.zero_le _
  | some f =>
    have slots := citesSlots f i
    simp only [citesOf, Option.map_some, Option.getD_some]
    unfold File.slots at slots
    unfold blocksFor BSIZE
    omega

theorem linksFew (mild : Mild sb) (room : demand sb s ≤ capacity sb) (i : Nat) : links sb s i + 1 < 2 ^ 15 := by
  have all : links sb s i ≤ 32 * demand sb s := by
    unfold links demand
    rw [Finset.mul_sum]
    exact Finset.sum_le_sum fun d _ => citesBlocks (s d) i
  have size := mild.size
  have first := firstPos sb
  unfold capacity at room
  omega

/-! ### One file of the store changes -/

theorem liveUpdate : Live (update s a (some g)) j ↔ if j = a then g.nlink ≠ 0 else Live s j := by
  unfold Live
  split
  · rename_i here
    simp [here]
  · rename_i other
    simp [update_of_ne other]

theorem dirUpdate : (shape (update s a (some g))).dir j ↔ if j = a then g.type = T_DIR ∧ g.nlink ≠ 0 else (shape s).dir j := by
  unfold shape Linked
  split
  · rename_i here
    simp [here]
  · rename_i other
    simp [update_of_ne other]

theorem childUpdate : (shape (update s a (some g))).child d k i ↔ if d = a then 2 ≤ k ∧ Holds g k i else (shape s).child d k i := by
  unfold shape
  split
  · rename_i here
    simp [here]
  · rename_i other
    simp [update_of_ne other]

theorem upUpdate : (shape (update s a (some g))).up j = if j = a then g.inum 1 else (shape s).up j := by
  unfold shape
  split
  · rename_i here
    simp [here]
  · rename_i other
    simp [update_of_ne other]

theorem holdsEnter (whole : f.Whole) (place : k ≤ f.slots) (fits : inum < 2 ^ 16) :
    Holds (f.enter k inum name) j i ↔ if j = k then f.type = T_DIR ∧ f.nlink ≠ 0 ∧ inum = i ∧ i ≠ 0 else Holds f j i := by
  unfold Holds
  rw [enterSlots whole place, enterInum whole place fits]
  have fields : (f.enter k inum name).type = f.type ∧ (f.enter k inum name).nlink = f.nlink := ⟨rfl, rfl⟩
  rw [fields.1, fields.2]
  by_cases here : j = k
  · have less : j < max f.slots (k + 1) := by omega
    simp [here]
  · have less : j < max f.slots (k + 1) ↔ j < f.slots := by omega
    simp [here, less]

theorem childAt (linked : Linked s d f) : (shape s).child d k i ↔ 2 ≤ k ∧ Holds f k i := by
  unfold shape
  simp [linked.1]

theorem upAt (linked : Linked s d f) : (shape s).up d = f.inum 1 := by
  unfold shape
  simp [linked.1]

theorem Graph.change {s' : Nat → Option File} (graph : Graph sb s) (ip dp : Nat) (other : ∀ j, j ≠ ip → j ≠ dp → s' j = s j)
    (mine : ∀ j f, j = ip ∨ j = dp → s' j = some f → (0 < j ∧ j < sb.ninodes) ∧ f.bytes.length ≤ MAXFILE * BSIZE ∧ (f.type = T_DIR → f.nlink ≠ 0 → Folder j f))
    (sound : Sound (shape s')) : Graph sb s' := by
  have all : ∀ j f, s' j = some f → (0 < j ∧ j < sb.ninodes) ∧ f.bytes.length ≤ MAXFILE * BSIZE ∧ (f.type = T_DIR → f.nlink ≠ 0 → Folder j f) := by
    intro j f here
    by_cases changed : j = ip ∨ j = dp
    · exact mine j f changed here
    · rw [other j (fun same => changed (.inl same)) fun same => changed (.inr same)] at here
      exact ⟨graph.range j f here, graph.short j f here, fun dir live => graph.folder j f ⟨here, dir, live⟩⟩
  exact ⟨fun j f here => (all j f here).1, fun j f here => (all j f here).2.1, fun j f linked => (all j f linked.1).2.2 linked.2.1 linked.2.2, sound⟩

def both (s : Nat → Option File) (ip : Nat) (g : File) (dp : Nat) (f : File) : Nat → Option File := update (update s ip (some g)) dp (some f)

theorem bothAt (j : Nat) : both s ip g dp f j = if j = dp then some f else if j = ip then some g else s j := by
  unfold both
  rw [update_apply, update_apply]

theorem linksBoth (less : ip < sb.ninodes) (less' : dp < sb.ninodes) (apart : dp ≠ ip) (j : Nat) :
    links sb (both s ip g dp f) j + citesOf (s ip) j + citesOf (s dp) j = links sb s j + g.cites j + f.cites j := by
  have first := linksUpdate less s (some g) j
  have second := linksUpdate less' (update s ip (some g)) (some f) j
  rw [update_of_ne apart] at second
  have file : citesOf (some g) j = g.cites j := rfl
  have file' : citesOf (some f) j = f.cites j := rfl
  unfold both
  omega

/-- Every name stands in a directory that has not been removed. -/
theorem linksPos (range : ∀ d f, s d = some f → 0 < d ∧ d < sb.ninodes) :
    0 < links sb s i ↔ ∃ d f k, Linked s d f ∧ 1 ≤ k ∧ k < f.slots ∧ f.inum k = i := by
  unfold links
  rw [Finset.sum_pos_iff]
  constructor
  · rintro ⟨d, _, pos⟩
    cases here : s d with
    | none => simp [citesOf, here] at pos
    | some f =>
      have cites : 0 < f.cites i := by simpa [citesOf, here] using pos
      obtain ⟨dir, live, k, less, low, inum⟩ := citesPos.mp cites
      exact ⟨d, f, k, ⟨here, dir, live⟩, low, less, inum⟩
  · rintro ⟨d, f, k, linked, low, less, inum⟩
    refine ⟨d, Finset.mem_range.mpr (range d f linked.1).2, ?_⟩
    rw [linked.1]
    exact citesPos.mpr ⟨linked.2.1, linked.2.2, k, less, low, inum⟩

theorem linksNone (graph : Graph sb s) (free : s i = none) (pos : i ≠ 0) : links sb s i = 0 := by
  by_contra some
  obtain ⟨d, f, k, linked, _, less, inum⟩ := (linksPos graph.range).mp (Nat.pos_of_ne_zero some)
  obtain ⟨g, here, _⟩ := linked.named graph less (by rwa [inum])
  rw [inum, free] at here
  cases here

theorem Tree.recount (tree : Tree sb s refs) (range : 0 < ip ∧ ip < sb.ninodes) (range' : 0 < dp ∧ dp < sb.ninodes) (length : g.bytes.length ≤ MAXFILE * BSIZE)
    (length' : f.bytes.length ≤ MAXFILE * BSIZE) (folder : g.type = T_DIR → g.nlink ≠ 0 → Folder ip g) (folder' : f.type = T_DIR → f.nlink ≠ 0 → Folder dp f)
    (sound : Sound (shape (both s ip g dp f))) (room : demand sb (both s ip g dp f) ≤ capacity sb) (count : g.nlink.toNat = links sb (both s ip g dp f) ip)
    (count' : f.nlink.toNat = links sb (both s ip g dp f) dp) (counts : ∀ j, j ≠ 0 → j ≠ ip → j ≠ dp → links sb (both s ip g dp f) j = links sb s j)
    (kept : g.nlink = 0 → ip ∈ refs) (live : f.nlink ≠ 0) : Tree sb (both s ip g dp f) refs := by
  refine ⟨tree.graph.change ip dp (fun j other other' => ?_) (fun j h which there => ?_) sound, room, fun j h there => ?_, fun j h there none => ?_, fun j mem => ?_⟩
  · rw [bothAt, if_neg other', if_neg other]
  · rw [bothAt] at there
    split at there
    · rename_i same
      cases there
      rw [same]
      exact ⟨range', length', folder'⟩
    · split at there
      · rename_i same
        cases there
        rw [same]
        exact ⟨range, length, folder⟩
      · rename_i other other'
        exact absurd which (not_or.mpr ⟨other', other⟩)
  · rw [bothAt] at there
    split at there
    · rename_i same
      cases there
      rw [same]
      exact count'
    · split at there
      · rename_i same
        cases there
        rw [same]
        exact count
      · rename_i other other'
        rw [counts j (Nat.pos_iff_ne_zero.mp (tree.graph.range j h there).1) other' other]
        exact tree.counted j h there
  · rw [bothAt] at there
    split at there
    · cases there
      exact absurd none live
    · split at there
      · rename_i same
        cases there
        rw [same]
        exact kept none
      · exact tree.kept j h there none
  · rw [bothAt]
    split
    · exact ⟨_, rfl⟩
    · split
      · exact ⟨_, rfl⟩
      · exact tree.held j mem

/-! ### A name comes -/

theorem nlinkMore (nlink : UInt16) (few : nlink.toNat + 1 < 2 ^ 15) : (nlink + 1).toNat = nlink.toNat + 1 ∧ nlink + 1 ≠ 0 := by
  have sum : (nlink + 1).toNat = nlink.toNat + 1 := by
    rw [UInt16.toNat_add]
    exact Nat.mod_eq_of_lt (show nlink.toNat + 1 < 2 ^ 16 by omega)
  refine ⟨sum, fun zero => ?_⟩
  rw [zero] at sum
  exact absurd sum.symm (Nat.succ_ne_zero _)

theorem nlinkLess (nlink : UInt16) (some : nlink ≠ 0) : (nlink - 1).toNat + 1 = nlink.toNat := by
  have pos : nlink.toNat ≠ 0 := fun zero => some (UInt16.toNat_inj.mp zero)
  have one : (1 : UInt16).toNat = 1 := rfl
  rw [UInt16.toNat_sub_of_le _ _ (UInt16.le_iff_toNat_le.mpr (by omega))]
  omega

/-- What a directory must be to get an entry in place `k`. -/
structure Place (f : File) (k : Nat) (name : Name) : Prop where
  place : k ≤ f.slots
  empty : k < f.slots → f.inum k = 0
  fits : 16 * (k + 1) ≤ MAXFILE * BSIZE
  proper : Proper name
  fresh : f.lookup name = none

theorem Place.high (h : Place f k name) (folder : Folder dp f) (pos : dp ≠ 0) : 2 ≤ k := by
  have long := folder.long
  by_contra low
  have none := h.empty (by omega)
  rcases Nat.le_one_iff_eq_zero_or_eq_one.mp (show k ≤ 1 by omega) with rfl | rfl
  · exact pos (folder.self.symm.trans none)
  · exact folder.up none

theorem Place.length (h : Place f k name) (whole : f.Whole) (short : f.bytes.length ≤ MAXFILE * BSIZE) (inum : Nat) :
    (f.enter k inum name).bytes.length ≤ MAXFILE * BSIZE := by
  have length := slotsWhole whole
  have fits := h.fits
  have place := h.place
  unfold File.enter
  rw [spliceLength (by omega), direntLength]
  omega

theorem bothLive (j : Nat) : Live (both s ip g dp f) j ↔ if j = dp then f.nlink ≠ 0 else if j = ip then g.nlink ≠ 0 else Live s j := by
  unfold both
  rw [liveUpdate, liveUpdate]

theorem bothDir (j : Nat) : (shape (both s ip g dp f)).dir j ↔
    if j = dp then f.type = T_DIR ∧ f.nlink ≠ 0 else if j = ip then g.type = T_DIR ∧ g.nlink ≠ 0 else (shape s).dir j := by
  unfold both
  rw [dirUpdate, dirUpdate]

theorem bothChild (d k i : Nat) : (shape (both s ip g dp f)).child d k i ↔
    if d = dp then 2 ≤ k ∧ Holds f k i else if d = ip then 2 ≤ k ∧ Holds g k i else (shape s).child d k i := by
  unfold both
  rw [childUpdate, childUpdate]

theorem bothUp (j : Nat) : (shape (both s ip g dp f)).up j = if j = dp then f.inum 1 else if j = ip then g.inum 1 else (shape s).up j := by
  unfold both
  rw [upUpdate, upUpdate]

theorem Place.cites (h : Place f k name) (linked : Linked s dp f) (folder : Folder dp f) (pos : dp ≠ 0) (fits : ip < 2 ^ 16) (some : j ≠ 0) :
    (f.enter k ip name).cites j = f.cites j + if ip = j then 1 else 0 := by
  have high := h.high folder pos
  have enter := citesEnter linked.2 folder.whole h.place (show 1 ≤ k by omega) fits name j
  rwa [if_neg fun bad => some (bad.2.symm.trans (h.empty bad.1)), Nat.add_zero] at enter

def Leaf (s : Nat → Option File) (ip : Nat) : Prop := ∀ g, s ip = some g → g.type ≠ T_DIR

theorem Leaf.child (leaf : Leaf s ip) : ¬ (shape s).child ip k i := by
  rintro ⟨_, g, here, holds⟩
  exact leaf g here holds.1

theorem Leaf.dir (leaf : Leaf s ip) : ¬ (shape s).dir ip := by
  rintro ⟨g, linked⟩
  exact leaf g linked.1 linked.2.1

theorem Leaf.cites (leaf : Leaf s ip) (j : Nat) : citesOf (s ip) j = 0 := by
  cases here : s ip with
  | none => rfl
  | some g => exact citesPlain (fun dir => leaf g here dir.1) j

theorem bothMade (linked : Linked s dp f) (some : g.nlink ≠ 0) {h : File} (some' : h.nlink ≠ 0) (j : Nat) : Live (both s ip g dp h) j ↔ Live s j ∨ j = ip := by
  rw [bothLive]
  split
  · rename_i same
    exact iff_of_true some' (.inl (same ▸ linked.live))
  · split
    · rename_i same
      exact iff_of_true some (.inr same)
    · rename_i other
      exact (or_iff_left other).symm

theorem bothEntered (linked : Linked s dp f) {h : File} (alike : ∀ j l, Holds h j l ↔ Holds f j l) (dir : h.type = T_DIR ∧ h.nlink ≠ 0) (whole : h.Whole) (place : Place h k name)
    (high : 2 ≤ k) (short : ip < 2 ^ 16) (pos : ip ≠ 0) (leaf : Leaf s ip) (bare : ∀ j l, 2 ≤ j → ¬ Holds g j l) (e j l : Nat) :
    (shape (both s ip g dp (h.enter k ip name))).child e j l ↔ (shape s).child e j l ∨ (e = dp ∧ j = k ∧ l = ip) := by
  rw [bothChild]
  split
  · rename_i same
    rw [same, childAt linked, holdsEnter whole place.place short]
    by_cases new : j = k
    · have before : ¬ Holds f k l := fun holds => by
        have old := (alike k l).mpr holds
        exact old.2.2.2.2 (old.2.2.2.1.symm.trans (place.empty old.2.2.1))
      rw [if_pos new, new]
      constructor
      · rintro ⟨_, _, _, rfl, _⟩
        exact .inr ⟨rfl, rfl, rfl⟩
      · rintro (old | ⟨_, _, rfl⟩)
        · exact absurd old.2 before
        · exact ⟨high, dir.1, dir.2, rfl, pos⟩
    · rw [if_neg new, alike]
      exact (or_iff_left fun bad => new bad.2.1).symm
  · rename_i other
    split
    · rename_i same
      exact iff_of_false (fun holds => bare j l holds.1 holds.2) fun old => old.elim (same ▸ leaf.child) fun bad => other bad.1
    · exact (or_iff_left fun bad => other bad.1).symm

/-- A name for a file, which may be new. -/
theorem Tree.enter (mild : Mild sb) (tree : Tree sb s refs) (linked : Linked s dp f) (range : 0 < ip ∧ ip < sb.ninodes) (leaf : Leaf s ip) (plain : g.type ≠ T_DIR)
    (length : g.bytes.length ≤ MAXFILE * BSIZE) (count : g.nlink.toNat = links sb s ip + 1) (place : Place f k name)
    (room : demand sb (both s ip g dp (f.enter k ip name)) ≤ capacity sb) : Tree sb (both s ip g dp (f.enter k ip name)) refs := by
  have graph := tree.graph
  have range' := graph.range dp f linked.1
  have folder := graph.folder dp f linked
  have short : ip < 2 ^ 16 := Nat.lt_of_lt_of_le range.2 mild.ninodes
  have high := place.high folder (Nat.pos_iff_ne_zero.mp range'.1)
  have apart : dp ≠ ip := by
    rintro rfl
    exact leaf f linked.1 linked.2.1
  have some : g.nlink ≠ 0 := fun zero => by
    rw [zero] at count
    exact absurd count.symm (Nat.succ_ne_zero _)
  have sound : Sound (shape (both s ip g dp (f.enter k ip name))) := by
    refine graph.sound.link (d := dp) (i := ip) (k := k) ⟨f, linked⟩ leaf.dir (fun j => ?_) (fun j => ?_) (fun e j l => ?_) (fun j dir => ?_) rfl
    · exact bothMade linked some (h := f.enter k ip name) linked.2.2 j
    · rw [bothDir]
      split
      · rename_i same
        exact iff_of_true linked.2 (same ▸ ⟨f, linked⟩)
      · split
        · rename_i same
          exact iff_of_false (fun dir => plain dir.1) (same ▸ leaf.dir)
        · exact Iff.rfl
    · exact bothEntered linked (fun _ _ => Iff.rfl) linked.2 folder.whole place high short (Nat.pos_iff_ne_zero.mp range.1) leaf (fun _ _ _ holds => plain holds.1) e j l
    · rw [bothUp]
      split
      · rename_i same
        rw [same, upAt linked, enterInum folder.whole place.place short, if_neg (by omega)]
      · split
        · rename_i same
          exact absurd (same ▸ dir) leaf.dir
        · rfl
  have links : ∀ j, j ≠ 0 → links sb (both s ip g dp (f.enter k ip name)) j = links sb s j + if ip = j then 1 else 0 := by
    intro j pos
    have sum := linksBoth (s := s) (g := g) (f := f.enter k ip name) range.2 range'.2 apart j
    rw [leaf.cites, linked.1, place.cites linked folder (Nat.pos_iff_ne_zero.mp range'.1) short pos, citesPlain fun dir => plain dir.1] at sum
    have file : citesOf (Option.some f) j = f.cites j := rfl
    omega
  refine tree.recount range range' length (place.length folder.whole (graph.short dp f linked.1) ip) (fun dir => absurd dir plain)
    (fun _ _ => folder.enter place.place high short place.proper place.fresh) sound room ?_ ?_ (fun j pos other other' => ?_) (fun none => absurd none some) linked.2.2
  · rw [links ip (Nat.pos_iff_ne_zero.mp range.1), if_pos rfl, count]
  · rw [links dp (Nat.pos_iff_ne_zero.mp range'.1), if_neg apart.symm, ← tree.counted dp f linked.1]
    rfl
  · rw [links j pos, if_neg (Ne.symm other)]
    rfl

theorem citesTwo (dir : g.type = T_DIR ∧ g.nlink ≠ 0) (two : g.slots = 2) (j : Nat) : g.cites j = if g.inum 1 = j then 1 else 0 := by
  unfold File.cites
  rw [if_pos dir, two, Finset.card_filter, Finset.sum_range_succ, Finset.sum_range_one]
  simp

/-- A name for a new directory, which has its own two entries. -/
theorem Tree.make (mild : Mild sb) (tree : Tree sb s refs) (linked : Linked s dp f) (range : 0 < ip ∧ ip < sb.ninodes) (free : s ip = none) (dir : g.type = T_DIR)
    (one : g.nlink = 1) (folder' : Folder ip g) (two : g.slots = 2) (up : g.inum 1 = dp) (length : g.bytes.length ≤ MAXFILE * BSIZE) (place : Place f k name)
    (room : demand sb (both s ip g dp ({f with nlink := f.nlink + 1}.enter k ip name)) ≤ capacity sb) :
    Tree sb (both s ip g dp ({f with nlink := f.nlink + 1}.enter k ip name)) refs := by
  have graph := tree.graph
  have range' := graph.range dp f linked.1
  have folder := graph.folder dp f linked
  have short : ip < 2 ^ 16 := Nat.lt_of_lt_of_le range.2 mild.ninodes
  have high := place.high folder (Nat.pos_iff_ne_zero.mp range'.1)
  have apart : dp ≠ ip := by
    rintro rfl
    cases free.symm.trans linked.1
  have some : g.nlink ≠ 0 := by
    rw [one]
    decide
  have few := linksFew mild tree.room dp
  rw [← tree.counted dp f linked.1] at few
  obtain ⟨more, some'⟩ := nlinkMore f.nlink few
  have leaf : Leaf s ip := fun h bad => by
    cases free.symm.trans bad
  have linked' : Linked (update s dp (Option.some {f with nlink := f.nlink + 1})) dp {f with nlink := f.nlink + 1} := ⟨update_self .., linked.2.1, some'⟩
  have place' : Place {f with nlink := f.nlink + 1} k name := ⟨place.place, place.empty, place.fits, place.proper, place.fresh⟩
  have grown : Folder dp {f with nlink := f.nlink + 1} :=
    ⟨folder.whole, folder.long, folder.self, folder.dot, folder.up, folder.dotdot, folder.distinct, folder.proper⟩
  have sound : Sound (shape (both s ip g dp ({f with nlink := f.nlink + 1}.enter k ip name))) := by
    refine graph.sound.make (d := dp) (i := ip) (k := k) ⟨f, linked⟩ ?_ (fun j => ?_) (fun j => ?_) (fun e j l => ?_) (fun j old => ?_) ?_ rfl
    · rintro ⟨h, bad, _⟩
      cases free.symm.trans bad
    · exact bothMade linked some (h := {f with nlink := f.nlink + 1}.enter k ip name) some' j
    · rw [bothDir]
      split
      · rename_i same
        exact iff_of_true ⟨linked.2.1, some'⟩ (.inl (same ▸ ⟨f, linked⟩))
      · split
        · rename_i same
          exact iff_of_true ⟨dir, some⟩ (.inr same)
        · rename_i other
          exact (or_iff_left other).symm
    · have alike : ∀ j l, Holds {f with nlink := f.nlink + 1} j l ↔ Holds f j l := fun _ _ => and_congr_right fun _ => and_congr (iff_of_true some' linked.2.2) Iff.rfl
      refine bothEntered linked alike ⟨linked.2.1, some'⟩ folder.whole place' high short (Nat.pos_iff_ne_zero.mp range.1) leaf (fun m _ low holds => ?_) e j l
      have less := holds.2.2.1
      omega
    · rw [bothUp]
      split
      · rename_i same
        rw [same, upAt linked, enterInum (f := {f with nlink := f.nlink + 1}) folder.whole place.place short, if_neg (by omega)]
        rfl
      · split
        · rename_i same
          exact absurd (same ▸ old) leaf.dir
        · rfl
    · rw [bothUp, if_neg apart.symm, if_pos rfl, up]
  have links : ∀ j, j ≠ 0 → links sb (both s ip g dp ({f with nlink := f.nlink + 1}.enter k ip name)) j =
      links sb s j + (if dp = j then 1 else 0) + if ip = j then 1 else 0 := by
    intro j pos
    have sum := linksBoth (s := s) (g := g) (f := {f with nlink := f.nlink + 1}.enter k ip name) range.2 range'.2 apart j
    have same := citesLinks (f := f) f.major f.minor (f.nlink + 1) (iff_of_false some' linked.2.2) j
    rw [leaf.cites, linked.1, place'.cites linked' grown (Nat.pos_iff_ne_zero.mp range'.1) short pos, citesTwo ⟨dir, some⟩ two, up, same] at sum
    have file : citesOf (Option.some f) j = f.cites j := rfl
    omega
  refine tree.recount range range' length (place'.length folder.whole (graph.short dp f linked.1) ip) (fun _ _ => folder')
    (fun _ _ => grown.enter place.place high short place.proper place.fresh) sound room ?_ ?_ (fun j pos other other' => ?_) (fun none => absurd none some) some'
  · rw [links ip (Nat.pos_iff_ne_zero.mp range.1), if_pos rfl, if_neg apart, linksNone graph free (Nat.pos_iff_ne_zero.mp range.1), one]
    rfl
  · rw [links dp (Nat.pos_iff_ne_zero.mp range'.1), if_pos rfl, if_neg apart.symm, ← tree.counted dp f linked.1]
    exact more
  · rw [links j pos, if_neg (Ne.symm other'), if_neg (Ne.symm other)]
    rfl

/-! ### A name goes -/

/-- Nothing but its own two names is in a directory. -/
def Bare (g : File) : Prop := ∀ m, 2 ≤ m → m < g.slots → g.inum m = 0

theorem Bare.holds (bare : Bare g) (high : 2 ≤ k) : ¬ Holds g k i := fun holds => holds.2.2.2.2 (holds.2.2.2.1.symm.trans (bare k high holds.2.2.1))

theorem Bare.cites (bare : Bare g) (dir : g.type = T_DIR ∧ g.nlink ≠ 0) (long : 2 ≤ g.slots) (pos : j ≠ 0) : g.cites j = if g.inum 1 = j then 1 else 0 := by
  have only : (Finset.range g.slots).filter (fun k => 1 ≤ k ∧ g.inum k = j) = if g.inum 1 = j then {1} else ∅ := by
    ext m
    rw [Finset.mem_filter, Finset.mem_range]
    constructor
    · rintro ⟨less, low, inum⟩
      obtain rfl : m = 1 := by
        by_contra other
        exact pos (inum.symm.trans (bare m (by omega) less))
      simp [inum]
    · intro mem
      split at mem
      · rename_i inum
        obtain rfl := Finset.mem_singleton.mp mem
        exact ⟨by omega, le_rfl, inum⟩
      · cases mem
  unfold File.cites
  rw [if_pos dir, only]
  split <;> rfl

section
variable (graph : Graph sb s) (linked : Linked s dp f) (less : k < f.slots) (high : 2 ≤ k) (names : f.inum k = ip) (pos : ip ≠ 0) (mine : Linked s ip g) (bare : Bare g)

include graph linked less high names pos mine bare

theorem bareChild : (shape s).child dp k ip ∧ ip ≠ dp ∧ g.inum 1 = dp ∧ ip ≠ ROOTINO ∧ ∀ j l, ¬ (shape s).child ip j l := by
  have child : (shape s).child dp k ip := (childAt linked).mpr ⟨high, linked.2.1, linked.2.2, less, names, pos⟩
  have up := graph.sound.up dp k ip child ⟨g, mine⟩
  rw [upAt mine] at up
  refine ⟨child, graph.sound.apart child ⟨g, mine⟩, up.1, up.2, fun j l bad => ?_⟩
  obtain ⟨above, holds⟩ := (childAt mine).mp bad
  exact bare.holds above holds

theorem bareOnce : links sb s ip = 1 := by
  obtain ⟨child, apart, up, top, none⟩ := bareChild graph linked less high names pos mine bare
  have only : ∀ d h m, Linked s d h → 1 ≤ m → m < h.slots → h.inum m = ip → d = dp ∧ m = k := by
    intro d h m there low less' inum'
    rcases Nat.lt_or_eq_of_le low with above | rfl
    · exact graph.sound.alone child ⟨g, mine⟩ ((childAt there).mpr ⟨above, there.2.1, there.2.2, less', inum', pos⟩)
    · have parent := graph.sound.parent d ⟨h, there⟩
      rw [upAt there, inum'] at parent
      by_cases isTop : d = ROOTINO
      · have root := graph.sound.root.2
        rw [← show d = (shape s).root from isTop, upAt there, inum'] at root
        exact absurd (root.trans isTop) top
      · obtain ⟨l, bad⟩ := parent.2 isTop
        exact absurd bad (none l d)
  unfold links
  rw [Finset.sum_eq_single dp (fun d _ other => ?_) fun out => absurd (Finset.mem_range.mpr (graph.range dp f linked.1).2) out, linked.1]
  · have places : (Finset.range f.slots).filter (fun m => 1 ≤ m ∧ f.inum m = ip) = {k} := by
      ext m
      rw [Finset.mem_filter, Finset.mem_range, Finset.mem_singleton]
      constructor
      · rintro ⟨less', low, inum'⟩
        exact (only dp f m linked low less' inum').2
      · rintro rfl
        exact ⟨less, by omega, names⟩
    change f.cites ip = 1
    unfold File.cites
    rw [if_pos linked.2, places]
    rfl
  · by_contra some
    cases there : s d with
    | none => simp [citesOf, there] at some
    | some h =>
      have cites : 0 < h.cites ip := by simpa [citesOf, there, Nat.pos_iff_ne_zero] using some
      obtain ⟨dir, live, m, less', low, inum'⟩ := citesPos.mp cites
      exact other (only d h m ⟨there, dir, live⟩ low less' inum').1

theorem bareTwice : 2 ≤ links sb s dp := by
  obtain ⟨child, apart, up, top, none⟩ := bareChild graph linked less high names pos mine bare
  obtain ⟨above, place⟩ := graph.sound.parent dp ⟨f, linked⟩
  rw [upAt linked] at above place
  obtain ⟨h, parent⟩ := above
  have differ : f.inum 1 ≠ ip := by
    intro same
    by_cases isTop : dp = ROOTINO
    · have root := graph.sound.root.2
      rw [← show dp = (shape s).root from isTop, upAt linked] at root
      exact apart (same.symm.trans root)
    · obtain ⟨l, bad⟩ := place isTop
      rw [same] at bad
      exact none l dp bad
  have first : 1 ≤ citesOf (s ip) dp := by
    rw [mine.1]
    exact citesPos.mpr ⟨mine.2.1, mine.2.2, 1, (graph.folder ip g mine).long, le_rfl, up⟩
  have second : 1 ≤ citesOf (s (f.inum 1)) dp := by
    rw [parent.1]
    by_cases isTop : dp = ROOTINO
    · have root := graph.sound.root.2
      rw [← show dp = (shape s).root from isTop, upAt linked] at root
      have same : h = f := by
        rw [root] at parent
        exact parent.same linked
      rw [same]
      exact citesPos.mpr ⟨linked.2.1, linked.2.2, 1, (graph.folder dp f linked).long, le_rfl, root⟩
    · obtain ⟨l, there⟩ := place isTop
      obtain ⟨low, holds⟩ := (childAt parent).mp there
      exact citesPos.mpr ⟨parent.2.1, parent.2.2, l, holds.2.2.1, by omega, holds.2.2.2.1⟩
  have sub : ({ip, f.inum 1} : Finset Nat) ⊆ Finset.range sb.ninodes := by
    intro d mem
    rcases Finset.mem_insert.mp mem with rfl | mem
    · exact Finset.mem_range.mpr (graph.range d g mine.1).2
    · rw [Finset.mem_singleton.mp mem]
      exact Finset.mem_range.mpr (graph.range _ h parent.1).2
  have sum := Finset.sum_le_sum_of_subset (f := fun d => citesOf (s d) dp) sub
  rw [Finset.sum_pair differ.symm] at sum
  unfold links
  omega

end

def cleared (f : File) (k : Nat) (g : File) : File := {f.enter k 0 [] with nlink := if g.type = T_DIR then f.nlink - 1 else f.nlink}

def dropped (g : File) : File := {g with nlink := g.nlink - 1}

section
variable (tree : Tree sb s refs) (linked : Linked s dp f) (less : k < f.slots) (high : 2 ≤ k) (names : f.inum k = ip) (here : s ip = some g)
  (bare : g.type = T_DIR → Bare g)

include tree linked less high names here bare

theorem unlinkBefore : ip ≠ 0 ∧ g.nlink ≠ 0 ∧ dp ≠ ip ∧ (cleared f k g).nlink ≠ 0 ∧ (g.type = T_DIR → g.nlink = 1 ∧ g.inum 1 = dp ∧ ∀ j l, ¬ (shape s).child ip j l) := by
  have pos := Nat.pos_iff_ne_zero.mp (tree.graph.range ip g here).1
  have live : g.nlink ≠ 0 := by
    obtain ⟨h, there, live⟩ := linked.named tree.graph less (by rwa [names])
    rw [names, here] at there
    cases there
    exact live
  by_cases dir : g.type = T_DIR
  · have mine : Linked s ip g := ⟨here, dir, live⟩
    obtain ⟨_, apart, up, _, none⟩ := bareChild tree.graph linked less high names pos mine (bare dir)
    have once := bareOnce tree.graph linked less high names pos mine (bare dir)
    have twice := bareTwice tree.graph linked less high names pos mine (bare dir)
    rw [← tree.counted ip g here] at once
    rw [← tree.counted dp f linked.1] at twice
    have fewer := nlinkLess f.nlink linked.2.2
    refine ⟨pos, live, apart.symm, fun zero => ?_, fun _ => ⟨UInt16.toNat_inj.mp once, up, none⟩⟩
    unfold cleared at zero
    rw [if_pos dir] at zero
    rw [show f.nlink - 1 = 0 from zero] at fewer
    exact absurd fewer (by have bits : (0 : UInt16).toNat = 0 := rfl; omega)
  · refine ⟨pos, live, ?_, ?_, fun bad => absurd bad dir⟩
    · rintro rfl
      rw [linked.1] at here
      cases here
      exact dir linked.2.1
    · unfold cleared
      rw [if_neg dir]
      exact linked.2.2

theorem clearedCites (pos : j ≠ 0) : (cleared f k g).cites j + (if ip = j then 1 else 0) = f.cites j := by
  obtain ⟨_, _, _, some, _⟩ := unlinkBefore tree linked less high names here bare
  have folder := tree.graph.folder dp f linked
  have enter := citesEnter linked.2 folder.whole less.le (show 1 ≤ k by omega) (show 0 < 2 ^ 16 by decide) [] j
  have same : (cleared f k g).cites j = (f.enter k 0 []).cites j :=
    citesLinks (f := f.enter k 0 []) f.major f.minor _ (iff_of_false some linked.2.2) j
  rw [if_neg pos.symm] at enter
  simp only [less, true_and, names, Nat.add_zero] at enter
  rw [same, enter]

theorem unlinkLinks (pos : j ≠ 0) : links sb (both s ip (dropped g) dp (cleared f k g)) j + (if g.type = T_DIR ∧ dp = j then 1 else 0) + (if ip = j then 1 else 0) =
    links sb s j := by
  obtain ⟨_, live, apart, _, whole⟩ := unlinkBefore tree linked less high names here bare
  have sum := linksBoth (s := s) (g := dropped g) (f := cleared f k g) (tree.graph.range ip g here).2 (tree.graph.range dp f linked.1).2 apart j
  have entry := clearedCites tree linked less high names here bare pos
  rw [here, linked.1] at sum
  have file : citesOf (some f) j = f.cites j := rfl
  have file' : citesOf (some g) j = g.cites j := rfl
  by_cases dir : g.type = T_DIR
  · obtain ⟨one, up, _⟩ := whole dir
    have mine : Linked s ip g := ⟨here, dir, live⟩
    have gone : (dropped g).cites j = 0 := citesPlain (fun bad => bad.2 (by change g.nlink - 1 = 0; rw [one]; rfl)) j
    have own := (bare dir).cites ⟨dir, live⟩ (tree.graph.folder ip g mine).long pos
    rw [up] at own
    simp only [dir, true_and]
    omega
  · have plain : g.cites j = 0 := citesPlain (fun bad => dir bad.1) j
    have gone : (dropped g).cites j = 0 := citesPlain (f := dropped g) (fun bad => dir bad.1) j
    rw [if_neg fun bad => dir bad.1]
    omega

theorem unlinkCount : (dropped g).nlink.toNat = links sb (both s ip (dropped g) dp (cleared f k g)) ip := by
  obtain ⟨pos, live, apart, _, _⟩ := unlinkBefore tree linked less high names here bare
  have count := unlinkLinks tree linked less high names here bare pos
  have fewer := nlinkLess g.nlink live
  rw [if_neg fun bad => apart bad.2, if_pos rfl, ← tree.counted ip g here] at count
  change (g.nlink - 1).toNat = _
  omega

theorem unlinkSound : Sound (shape (both s ip (dropped g) dp (cleared f k g))) := by
  obtain ⟨pos, live, apart, some, whole⟩ := unlinkBefore tree linked less high names here bare
  have graph := tree.graph
  have folder := graph.folder dp f linked
  have noDir : (dropped g).type = T_DIR → (dropped g).nlink = 0 := fun dir => by
    change g.nlink - 1 = 0
    rw [(whole dir).1]
    rfl
  have noChild : ∀ j l, ¬ (shape s).child ip j l := by
    by_cases dir : g.type = T_DIR
    · exact (whole dir).2.2
    · exact fun j l => Leaf.child (fun h there => by rw [here] at there; cases there; exact dir)
  have places : ∀ j l, Holds (cleared f k g) j l ↔ Holds f j l ∧ j ≠ k := by
    intro j l
    have same : Holds (cleared f k g) j l ↔ Holds (f.enter k 0 []) j l := and_congr_right fun _ => and_congr (iff_of_true some linked.2.2) Iff.rfl
    rw [same, holdsEnter folder.whole less.le (show 0 < 2 ^ 16 by decide)]
    split
    · rename_i at'
      exact iff_of_false (fun bad => bad.2.2.2 bad.2.2.1.symm) fun bad => bad.2 at'
    · rename_i other
      exact (and_iff_left other).symm
  have child : ∀ e j l, (shape (both s ip (dropped g) dp (cleared f k g))).child e j l ↔ (shape s).child e j l ∧ ¬ (e = dp ∧ j = k) := by
    intro e j l
    rw [bothChild]
    split
    · rename_i same
      rw [same, childAt linked, places]
      simp [and_assoc]
    · rename_i other
      split
      · rename_i same
        exact iff_of_false (fun bad => bad.2.2.1 (noDir bad.2.1)) fun bad => noChild j l (same ▸ bad.1)
      · exact (and_iff_left fun bad => other bad.1).symm
  refine graph.sound.unlink (d := dp) (k := k) (i := ip) ((childAt linked).mpr ⟨high, linked.2.1, linked.2.2, less, names, pos⟩)
    (fun j there => ?_) (fun j l bad => noChild j l bad.2) (fun j old other => ?_) ?_ (fun j => ?_) child (fun j old => ?_) rfl
  · rw [← ((childAt linked).mp there).2.2.2.2.1, names]
  · change Live _ j
    rw [bothLive]
    split
    · exact some
    · exact old
  · by_cases last : (dropped g).nlink = 0
    · right
      intro e j bad
      have range : ∀ d h, both s ip (dropped g) dp (cleared f k g) d = Option.some h → 0 < d ∧ d < sb.ninodes := by
        intro d h there
        rw [bothAt] at there
        split at there
        · rename_i same
          rw [same]
          exact graph.range dp f linked.1
        · split at there
          · rename_i same
            rw [same]
            exact graph.range ip g here
          · exact graph.range d h there
      obtain ⟨low, h, there, holds⟩ := bad
      have more := (linksPos (i := ip) range).mpr ⟨e, h, j, ⟨there, holds.1, holds.2.1⟩, by omega, holds.2.2.1, holds.2.2.2.1⟩
      rw [← unlinkCount tree linked less high names here bare, last] at more
      exact Nat.lt_irrefl 0 more
    · left
      change Live _ ip
      rw [bothLive, if_neg apart.symm, if_pos rfl]
      exact last
  · rw [bothDir]
    split
    · rename_i same
      rw [same]
      exact iff_of_true ⟨linked.2.1, some⟩ ⟨⟨f, linked⟩, apart⟩
    · split
      · rename_i same
        exact iff_of_false (fun bad => bad.2 (noDir bad.1)) fun bad => bad.2 same
      · rename_i other
        exact (and_iff_left other).symm
  · rw [bothUp]
    split
    · rename_i same
      rw [same, upAt linked]
      have one := enterInum folder.whole less.le (show 0 < 2 ^ 16 by decide) [] 1
      rw [if_neg (by omega)] at one
      exact one
    · split
      · rename_i same
        have old' : (shape s).up j = g.inum 1 := by
          rw [same]
          unfold shape
          simp [here]
        rw [old']
        rfl
      · rfl

/-- A name goes, and with it the file if nobody uses it. -/
theorem Tree.unlink (held : ip ∈ refs) (room : demand sb (both s ip (dropped g) dp (cleared f k g)) ≤ capacity sb) :
    Tree sb (both s ip (dropped g) dp (cleared f k g)) refs := by
  obtain ⟨pos, live, apart, some, whole⟩ := unlinkBefore tree linked less high names here bare
  have graph := tree.graph
  have folder := graph.folder dp f linked
  have links : ∀ j, j ≠ 0 → _ := fun j => unlinkLinks (j := j) tree linked less high names here bare
  have size : (f.enter k 0 []).bytes.length ≤ MAXFILE * BSIZE := by
    have length := slotsWhole folder.whole
    have short := graph.short dp f linked.1
    unfold File.enter
    rw [spliceLength (by omega), direntLength]
    omega
  have entries := folder.clear less high
  refine tree.recount (graph.range ip g here) (graph.range dp f linked.1) (graph.short ip g here) size (fun dir bad => ?_) (fun _ _ => ?_)
    (unlinkSound tree linked less high names here bare) room (unlinkCount tree linked less high names here bare) ?_ (fun j pos' other other' => ?_) (fun _ => held) some
  · refine absurd ?_ bad
    change g.nlink - 1 = 0
    rw [(whole dir).1]
    rfl
  · exact ⟨entries.whole, entries.long, entries.self, entries.dot, entries.up, entries.dotdot, entries.distinct, entries.proper⟩
  · have count := links dp (Nat.pos_iff_ne_zero.mp (graph.range dp f linked.1).1)
    rw [if_neg apart.symm, ← tree.counted dp f linked.1] at count
    have fewer := nlinkLess f.nlink linked.2.2
    unfold cleared at count ⊢
    dsimp only at count ⊢
    by_cases dir : g.type = T_DIR
    · simp only [dir, true_and, if_true] at count ⊢
      omega
    · simp only [dir, false_and, if_false] at count ⊢
      omega
  · have count := links j pos'
    rw [if_neg fun bad => other' bad.2.symm, if_neg (Ne.symm other)] at count
    exact count

end

/-! ### Nothing that has a name changes -/

theorem Tree.hold (tree : Tree sb s refs) (here : s i = some f) : Tree sb s (i :: refs) := by
  refine ⟨tree.graph, tree.room, tree.counted, fun j g there none => List.mem_cons_of_mem i (tree.kept j g there none), fun j mem => ?_⟩
  rcases List.mem_cons.mp mem with rfl | mem
  · exact ⟨f, here⟩
  · exact tree.held j mem

theorem Tree.forget (tree : Tree sb s (i :: refs)) (still : i ∈ refs ∨ ∀ f, s i = some f → f.nlink ≠ 0) : Tree sb s refs := by
  refine ⟨tree.graph, tree.room, tree.counted, fun j g here none => ?_, fun j mem => tree.held j (List.mem_cons_of_mem i mem)⟩
  rcases List.mem_cons.mp (tree.kept j g here none) with rfl | mem
  · rcases still with mem | live
    · exact mem
    · exact absurd none (live g here)
  · exact mem

theorem demandErase (s : Nat → Option File) (i : Nat) : demand sb (update s i none) ≤ demand sb s := by
  refine Finset.sum_le_sum fun j _ => ?_
  by_cases here : j = i
  · rw [here, update_self]
    exact Nat.zero_le _
  · rw [update_of_ne here]

/-- The last that is left of a file goes. -/
theorem Tree.drop (tree : Tree sb s (i :: refs)) (here : s i = some f) (bare : f.nlink = 0) (last : i ∉ refs) : Tree sb (update s i none) refs := by
  have graph := tree.graph
  have same : ∀ {j g}, update s i none j = some g ↔ s j = some g ∧ j ≠ i := by
    intro j g
    by_cases at' : j = i
    · simp [at']
    · simp [at']
  have live : ∀ j, Live (update s i none) j ↔ Live s j := by
    intro j
    unfold Live
    refine exists_congr fun g => ?_
    rw [same]
    refine ⟨fun ⟨there, rest⟩ => ⟨there.1, rest⟩, fun ⟨there, rest⟩ => ⟨⟨there, ?_⟩, rest⟩⟩
    rintro rfl
    cases here.symm.trans there
    exact rest bare
  have linked : ∀ j g, Linked (update s i none) j g ↔ Linked s j g := by
    intro j g
    unfold Linked
    rw [same]
    refine ⟨fun ⟨there, rest⟩ => ⟨there.1, rest⟩, fun ⟨there, rest⟩ => ⟨⟨there, ?_⟩, rest⟩⟩
    rintro rfl
    cases here.symm.trans there
    exact rest.2 bare
  have links : ∀ j, links sb (update s i none) j = links sb s j := by
    intro j
    have sum := linksUpdate (graph.range i f here).2 s none j
    have cites : citesOf (s i) j = 0 := by
      rw [here]
      exact citesPlain (fun dir => dir.2 bare) j
    have nothing : citesOf none j = 0 := rfl
    omega
  refine ⟨⟨fun j g there => graph.range j g (same.mp there).1, fun j g there => graph.short j g (same.mp there).1, fun j g there => graph.folder j g ((linked j g).mp there), ?_⟩,
    (demandErase s i).trans tree.room, fun j g there => ?_, fun j g there gone => ?_, fun j mem => ?_⟩
  · refine graph.sound.congr live (fun j => exists_congr fun g => linked j g) (fun d k j => ?_) (fun j dir => ?_) rfl
    · refine and_congr_right fun _ => exists_congr fun g => ?_
      rw [same]
      refine ⟨fun ⟨there, rest⟩ => ⟨there.1, rest⟩, fun ⟨there, rest⟩ => ⟨⟨there, ?_⟩, rest⟩⟩
      rintro rfl
      cases here.symm.trans there
      exact rest.2.1 bare
    · obtain ⟨g, there⟩ := dir
      rw [upAt there, upAt ((linked j g).mpr there)]
  · rw [links]
    exact tree.counted j g (same.mp there).1
  · exact (List.mem_cons.mp (tree.kept j g (same.mp there).1 gone)).resolve_left (same.mp there).2
  · obtain ⟨g, there⟩ := tree.held j (List.mem_cons_of_mem i mem)
    refine ⟨g, same.mpr ⟨there, ?_⟩⟩
    rintro rfl
    exact last mem

theorem Tree.release (tree : Tree sb s (i :: refs)) : Tree sb (released s (i :: refs) i) refs := by
  obtain ⟨f, here⟩ := tree.held i List.mem_cons_self
  by_cases still : i ∈ refs
  · rw [releasedHeld (by rwa [List.erase_cons_head])]
    exact tree.forget (.inl still)
  · by_cases bare : f.nlink = 0
    · rw [releasedLast here bare List.mem_cons_self (by rwa [List.erase_cons_head])]
      exact tree.drop here bare still
    · rw [releasedLinked here bare]
      exact tree.forget (.inr fun g there => by cases here.symm.trans there; exact bare)

theorem Graph.leaf (graph : Graph sb s) (here : s i = some f) (leaf : f.type ≠ T_DIR) (leaf' : g.type ≠ T_DIR) (alike : g.nlink ≠ 0 ↔ f.nlink ≠ 0)
    (short : g.bytes.length ≤ MAXFILE * BSIZE) : Graph sb (update s i (some g)) := by
  have plain : Leaf s i := fun h there => by
    cases here.symm.trans there
    exact leaf
  refine graph.change i i (fun j other _ => update_of_ne other _ _) (fun j h which there => ?_) (graph.sound.congr (fun j => ?_) (fun j => ?_) (fun d k j => ?_) (fun j dir => ?_) rfl)
  · obtain rfl := which.elim id id
    rw [update_self] at there
    cases there
    exact ⟨graph.range j f here, short, fun dir => absurd dir leaf'⟩
  · change Live _ j ↔ Live s j
    rw [liveUpdate]
    split
    · rename_i same
      unfold Live
      simp [same, here, alike]
    · exact Iff.rfl
  · rw [dirUpdate]
    split
    · rename_i same
      exact iff_of_false (fun dir => leaf' dir.1) (same ▸ plain.dir)
    · exact Iff.rfl
  · rw [childUpdate]
    split
    · rename_i same
      exact iff_of_false (fun holds => leaf' holds.2.1) (same ▸ plain.child)
    · exact Iff.rfl
  · rw [upUpdate]
    split
    · rename_i same
      exact absurd (same ▸ dir) plain.dir
    · rfl

theorem Tree.write {bytes : List UInt8} (tree : Tree sb s refs) (here : s i = some f) (leaf : f.type ≠ T_DIR) (short : bytes.length ≤ MAXFILE * BSIZE)
    (room : demand sb (update s i (some {f with bytes := bytes})) ≤ capacity sb) : Tree sb (update s i (some {f with bytes := bytes})) refs := by
  have graph := tree.graph
  have plain : Leaf s i := fun g there => by
    cases here.symm.trans there
    exact leaf
  have links : ∀ j, links sb (update s i (some {f with bytes := bytes})) j = links sb s j := by
    intro j
    have sum := linksUpdate (graph.range i f here).2 s (some {f with bytes := bytes}) j
    rw [plain.cites] at sum
    have cites : citesOf (some {f with bytes := bytes}) j = 0 := citesPlain (f := {f with bytes := bytes}) (fun dir => leaf dir.1) j
    omega
  have at' : ∀ j g, update s i (some {f with bytes := bytes}) j = some g → (j = i ∧ g = {f with bytes := bytes}) ∨ s j = some g := by
    intro j g there
    by_cases same : j = i
    · rw [same, update_self] at there
      exact .inl ⟨same, (Option.some.inj there).symm⟩
    · rw [update_of_ne same] at there
      exact .inr there
  refine ⟨graph.leaf here leaf leaf Iff.rfl short, room, fun j g there => ?_, fun j g there none => ?_, fun j mem => ?_⟩
  · rw [links]
    rcases at' j g there with ⟨rfl, rfl⟩ | there
    · exact tree.counted j f here
    · exact tree.counted j g there
  · rcases at' j g there with ⟨rfl, rfl⟩ | there
    · exact tree.kept j f here none
    · exact tree.kept j g there none
  · by_cases same : j = i
    · rw [same, update_self]
      exact ⟨_, rfl⟩
    · rw [update_of_ne same]
      exact tree.held j mem

end OpSys.Sysfile
