import OpSys.Kernel.Namespace

/-! `link` and `unlink` keep the files and their names together. -/
namespace OpSys.Sysfile
open Function OpSys.Bytes OpSys.Transition OpSys.Scripts OpSys.Fs OpSys.Hierarchy

variable {ρ : Type} {sb : Superblock} {devsw : Devsw} {s : Nat → Option File} {refs : List Nat} {i j k ip dp inum cwd off : Nat} {f g : File} {name : Name}
  {path old new : List UInt8} {Q : ρ → (Nat → Option File) × List Nat → Prop}

/-- A path of a process in `cwd`. If it does not begin at the root, the directory is still there. -/
structure From (s : Nat → Option File) (cwd : Nat) (path : List UInt8) : Prop where
  plain : 0 ∉ path
  live : path.head? ≠ some slash → Live s cwd

theorem doNamei {k : Option Nat → Calls ρ} (graph : Graph sb s) (h : From s cwd path)
    (missing : under (spaceOf s) false path cwd = none → Goes sb devsw (k none) s refs Q)
    (found : ∀ i name f, under (spaceOf s) false path cwd = some (i, name) → s i = some f → f.nlink ≠ 0 → Goes sb devsw (k (some i)) s (i :: refs) Q) :
    Goes sb devsw (namei path cwd >>= k) s refs Q := by
  unfold namei
  rw [← underResolve graph h.live] at missing found
  rw [bindAssoc]
  refine doNamex graph h.plain h.live missing fun i name leads live => ?_
  obtain ⟨f, here, some⟩ := live
  exact found i name f leads here some

theorem doNameiparent {k : Option (Nat × Name) → Calls ρ} (graph : Graph sb s) (h : From s cwd path)
    (missing : under (spaceOf s) true path cwd = none → Goes sb devsw (k none) s refs Q)
    (found : ∀ dp name f, under (spaceOf s) true path cwd = some (dp, name) → Linked s dp f → Proper name → Goes sb devsw (k (some (dp, name))) s (dp :: refs) Q) :
    Goes sb devsw (nameiparent path cwd >>= k) s refs Q := by
  unfold nameiparent
  rw [← underResolve graph h.live] at missing found
  refine doNamex graph h.plain h.live missing fun dp name leads live => ?_
  obtain ⟨⟨f, here, dir⟩, mem⟩ := walkParent leads
  obtain ⟨f', here', some⟩ := live
  cases here.symm.trans here'
  exact found dp name f leads ⟨here, dir, some⟩ (elemsProper h.plain name mem)

/-- What a call leaves and answers. -/
def Leaves (sb : Superblock) (refs : List Nat) (space : Space × Int) (n : Int) (t : (Nat → Option File) × List Nat) : Prop :=
  Tree sb t.1 refs ∧ t.2 = refs ∧ (spaceOf t.1, n) = space

/-! ### `link` -/

def relinked (g : File) (nlink : UInt16) : File := {g with nlink := nlink}

theorem relinkSpace (here : s ip = some g) (leaf : g.type ≠ T_DIR) (nlink : UInt16) : spaceOf (update s ip (some (relinked g nlink))) = spaceOf s := by
  have same : node (relinked g nlink) = node g := by rw [nodeFile leaf, nodeFile (f := relinked g nlink) leaf]; rfl
  rw [spaceUpdate, Option.map_some, same, ← spaceAt here, update_eq_self]

theorem relinkLive (here : s ip = some g) (some : g.nlink ≠ 0) {nlink : UInt16} (some' : nlink ≠ 0) : Live (update s ip (Option.some (relinked g nlink))) j ↔ Live s j := by
  rw [liveUpdate]
  split
  · rename_i same
    exact iff_of_true some' (same ▸ ⟨g, here, some⟩)
  · exact Iff.rfl

/-- The count goes back. -/
theorem badLeaves (tree : Tree sb s refs) (here : s ip = some g) (live : g.nlink ≠ 0) {space : Space × Int} (same : (spaceOf s, -1) = space) :
    Goes sb devsw (sys_link.bad ip) (update s ip (some (relinked g (g.nlink + 1)))) (ip :: refs) (Leaves sb refs space) := by
  have range := tree.graph.range ip g here
  have back : update (update s ip (some (relinked g (g.nlink + 1)))) ip (some (relinked (relinked g (g.nlink + 1)) (g.nlink + 1 - 1))) = s := by
    have file : relinked (relinked g (g.nlink + 1)) (g.nlink + 1 - 1) = g := by
      unfold relinked
      rw [UInt16.add_sub_cancel]
    rw [file, update_idem, ← here, update_eq_self]
  refine doIlock (update_self ..) range (doIupdate (update_self ..) range (doIput range ?_))
  change Goes sb devsw _ (released (update (update s ip (some (relinked g (g.nlink + 1)))) ip (some (relinked (relinked g (g.nlink + 1)) (g.nlink + 1 - 1)))) _ _) _ _
  rw [back, releasedLinked here live, List.erase_cons_head]
  exact .done ⟨tree, rfl, same⟩

theorem linkDoes (mild : Mild sb) (tree : Tree sb s refs) (fromOld : From s cwd old) (fromNew : From s cwd new) :
    Goes sb devsw (sys_link old new cwd) s refs (Leaves sb refs (linkSpace (spaceOf s) old new cwd)) := by
  have graph := tree.graph
  unfold sys_link
  refine doNamei graph fromOld (fun missing => ?_) fun ip last g leads here live => ?_
  · refine .done ⟨tree, rfl, ?_⟩
    unfold linkSpace
    rw [missing]
  · have range := graph.range ip g here
    refine doIlock here range ?_
    by_cases dir : g.type = T_DIR
    · rw [if_pos (show g.stat.type = T_DIR from dir)]
      refine doIput range ?_
      rw [releasedLinked here live, List.erase_cons_head]
      refine .done ⟨tree, rfl, ?_⟩
      unfold linkSpace
      rw [leads]
      simp [spaceIsDir here, dir]
    · rw [if_neg (show ¬ g.stat.type = T_DIR from dir)]
      have few := linksFew mild tree.room ip
      rw [← tree.counted ip g here] at few
      obtain ⟨more, some⟩ := nlinkMore g.nlink few
      have graph' : Graph sb (update s ip (Option.some (relinked g (g.nlink + 1)))) := graph.leaf here dir dir (iff_of_true some live) (graph.short ip g here)
      have space := relinkSpace here dir (g.nlink + 1)
      have whole : linkSpace (spaceOf s) old new cwd = linkInto (spaceOf s) new cwd ip := by
        unfold linkSpace
        rw [leads]
        dsimp only
        rw [spaceIsDir here, decide_eq_false dir]
        rfl
      unfold linkInto at whole
      refine doIupdate here range ?_
      refine doNameiparent graph' ⟨fromNew.plain, fun below => (relinkLive here live some).mpr (fromNew.live below)⟩ (fun missing => ?_) fun dp name f leads' linked' proper => ?_
      · change under (spaceOf (update s ip (Option.some (relinked g (g.nlink + 1))))) true new cwd = none at missing
        rw [space] at missing
        rw [missing] at whole
        exact badLeaves tree here live whole.symm
      · change under (spaceOf (update s ip (Option.some (relinked g (g.nlink + 1))))) true new cwd = Option.some (dp, name) at leads'
        change Linked (update s ip (Option.some (relinked g (g.nlink + 1)))) dp f at linked'
        rw [space] at leads'
        rw [leads'] at whole
        have apart : dp ≠ ip := by
          rintro rfl
          have same := linked'.1
          rw [update_self] at same
          cases same
          exact dir linked'.2.1
        have linked : Linked s dp f := ⟨by rw [← linked'.1, update_of_ne apart], linked'.2⟩
        dsimp only at whole
        rw [spaceAt linked.1, nodeDir linked.2.1] at whole
        dsimp only at whole
        have range' := graph.range dp f linked.1
        refine doIlock linked'.1 range' (doDirlink (linked'.open' graph') name (fun fresh m place empty fits room => ?_) fun j found => ?_)
        · rw [textName proper] at fresh
          have good : Place f m name := ⟨place, empty, fits, proper, fresh⟩
          have leaf : Leaf s ip := fun h there => by
            cases here.symm.trans there
            exact dir
          have tree' : Tree sb (both s ip (relinked g (g.nlink + 1)) dp (f.enter m ip name)) refs :=
            tree.enter mild linked range leaf dir (graph.short ip g here) (by rw [← tree.counted ip g here]; exact more) good room
          refine doIput range' ?_
          rw [releasedLinked (f := f.enter m ip name) (update_self ..) linked.2.2, List.erase_cons_head, if_neg (show ¬ (0 : Int) < 0 by decide)]
          refine doIput range ?_
          rw [releasedLinked (f := relinked g (g.nlink + 1)) (by rw [update_of_ne apart.symm]; exact update_self ..) some, List.erase_cons_head]
          refine .done ⟨tree', rfl, ?_⟩
          have none : contents f name = Option.none := by
            unfold contents
            rw [if_neg linked.2.2, fresh]
            rfl
          have after : spaceOf (both s ip (relinked g (g.nlink + 1)) dp (f.enter m ip name)) = enter (spaceOf s) dp (contents f) name ip := by
            unfold both enter
            rw [spaceUpdate, space, Option.map_some, nodeDir (f := f.enter m ip name) linked.2.1]
            rw [contentsEnter (graph.folder dp f linked) linked.2.2 (Nat.pos_iff_ne_zero.mp range'.1) (Nat.lt_of_lt_of_le range.2 mild.ninodes) (Nat.pos_iff_ne_zero.mp range.1) good]
          rw [whole, if_pos none, ← after]
          rfl
        · have next := linked'.next graph' found
          obtain ⟨h, there, some'⟩ := id next
          refine ⟨next.range graph', doIput range' ?_⟩
          rw [releasedLinked there some', releasedLinked linked'.1 linked'.2.2, List.erase_cons_head, if_pos (show (-1 : Int) < 0 by decide)]
          refine badLeaves tree here live ?_
          rw [textName proper] at found
          have some : contents f name ≠ none := by
            unfold contents
            rw [if_neg linked.2.2, found]
            exact Option.some_ne_none _
          rw [whole, if_neg some]

/-! ### `unlink` -/

theorem demandSame {s' : Nat → Option File} (same : ∀ j, (s' j).map (fun f => f.bytes.length) = (s j).map fun f => f.bytes.length) : demand sb s' = demand sb s := by
  refine Finset.sum_congr rfl fun j _ => ?_
  have parts : ∀ o : Option File, (o.map fun f => blocksFor f.bytes.length).getD 0 = ((o.map fun f => f.bytes.length).map blocksFor).getD 0 := fun o => by
    rw [Option.map_map]
    rfl
  rw [parts, parts, same]

theorem enterLength (whole : f.Whole) (less : k < f.slots) (inum : Nat) (name : Name) : (f.enter k inum name).bytes.length = f.bytes.length := by
  have length := slotsWhole whole
  unfold File.enter
  rw [spliceLength (by omega), direntLength]
  omega

theorem unlinkRoom (tree : Tree sb s refs) (linked : Linked s dp f) (less : k < f.slots) (here : s ip = some g) :
    demand sb (both s ip (dropped g) dp (cleared f k g)) ≤ capacity sb := by
  refine le_of_eq_of_le (demandSame fun j => ?_) tree.room
  rw [bothAt]
  split
  · rename_i same
    rw [same, linked.1]
    exact congrArg some (enterLength (tree.graph.folder dp f linked).whole less 0 [])
  · split
    · rename_i same
      rw [same, here]
      rfl
    · rfl

section
variable (tree : Tree sb s refs) (linked : Linked s dp f) (less : k < f.slots) (high : 2 ≤ k) (names : f.inum k = ip) (here : s ip = some g)
  (bare : g.type = T_DIR → Bare g)

include tree linked less high names here bare

theorem unlinkSpaceOf : spaceOf (both s ip (dropped g) dp (cleared f k g)) =
    if g.type = T_DIR then update (enter (spaceOf s) dp (contents f) (f.name k) none) ip (some (.dir fun _ => none)) else enter (spaceOf s) dp (contents f) (f.name k) none := by
  obtain ⟨pos, live, apart, some, whole⟩ := unlinkBefore tree linked less high names here bare
  have home : node (cleared f k g) = .dir (update (contents f) (f.name k) none) := by
    rw [nodeDir (f := cleared f k g) linked.2.1, contentsClear (tree.graph.folder dp f linked) linked.2.2 less high (by rwa [names]) some]
  unfold both enter
  rw [spaceUpdate, spaceUpdate, Option.map_some, Option.map_some, home]
  split
  · rename_i dir
    have gone : node (dropped g) = .dir fun _ => none := by
      rw [nodeDir (f := dropped g) dir]
      refine congrArg _ (funext fun n => if_pos ?_)
      change g.nlink - 1 = 0
      rw [(whole dir).1]
      rfl
    rw [gone, update_comm apart]
  · rename_i leaf
    have same : node (dropped g) = node g := by
      rw [nodeFile leaf, nodeFile (f := dropped g) leaf]
      rfl
    rw [same, ← spaceAt here, update_eq_self]

theorem unlinkEntryDoes {space : Space × Int}
    (same : (sweep (spaceOf (both s ip (dropped g) dp (cleared f k g))) refs ip, 0) = space) :
    Goes sb devsw (unlinkEntry dp f.stat ip g.stat (16 * k)) s (ip :: dp :: refs) (Leaves sb refs space) := by
  obtain ⟨pos, live, apart, some, whole⟩ := unlinkBefore tree linked less high names here bare
  have graph := tree.graph
  have range := graph.range ip g here
  have range' := graph.range dp f linked.1
  have folder := graph.folder dp f linked
  have length := slotsWhole folder.whole
  have short := graph.short dp f linked.1
  have zeros : List.replicate 16 0 = dirent 0 [] := by decide
  have write : f.write (16 * k) (List.replicate 16 0) = ((16 : Int), (f.enter k 0 []).bytes) := by
    have inside : ¬ (f.bytes.length < 16 * k ∨ 2 ^ 32 ≤ 16 * k + (dirent 0 []).length) := by
      unfold MAXFILE BSIZE at short
      rw [direntLength]
      omega
    have all : (dirent 0 []).take (MAXFILE * BSIZE - 16 * k) = dirent 0 [] := List.take_of_length_le (by rw [direntLength]; omega)
    rw [zeros]
    refine (if_neg inside).trans ?_
    rw [all, direntLength]
    rfl
  have held := tree.hold here
  have tree' := held.unlink linked less high names here bare List.mem_cons_self (unlinkRoom tree linked less here)
  let rest : Calls Int := do
    iput dp
    iupdate ip g.major g.minor (g.nlink - 1)
    iput ip
    return 0
  have last : Goes sb devsw rest (update s dp (Option.some (cleared f k g))) (ip :: dp :: refs)
      (Leaves sb refs space) := by
    refine doIput range' ?_
    rw [releasedLinked (update_self ..) some, eraseSecond]
    refine doIupdate (by rw [update_of_ne apart.symm]; exact here) range (doIput range ?_)
    have final : update (update s dp (Option.some (cleared f k g))) ip (Option.some (dropped g)) = both s ip (dropped g) dp (cleared f k g) := update_comm apart ..
    change Goes sb devsw _ (released (update (update s dp (Option.some (cleared f k g))) ip (Option.some (dropped g))) _ _) _ _
    rw [final, List.erase_cons_head]
    refine .done ⟨tree'.release, rfl, ?_⟩
    rw [← same, ← sweepReleased tree']
  unfold unlinkEntry
  refine doWritei linked.1 (by rw [linked.2.1]; decide) range' (show (List.replicate 16 (0 : UInt8)).length < 2 ^ 32 by decide) fun room => ?_
  rw [write, if_neg (show ¬ (16 : Int) ≠ 16 by decide)]
  change Goes sb devsw (if g.type = T_DIR then iupdate dp f.major f.minor (f.nlink - 1) >>= fun _ => rest else rest) (update s dp (Option.some (f.enter k 0 []))) _ _
  by_cases dir : g.type = T_DIR
  · rw [if_pos dir]
    refine doIupdate (update_self ..) range' ?_
    have file : ({f.enter k 0 [] with major := f.major, minor := f.minor, nlink := f.nlink - 1} : File) = cleared f k g := by
      unfold cleared
      rw [if_pos dir]
      rfl
    rw [file, update_idem]
    exact last
  · rw [if_neg dir]
    have file : f.enter k 0 [] = cleared f k g := by
      unfold cleared
      rw [if_neg dir]
      rfl
    rw [file]
    exact last

end

theorem unlinkDoes (mild : Mild sb) (tree : Tree sb s refs) (from' : From s cwd path) :
    Goes sb devsw (sys_unlink path cwd) s refs (Leaves sb refs (unlinkSpace (spaceOf s) refs path cwd)) := by
  have graph := tree.graph
  unfold sys_unlink
  refine doNameiparent graph from' (fun missing => ?_) fun dp name f leads linked proper => ?_
  · refine .done ⟨tree, rfl, ?_⟩
    unfold unlinkSpace
    rw [missing]
  · have range := graph.range dp f linked.1
    have folder := graph.folder dp f linked
    have unused : Goes sb devsw (do iput dp; pure (-1)) s (dp :: refs) (Leaves sb refs (spaceOf s, -1)) := by
      refine doIput range ?_
      rw [releasedLinked linked.1 linked.2.2, List.erase_cons_head]
      exact .done ⟨tree, rfl, rfl⟩
    have dots : (namecmp (chars name) (chars dot) = 0 ∨ namecmp (chars name) (chars dotdot) = 0) ↔ (name = dot ∨ name = dotdot) := by
      unfold namecmp
      rw [strncmpText, strncmpText, textName proper]
      exact Iff.rfl
    refine doIlock linked.1 range ?_
    unfold unlinkSpace
    rw [leads]
    dsimp only
    by_cases special : name = dot ∨ name = dotdot
    · rw [if_pos (dots.mpr special), if_pos special]
      exact unused
    · rw [if_neg (fun bad => special (dots.mp bad)), if_neg special, spaceAt linked.1, nodeDir linked.2.1]
      dsimp only
      refine doDirlookup linked.1 linked.2.1 range (fun missing => ?_) fun k found => ?_
      · rw [textName proper] at missing
        have none : contents f name = Option.none := by
          unfold contents
          rw [if_neg linked.2.2, missing]
          rfl
        rw [none]
        exact unused
      · rw [textName proper] at found
        obtain ⟨less, some, same⟩ := lookupSome found
        have high : 2 ≤ k := by
          by_contra low
          rcases Nat.le_one_iff_eq_zero_or_eq_one.mp (show k ≤ 1 by omega) with rfl | rfl
          · exact special (.inl (same.symm.trans folder.dot))
          · exact special (.inr (same.symm.trans folder.dotdot))
        obtain ⟨g, here, live⟩ := linked.named graph less some
        have range' := graph.range (f.inum k) g here
        refine ⟨range', ?_⟩
        have some' : contents f name = Option.some (f.inum k) := by
          unfold contents
          rw [if_neg linked.2.2, found]
          rfl
        rw [some']
        dsimp only
        have few := linksFew mild tree.room (f.inum k)
        rw [← tree.counted (f.inum k) g here] at few
        let rest (empty : Bool) : Calls Int :=
          if empty then unlinkEntry dp f.stat (f.inum k) g.stat (16 * k)
          else do
            iput (f.inum k)
            iput dp
            return -1
        have gone : (g.type = T_DIR → Bare g) → Goes sb devsw (rest true) s (f.inum k :: dp :: refs) (Leaves sb refs
            (if isDir (spaceOf s) (f.inum k) then (sweep (update (enter (spaceOf s) dp (contents f) name Option.none) (f.inum k) (Option.some (.dir fun _ => Option.none))) refs (f.inum k), 0)
              else (sweep (enter (spaceOf s) dp (contents f) name Option.none) refs (f.inum k), 0))) := by
          intro bare
          refine unlinkEntryDoes tree linked less high rfl here bare ?_
          rw [unlinkSpaceOf tree linked less high rfl here bare, spaceIsDir here, same]
          by_cases dir : g.type = T_DIR
          · rw [if_pos dir, decide_eq_true dir]
            rfl
          · rw [if_neg dir, decide_eq_false dir]
            rfl
        refine doIlock here range' ?_
        have fine : ¬ (g.stat.nlink = 0 ∨ 2 ^ 15 ≤ g.stat.nlink.toNat) := not_or.mpr ⟨live, by change ¬ 2 ^ 15 ≤ g.nlink.toNat; omega⟩
        rw [if_neg fine]
        change Goes sb devsw (if g.type = T_DIR then isdirempty (f.inum k) g.bytes.length g.bytes.length 32 >>= rest else rest true) _ _ _
        by_cases dir : g.type = T_DIR
        · have mine : Linked s (f.inum k) g := ⟨here, dir, live⟩
          have busy := busyBare mine (graph.folder _ g mine) some
          have size : g.slots ≤ 2 + g.bytes.length := by
            unfold File.slots
            omega
          rw [if_pos dir]
          refine doIsdirempty (mine.open' graph) size fun empty bare => ?_
          cases empty with
          | true =>
            have bare' : Bare g := bare.mp rfl
            rw [if_neg (fun bad => busy.mp bad bare')]
            exact gone fun _ => bare'
          | false =>
            have full : ¬ Bare g := fun bad => Bool.false_ne_true (bare.mpr bad)
            rw [if_pos (busy.mpr full)]
            refine doIput range' ?_
            rw [releasedLinked here live, List.erase_cons_head]
            exact unused
        · have idle : ¬ Busy (spaceOf s) (f.inum k) := by
            rintro ⟨names, n, there, _⟩
            rw [spaceAt here, nodeFile dir] at there
            cases there
          rw [if_neg dir, if_neg idle]
          exact gone fun bad => absurd bad dir

end OpSys.Sysfile
