import OpSys.Kernel.Links

/-! `create` makes a file and its name, and a directory with the names that it has itself. -/
namespace OpSys.Sysfile
open Function OpSys.Bytes OpSys.Transition OpSys.Scripts OpSys.Fs OpSys.Hierarchy

variable {ρ : Type} {sb : Superblock} {devsw : Devsw} {s : Nat → Option File} {refs : List Nat} {i j k ip dp cwd : Nat} {f g : File} {name : Name}
  {path : List UInt8} {type major minor : UInt16} {Q : ρ → (Nat → Option File) × List Nat → Prop}

/-- A file as it is before it has a name. -/
def blank (type major minor : UInt16) : File := ⟨type, major, minor, 1, []⟩

def dotted (major minor : UInt16) (ip dp : Nat) : File := ((blank T_DIR major minor).enter 0 ip dot).enter 1 dp dotdot

theorem blankWhole (type major minor : UInt16) : (blank type major minor).Whole := rfl

@[simp] theorem blankSlots : (blank type major minor).slots = 0 := by
  simp [File.slots, blank]

theorem firstSlots (major minor : UInt16) (ip : Nat) : ((blank T_DIR major minor).enter 0 ip dot).slots = 1 := by
  rw [enterSlots (blankWhole ..) (Nat.zero_le _), blankSlots]
  rfl

theorem firstWhole (major minor : UInt16) (ip : Nat) : ((blank T_DIR major minor).enter 0 ip dot).Whole := enterWhole (blankWhole ..) (Nat.zero_le _) ip dot

section
variable (fits : ip < 2 ^ 16) (fits' : dp < 2 ^ 16)

include fits in
theorem firstInum (j : Nat) : ((blank T_DIR major minor).enter 0 ip dot).inum j = if j = 0 then ip else (blank T_DIR major minor).inum j :=
  enterInum (blankWhole ..) (Nat.zero_le _) fits dot j

theorem firstName (ip : Nat) : ((blank T_DIR major minor).enter 0 ip dot).name 0 = dot := by
  rw [enterName (blankWhole ..) (Nat.zero_le _), if_pos rfl]
  rfl

theorem dottedSlots (major minor : UInt16) (ip dp : Nat) : (dotted major minor ip dp).slots = 2 := by
  unfold dotted
  rw [enterSlots (firstWhole major minor ip) (by rw [firstSlots]), firstSlots]
  rfl

include fits fits' in
theorem dottedInum (major minor : UInt16) : (dotted major minor ip dp).inum 0 = ip ∧ (dotted major minor ip dp).inum 1 = dp := by
  have inums := enterInum (firstWhole major minor ip) (show 1 ≤ _ by rw [firstSlots]) fits' dotdot
  unfold dotted
  rw [inums, inums, if_neg (by decide), if_pos rfl, firstInum fits, if_pos rfl]
  exact ⟨rfl, rfl⟩

theorem dottedName (major minor : UInt16) (ip dp : Nat) : (dotted major minor ip dp).name 0 = dot ∧ (dotted major minor ip dp).name 1 = dotdot := by
  have names := enterName (firstWhole major minor ip) (show 1 ≤ _ by rw [firstSlots]) dp dotdot
  unfold dotted
  rw [names, names, if_neg (by decide), if_pos rfl, firstName]
  exact ⟨rfl, rfl⟩

theorem dottedLength (ip dp : Nat) : (dotted major minor ip dp).bytes.length = 32 := by
  have whole := enterWhole (firstWhole major minor ip) (show 1 ≤ _ by rw [firstSlots]) dp dotdot
  have length := slotsWhole whole
  have slots := dottedSlots major minor ip dp
  unfold dotted at *
  omega

theorem dotProper : Proper dot := ⟨by decide, by decide, by decide, by decide⟩

theorem dotdotProper : Proper dotdot := ⟨by decide, by decide, by decide, by decide⟩

include fits fits' in
theorem dottedFolder (pos : dp ≠ 0) : Folder ip (dotted major minor ip dp) := by
  have slots := dottedSlots major minor ip dp
  obtain ⟨self, up⟩ := dottedInum fits fits' major minor
  obtain ⟨one, two⟩ := dottedName major minor ip dp
  have either : ∀ k < 2, k = 0 ∨ k = 1 := fun k less => Nat.le_one_iff_eq_zero_or_eq_one.mp (Nat.le_of_lt_succ less)
  refine ⟨enterWhole (firstWhole major minor ip) (by rw [firstSlots]) dp dotdot, slots.ge, self, one, by rwa [up], two, fun k less j less' _ _ same => ?_, fun k less _ => ?_⟩
  · rw [slots] at less less'
    rcases either k less with rfl | rfl <;> rcases either j less' with rfl | rfl
    · rfl
    · rw [one, two] at same
      exact absurd same (by decide)
    · rw [one, two] at same
      exact absurd same (by decide)
    · rfl
  · rw [slots] at less
    rcases either k less with rfl | rfl
    · rw [one]
      exact dotProper
    · rw [two]
      exact dotdotProper

include fits fits' in
theorem dottedContents (pos : ip ≠ 0) (pos' : dp ≠ 0) :
    contents (dotted major minor ip dp) = update (update (fun _ => none) dotdot (some dp)) dot (some ip) := by
  have slots := dottedSlots major minor ip dp
  obtain ⟨self, up⟩ := dottedInum fits fits' major minor
  obtain ⟨one, two⟩ := dottedName major minor ip dp
  funext n
  refine Option.ext fun j => ?_
  have live : (dotted major minor ip dp).nlink ≠ 0 := show (1 : UInt16) ≠ 0 by decide
  rw [contentsSome (dottedFolder fits fits' pos') live, slots, update_apply, update_apply]
  constructor
  · rintro ⟨k, less, _, rfl, rfl⟩
    rcases Nat.le_one_iff_eq_zero_or_eq_one.mp (Nat.le_of_lt_succ less) with rfl | rfl
    · rw [one, self, if_pos rfl]
    · rw [two, up, if_neg (by decide), if_pos rfl]
  · intro here
    split at here
    · rename_i same
      cases here
      exact ⟨0, by decide, by rwa [self], one.trans same.symm, self⟩
    · split at here
      · rename_i same
        cases here
        exact ⟨1, by decide, by rwa [up], two.trans same.symm, up⟩
      · cases here

end

/-- The entries of a new directory come first. -/
theorem doCreateDots {k : Unit → Calls ρ} (linked : Linked s dp f) (apart : dp ≠ ip) (range : 0 < ip ∧ ip < sb.ninodes) (range' : 0 < dp ∧ dp < sb.ninodes)
    (fits : ip < 2 ^ 16) (here : s ip = some (blank T_DIR major minor))
    (next : Goes sb devsw (k ()) (update (update s dp (some (relinked f (f.nlink + 1)))) ip (some (dotted major minor ip dp))) refs Q) :
    Goes sb devsw (createDots dp f.stat ip >>= k) s refs Q := by
  unfold createDots
  rw [bindAssoc]
  refine doIupdate linked.1 range' ?_
  change Goes sb devsw _ (update s dp (some (relinked f (f.nlink + 1)))) refs Q
  have open' : Open sb (update s dp (some (relinked f (f.nlink + 1)))) ip (blank T_DIR major minor) :=
    ⟨by rw [update_of_ne apart.symm, here], rfl, range, blankWhole .., Nat.zero_le _⟩
  rw [bindAssoc]
  refine doDirlink open' dot (fun _ m place _ _ _ => ?_) fun j found => ?_
  · obtain rfl : m = 0 := by simpa using place
    rw [if_neg (show ¬ (0 : Int) < 0 by decide), bindAssoc]
    have open'' : Open sb (update (update s dp (some (relinked f (f.nlink + 1)))) ip (some ((blank T_DIR major minor).enter 0 ip dot))) ip ((blank T_DIR major minor).enter 0 ip dot) := by
      refine ⟨update_self .., rfl, range, firstWhole major minor ip, ?_⟩
      have length := slotsWhole (firstWhole major minor ip)
      rw [firstSlots] at length
      unfold MAXFILE BSIZE
      omega
    refine doDirlink open'' dotdot (fun _ m place empty _ _ => ?_) fun j found => ?_
    · rw [firstSlots] at place empty
      obtain rfl : m = 1 := by
        by_contra other
        have none := empty (by omega)
        rw [firstInum fits, if_pos (by omega)] at none
        omega
      rw [if_neg (show ¬ (0 : Int) < 0 by decide), update_idem]
      exact next
    · obtain ⟨less, _, name⟩ := lookupSome found
      rw [firstSlots] at less
      obtain rfl : j = 0 := by omega
      rw [firstName] at name
      exact absurd name (by decide)
  · obtain ⟨less, _, _⟩ := lookupSome found
    simp at less

section
variable (mild : Mild sb) (tree : Tree sb s refs) (linked : Linked s dp f) (proper : Proper name) (fresh' : f.lookup name = none) (range : 0 < ip ∧ ip < sb.ninodes)
  (free : s ip = none)

include mild tree linked proper fresh' range free

theorem createFileTree (major minor : UInt16) (leaf : type ≠ T_DIR) {m : Nat} (place : m ≤ f.slots) (empty : m < f.slots → f.inum m = 0) (fits : 16 * (m + 1) ≤ MAXFILE * BSIZE)
    (room : demand sb (both s ip (blank type major minor) dp (f.enter m ip name)) ≤ capacity sb) :
    Tree sb (both s ip (blank type major minor) dp (f.enter m ip name)) refs ∧
      spaceOf (both s ip (blank type major minor) dp (f.enter m ip name)) =
        enter (update (spaceOf s) ip (some (.file type major minor []))) dp (contents f) name ip := by
  have graph := tree.graph
  have range' := graph.range dp f linked.1
  have good : Place f m name := ⟨place, empty, fits, proper, fresh'⟩
  have plain : Leaf s ip := fun h there => by cases free.symm.trans there
  refine ⟨tree.enter mild linked range plain leaf (Nat.zero_le _) ?_ good room, ?_⟩
  · rw [linksNone graph free (Nat.pos_iff_ne_zero.mp range.1)]
    rfl
  · unfold both Sysfile.enter
    rw [spaceUpdate, spaceUpdate, Option.map_some, Option.map_some, nodeDir (f := f.enter m ip name) linked.2.1, nodeFile (f := blank type major minor) leaf,
      contentsEnter (graph.folder dp f linked) linked.2.2 (Nat.pos_iff_ne_zero.mp range'.1) (Nat.lt_of_lt_of_le range.2 mild.ninodes) (Nat.pos_iff_ne_zero.mp range.1) good]
    rfl

theorem createDirTree (major minor : UInt16) {m : Nat} (place : m ≤ f.slots) (empty : m < f.slots → f.inum m = 0) (fits : 16 * (m + 1) ≤ MAXFILE * BSIZE)
    (room : demand sb (both s ip (dotted major minor ip dp) dp ((relinked f (f.nlink + 1)).enter m ip name)) ≤ capacity sb) :
    Tree sb (both s ip (dotted major minor ip dp) dp ((relinked f (f.nlink + 1)).enter m ip name)) refs ∧
      spaceOf (both s ip (dotted major minor ip dp) dp ((relinked f (f.nlink + 1)).enter m ip name)) =
        enter (update (spaceOf s) ip (some (.dir (update (update (fun _ => none) dotdot (some dp)) dot (some ip))))) dp (contents f) name ip := by
  have graph := tree.graph
  have range' := graph.range dp f linked.1
  have good : Place f m name := ⟨place, empty, fits, proper, fresh'⟩
  have short : ip < 2 ^ 16 := Nat.lt_of_lt_of_le range.2 mild.ninodes
  have short' : dp < 2 ^ 16 := Nat.lt_of_lt_of_le range'.2 mild.ninodes
  have pos := Nat.pos_iff_ne_zero.mp range.1
  have pos' := Nat.pos_iff_ne_zero.mp range'.1
  have few := linksFew mild tree.room dp
  rw [← tree.counted dp f linked.1] at few
  obtain ⟨_, some'⟩ := nlinkMore f.nlink few
  have length : (dotted major minor ip dp).bytes.length ≤ MAXFILE * BSIZE := by
    rw [dottedLength]
    decide
  refine ⟨tree.make mild linked range free rfl rfl (dottedFolder short short' pos') (dottedSlots major minor ip dp) (dottedInum short short' major minor).2 length good room, ?_⟩
  have same : contents ((relinked f (f.nlink + 1)).enter m ip name) = contents (f.enter m ip name) := by
    funext n
    unfold contents
    rw [if_neg (show ((relinked f (f.nlink + 1)).enter m ip name).nlink ≠ 0 from some'), if_neg (show (f.enter m ip name).nlink ≠ 0 from linked.2.2)]
    rfl
  unfold both Sysfile.enter
  rw [spaceUpdate, spaceUpdate, Option.map_some, Option.map_some, nodeDir (f := (relinked f (f.nlink + 1)).enter m ip name) linked.2.1,
    nodeDir (f := dotted major minor ip dp) rfl, dottedContents short short' pos pos', same,
    contentsEnter (graph.folder dp f linked) linked.2.2 pos' short pos good]

end

/-- The entry in the parent, and that the parent is given up. -/
theorem doCreateLast {k : Option Nat → Calls ρ} {s' : Nat → Option File} (open' : Open sb s' dp g) (live : g.nlink ≠ 0) (proper : Proper name) (missing : g.lookup name = none)
    (next : ∀ m ≤ g.slots, (m < g.slots → g.inum m = 0) → 16 * (m + 1) ≤ MAXFILE * BSIZE → demand sb (update s' dp (some (g.enter m ip name))) ≤ capacity sb →
      Goes sb devsw (k (some ip)) (update s' dp (some (g.enter m ip name))) (ip :: refs) Q) :
    Goes sb devsw (dirlink dp name ip >>= fun n => (if n < 0 then panic .createDirlink else (do iput dp; return some ip)) >>= k) s' (ip :: dp :: refs) Q := by
  refine doDirlink open' name (fun _ m place empty fits room => ?_) fun j found => ?_
  · rw [if_neg (show ¬ (0 : Int) < 0 by decide), bindAssoc]
    refine doIput open'.range ?_
    rw [releasedLinked (f := g.enter m ip name) (update_self ..) live, eraseSecond]
    exact next m place empty fits room
  · rw [textName proper, missing] at found
    cases found

theorem doCreateNew {k : Option Nat → Calls ρ} (mild : Mild sb) (tree : Tree sb s refs) (linked : Linked s dp f) (proper : Proper name) (missing : f.lookup name = none)
    (known : type ≠ 0)
    (next : ∀ s' i g, (spaceOf s', i) = madeSpace (spaceOf s) dp (contents f) name type major minor → Tree sb s' refs → s' i = some g → g.nlink ≠ 0 → g.type = type →
      Goes sb devsw (k (some i)) s' (i :: refs) Q) :
    Goes sb devsw (createNew dp f.stat name type major minor >>= k) s (dp :: refs) Q := by
  have graph := tree.graph
  have range' := graph.range dp f linked.1
  unfold createNew
  rw [bindAssoc]
  refine doIalloc known fun i pos less free before => ?_
  have apart : dp ≠ i := by
    rintro rfl
    cases free.symm.trans linked.1
  have short : i < 2 ^ 16 := Nat.lt_of_lt_of_le less mild.ninodes
  have first := freshFirst pos free before
  rw [bindAssoc]
  refine doIlock (update_self ..) ⟨pos, less⟩ ?_
  rw [bindAssoc]
  refine doIupdate (update_self ..) ⟨pos, less⟩ ?_
  rw [update_idem]
  change Goes sb devsw _ (update s i (some (blank type major minor))) _ _
  let rest : Calls (Option Nat) := do
    let n ← dirlink dp name i
    if n < 0 then panic .createDirlink
    else do
      iput dp
      return some i
  change Goes sb devsw ((if type = T_DIR then createDots dp f.stat i >>= fun _ => rest else rest) >>= k) _ _ _
  by_cases dir : type = T_DIR
  · rw [if_pos dir, bindAssoc]
    subst dir
    refine doCreateDots (f := f) ⟨by rw [update_of_ne apart]; exact linked.1, linked.2⟩ apart ⟨pos, less⟩ range' short (update_self ..) ?_
    have few := linksFew mild tree.room dp
    rw [← tree.counted dp f linked.1] at few
    obtain ⟨_, live⟩ := nlinkMore f.nlink few
    have same : update (update (update s i (some (blank T_DIR major minor))) dp (some (relinked f (f.nlink + 1)))) i (some (dotted major minor i dp)) =
        update (update s i (some (dotted major minor i dp))) dp (some (relinked f (f.nlink + 1))) := by
      rw [update_comm apart, update_idem]
    rw [same]
    have open' : Open sb (update (update s i (some (dotted major minor i dp))) dp (some (relinked f (f.nlink + 1)))) dp (relinked f (f.nlink + 1)) :=
      ⟨update_self .., linked.2.1, range', (graph.folder dp f linked).whole, graph.short dp f linked.1⟩
    rw [bindAssoc]
    refine doCreateLast open' live proper missing fun m place empty fits room => ?_
    rw [update_idem] at room ⊢
    obtain ⟨tree', space⟩ := createDirTree mild tree linked proper missing ⟨pos, less⟩ free major minor place empty fits room
    refine next _ i (dotted major minor i dp) ?_ tree' ?_ (show (1 : UInt16) ≠ 0 by decide) rfl
    · unfold madeSpace
      rw [first, if_pos rfl]
      exact Prod.ext space rfl
    · rw [update_of_ne apart.symm, update_self]
  · rw [if_neg dir, bindAssoc]
    have open' : Open sb (update s i (some (blank type major minor))) dp f := by
      refine ⟨?_, linked.2.1, range', (graph.folder dp f linked).whole, graph.short dp f linked.1⟩
      rw [update_of_ne apart]
      exact linked.1
    refine doCreateLast open' linked.2.2 proper missing fun m place empty fits room => ?_
    obtain ⟨tree', space⟩ := createFileTree mild tree linked proper missing ⟨pos, less⟩ free major minor dir place empty fits room
    refine next _ i (blank type major minor) ?_ tree' ?_ (show (1 : UInt16) ≠ 0 by decide) rfl
    · unfold madeSpace
      rw [first, if_neg dir]
      exact Prod.ext space rfl
    · rw [update_of_ne apart.symm, update_self]

theorem doCreate {k : Option Nat → Calls ρ} (mild : Mild sb) (tree : Tree sb s refs) (from' : From s cwd path) (known : type ≠ 0)
    (missing : createSpace (spaceOf s) path type major minor cwd = none → Goes sb devsw (k none) s refs Q)
    (made : ∀ s' i g, createSpace (spaceOf s) path type major minor cwd = some (spaceOf s', i) → Tree sb s' refs → s' i = some g → g.nlink ≠ 0 → g.type = type →
      Goes sb devsw (k (some i)) s' (i :: refs) Q) :
    Goes sb devsw (create path type major minor cwd >>= k) s refs Q := by
  have graph := tree.graph
  unfold createSpace at missing made
  unfold create
  rw [bindAssoc]
  refine doNameiparent graph from' (fun none => ?_) fun dp name f leads linked proper => ?_
  · rw [none] at missing
    exact missing rfl
  · have range := graph.range dp f linked.1
    rw [leads] at missing made
    dsimp only at missing made ⊢
    rw [spaceAt linked.1, nodeDir linked.2.1] at missing made
    dsimp only at missing made
    have names : contents f name = (f.lookup name).map f.inum := by
      unfold contents
      rw [if_neg linked.2.2]
    rw [bindAssoc]
    refine doIlock linked.1 range ?_
    rw [bindAssoc]
    refine doDirlookup linked.1 linked.2.1 range (fun absent => ?_) fun j found => ?_
    · rw [textName proper] at absent
      rw [absent] at names
      rw [names] at made
      exact doCreateNew mild tree linked proper absent known fun s' i g space => made s' i g (congrArg some space.symm)
    · rw [textName proper] at found
      rw [found] at names
      obtain ⟨less, some, _⟩ := lookupSome found
      have next := linked.named graph less some
      obtain ⟨g, here, live⟩ := id next
      have range' := next.range graph
      rw [names] at missing made
      dsimp only [Option.map_some] at missing made
      rw [spaceAt here] at missing made
      refine ⟨range', ?_⟩
      rw [bindAssoc]
      refine doIput range ?_
      rw [releasedLinked linked.1 linked.2.2, eraseSecond, bindAssoc]
      refine doIlock here range' ?_
      by_cases both : type = T_FILE ∧ g.type = T_FILE
      · have leaf : g.type ≠ T_DIR := by
          rw [both.2]
          decide
        rw [nodeFile leaf] at made
        rw [if_pos (show type = T_FILE ∧ g.stat.type = T_FILE from both)]
        exact made s (f.inum j) g (if_pos both) tree here live (both.2.trans both.1.symm)
      · rw [if_neg (show ¬ (type = T_FILE ∧ g.stat.type = T_FILE) from both), bindAssoc]
        refine doIput range' ?_
        rw [releasedLinked here live, List.erase_cons_head]
        refine missing ?_
        by_cases dir : g.type = T_DIR
        · rw [nodeDir dir]
        · rw [nodeFile dir]
          exact if_neg both

end OpSys.Sysfile
