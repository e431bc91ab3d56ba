import OpSys.Cow.Holdings

/-! `deallocuvm`, `freevm` and `allocuvm`: what each does to the words of a page
table, to the pages held and to what user mode sees. -/
namespace OpSys.Cow
open OpSys.Xv6 Finset

variable {L : Layout} {k k' : Kmem} {d d' : Pgdir} {v : Nat} {vs : List Nat} {w : Word} {K U : Multiset Nat}

theorem memHeld (low : v < userPages) (present : userOn (d.pte v) = true) (nonzero : pageOf (d.pte v) ≠ 0) :
    pageOf (d.pte v) ∈ d.owned ∨ pageOf (d.pte v) ∈ d.shared := by
  rw [Pgdir.ownedSplit low, Pgdir.sharedSplit low, Multiset.mem_add, Multiset.mem_add]
  rcases wordHeld present nonzero with ⟨own, _, _⟩ | ⟨_, share, _⟩
  · exact .inl (.inl (own ▸ Multiset.mem_singleton_self _))
  · exact .inr (.inl (share ▸ Multiset.mem_singleton_self _))

theorem viewKept (good : d.Ok) (kept : ∀ f, f ∈ d.owned ∨ f ∈ d.shared → k'.mem f = k.mem f) : view k' d = view k d := by
  funext v
  unfold view
  split
  · rename_i shown
    rw [kept _ (memHeld shown.1 shown.2 (good.nonzero v shown.1 shown.2))]
  · rfl

theorem frameIn (ok : d.Ok) (low : v < userPages) (present : userOn (d.pte v) = true)
    (before : Accounts L k (d.owned + K) (d.shared + U)) : pageOf (d.pte v) ∈ L.pool := by
  rcases memHeld low present (ok.nonzero v low present) with own | share
  · have held : pageOf (d.pte v) ∈ d.owned + K := Multiset.mem_add.mpr (.inl own)
    exact before.ownedIn held
  · have held : pageOf (d.pte v) ∈ d.shared + U := Multiset.mem_add.mpr (.inl share)
    exact before.sharedIn held

/-! ### `deallocuvm` -/

theorem freeWordMoves (present : userOn w = true) (nonzero : pageOf w ≠ 0) (ok : kfree L k (pageOf w) = .ok k') :
    Moves L k (wordOwned w) (wordShared w) k' (wordOwned 0) (wordShared 0) := by
  rw [(wordOff wordZero).1, (wordOff wordZero).2]
  rcases wordHeld present nonzero with ⟨own, share, _⟩ | ⟨own, share, _⟩
  · rw [own, share]
    exact kfreeOwned ok
  · rw [own, share]
    exact kfreeShared ok

theorem deallocPageCases (sane : d.Sane) (low : v < userPages) (ok : deallocPage L (k, d) v = .ok (k', d')) :
    on (d.pte v) pteP = false ∧ k' = k ∧ d' = d ∨
    on (d.pte v) pteP = true ∧ pageOf (d.pte v) ≠ 0 ∧ kfree L k (pageOf (d.pte v)) = .ok k' ∧ d' = d.set v 0 := by
  unfold deallocPage at ok
  dsimp only at ok
  rw [walkUser sane low] at ok
  dsimp only at ok
  split at ok
  · rename_i present
    split at ok
    · cases ok
    · rename_i nonzero
      obtain ⟨mid, freed, last⟩ := bindOk ok
      cases last
      exact .inr ⟨present, nonzero, freed, rfl⟩
  · rename_i absent
    cases ok
    exact .inl ⟨by simpa using absent, rfl, rfl⟩

theorem deallocPageAlters (sane : d.Sane) (low : v < userPages) (ok : deallocPage L (k, d) v = .ok (k', d')) :
    Alters L k d k' d' ∧ (∀ u, u ≠ v → d'.pte u = d.pte u) ∧ on (d'.pte v) pteP = false := by
  rcases deallocPageCases sane low ok with ⟨absent, rfl, rfl⟩ | ⟨present, nonzero, freed, rfl⟩
  · exact ⟨.refl sane, fun _ _ => rfl, absent⟩
  · refine ⟨.set sane low (freeWordMoves (sane.userOn low present) nonzero freed) (fun bad => by simp at bad) (fun _ => rfl),
      fun u other => Pgdir.setOther other, ?_⟩
    rw [Pgdir.setSelf]
    decide

structure Shrinks (L : Layout) (k : Kmem) (d : Pgdir) (k' : Kmem) (d' : Pgdir) (vs : List Nat) : Prop where
  alters : Alters L k d k' d'
  same : ∀ u, u ∉ vs → d'.pte u = d.pte u
  gone : ∀ u ∈ vs, on (d'.pte u) pteP = false
  idle : (∀ u ∈ vs, on (d.pte u) pteP = false) → d' = d
  older : ∀ x ∈ d.stale, x ∈ d'.stale
  logged : ∀ u ∈ vs, on (d.pte u) pteP = true → (u, d.pte u) ∈ d'.stale

theorem deallocPageShrinks (sane : d.Sane) (low : v < userPages) (ok : deallocPage L (k, d) v = .ok (k', d')) :
    Shrinks L k d k' d' [v] := by
  obtain ⟨alters, same, gone⟩ := deallocPageAlters sane low ok
  rcases deallocPageCases sane low ok with ⟨absent, _, rfl⟩ | ⟨present, _, _, rfl⟩
  · refine ⟨alters, fun _ _ => rfl, by simpa using gone, fun _ => rfl, fun _ => id, fun u mem present => ?_⟩
    rw [List.mem_singleton.mp mem, absent] at present
    cases present
  · have stale : (d.set v 0).stale = (v, d.pte v) :: d.stale := if_pos present
    refine ⟨alters, by simpa using same, by simp, fun absent => ?_, fun x old => ?_, fun u mem _ => ?_⟩
    · rw [absent v (by simp)] at present
      cases present
    · rw [stale]
      exact List.mem_cons_of_mem _ old
    · rw [stale, List.mem_singleton.mp mem]
      exact List.mem_cons_self

theorem clearedOk (sane : d'.Sane) (same : ∀ u, u ∉ vs → d'.pte u = d.pte u) (gone : ∀ u ∈ vs, on (d'.pte u) pteP = false)
    (ok : d.Ok) : d'.Ok := by
  refine ⟨sane, fun u low present => ?_⟩
  by_cases mem : u ∈ vs
  · rw [notUser (gone u mem)] at present
    cases present
  · rw [same u mem] at present ⊢
    exact ok.nonzero u low present

theorem Shrinks.ok (h : Shrinks L k d k' d' vs) (ok : d.Ok) : d'.Ok := clearedOk h.alters.sane h.same h.gone ok

theorem deallocLoop (low : ∀ v ∈ vs, v < userPages) (sane : d.Sane)
    (ok : vs.foldlM (deallocPage L) (k, d) = .ok (k', d')) : Shrinks L k d k' d' vs := by
  induction vs generalizing k d with
  | nil =>
    cases ok
    exact ⟨.refl sane, fun _ _ => rfl, by simp, fun _ => rfl, fun _ => id, by simp⟩
  | cons v rest ih =>
    rw [List.foldlM_cons] at ok
    obtain ⟨⟨kmid, dmid⟩, first, later⟩ := bindOk ok
    have here := deallocPageShrinks sane (low v (by simp)) first
    have tail := ih (fun u mem => low u (by simp [mem])) here.alters.sane later
    refine ⟨here.alters.trans tail.alters, fun u absent => ?_, fun u mem => ?_, fun absent => ?_,
      fun x old => tail.older x (here.older x old), fun u mem present => ?_⟩
    · have parts : u ≠ v ∧ u ∉ rest := by simpa using absent
      rw [tail.same u parts.2, here.same u (by simpa using parts.1)]
    · by_cases again : u ∈ rest
      · exact tail.gone u again
      · have first : u = v := by simpa [again] using mem
        subst u
        rw [tail.same v again]
        exact here.gone v (by simp)
    · have same := here.idle fun u mem => absent u (by rw [List.mem_singleton.mp mem]; simp)
      rw [same] at tail
      exact tail.idle fun u mem => absent u (by simp [mem])
    · by_cases same : u = v
      · subst u
        exact tail.older _ (here.logged v (by simp) present)
      · have word := here.same u (by simpa using same)
        have logged := tail.logged u (by simpa [same] using mem) (by rwa [word])
        rwa [word] at logged

theorem deallocView (low : ∀ v ∈ vs, v < userPages) (good : d.Ok) (before : Accounts L k (d.owned + K) (d.shared + U))
    (ok : vs.foldlM (deallocPage L) (k, d) = .ok (k', d')) (u : Nat) :
    view k' d' u = if u ∈ vs then none else view k d u := by
  induction vs generalizing k d with
  | nil =>
    cases ok
    simp
  | cons v rest ih =>
    rw [List.foldlM_cons] at ok
    obtain ⟨⟨kmid, dmid⟩, first, later⟩ := bindOk ok
    have here := deallocPageAlters good.toSane (low v (by simp)) first
    have mid := deallocPageShrinks good.toSane (low v (by simp)) first
    rw [ih (fun u mem => low u (by simp [mem])) (mid.ok good) (here.1.moves.accounts before) later]
    by_cases again : u ∈ rest
    · simp [again]
    · by_cases same : u = v
      · subst u
        simp [again, viewNone (notUser here.2.2)]
      · simp only [again, List.mem_cons, same, or_self, if_false]
        rcases deallocPageCases good.toSane (low v (by simp)) first with ⟨_, rfl, rfl⟩ | ⟨present, nonzero, freed, rfl⟩
        · rfl
        · exact viewSet good (low v (by simp))
            (freeWordMoves (good.toSane.userOn (low v (by simp)) present) nonzero freed) before same

theorem deallocRuns (low : ∀ v ∈ vs, v < userPages) (good : d.Ok)
    (before : Accounts L k (d.owned + K) (d.shared + U)) : ∃ k' d', vs.foldlM (deallocPage L) (k, d) = .ok (k', d') := by
  induction vs generalizing k d with
  | nil => exact ⟨k, d, rfl⟩
  | cons v rest ih =>
    have small := low v (by simp)
    have round : ∃ kmid dmid, deallocPage L (k, d) v = .ok (kmid, dmid) := by
      unfold deallocPage
      dsimp only
      rw [walkUser good.toSane small]
      dsimp only
      split
      · rename_i present
        have user := good.toSane.userOn small present
        obtain ⟨mid, freed⟩ := kfreeOk (k := k) (frameIn good small user before)
        rw [if_neg (good.nonzero v small user), freed]
        exact ⟨mid, _, rfl⟩
      · exact ⟨k, d, rfl⟩
    obtain ⟨kmid, dmid, first⟩ := round
    have here := deallocPageAlters good.toSane small first
    have mid := deallocPageShrinks good.toSane small first
    obtain ⟨k', d', later⟩ := ih (fun u mem => low u (by simp [mem])) (mid.ok good) (here.1.moves.accounts before)
    refine ⟨k', d', ?_⟩
    rw [List.foldlM_cons, first]
    exact later

theorem pagesInLow {hi : Nat} (lo : Nat) (top : hi ≤ userTop) : ∀ v ∈ pagesIn lo hi, v < userPages := by
  intro v mem
  simp only [pagesIn, List.mem_range'_1, pgSize, userTop, userPages] at *
  omega

theorem memPagesIn {lo hi v : Nat} (aligned : lo % pgSize = 0) : v ∈ pagesIn lo hi ↔ lo ≤ v * pgSize ∧ v * pgSize < hi := by
  simp only [pagesIn, List.mem_range'_1, pgSize] at *
  omega

theorem pgRoundUpAligned (sz : Nat) : pgRoundUp sz % pgSize = 0 := by
  unfold pgRoundUp pgSize
  omega

theorem pgRoundUpBelow {sz : Nat} (top : sz ≤ userTop) : pgRoundUp sz = (sz + pgSize - 1) / pgSize * pgSize := by
  unfold pgRoundUp pgSize userTop at *
  rw [Nat.mod_eq_of_lt (by omega)]

theorem deallocuvmCases {oldsz newsz r : Nat} (ok : deallocuvm L k d oldsz newsz = .ok (k', d', r)) :
    oldsz ≤ newsz ∧ k' = k ∧ d' = d ∧ r = oldsz ∨
    newsz < oldsz ∧ r = newsz ∧ (pagesIn (pgRoundUp newsz) oldsz).foldlM (deallocPage L) (k, d) = .ok (k', d') := by
  unfold deallocuvm at ok
  split at ok
  · rename_i none
    cases ok
    exact .inl ⟨none, rfl, rfl, rfl⟩
  · rename_i some
    obtain ⟨⟨kmid, dmid⟩, loop, last⟩ := bindOk ok
    cases last
    exact .inr ⟨by omega, rfl, loop⟩

def dropped (oldsz newsz : Nat) : List Nat := if oldsz ≤ newsz then [] else pagesIn (pgRoundUp newsz) oldsz

theorem deallocuvmLoop {oldsz newsz r : Nat} (ok : deallocuvm L k d oldsz newsz = .ok (k', d', r)) :
    (dropped oldsz newsz).foldlM (deallocPage L) (k, d) = .ok (k', d') ∧ r = min oldsz newsz := by
  unfold dropped
  rcases deallocuvmCases ok with ⟨none, rfl, rfl, rfl⟩ | ⟨some, rfl, loop⟩
  · rw [if_pos none]
    exact ⟨rfl, by omega⟩
  · rw [if_neg (by omega)]
    exact ⟨loop, by omega⟩

theorem droppedLow {oldsz newsz : Nat} (top : oldsz ≤ userTop) : ∀ v ∈ dropped oldsz newsz, v < userPages := by
  unfold dropped
  split
  · simp
  · exact pagesInLow _ top

theorem deallocuvmShrinks {oldsz newsz r : Nat} (top : oldsz ≤ userTop) (sane : d.Sane)
    (ok : deallocuvm L k d oldsz newsz = .ok (k', d', r)) : Shrinks L k d k' d' (dropped oldsz newsz) :=
  deallocLoop (droppedLow top) sane (deallocuvmLoop ok).1

theorem deallocuvmRuns {oldsz : Nat} (newsz : Nat) (top : oldsz ≤ userTop) (good : d.Ok)
    (before : Accounts L k (d.owned + K) (d.shared + U)) :
    ∃ k' d', deallocuvm L k d oldsz newsz = .ok (k', d', min oldsz newsz) := by
  unfold deallocuvm
  split
  · exact ⟨k, d, by rw [Nat.min_eq_left (by assumption)]⟩
  · obtain ⟨k', d', loop⟩ := deallocRuns (pagesInLow (pgRoundUp newsz) top) good before
    rw [loop, Nat.min_eq_right (by omega)]
    exact ⟨k', d', rfl⟩

/-! ### `freevm` -/

theorem freeTablesMoves {pde : Nat → Option Nat} {is : List Nat} (ok : is.foldlM (freeTables L pde) k = .ok k') :
    Moves L k (is.map fun i => tablePage (pde i)).sum 0 k' 0 0 := by
  induction is generalizing k with
  | nil =>
    cases ok
    exact .refl _ _ _
  | cons i rest ih =>
    rw [List.foldlM_cons] at ok
    obtain ⟨mid, first, later⟩ := bindOk ok
    rw [List.map_cons, List.sum_cons]
    have here : Moves L k (tablePage (pde i)) 0 mid 0 0 := by
      unfold freeTables at first
      cases present : pde i with
      | none =>
        rw [present] at first
        cases first
        exact .refl k _ _
      | some f =>
        rw [present] at first
        exact kfreeOwned first
    have framed := here.frame (rest.map fun i => tablePage (pde i)).sum 0
    rw [add_zero, zero_add] at framed
    exact framed.trans (ih later)

theorem tablesList (d : Pgdir) : d.tables = {d.page} + ((List.range npdEntries).map fun i => tablePage (d.pde i)).sum := by
  unfold Pgdir.tables
  rw [← Multiset.sum_coe, ← Multiset.map_coe]
  rfl

theorem droppedAll {v : Nat} : v ∈ dropped userTop 0 ↔ v < userPages := by
  have bounds : ¬ userTop ≤ 0 := by decide
  unfold dropped
  rw [if_neg bounds, memPagesIn (pgRoundUpAligned 0)]
  simp only [pgRoundUp, pgSize, userTop, userPages]
  omega

theorem freevmMoves (sane : d.Sane) (ok : freevm L k (some d) = .ok k') : Moves L k d.owned d.shared k' 0 0 := by
  unfold freevm at ok
  obtain ⟨⟨kmid, dmid, r⟩, users, ok⟩ := bindOk ok
  obtain ⟨klast, tables, last⟩ := bindOk ok
  have shrunk := deallocuvmShrinks (by decide) sane users
  have empty := emptyHeld (fun v low => shrunk.gone v (droppedAll.mpr low))
  have first := shrunk.alters.moves
  rw [empty.1, empty.2, tablesList] at first
  have middle := (freeTablesMoves tables).frameLeft {dmid.page} 0
  rw [add_zero, add_zero] at middle
  exact first.trans (middle.trans (kfreeOwned last))

theorem freeTablesRuns (pde : Nat → Option Nat) (is : List Nat)
    (inside : ∀ i ∈ is, ∀ f, pde i = some f → f ∈ L.pool) : ∃ k', is.foldlM (freeTables L pde) k = .ok k' := by
  induction is generalizing k with
  | nil => exact ⟨k, rfl⟩
  | cons i rest ih =>
    have round : ∃ mid, freeTables L pde k i = .ok mid := by
      unfold freeTables
      cases present : pde i with
      | none => exact ⟨k, rfl⟩
      | some f => exact kfreeOk (inside i (by simp) f present)
    obtain ⟨mid, first⟩ := round
    obtain ⟨k', later⟩ := ih (k := mid) (fun j mem => inside j (by simp [mem]))
    refine ⟨k', ?_⟩
    rw [List.foldlM_cons, first]
    exact later

theorem pageIn (before : Accounts L k (d.owned + K) (d.shared + U)) : d.page ∈ L.pool := by
  apply before.ownedIn
  unfold Pgdir.owned Pgdir.tables
  simp only [Multiset.mem_add, Multiset.mem_singleton, true_or]

theorem tableIn (before : Accounts L k (d.owned + K) (d.shared + U)) {i f : Nat} (low : i < npdEntries)
    (present : d.pde i = some f) : f ∈ L.pool := by
  apply before.ownedIn
  unfold Pgdir.owned Pgdir.tables
  simp only [Multiset.mem_add, Multiset.mem_sum]
  exact .inl (.inl (.inr ⟨i, mem_range.mpr low, by rw [present]; exact Multiset.mem_singleton_self f⟩))

theorem freevmRuns (good : d.Ok) (before : Accounts L k (d.owned + K) (d.shared + U)) :
    ∃ k', freevm L k (some d) = .ok k' := by
  obtain ⟨kmid, dmid, users⟩ := deallocuvmRuns 0 (le_refl userTop) good before
  have shrunk := deallocuvmShrinks (le_refl _) good.toSane users
  obtain ⟨klast, tables⟩ := freeTablesRuns (L := L) (k := kmid) dmid.pde (List.range npdEntries)
    (fun i mem f present => tableIn before (List.mem_range.mp mem) (by rw [← shrunk.alters.pde]; exact present))
  obtain ⟨k', last⟩ := kfreeOk (k := klast) (pageIn before)
  refine ⟨k', ?_⟩
  unfold freevm
  dsimp only
  rw [users, okBind]
  dsimp only
  rw [tables, okBind, shrunk.alters.page]
  exact last

/-! ### `allocuvm` -/

def userWord (f : Nat) : Word := paddr f ||| (pteW ||| pteU) ||| pteP

variable {f : Nat}

theorem userWordPage (fits : f < 2 ^ 20) : pageOf (userWord f) = f := mappedPage fits (by decide)
theorem userWordP (f : Nat) : on (userWord f) pteP = true := mappedP f _
theorem userWordW (fits : f < 2 ^ 20) : on (userWord f) pteW = true := (mappedW fits).trans (by decide)
theorem userWordU (fits : f < 2 ^ 20) : on (userWord f) pteU = true := (mappedU fits).trans (by decide)

theorem userWordOn (fits : f < 2 ^ 20) : userOn (userWord f) = true := by
  unfold userOn
  rw [userWordP, userWordU fits]
  rfl

theorem absentNot {x : Word} (present : on x pteP = true) : on x pteP = false → x = 0 := fun absent => by
  rw [present] at absent
  cases absent

theorem userWordHeld (mem : f ∈ L.pool) : wordOwned (userWord f) = {f} ∧ wordShared (userWord f) = 0 := by
  have fits := poolFits mem
  unfold wordOwned wordShared
  rw [userWordOn fits, userWordW fits, userWordPage fits]
  simp [poolPos mem]

structure Grows (L : Layout) (k : Kmem) (d : Pgdir) (k' : Kmem) (d' : Pgdir) (vs : List Nat) : Prop where
  alters : Alters L k d k' d'
  same : ∀ u, u ∉ vs → d'.pte u = d.pte u
  fresh : ∀ u ∈ vs, ∃ f ∈ L.pool, d'.pte u = userWord f
  taken : k.freelist.length = vs.length + k'.freelist.length
  ample : Ample k k'
  stale : d'.stale = d.stale

theorem Grows.ok (h : Grows L k d k' d' vs) (ok : d.Ok) : d'.Ok := by
  refine ⟨h.alters.sane, fun u low present => ?_⟩
  by_cases mem : u ∈ vs
  · obtain ⟨f, inside, word⟩ := h.fresh u mem
    rw [word, userWordPage (poolFits inside)]
    exact poolPos inside
  · rw [h.same u mem] at present ⊢
    exact ok.nonzero u low present

theorem allocPageMoves (absent : on (d.pte v) pteP = false) (inside : f ∈ L.pool) (taken : kalloc k = (some f, k')) (c : Content) :
    Moves L k (wordOwned (d.pte v)) (wordShared (d.pte v)) (k'.write f c) (wordOwned (userWord f)) (wordShared (userWord f)) := by
  rw [(wordOff (notUser absent)).1, (wordOff (notUser absent)).2, (userWordHeld inside).1, (userWordHeld inside).2]
  exact (kallocMoves taken).trans (writeMoves c)

theorem Grows.cons {mid : Kmem} (first : Alters L k d (mid.write f zeroPage) (d.set v (userWord f))) (inside : f ∈ L.pool)
    (taken : kalloc k = (some f, mid)) (absent : on (d.pte v) pteP = false) (out : v ∉ vs)
    (rest : Grows L (mid.write f zeroPage) (d.set v (userWord f)) k' d' vs) : Grows L k d k' d' (v :: vs) := by
  have left : Ample k mid := kallocAmple taken
  refine ⟨first.trans rest.alters, fun u away => ?_, fun u mem => ?_, ?_, left.trans fun more => rest.ample more,
    rest.stale.trans (by simp [Pgdir.set, absent])⟩
  · obtain ⟨other, tail⟩ := not_or.mp (mt List.mem_cons.mpr away)
    rw [rest.same u tail, Pgdir.setOther other]
  · by_cases tail : u ∈ vs
    · exact rest.fresh u tail
    · have same : u = v := (List.mem_cons.mp mem).resolve_right tail
      subst u
      exact ⟨f, inside, by rw [rest.same v out, Pgdir.setSelf]⟩
  · have count := congrArg List.length (kallocSome taken).1
    have later := rest.taken
    simp only [Kmem.write, List.length_cons] at later count ⊢
    omega

theorem allocView (good : d.Ok) (small : v < userPages) (absent : on (d.pte v) pteP = false) (inside : f ∈ L.pool)
    (taken : kalloc k = (some f, k')) (before : Accounts L k (d.owned + K) (d.shared + U)) (u : Nat) :
    view (k'.write f zeroPage) (d.set v (userWord f)) u = if u = v then some zeroPage else view k d u := by
  split
  · rename_i same
    subst u
    have present := userWordOn (poolFits inside)
    rw [viewSome small (by rwa [Pgdir.setSelf]), Pgdir.setSelf, userWordPage (poolFits inside)]
    simp [Kmem.write]
  · rename_i other
    exact viewSet good small (allocPageMoves absent inside taken zeroPage) before other

theorem allocLoop (low : ∀ v ∈ vs, v < userPages) (nodup : vs.Nodup) (absent : ∀ v ∈ vs, on (d.pte v) pteP = false)
    (sane : d.Sane) (before : Accounts L k (d.owned + K) (d.shared + U)) :
    ∃ done rest k' d', vs = done ++ rest ∧ allocPages vs k d = .ok (k', d', rest.isEmpty) ∧ Grows L k d k' d' done ∧
      (rest ≠ [] → k'.freelist = [] ∧ k'.oom = true) ∧
      (d.Ok → ∀ u, view k' d' u = if u ∈ done then some zeroPage else view k d u) := by
  induction vs generalizing k d with
  | nil => exact ⟨[], [], k, d, rfl, rfl, ⟨.refl sane, fun _ _ => rfl, by simp, by simp, .refl k, rfl⟩, by simp, by simp⟩
  | cons v later ih =>
    have small := low v (by simp)
    have free := absent v (by simp)
    obtain ⟨fresh, nodup⟩ := List.nodup_cons.mp nodup
    cases taken : kalloc k with
    | mk o mid =>
    cases o with
    | none =>
      refine ⟨[], v :: later, mid, d, rfl, by rw [allocPages, taken]; rfl,
        ⟨⟨kallocShort taken _ _, sane, rfl, rfl, fun _ _ => rfl, id⟩, fun _ _ => rfl, by simp, ?_, kallocAmple taken, rfl⟩, fun _ => ?_, fun _ u => ?_⟩
      · rw [(kallocNone taken).2]; simp
      · rw [(kallocNone taken).2]; exact ⟨(kallocNone taken).1, rfl⟩
      · simp only [view, kallocMem taken]; rfl
    | some f =>
      have inside : f ∈ L.pool := before.freeIn (a := f) (by
        change f ∈ k.freelist
        rw [(kallocSome taken).1]
        simp)
      have here : Alters L k d (mid.write f zeroPage) (d.set v (userWord f)) :=
        .set sane small (allocPageMoves free inside taken zeroPage) (fun _ => userWordU (poolFits inside)) (absentNot (userWordP f))
      obtain ⟨done, rest, k', d', split, runs, grows, short, seen⟩ :=
        ih (fun u mem => low u (by simp [mem])) nodup
          (fun u mem => by rw [Pgdir.setOther (by rintro rfl; exact fresh mem)]; exact absent u (by simp [mem]))
          here.sane (here.moves.accounts before)
      have notDone : v ∉ done := fun mem => fresh (by rw [split]; simp [mem])
      refine ⟨v :: done, rest, k', d', by simp [split], ?_, .cons here inside taken free notDone grows, short, fun good u => ?_⟩
      · rw [allocPages, taken]
        dsimp only
        rw [mapUser sane small free]
        exact runs
      · have mid' : (d.set v (userWord f)).Ok := good.set small (fun _ => userWordU (poolFits inside))
          (fun _ => by rw [userWordPage (poolFits inside)]; exact poolPos inside)
        rw [seen mid' u, allocView good small free inside taken before]
        by_cases tail : u ∈ done <;> simp [tail]

theorem pagesInNodup (lo hi : Nat) : (pagesIn lo hi).Nodup := List.nodup_range'

def Above (d : Pgdir) (sz : Nat) : Prop := ∀ v < userPages, sz ≤ v * pgSize → on (d.pte v) pteP = false

theorem pgRoundUpLe {sz : Nat} (top : sz ≤ userTop) : pgRoundUp sz ≤ v * pgSize ↔ sz ≤ v * pgSize := by
  rw [pgRoundUpBelow top]
  unfold pgSize
  omega

def wanted (oldsz newsz : Nat) : List Nat := pagesIn (pgRoundUp oldsz) newsz

theorem memWanted {oldsz newsz : Nat} : v ∈ wanted oldsz newsz ↔ pgRoundUp oldsz ≤ v * pgSize ∧ v * pgSize < newsz :=
  memPagesIn (pgRoundUpAligned oldsz)

structure Undone (L : Layout) (k : Kmem) (d : Pgdir) (k' : Kmem) (d' : Pgdir) (vs : List Nat) : Prop where
  alters : Alters L k d k' d'
  same : ∀ u, u ∉ vs → d'.pte u = d.pte u
  gone : ∀ u ∈ vs, on (d'.pte u) pteP = false
  oom : k'.oom = true
  short : k.freelist.length < vs.length
  seen : d.Ok → view k' d' = view k d
  idle : k.freelist = [] → d'.stale = d.stale

theorem Undone.ok (h : Undone L k d k' d' vs) (ok : d.Ok) : d'.Ok := clearedOk h.alters.sane h.same h.gone ok

inductive Allocated (L : Layout) (k : Kmem) (d : Pgdir) (oldsz newsz : Nat) : Kmem → Pgdir → Nat → Prop where
  | refused (top : userTop < newsz) : Allocated L k d oldsz newsz k d 0
  | smaller (top : newsz ≤ userTop) (less : newsz < oldsz) : Allocated L k d oldsz newsz k d oldsz
  | grown {k₁ d₁} (top : newsz ≤ userTop) (more : oldsz ≤ newsz) (grows : Grows L k d k₁ d₁ (wanted oldsz newsz))
      (seen : d.Ok → ∀ u, view k₁ d₁ u = if u ∈ wanted oldsz newsz then some zeroPage else view k d u) :
      Allocated L k d oldsz newsz k₁ d₁ newsz
  | undone {k₁ d₁} (top : newsz ≤ userTop) (more : oldsz ≤ newsz) (undone : Undone L k d k₁ d₁ (wanted oldsz newsz)) :
      Allocated L k d oldsz newsz k₁ d₁ 0

theorem allocuvmSpec {oldsz : Nat} (newsz : Nat) (good : d.Ok) (above : Above d oldsz)
    (before : Accounts L k (d.owned + K) (d.shared + U)) :
    ∃ k' d' r, allocuvm L k d oldsz newsz = .ok (k', d', r) ∧ Allocated L k d oldsz newsz k' d' r := by
  unfold allocuvm
  by_cases top : userTop < newsz
  · exact ⟨k, d, 0, by rw [if_pos top], .refused top⟩
  rw [if_neg top]
  by_cases less : newsz < oldsz
  · exact ⟨k, d, oldsz, by rw [if_pos less], .smaller (by omega) less⟩
  rw [if_neg less]
  have low : ∀ v ∈ wanted oldsz newsz, v < userPages := pagesInLow _ (by omega)
  have absent : ∀ v ∈ wanted oldsz newsz, on (d.pte v) pteP = false := fun v mem =>
    above v (low v mem) ((pgRoundUpLe (by omega)).mp (memWanted.mp mem).1)
  obtain ⟨done, rest, k₁, d₁, split, runs, grows, short, seen⟩ :=
    allocLoop low (pagesInNodup _ _) absent good.toSane before
  have listed : pagesIn (pgRoundUp oldsz) newsz = wanted oldsz newsz := rfl
  rw [listed, runs, okBind]
  cases rest with
  | nil =>
    rw [List.append_nil] at split
    subst split
    exact ⟨k₁, d₁, newsz, rfl, .grown (by omega) (by omega) grows seen⟩
  | cons v rest =>
    have good₁ := grows.ok good
    have mid := grows.alters.moves.accounts before
    obtain ⟨k', d', runs'⟩ := deallocuvmRuns oldsz (by omega : newsz ≤ userTop) good₁ mid
    have some : oldsz < newsz := by
      by_contra none
      have inside : v ∈ wanted oldsz newsz := by rw [split]; simp
      have bounds := memWanted.mp inside
      rw [pgRoundUpLe (by omega)] at bounds
      omega
    have drops : dropped newsz oldsz = wanted oldsz newsz := by
      unfold dropped
      rw [if_neg (by omega)]
      rfl
    have shrinks := deallocuvmShrinks (by omega) grows.alters.sane runs'
    have views := deallocView (by rw [drops]; exact low) good₁ mid (deallocuvmLoop runs').1
    rw [drops] at shrinks views
    have part : ∀ u, u ∉ wanted oldsz newsz → u ∉ done := fun u out mem => out (by rw [split]; simp [mem])
    have all := grows.alters.trans shrinks.alters
    refine ⟨k', d', 0, ?_, .undone (by omega) (by omega) ⟨all, fun u out => ?_, shrinks.gone, ?_, ?_, fun _ => ?_,
      fun empty => ?_⟩⟩
    · simp only [List.isEmpty_cons, Bool.false_eq_true, if_false]
      rw [runs', okBind]
      rfl
    · rw [shrinks.same u out, grows.same u (part u out)]
    · exact shrinks.alters.moves.short (short (by simp)).2
    · rw [grows.taken, (short (by simp)).1, split]
      simp
    · funext u
      rw [views u, seen good u]
      by_cases mem : u ∈ wanted oldsz newsz
      · rw [if_pos mem, viewNone (notUser (absent u mem))]
      · rw [if_neg mem, if_neg (part u mem)]
    · have taken := grows.taken
      rw [empty, List.length_nil] at taken
      have none : done = [] := List.length_eq_zero_iff.mp (by omega)
      rw [shrinks.idle fun u mem => by rw [grows.same u (by rw [none]; simp)]; exact absent u mem]
      exact grows.stale

theorem allocuvmCases {oldsz newsz r : Nat} (good : d.Ok) (above : Above d oldsz)
    (before : Accounts L k (d.owned + K) (d.shared + U)) (ok : allocuvm L k d oldsz newsz = .ok (k', d', r)) :
    Allocated L k d oldsz newsz k' d' r := by
  obtain ⟨k₁, d₁, r₁, runs, spec⟩ := allocuvmSpec newsz good above before
  cases ok.symm.trans runs
  exact spec

end OpSys.Cow
