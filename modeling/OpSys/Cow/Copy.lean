import OpSys.Cow.AddressSpace
import OpSys.Cow.KernelMap

/-! The two ways to copy an address space. `cowuvm` turns every page of the caller
into a shared one, `copyuvm` gives the copy pages of its own; both give the copy
the bytes of the caller and leave the caller's bytes alone. -/
namespace OpSys.Cow
open OpSys.Xv6 Finset

variable {L : Layout} {k k' : Kmem} {d d' c c' : Pgdir} {v : Nat} {vs : List Nat} {w : Word} {K U : Multiset Nat}

theorem flagsHeld {f : Nat} (fits : f < 2 ^ 20) (user : userOn w = true) :
    pageOf (paddr f ||| pteFlags w ||| pteP) = f ∧ on (paddr f ||| pteFlags w ||| pteP) pteP = true ∧
      on (paddr f ||| pteFlags w ||| pteP) pteU = true ∧
      on (paddr f ||| pteFlags w ||| pteP) pteW = on w pteW := by
  refine ⟨mappedPage fits (pageOfFlags w), mappedP f _, ?_, ?_⟩
  · rw [mappedU fits, onU, flagsBits w (by decide), ← onU]
    exact (Bool.and_eq_true_iff.mp user).2
  · rw [mappedW fits, onW, onW, flagsBits w (by decide)]

theorem clearUser (w : Word) : userOn (w &&& ~~~pteW) = userOn w := by
  unfold userOn
  rw [onP, onU, onP, onU, clearBits w (by decide), clearBits w (by decide)]
  simp

theorem clearOff (w : Word) : on (w &&& ~~~pteW) pteW = false := by
  rw [onW, clearBits w (by decide)]
  simp

theorem sharedWord (present : userOn w = true) (off : on w pteW = false) :
    wordOwned w = 0 ∧ wordShared w = {pageOf w} := by
  unfold wordOwned wordShared
  simp [present, off]

theorem cowWordMoves {x : Word} (present : userOn w = true) (nonzero : pageOf w ≠ 0) (user : userOn x = true)
    (off : on x pteW = false) (page : pageOf x = pageOf w) :
    Moves L k (wordOwned w) (wordShared w) (incPageRef k (pageOf w))
      (wordOwned (w &&& ~~~pteW) + wordOwned x) (wordShared (w &&& ~~~pteW) + wordShared x) := by
  have kept := sharedWord ((clearUser w).trans present) (clearOff w)
  have copied := sharedWord user off
  rw [kept.1, kept.2, copied.1, copied.2, pageOfClear, page, add_zero]
  rcases wordHeld present nonzero with ⟨own, share, _⟩ | ⟨own, share, _⟩
  · rw [own, share]
    exact giveMoves.trans incPageRefMoves
  · rw [own, share]
    exact incPageRefMoves

theorem pairMoves {x y : Word} (low : v < userPages) (empty : userOn (c.pte v) = false)
    (word : Moves L k (wordOwned (d.pte v)) (wordShared (d.pte v)) k'
      (wordOwned x + wordOwned y) (wordShared x + wordShared y)) :
    Moves L k (d.owned + c.owned) (d.shared + c.shared) k'
      ((d.set v x).owned + (c.set v y).owned) ((d.set v x).shared + (c.set v y).shared) := by
  have framed := word.frame (d.ownedBut v + c.ownedBut v) (d.sharedBut v + c.sharedBut v)
  rw [Pgdir.ownedSplit low, Pgdir.sharedSplit low, Pgdir.ownedSplit (d := c) low, Pgdir.sharedSplit (d := c) low,
    (wordOff empty).1, (wordOff empty).2, zero_add, zero_add, Pgdir.ownedSet low, Pgdir.sharedSet low,
    Pgdir.ownedSet low, Pgdir.sharedSet low, add_assoc, add_assoc, add_add_add_comm, add_add_add_comm (wordShared x)]
  exact framed

structure Shares (L : Layout) (k : Kmem) (d c : Pgdir) (k' : Kmem) (d' c' : Pgdir) (vs : List Nat) : Prop where
  moves : Moves L k (d.owned + c.owned) (d.shared + c.shared) k' (d'.owned + c'.owned) (d'.shared + c'.shared)
  parent : d'.Ok
  child : c'.Ok
  page : d'.page = d.page
  pde : d'.pde = d.pde
  cleared : ∀ u, d'.pte u = if u ∈ vs then d.pte u &&& ~~~pteW else d.pte u
  copied : ∀ u ∈ vs, userOn (c'.pte u) = true ∧ pageOf (c'.pte u) = pageOf (d.pte u)
  same : ∀ u, u ∉ vs → c'.pte u = c.pte u
  flushed : c'.stale = c.stale
  mem : k'.mem = k.mem
  free : k'.freelist = k.freelist
  oom : k'.oom = k.oom

theorem Shares.present (h : Shares L k d c k' d' c' vs) (v : Nat) : on (d'.pte v) pteP = on (d.pte v) pteP := by
  rw [h.cleared v]
  split
  · rw [onP, onP, clearBits _ (by decide)]
    simp
  · rfl

theorem Shares.twin (h : Shares L k d c k' d' c' vs) (mem : v ∈ vs) (user : userOn (d.pte v) = true) :
    userOn (d'.pte v) = true ∧ on (d'.pte v) pteW = false ∧ userOn (c'.pte v) = true ∧ pageOf (c'.pte v) = pageOf (d'.pte v) := by
  rw [h.cleared v, if_pos mem, clearUser, clearOff, pageOfClear]
  exact ⟨user, rfl, h.copied v mem⟩

theorem Shares.cons {x : Word} (small : v < userPages) (user : userOn (d.pte v) = true) (none : on (c.pte v) pteP = false) (out : v ∉ vs)
    (nonzero : pageOf (d.pte v) ≠ 0) (held : userOn x = true ∧ on x pteW = false ∧ pageOf x = pageOf (d.pte v))
    (rest : Shares L (incPageRef k (pageOf (d.pte v))) (d.set v (d.pte v &&& ~~~pteW)) (c.set v x) k' d' c' vs) :
    Shares L k d c k' d' c' (v :: vs) := by
  obtain ⟨xUser, off, page⟩ := held
  have word := cowWordMoves (L := L) (k := k) user nonzero xUser off page
  have others : ∀ u ∈ vs, u ≠ v := fun u mem same => out (same ▸ mem)
  refine ⟨(pairMoves small (notUser none) word).trans rest.moves, rest.parent, rest.child, rest.page,
    rest.pde, fun u => ?_, fun u mem => ?_, fun u away => ?_, rest.flushed.trans ?_, rest.mem, rest.free, rest.oom⟩
  · rw [rest.cleared u]
    by_cases again : u ∈ vs
    · rw [Pgdir.setOther (others u again)]
      simp [again]
    · by_cases same : u = v
      · subst u
        simp [again]
      · rw [Pgdir.setOther same]
        simp [again, same]
  · by_cases again : u ∈ vs
    · have copied := rest.copied u again
      rwa [Pgdir.setOther (others u again)] at copied
    · have same : u = v := (List.mem_cons.mp mem).resolve_right again
      subst u
      rw [rest.same v again, Pgdir.setSelf]
      exact ⟨xUser, page⟩
  · obtain ⟨other, tail⟩ := not_or.mp (mt List.mem_cons.mpr away)
    rw [rest.same u tail, Pgdir.setOther other]
  · simp [Pgdir.set, none]

theorem cowLoop (low : ∀ v ∈ vs, v < userPages) (nodup : vs.Nodup) (good : d.Ok) (fresh : c.Ok)
    (present : ∀ v ∈ vs, on (d.pte v) pteP = true) (empty : ∀ v ∈ vs, on (c.pte v) pteP = false) :
    ∃ k' d' c', cowPages vs k d c = .ok (k', d', c', true) ∧ Shares L k d c k' d' c' vs := by
  induction vs generalizing k d c with
  | nil =>
    exact ⟨k, d, c, rfl, .refl k _ _, good, fresh, rfl, rfl, fun u => by simp, by simp, fun _ _ => rfl, rfl, rfl,
      rfl, rfl⟩
  | cons v rest ih =>
    have small := low v (by simp)
    have here := present v (by simp)
    have user := good.toSane.userOn small here
    have nonzero := good.nonzero v small user
    have none := empty v (by simp)
    obtain ⟨out, nodup⟩ := List.nodup_cons.mp nodup
    have split := flagsHeld (pageOfLt (d.pte v)) ((clearUser (d.pte v)).trans user)
    rw [clearOff] at split
    generalize copy : paddr (pageOf (d.pte v)) ||| pteFlags (d.pte v &&& ~~~pteW) ||| pteP = x at split
    have xUser : userOn x = true := by simp [userOn, split.2.1, split.2.2.1]
    have clearP : userOn (d.pte v &&& ~~~pteW) = true := (clearUser _).trans user
    have good' : (d.set v (d.pte v &&& ~~~pteW)).Ok := good.set small
      (fun _ => (Bool.and_eq_true_iff.mp clearP).2) (fun _ => by rw [pageOfClear]; exact nonzero)
    have fresh' : (c.set v x).Ok := fresh.set small (fun _ => split.2.2.1) (fun _ => by rw [split.1]; exact nonzero)
    have others : ∀ u ∈ rest, u ≠ v := fun u mem same => out (same ▸ mem)
    obtain ⟨k', d', c', runs, tail⟩ := ih (k := incPageRef k (pageOf (d.pte v))) (fun u mem => low u (by simp [mem])) nodup
      good' fresh'
      (fun u mem => by rw [Pgdir.setOther (others u mem)]; exact present u (by simp [mem]))
      (fun u mem => by rw [Pgdir.setOther (others u mem)]; exact empty u (by simp [mem]))
    refine ⟨k', d', c', ?_, .cons small user none out nonzero ⟨xUser, split.2.2.2, split.1⟩ tail⟩
    rw [cowPages, walkUser good.toSane small]
    dsimp only
    rw [if_pos here, Pgdir.setSelf, mapUser fresh.toSane small none, copy]
    exact runs

theorem cowPresent {r} (low : ∀ v ∈ vs, v < userPages) (nodup : vs.Nodup) (good : d.Ok) (fresh : c.Ok)
    (empty : ∀ v ∈ vs, on (c.pte v) pteP = false) (ok : cowPages vs k d c = .ok r) :
    ∀ v ∈ vs, on (d.pte v) pteP = true := by
  induction vs generalizing k d c with
  | nil => simp
  | cons v rest ih =>
    have small := low v (by simp)
    have none := empty v (by simp)
    obtain ⟨out, nodup⟩ := List.nodup_cons.mp nodup
    have others : ∀ u ∈ rest, u ≠ v := fun u mem same => out (same ▸ mem)
    rw [cowPages, walkUser good.toSane small] at ok
    dsimp only at ok
    split at ok
    · rename_i here
      have user := good.toSane.userOn small here
      have nonzero := good.nonzero v small user
      have split := flagsHeld (pageOfLt (d.pte v)) ((clearUser _).trans user)
      rw [Pgdir.setSelf, mapUser fresh.toSane small none, okBind] at ok
      dsimp only at ok
      rw [if_pos rfl] at ok
      have rest' := ih (fun u mem => low u (by simp [mem])) nodup
        (good.set small (fun _ => (Bool.and_eq_true_iff.mp ((clearUser _).trans user)).2)
          (fun _ => by rw [pageOfClear]; exact nonzero))
        (fresh.set small (fun _ => split.2.2.1) (fun _ => by rw [split.1]; exact nonzero))
        (fun u mem => by rw [Pgdir.setOther (others u mem)]; exact empty u (by simp [mem])) ok
      intro u mem
      rcases List.mem_cons.mp mem with same | later
      · rw [same]
        exact here
      · have there := rest' u later
        rwa [Pgdir.setOther (others u later)] at there
    · cases ok

/-! ### `copyuvm` -/

theorem mapOwnedMoves {f : Nat} (user : userOn w = true) (page : pageOf w = f) (nonzero : f ≠ 0) :
    Moves L k {f} 0 k (wordOwned w) (wordShared w) := by
  subst f
  rcases wordHeld user nonzero with ⟨own, share, _⟩ | ⟨own, share, _⟩
  · rw [own, share]
    exact .refl k _ _
  · rw [own, share]
    exact giveMoves

def copyWord (f : Nat) (w : Word) : Word := paddr f ||| pteFlags w ||| pteP

theorem copyWordSpec {f : Nat} (inside : f ∈ L.pool) (user : userOn w = true) :
    pageOf (copyWord f w) = f ∧ on (copyWord f w) pteU = true ∧ userOn (copyWord f w) = true ∧
      on (copyWord f w) pteW = on w pteW := by
  obtain ⟨page, present, u, writable⟩ := flagsHeld (poolFits inside) user
  exact ⟨page, u, Bool.and_eq_true_iff.mpr ⟨present, u⟩, writable⟩

structure Duplicates (L : Layout) (k : Kmem) (d c : Pgdir) (k' : Kmem) (c' : Pgdir) (vs : List Nat) : Prop where
  alters : Alters L k c k' c'
  fresh : ∀ u ∈ vs, ∃ f ∈ L.pool, c'.pte u = copyWord f (d.pte u)
  same : ∀ u, u ∉ vs → c'.pte u = c.pte u
  flushed : c'.stale = c.stale

theorem Duplicates.child (h : Duplicates L k d c k' c' vs) (low : ∀ v ∈ vs, v < userPages) (good : d.Ok)
    (present : ∀ v ∈ vs, on (d.pte v) pteP = true) (fresh : c.Ok) : c'.Ok := by
  refine ⟨h.alters.sane, fun u small shown => ?_⟩
  by_cases mem : u ∈ vs
  · obtain ⟨f, inside, word⟩ := h.fresh u mem
    rw [word, (copyWordSpec inside (good.toSane.userOn (low u mem) (present u mem))).1]
    exact poolPos inside
  · rw [h.same u mem] at shown ⊢
    exact fresh.nonzero u small shown

theorem copyMoves {f : Nat} (none : on (c.pte v) pteP = false) (user : userOn (d.pte v) = true) (inside : f ∈ L.pool)
    (taken : kalloc k = (some f, k')) :
    Moves L k (wordOwned (c.pte v)) (wordShared (c.pte v)) (k'.write f (k'.mem (pageOf (d.pte v))))
      (wordOwned (copyWord f (d.pte v))) (wordShared (copyWord f (d.pte v))) := by
  obtain ⟨page, _, shown, _⟩ := copyWordSpec inside user
  rw [(wordOff (notUser none)).1, (wordOff (notUser none)).2]
  exact (kallocMoves taken).trans ((writeMoves _).trans (mapOwnedMoves shown page (poolPos inside)))

/-- One round of the loop: page `v` of the parent goes to the free page `f`. -/
theorem copyPage {f : Nat} (small : v < userPages) (fresh : c.Ok) (none : on (c.pte v) pteP = false)
    (user : userOn (d.pte v) = true) (inside : f ∈ L.pool) (taken : kalloc k = (some f, k')) :
    Alters L k c (k'.write f (k'.mem (pageOf (d.pte v)))) (c.set v (copyWord f (d.pte v))) ∧
      (c.set v (copyWord f (d.pte v))).Ok := by
  obtain ⟨page, u, _, _⟩ := copyWordSpec inside user
  refine ⟨.set fresh.toSane small (copyMoves none user inside taken) (fun _ => u) (absentNot (mappedP f _)),
    fresh.set small (fun _ => u) fun _ => ?_⟩
  rw [page]
  exact poolPos inside

theorem copyView {f : Nat} (small : v < userPages) (fresh : c.Ok) (none : on (c.pte v) pteP = false)
    (user : userOn (d.pte v) = true) (inside : f ∈ L.pool) (taken : kalloc k = (some f, k'))
    (before : Accounts L k (c.owned + K) (c.shared + U)) (u : Nat) :
    view (k'.write f (k'.mem (pageOf (d.pte v)))) (c.set v (copyWord f (d.pte v))) u =
      if u = v then view k d u else view k c u := by
  obtain ⟨page, _, shown, _⟩ := copyWordSpec inside user
  split
  · rename_i same
    subst u
    rw [viewSome small (by rwa [Pgdir.setSelf]), Pgdir.setSelf, page, viewSome small user, ← kallocMem taken]
    simp [Kmem.write]
  · rename_i other
    exact viewSet fresh small (copyMoves none user inside taken) before other

theorem Duplicates.cons {mid : Kmem} {f : Nat} (first : Alters L k c mid (c.set v (copyWord f (d.pte v)))) (inside : f ∈ L.pool)
    (none : on (c.pte v) pteP = false) (out : v ∉ vs) (rest : Duplicates L mid d (c.set v (copyWord f (d.pte v))) k' c' vs) :
    Duplicates L k d c k' c' (v :: vs) := by
  refine ⟨first.trans rest.alters, fun u mem => ?_, fun u away => ?_, ?_⟩
  · by_cases tail : u ∈ vs
    · exact rest.fresh u tail
    · have same : u = v := (List.mem_cons.mp mem).resolve_right tail
      subst u
      exact ⟨f, inside, by rw [rest.same v out, Pgdir.setSelf]⟩
  · obtain ⟨other, tail⟩ := not_or.mp (mt List.mem_cons.mpr away)
    rw [rest.same u tail, Pgdir.setOther other]
  · rw [rest.flushed]
    simp [Pgdir.set, none]

theorem copyLoop {b : Bool} (low : ∀ v ∈ vs, v < userPages) (nodup : vs.Nodup) (good : d.Ok) (fresh : c.Ok)
    (empty : ∀ v ∈ vs, on (c.pte v) pteP = false)
    (before : Accounts L k (c.owned + (d.owned + K)) (c.shared + (d.shared + U)))
    (ok : copyPages vs k d c = .ok (k', c', b)) :
    ∃ done rest, vs = done ++ rest ∧ b = rest.isEmpty ∧ (∀ v ∈ done, on (d.pte v) pteP = true) ∧
      Duplicates L k d c k' c' done ∧ (rest ≠ [] → k'.oom = true) ∧
      ∀ u, view k' c' u = if u ∈ done then view k d u else view k c u := by
  induction vs generalizing k c with
  | nil =>
    cases ok
    exact ⟨[], [], rfl, rfl, by simp, ⟨.refl fresh.toSane, by simp, fun _ _ => rfl, rfl⟩, by simp, by simp⟩
  | cons v later ih =>
    have small := low v (by simp)
    have none := empty v (by simp)
    obtain ⟨out, nodup⟩ := List.nodup_cons.mp nodup
    rw [copyPages, walkUser good.toSane small] at ok
    dsimp only at ok
    split at ok
    swap
    · cases ok
    rename_i here
    have user := good.toSane.userOn small here
    cases taken : kalloc k with
    | mk o mid =>
    rw [taken] at ok
    cases o with
    | none =>
      cases ok
      refine ⟨[], v :: later, rfl, rfl, by simp,
        ⟨⟨kallocShort taken _ _, fresh.toSane, rfl, rfl, fun _ _ => rfl, id⟩, by simp, fun _ _ => rfl, rfl⟩, fun _ => ?_, fun u => ?_⟩
      · rw [(kallocNone taken).2]
      · simp only [view, kallocMem taken]; rfl
    | some f =>
      dsimp only at ok
      rw [mapUser fresh.toSane small none, okBind] at ok
      dsimp only at ok
      rw [if_pos rfl] at ok
      have inside : f ∈ L.pool := before.freeIn (a := f) (by
        change f ∈ k.freelist
        rw [(kallocSome taken).1]
        simp)
      obtain ⟨first, fresh'⟩ := copyPage small fresh none user inside taken
      obtain ⟨done, rest, split, flag, present, dup, short, seen⟩ :=
        ih (fun u mem => low u (by simp [mem])) nodup fresh'
          (fun u mem => by rw [Pgdir.setOther (by rintro rfl; exact out mem)]; exact empty u (by simp [mem]))
          (first.moves.accounts before) ok
      have notDone : v ∉ done := fun mem => out (by rw [split]; simp [mem])
      refine ⟨v :: done, rest, by simp [split], flag, ?_, .cons first inside none notDone dup, short, fun u => ?_⟩
      · intro u mem
        rcases List.mem_cons.mp mem with same | tail
        · rw [same]
          exact here
        · exact present u tail
      · rw [seen u, copyView small fresh none user inside taken before]
        by_cases tail : u ∈ done
        · rw [if_pos tail, if_pos (List.mem_cons_of_mem v tail)]
          -- the caller's pages are not the one just taken
          rw [viewKept good fun g held => first.moves.kept before (by
            rw [Multiset.mem_add, Multiset.mem_add]
            exact held.imp .inl .inl)]
        · simp [tail]

theorem copyRuns (low : ∀ v ∈ vs, v < userPages) (nodup : vs.Nodup) (sane : d.Sane) (fresh : c.Sane)
    (present : ∀ v ∈ vs, on (d.pte v) pteP = true) (empty : ∀ v ∈ vs, on (c.pte v) pteP = false)
    (inside : ∀ f ∈ k.freelist, f ∈ L.pool) : ∃ k' c' b, copyPages vs k d c = .ok (k', c', b) ∧
      (vs.length ≤ k.freelist.length → b = true ∧ k'.oom = k.oom ∧ k'.freelist.length + vs.length = k.freelist.length) := by
  induction vs generalizing k c with
  | nil => exact ⟨k, c, true, rfl, fun _ => ⟨rfl, rfl, rfl⟩⟩
  | cons v later ih =>
    have small := low v (by simp)
    have none := empty v (by simp)
    obtain ⟨out, nodup⟩ := List.nodup_cons.mp nodup
    rw [copyPages, walkUser sane small]
    dsimp only
    rw [if_pos (present v (by simp))]
    cases taken : kalloc k with
    | mk o mid =>
    cases o with
    | none =>
      refine ⟨mid, c, false, rfl, fun room => ?_⟩
      rw [(kallocNone taken).1] at room
      cases room
    | some f =>
      dsimp only
      rw [mapUser fresh small none, okBind]
      dsimp only
      rw [if_pos rfl]
      obtain ⟨free, same⟩ := kallocSome taken
      have user := copyWordSpec (inside f (by rw [free]; simp)) (sane.userOn small (present v (by simp)))
      obtain ⟨k', c', b, runs, count⟩ := ih (k := mid.write f (mid.mem (pageOf (d.pte v)))) (fun u mem => low u (by simp [mem])) nodup
        (fresh.set (w := copyWord f (d.pte v)) small (fun _ => user.2.1)) (fun u mem => present u (by simp [mem]))
        (fun u mem => by
          rw [Pgdir.setOther (by rintro rfl; exact out mem)]
          exact empty u (by simp [mem]))
        (fun g mem => inside g (by rw [free]; exact List.mem_cons_of_mem f mem))
      have oom : mid.oom = k.oom := by rw [same]
      refine ⟨k', c', b, runs, fun room => ?_⟩
      rw [free, List.length_cons, List.length_cons] at room
      obtain ⟨done, fine, left⟩ := count (Nat.le_of_succ_le_succ room)
      refine ⟨done, fine.trans oom, ?_⟩
      rw [free, List.length_cons, List.length_cons, ← Nat.add_assoc]
      exact congrArg Nat.succ left

/-! ### What `fork` relies on -/

structure Copied (L : Layout) (k : Kmem) (d : Pgdir) (sz : Nat) (k' : Kmem) (d' c : Pgdir) : Prop where
  moves : Moves L k d.owned d.shared k' (d'.owned + c.owned) (d'.shared + c.shared)
  parent : d'.Ok
  child : c.Ok
  present : ∀ v < userPages, on (d'.pte v) pteP = on (d.pte v) pteP
  full : ∀ v, v * pgSize < sz → on (d.pte v) pteP = true
  copied : ∀ v < userPages, on (c.pte v) pteP = decide (v * pgSize < sz)
  seen : view k' d' = view k d
  copy : ∀ v, view k' c v = if v * pgSize < sz then view k d v else none
  blankParent : d.Blank → d'.Blank
  blankChild : c.Blank

structure Uncopied (L : Layout) (k : Kmem) (d : Pgdir) (k' : Kmem) (d' : Pgdir) : Prop where
  same : d' = d
  moves : ∃ lost, Moves L k 0 0 k' lost 0
  oom : k'.oom = true

def CopyResult (L : Layout) (k : Kmem) (d : Pgdir) (sz : Nat) (k' : Kmem) (d' : Pgdir) : Option Pgdir → Prop
  | some c => Copied L k d sz k' d' c
  | none => Uncopied L k d k' d'

abbrev Copier := Layout → Kmem → Pgdir → Nat → Except Stop (Kmem × Pgdir × Option Pgdir)

variable {sz : Nat} {r : Option Pgdir}

theorem memBelow : v ∈ pagesIn 0 sz ↔ v * pgSize < sz := by
  rw [memPagesIn (by decide)]
  simp

theorem noUserAbsent (h : KernelTable c) : ∀ v ∈ pagesIn 0 sz, v < userPages → on (c.pte v) pteP = false := by
  intro v _ small
  rw [h.noUser v small]
  exact bareAbsent

theorem kernelView (h : KernelTable c) (v : Nat) : view k c v = none := by
  unfold view
  by_cases low : v < userPages
  · rw [h.noUser v low, wordZero]
    simp
  · simp [low]

theorem copyuvmSpec (top : sz ≤ userTop) (good : d.Ok) (before : Accounts L k (d.owned + K) (d.shared + U))
    (ok : copyuvm L k d sz = .ok (k', d', r)) : CopyResult L k d sz k' d' r := by
  have low : ∀ v ∈ pagesIn 0 sz, v < userPages := pagesInLow 0 top
  unfold copyuvm at ok
  rcases setupkvmSpec L k with ⟨k₁, c, run, moves, table, mem, _⟩ | ⟨k₁, lost, run, moves, _, oom, _, _⟩
  · rw [run, okBind] at ok
    obtain ⟨⟨k₂, c', b⟩, loop, ok⟩ := bindOk ok
    have mid := moves.accounts (K := d.owned + K) (U := d.shared + U) (by rwa [zero_add, zero_add])
    obtain ⟨done, rest, split, flag, present, dup, short, seen⟩ := copyLoop low (pagesInNodup _ _) good table.good
      (fun v mem => noUserAbsent table v mem (low v mem)) mid loop
    have all := moves.trans dup.alters.moves
    cases b with
    | false =>
      obtain ⟨k₃, freed, last⟩ := bindOk ok
      cases last
      have empty : rest ≠ [] := by
        rintro rfl
        cases flag
      have gone := freevmMoves dup.alters.sane freed
      exact ⟨rfl, ⟨0, all.trans gone⟩, gone.short (short empty)⟩
    | true =>
      cases ok
      have none : rest = [] := by simpa using flag.symm
      rw [none, List.append_nil] at split
      subst split
      have kept : view k' d = view k d := viewKept good fun f held => all.kept (K := d.owned + K) (U := d.shared + U)
        (by rwa [zero_add, zero_add]) (by
          rw [Multiset.mem_add, Multiset.mem_add]
          exact held.imp .inl .inl)
      refine ⟨?_, good, dup.child low good present table.good, fun _ _ => rfl, fun v small => present v (memBelow.mpr small),
        fun v small => ?_, kept, fun v => ?_, id, dup.alters.blank table.blank⟩
      · have framed := all.frameLeft d.owned d.shared
        rwa [add_zero, add_zero] at framed
      · by_cases mem : v ∈ pagesIn 0 sz
        · obtain ⟨f, inside, word⟩ := dup.fresh v mem
          rw [word, copyWord, mappedP]
          exact (decide_eq_true (memBelow.mp mem)).symm
        · rw [dup.same v mem, table.noUser v small, bareAbsent]
          exact (decide_eq_false (fun bad => mem (memBelow.mpr bad))).symm
      · rw [seen v, kernelView table]
        simp only [memBelow, viewKept good fun f _ => congrFun mem f]
  · rw [run, okBind] at ok
    cases ok
    exact ⟨rfl, ⟨lost, moves⟩, oom⟩

theorem Shares.seen (h : Shares L k d c k' d' c' vs) : view k' d' = view k d := by
  funext u
  unfold view
  rw [h.cleared u, h.mem]
  by_cases mem : u ∈ vs
  · rw [if_pos mem, clearUser, pageOfClear]
  · rw [if_neg mem]

theorem Shares.copy (h : Shares L k d c k' d' c' vs) (low : ∀ v ∈ vs, v < userPages)
    (user : ∀ v ∈ vs, userOn (d.pte v) = true) (u : Nat) :
    view k' c' u = if u ∈ vs then view k d u else view k c u := by
  by_cases mem : u ∈ vs
  · obtain ⟨shown, page⟩ := h.copied u mem
    rw [if_pos mem, viewSome (low u mem) shown, viewSome (low u mem) (user u mem), page, h.mem]
  · unfold view
    rw [if_neg mem, h.same u mem, h.mem]

theorem Shares.blankParent (h : Shares L k d c k' d' c' vs) (blank : d.Blank) : (lcr3 d').Blank := by
  intro u small absent
  rw [Pgdir.lcr3Pte, h.cleared u] at absent ⊢
  split at absent
  · rename_i mem
    rw [if_pos mem]
    rw [onP, clearBits _ (by decide)] at absent
    rw [blank u small (by simpa using absent)]
    rfl
  · rename_i away
    rw [if_neg away]
    exact blank u small absent

theorem Shares.blankChild (h : Shares L k d c k' d' c' vs) (blank : c.Blank) : c'.Blank := by
  intro u small absent
  by_cases mem : u ∈ vs
  · rw [(Bool.and_eq_true_iff.mp (h.copied u mem).1).1] at absent
    cases absent
  · rw [h.same u mem] at absent ⊢
    exact blank u small absent

theorem cowuvmCases (top : sz ≤ userTop) (good : d.Ok) (ok : cowuvm L k d sz = .ok (k', d', r)) :
    (∃ k₁ c d₂ c', Moves L k 0 0 k₁ c.owned c.shared ∧ KernelTable c ∧ k₁.mem = k.mem ∧ Ample k k₁ ∧
      (∀ v, v * pgSize < sz → on (d.pte v) pteP = true) ∧ Shares L k₁ d c k' d₂ c' (pagesIn 0 sz) ∧
      d' = lcr3 d₂ ∧ r = some c') ∨
    (setupkvm L k = .ok (k', none) ∧ d' = d ∧ r = none) := by
  have low : ∀ v ∈ pagesIn 0 sz, v < userPages := pagesInLow 0 top
  unfold cowuvm at ok
  rcases setupkvmSpec L k with ⟨k₁, c, run, moves, table, mem, ample⟩ | ⟨k₁, lost, run, _⟩
  · rw [run, okBind] at ok
    dsimp only at ok
    have empty : ∀ v ∈ pagesIn 0 sz, on (c.pte v) pteP = false := fun v mem => noUserAbsent table v mem (low v mem)
    obtain ⟨made, loop, _⟩ := bindOk ok
    have full := cowPresent low (pagesInNodup _ _) good table.good empty loop
    obtain ⟨k₂, d₂, c', runs, shares⟩ := cowLoop (L := L) (k := k₁) low (pagesInNodup _ _) good table.good full empty
    rw [runs, okBind] at ok
    cases ok
    exact .inl ⟨k₁, c, d₂, c', moves, table, mem, ample, fun v small => full v (memBelow.mpr small), shares, rfl, rfl⟩
  · rw [run, okBind] at ok
    cases ok
    exact .inr ⟨run, rfl, rfl⟩

theorem cowuvmSpec (top : sz ≤ userTop) (good : d.Ok) (ok : cowuvm L k d sz = .ok (k', d', r)) :
    CopyResult L k d sz k' d' r := by
  have low : ∀ v ∈ pagesIn 0 sz, v < userPages := pagesInLow 0 top
  rcases cowuvmCases top good ok with ⟨k₁, c, d₂, c', moves, table, mem, _, full, shares, rfl, rfl⟩ | ⟨run, rfl, rfl⟩
  · have bytes : view k₁ d = view k d := viewKept good fun f _ => congrFun mem f
    refine ⟨?_, shares.parent.lcr3, shares.child, fun v small => ?_, full, fun v small => ?_, ?_, fun v => ?_,
      shares.blankParent, shares.blankChild table.blank⟩
    · have framed := moves.frameLeft d.owned d.shared
      rw [add_zero, add_zero] at framed
      rw [Pgdir.lcr3Owned, Pgdir.lcr3Shared]
      exact framed.trans shares.moves
    · rw [Pgdir.lcr3Pte, shares.present v]
    · by_cases mem : v ∈ pagesIn 0 sz
      · rw [(Bool.and_eq_true_iff.mp (shares.copied v mem).1).1]
        exact (decide_eq_true (memBelow.mp mem)).symm
      · rw [shares.same v mem, table.noUser v small, bareAbsent]
        exact (decide_eq_false (fun bad => mem (memBelow.mpr bad))).symm
    · rw [viewLcr3, shares.seen, bytes]
    · rw [shares.copy low (fun u mem => good.toSane.userOn (low u mem) (full u (memBelow.mp mem))), kernelView table]
      simp only [memBelow, bytes]
  · rcases setupkvmSpec L k with ⟨k₁, c, run', _⟩ | ⟨k₁, lost, run', moves, _, oom, _, _⟩
    · cases run.symm.trans run'
    · cases run.symm.trans run'
      exact ⟨rfl, ⟨lost, moves⟩, oom⟩

theorem cowuvmFlushed (top : sz ≤ userTop) (good : d.Ok) (ok : cowuvm L k d sz = .ok (k', d', some c)) :
    d'.stale = [] ∧ c.stale = [] := by
  rcases cowuvmCases top good ok with ⟨k₁, c₀, d₂, c', _, table, _, _, _, shares, rfl, made⟩ | ⟨_, _, none⟩
  · cases made
    exact ⟨rfl, shares.flushed.trans table.flushed⟩
  · cases none

def SamePages (d e : Pgdir) : Prop :=
  ∀ v, userOn (e.pte v) = true → userOn (d.pte v) = true ∧ pageOf (e.pte v) = pageOf (d.pte v)

theorem cowuvmPages (top : sz ≤ userTop) (good : d.Ok) (ok : cowuvm L k d sz = .ok (k', d', some c)) :
    SamePages d d' ∧ SamePages d c := by
  rcases cowuvmCases top good ok with ⟨k₁, c₀, d₂, c', _, table, _, _, full, shares, rfl, made⟩ | ⟨_, _, none⟩
  · cases made
    constructor
    · intro v user
      rw [Pgdir.lcr3Pte, shares.cleared v] at user ⊢
      split at user
      · rename_i mem
        rw [if_pos mem, pageOfClear]
        exact ⟨by rwa [clearUser] at user, rfl⟩
      · rename_i away
        rw [if_neg away]
        exact ⟨user, rfl⟩
    · intro v user
      by_cases mem : v ∈ pagesIn 0 sz
      · exact ⟨good.toSane.userOn (pagesInLow 0 top v mem) (full v (memBelow.mp mem)), (shares.copied v mem).2⟩
      · have low := userLow shares.child.toSane user
        rw [shares.same v mem, table.noUser v low, wordZero] at user
        cases user
  · cases none

theorem cowuvmRuns (top : sz ≤ userTop) (good : d.Ok) (full : ∀ v, v * pgSize < sz → on (d.pte v) pteP = true) :
    ∃ k' d' r, cowuvm L k d sz = .ok (k', d', r) := by
  have low : ∀ v ∈ pagesIn 0 sz, v < userPages := pagesInLow 0 top
  unfold cowuvm
  rcases setupkvmSpec L k with ⟨k₁, c, run, _, table, _⟩ | ⟨k₁, lost, run, _⟩
  · obtain ⟨k₂, d₂, c', runs, _⟩ := cowLoop (L := L) (k := k₁) low (pagesInNodup _ _) good table.good
      (fun v mem => full v (memBelow.mp mem)) (fun v mem => noUserAbsent table v mem (low v mem))
    rw [run, okBind]
    dsimp only
    rw [runs]
    exact ⟨k₂, lcr3 d₂, some c', rfl⟩
  · rw [run]
    exact ⟨k₁, d, none, rfl⟩

theorem copyuvmRuns (top : sz ≤ userTop) (good : d.Ok) (full : ∀ v, v * pgSize < sz → on (d.pte v) pteP = true)
    (before : Accounts L k (d.owned + K) (d.shared + U)) : ∃ k' d' r, copyuvm L k d sz = .ok (k', d', r) := by
  have low : ∀ v ∈ pagesIn 0 sz, v < userPages := pagesInLow 0 top
  unfold copyuvm
  rcases setupkvmSpec L k with ⟨k₁, c, run, moves, table, _⟩ | ⟨k₁, lost, run, _⟩
  · have mid := moves.accounts (K := d.owned + K) (U := d.shared + U) (by rwa [zero_add, zero_add])
    have empty : ∀ v ∈ pagesIn 0 sz, on (c.pte v) pteP = false := fun v mem => noUserAbsent table v mem (low v mem)
    obtain ⟨k₂, c', b, runs, _⟩ := copyRuns (k := k₁) low (pagesInNodup _ _) good.toSane table.good.toSane
      (fun v mem => full v (memBelow.mp mem)) empty (fun f mem => mid.freeIn mem)
    obtain ⟨done, rest, split, _, present, dup, _, _⟩ := copyLoop low (pagesInNodup _ _) good table.good empty mid runs
    rw [run, okBind]
    dsimp only
    rw [runs, okBind]
    cases b with
    | true => exact ⟨k₂, d, some c', rfl⟩
    | false =>
      have part : ∀ v ∈ done, v < userPages := fun v mem => low v (by rw [split]; simp [mem])
      obtain ⟨k₃, freed⟩ := freevmRuns (dup.child part good present table.good) (dup.alters.moves.accounts mid)
      dsimp only
      rw [if_neg (by decide), freed]
      exact ⟨k₃, d, none, rfl⟩
  · rw [run]
    exact ⟨k₁, d, none, rfl⟩

def Copies (copy : Copier) : Prop := ∀ {L : Layout} {k k' : Kmem} {d d' : Pgdir} {sz : Nat} {r : Option Pgdir}
  {K U : Multiset Nat}, sz ≤ userTop → d.Ok → Accounts L k (d.owned + K) (d.shared + U) →
    copy L k d sz = .ok (k', d', r) → CopyResult L k d sz k' d' r

theorem cowCopies : Copies cowuvm := fun top good _ ok => cowuvmSpec top good ok

def Returns (copy : Copier) : Prop := ∀ {L : Layout} {k : Kmem} {d : Pgdir} {sz : Nat} {K U : Multiset Nat},
  sz ≤ userTop → d.Ok → (∀ v, v * pgSize < sz → on (d.pte v) pteP = true) →
    Accounts L k (d.owned + K) (d.shared + U) → ∃ k' d' r, copy L k d sz = .ok (k', d', r)

theorem cowReturns : Returns cowuvm := fun top good full _ => cowuvmRuns top good full

theorem eagerReturns : Returns copyuvm := fun top good full before => copyuvmRuns top good full before

theorem eagerCopies : Copies copyuvm := fun top good before ok => copyuvmSpec top good before ok

end OpSys.Cow
