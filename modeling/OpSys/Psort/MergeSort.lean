import OpSys.Lib.Interleave
import OpSys.Lib.StableSort
import OpSys.Psort.Main

/-! `mergeSort` on one array: where the array stands in memory makes no difference, and
what stands between `l` and `r` is sorted in the end, by a stable sort. -/
namespace OpSys.Psort
open OpSys.Interleave OpSys.StableSort Function

abbrev sorted (xs : List KeyValuePair) : List KeyValuePair := sort KeyValuePair.key xs

variable {heap : Heap} {arr : Nat} {b : Block} {work work' rest : List Work} {x : KeyValuePair} {pre post gap : Block} {k l m r : Int}

/-! ### One step -/

def stepIn (b : Block) (work : List Work) : Except Stop (Block × List Work) := do
  let (heap, work) ← step (fun _ => b) 0 work
  return (heap 0, work)

def next (s : Block × List Work) : Option (Block × List Work) := (stepIn s.1 s.2).toOption

theorem loadIn : load heap arr k = load (fun _ => heap arr) 0 k := rfl

theorem storeIn : store heap arr k x = (store (fun _ => heap arr) 0 k x).map fun mid => update heap arr (mid 0) := by
  unfold store
  dsimp only
  split
  · simp only [Except.map, update_self]
  · rfl

theorem stepFrame (heap : Heap) (arr : Nat) (work : List Work) :
    step heap arr work = (stepIn (heap arr) work).map fun s => (update heap arr s.1, s.2) := by
  let inside (r : Except Stop (Heap × List Work)) : Except Stop (Heap × List Work) :=
    (do let s ← r; return (s.1 0, s.2) : Except Stop (Block × List Work)).map fun s => (update heap arr s.1, s.2)
  have stays : ∀ work, .ok (heap, work) = inside (.ok (fun _ => heap arr, work)) := fun work =>
    congrArg (fun heap => Except.ok (heap, work)) (update_eq_self arr heap).symm
  have reads : ∀ (k : Int) (work : KeyValuePair → List Work), (do let x ← load heap arr k; return (heap, work x)) =
      inside (do let x ← load (fun _ => heap arr) 0 k; return (fun _ => heap arr, work x)) := fun k work => by
    rw [loadIn]
    cases load (fun _ => heap arr) 0 k with
    | error e => rfl
    | ok x => exact stays (work x)
  have writes : ∀ (k : Int) (x : KeyValuePair) (work : List Work), (do let heap ← store heap arr k x; return (heap, work)) =
      inside (do let mid ← store (fun _ => heap arr) 0 k x; return (mid, work)) := fun k x work => by
    rw [storeIn]
    cases store (fun _ => heap arr) 0 k x with
    | error e => rfl
    | ok mid => rfl
  change step heap arr work = inside (step (fun _ => heap arr) 0 work)
  cases work with
  | nil => rfl
  | cons w rest =>
    cases w with
    | mergeSort l r =>
      simp only [step]
      split
      · exact stays _
      · exact stays _
    | copyL l m r L =>
      simp only [step]
      split
      · exact reads _ _
      · exact stays _
    | copyR l m r L R =>
      simp only [step]
      split
      · exact reads _ _
      · exact stays _
    | mergeBack k L R =>
      cases L with
      | nil =>
        cases R with
        | nil => exact stays _
        | cons b R => exact writes k b _
      | cons a L =>
        cases R with
        | nil => exact writes k a _
        | cons b R =>
          simp only [step]
          split
          · exact writes k a _
          · exact writes k b _

theorem nextOk {b' : Block} (ok : stepIn b work = .ok (b', work')) : next (b, work) = some (b', work') := by
  unfold next
  rw [ok]
  rfl

theorem nextIdle : next (b, []) = none := rfl

/-! ### Cells -/

theorem loadAt (here : heap arr = pre ++ some x :: post) : load heap arr pre.length = .ok x := by
  unfold load
  rw [if_neg (Int.not_lt.mpr (Int.natCast_nonneg _)), here]
  simp

theorem storeAt (c : Option KeyValuePair) (here : heap arr = pre ++ c :: post) :
    store heap arr pre.length x = .ok (update heap arr (pre ++ some x :: post)) := by
  unfold store
  rw [here, if_pos (by simp)]
  simp

theorem readNext (work' : KeyValuePair → List Work) (here : b = pre ++ some x :: post) (index : k = pre.length)
    (reads : step (fun _ => b) 0 work = do let x ← load (fun _ => b) 0 k; return (fun _ => b, work' x)) :
    next (b, work) = some (b, work' x) := by
  apply nextOk
  unfold stepIn
  rw [reads, index, loadAt here]
  rfl

theorem writeNext {c : Option KeyValuePair} (here : b = pre ++ c :: post) (index : k = pre.length)
    (writes : step (fun _ => b) 0 work = do let heap ← store (fun _ => b) 0 k x; return (heap, work')) :
    next (b, work) = some (pre ++ some x :: post, work') := by
  apply nextOk
  unfold stepIn
  rw [writes, index, storeAt c here]
  simp [bind, Except.bind, pure, Except.pure]

/-! ### The loops of `merge` -/

theorem copyLLeads (pre post : Block) (xs L : List KeyValuePair) (here : b = pre ++ (L ++ xs).map some ++ post) (size : m - pre.length + 1 = (L ++ xs).length) :
    Leads next (b, .copyL pre.length m r L :: rest) (b, .copyR pre.length m r (L ++ xs) [] :: rest) := by
  rw [List.length_append, Int.natCast_add] at size
  induction xs generalizing L with
  | nil =>
    rw [List.append_nil]
    refine .step (nextOk ?_) .stay
    simp only [List.length_nil] at size
    simp only [stepIn, step, if_neg (show ¬ (L.length : Int) < m - pre.length + 1 by omega)]
    rfl
  | cons x xs ih =>
    rw [List.length_cons] at size
    have split : b = (pre ++ L.map some) ++ some x :: (xs.map some ++ post) := by
      rw [here]
      simp
    have first : next (b, .copyL pre.length m r L :: rest) = some (b, .copyL pre.length m r (L ++ [x]) :: rest) := by
      refine readNext (fun x => .copyL pre.length m r (L ++ [x]) :: rest) split (k := pre.length + L.length) (by simp) ?_
      simp only [step, if_pos (show (L.length : Int) < m - pre.length + 1 by omega)]
    have more := ih (L ++ [x]) (by simpa using here) (by simp only [List.length_append, List.length_cons, List.length_nil]; omega)
    rw [List.append_assoc] at more
    exact .step first more

theorem copyRLeads {L : List KeyValuePair} (pre post : Block) (xs R : List KeyValuePair) (here : b = pre ++ (R ++ xs).map some ++ post)
    (index : m + 1 = pre.length) (size : r - m = (R ++ xs).length) :
    Leads next (b, .copyR l m r L R :: rest) (b, .mergeBack l L (R ++ xs) :: rest) := by
  rw [List.length_append, Int.natCast_add] at size
  induction xs generalizing R with
  | nil =>
    rw [List.append_nil]
    refine .step (nextOk ?_) .stay
    simp only [List.length_nil] at size
    simp only [stepIn, step, if_neg (show ¬ (R.length : Int) < r - m by omega)]
    rfl
  | cons x xs ih =>
    rw [List.length_cons] at size
    have split : b = (pre ++ R.map some) ++ some x :: (xs.map some ++ post) := by
      rw [here]
      simp
    have first : next (b, .copyR l m r L R :: rest) = some (b, .copyR l m r L (R ++ [x]) :: rest) := by
      refine readNext (fun x => .copyR l m r L (R ++ [x]) :: rest) split (k := m + 1 + R.length) (by simp [index]) ?_
      simp only [step, if_pos (show (R.length : Int) < r - m by omega)]
    have more := ih (R ++ [x]) (by simpa using here) (by simp only [List.length_append, List.length_cons, List.length_nil]; omega)
    rw [List.append_assoc] at more
    exact .step first more

theorem moveLeads {L R L' R' : List KeyValuePair} {out : List KeyValuePair} (size : gap.length = L'.length + R'.length + 1)
    (index : k = pre.length)
    (writes : ∀ b, step (fun _ => b) 0 (.mergeBack k L R :: rest) = do
      let heap ← store (fun _ => b) 0 k x
      return (heap, .mergeBack (k + 1) L' R' :: rest))
    (later : ∀ (pre gap : Block), gap.length = L'.length + R'.length → k + 1 = pre.length →
      Leads next (pre ++ gap ++ post, .mergeBack (k + 1) L' R' :: rest) (pre ++ out.map some ++ post, rest)) :
    Leads next (pre ++ gap ++ post, .mergeBack k L R :: rest) (pre ++ (x :: out).map some ++ post, rest) := by
  cases gap with
  | nil => cases size
  | cons c gap =>
    refine .step (writeNext (c := c) (by rw [List.append_assoc]; rfl) index (writes _)) ?_
    have moved := later (pre ++ [some x]) gap (Nat.succ.inj size) (by simp [index])
    simpa using moved

def byKey (a b : KeyValuePair) : Bool := a.key ≤ b.key

theorem mergeBackLeads (L R : List KeyValuePair) (pre gap : Block) (k : Int) (size : gap.length = L.length + R.length)
    (index : k = pre.length) :
    Leads next (pre ++ gap ++ post, .mergeBack k L R :: rest) (pre ++ (L.merge R byKey).map some ++ post, rest) := by
  have done : ∀ {pre gap : Block} {k : Int}, gap.length = 0 →
      Leads next (pre ++ gap ++ post, .mergeBack k [] [] :: rest) (pre ++ ([] : List KeyValuePair).map some ++ post, rest) := by
    intro pre gap k size
    rw [List.length_eq_zero_iff.mp size]
    exact .step (nextOk rfl) .stay
  induction L, R using List.merge.induct byKey generalizing pre gap k with
  | case1 R =>
    rw [List.nil_merge]
    induction R generalizing pre gap k with
    | nil => exact done size
    | cons b R ih => exact moveLeads size index (fun _ => rfl) fun pre gap size index => ih pre gap (k + 1) size index
  | case2 L full =>
    rw [List.merge_right]
    clear full
    induction L generalizing pre gap k with
    | nil => exact done size
    | cons a L ih =>
      rw [List.length_cons, Nat.add_right_comm] at size
      exact moveLeads size index (fun _ => rfl) fun pre gap size index => ih pre gap (k + 1) size index
  | case3 a L b R first ih =>
    rw [List.cons_merge_cons_pos _ _ _ first]
    rw [List.length_cons, Nat.add_right_comm] at size
    refine moveLeads size index (fun _ => ?_) fun pre gap size index => ih pre gap (k + 1) size index
    simp only [step, if_pos (of_decide_eq_true first)]
  | case4 a L b R first ih =>
    rw [List.cons_merge_cons_neg _ _ _ first]
    refine moveLeads size index (fun _ => ?_) fun pre gap size index => ih pre gap (k + 1) size index
    simp only [step, if_neg fun le => first (decide_eq_true le)]

/-! ### The calls -/

theorem mergeLeads (pre post : Block) (ys zs : List KeyValuePair) (left : l = pre.length) (middle : m + 1 = l + ys.length) (right : r = m + zs.length) :
    Leads next (pre ++ (ys ++ zs).map some ++ post, merge l m r :: rest) (pre ++ (ys.merge zs byKey).map some ++ post, rest) := by
  subst left
  refine (copyLLeads pre (zs.map some ++ post) ys [] (by simp) (by simp only [List.nil_append]; omega)).append ?_
  refine (copyRLeads (pre ++ ys.map some) post zs [] (by simp) (by simpa using middle) (by simp only [List.nil_append]; omega)).append ?_
  exact mergeBackLeads ys zs pre _ _ (by simp) rfl

theorem callNext {size n : Nat} (long : 2 ≤ size) (half : n = (size + 1) / 2) (right : r = l + size - 1) :
    next (b, .mergeSort l r :: rest) =
      some (b, .mergeSort l (l + n - 1) :: .mergeSort (l + n) r :: merge l (l + n - 1) r :: rest) := by
  have middle : l + (r - l).tdiv 2 = l + n - 1 := by
    rw [Int.tdiv_eq_ediv_of_nonneg (by omega)]
    omega
  apply nextOk
  simp only [stepIn, step, if_pos (show l < r by omega), middle, Int.sub_add_cancel]
  rfl

theorem returnNext (short : r ≤ l) : next (b, .mergeSort l r :: rest) = some (b, rest) := by
  apply nextOk
  simp only [stepIn, step, if_neg (Int.not_lt.mpr short)]
  rfl

theorem mergeSortLeads (xs : List KeyValuePair) (pre post : Block) (rest : List Work) (left : l = pre.length) (right : r = l + xs.length - 1) :
    Leads next (pre ++ xs.map some ++ post, .mergeSort l r :: rest) (pre ++ (sorted xs).map some ++ post, rest) := by
  induction size : xs.length using Nat.strong_induction_on generalizing xs pre post rest l r with
  | _ n ih =>
    rw [size] at right
    rcases Nat.lt_or_ge n 2 with short | long
    · have same : sorted xs = xs := sortShort (by omega)
      rw [same]
      exact .step (returnNext (by omega)) .stay
    · obtain ⟨ys, zs, rfl, half⟩ : ∃ ys zs, xs = ys ++ zs ∧ ys.length = (n + 1) / 2 :=
        ⟨xs.take ((n + 1) / 2), xs.drop ((n + 1) / 2), (List.take_append_drop _ _).symm, by rw [List.length_take]; omega⟩
      have sizes := size
      rw [List.length_append] at sizes
      have first := ih ys.length (by omega) ys pre (zs.map some ++ post)
        (.mergeSort (l + ys.length) r :: merge l (l + ys.length - 1) r :: rest) left rfl rfl
      have second := ih zs.length (by omega) zs (pre ++ (sorted ys).map some) post (merge l (l + ys.length - 1) r :: rest)
        (l := l + ys.length) (r := r) (by simp [left, sortLength]) (by omega) rfl
      have last : Leads next _ (_, rest) := mergeLeads pre post (sorted ys) (sorted zs) left (m := l + ys.length - 1) (r := r)
        (by rw [sortLength]; omega) (by rw [sortLength]; omega)
      have merged : sorted (ys ++ zs) = (sorted ys).merge (sorted zs) byKey := sortHalves (by rwa [size]) (by rwa [size])
      rw [← merged] at last
      simp only [List.map_append, List.append_assoc] at first second last ⊢
      exact .step (callNext long half right) (first.append (second.append last))

theorem sortsAll (xs : List KeyValuePair) : Leads next (xs.map some, [.mergeSort 0 (xs.length - 1)]) ((sorted xs).map some, []) := by
  have run := mergeSortLeads xs [] [] [] (l := 0) (r := xs.length - 1) rfl (by omega)
  simpa using run

end OpSys.Psort
