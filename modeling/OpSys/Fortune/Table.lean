import OpSys.Fortune.Main
import Mathlib.Data.List.Forall2

/-! What the reading loop leaves in `fortune`: each line goes behind the first NUL that
its block has, and nothing is stored to a block before. -/
namespace OpSys.Fortune
open OpSys.Traced
open OpSys.Strtok (Bytes cstring cstringCons cstringNul)
open OpSys.Smash (lines strtol isspace isdigit)

/-! ### What is expected -/

def sign (str : Bytes) : Bool × Bytes := match str.dropWhile isspace with
  | 45 :: body => (true, body)
  | 43 :: body => (false, body)
  | body => (false, body)

def decimal (str : Bytes) : Int :=
  let n : Nat := ((sign str).2.takeWhile isdigit).foldl (fun n c => n * 10 + (c.toNat - 48)) 0
  if (sign str).1 then -n else n

/-- Two lines with numbers, and the sections, each after a separator; there may be one
more at the end. -/
structure Format (file h1 h2 : Bytes) (sections : List (List Bytes)) : Prop where
  split : ∃ last, (last = [] ∨ last = [delim]) ∧ lines file = h1 :: h2 :: (sections.flatMap (fun sec => delim :: sec) ++ last)
  proper : ∀ sec ∈ sections, delim ∉ sec

def longest (sections : List (List Bytes)) : Nat := (sections.map fun sec => sec.flatten.length).foldr max 0

structure TrueNumbers (h1 h2 : Bytes) (sections : List (List Bytes)) : Prop where
  count : decimal h1 = sections.length
  length : decimal h2 = longest sections

def Holds (fortune : List Bytes) (sections : List (List Bytes)) : Prop := List.Forall₂ (fun block sec => string block = .ok sec.flatten) fortune sections

def Right (memory : Nat → Nat → UInt8) (file : Bytes) (sections : List (List Bytes)) : Prop :=
  ∃ num0 fortune, (load memory file).result = .ok (num0, fortune) ∧ Holds fortune sections

/-- There is room for a NUL behind each fortune, none in it, and memory happens to begin
with one. -/
structure Loads (memory : Nat → Nat → UInt8) (h1 h2 : Bytes) (sections : List (List Bytes)) : Prop where
  count : atoi h1 = sections.length
  each : ∀ k sec, sections[k]? = some sec → (sec.flatten.length : Int) < atoi h2 ∧ memory k 0 = 0 ∧ 0 ∉ sec.flatten

variable {block block' s src : Bytes} {sec : List Bytes} {sections : List (List Bytes)} {fortune fortune' blocks done rest : List Bytes} {c : UInt8}

/-! ### Strings -/

theorem cstringFree (s : Bytes) : 0 ∉ cstring s := fun mem => by
  have bad := List.mem_takeWhile_imp mem
  simp at bad

theorem cstringWhole (free : 0 ∉ s) : cstring s = s :=
  List.takeWhile_eq_self_iff.mpr fun c mem => by simpa using fun zero : c = 0 => free (zero ▸ mem)

theorem cstringAppend (free : 0 ∉ s) : cstring (s ++ src) = s ++ cstring src := by
  induction s with
  | nil => rfl
  | cons c s ih =>
    have some : c ≠ 0 := fun zero => free (zero ▸ List.mem_cons_self)
    rw [List.cons_append, cstringCons some, ih fun mem => free (List.mem_cons_of_mem _ mem)]
    rfl

theorem cstringShort : (cstring s).length < s.length ↔ 0 ∈ s := by
  induction s with
  | nil => exact iff_of_false (Nat.lt_irrefl _) (by simp)
  | cons c s ih =>
    by_cases zero : c = 0
    · rw [zero, cstringNul]
      exact iff_of_true (Nat.succ_pos _) List.mem_cons_self
    · rw [cstringCons zero, List.length_cons, List.length_cons, Nat.add_lt_add_iff_right, ih, List.mem_cons]
      exact (or_iff_right (Ne.symm zero)).symm

theorem stringIff : string block = .ok s ↔ 0 ∈ block ∧ cstring block = s := by
  unfold string
  split
  · rename_i nul
    rw [and_iff_right nul]
    exact ⟨Except.ok.inj, congrArg Except.ok⟩
  · rename_i none
    exact iff_of_false nofun fun both => none both.1

theorem strcatCases (dest src : Bytes) :
    (0 ∈ dest ∧ (cstring dest).length + (cstring src).length < dest.length ∧ ∃ dest', strcat dest src = .ok dest' ∧ dest'.length = dest.length ∧
      0 ∈ dest' ∧ cstring dest' = cstring dest ++ cstring src) ∨
    dest.length ≤ (cstring dest).length + (cstring src).length ∧ strcat dest src = .error .wild := by
  unfold strcat
  dsimp only
  split
  · rename_i room
    refine .inl ⟨cstringShort.mp (Nat.lt_of_le_of_lt (Nat.le_add_right _ _) room), room, _, rfl, ?_, ?_, ?_⟩
    · rw [List.length_append, List.length_append, List.length_cons, List.length_drop]
      omega
    · simp
    · rw [List.append_assoc, cstringAppend (cstringFree _), cstringAppend (cstringFree _), cstringNul, List.append_nil]
  · rename_i full
    exact .inr ⟨not_lt.mp full, rfl⟩

/-! ### A section -/

def joined (sec : List Bytes) : Bytes := sec.flatMap cstring

theorem joinedWhole (free : 0 ∉ sec.flatten) : joined sec = sec.flatten := by
  have each : ∀ s ∈ sec, cstring s = id s := fun s mem => cstringWhole fun nul => free (List.mem_flatten.mpr ⟨s, mem, nul⟩)
  unfold joined
  rw [List.flatMap_congr each, List.flatMap_id]

theorem appendsCases (block : Bytes) (sec : List Bytes) :
    (∃ block', sec.foldlM strcat block = .ok block' ∧ block'.length = block.length ∧ (0 ∈ block' ↔ 0 ∈ block) ∧
      cstring block' = cstring block ++ joined sec) ∨
    block.length ≤ (cstring block).length + (joined sec).length ∧ sec.foldlM strcat block = .error .wild := by
  induction sec generalizing block with
  | nil => exact .inl ⟨block, rfl, rfl, .rfl, (List.append_nil _).symm⟩
  | cons src sec ih =>
    have whole : joined (src :: sec) = cstring src ++ joined sec := List.flatMap_cons
    rw [List.foldlM_cons, whole]
    rcases strcatCases block src with ⟨nul, room, mid, stored, size, nul', string⟩ | ⟨full, wild⟩
    · rw [stored]
      rcases ih mid with ⟨block', ran, size', keeps, string'⟩ | ⟨full, wild⟩
      · refine .inl ⟨block', ran, size'.trans size, keeps.trans (iff_of_true nul' nul), ?_⟩
        rw [string', string, List.append_assoc]
      · rw [string, size, List.length_append] at full
        rw [List.length_append]
        exact .inr ⟨by omega, wild⟩
    · rw [wild, List.length_append]
      exact .inr ⟨by omega, rfl⟩

def Fits (block : Bytes) (sec : List Bytes) : Prop := block.head? = some 0 ∧ sec.flatten.length < block.length ∧ 0 ∉ sec.flatten

theorem appendsIff (block : Bytes) (sec : List Bytes) : (∃ block', sec.foldlM strcat block = .ok block' ∧ string block' = .ok sec.flatten) ↔ Fits block sec := by
  have headNul : block.head? = some 0 ↔ 0 ∈ block ∧ cstring block = [] := by
    cases block with
    | nil => simp
    | cons c block =>
      by_cases zero : c = 0
      · rw [zero, cstringNul]
        simp
      · rw [cstringCons zero]
        simp [zero]
  unfold Fits
  rw [headNul]
  constructor
  · rintro ⟨block', ran, string'⟩
    obtain ⟨nul', same⟩ := stringIff.mp string'
    rcases appendsCases block sec with ⟨_, ran', size, keeps, string⟩ | ⟨_, wild⟩
    · cases ran.symm.trans ran'
      have free : 0 ∉ sec.flatten := same ▸ cstringFree block'
      have short := cstringShort.mpr nul'
      rw [joinedWhole free, same] at string
      rw [same, size] at short
      exact ⟨⟨keeps.mp nul', List.self_eq_append_left.mp string⟩, short, free⟩
    · cases ran.symm.trans wild
  · rintro ⟨⟨nul, empty⟩, room, free⟩
    rcases appendsCases block sec with ⟨block', ran, _, keeps, string⟩ | ⟨full, _⟩
    · rw [empty, joinedWhole free, List.nil_append] at string
      exact ⟨block', ran, stringIff.mpr ⟨keeps.mpr nul, string⟩⟩
    · rw [empty, joinedWhole free, List.length_nil, Nat.zero_add] at full
      omega

/-! ### The loop -/

def appends : List Bytes → List (List Bytes) → Except Stop (List Bytes)
  | block :: blocks, sec :: sections => do
    let block ← sec.foldlM strcat block
    let blocks ← appends blocks sections
    return block :: blocks
  | blocks, _ => .ok blocks

theorem appendsCons : appends (block :: blocks) (sec :: sections) =
    sec.foldlM strcat block >>= fun block => appends blocks sections >>= fun blocks => .ok (block :: blocks) := rfl

theorem appendsHolds (size : blocks.length = sections.length) :
    (∃ fortune, appends blocks sections = .ok fortune ∧ Holds fortune sections) ↔ List.Forall₂ Fits blocks sections := by
  induction blocks generalizing sections with
  | nil =>
    obtain rfl := List.length_eq_zero_iff.mp size.symm
    exact iff_of_true ⟨[], rfl, .nil⟩ .nil
  | cons block blocks ih =>
    cases sections with
    | nil => cases size
    | cons sec sections =>
      have later := ih (Nat.succ.inj size)
      rw [List.forall₂_cons, ← appendsIff, ← later, appendsCons]
      constructor
      · rintro ⟨fortune, ran, holds⟩
        cases first : sec.foldlM strcat block with
        | error e =>
          rw [first] at ran
          cases ran
        | ok block' =>
          rw [first] at ran
          cases next : appends blocks sections with
          | error e =>
            simp only [bind, Except.bind, next] at ran
            cases ran
          | ok blocks' =>
            simp only [bind, Except.bind, next] at ran
            cases ran
            cases holds with
            | cons head tail => exact ⟨⟨block', rfl, head⟩, blocks', rfl, tail⟩
      · rintro ⟨⟨block', first, head⟩, blocks', next, tail⟩
        rw [first]
        simp only [bind, Except.bind, next]
        exact ⟨block' :: blocks', rfl, .cons head tail⟩

theorem entryAt (done rest : List Bytes) (block : Bytes) : entry (done ++ block :: rest) done.length = ⟨[.access done.length], .ok block⟩ := by
  have here : (done ++ block :: rest)[done.length]? = some block := by simp
  unfold entry
  rw [leaveBind, if_neg (by omega), Int.toNat_natCast, here]
  rfl

theorem readSection {more : List Bytes} (proper : ∀ l ∈ sec, cstring l ≠ delim) : (readFortunes (done ++ block :: rest) 1 done.length (sec ++ more)).result =
    sec.foldlM strcat block >>= fun block => (readFortunes (done ++ block :: rest) 1 done.length more).result := by
  induction sec generalizing block with
  | nil => rfl
  | cons l sec ih =>
    rw [List.cons_append, readFortunes, if_neg (by decide), if_neg (proper l List.mem_cons_self), entryAt, bindOk, List.foldlM_cons]
    dsimp only
    rw [bindResult]
    show strcat block l >>= _ = _
    cases strcat block l with
    | error e => rfl
    | ok block' =>
      have next := @ih block' fun l mem => proper l (List.mem_cons_of_mem _ mem)
      have stored : (done ++ block :: rest).set done.length block' = done ++ block' :: rest := by
        rw [List.set_append_right _ _ (Nat.le_refl _), Nat.sub_self, List.set_cons_zero]
      simp only [bind, Except.bind]
      rw [stored]
      exact next

theorem readSections {last : List Bytes} (proper : ∀ sec' ∈ sec :: sections, ∀ l ∈ sec', cstring l ≠ delim) (size : blocks.length = sections.length)
    (ends : last = [] ∨ last = [delim]) :
    (readFortunes (done ++ block :: blocks) 1 done.length (sec ++ (sections.flatMap (fun sec => delim :: sec) ++ last))).result =
      (appends (block :: blocks) (sec :: sections)).map (done ++ ·) := by
  induction sections generalizing done block blocks sec with
  | nil =>
    obtain rfl := List.length_eq_zero_iff.mp size
    rw [readSection (proper sec List.mem_cons_self), appendsCons]
    cases sec.foldlM strcat block with
    | error e => rfl
    | ok block' => rcases ends with rfl | rfl <;> rfl
  | cons sec' sections ih =>
    cases blocks with
    | nil => cases size
    | cons block'' blocks =>
      rw [readSection (proper sec List.mem_cons_self), appendsCons]
      cases sec.foldlM strcat block with
      | error e => rfl
      | ok block' =>
        have next := @ih block'' sec' blocks (done ++ [block']) (fun sec mem => proper sec (List.mem_cons_of_mem _ mem)) (Nat.succ.inj size)
        rw [List.length_append, List.length_singleton, List.append_assoc, List.singleton_append] at next
        simp only [bind, Except.bind]
        rw [List.flatMap_cons, List.cons_append, List.cons_append, readFortunes, if_neg (by decide), if_pos (by decide +kernel), List.append_assoc, next]
        cases appends (block'' :: blocks) (sec' :: sections) with
        | error e => rfl
        | ok blocks' => exact congrArg Except.ok (List.append_assoc done [block'] blocks')

theorem readLength {ls : List Bytes} {counter n : Nat} (ok : (readFortunes fortune counter n ls).result = .ok fortune') : fortune'.length = fortune.length := by
  induction ls generalizing fortune counter n with
  | nil =>
    cases ok
    rfl
  | cons buf ls ih =>
    unfold readFortunes at ok
    split at ok
    · exact ih ok
    split at ok
    · exact ih ok
    obtain ⟨block, _, ok, _⟩ := bindDone ok
    obtain ⟨block', _, _, ok⟩ := liftDone ok
    exact (ih ok).trans List.length_set

/-! ### The file -/

theorem linesOnce {input l a b : Bytes} (mem : l ∈ lines input) (newline : l = a ++ 10 :: b) : b = [] := by
  induction input generalizing l a with
  | nil => cases mem
  | cons c input ih =>
    unfold lines at mem
    split at mem
    · rcases List.mem_cons.mp mem with rfl | mem
      · cases a with
        | nil => exact (List.cons.inj newline).2.symm
        | cons x a => simp at newline
      · exact ih mem newline
    · rename_i other
      split at mem
      · cases List.mem_singleton.mp mem
        cases a with
        | nil => exact absurd (List.cons.inj newline).1 other
        | cons x a => simp at newline
      · rename_i line more split
        rcases List.mem_cons.mp mem with rfl | mem
        · cases a with
          | nil => exact absurd (List.cons.inj newline).1 other
          | cons x a =>
            exact ih (by rw [split]; exact List.mem_cons_self) (List.cons.inj newline).2
        · exact ih (by rw [split]; exact List.mem_cons_of_mem _ mem) newline

theorem cstringLine {input l a : Bytes} (mem : l ∈ lines input) (string : cstring l = a ++ [10]) : l = a ++ [10] := by
  have whole := List.takeWhile_append_dropWhile (p := (· != 0)) (l := l)
  rw [show l.takeWhile (· != 0) = cstring l from rfl, string, List.append_assoc, List.singleton_append] at whole
  rw [← whole, linesOnce mem whole.symm]

variable {memory : Nat → Nat → UInt8} {file h1 h2 : Bytes} {num : List Int} {num0 num1 : Int} {n : Nat}

theorem Format.strings (format : Format file h1 h2 sections) : ∀ sec ∈ sections, ∀ l ∈ sec, cstring l ≠ delim := by
  obtain ⟨last, _, split⟩ := format.split
  intro sec mem l inside same
  have line : l ∈ lines file := by
    rw [split]
    refine List.mem_cons_of_mem _ (List.mem_cons_of_mem _ (List.mem_append_left _ ?_))
    exact List.mem_flatMap.mpr ⟨sec, mem, List.mem_cons_of_mem _ inside⟩
  have whole := cstringLine (a := [37]) line (by rw [same]; rfl)
  exact format.proper sec mem (by rw [← show l = delim by rw [whole]; rfl]; exact inside)

/-- What `malloc` returns, where the numbers are not negative. -/
def fresh (memory : Nat → Nat → UInt8) (n m : Nat) : List Bytes := (List.range n).map fun i => (List.range m).map (memory i)

theorem freshLength (memory : Nat → Nat → UInt8) (n m : Nat) : (fresh memory n m).length = n := by simp [fresh]

theorem allocFresh (n : Nat) (low : 0 ≤ num1) : alloc memory [(n : Int), num1] = pure ((n : Int), fresh memory n num1.toNat) := by
  unfold alloc
  dsimp only
  rw [if_neg (by omega)]
  split
  · rename_i zero
    rw [Int.natCast_eq_zero.mp zero]
    rfl
  · rw [if_neg (by omega), Int.toNat_natCast]
    rfl

theorem allocLength (ok : (alloc memory num).result = .ok (num0, fortune)) : num.head? = some num0 ∧ (fortune.length : Int) = num0 := by
  unfold alloc at ok
  split at ok
  · cases ok
  split at ok
  · cases ok
  split at ok
  · rename_i zero
    cases ok
    exact ⟨rfl, zero.symm⟩
  · split at ok
    · cases ok
    · split at ok
      · cases ok
      · cases ok
        exact ⟨rfl, by simp; omega⟩

theorem Format.load (format : Format file h1 h2 sections) (memory : Nat → Nat → UInt8) : ∃ last, (last = [] ∨ last = [delim]) ∧ (load memory file).result =
    (alloc memory [atoi h1, atoi h2]).result >>= fun x =>
      (readFortunes x.2 0 0 (sections.flatMap (fun sec => delim :: sec) ++ last)).result >>= fun fortune => .ok (x.1, fortune) := by
  obtain ⟨last, ends, split⟩ := format.split
  refine ⟨last, ends, ?_⟩
  unfold Fortune.load
  rw [split, bindResult]
  refine bind_congr fun x => ?_
  exact bindResult _ _

theorem rightCount (format : Format file h1 h2 sections) (right : Right memory file sections) : atoi h1 = sections.length := by
  obtain ⟨num0, fortune, ok, holds⟩ := right
  obtain ⟨last, _, load⟩ := format.load memory
  rw [load] at ok
  cases made : (alloc memory [atoi h1, atoi h2]).result with
  | error e =>
    rw [made] at ok
    cases ok
  | ok x =>
    obtain ⟨num0', blocks⟩ := x
    rw [made] at ok
    simp only [bind, Except.bind] at ok
    cases read : (readFortunes blocks 0 0 (sections.flatMap (fun sec => delim :: sec) ++ last)).result with
    | error e =>
      rw [read] at ok
      cases ok
    | ok fortune' =>
      rw [read] at ok
      cases ok
      obtain ⟨first, size⟩ := allocLength made
      cases first
      rw [← size, ← readLength read, holds.length_eq]

theorem fitsIff {m : Nat} : List.Forall₂ Fits (fresh memory sections.length m) sections ↔
    ∀ k sec, sections[k]? = some sec → sec.flatten.length < m ∧ memory k 0 = 0 ∧ 0 ∉ sec.flatten := by
  have each : ∀ k sec, sec.flatten.length < m → (Fits ((List.range m).map (memory k)) sec ↔ memory k 0 = 0 ∧ 0 ∉ sec.flatten) := fun k sec room => by
    obtain ⟨m, rfl⟩ : ∃ m', m = m' + 1 := ⟨m - 1, by omega⟩
    unfold Fits
    rw [List.length_map, List.length_range, and_iff_right room, List.range_succ_eq_map]
    simp
  rw [List.forall₂_iff_get, and_iff_right (freshLength memory _ _)]
  constructor
  · intro all k sec here
    obtain ⟨less, rfl⟩ := List.getElem?_eq_some_iff.mp here
    have fits := all k (by rw [freshLength]; exact less) less
    have room := fits.2.1
    rw [List.get_eq_getElem, List.get_eq_getElem] at fits room
    unfold fresh at fits room
    rw [List.getElem_map, List.getElem_range] at fits room
    rw [List.length_map, List.length_range] at room
    exact ⟨room, (each k _ room).mp fits⟩
  · intro all k less less'
    obtain ⟨room, rest⟩ := all k sections[k] (List.getElem?_eq_getElem less')
    rw [List.get_eq_getElem, List.get_eq_getElem]
    unfold fresh
    rw [List.getElem_map, List.getElem_range]
    exact (each k _ room).mpr rest

theorem loadSections (format : Format file h1 h2 sections) (count : atoi h1 = sections.length) (low : 0 ≤ atoi h2) :
    (load memory file).result = (appends (fresh memory sections.length (atoi h2).toNat) sections).map (atoi h1, ·) := by
  obtain ⟨last, ends, load⟩ := format.load memory
  rw [load, count, allocFresh _ low, pureRun]
  simp only [bind, Except.bind]
  have proper := format.strings
  have size := freshLength memory sections.length (atoi h2).toNat
  generalize fresh memory sections.length (atoi h2).toNat = blocks at size ⊢
  cases sections with
  | nil =>
    obtain rfl := List.length_eq_zero_iff.mp size
    rcases ends with rfl | rfl <;> rfl
  | cons sec sections =>
    cases blocks with
    | nil => cases size
    | cons block blocks =>
      have loop := @readSections block sec sections blocks [] last proper (Nat.succ.inj size) ends
      rw [List.nil_append, List.length_nil] at loop
      -- the first separator is skipped as a line, whatever it is
      rw [List.flatMap_cons, List.cons_append, List.cons_append, readFortunes, if_pos (by decide), Nat.zero_add, List.append_assoc, loop]
      cases appends (block :: blocks) (sec :: sections) <;> rfl

theorem rightIff (format : Format file h1 h2 sections) : Right memory file sections ↔ Loads memory h1 h2 sections := by
  by_cases count : atoi h1 = sections.length
  · have loads : Loads memory h1 h2 sections ↔ ∀ k sec, sections[k]? = some sec → (sec.flatten.length : Int) < atoi h2 ∧ memory k 0 = 0 ∧ 0 ∉ sec.flatten :=
      ⟨fun loads => loads.each, fun each => ⟨count, each⟩⟩
    rw [loads]
    by_cases low : 0 ≤ atoi h2
    · have holds := appendsHolds (freshLength memory sections.length (atoi h2).toNat)
      have same : ∀ sec : List Bytes, (sec.flatten.length : Int) < atoi h2 ↔ sec.flatten.length < (atoi h2).toNat := fun sec => by omega
      rw [fitsIff] at holds
      simp only [same]
      rw [← holds]
      unfold Right
      rw [loadSections format count low]
      constructor
      · rintro ⟨num0, fortune, ok, holds⟩
        cases ran : appends (fresh memory sections.length (atoi h2).toNat) sections with
        | error e =>
          rw [ran] at ok
          cases ok
        | ok fortune' =>
          rw [ran] at ok
          cases ok
          exact ⟨_, rfl, holds⟩
      · rintro ⟨fortune, ran, holds⟩
        exact ⟨_, fortune, by rw [ran]; rfl, holds⟩
    · cases sections with
      | nil =>
        refine iff_of_true ?_ nofun
        obtain ⟨last, ends, load⟩ := format.load memory
        have none : alloc memory [atoi h1, atoi h2] = pure (0, []) := by
          rw [count]
          rfl
        refine ⟨0, [], ?_, .nil⟩
        rw [load, none]
        rcases ends with rfl | rfl <;> rfl
      | cons sec sections =>
        refine iff_of_false (fun ⟨num0, fortune, ok, _⟩ => ?_) fun all => ?_
        · obtain ⟨last, _, load⟩ := format.load memory
          have dead : (alloc memory [atoi h1, atoi h2]).result = .error (.exit 1) := by
            unfold alloc
            dsimp only
            rw [count, if_neg (by omega), if_neg (by rw [List.length_cons]; omega), if_pos (by omega)]
            rfl
          rw [load, dead] at ok
          cases ok
        · have first := (all 0 sec rfl).1
          omega
  · exact iff_of_false (fun right => count (rightCount format right)) fun loads => count loads.count

/-! ### The true numbers -/

theorem strtolDecimal (str : Bytes) : (strtol str).value = max (-2 ^ 63) (min (2 ^ 63 - 1) (decimal str)) := by
  have parts : strtol str = if (sign str).2.takeWhile isdigit = [] then ⟨0, false, false⟩
      else if decimal str < -2 ^ 63 then ⟨-2 ^ 63, true, true⟩
      else if 2 ^ 63 ≤ decimal str then ⟨2 ^ 63 - 1, true, true⟩
      else ⟨decimal str, false, true⟩ := rfl
  rw [parts]
  split
  · rename_i none
    have zero : decimal str = 0 := by
      unfold decimal
      rw [none]
      dsimp only [List.foldl_nil]
      split <;> rfl
    rw [zero]
    rfl
  · split
    · dsimp only
      omega
    · split
      · dsimp only
        omega
      · dsimp only
        omega

theorem atoiSmall {str : Bytes} (low : 0 ≤ decimal str) : atoi str = decimal str ∧ decimal str < 2147483648 ∨ 2147483648 ≤ decimal str := by
  by_cases small : decimal str < 2147483648
  · refine .inl ⟨?_, small⟩
    unfold atoi
    rw [strtolDecimal, show max (-2 ^ 63) (min (2 ^ 63 - 1) (decimal str)) = decimal str by omega, BitVec.toInt_ofInt]
    exact Int.bmod_eq_of_le (by omega) (by omega)
  · exact .inr (Int.not_lt.mp small)

theorem atoiLess (str : Bytes) : atoi str < 2147483648 := by
  unfold atoi
  have := BitVec.toInt_lt (x := BitVec.ofInt 32 (strtol str).value)
  omega
theorem longestMem (some : sections ≠ []) : ∃ (k : Nat) (sec : List Bytes), sections[k]? = .some sec ∧ sec.flatten.length = longest sections := by
  induction sections with
  | nil => exact absurd rfl some
  | cons sec sections ih =>
    have whole : longest (sec :: sections) = max sec.flatten.length (longest sections) := rfl
    rw [whole]
    rcases Nat.le_total (longest sections) sec.flatten.length with first | later
    · exact ⟨0, sec, rfl, (Nat.max_eq_left first).symm⟩
    · rw [Nat.max_eq_right later]
      cases sections with
      | nil => exact ⟨0, sec, rfl, Nat.le_zero.mp later⟩
      | cons sec' sections =>
        obtain ⟨k, sec'', here, length⟩ := ih (List.cons_ne_nil _ _)
        exact ⟨k + 1, sec'', here, length⟩

/-- The table holds the fortunes where memory is zero and the second number is greater than
their lengths. The length of the longest is not. -/
theorem tableHolds (format : Format file h1 h2 sections) : (Right memory file sections ↔ Loads memory h1 h2 sections) ∧
    (TrueNumbers h1 h2 sections → (Right memory file sections ↔ sections = [])) := by
  refine ⟨rightIff format, fun numbers => ?_⟩
  rw [rightIff format]
  constructor
  · intro loads
    by_contra some
    obtain ⟨k, sec, here, length⟩ := longestMem some
    obtain ⟨room, _⟩ := loads.each k sec here
    rw [length, ← numbers.length] at room
    rcases atoiSmall (show 0 ≤ decimal h2 by rw [numbers.length]; omega) with ⟨same, _⟩ | great
    · rw [same] at room
      exact Int.lt_irrefl _ room
    · have less := atoiLess h2
      omega
  · rintro rfl
    refine ⟨?_, nofun⟩
    have zero : decimal h1 = 0 := numbers.count
    rcases atoiSmall (Int.le_of_eq zero.symm) with ⟨same, _⟩ | great
    · rw [same, zero]
      rfl
    · omega

def sampleFile : Bytes := ascii "1\n3\n%\nhi\n"

theorem sampleFormat : Format sampleFile (ascii "1\n") (ascii "3\n") [[ascii "hi\n"]] :=
  ⟨⟨[], .inl rfl, by decide +kernel⟩, by decide +kernel⟩

theorem tableHoldsSample : ¬ Right (fun _ _ => 0) sampleFile [[ascii "hi\n"]] ∧ ¬ Loads (fun _ _ => 0) (ascii "1\n") (ascii "3\n") [[ascii "hi\n"]] := by
  obtain ⟨loads, numbers⟩ := @tableHolds [[ascii "hi\n"]] (fun _ _ => 0) sampleFile (ascii "1\n") (ascii "3\n") sampleFormat
  have wrong : ¬ Right (fun _ _ => 0) sampleFile [[ascii "hi\n"]] := fun right => by
    cases (numbers ⟨by decide +kernel, by decide +kernel⟩).mp right
  exact ⟨wrong, fun all => wrong (loads.mpr all)⟩

/-- The NUL is stored behind the three bytes; and where memory begins with an `x`, so does
the string. -/
theorem appendOverflows : (load (fun _ _ => 0) sampleFile).result = .error .wild ∧
    (load (fun _ i => if i = 0 then 120 else 0) (ascii "1\n9\n%\nhi\n")).result = .ok (1, [ascii "xhi\n\x00\x00\x00\x00\x00"]) ∧
    ¬ ∀ memory file h1 h2 sections, Format file h1 h2 sections → TrueNumbers h1 h2 sections → Right memory file sections := by
  have wild : (load (fun _ _ => 0) sampleFile).result = .error .wild := by decide +kernel
  refine ⟨wild, by decide +kernel, fun all => ?_⟩
  obtain ⟨num0, fortune, ok, _⟩ := all (fun _ _ => 0) sampleFile (ascii "1\n") (ascii "3\n") [[ascii "hi\n"]] sampleFormat
    ⟨by decide +kernel, by decide +kernel⟩
  rw [wild] at ok
  cases ok

end OpSys.Fortune
