import OpSys.Fortune.Modes
import OpSys.Fortune.Table

/-! Batch mode to `stdout` and to a file. -/
namespace OpSys.Fortune
open OpSys.Traced
open OpSys.Strtok (Bytes cstring cstringCons cstringNul)
open OpSys.Smash (lines)

structure Table where
  fortune : List Bytes
  strings : ∀ block ∈ fortune, 0 ∈ block

/-! ### What is expected -/

def Event.printed : Event → Bytes
  | .print text => text
  | .put _ | .access _ => []

def Event.written : Event → Bytes
  | .put text => text
  | .print _ | .access _ => []

def printed (trace : List Event) : Bytes := trace.flatMap Event.printed

def written (trace : List Event) : Bytes := trace.flatMap Event.written

/-- The fortune for a line, with a blank line behind it if it is not the last of its file,
or the error. -/
def entryText (fortune : List Bytes) (buf : Bytes) : Bytes :=
  if InTable fortune.length (atoi buf) then
    cstring (fortune.getD (atoi buf - 1).toNat []) ++ if buf.getLast? = some 10 then ascii "\n\n" else []
  else invalidNumber ++ ascii "\n"

def entries (fortune : List Bytes) (file : Bytes) : Bytes := (lines file).flatMap (entryText fortune)

/-- What is reported, and the status, for a file without lines. -/
def report (file : Bytes) : Bytes := if lines file = [] then emptyBatch else []

def status (file : Bytes) : Except Stop Unit := if lines file = [] then .error (.exit 1) else .ok ()

/-- With `-o` the entries go to the file, and else to `stdout`. -/
structure Agrees (fortune : List Bytes) (file : Bytes) : Prop where
  print : printed (batchMode fortune.length fortune file).trace = entries fortune file ++ report file
  put : written (batchOutput fortune.length fortune file).trace = entries fortune file
  note : printed (batchOutput fortune.length fortune file).trace = report file
  ends : (batchMode fortune.length fortune file).result = status file
  endsOutput : (batchOutput fortune.length fortune file).result = status file

/-- No number is 0, each that is in the table has its newline, and there is one unless
there are no lines. -/
structure Plain (fortune : List Bytes) (file : Bytes) : Prop where
  number : ∀ l ∈ lines file, atoi l ≠ 0
  newline : ∀ l ∈ lines file, InTable fortune.length (atoi l) → endsLine l = .ok true
  some : lines file = [] ∨ ∃ l ∈ lines file, InTable fortune.length (atoi l)

variable {fortune small small' big : List Bytes} {block buf file s : Bytes} {texts : List Bytes} {i : Int} {n c c' k : Nat} {counts : Bool}
  {line : List Bytes → Bytes → Prog (List Bytes × Bool)} {p w : Bytes → Bytes}

/-! ### When it is so -/

theorem endsLineTrue : endsLine buf = .ok true ↔ ∃ a, cstring buf = a ++ [10] := by
  unfold endsLine
  cases here : (cstring buf).getLast? with
  | none =>
    rw [List.getLast?_eq_none_iff] at here
    rw [here]
    exact iff_of_false nofun fun ⟨a, bad⟩ => by simp at bad
  | some last =>
    dsimp only
    obtain ⟨a, whole⟩ := List.getLast?_eq_some_iff.mp here
    rw [whole]
    constructor
    · intro same
      have newline : last = 10 := by simpa using same
      exact ⟨a, by rw [newline]⟩
    · rintro ⟨b, same⟩
      obtain ⟨_, same⟩ := List.append_inj' same rfl
      cases same
      rfl

theorem newlineLast (mem : buf ∈ lines file) (newline : endsLine buf = .ok true) : buf.getLast? = some 10 := by
  obtain ⟨a, string⟩ := endsLineTrue.mp newline
  rw [cstringLine mem string]
  exact List.getLast?_concat

theorem textOk (strings : ∀ block ∈ fortune, 0 ∈ block) (inside : InTable fortune.length i) :
    text fortune (i - 1) = ⟨[.access (i - 1)], .ok (cstring (fortune.getD (i - 1).toNat []))⟩ := by
  obtain ⟨low, high⟩ := inside
  have less : (i - 1).toNat < fortune.length := by omega
  have whole : string fortune[(i - 1).toNat] = .ok (cstring fortune[(i - 1).toNat]) := if_pos (strings _ (List.getElem_mem less))
  unfold text entry
  rw [leaveBind, if_neg (by omega), List.getD_eq_getElem?_getD, List.getElem?_eq_getElem less, Option.getD_some]
  dsimp only
  rw [pureRun, bindOk, whole]
  rfl

theorem batchLineRuns (strings : ∀ block ∈ fortune, 0 ∈ block) (mem : buf ∈ lines file) (number : atoi buf ≠ 0)
    (newline : InTable fortune.length (atoi buf) → endsLine buf = .ok true) :
    ∃ trace, batchLine fortune.length fortune buf = ⟨trace, .ok (fortune, decide (InTable fortune.length (atoi buf)))⟩ ∧
      printed trace = entryText fortune buf ∧ written trace = [] := by
  unfold batchLine entryText
  dsimp only
  by_cases inside : InTable fortune.length (atoi buf)
  · obtain ⟨low, high⟩ := id inside
    have last := newlineLast mem (newline inside)
    rw [if_neg (by omega), newline inside, liftBind, if_pos rfl, textOk strings inside, if_pos inside, if_pos last, decide_eq_true inside]
    exact ⟨_, rfl, List.append_nil _, rfl⟩
  · have out : atoi buf < 0 ∨ atoi buf > fortune.length := by
      unfold InTable at inside
      omega
    rw [if_pos out, if_neg inside, decide_eq_false inside]
    exact ⟨_, rfl, List.append_nil _, rfl⟩

theorem batchOutputLineRuns (strings : ∀ block ∈ fortune, 0 ∈ block) (mem : buf ∈ lines file)
    (newline : InTable fortune.length (atoi buf) → endsLine buf = .ok true) :
    ∃ trace, batchOutputLine fortune.length fortune buf = ⟨trace, .ok (fortune, decide (InTable fortune.length (atoi buf)))⟩ ∧
      printed trace = [] ∧ written trace = entryText fortune buf := by
  unfold batchOutputLine entryText
  dsimp only
  by_cases inside : InTable fortune.length (atoi buf)
  · obtain ⟨low, high⟩ := id inside
    have last := newlineLast mem (newline inside)
    rw [if_neg (by omega), newline inside, liftBind, if_pos rfl, textOk strings inside, if_pos inside, if_pos last, decide_eq_true inside]
    exact ⟨_, rfl, rfl, congrArg (cstring (fortune.getD (atoi buf - 1).toNat []) ++ ·) (List.append_nil (ascii "\n\n"))⟩
  · have out : atoi buf ≤ 0 ∨ atoi buf > fortune.length := by
      unfold InTable at inside
      omega
    rw [if_pos out, if_neg inside, decide_eq_false inside]
    exact ⟨_, rfl, rfl, List.append_nil _⟩

def inTable (fortune : List Bytes) (buf : Bytes) : Bool := decide (InTable fortune.length (atoi buf))

theorem loopRuns (runs : ∀ buf ∈ texts, ∃ trace, line fortune buf = ⟨trace, .ok (fortune, inTable fortune buf)⟩ ∧ printed trace = p buf ∧ written trace = w buf) :
    ∃ trace, batchLoop line fortune c texts = ⟨trace, .ok (c + texts.countP (inTable fortune))⟩ ∧ printed trace = texts.flatMap p ∧
      written trace = texts.flatMap w := by
  induction texts generalizing c with
  | nil => exact ⟨[], rfl, rfl, rfl⟩
  | cons buf texts ih =>
    obtain ⟨here, ran, p', w'⟩ := runs buf List.mem_cons_self
    obtain ⟨later, ran', ps, ws⟩ := @ih (if inTable fortune buf then c + 1 else c) fun buf mem => runs buf (List.mem_cons_of_mem _ mem)
    unfold batchLoop
    rw [ran, bindOk]
    dsimp only
    have count : (if inTable fortune buf then c + 1 else c) + texts.countP (inTable fortune) = c + (buf :: texts).countP (inTable fortune) := by
      rw [List.countP_cons]
      split <;> omega
    rw [ran', count]
    refine ⟨here ++ later, rfl, ?_, ?_⟩
    · rw [List.flatMap_cons, ← p', ← ps]
      exact List.flatMap_append
    · rw [List.flatMap_cons, ← w', ← ws]
      exact List.flatMap_append

theorem batchRuns (some : texts = lines file) (loop : ∃ trace, batchLoop line fortune 0 texts = ⟨trace, .ok (0 + texts.countP (inTable fortune))⟩ ∧
      printed trace = texts.flatMap p ∧ written trace = texts.flatMap w) (none : texts = [] ∨ ∃ l ∈ texts, InTable fortune.length (atoi l)) :
    printed (batch line fortune file).trace = texts.flatMap p ++ report file ∧ written (batch line fortune file).trace = texts.flatMap w ∧
      (batch line fortune file).result = status file := by
  obtain ⟨trace, ran, ps, ws⟩ := loop
  unfold batch report status
  rw [← some, ran, bindOk, ← ps, ← ws, Nat.zero_add]
  rcases none with rfl | ⟨l, mem, inside⟩
  · rw [if_pos rfl, if_pos rfl]
    refine ⟨List.flatMap_append, ?_, rfl⟩
    exact List.flatMap_append.trans (List.append_nil _)
  · have positive : 0 < texts.countP (inTable fortune) := List.countP_pos_iff.mpr ⟨l, mem, decide_eq_true inside⟩
    have full : texts ≠ [] := List.ne_nil_of_mem mem
    rw [if_neg (by omega), if_neg full, if_neg full]
    refine ⟨?_, ?_, rfl⟩
    · rw [List.append_nil]
      exact congrArg printed (List.append_nil trace)
    · exact congrArg written (List.append_nil trace)

theorem plainPrints (strings : ∀ block ∈ fortune, 0 ∈ block) (plain : Plain fortune file) :
    printed (batchMode fortune.length fortune file).trace = entries fortune file ++ report file ∧
      written (batchMode fortune.length fortune file).trace = [] ∧ (batchMode fortune.length fortune file).result = status file := by
  obtain ⟨print, put, ends⟩ := batchRuns (p := entryText fortune) (w := fun _ => []) rfl
    (loopRuns fun buf mem => batchLineRuns strings mem (plain.number buf mem) (plain.newline buf mem)) plain.some
  rw [List.flatMap_eq_nil_iff.mpr fun _ _ => rfl] at put
  exact ⟨print, put, ends⟩

theorem plainWrites (strings : ∀ block ∈ fortune, 0 ∈ block) (plain : Plain fortune file) :
    printed (batchOutput fortune.length fortune file).trace = report file ∧
      written (batchOutput fortune.length fortune file).trace = entries fortune file ∧ (batchOutput fortune.length fortune file).result = status file := by
  obtain ⟨note, put, ends⟩ := batchRuns (p := fun _ => []) (w := entryText fortune) rfl
    (loopRuns fun buf mem => batchOutputLineRuns strings mem (plain.newline buf mem)) plain.some
  rw [List.flatMap_eq_nil_iff.mpr fun _ _ => rfl, List.nil_append] at note
  exact ⟨note, put, ends⟩

theorem plainAgrees (table : Table) (plain : Plain table.fortune file) : Agrees table.fortune file := by
  obtain ⟨print, _, ends⟩ := plainPrints table.strings plain
  obtain ⟨note, put, endsOutput⟩ := plainWrites table.strings plain
  exact ⟨print, put, note, ends, endsOutput⟩

/-! ### When it is not -/

def Shorter (small big : List Bytes) : Prop := List.Forall₂ (fun small big => (cstring small).length ≤ (cstring big).length) small big

theorem Shorter.refl (fortune : List Bytes) : Shorter fortune fortune := List.forall₂_same.mpr fun _ _ => Nat.le_refl _

theorem Shorter.at (shorter : Shorter small big) (here : small[k]? = some block) :
    (cstring block).length ≤ (cstring (big.getD k [])).length := by
  obtain ⟨less, rfl⟩ := List.getElem?_eq_some_iff.mp here
  have less' : k < big.length := shorter.length_eq ▸ less
  rw [List.getD_eq_getElem?_getD, List.getElem?_eq_getElem less', Option.getD_some]
  exact shorter.get less less'

theorem Shorter.set (shorter : Shorter small big) (here : small[k]? = some block) (less : (cstring s).length ≤ (cstring block).length) :
    Shorter (small.set k s) big := by
  obtain ⟨size, all⟩ := List.forall₂_iff_get.mp shorter
  refine List.forall₂_iff_get.mpr ⟨List.length_set.trans size, fun i low high => ?_⟩
  obtain ⟨room, rfl⟩ := List.getElem?_eq_some_iff.mp here
  rw [List.length_set] at low
  have before := all i low high
  rw [List.get_eq_getElem] at before ⊢
  rw [List.getElem_set]
  split
  · rename_i same
    subst same
    exact less.trans before
  · exact before

theorem cstringAt (nul : s[k]? = some 0) : (cstring s).length ≤ k := by
  induction s generalizing k with
  | nil => cases nul
  | cons c s ih =>
    by_cases zero : c = 0
    · rw [zero, cstringNul]
      exact Nat.zero_le k
    · rw [cstringCons zero, List.length_cons]
      cases k with
      | zero => exact absurd (Option.some.inj nul) zero
      | succ k => exact Nat.succ_le_succ (ih nul)

theorem entryDone (ok : (entry fortune i).result = .ok block) : 0 ≤ i ∧ fortune[i.toNat]? = some block := by
  unfold entry at ok
  rw [leaveBind] at ok
  split at ok
  · cases ok
  · rename_i low
    refine ⟨Int.not_lt.mp low, ?_⟩
    split at ok
    · cases ok
    · rename_i here
      cases ok
      exact here

theorem textDone (ok : (text fortune i).result = .ok s) : 0 ≤ i ∧ ∃ block, fortune[i.toNat]? = some block ∧ cstring block = s := by
  unfold text at ok
  obtain ⟨block, here, ok, _⟩ := bindDone ok
  obtain ⟨low, here⟩ := entryDone here
  exact ⟨low, block, here, (stringIff.mp ok).2⟩

theorem cutDone {len : Int} (ok : (cut fortune i len).result = .ok small) : ∃ block, fortune[i.toNat]? = some block ∧
    0 ≤ len - 2 ∧ small = fortune.set i.toNat (block.set (len - 2).toNat 0) ∧ (cstring (block.set (len - 2).toNat 0)).length ≤ (len - 2).toNat := by
  unfold cut at ok
  obtain ⟨block, here, ok, _⟩ := bindDone ok
  split at ok
  · rename_i room
    cases ok
    refine ⟨block, (entryDone here).2, room.1, rfl, cstringAt ?_⟩
    rw [List.getElem?_set_self (by omega)]
  · cases ok

theorem accessPrinted {α β : Type} {x : Prog α} {f : α → Prog β} {a : α} (access : x.trace = [.access i]) (ok : x.result = .ok a) :
    printed (x >>= f).trace = printed (f a).trace := by
  rw [bindTrace ok, access]
  rfl

/-- What the line prints is no longer than its entry; and shorter if it has no newline. -/
theorem lineShort (mem : buf ∈ lines file) (shorter : Shorter small big) (ok : (batchLine big.length small buf).result = .ok (small', counts)) :
    Shorter small' big ∧ atoi buf ≠ 0 ∧ counts = inTable big buf ∧
    (printed (batchLine big.length small buf).trace).length ≤ (entryText big buf).length ∧
    ((printed (batchLine big.length small buf).trace).length = (entryText big buf).length →
      InTable big.length (atoi buf) → endsLine buf = .ok true) := by
  unfold batchLine entryText inTable at *
  dsimp only at ok ⊢
  split at ok
  · rename_i out
    cases ok
    have outside : ¬ InTable big.length (atoi buf) := by
      unfold InTable
      omega
    rw [if_pos out, if_neg outside, decide_eq_false outside]
    exact ⟨shorter, by omega, rfl, by simp [printed, Event.printed, leaveBind, pureRun], fun _ inside => absurd inside outside⟩
  · rename_i low
    rw [if_neg low]
    obtain ⟨last, ends, same, ok⟩ := liftDone ok
    rw [same]
    cases last with
    | true =>
      obtain ⟨s, read, ok, _⟩ := bindDone ok
      obtain ⟨positive, block, here, string⟩ := textDone read
      cases ok
      have inside : InTable big.length (atoi buf) := ⟨by omega, by omega⟩
      have longer := shorter.at here
      rw [if_pos rfl, accessPrinted (textTrace _ _) read, if_pos inside, decide_eq_true inside, if_pos (newlineLast mem ends)]
      refine ⟨shorter, by omega, rfl, ?_, fun _ _ => ends⟩
      rw [List.length_append, ← string]
      simp only [printed, Event.printed, leaveBind, pureRun, List.flatMap_cons, List.flatMap_nil, List.append_nil, List.length_append]
      omega
    | false =>
      obtain ⟨s, read, ok, _⟩ := bindDone ok
      obtain ⟨mid, cutOk, ok, _⟩ := bindDone ok
      obtain ⟨s', read', ok, _⟩ := bindDone ok
      cases ok
      obtain ⟨positive, block, here, string⟩ := textDone read
      obtain ⟨block', here', room, stored, short⟩ := cutDone cutOk
      cases here.symm.trans here'
      have inside : InTable big.length (atoi buf) := ⟨by omega, by omega⟩
      have longer := shorter.at here
      have less := (List.getElem?_eq_some_iff.mp here).1
      -- two bytes at the least are gone
      have fewer : (cstring (block.set ((s.length : Int) - 2).toNat 0)).length + 2 ≤ (cstring block).length := by
        rw [string]
        omega
      obtain ⟨_, cutBlock, there, string'⟩ := textDone read'
      rw [stored, List.getElem?_set_self less] at there
      cases there
      rw [if_neg Bool.false_ne_true, accessPrinted (textTrace _ _) read, accessPrinted (cutTrace _ _ _) cutOk, accessPrinted (textTrace _ _) read',
        if_pos inside, decide_eq_true inside, stored]
      have size : (printed (leave (.print s') >>= fun _ => (pure (small.set (atoi buf - 1).toNat (block.set ((s.length : Int) - 2).toNat 0), true) : Prog _)).trace).length =
          s'.length := congrArg List.length (List.append_nil s')
      rw [size, ← string', List.length_append]
      exact ⟨shorter.set here (by omega), by omega, rfl, by omega, fun same => by omega⟩

theorem loopShort (mem : ∀ buf ∈ texts, buf ∈ lines file) (shorter : Shorter small big) (ok : (batchLoop (batchLine big.length) small c texts).result = .ok c') :
    (∀ buf ∈ texts, atoi buf ≠ 0) ∧ c' = c + texts.countP (inTable big) ∧
    (printed (batchLoop (batchLine big.length) small c texts).trace).length ≤ (texts.flatMap (entryText big)).length ∧
    ((printed (batchLoop (batchLine big.length) small c texts).trace).length = (texts.flatMap (entryText big)).length →
      ∀ buf ∈ texts, InTable big.length (atoi buf) → endsLine buf = .ok true) := by
  induction texts generalizing small c with
  | nil =>
    cases ok
    exact ⟨nofun, rfl, Nat.le_refl _, fun _ buf mem => by cases mem⟩
  | cons buf texts ih =>
    unfold batchLoop at ok ⊢
    obtain ⟨⟨mid, counts⟩, here, later, trace⟩ := bindDone ok
    obtain ⟨shorter', number, counted, short, newline⟩ := lineShort (mem buf List.mem_cons_self) shorter here
    obtain ⟨numbers, total, short', newlines⟩ := ih (fun buf inside => mem buf (List.mem_cons_of_mem _ inside)) shorter' later
    have both : ∀ xs ys : List Event, printed (xs ++ ys) = printed xs ++ printed ys := fun _ _ => List.flatMap_append
    dsimp only at total short' newlines trace later
    rw [trace, both, List.length_append, List.flatMap_cons, List.length_append]
    refine ⟨?_, ?_, by omega, fun same => ?_⟩
    · exact List.forall_mem_cons.mpr ⟨number, numbers⟩
    · rw [total, counted, List.countP_cons]
      split <;> omega
    · exact List.forall_mem_cons.mpr ⟨newline (by omega), newlines (by omega)⟩

theorem agreesPlain (agrees : Agrees fortune file) : Plain fortune file := by
  by_cases none : lines file = []
  · refine ⟨fun l mem => ?_, fun l mem => ?_, .inl none⟩ <;> rw [none] at mem <;> cases mem
  have ends := agrees.ends
  have print := agrees.print
  unfold status at ends
  unfold report at print
  rw [if_neg none] at ends print
  unfold batchMode batch at ends print
  obtain ⟨c, loop, last, trace⟩ := bindDone ends
  obtain ⟨numbers, total, _, newlines⟩ := loopShort (fun _ mem => mem) (.refl fortune) loop
  rw [Nat.zero_add] at total
  split at last
  · cases last
  · rename_i some
    rw [trace, if_neg some, pureRun, List.append_nil, List.append_nil] at print
    refine ⟨numbers, newlines (congrArg List.length print), .inr ?_⟩
    obtain ⟨l, mem, inside⟩ := List.countP_pos_iff.mp (show 0 < (lines file).countP (inTable fortune) by omega)
    exact ⟨l, mem, of_decide_eq_true inside⟩

/-- A line without its newline has its fortune cut for `stdout` alone, a line with 0 takes
what stands before the table, and a file in which no number is valid counts as empty. -/
theorem batchAgrees (table : Table) (file : Bytes) : Agrees table.fortune file ↔ Plain table.fortune file :=
  ⟨agreesPlain, plainAgrees table⟩

/-- A file of one line that has no newline, and one whose only number is too great. -/
theorem lastLineCut : printed (batchMode 1 [ascii "hi\n\x00"] (ascii "1")).trace = ascii "h" ∧
    written (batchOutput 1 [ascii "hi\n\x00"] (ascii "1")).trace = ascii "hi\n" ∧
    printed (batchOutput 1 [ascii "hi\n\x00"] (ascii "7\n")).trace = emptyBatch ∧
    ¬ ∀ (table : Table) (file : Bytes), Agrees table.fortune file := by
  have cuts : printed (batchMode 1 [ascii "hi\n\x00"] (ascii "1")).trace = ascii "h" := by decide +kernel
  refine ⟨cuts, by decide +kernel, by decide +kernel, fun all => ?_⟩
  have agrees := all ⟨[ascii "hi\n\x00"], by decide +kernel⟩ (ascii "1")
  have print : ascii "h" = _ := cuts.symm.trans agrees.print
  revert print
  decide +kernel

end OpSys.Fortune
