import Mathlib.Data.List.TakeWhile

/-! C strings in a buffer, and `strtok`: a token ends at the first delimiter after it,
which is overwritten with a NUL, or at the end of the string. -/
namespace OpSys.Strtok

abbrev Bytes := List UInt8

/-- The string that starts here: what stands before the first NUL. -/
def cstring (s : Bytes) : Bytes := s.takeWhile (· != 0)

def words (delim : UInt8 → Bool) (s : Bytes) : List Bytes := ((cstring s).splitOnP delim).filter fun w => !w.isEmpty

def inToken (delim : UInt8 → Bool) (c : UInt8) : Bool := !delim c && c != 0

/-- One call: the token, the bytes it passes over as it leaves them, and the place where
the next call goes on. Without a token nothing is written. -/
def strtok (delim : UInt8 → Bool) (s : Bytes) : Option (Bytes × Bytes × Bytes) :=
  let lead := s.takeWhile delim
  let rest := s.dropWhile delim
  let token := rest.takeWhile (inToken delim)
  if token = [] then none
  else match rest.dropWhile (inToken delim) with
    | [] => some (token, lead ++ token, [])
    | c :: after => if c = 0 then some (token, lead ++ token, c :: after) else some (token, lead ++ token ++ [0], after)

def tokens (delim : UInt8 → Bool) : Nat → Bytes → List Bytes × Bytes
  | 0, s => ([], s)
  | n + 1, s => match strtok delim s with
    | none => ([], s)
    | some (token, passed, rest) =>
      let (ts, s) := tokens delim n rest
      (token :: ts, passed ++ s)

variable {delim : UInt8 → Bool} {s token : Bytes} {c : UInt8}

theorem cstringCons (some : c ≠ 0) : cstring (c :: s) = c :: cstring s := by
  unfold cstring
  rw [List.takeWhile_cons_of_pos (by simpa using some)]

theorem cstringNul : cstring (0 :: s) = [] := List.takeWhile_cons_of_neg (by decide)

theorem wordsNil : words delim [] = [] := rfl

theorem wordsNul : words delim (0 :: s) = [] := by
  unfold words
  rw [cstringNul]
  rfl

theorem wordsDelim (nul : delim 0 = false) (mem : delim c = true) : words delim (c :: s) = words delim s := by
  have some : c ≠ 0 := by
    rintro rfl
    rw [nul] at mem
    cases mem
  unfold words
  rw [cstringCons some, List.splitOnP_cons_eq_if_modifyHead, if_pos mem]
  rfl

theorem wordsLead {lead : Bytes} (nul : delim 0 = false) (all : ∀ c ∈ lead, delim c = true) : words delim (lead ++ s) = words delim s := by
  induction lead with
  | nil => rfl
  | cons c rest ih =>
    rw [List.cons_append, wordsDelim nul (all c List.mem_cons_self)]
    exact ih fun c mem => all c (List.mem_cons_of_mem _ mem)

theorem cstringToken (all : ∀ c ∈ token, inToken delim c = true) : cstring (token ++ s) = token ++ cstring s := by
  induction token with
  | nil => rfl
  | cons c rest ih =>
    have some : c ≠ 0 := by
      have here := all c List.mem_cons_self
      unfold inToken at here
      simpa using (Bool.and_eq_true_iff.mp here).2
    rw [List.cons_append, cstringCons some, ih fun c mem => all c (List.mem_cons_of_mem _ mem)]
    rfl

theorem keepWord (some : token ≠ []) (ws : List Bytes) : (token :: ws).filter (fun w => !w.isEmpty) = token :: ws.filter fun w => !w.isEmpty := by
  have shown : (!token.isEmpty) = true := by simpa using some
  simp [shown]

theorem wordsToken (nul : delim 0 = false) (some : token ≠ []) (all : ∀ c ∈ token, inToken delim c = true)
    (ends : ∀ c r, s = c :: r → inToken delim c = false) : words delim (token ++ s) = token :: words delim s := by
  have inner : ∀ c ∈ token, delim c = false := fun c mem => by
    have here := all c mem
    unfold inToken at here
    simpa using (Bool.and_eq_true_iff.mp here).1
  have last : words delim token = [token] := by
    unfold words
    have whole := cstringToken (s := []) all
    rw [List.append_nil] at whole
    rw [whole, show cstring [] = [] from rfl, List.append_nil, List.splitOnP_eq_singleton inner, keepWord some]
    rfl
  cases s with
  | nil => rw [List.append_nil, last, wordsNil]
  | cons c r =>
    have stop := ends c r rfl
    by_cases zero : c = 0
    · subst c
      unfold words at last ⊢
      rw [cstringToken all, cstringNul, List.append_nil, List.splitOnP_eq_singleton inner, keepWord some]
      rfl
    · have mem : delim c = true := by
        unfold inToken at stop
        simpa [zero] using stop
      rw [wordsDelim nul mem]
      unfold words
      rw [cstringToken all, cstringCons zero, List.splitOnP_append_cons_of_forall_mem inner c mem, keepWord some]

inductive Finds (delim : UInt8 → Bool) (s : Bytes) : Option (Bytes × Bytes × Bytes) → Prop where
  | nothing (absent : words delim s = []) : Finds delim s none
  | token {lead token rest : Bytes} (full : token ≠ []) (delims : ∀ c ∈ lead, delim c = true)
      (inner : ∀ c ∈ token, inToken delim c = true) (found : words delim s = token :: words delim rest)
      (shorter : rest.length < s.length) (ends : rest = [] ∨ ∃ r, rest = 0 :: r) : Finds delim s (some (token, lead ++ token, rest))
  | cut {lead token rest : Bytes} (full : token ≠ []) (delims : ∀ c ∈ lead, delim c = true)
      (inner : ∀ c ∈ token, inToken delim c = true) (found : words delim s = token :: words delim rest)
      (shorter : rest.length < s.length) : Finds delim s (some (token, lead ++ token ++ [0], rest))

theorem strtokFinds (nul : delim 0 = false) (s : Bytes) : Finds delim s (strtok delim s) := by
  have delims : ∀ c ∈ s.takeWhile delim, delim c = true := fun c mem => List.mem_takeWhile_imp mem
  have skipped : words delim s = words delim (s.dropWhile delim) := by
    have both := wordsLead (s := s.dropWhile delim) nul delims
    rwa [List.takeWhile_append_dropWhile] at both
  have first : ∀ c r, s.dropWhile delim = c :: r → delim c = false := by
    intro c r eq
    have head := List.head?_dropWhile_not delim s
    rw [eq] at head
    simpa using head
  have size := congrArg List.length (List.takeWhile_append_dropWhile (p := delim) (l := s))
  unfold strtok
  dsimp only
  generalize s.dropWhile delim = rest at *
  have inner : ∀ c ∈ rest.takeWhile (inToken delim), inToken delim c = true := fun c mem => List.mem_takeWhile_imp mem
  have whole := List.takeWhile_append_dropWhile (p := inToken delim) (l := rest)
  have stops : ∀ c r, rest.dropWhile (inToken delim) = c :: r → inToken delim c = false := by
    intro c r eq
    have head := List.head?_dropWhile_not (inToken delim) rest
    rw [eq] at head
    simpa using head
  generalize rest.takeWhile (inToken delim) = token at *
  generalize rest.dropWhile (inToken delim) = after at *
  subst whole
  rw [List.length_append, List.length_append] at size
  split
  · rename_i empty
    subst empty
    refine .nothing ?_
    rw [skipped, List.nil_append]
    cases after with
    | nil => exact wordsNil
    | cons c r =>
      have stop := stops c r rfl
      unfold inToken at stop
      rw [first c r rfl] at stop
      have zero : c = 0 := by simpa using stop
      rw [zero]
      exact wordsNul
  · rename_i some
    have found := skipped.trans (wordsToken nul some inner stops)
    have long := List.length_pos_iff.mpr some
    cases after with
    | nil => exact .token some delims inner found (by simp at size ⊢; omega) (.inl rfl)
    | cons c r =>
      rw [List.length_cons] at size
      dsimp only
      split
      · rename_i zero
        subst c
        exact .token some delims inner found (by rw [List.length_cons]; omega) (.inr ⟨r, rfl⟩)
      · rename_i nonzero
        have mem : delim c = true := by
          have stop := stops c r rfl
          unfold inToken at stop
          simpa [nonzero] using stop
        rw [wordsDelim nul mem] at found
        exact .cut some delims inner found (by omega)

theorem tokensEnd (nul : delim 0 = false) (n : Nat) (r : Bytes) : (tokens delim n (0 :: r)).2 = 0 :: r := by
  have none : strtok delim (0 :: r) = .none := by
    have rest : (0 :: r).dropWhile delim = 0 :: r := List.dropWhile_cons_of_neg (by simp [nul])
    have token : (0 :: r).takeWhile (inToken delim) = [] := List.takeWhile_cons_of_neg (by simp [inToken])
    unfold strtok
    dsimp only
    rw [rest, token, if_pos rfl]
  cases n with
  | zero => rfl
  | succ n =>
    unfold tokens
    rw [none]

theorem wordsPassed {lead tail : Bytes} (nul : delim 0 = false) (full : token ≠ []) (delims : ∀ c ∈ lead, delim c = true)
    (inner : ∀ c ∈ token, inToken delim c = true) (ends : tail = [] ∨ ∃ r, tail = 0 :: r) :
    words delim (lead ++ token ++ tail) = [token] := by
  rw [List.append_assoc, wordsLead nul delims, wordsToken nul full inner]
  · rcases ends with rfl | ⟨r, rfl⟩
    · rw [wordsNil]
    · rw [wordsNul]
  · intro c r eq
    rcases ends with rfl | ⟨r, rfl⟩
    · cases eq
    · cases eq
      unfold inToken
      simp

theorem tokensSpec (nul : delim 0 = false) {n : Nat} {s : Bytes} (long : s.length ≤ n) :
    (tokens delim n s).1 = words delim s ∧ words delim (tokens delim n s).2 = (words delim s).take 1 := by
  induction n generalizing s with
  | zero =>
    obtain rfl := List.length_eq_zero_iff.mp (Nat.le_zero.mp long)
    exact ⟨rfl, rfl⟩
  | succ n ih =>
    have finds := strtokFinds nul s
    unfold tokens
    cases found : strtok delim s with
    | none =>
      rw [found] at finds
      cases finds with
      | nothing absent =>
        dsimp only
        rw [absent]
        exact ⟨rfl, rfl⟩
    | some x =>
      obtain ⟨token, passed, rest⟩ := x
      rw [found] at finds
      dsimp only
      cases finds with
      | @token lead _ _ full delims inner words shorter ends =>
        obtain ⟨later, _⟩ := ih (s := rest) (by omega)
        have still : (tokens delim n rest).2 = rest := by
          rcases ends with rfl | ⟨r, rfl⟩
          · cases n <;> rfl
          · exact tokensEnd nul n r
        rw [later, words, still, wordsPassed nul full delims inner ends]
        exact ⟨rfl, rfl⟩
      | @cut lead _ _ full delims inner words shorter =>
        obtain ⟨later, _⟩ := ih (s := rest) (by omega)
        rw [later, words, List.append_assoc (lead ++ token), List.singleton_append, wordsPassed nul full delims inner (.inr ⟨_, rfl⟩)]
        exact ⟨rfl, rfl⟩

theorem tokensInner (nul : delim 0 = false) (n : Nat) (s : Bytes) : ∀ w ∈ (tokens delim n s).1, w ≠ [] ∧ ∀ c ∈ w, inToken delim c = true := by
  induction n generalizing s with
  | zero => exact fun w mem => by cases mem
  | succ n ih =>
    have finds := strtokFinds nul s
    unfold tokens
    cases found : strtok delim s with
    | none => exact fun w mem => by cases mem
    | some x =>
      obtain ⟨token, passed, rest⟩ := x
      rw [found] at finds
      have here : token ≠ [] ∧ ∀ c ∈ token, inToken delim c = true := by
        cases finds with
        | token full _ inner => exact ⟨full, inner⟩
        | cut full _ inner => exact ⟨full, inner⟩
      intro w mem
      rcases List.mem_cons.mp mem with rfl | mem
      · exact here
      · exact ih rest w mem

theorem wordsInner (nul : delim 0 = false) (s : Bytes) : ∀ w ∈ words delim s, w ≠ [] ∧ ∀ c ∈ w, inToken delim c = true := by
  rw [← (tokensSpec nul le_rfl).1]
  exact tokensInner nul s.length s

/-- Words with a delimiter between them are the words of what they make. -/
theorem wordsJoined (nul : delim 0 = false) (mem : delim c = true) {ws : List Bytes} (inner : ∀ w ∈ ws, w ≠ [] ∧ ∀ c ∈ w, inToken delim c = true) :
    words delim ([c].intercalate ws) = ws := by
  induction ws with
  | nil => rfl
  | cons w ws ih =>
    obtain ⟨full, all⟩ := inner w List.mem_cons_self
    have later := ih fun w mem => inner w (List.mem_cons_of_mem _ mem)
    cases ws with
    | nil =>
      have last := wordsToken (s := []) nul full all (fun _ _ eq => by cases eq)
      rw [List.append_nil, wordsNil] at last
      rwa [List.intercalate_singleton]
    | cons w' ws =>
      have stops : inToken delim c = false := by
        unfold inToken
        rw [mem]
        rfl
      rw [List.intercalate_cons_cons, List.append_assoc, wordsToken nul full all, List.singleton_append, wordsDelim nul mem, later]
      intro c' r eq
      cases eq
      exact stops

theorem wordsCstring (s : Bytes) : words delim (cstring s) = words delim s := by
  unfold words
  rw [show cstring (cstring s) = cstring s from List.takeWhile_idem]

end OpSys.Strtok
