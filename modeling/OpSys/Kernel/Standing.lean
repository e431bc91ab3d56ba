import OpSys.Kernel.Holders

/-! What a step leaves of the files, the pipes and the places where the processes are. -/
namespace OpSys.Files
open Function OpSys.Transition OpSys.Handles
open OpSys.Cow (Pipe Word)
open OpSys.Pipes (Call Chan Out Bytes)

variable {P : Type*} [DecidableEq P] [Fintype P] {s s' : State P} {i j : P} {a : Act P} {o : Output P} {f g : FileId} {fd : Fd} {m : Page} {w : Bool} {k : Call} {file file' : FileId → File}
  {page : Option (Page × (Nat → UInt8))} {jobs new : List Job} {r : Option Int} {ofile : Fd → Option FileId} {pipes : Page → Option Pipe}

/-! ### What holds in every state -/

def SameKind (f g : File) : Prop := g.type = f.type ∧ g.readable = f.readable ∧ g.writable = f.writable

theorem SameKind.trans {f g h : File} (first : SameKind f g) (second : SameKind g h) : SameKind f h :=
  ⟨second.1.trans first.1, second.2.1.trans first.2.1, second.2.2.trans first.2.2⟩

theorem setRefKind (file : FileId → File) (f g : FileId) (n : Nat) : SameKind (file g) (setRef file f n g) := by
  obtain ⟨r, same⟩ := setRefElse file f g n
  rw [same]
  exact ⟨rfl, rfl, rfl⟩

theorem soundRef {n : Nat} (h : ∀ g, Sound (file g)) (some : 0 < n) (blank : (file f).type = .none → n ≤ 1) (g : FileId) : Sound (setRef file f n g) := by
  unfold setRef
  by_cases same : g = f
  · rw [same, update_self]
    exact ⟨blank, fun none => absurd none some.ne', (h f).ways⟩
  · rw [update_of_ne same]
    exact h g

theorem soundPut {new : File} (h : ∀ g, Sound (file g)) (here : Sound new) (g : FileId) : Sound (update file f new g) := by
  by_cases same : g = f
  · rw [same, update_self]
    exact here
  · rw [update_of_ne same]
    exact h g

theorem kindPut (new : File) (other : g ≠ f) : SameKind (file g) (update file f new g) := by
  rw [update_of_ne other]
  exact ⟨rfl, rfl, rfl⟩

theorem soundGone (f : File) : Sound f.gone := ⟨fun _ => Nat.zero_le 1, fun _ => rfl, nofun⟩

theorem soundInode {f : File} (some : 0 < f.ref) (ip : Nat) (r w : Bool) : Sound (f.toInode ip r w) := ⟨nofun, fun none => absurd none some.ne', nofun⟩

theorem soundPipe {f : File} (some : 0 < f.ref) (m : Page) (w : Bool) : Sound (f.toPipe m w) := ⟨nofun, fun none => absurd none some.ne', fun _ _ => rfl⟩

theorem stepSound (h : Fits s) (steps : Steps s i o s') (g : FileId) : Sound (s'.file g) := by
  cases steps with
  | stay | turn | gives | shuts | runs | forks | born | kills | reaps => exact h.sound g
  | alloc free wants => exact soundRef h.sound Nat.one_pos (fun _ => le_rfl) g
  | dup idle here free => exact soundRef h.sound (Nat.succ_pos _) (fun none => absurd none (h.shown i _ _ here)) g
  | child fits forking here => exact soundRef h.sound (Nat.succ_pos _) (fun none => absurd none (h.shown i _ _ here)) g
  | drops closing more => exact soundRef h.sound (Nat.sub_pos_of_lt more) (fun none => (Nat.sub_le _ 1).trans ((h.sound _).blank none)) g
  | last closing one => exact soundPut h.sound (soundGone _) g
  | @opens f ip r w fd opening free =>
    have some := h.hand (i := i) (f := f) (by rw [opening]; exact List.mem_singleton_self f)
    exact soundPut h.sound (soundInode some ip r w) g
  | @pipes rf wf m data piping absent | @piped rf wf m data fd0 fd1 piping absent free0 free1 =>
    have some0 := h.hand (i := i) (f := rf) (by rw [piping]; exact List.mem_cons_self)
    have some1 := h.hand (i := i) (f := wf) (by rw [piping]; exact List.mem_cons_of_mem _ (List.mem_singleton_self wf))
    exact soundPut (soundPut h.sound (soundPipe some0 m false)) (soundPipe (by rwa [setPipeRef]) m true) g

omit [Fintype P] in
theorem stepKeeps (steps : Steps s i o s') (g : FileId) : SameKind (s.file g) (s'.file g) ∨ g ∈ fresh (s.phase i) ∨ (s'.file g).ref = 0 := by
  cases steps with
  | stay | turn | gives | shuts | runs | forks | born | kills | reaps => exact .inl ⟨rfl, rfl, rfl⟩
  | alloc | dup | child | drops => exact .inl (setRefKind s.file _ g _)
  | @last f rest r closing one =>
    by_cases same : g = f
    · exact .inr (.inr ((lastRef s.file f g).trans (if_pos same)))
    · exact .inl (kindPut _ same)
  | @opens f ip r w fd opening free =>
    by_cases same : g = f
    · exact .inr (.inl (by rw [opening, same]; exact List.mem_singleton_self f))
    · exact .inl (kindPut _ same)
  | @pipes rf wf m data piping absent | @piped rf wf m data fd0 fd1 piping absent free0 free1 =>
    by_cases read : g = rf
    · exact .inr (.inl (by rw [piping, read]; exact List.mem_cons_self))
    · by_cases write : g = wf
      · exact .inr (.inl (by rw [piping, write]; exact List.mem_cons_of_mem _ (List.mem_singleton_self wf)))
      · exact .inl ((kindPut _ read).trans (kindPut _ write))

/-- What a descriptor stands for stays the same as long as a process has it. -/
theorem keepsShown (h : Fits s) (steps : Steps s i o s') (before : s.ofile j fd = some f) (now : s'.ofile j fd = some f) : SameKind (s.file f) (s'.file f) := by
  rcases stepKeeps steps f with same | mem | none
  · exact same
  · exact absurd (h.freshType mem) (h.shown j fd f before)
  · have counted := stepCounted h.counted h.standing steps
    have some : 0 < (books s').ref f := counted.held (k := j) (Nat.add_pos_left (tallyPos.mpr ⟨fd, now⟩) _)
    exact absurd none some.ne'

theorem leadsSame {f g : File} (same : SameKind f g) : leads g = leads f := by
  unfold leads
  rw [same.1, same.2.2]

omit [Fintype P] in
theorem ofilePut (ofile : P → Fd → Option FileId) (i : P) (fd : Fd) (v : Option FileId) (j : P) (fd' : Fd) :
    update ofile i (update (ofile i) fd v) j fd' = if j = i ∧ fd' = fd then v else ofile j fd' := by
  by_cases party : j = i
  · subst party
    rw [update_self]
    by_cases same : fd' = fd
    · rw [same, update_self, if_pos ⟨rfl, rfl⟩]
    · rw [update_of_ne same, if_neg fun bad => same bad.2]
  · rw [update_of_ne party, if_neg fun bad => party bad.1]

theorem stepShown (h : Fits s) (steps : Steps s i o s') (shown : s'.ofile j fd = some f) : (s'.file f).type ≠ .none := by
  have kept : s.ofile j fd = some f → (s'.file f).type ≠ .none := fun before => by
    rw [(keepsShown h steps before shown).1]
    exact h.shown j fd f before
  cases steps with
  | stay | turn | shuts | runs | forks | born | kills | reaps | alloc | drops | last | pipes => exact kept shown
  | gives why here =>
    dsimp only at shown
    rw [ofilePut] at shown
    split at shown
    · cases shown
    · exact kept shown
  | dup idle here free =>
    dsimp only at shown
    rw [ofilePut] at shown
    split at shown
    · cases shown
      exact fun bad => h.shown i _ f here ((setRefKind s.file f f _).1.symm.trans bad)
    · exact kept shown
  | child fits forking here =>
    dsimp only at shown
    rw [ofilePut] at shown
    split at shown
    · cases shown
      exact fun bad => h.shown i _ f here ((setRefKind s.file f f _).1.symm.trans bad)
    · exact kept shown
  | opens opening free =>
    dsimp only at shown
    rw [ofilePut] at shown
    split at shown
    · cases shown
      exact fun bad => nomatch (congrArg File.type (update_self f _ s.file)).symm.trans bad
    · exact kept shown
  | @piped rf wf m data fd0 fd1 piping absent free0 free1 =>
    by_cases party : j = i
    · subst party
      dsimp only at shown
      rw [update_self] at shown
      by_cases write : fd = fd1
      · rw [write, update_self] at shown
        cases shown
        exact fun bad => nomatch (pipedType s.file m (h.apart piping)).2.symm.trans bad
      · rw [update_of_ne write] at shown
        by_cases read : fd = fd0
        · rw [read, update_self] at shown
          cases shown
          exact fun bad => nomatch (pipedType s.file m (h.apart piping)).1.symm.trans bad
        · rw [update_of_ne read] at shown
          exact kept shown
    · dsimp only at shown
      rw [update_of_ne party] at shown
      exact kept shown

theorem stepPages (h : Fits s) (steps : Steps s i o s') {p : Pipe} (here : s'.pipes m = some p) :
    (p.readopen = true ∨ p.writeopen = true) ∧ ∃ xs, Pipes.Content p xs := by
  have old : s.pipes m = some p → (p.readopen = true ∨ p.writeopen = true) ∧ ∃ xs, Pipes.Content p xs := h.pages m p
  have made : ∀ m' data, update s.pipes m' (some (pipeinit m' data)) m = some p → (p.readopen = true ∨ p.writeopen = true) ∧ ∃ xs, Pipes.Content p xs := by
    intro m' data new
    by_cases same : m = m'
    · rw [same, update_self] at new
      cases new
      exact ⟨.inl rfl, [], Pipes.freshContent ⟨rfl, rfl, rfl, rfl⟩⟩
    · rw [update_of_ne same] at new
      exact old new
  cases steps with
  | stay | turn | gives | forks | born | kills | reaps | alloc | dup | child | drops | last | opens => exact old here
  | pipes piping absent => exact made _ _ here
  | piped piping absent free0 free1 => exact made _ _ here
  | @shuts m' w rest r p' closing there =>
    dsimp only [section'] at here
    by_cases same : m = m'
    · rw [same, update_self] at here
      unfold kept at here
      split at here
      · cases here
      · rename_i open'
        cases here
        obtain ⟨_, xs, content⟩ := h.pages m' p' there
        refine ⟨?_, xs, ?_⟩
        · rw [not_and_or] at open'
          simpa using open'
        · unfold Pipe.shut
          split <;> exact content
    · rw [update_of_ne same] at here
      exact old here
  | @runs m' k p' sec inside there runs =>
    dsimp only [section'] at here
    by_cases same : m = m'
    · rw [same, update_self] at here
      cases here
      obtain ⟨open', xs, content⟩ := h.pages m' p' there
      have ends := (h.ends inside there runs).1
      obtain ⟨ys, left, _⟩ := Pipes.codeContent content runs
      exact ⟨by rwa [ends.1, ends.2], ys, left⟩
    · rw [update_of_ne same] at here
      exact old here

/-! ### Where the processes are -/

/-- What a step makes of a process that does not take it. -/
inductive Like : Phase P → Phase P → Prop where
  | same {p : Phase P} : Like p p
  | call {m : Page} {c c' : Monitor.Phase Call Chan} (calls : ∀ k, Calls c k → Calls c' k) : Like (.inside m c) (.inside m c')

omit [DecidableEq P] [Fintype P] in
theorem likeWake (m : Page) (wakes : List Chan) (p : Phase P) : Like p (p.wake m wakes) := by
  unfold Phase.wake
  split
  · refine .call fun k calls => ?_
    split
    · rcases calls with rfl | ⟨chan, rfl⟩
      · exact .inl rfl
      · unfold Monitor.Phase.wake
        dsimp only
        split
        · exact .inl rfl
        · exact .inr ⟨chan, rfl⟩
    · exact calls
  · exact .same

omit [DecidableEq P] [Fintype P] in
theorem likeRouse (p : Phase P) : Like p p.rouse := by
  unfold Phase.rouse
  split
  · refine .call fun k calls => ?_
    rcases calls with rfl | ⟨chan, rfl⟩
    · exact .inl rfl
    · exact .inl rfl
  · exact .same

omit [DecidableEq P] [Fintype P] in
theorem Like.embryo {p : Phase P} (h : Like (.embryo i) p) : p = .embryo i := by
  cases h
  rfl

theorem freshKeeps (h : Fits s) (steps : Steps s i o s') (mine : j ≠ i ∨ s'.file = s.file) (mem : f ∈ fresh (s.phase j)) : (s'.file f).type = .none := by
  have blank := h.freshType mem
  rcases mine with other | same
  · rcases stepKeeps steps f with same | also | none
    · exact same.1.trans blank
    · -- no two processes have a file that is not set up
      have share : ∀ l, f ∈ fresh (s.phase l) → 0 < (books s).share l f := fun l mem => by
        refine Nat.add_pos_right _ (List.count_pos_iff.mpr ?_)
        rcases freshHand (s.phase l) with none | same
        · rw [none] at mem
          cases mem
        · rwa [same] at mem
      have none := h.counted.alone ((h.sound f).blank blank) (share i also) other
      exact absurd none (share j mem).ne'
    · exact (stepSound h steps f).gone none
  · rwa [same]

theorem standingKeep (h : Fits s) (steps : Steps s i o s') (mine : j ≠ i ∨ s'.file = s.file) (like : Like (s.phase j) (s'.phase j))
    (ofile : s'.ofile j = s.ofile j) (embryos : ∀ l, s.phase l = .embryo j → s'.phase l = .embryo j ∧ s'.ofile l = s.ofile l) :
    Standing s' j (s'.phase j) := by
  have stands := h.standing j
  have call : ∀ m c c', (∀ k, Calls c k → Calls c' k) → Inside s j m c → Inside s' j m c' := by
    rintro m c c' calls ⟨k, w, fd, f, at', way, here, end'⟩
    have now : s'.ofile j fd = some f := by rwa [ofile]
    exact ⟨k, w, fd, f, calls k at', way, now, (leadsSame (keepsShown h steps here now)).trans end'⟩
  generalize before : s.phase j = p at like stands
  generalize s'.phase j = q at like
  cases like with
  | call calls => exact call _ _ _ calls stands
  | same =>
    have blank : ∀ f ∈ fresh p, (s'.file f).type = .none := fun f mem => freshKeeps h steps mine (by rwa [before])
    cases p with
    | opening f ip r w => exact blank f (List.mem_singleton_self f)
    | piping f => exact blank f (List.mem_singleton_self f)
    | piping2 f g => exact ⟨blank f List.mem_cons_self, blank g (List.mem_cons_of_mem _ (List.mem_singleton_self g))⟩
    | inside m c => exact call m c c (fun k same => same) stands
    | forking l n =>
      obtain ⟨phase, ofile⟩ := embryos l stands.1
      exact ⟨phase, fun fd le => by rw [ofile]; exact stands.2 fd le⟩
    | unused => exact fun fd => by rw [ofile]; exact stands fd
    | zombie => exact fun fd => by rw [ofile]; exact stands fd
    | idle => trivial
    | closing jobs r => trivial
    | exiting => trivial
    | embryo parent => trivial

theorem standingOthers (h : Fits s) (steps : Steps s i o s') (actor : ∀ q, s.phase i ≠ .embryo q) (phase : ∀ l, l ≠ i → Like (s.phase l) (s'.phase l))
    (ofile : ∀ l, l ≠ i → s'.ofile l = s.ofile l) (other : j ≠ i) : Standing s' j (s'.phase j) := by
  refine standingKeep h steps (.inl other) (phase j other) (ofile j other) fun l child => ?_
  have apart : l ≠ i := by
    rintro rfl
    exact actor j child
  have like := phase l apart
  rw [child] at like
  exact ⟨like.embryo, ofile l apart⟩

theorem killedStanding {rouse : Bool} (h : Fits s) (steps : Steps s i o s')
    (same : s' = {s with killed := update s.killed i true, phase := if rouse then update s.phase i (s.phase i).rouse else s.phase}) : Standing s' j (s'.phase j) := by
  have like : ∀ l, Like (s.phase l) (s'.phase l) := fun l => by
    rw [same]
    dsimp only
    split
    · by_cases here : l = i
      · rw [here, update_self]
        exact likeRouse _
      · rw [update_of_ne here]
        exact .same
    · exact .same
  refine standingKeep h steps (.inr (by rw [same])) (like j) (by rw [same]) fun l embryo => ⟨?_, by rw [same]⟩
  have there := like l
  rw [embryo] at there
  exact there.embryo

theorem otherStanding (h : Fits s) (steps : Steps s i o s') (other : j ≠ i) : Standing s' j (s'.phase j) := by
  have all := steps
  have put : ∀ (p : Phase P) l, l ≠ i → Like (s.phase l) (update s.phase i p l) := fun p l other => by
    rw [update_of_ne other]
    exact .same
  cases steps with
  | stay => exact h.standing j
  | alloc free wants => exact standingOthers h all (fun q bad => by rw [bad] at wants; cases wants) (put _) (fun l other => rfl) other
  | turn turns => exact standingOthers h all (fun q bad => by rw [bad] at turns; cases turns) (put _) (fun l other => rfl) other
  | dup idle here free => exact standingOthers h all (fun q bad => nomatch idle.symm.trans bad) (fun l other => .same) (fun l other => update_of_ne other _ _) other
  | gives why here =>
    exact standingOthers h all (fun q bad => by rcases why with why | why <;> cases why.symm.trans bad) (put _) (fun l other => update_of_ne other _ _) other
  | opens opening free => exact standingOthers h all (fun q bad => nomatch opening.symm.trans bad) (put _) (fun l other => update_of_ne other _ _) other
  | pipes piping absent => exact standingOthers h all (fun q bad => nomatch piping.symm.trans bad) (put _) (fun l other => rfl) other
  | piped piping absent free0 free1 =>
    exact standingOthers h all (fun q bad => nomatch piping.symm.trans bad) (put _) (fun l other => update_of_ne other _ _) other
  | drops closing more => exact standingOthers h all (fun q bad => nomatch closing.symm.trans bad) (put _) (fun l other => rfl) other
  | last closing one => exact standingOthers h all (fun q bad => nomatch closing.symm.trans bad) (put _) (fun l other => rfl) other
  | reaps zombie => exact standingOthers h all (fun q bad => nomatch zombie.symm.trans bad) (put _) (fun l other => rfl) other
  | shuts closing here =>
    refine standingOthers h all (fun q bad => nomatch closing.symm.trans bad) (fun l other => ?_) (fun l other => rfl) other
    dsimp only [section']
    rw [update_of_ne other]
    exact likeWake _ _ _
  | runs inside here runs =>
    refine standingOthers h all (fun q bad => nomatch inside.symm.trans bad) (fun l other => ?_) (fun l other => rfl) other
    dsimp only [section']
    rw [update_of_ne other]
    exact likeWake _ _ _
  | @child c n f fits forking here =>
    have waits := h.standing i
    rw [forking] at waits
    by_cases same : j = c
    · dsimp only [State.turn]
      rw [update_of_ne other, same, waits.1]
      trivial
    · refine standingKeep h all (.inl other) (put _ j other) (update_of_ne same _ _) fun l embryo => ?_
      have actor : l ≠ i := by
        rintro rfl
        cases forking.symm.trans embryo
      have apart : l ≠ c := by
        rintro rfl
        exact other (Phase.embryo.inj (embryo.symm.trans waits.1))
      exact ⟨(update_of_ne actor _ _).trans embryo, update_of_ne apart _ _⟩
  | @forks c idle unused =>
    by_cases same : j = c
    · dsimp only
      rw [update_of_ne other, same, update_self]
      trivial
    · refine standingKeep h all (.inl other) ?_ rfl fun l embryo => ?_
      · dsimp only
        rw [update_of_ne other, update_of_ne same]
        exact .same
      · have actor : l ≠ i := by
          rintro rfl
          cases idle.symm.trans embryo
        have apart : l ≠ c := by
          rintro rfl
          cases unused.symm.trans embryo
        exact ⟨(update_of_ne actor _ _).trans ((update_of_ne apart _ _).trans embryo), rfl⟩
  | @born c n forking =>
    have waits := h.standing i
    rw [forking] at waits
    by_cases same : j = c
    · dsimp only
      rw [update_of_ne other, same, update_self]
      trivial
    · refine standingKeep h all (.inl other) ?_ rfl fun l embryo => ?_
      · dsimp only
        rw [update_of_ne other, update_of_ne same]
        exact .same
      · have actor : l ≠ i := by
          rintro rfl
          cases forking.symm.trans embryo
        have apart : l ≠ c := by
          rintro rfl
          exact other (Phase.embryo.inj (embryo.symm.trans waits.1))
        exact ⟨(update_of_ne actor _ _).trans ((update_of_ne apart _ _).trans embryo), rfl⟩
  | @kills rouse => exact killedStanding h all rfl

/-- The process that takes the step. -/
theorem actorStanding (h : Fits s) (steps : Steps s i o s') : Standing s' i (s'.phase i) := by
  have all := steps
  have stands := h.standing i
  cases steps with
  | stay => exact stands
  | @alloc f p free wants =>
    dsimp only [State.turn]
    rw [update_self]
    have blank : (setRef s.file f 1 f).type = .none := (setRefKind s.file f f 1).1.trans ((h.sound f).gone free)
    generalize s.phase i = q at wants stands
    cases wants with
    | open' => exact blank
    | pipe => exact blank
    | pipe2 => exact ⟨(setRefKind s.file f _ 1).1.trans stands, blank⟩
  | @turn p turns =>
    dsimp only [State.turn]
    rw [update_self]
    generalize before : s.phase i = q at turns stands
    cases turns with
    | fails | fails1 | fails2 | returns | next | exit => trivial
    | exited bare => exact bare
    | skips fits none =>
      have apart : ∀ j, s.phase j = .embryo i → j ≠ i := by
        rintro j child rfl
        cases before.symm.trans child
      exact ⟨(update_of_ne (apart _ stands.1) _ _).trans stands.1, fun fd le => stands.2 fd (Nat.le_of_succ_le le)⟩
    | enters here type way able =>
      refine ⟨_, _, _, _, .inl rfl, way, here, ?_⟩
      unfold leads
      dsimp only
      rw [type]
      refine congrArg (fun w => some (_, w)) ?_
      have ways := (h.sound _).ways _ type
      unfold File.able at able
      split at able
      · rename_i write
        rw [write, able]
      · rename_i read
        rw [able] at ways
        simp at read ways
        rw [read, ways]
  | dup idle here free =>
    dsimp only
    rw [idle]
    trivial
  | @child c n f fits forking here =>
    rw [forking] at stands
    have apart : c ≠ i := by
      rintro rfl
      cases forking.symm.trans stands.1
    dsimp only [State.turn]
    rw [update_self]
    refine ⟨(update_of_ne apart _ _).trans stands.1, fun fd le => ?_⟩
    have less : fd ≠ ⟨n, fits⟩ := by
      rintro rfl
      exact absurd le (Nat.not_succ_le_self n)
    dsimp only
    rw [update_self, update_of_ne less]
    exact stands.2 fd (Nat.le_of_succ_le le)
  | gives | opens | pipes | piped | drops | last =>
    dsimp only [State.turn]
    rw [update_self]
    trivial
  | shuts closing here =>
    dsimp only [section']
    rw [update_self]
    trivial
  | @runs m k p sec inside here runs =>
    dsimp only [section']
    rw [update_self]
    obtain ⟨w, fd, f, way, here', end'⟩ := h.call inside
    cases next : sec.next with
    | done => trivial
    | sleep chan k' => exact ⟨k', w, fd, f, .inr ⟨chan, rfl⟩, (h.ends inside here runs).2 w way chan k' next, here', end'⟩
  | @forks c idle unused =>
    have apart : c ≠ i := by
      rintro rfl
      cases idle.symm.trans unused
    have bare := h.standing c
    rw [unused] at bare
    dsimp only
    rw [update_self]
    exact ⟨(update_of_ne apart _ _).trans (update_self _ _ _), fun fd _ => bare fd⟩
  | born forking =>
    dsimp only
    rw [update_self]
    trivial
  | kills => exact killedStanding h all rfl
  | reaps zombie =>
    rw [zombie] at stands
    dsimp only [State.turn]
    rw [update_self]
    exact stands

/-- What holds is kept by every step. -/
theorem stepFits (h : Fits s) (ok : step s a = .ok (s', o)) : Fits s' := by
  have steps := stepSteps ok
  refine ⟨stepCounted h.counted h.standing steps, stepSettled h steps, fun j => ?_, stepSound h steps, fun j fd f => stepShown h steps,
    fun m p => stepPages h steps⟩
  by_cases same : j = a.actor
  · rw [same]
    exact actorStanding h steps
  · exact otherStanding h steps same

end OpSys.Files
