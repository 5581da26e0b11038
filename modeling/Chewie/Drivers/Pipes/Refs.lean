import Chewie.Drivers.Pipes.Runs

/-!
# The users of a pipe

`d_refs`, `d_nwriters` and `d_nreaders` count the open descriptions of a pipe. `Users` records them
beside the pipe: a description is open from the moment `pipecommon_open` counts it, so that those of
calls that still wait for a writer are kept with their task. Here the last close does not end the
run: the counts and the indices are reset, and the pipe can be opened again. When the bytes are kept
instead, the close leaves `d_nwriters` and `d_nreaders` as they are, and they stay wrong.
-/

namespace Chewie.Drivers.Pipes

open Chewie.Sched Function List Option

/-- An open description, by the access it was opened for. -/
structure File where
  wrok : Bool
  rdok : Bool
deriving DecidableEq

/-- A pipe with its open descriptions. -/
structure Users where
  sys : Sys
  files : List File
  /-- The descriptions of unfinished calls of `pipecommon_open`, with the task of the call. -/
  opening : List (Nat × File)

/-- All open descriptions. -/
def Users.all (users : Users) : List File := users.files ++ users.opening.map Prod.snd

/-- The last close when no byte is kept: the buffer is freed and everything is reset. -/
def closeLast (sys : Sys) : Sys :=
  { sys with
    dev := { sys.dev with wrndx := 0, rdndx := 0, refs := 0, nwriters := 0, nreaders := 0 } }

/-- `pipecommon_close`, with the last close. -/
def closeAny (sys : Sys) (file : File) : Sys :=
  (pipecommonClose sys file.wrok file.rdok).getD (closeLast sys)

/-- The description that a task is opening. -/
def opens : Phase → Option File
  | .opening wrok rdok _ => some ⟨wrok, rdok⟩
  | _ => none

/-- One step, with the last close and the record of the descriptions. -/
def useStep (users : Users) : Op → Option Users
  | .open task wrok rdok bfsem =>
    (step users.sys (.open task wrok rdok bfsem)).map fun sys =>
      if bfsem ≠ .ok then { users with sys := sys }
      else if opens (sys.phase task) = none then
        { users with sys := sys, files := ⟨wrok, rdok⟩ :: users.files }
      else { users with sys := sys, opening := (task, ⟨wrok, rdok⟩) :: users.opening }
  | .close task wrok rdok =>
    if users.sys.phase task = .idle then
      some { users with
        sys := closeAny users.sys ⟨wrok, rdok⟩
        files := users.files.erase ⟨wrok, rdok⟩ }
    else none
  | .resume task bfsem =>
    match users.sys.phase task with
    | .opening wrok rdok waited =>
      if (users.sys.kernel.tcb task).taskState = .ready then
        let sys := users.sys.setPhase task .idle
        let opening := users.opening.erase (task, ⟨wrok, rdok⟩)
        if waitError users.sys task waited = .ok then
          some { sys := sys, files := ⟨wrok, rdok⟩ :: users.files, opening := opening }
        else
          some { sys := closeAny sys ⟨wrok, rdok⟩, files := users.files, opening := opening }
      else none
    | _ => (step users.sys (.resume task bfsem)).map fun sys => { users with sys := sys }
  | op => (step users.sys op).map fun sys => { users with sys := sys }

/-- The counts are the numbers of open descriptions, of those for writing and of those for
reading. -/
structure Counts (dev : PipeDev) (all : List File) : Prop where
  refs : dev.refs = all.length
  nwriters : dev.nwriters = all.countP File.wrok
  nreaders : dev.nreaders = all.countP File.rdok

structure Tracked (users : Users) : Prop where
  counts : Counts users.sys.dev users.all
  few : users.all.length < 2 ^ 8
  phases : ∀ task file, (task, file) ∈ users.opening ↔ opens (users.sys.phase task) = some file
  once : users.opening.Nodup

/-- A change of the pipe that no description takes part in. -/
structure Unused (sys after : Sys) : Prop where
  refs : after.dev.refs = sys.dev.refs
  nwriters : after.dev.nwriters = sys.dev.nwriters
  nreaders : after.dev.nreaders = sys.dev.nreaders
  phases : ∀ task, opens (after.phase task) = opens (sys.phase task)

open Unused

section Transfers

variable {sys after last : Sys} {task : Nat}

theorem readLoop_counts (len : Nat) (dev : PipeDev) :
    (readLoop len dev).1.refs = dev.refs ∧ (readLoop len dev).1.nwriters = dev.nwriters ∧
      (readLoop len dev).1.nreaders = dev.nreaders := by
  induction len generalizing dev with
  | zero => exact ⟨rfl, rfl, rfl⟩
  | succ len ih =>
    rw [readLoop]
    split
    · exact ih _
    · exact ⟨rfl, rfl, rfl⟩

theorem writeLoop_counts (data : List UInt8) (dev : PipeDev) :
    (writeLoop data dev).1.refs = dev.refs ∧ (writeLoop data dev).1.nwriters = dev.nwriters ∧
      (writeLoop data dev).1.nreaders = dev.nreaders := by
  induction data generalizing dev with
  | nil => exact ⟨rfl, rfl, rfl⟩
  | cons byte data ih =>
    rw [writeLoop]
    split
    · exact ih _
    · exact ⟨rfl, rfl, rfl⟩

theorem Unused.setPhase (unused : Unused sys after) {phase : Phase}
    (before : opens (sys.phase task) = none) (now : opens phase = none) :
    Unused sys (after.setPhase task phase) := by
  refine ⟨unused.refs, unused.nwriters, unused.nreaders, fun other => ?_⟩
  by_cases same : other = task
  · rw [same, before]
    simp [Sys.setPhase, now]
  · simp only [Sys.setPhase, update_of_ne same]
    exact unused.phases other

theorem Unused.of_eq (unused : Unused sys after) (dev : last.dev = after.dev)
    (phase : last.phase = after.phase) : Unused sys last := by
  refine ⟨?_, ?_, ?_, fun task => ?_⟩
  · rw [dev]
    exact unused.refs
  · rw [dev]
    exact unused.nwriters
  · rw [dev]
    exact unused.nreaders
  · rw [phase]
    exact unused.phases task

theorem Unused.refl (sys : Sys) : Unused sys sys := ⟨rfl, rfl, rfl, fun _ => rfl⟩

section

variable (quiet : opens (sys.phase task) = none)

include quiet

theorem unused_readSection (len : Nat) (nonblock : Bool) :
    Unused sys (readSection sys task len nonblock) := by
  have idle : Unused sys (sys.setPhase task .idle) := (refl sys).setPhase quiet rfl
  rw [readSection]
  split
  · split
    · exact idle.of_eq rfl rfl
    · split
      · exact idle.of_eq rfl rfl
      · exact ((refl sys).setPhase quiet rfl).of_eq rfl rfl
  · obtain ⟨refs, nwriters, nreaders⟩ := readLoop_counts len sys.dev
    have taken : Unused sys { sys with dev := (readLoop len sys.dev).1 } :=
      ⟨refs, nwriters, nreaders, fun _ => rfl⟩
    exact (taken.setPhase quiet rfl).of_eq rfl rfl

theorem unused_writeSection (data : List UInt8) (nwritten : Nat) (nonblock : Bool) :
    Unused sys (writeSection sys task data nwritten nonblock) := by
  obtain ⟨refs, nwriters, nreaders⟩ := writeLoop_counts (data.drop nwritten) sys.dev
  have stored : Unused sys (sys.store task (data.drop nwritten)) :=
    ⟨refs, nwriters, nreaders, fun _ => rfl⟩
  rw [writeSection]
  dsimp only
  split
  · exact (stored.setPhase quiet rfl).of_eq rfl rfl
  · have passed : Unused sys (if 0 < (writeLoop (data.drop nwritten) sys.dev).2 then
        (sys.store task (data.drop nwritten)).notify .rdsem
        else sys.store task (data.drop nwritten)) := by
      split
      · exact stored.of_eq rfl rfl
      · exact stored
    split
    · exact (passed.setPhase quiet rfl).of_eq rfl rfl
    · exact (passed.setPhase quiet rfl).of_eq rfl rfl

theorem unused_read (len : Nat) (nonblock : Bool) (bfsem : Errno) :
    Unused sys (pipecommonRead sys task len nonblock bfsem) := by
  have idle : Unused sys (sys.setPhase task .idle) := (refl sys).setPhase quiet rfl
  rw [pipecommonRead]
  split
  · exact idle.of_eq rfl rfl
  · split
    · exact idle.of_eq rfl rfl
    · exact unused_readSection quiet len nonblock

theorem unused_write (data : List UInt8) (nonblock : Bool) (bfsem : Errno) :
    Unused sys (pipecommonWrite sys task data nonblock bfsem) := by
  have idle : Unused sys (sys.setPhase task .idle) := (refl sys).setPhase quiet rfl
  rw [pipecommonWrite]
  split
  · exact idle.of_eq rfl rfl
  · split
    · exact idle.of_eq rfl rfl
    · split
      · exact idle.of_eq rfl rfl
      · exact unused_writeSection quiet data 0 nonblock

theorem unused_resume {bfsem : Errno} (resumed : resume sys task bfsem = some after) :
    Unused sys after := by
  have idle : Unused sys (sys.setPhase task .idle) := (refl sys).setPhase quiet rfl
  rw [resume] at resumed
  split at resumed
  · cases resumed
  · rename_i waits
    rw [waits] at quiet
    cases quiet
  · split at resumed
    · cases resumed
      exact idle.of_eq rfl rfl
    · split at resumed
      · cases resumed
        exact idle.of_eq rfl rfl
      · cases resumed
        exact unused_readSection quiet _ false
  · split at resumed
    · cases resumed
      exact ((refl sys).setPhase quiet rfl).of_eq rfl rfl
    · cases resumed
      exact unused_writeSection quiet _ _ false

end

end Transfers

section Steps

variable {users : Users} {sys : Sys} {file : File}

theorem Tracked.unused (tracked : Tracked users) {after : Sys} (unused : Unused users.sys after) :
    Tracked { users with sys := after } := by
  have counts := tracked.counts
  refine ⟨⟨unused.refs.trans counts.refs, unused.nwriters.trans counts.nwriters,
    unused.nreaders.trans counts.nreaders⟩, tracked.few, fun task file => ?_, tracked.once⟩
  rw [unused.phases task]
  exact tracked.phases task file

theorem Counts.perm {dev : PipeDev} {all other : List File} (counts : Counts dev all)
    (same : other.Perm all) : Counts dev other :=
  ⟨counts.refs.trans same.length_eq.symm, counts.nwriters.trans (same.countP_eq _).symm,
    counts.nreaders.trans (same.countP_eq _).symm⟩

theorem count_up {all : List File} (few : all.length + 1 < 2 ^ 8) (file : File)
    (access : File → Bool) :
    (if access file then (all.countP access + 1) % 2 ^ 8 else all.countP access) =
      (file :: all).countP access := by
  have low : all.countP access ≤ all.length := countP_le_length
  rw [countP_cons]
  split
  · exact Nat.mod_eq_of_lt (by omega)
  · rfl

theorem count_down {rest : List File} (few : rest.length + 1 < 2 ^ 8) (file : File)
    (access : File → Bool) :
    (if access file then ((file :: rest).countP access + (2 ^ 8 - 1)) % 2 ^ 8
      else (file :: rest).countP access) = rest.countP access := by
  have low : rest.countP access ≤ rest.length := countP_le_length
  rw [countP_cons]
  split
  · omega
  · rfl

theorem pipecommonOpen_counts {all : List File} (counts : Counts sys.dev all)
    (few : all.length + 1 < 2 ^ 8) (task : Nat) (file : File) :
    Counts (pipecommonOpen sys task file.wrok file.rdok .ok).dev (file :: all) ∧
      ((pipecommonOpen sys task file.wrok file.rdok .ok).phase = sys.phase ∨
        ∃ waited, (pipecommonOpen sys task file.wrok file.rdok .ok).phase =
          update sys.phase task (.opening file.wrok file.rdok waited)) := by
  have refs : (sys.dev.refs + 1) % 2 ^ 8 = (file :: all).length := by
    rw [counts.refs]
    exact Nat.mod_eq_of_lt few
  have nwriters := count_up few file File.wrok
  have nreaders := count_up few file File.rdok
  rw [← counts.nwriters] at nwriters
  rw [← counts.nreaders] at nreaders
  rw [pipecommonOpen, if_neg (not_not_intro rfl)]
  dsimp only
  rw [nwriters, nreaders, refs]
  constructor
  · split <;> split <;> exact ⟨rfl, rfl, rfl⟩
  · split <;> split
    · exact Or.inr ⟨_, rfl⟩
    · exact Or.inr ⟨_, rfl⟩
    · exact Or.inl rfl
    · exact Or.inl rfl

/-- No byte is kept when the last description is closed. -/
def Drained (dev : PipeDev) : Prop := dev.refs = 1 → dev.policy → dev.wrndx = dev.rdndx

instance decidableDrained (dev : PipeDev) : Decidable (Drained dev) :=
  inferInstanceAs (Decidable (_ = _ → _ = _ → _ = _))

theorem closeAny_counts {rest : List File} (counts : Counts sys.dev (file :: rest))
    (few : rest.length + 1 < 2 ^ 8) (drained : Drained sys.dev) :
    Counts (closeAny sys file).dev rest ∧ (closeAny sys file).phase = sys.phase := by
  have refs := counts.refs
  have nwriters := count_down few file File.wrok
  have nreaders := count_down few file File.rdok
  rw [← counts.nwriters] at nwriters
  rw [← counts.nreaders] at nreaders
  rw [length_cons] at refs
  have less : (sys.dev.refs + (2 ^ 8 - 1)) % 2 ^ 8 = rest.length := by omega
  rw [closeAny, pipecommonClose]
  rw [nwriters, nreaders, less]
  split
  · rw [getD_some]
    split <;> exact ⟨⟨rfl, rfl, rfl⟩, rfl⟩
  · rename_i last
    have nothing : rest = [] := eq_nil_of_length_eq_zero (by omega)
    rw [nothing]
    split
    · exact ⟨⟨rfl, rfl, rfl⟩, rfl⟩
    · rename_i keeps
      have policy : sys.dev.policy = true := by
        cases kept : sys.dev.policy with
        | true => rfl
        | false =>
          rw [kept] at keeps
          exact absurd (Or.inl rfl) keeps
      refine absurd (Or.inr (drained ?_ policy)) keeps
      rw [refs, nothing]
      rfl

section

variable {after : Sys} (tracked : Tracked users) (few : users.all.length + 1 < 2 ^ 8)
  (counts : Counts after.dev (file :: users.all))

include tracked few counts

theorem Tracked.opened (phases : after.phase = users.sys.phase) :
    Tracked { users with sys := after, files := file :: users.files } := by
  refine ⟨counts, few, fun task other => ?_, tracked.once⟩
  rw [phases]
  exact tracked.phases task other

theorem Tracked.waits {task : Nat} {waited : Bool} (idle : users.sys.phase task = .idle)
    (phases : after.phase = update users.sys.phase task (.opening file.wrok file.rdok waited)) :
    Tracked { users with sys := after, opening := (task, file) :: users.opening } := by
  have same : (users.files ++ ((task, file) :: users.opening).map Prod.snd).Perm
      (file :: users.all) := perm_middle
  have absent : ∀ other, (task, other) ∉ users.opening := by
    intro other mem
    have openings := (tracked.phases task other).mp mem
    rw [idle] at openings
    cases openings
  refine ⟨counts.perm same, ?_, fun other access => ?_, nodup_cons.mpr ⟨absent file, tracked.once⟩⟩
  · rw [Users.all, same.length_eq]
    exact few
  · rw [phases, mem_cons]
    by_cases here : other = task
    · rw [here, update_self, or_iff_left (absent access), Prod.mk.injEq, and_iff_right rfl]
      exact ⟨fun found => congrArg some found.symm, fun found => (Option.some.inj found).symm⟩
    · rw [update_of_ne here, or_iff_right (fun found => here (congrArg Prod.fst found))]
      exact tracked.phases other access

end

theorem Tracked.ending {task : Nat} (tracked : Tracked users)
    (openings : opens (users.sys.phase task) = some file) :
    users.all.Perm
      (file :: (users.files ++ (users.opening.erase (task, file)).map Prod.snd)) := by
  have mem := (tracked.phases task file).mpr openings
  have first := (perm_cons_erase mem).map Prod.snd
  exact (first.append_left users.files).trans perm_middle

theorem Tracked.ended {task : Nat} (tracked : Tracked users)
    (openings : opens (users.sys.phase task) = some file) (other : Nat) (access : File) :
    (other, access) ∈ users.opening.erase (task, file) ↔
      opens ((users.sys.setPhase task .idle).phase other) = some access := by
  by_cases here : other = task
  · rw [here]
    simp only [Sys.setPhase, update_self]
    refine iff_of_false (fun mem => ?_) (fun found => by cases found)
    have found := (tracked.phases task access).mp (mem_of_mem_erase mem)
    rw [openings, Option.some.injEq] at found
    rw [← found] at mem
    exact tracked.once.not_mem_erase mem
  · simp only [Sys.setPhase, update_of_ne here]
    rw [mem_erase_of_ne (fun same => here (congrArg Prod.fst same))]
    exact tracked.phases other access

end Steps

/-- What the callers guarantee: a description is opened for reading or writing, and only an open one
is closed. -/
def UseAllowed (users : Users) : Op → Prop
  | .open _ wrok rdok _ => wrok ∨ rdok
  | .close _ wrok rdok => ⟨wrok, rdok⟩ ∈ users.files
  | _ => True

instance decidableUseAllowed (users : Users) : ∀ op, Decidable (UseAllowed users op)
  | .open .. | .close .. => by dsimp only [UseAllowed]; infer_instance
  | .read .. | .write .. | .resume .. | .signal .. | .policy .. => isTrue trivial

/-- The condition of the step: fewer than 255 descriptions are open before another one is opened,
and no byte is kept when the last one is closed, by `pipecommon_close` or by an open that is
interrupted. -/
def Releasing (users : Users) : Op → Prop
  | .open _ _ _ bfsem => bfsem = .ok → users.sys.dev.refs < 255
  | .close .. => Drained users.sys.dev
  | .resume task _ => ∀ wrok rdok waited, users.sys.phase task = .opening wrok rdok waited →
      waitError users.sys task waited ≠ .ok → Drained users.sys.dev
  | _ => True

instance decidableReleasing (users : Users) : ∀ op, Decidable (Releasing users op)
  | .open .. | .close .. | .resume .. => by dsimp only [Releasing]; infer_instance
  | .read .. | .write .. | .signal .. | .policy .. => isTrue trivial

theorem Tracked.map {users next : Users} (tracked : Tracked users) {op : Op}
    (stepped : (step users.sys op).map (fun sys => { users with sys := sys }) = some next)
    (unused : ∀ after, step users.sys op = some after → Unused users.sys after) :
    Tracked next := by
  obtain ⟨after, performed, rfl⟩ := map_eq_some_iff.mp stepped
  exact tracked.unused (unused after performed)

theorem Tracked.open {users next : Users} (tracked : Tracked users) {task : Nat} {wrok rdok : Bool}
    {bfsem : Errno} (few : bfsem = .ok → users.sys.dev.refs < 255)
    (stepped : useStep users (.open task wrok rdok bfsem) = some next) : Tracked next := by
  obtain ⟨after, performed, rfl⟩ := map_eq_some_iff.mp stepped
  obtain ⟨idle, opened⟩ := ite_none_right_eq_some.mp performed
  cases opened
  by_cases taken : bfsem = .ok
  · rw [if_neg (not_not_intro taken)]
    subst taken
    have room : users.all.length + 1 < 2 ^ 8 := by
      have below := few rfl
      rw [tracked.counts.refs] at below
      omega
    obtain ⟨counts, same | ⟨waited, moved⟩⟩ :=
      pipecommonOpen_counts tracked.counts room task ⟨wrok, rdok⟩
    · rw [if_pos (by rw [same, idle]; rfl)]
      exact tracked.opened room counts same
    · rw [if_neg (by rw [moved, update_self]; exact some_ne_none _)]
      exact tracked.waits room counts idle moved
  · rw [if_pos taken, pipecommonOpen, if_pos taken]
    exact tracked

/-- A call of `pipecommon_open` that goes on keeps the counts. -/
theorem Tracked.resume {users next : Users} (tracked : Tracked users) {task : Nat} {bfsem : Errno}
    (releasing : Releasing users (.resume task bfsem))
    (stepped : useStep users (.resume task bfsem) = some next) : Tracked next := by
  rw [useStep] at stepped
  split at stepped
  · rename_i wrok rdok waited waits
    have openings : opens (users.sys.phase task) = some ⟨wrok, rdok⟩ := by
      rw [waits]
      rfl
    have first := tracked.ending openings
    have few := tracked.few
    rw [first.length_eq] at few
    obtain ⟨-, performed⟩ := ite_none_right_eq_some.mp stepped
    dsimp only at performed
    split at performed
    · cases performed
      exact ⟨tracked.counts.perm first.symm, few, tracked.ended openings, tracked.once.erase _⟩
    · rename_i failed
      cases performed
      have drained : Drained users.sys.dev := releasing wrok rdok waited waits failed
      have idle : Counts (users.sys.setPhase task .idle).dev _ := tracked.counts.perm first.symm
      obtain ⟨counts, phase⟩ := closeAny_counts idle few drained
      refine ⟨counts, Nat.lt_of_succ_lt few, fun other access => ?_, tracked.once.erase _⟩
      rw [phase]
      exact tracked.ended openings other access
  · rename_i other
    refine tracked.map stepped fun after performed => ?_
    obtain ⟨-, resumed⟩ := ite_none_right_eq_some.mp performed
    refine unused_resume ?_ resumed
    cases phase : users.sys.phase task with
    | opening wrok rdok waited => exact absurd phase (other wrok rdok waited)
    | idle => rfl
    | reading len waited => rfl
    | writing data nwritten waited => rfl

/-- Every step that meets the condition keeps the counts. -/
theorem tracked_step (users : Users) (op : Op) (next : Users) (tracked : Tracked users)
    (guarded : UseAllowed users op ∧ Releasing users op)
    (stepped : useStep users op = some next) : Tracked next := by
  cases op with
  | «open» task wrok rdok bfsem => exact tracked.open guarded.2 stepped
  | close task wrok rdok =>
    obtain ⟨-, performed⟩ := ite_none_right_eq_some.mp stepped
    cases performed
    have mem : ⟨wrok, rdok⟩ ∈ users.files := guarded.1
    have first : users.all.Perm (⟨wrok, rdok⟩ :: (users.files.erase ⟨wrok, rdok⟩ ++
        users.opening.map Prod.snd)) := (perm_cons_erase mem).append_right _
    have few := tracked.few
    rw [first.length_eq] at few
    obtain ⟨counts, phase⟩ := closeAny_counts (tracked.counts.perm first.symm) few guarded.2
    refine ⟨counts, Nat.lt_of_succ_lt few, fun other access => ?_, tracked.once⟩
    rw [phase]
    exact tracked.phases other access
  | read task len nonblock bfsem =>
    refine tracked.map stepped fun after performed => ?_
    obtain ⟨idle, done⟩ := ite_none_right_eq_some.mp performed
    cases done
    exact unused_read (by rw [idle]; rfl) len nonblock bfsem
  | write task data nonblock bfsem =>
    refine tracked.map stepped fun after performed => ?_
    obtain ⟨idle, done⟩ := ite_none_right_eq_some.mp performed
    cases done
    exact unused_write (by rw [idle]; rfl) data nonblock bfsem
  | resume task bfsem => exact tracked.resume guarded.2 stepped
  | signal task errcode =>
    refine tracked.map stepped fun after performed => ?_
    obtain ⟨kernel, -, rfl⟩ := map_eq_some_iff.mp performed
    exact ⟨rfl, rfl, rfl, fun _ => rfl⟩
  | policy keep =>
    refine @Tracked.map _ _ tracked (.policy keep) stepped fun after performed => ?_
    cases performed
    exact ⟨rfl, rfl, rfl, fun _ => rfl⟩

/-- A pipe that nobody has open. -/
structure Unopened (users : Users) : Prop where
  counts : users.sys.dev.refs = 0 ∧ users.sys.dev.nwriters = 0 ∧ users.sys.dev.nreaders = 0
  files : users.files = [] ∧ users.opening = []
  idle : ∀ task, users.sys.phase task = .idle

theorem Unopened.tracked {users : Users} (unopened : Unopened users) : Tracked users := by
  obtain ⟨refs, nwriters, nreaders⟩ := unopened.counts
  have all : users.all = [] := by
    rw [Users.all, unopened.files.1, unopened.files.2]
    rfl
  refine ⟨⟨?_, ?_, ?_⟩, ?_, fun task file => ?_, ?_⟩
  · rw [refs, all]
    rfl
  · rw [nwriters, all]
    rfl
  · rw [nreaders, all]
    rfl
  · rw [all]
    decide
  · rw [unopened.files.2, unopened.idle task]
    exact iff_of_false not_mem_nil (fun found => by cases found)
  · rw [unopened.files.2]
    exact nodup_nil

/-- A blocking reader of an empty pipe returns at once exactly when `d_nwriters` is zero, and then
with the end of the file. -/
theorem readSection_eof {sys : Sys} (empty : sys.dev.wrndx = sys.dev.rdndx) (task len : Nat) :
    (readSection sys task len false).reads = sys.reads ++ [⟨[], 0⟩] ↔ sys.dev.nwriters = 0 := by
  rw [readSection, if_pos empty]
  by_cases nothing : sys.dev.nwriters = 0
  · rw [if_pos nothing]
    exact iff_of_true rfl nothing
  · rw [if_neg nothing]
    refine iff_of_false (fun same => ?_) nothing
    have length := congrArg List.length same
    rw [length_append] at length
    exact absurd length (Nat.ne_of_lt (Nat.lt_succ_self _))

/-- In every run whose steps meet the condition the counts are the numbers of open descriptions, of
those for writing and of those for reading, and a blocking reader of an empty pipe gets the end of
the file exactly when no description is open for writing. -/
theorem pipe_refs_counted {users : Users} (unopened : Unopened users) {ops : List Op}
    {final : Users} (allowed : Run.Admitted useStep UseAllowed users ops)
    (releasing : Run.Admitted useStep Releasing users ops)
    (ran : Run.run useStep users ops = some final) :
    Counts final.sys.dev final.all ∧
      (final.sys.dev.wrndx = final.sys.dev.rdndx → ∀ task len,
        ((readSection final.sys task len false).reads = final.sys.reads ++ [⟨[], 0⟩] ↔
          ∀ file ∈ final.all, file.wrok = false)) := by
  have tracked : Tracked final := Run.run_keeps_admitted tracked_step unopened.tracked
    (Run.admitted_and allowed releasing) ran
  refine ⟨tracked.counts, fun empty task len => ?_⟩
  rw [readSection_eof empty, tracked.counts.nwriters, countP_eq_zero]
  simp

/-- A pipe of three slots that nobody has open. -/
def unusedPipe : Users where
  sys := { smallPipe with dev := ⟨0, 0, 3, 0, 0, 0, false, fun _ => 0⟩ }
  files := []
  opening := []

theorem unopened_unusedPipe : Unopened unusedPipe :=
  ⟨⟨rfl, rfl, rfl⟩, ⟨rfl, rfl⟩, fun _ => rfl⟩

/-- An open for reading is interrupted by a signal. Then a writer opens the pipe while another
reader waits for it, a byte goes through the pipe, and the writer closes it. -/
def openRun : List Op :=
  [.open 1 false true .ok, .signal 1 .eintr, .resume 1 .ok, .open 2 false true .ok,
    .open 3 true false .ok, .resume 2 .ok, .policy true, .write 3 [10] false .ok,
    .read 2 4 false .ok, .close 3 true false]

/-- One description is open for reading, and its reader gets the end of the file. -/
theorem pipe_refs_counted_interrupted : Unopened unusedPipe ∧
    ∃ final, Run.run useStep unusedPipe openRun = some final ∧ final.all = [⟨false, true⟩] ∧
      Counts final.sys.dev [⟨false, true⟩] ∧
      (readSection final.sys 2 4 false).reads = final.sys.reads ++ [⟨[], 0⟩] := by
  have counted := @pipe_refs_counted _ unopened_unusedPipe openRun _ (by decide) (by decide) rfl
  exact ⟨unopened_unusedPipe, _, rfl, rfl, counted.1, (counted.2 rfl 2 4).mpr (by decide)⟩

/-- With a byte left in the pipe by policy 1, the last close leaves a writer and a reader in the
counts. A later reader that has read the byte waits for a writer that does not exist. -/
theorem pipe_refs_left : Unopened unusedPipe ∧
    Run.Admitted useStep UseAllowed unusedPipe [.open 1 true true .ok, .policy true,
        .write 1 [10] false .ok, .close 1 true true, .open 2 false true .ok, .read 2 1 false .ok,
        .read 2 1 false .ok] ∧
      ∃ closed final,
        Run.run useStep unusedPipe [.open 1 true true .ok, .policy true, .write 1 [10] false .ok,
          .close 1 true true] = some closed ∧ closed.all = [] ∧ closed.sys.dev.nwriters = 1 ∧
        Run.run useStep closed [.open 2 false true .ok, .read 2 1 false .ok,
          .read 2 1 false .ok] = some final ∧ final.all = [⟨false, true⟩] ∧
        final.sys.phase 2 = .reading 1 true := by
  exact ⟨unopened_unusedPipe, by decide, _, _, rfl, rfl, rfl, rfl, rfl, rfl⟩

end Chewie.Drivers.Pipes
