import Chewie.Sched.Sem.Count
import Chewie.Drivers.Pipes.Model

/-!
# The byte stream of a pipe

`Holds` relates the recorded bytes to the pipe in the middle of a step: `taken` are bytes that left
the buffer and are not returned yet, and `held` are the bytes that the unfinished write of a task
has stored. Every part of a step changes one of them, and between steps nothing is taken and `held`
is what the phases of the tasks say. That every byte stored is returned or in the buffer, in one
order, follows for every run.
-/

namespace Chewie.Drivers.Pipes

open Chewie.Sched Function List Chewie.Ring

/-- The bytes between `d_rdndx` and `d_wrndx`. -/
def between (dev : PipeDev) : List UInt8 :=
  Ring.contents dev.bufsize dev.buffer dev.rdndx dev.wrndx

/-- The bytes that reads returned, in order. -/
def returned (sys : Sys) : List UInt8 := sys.reads.flatMap Call.data

/-- The bytes that a task stored, in order, each with the number of its call. -/
def storedBy (sys : Sys) (task : Nat) : List (Nat × UInt8) :=
  (sys.stored.filter fun stored => stored.task = task).map fun stored => (stored.call, stored.byte)

/-- The first bytes of each finished write, as many as the call returned. -/
def accepted (calls : List Call) : List (Nat × UInt8) :=
  calls.zipIdx.flatMap fun call => (call.1.data.take call.1.ret.toNat).map (Prod.mk call.2)

/-- The bytes that an unfinished write has stored. -/
def inflight : Phase → List UInt8
  | .writing data nwritten _ => data.take nwritten
  | _ => []

/-- Both indices are in the buffer. -/
structure InBuffer (dev : PipeDev) : Prop where
  rdndx : dev.rdndx < dev.bufsize
  wrndx : dev.wrndx < dev.bufsize

/-- The record agrees with the pipe, when `taken` has left the buffer and is not returned yet, and
the unfinished write of each task has stored `held`. -/
structure Holds (sys : Sys) (taken : List UInt8) (held : Nat → List UInt8) : Prop where
  inBuffer : InBuffer sys.dev
  stream : sys.stored.map Stored.byte = returned sys ++ (taken ++ between sys.dev)
  order : ∀ task, storedBy sys task =
    accepted (sys.writes task) ++ (held task).map (Prod.mk (sys.writes task).length)
  bounded : ∀ task, ∀ call ∈ sys.writes task, call.ret ≤ call.data.length
  told : ∀ call ∈ sys.reads, call.ret.toNat = call.data.length

/-- The record agrees with the pipe between steps. -/
def Inv (sys : Sys) : Prop := Holds sys [] (inflight ∘ sys.phase)

theorem readLoop_between (len : Nat) {dev : PipeDev} (inside : InBuffer dev) :
    InBuffer (readLoop len dev).1 ∧
      between dev = (readLoop len dev).2 ++ between (readLoop len dev).1 := by
  induction len generalizing dev with
  | zero => exact ⟨inside, rfl⟩
  | succ len ih =>
    rw [readLoop]
    by_cases nonempty : dev.wrndx ≠ dev.rdndx
    · rw [if_pos nonempty]
      have moved : InBuffer { dev with rdndx := next dev.bufsize dev.rdndx } :=
        ⟨next_lt inside.rdndx, inside.wrndx⟩
      refine ⟨(ih moved).1, ?_⟩
      rw [cons_append, ← (ih moved).2]
      exact contents_take dev.buffer inside.rdndx inside.wrndx nonempty
    · rw [if_neg nonempty]
      exact ⟨inside, rfl⟩

theorem writeLoop_between (data : List UInt8) {dev : PipeDev} (inside : InBuffer dev) :
    InBuffer (writeLoop data dev).1 ∧
      between (writeLoop data dev).1 = between dev ++ data.take (writeLoop data dev).2 := by
  induction data generalizing dev with
  | nil => exact ⟨inside, by simp [writeLoop]⟩
  | cons byte data ih =>
    rw [writeLoop]
    by_cases room : next dev.bufsize dev.wrndx ≠ dev.rdndx
    · rw [if_pos room]
      have moved : InBuffer { dev with
          buffer := update dev.buffer dev.wrndx byte,
          wrndx := next dev.bufsize dev.wrndx } :=
        ⟨inside.rdndx, next_lt inside.wrndx⟩
      have filled := contents_fill dev.buffer byte inside.rdndx inside.wrndx room
      refine ⟨(ih moved).1, (ih moved).2.trans ?_⟩
      rw [take_succ_cons, between, between, filled, append_assoc, singleton_append]
    · rw [if_neg room]
      exact ⟨inside, by simp⟩

section Parts

variable {sys : Sys} {taken : List UInt8} {held : Nat → List UInt8}

theorem holds_kernel (holds : Holds sys taken held) (kernel : Kernel PipeSem) :
    Holds { sys with kernel := kernel } taken held :=
  ⟨holds.inBuffer, holds.stream, holds.order, holds.bounded, holds.told⟩

theorem holds_users (holds : Holds sys taken held) (refs nwriters nreaders : Nat)
    (policy : Bool) :
    Holds { sys with dev := { sys.dev with
      refs := refs, nwriters := nwriters, nreaders := nreaders, policy := policy } }
      taken held :=
  ⟨⟨holds.inBuffer.rdndx, holds.inBuffer.wrndx⟩, holds.stream, holds.order, holds.bounded,
    holds.told⟩

theorem holds_setPhase (holds : Holds sys taken held) (task : Nat) (phase : Phase) :
    Holds (sys.setPhase task phase) taken held :=
  ⟨holds.inBuffer, holds.stream, holds.order, holds.bounded, holds.told⟩

theorem holds_endRead {data : List UInt8} (holds : Holds sys data held) (task : Nat)
    {ret : Int} (told : ret.toNat = data.length) : Holds (sys.endRead task data ret) [] held := by
  refine ⟨holds.inBuffer, ?_, holds.order, holds.bounded, fun call mem => ?_⟩
  · have stream := holds.stream
    simpa [returned, Sys.endRead, Sys.setPhase] using stream
  · rcases mem_append.mp mem with before | last
    · exact holds.told call before
    · rw [mem_singleton.mp last]
      exact told

theorem accepted_append (calls : List Call) (call : Call) :
    accepted (calls ++ [call]) =
      accepted calls ++ (call.data.take call.ret.toNat).map (Prod.mk calls.length) := by
  simp [accepted, zipIdx_append]

theorem holds_endWrite (holds : Holds sys taken held) {task : Nat} {data : List UInt8}
    {ret : Int} (counted : held task = data.take ret.toNat) (bound : ret ≤ data.length) :
    Holds (sys.endWrite task data ret) taken (update held task []) := by
  refine ⟨holds.inBuffer, holds.stream, fun other => ?_, fun other call mem => ?_, holds.told⟩
  · have order := holds.order other
    by_cases same : other = task
    · subst same
      simp only [Sys.endWrite, update_self, accepted_append, map_nil, append_nil]
      rw [← counted]
      exact order
    · simp only [Sys.endWrite, update_of_ne same]
      exact order
  · by_cases same : other = task
    · subst same
      simp only [Sys.endWrite, update_self, mem_append, mem_singleton] at mem
      rcases mem with before | rfl
      · exact holds.bounded other call before
      · exact bound
    · simp only [Sys.endWrite, update_of_ne same] at mem
      exact holds.bounded other call mem

theorem holds_store (holds : Holds sys [] held) (task : Nat) (data : List UInt8) :
    Holds (sys.store task data) [] (update held task
      (held task ++ data.take (writeLoop data sys.dev).2)) := by
  have loop := writeLoop_between data holds.inBuffer
  refine ⟨loop.1, ?_, fun other => ?_, holds.bounded, holds.told⟩
  · have stream := holds.stream
    simp only [Sys.store, map_append, stream, map_map, nil_append]
    rw [loop.2, ← append_assoc]
    exact congrArg _ (map_id _)
  · have order := holds.order other
    simp only [storedBy, Sys.store, filter_append, map_append] at order ⊢
    rw [order]
    generalize data.take (writeLoop data sys.dev).2 = bytes
    by_cases same : other = task
    · subst same
      simp [filter_map, comp_def]
    · simp [update_of_ne same, Ne.symm same]

end Parts

theorem inv_of_holds {sys next : Sys} {task : Nat} {phase : Phase}
    (moved : next.phase = update sys.phase task phase)
    (holds : Holds next [] (update (inflight ∘ sys.phase) task (inflight phase))) : Inv next := by
  rw [Inv, moved, comp_update]
  exact holds

section Sections

variable {sys : Sys} {task : Nat}

theorem inv_of_quiet {next : Sys} {phase : Phase} (moved : next.phase = update sys.phase task phase)
    (before : inflight (sys.phase task) = []) (after : inflight phase = [])
    (holds : Holds next [] (inflight ∘ sys.phase)) : Inv next := by
  have same : update (inflight ∘ sys.phase) task [] = inflight ∘ sys.phase :=
    update_eq_self_iff.mpr before.symm
  refine inv_of_holds moved ?_
  rw [after, same]
  exact holds

section

variable (inv : Inv sys) (quiet : inflight (sys.phase task) = [])

include inv quiet

theorem inv_endRead_nil {ret : Int} (absent : ret ≤ 0) : Inv (sys.endRead task [] ret) :=
  inv_of_quiet rfl quiet rfl (holds_endRead inv task (Int.toNat_of_nonpos absent))

theorem inv_endWrite_nil {data : List UInt8} {ret : Int} (absent : ret ≤ 0) :
    Inv (sys.endWrite task data ret) := by
  have counted : (inflight ∘ sys.phase) task = data.take ret.toNat := by
    rw [Int.toNat_of_nonpos absent]
    exact quiet
  exact inv_of_holds rfl (holds_endWrite inv counted (by omega))

theorem inv_readSection (len : Nat) (nonblock : Bool) :
    Inv (readSection sys task len nonblock) := by
  rw [readSection]
  split
  · split
    · exact inv_endRead_nil inv quiet (by decide)
    · split
      · exact inv_endRead_nil inv quiet (Int.le_refl 0)
      · exact inv_of_quiet rfl quiet rfl (holds_kernel (holds_setPhase inv task _) _)
  · have loop := readLoop_between len inv.inBuffer
    have moved : Holds { sys with dev := (readLoop len sys.dev).1 } (readLoop len sys.dev).2
        (inflight ∘ sys.phase) := by
      refine ⟨loop.1, ?_, inv.order, inv.bounded, inv.told⟩
      rw [← loop.2]
      exact inv.stream
    exact inv_of_quiet rfl quiet rfl (holds_endRead (holds_kernel moved _) task rfl)

end

section

variable {nwritten : Nat} {before : Sys} {data : List UInt8}
  (holds : Holds sys [] (update (inflight ∘ before.phase) task (data.take nwritten)))
  (same : sys.phase = before.phase)

include holds same

theorem inv_semtake : Inv (semtake sys task data nwritten) := by
  refine inv_of_holds rfl ?_
  rw [same]
  exact holds_kernel (holds_setPhase holds task _) _

theorem inv_endWrite {ret : Int} (bound : ret ≤ data.length)
    (counted : data.take nwritten = data.take ret.toNat) : Inv (sys.endWrite task data ret) := by
  have finished := holds_endWrite holds
    ((update_self task _ (inflight ∘ before.phase)).trans counted) bound
  rw [update_idem, ← same] at finished
  exact inv_of_holds rfl finished

end

/-- `pipecommon_write` keeps the record while it has `d_bfsem`. -/
theorem inv_writeSection (inv : Inv sys) {data : List UInt8} {nwritten : Nat}
    (counted : inflight (sys.phase task) = data.take nwritten) (nonblock : Bool) :
    Inv (writeSection sys task data nwritten nonblock) := by
  have stored := holds_store inv task (data.drop nwritten)
  rw [comp_apply, counted, ← take_add] at stored
  rw [writeSection]
  generalize (writeLoop (data.drop nwritten) sys.dev).2 = pass at stored ⊢
  have same : (sys.store task (data.drop nwritten)).phase = sys.phase := rfl
  generalize sys.store task (data.drop nwritten) = after at stored same ⊢
  by_cases complete : data.length ≤ nwritten + pass
  · rw [if_pos complete]
    have woken := holds_kernel stored (notifyAll .rdsem after.kernel)
    refine inv_endWrite woken same (Int.le_refl _) ?_
    rw [take_of_length_le complete, Int.toNat_natCast, take_length]
  rw [if_neg complete]
  -- Waking the readers changes neither the record nor the phases.
  have woken : ∃ kernel, (if 0 < pass then after.notify .rdsem else after) =
      { after with kernel := kernel } := by
    split
    · exact ⟨_, rfl⟩
    · exact ⟨after.kernel, rfl⟩
  obtain ⟨kernel, woken⟩ := woken
  rw [woken]
  have held := holds_kernel stored kernel
  cases nonblock with
  | false => exact inv_semtake held same
  | true =>
    by_cases nothing : nwritten + pass = 0
    · rw [if_pos nothing]
      rw [nothing] at held
      exact inv_endWrite held same (by simp only [eagain]; omega) rfl
    · rw [if_neg nothing]
      exact inv_endWrite held same (by omega) (by rw [Int.toNat_natCast])

theorem neg_errnoValue (errno : Errno) : -errnoValue errno ≤ 0 := by
  cases errno <;> decide

section

variable (inv : Inv sys) (quiet : inflight (sys.phase task) = [])

include inv quiet

theorem inv_pipecommonRead (len : Nat) (nonblock : Bool) (bfsem : Errno) :
    Inv (pipecommonRead sys task len nonblock bfsem) := by
  rw [pipecommonRead]
  split
  · exact inv_endRead_nil inv quiet (Int.le_refl 0)
  · split
    · exact inv_endRead_nil inv quiet (neg_errnoValue bfsem)
    · exact inv_readSection inv quiet len nonblock

theorem inv_pipecommonWrite (data : List UInt8) (nonblock : Bool) (bfsem : Errno) :
    Inv (pipecommonWrite sys task data nonblock bfsem) := by
  rw [pipecommonWrite]
  split
  · exact inv_endWrite_nil inv quiet (Int.le_refl 0)
  · split
    · exact inv_endWrite_nil inv quiet (by decide)
    · split
      · exact inv_endWrite_nil inv quiet (neg_errnoValue bfsem)
      · exact inv_writeSection inv quiet nonblock

theorem inv_pipecommonOpen (wrok rdok : Bool) (bfsem : Errno) :
    Inv (pipecommonOpen sys task wrok rdok bfsem) := by
  simp only [pipecommonOpen]
  split
  · exact inv
  · generalize (if wrok then (sys.dev.nwriters + 1) % 2 ^ 8 else sys.dev.nwriters) = nwriters
    generalize (if rdok then (sys.dev.nreaders + 1) % 2 ^ 8 else sys.dev.nreaders) = nreaders
    have counted := holds_users inv ((sys.dev.refs + 1) % 2 ^ 8) nwriters nreaders sys.dev.policy
    split <;> split
    · exact inv_of_quiet rfl quiet rfl
        (holds_kernel (holds_setPhase (holds_kernel counted _) task _) _)
    · exact inv_of_quiet rfl quiet rfl (holds_kernel (holds_setPhase counted task _) _)
    · exact holds_kernel counted _
    · exact counted

end

theorem inv_pipecommonClose (inv : Inv sys) {wrok rdok : Bool} {next : Sys}
    (closed : pipecommonClose sys wrok rdok = some next) : Inv next := by
  simp only [pipecommonClose] at closed
  split at closed
  · cases closed
    generalize (if wrok then (sys.dev.nwriters + (2 ^ 8 - 1)) % 2 ^ 8
      else sys.dev.nwriters) = nwriters
    split
    · exact holds_kernel (holds_users inv _ nwriters _ _) _
    · exact holds_users inv _ nwriters _ _
  · split at closed
    · cases closed
    · cases closed
      exact holds_users inv _ _ _ _

theorem inv_resume (inv : Inv sys) {bfsem : Errno} {next : Sys}
    (resumed : resume sys task bfsem = some next) : Inv next := by
  rw [resume] at resumed
  split at resumed
  · cases resumed
  · rename_i wrok rdok waited waits
    have quiet : inflight (sys.phase task) = [] := congrArg inflight waits
    have idle : Inv (sys.setPhase task .idle) :=
      inv_of_quiet rfl quiet rfl (holds_setPhase inv task .idle)
    split at resumed
    · cases resumed
      exact idle
    · exact inv_pipecommonClose idle resumed
  · rename_i len waited waits
    have quiet : inflight (sys.phase task) = [] := congrArg inflight waits
    split at resumed
    · cases resumed
      exact inv_endRead_nil inv quiet (neg_errnoValue _)
    · split at resumed
      · cases resumed
        exact inv_endRead_nil inv quiet (neg_errnoValue bfsem)
      · cases resumed
        exact inv_readSection inv quiet len false
  · rename_i data nwritten waited waits
    have counted : inflight (sys.phase task) = data.take nwritten := congrArg inflight waits
    split at resumed
    · cases resumed
      have same : update (inflight ∘ sys.phase) task (data.take nwritten) =
          inflight ∘ sys.phase := update_eq_self_iff.mpr counted.symm
      refine inv_semtake ?_ rfl
      rw [same]
      exact inv
    · cases resumed
      exact inv_writeSection inv counted false

theorem inv_step (sys : Sys) (op : Op) (next : Sys) (inv : Inv sys)
    (stepped : step sys op = some next) : Inv next := by
  cases op with
  | «open» task wrok rdok bfsem =>
    obtain ⟨idle, performed⟩ := Option.ite_none_right_eq_some.mp stepped
    cases performed
    exact inv_pipecommonOpen inv (congrArg inflight idle) wrok rdok bfsem
  | close task wrok rdok =>
    obtain ⟨-, closed⟩ := Option.ite_none_right_eq_some.mp stepped
    exact inv_pipecommonClose inv closed
  | read task len nonblock bfsem =>
    obtain ⟨idle, performed⟩ := Option.ite_none_right_eq_some.mp stepped
    cases performed
    exact inv_pipecommonRead inv (congrArg inflight idle) len nonblock bfsem
  | write task data nonblock bfsem =>
    obtain ⟨idle, performed⟩ := Option.ite_none_right_eq_some.mp stepped
    cases performed
    exact inv_pipecommonWrite inv (congrArg inflight idle) data nonblock bfsem
  | resume task bfsem =>
    obtain ⟨-, resumed⟩ := Option.ite_none_right_eq_some.mp stepped
    exact inv_resume inv resumed
  | signal task errcode =>
    obtain ⟨kernel, -, rfl⟩ := Option.map_eq_some_iff.mp stepped
    exact holds_kernel inv kernel
  | policy keep =>
    cases stepped
    exact holds_users inv _ _ _ keep

end Sections

/-- A pipe that nobody has used: the buffer is empty, no task is in a call and nothing is recorded.
The semaphores, the users and what the buffer held before do not matter. -/
structure Fresh (sys : Sys) : Prop where
  size : 2 ≤ sys.dev.bufsize
  indices : sys.dev.rdndx = 0 ∧ sys.dev.wrndx = 0
  idle : ∀ task, sys.phase task = .idle
  records : sys.reads = [] ∧ (∀ task, sys.writes task = []) ∧ sys.stored = []

theorem inv_of_fresh {sys : Sys} (fresh : Fresh sys) : Inv sys := by
  obtain ⟨reads, writes, stored⟩ := fresh.records
  obtain ⟨rdndx, wrndx⟩ := fresh.indices
  have size := fresh.size
  refine ⟨⟨by omega, by omega⟩, ?_, fun task => ?_, fun task call mem => ?_, by simp [reads]⟩
  · rw [between, contents_empty _ (wrndx.trans rdndx.symm), returned, reads, stored]
    rfl
  · rw [storedBy, stored, writes, comp_apply, fresh.idle]
    rfl
  · rw [writes] at mem
    cases mem

/-- In every run of any number of readers and writers, what was stored is what reads returned
followed by the bytes between the indices, and the result of a read is their number. What a task
stored is, call by call and in order, as many of the first bytes of each finished write as the call
returned, and what its unfinished write has stored. `FIONREAD` and `FIONSPACE` count the bytes
between the indices and the room for more. -/
theorem pipe_delivers {sys : Sys} (fresh : Fresh sys) {ops : List Op} {final : Sys}
    (ran : Run.run step sys ops = some final) :
    final.stored.map Stored.byte = returned final ++ between final.dev ∧
      (∀ task, storedBy final task = accepted (final.writes task) ++
        (inflight (final.phase task)).map (Prod.mk (final.writes task).length)) ∧
      (∀ task, ∀ call ∈ final.writes task, call.ret ≤ call.data.length) ∧
      (∀ call ∈ final.reads, call.ret.toNat = call.data.length) ∧
      (between final.dev).length = fionread final.dev ∧
      fionread final.dev + fionspace final.dev = final.dev.bufsize - 1 := by
  have inv : Inv final := Run.run_keeps inv_step (inv_of_fresh fresh) ran
  exact ⟨inv.stream, inv.order, inv.bounded, inv.told, Ring.length_contents _,
    Ring.used_add_free inv.inBuffer.rdndx inv.inBuffer.wrndx⟩

/-- A pipe with two slots to fill that has one user for reading and one for writing. -/
def smallPipe : Sys where
  dev := ⟨0, 0, 3, 2, 1, 1, false, fun _ => 0⟩
  kernel := ⟨fun _ => 0, [], fun _ => ⟨.ready, none, .ok, 100⟩⟩
  phase := fun _ => .idle
  reads := []
  writes := fun _ => []
  stored := []

/-- A write of three bytes stops when the buffer is full, and goes on past the end of the buffer
when another task has read one byte. -/
def smallRun : List Op :=
  [.write 1 [10, 20, 30] false .ok, .read 2 1 false .ok, .resume 1 .ok]

/-- The three bytes are the one returned and the two in the buffer. -/
theorem pipe_delivers_small : Fresh smallPipe ∧
    ∃ final, Run.run step smallPipe smallRun = some final ∧ returned final = [10] ∧
      between final.dev = [20, 30] ∧ final.writes 1 = [⟨[10, 20, 30], 3⟩] ∧
      final.stored.map Stored.byte = returned final ++ between final.dev := by
  have fresh : Fresh smallPipe := ⟨by decide, ⟨rfl, rfl⟩, fun _ => rfl, rfl, fun _ => rfl, rfl⟩
  exact ⟨fresh, _, rfl, rfl, rfl, rfl, (@pipe_delivers _ fresh smallRun _ rfl).1⟩

end Chewie.Drivers.Pipes
