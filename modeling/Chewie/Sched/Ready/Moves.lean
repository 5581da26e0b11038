import Chewie.Sched.Ready.Lists

/-!
# The operations on the lists

Each operation of the scheduler keeps every task in the list of its state and the lists in order. An
operation that ends with `sched_mergepending` also empties `g_pendingtasks`. `Held` says that no
task is pending unless the running task has locked the scheduler; it is kept by operations that do
not take the processor from that task.
-/

namespace Chewie.Sched.Ready

open List Option

/-- No task is pending when the running task has not locked the scheduler. -/
def Held (sys : Sys) : Prop :=
  ∀ head, (sys.lists .readytorun).head? = some head → (sys.tcb head).lockcount ≤ 0 →
    sys.lists .pendingtasks = []

/-- What a change of the lists keeps of the tasks. -/
structure Kept (sys after : Sys) : Prop where
  priority : after.priority = sys.priority
  lockcount : ∀ task, (after.tcb task).lockcount = (sys.tcb task).lockcount

section Changes

variable {sys after : Sys} {task head : Nat} {rest : List Nat}

section

variable (lists : Lists sys)

include lists

namespace Lists

theorem exists_head : ∃ head rest, sys.lists .readytorun = head :: rest :=
  exists_cons_of_ne_nil (ne_nil_of_mem lists.idle_ready)

theorem head_running (shape : sys.lists .readytorun = head :: rest) :
    (sys.tcb head).taskState = .running :=
  (lists.running head).mpr (by rw [shape]; rfl)

theorem ne_idle (away : (sys.tcb task).taskState = .invalid) : task ≠ idle := by
  intro same
  have found := (lists.placed.mem _ _).mp lists.idle_ready
  rw [← same, away] at found
  cases found

theorem transfer (kept : after.priority = sys.priority) (placed : Placed after)
    (ready : Falling sys.priority (after.lists .readytorun))
    (pending : Falling sys.priority (after.lists .pendingtasks))
    (running : ∀ task, (after.tcb task).taskState = .running ↔ (after.lists .readytorun).head? =
      some task) (idle_ready : idle ∈ after.lists .readytorun) : Lists after := by
  refine ⟨placed, ?_, ?_, running, idle_ready, ?_, ?_⟩
  · rw [kept]
    exact ready
  · rw [kept]
    exact pending
  · rw [kept]
    exact lists.idle_priority
  · rw [kept]
    exact lists.priorities

/-- Changing a list and the state of a task that does not run keeps the invariant when the running
task stays at the head of `g_readytorun`. -/
theorem change {list : Tasklist} {tasks : List Nat} {state : TaskState}
    (placed : Placed ((sys.setList list tasks).setState task state))
    (before : (sys.tcb task).taskState ≠ .running) (now : state ≠ .running)
    (falling : list = .readytorun ∨ list = .pendingtasks → Falling sys.priority tasks)
    (stays : list = .readytorun →
      tasks.head? = (sys.lists .readytorun).head? ∧ idle ∈ tasks) :
    Lists ((sys.setList list tasks).setState task state) := by
  have sorted : ∀ kept, kept = .readytorun ∨ kept = .pendingtasks →
      Falling sys.priority ((sys.setList list tasks).lists kept) := by
    intro kept ordered
    by_cases same : kept = list
    · rw [same, setList_self]
      exact falling (same ▸ ordered)
    rw [setList_other _ same]
    rcases ordered with rfl | rfl
    · exact lists.ready
    · exact lists.pending
  have ready : ((sys.setList list tasks).lists .readytorun).head? =
      (sys.lists .readytorun).head? ∧ idle ∈ (sys.setList list tasks).lists .readytorun := by
    by_cases same : list = .readytorun
    · rw [same]
      exact stays same
    · rw [setList_other _ (Ne.symm same)]
      exact ⟨rfl, lists.idle_ready⟩
  refine lists.transfer (by simp) placed
    (sorted _ (.inl rfl)) (sorted _ (.inr rfl)) (fun other => ?_) ready.2
  rw [setState_lists, ready.1, ← lists.running]
  by_cases here : other = task
  · rw [here, setState_self]
    exact iff_of_false now before
  · rw [setState_other _ here, setList_tcb]

/-- The first task of a new list runs instead of the task that ran. -/
theorem switch {next : Nat} {state : TaskState} (shape : sys.lists .readytorun = head :: rest)
    (different : next ≠ head) {tasks : List Nat} (front : tasks.head? = some next)
    (placed : Placed (((sys.setList .readytorun tasks).setState head state).setState next
      .running)) (stopped : state ≠ .running) (falling : Falling sys.priority tasks)
    (idle_ready : idle ∈ tasks) :
    Lists (((sys.setList .readytorun tasks).setState head state).setState next .running) := by
  refine lists.transfer (by simp) placed ?_ ?_
    (fun other => ?_) ?_
  · exact falling
  · exact lists.pending
  · rw [setState_lists, setState_lists, setList_self, front, some.injEq]
    by_cases new : other = next
    · rw [new, setState_self]
      exact iff_of_true rfl rfl
    rw [setState_other _ new]
    by_cases old : other = head
    · rw [old, setState_self]
      exact iff_of_false stopped different
    · rw [setState_other _ old, setList_tcb, lists.running, shape]
      exact iff_of_false (fun same => old (some.inj same).symm) (Ne.symm new)
  · exact idle_ready

/-- A task that comes before the running task takes its place. -/
theorem enterHead (away : (sys.tcb task).taskState = .invalid)
    (shape : sys.lists .readytorun = head :: rest)
    (adds : addsHead sys.priority task (sys.lists .readytorun)) :
    Lists (((sys.addprioritized task .readytorun).setState task .running).setState head
      .readytorun) := by
  have runs := lists.head_running shape
  have different : head ≠ task := by
    rintro rfl
    rw [runs] at away
    cases away
  have entered : Placed ((sys.addprioritized task .readytorun).setState task .running) :=
    lists.placed.enter away (schedAddprioritized_perm sys.priority task _) rfl
  have placed : Placed (((sys.addprioritized task .readytorun).setState task .running).setState
      head .readytorun) := by
    apply entered.setState
    rw [setState_other _ different, Sys.addprioritized, setList_tcb, runs]
    rfl
  rw [setState_comm _ different.symm] at placed ⊢
  refine lists.switch shape different.symm ?_ placed nofun lists.ready.insert ?_
  · rw [insert_of_addsHead adds, head?_cons]
  · rw [insert_of_addsHead adds]
    exact mem_cons_of_mem task lists.idle_ready

theorem enterBehind (away : (sys.tcb task).taskState = .invalid)
    (behind : ¬ addsHead sys.priority task (sys.lists .readytorun)) :
    Lists ((sys.addprioritized task .readytorun).setState task .readytorun) := by
  have perm := schedAddprioritized_perm sys.priority task (sys.lists .readytorun)
  refine lists.change (lists.placed.enter away perm rfl) ?_ nofun (fun _ => lists.ready.insert)
    fun _ => ⟨insert_head behind, perm.mem_iff.mpr (mem_cons_of_mem task lists.idle_ready)⟩
  rw [away]
  exact nofun

theorem enter {list : Tasklist} {tasks : List Nat} {state : TaskState}
    (away : (sys.tcb task).taskState = .invalid) (apart : list ≠ .readytorun)
    (named : state.tasklist = some list) (enters : tasks.Perm (task :: sys.lists list))
    (falling : list = .pendingtasks → Falling sys.priority tasks) :
    Lists ((sys.setList list tasks).setState task state) := by
  refine lists.change (lists.placed.enter away enters named) ?_ ?_
    (fun ordered => falling (ordered.resolve_left apart)) fun same => absurd same apart
  · rw [away]
    exact nofun
  · rintro rfl
    exact apart (some.inj named).symm

end Lists

end

theorem Lists.leave (lists : Lists sys) {list : Tasklist} (apart : list ≠ .readytorun)
    (mem : task ∈ sys.lists list) :
    Lists ((sys.setList list ((sys.lists list).erase task)).setState task .invalid) := by
  refine lists.change (lists.placed.leave mem) (fun runs => apart ?_) nofun (fun ordered => ?_)
    fun same => absurd same apart
  · have named := (lists.placed.mem list task).mp mem
    rw [runs] at named
    exact (some.inj named).symm
  · rw [ordered.resolve_left apart]
    exact lists.pending.sublist erase_sublist

theorem Lists.exists_next (lists : Lists sys) (busy : task ≠ idle)
    (first : (sys.lists .readytorun).head? = some task) :
    ∃ next rest, sys.lists .readytorun = task :: next :: rest := by
  obtain ⟨rest, shape⟩ := head?_eq_some_iff.mp first
  have idle_ready := lists.idle_ready
  rw [shape, mem_cons, or_iff_right busy.symm] at idle_ready
  obtain ⟨next, later, more⟩ := exists_cons_of_ne_nil (ne_nil_of_mem idle_ready)
  exact ⟨next, later, by rw [shape, more]⟩

theorem Lists.next_ne (lists : Lists sys) {next : Nat}
    (shape : sys.lists .readytorun = task :: next :: rest) : next ≠ task := by
  have nodup := lists.placed.nodup .readytorun
  rw [shape] at nodup
  exact fun same => (nodup_cons.mp nodup).1 (same ▸ mem_cons_self)

/-- When the running task is taken from the list, the next one runs. -/
theorem Lists.leaveHead (lists : Lists sys) {next : Nat} (busy : task ≠ idle)
    (shape : sys.lists .readytorun = task :: next :: rest) :
    Lists (((sys.setList .readytorun ((sys.lists .readytorun).erase task)).setState task
      .invalid).setState next .running) := by
  have mem : task ∈ sys.lists .readytorun := by
    rw [shape]
    exact mem_cons_self
  have left := lists.placed.leave mem
  have different := lists.next_ne shape
  have named : (sys.tcb next).taskState.tasklist = some .readytorun := by
    rw [← lists.placed.mem, shape]
    exact mem_cons_of_mem task mem_cons_self
  refine lists.switch shape different ?_ (left.setState ?_) nofun
    (lists.ready.sublist erase_sublist) ((mem_erase_of_ne busy.symm).mpr lists.idle_ready)
  · rw [shape, erase_cons_head, head?_cons]
  · rw [setState_other _ different, setList_tcb, named]
    rfl

theorem erase_head {tasks : List Nat} (behind : tasks.head? ≠ some task) :
    (tasks.erase task).head? = tasks.head? := by
  cases tasks with
  | nil => rfl
  | cons first later =>
    have different : first ≠ task := fun same => behind (by rw [same]; rfl)
    rw [erase_cons_tail (by simpa using different)]
    rfl

end Changes

/-- What `sched_removereadytorun` leaves. -/
structure Removed (sys : Sys) (task : Nat) (after : Sys) (removed : Bool) : Prop where
  lists : Lists after
  away : (after.tcb task).taskState = .invalid
  ready : after.lists .readytorun = (sys.lists .readytorun).erase task
  pending : after.lists .pendingtasks = sys.lists .pendingtasks
  kept : Kept sys after
  head : removed = true ↔ (sys.lists .readytorun).head? = some task

section Operations

variable {sys after : Sys} {task : Nat} {removed added : Bool}

theorem Lists.remove (lists : Lists sys) (mem : task ∈ sys.lists .readytorun) (busy : task ≠ idle) :
    ∃ after removed, schedRemovereadytorun sys task = some (after, removed) ∧
      Removed sys task after removed := by
  rw [schedRemovereadytorun]
  by_cases first : (sys.lists .readytorun).head? = some task
  · obtain ⟨next, rest, shape⟩ := lists.exists_next busy first
    refine ⟨_, true, ?_, lists.leaveHead busy shape, ?_, rfl, rfl, ⟨?_, ?_⟩, iff_of_true rfl first⟩
    · rw [if_pos first, shape]
      rfl
    · rw [setState_other _ (lists.next_ne shape).symm, setState_self]
    · simp
    · intro other
      rw [setState_lockcount, setState_lockcount, setList_tcb]
  · refine ⟨_, _, if_neg first, ?_, setState_self .., rfl, rfl, ⟨?_, ?_⟩,
      iff_of_false nofun first⟩
    · refine lists.change (lists.placed.leave mem)
        (fun runs => first ((lists.running task).mp runs)) nofun
        (fun _ => lists.ready.sublist erase_sublist) fun _ => ?_
      exact ⟨erase_head first, (mem_erase_of_ne busy.symm).mpr lists.idle_ready⟩
    · simp
    · intro other
      rw [setState_lockcount, setList_tcb]

theorem Removed.held (gone : Removed sys task after removed) (behind : removed = false)
    (held : Held sys) : Held after := by
  have first : (sys.lists .readytorun).head? ≠ some task := fun same => by
    rw [gone.head.mpr same] at behind
    cases behind
  intro head front unlocked
  rw [gone.ready, erase_head first] at front
  rw [gone.kept.lockcount] at unlocked
  rw [gone.pending]
  exact held head front unlocked

/-- `sched_addreadytorun` puts the task into the list of its state. The result is `true` only when
the task comes before the running task. -/
theorem Lists.add (lists : Lists sys) (away : (sys.tcb task).taskState = .invalid) :
    ∃ after added, schedAddreadytorun sys task = some (after, added) ∧ Lists after ∧
      (Held sys → Held after) ∧
      (added = true → addsHead sys.priority task (sys.lists .readytorun) = true) := by
  obtain ⟨head, rest, shape⟩ := lists.exists_head
  have pended : Lists ((sys.addprioritized task .pendingtasks).setState task .pending) :=
    lists.enter away (by decide) rfl (schedAddprioritized_perm _ _ _) (fun _ => lists.pending.insert)
  rw [schedAddreadytorun, shape]
  dsimp only
  by_cases locked : 0 < (sys.tcb head).lockcount ∧ sys.priority head < sys.priority task
  · refine ⟨_, _, if_pos locked, pended, fun _ front first unlocked => ?_, nofun⟩
    -- The running task stays at the head, and it has locked the scheduler.
    have same : head = front := by
      rw [setState_lists, Sys.addprioritized, setList_other _ (by decide), shape] at first
      exact some.inj first
    rw [← same] at unlocked
    exact absurd locked.1 (by simpa [Sys.addprioritized] using unlocked)
  · rw [if_neg locked]
    by_cases adds : addsHead sys.priority task (head :: rest)
    · refine ⟨_, _, if_pos adds, lists.enterHead away shape (by rw [shape]; exact adds), ?_,
        fun _ => adds⟩
      intro held front _ _
      -- The running task has not locked the scheduler, or the new one would be pending.
      have higher : sys.priority head < sys.priority task := by simpa [addsHead] using adds
      have unlocked : (sys.tcb head).lockcount ≤ 0 := Int.not_lt.mp fun more => locked ⟨more, higher⟩
      exact held head (by rw [shape]; rfl) unlocked
    · have behind : ¬ addsHead sys.priority task (sys.lists .readytorun) := by
        rw [shape]
        exact adds
      refine ⟨_, _, if_neg adds, lists.enterBehind away behind, ?_, nofun⟩
      intro held front first unlocked
      rw [setState_lists, Sys.addprioritized, setList_self, insert_head behind] at first
      rw [setState_lockcount] at unlocked
      exact held front first unlocked

end Operations

end Chewie.Sched.Ready
