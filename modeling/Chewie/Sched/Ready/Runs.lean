import Chewie.Sched.Ready.Merge

/-!
# Runs of the scheduler

Every operation keeps the lists of ready tasks in order, with two exceptions that the condition
`Orderly` excludes. `nxsched_setpriority` leaves a ready task where it is when it does not come
before the running task, so that its new priority has to fit its place. And
`sched_removereadytorun` does not merge the pending tasks when it takes the task that has locked the
scheduler: its callers do.
-/

namespace Chewie.Sched.Ready

open List Option Function

/-- What holds between operations. -/
structure Consistent (sys : Sys) : Prop where
  lists : Lists sys
  held : Held sys

section Steps

variable {sys : Sys} {task priority : Nat}

theorem held_of_empty (empty : sys.lists .pendingtasks = []) : Held sys := fun _ _ _ => empty

theorem Held.setPriority (held : Held sys) : Held (sys.setPriority task priority) := by
  intro head first unlocked
  rw [setPriority_lockcount] at unlocked
  exact held head first unlocked

theorem Lists.merge (lists : Lists sys) :
    ∃ after changed, schedMergepending sys = some (after, changed) ∧ Lists after ∧
      after.lists .pendingtasks = [] := by
  refine mergeLoop_lists ?_ nofun lists.idle_ready
  rw [nil_append, setList_eq, setList_eq]
  exact lists

theorem Lists.release (lists : Lists sys) :
    ∃ after, releasePending sys = some after ∧ Consistent after := by
  rw [releasePending]
  split
  · rename_i empty
    exact ⟨sys, rfl, lists, held_of_empty empty⟩
  · obtain ⟨after, changed, merged, kept, empty⟩ := lists.merge
    rw [merged]
    exact ⟨after, rfl, kept, held_of_empty empty⟩

theorem Lists.setPriority (lists : Lists sys) (busy : task ≠ idle) (positive : 1 ≤ priority)
    (ready : Falling (sys.setPriority task priority).priority (sys.lists .readytorun))
    (pending : Falling (sys.setPriority task priority).priority (sys.lists .pendingtasks)) :
    Lists (sys.setPriority task priority) := by
  refine ⟨lists.placed.setPriority priority, ready, pending, fun other => ?_, lists.idle_ready, ?_,
    fun other different => ?_⟩
  · rw [setPriority_state]
    exact lists.running other
  · rw [setPriority_other _ busy.symm]
    exact lists.idle_priority
  · by_cases same : other = task
    · rw [same, setPriority_self]
      exact positive
    · rw [setPriority_other _ same]
      exact lists.priorities other different

theorem Falling.setPriority {tasks : List Nat} (falling : Falling sys.priority tasks)
    (outside : task ∉ tasks) : Falling (sys.setPriority task priority).priority tasks :=
  falling.congr fun _ mem => setPriority_other sys (ne_of_mem_of_not_mem mem outside) priority

theorem Lists.setPriority_away (lists : Lists sys) (busy : task ≠ idle) (positive : 1 ≤ priority)
    (ready : (sys.tcb task).taskState.tasklist ≠ some .readytorun)
    (pending : (sys.tcb task).taskState.tasklist ≠ some .pendingtasks) :
    Lists (sys.setPriority task priority) :=
  lists.setPriority busy positive
    (lists.ready.setPriority fun mem => ready ((lists.placed.mem _ _).mp mem))
    (lists.pending.setPriority fun mem => pending ((lists.placed.mem _ _).mp mem))

/-- `up_reprioritize_rtr` puts a ready task into its new place. The running task gets a priority
that is not above that of the next. -/
theorem Consistent.reprioritize (consistent : Consistent sys) (busy : task ≠ idle)
    (mem : task ∈ sys.lists .readytorun) (positive : 1 ≤ priority)
    (lowered : ∀ next rest, sys.lists .readytorun = task :: next :: rest →
      priority ≤ sys.priority next) :
    ∃ after, upReprioritizeRtr sys task priority = some after ∧ Consistent after := by
  obtain ⟨mid, removed, leaves, gone⟩ := consistent.lists.remove mem busy
  have away : ((mid.setPriority task priority).tcb task).taskState = .invalid := by
    rw [setPriority_state]
    exact gone.away
  have changed : Lists (mid.setPriority task priority) :=
    gone.lists.setPriority_away busy positive (by rw [gone.away]; exact nofun)
      (by rw [gone.away]; exact nofun)
  obtain ⟨after, added, enters, lists, held, heads⟩ := changed.add away
  rw [upReprioritizeRtr, leaves, bind_some]
  dsimp only
  rw [enters]
  cases removed with
  | false =>
    cases added with
    | false => exact ⟨after, rfl, lists, held (gone.held rfl consistent.held).setPriority⟩
    | true => exact lists.release
  | true =>
    cases added with
    | false => exact lists.release
    | true =>
      -- The next task is at the head now, and its priority is not lower.
      obtain ⟨next, rest, shape⟩ := consistent.lists.exists_next busy (gone.head.mp rfl)
      have higher := lowered next rest shape
      have adds := heads rfl
      rw [setPriority_lists, gone.ready, shape, erase_cons_head, addsHead, decide_eq_true_iff,
        setPriority_self, setPriority_other _ (consistent.lists.next_ne shape),
        gone.kept.priority] at adds
      omega

theorem Held.congr {after : Sys} (held : Held sys)
    (ready : after.lists .readytorun = sys.lists .readytorun)
    (lockcount : ∀ other, (after.tcb other).lockcount = (sys.tcb other).lockcount)
    (pending : sys.lists .pendingtasks = [] → after.lists .pendingtasks = []) : Held after := by
  intro head first unlocked
  rw [ready] at first
  rw [lockcount] at unlocked
  exact pending (held head first unlocked)

theorem addprioritized_restore (sys : Sys) (task priority : Nat) (list : Tasklist) :
    (((sys.setState task .invalid).setPriority task priority).addprioritized task list).setState
      task (sys.tcb task).taskState = (sys.setPriority task priority).addprioritized task list := by
  have swap : (sys.setState task .invalid).setPriority task priority =
      (sys.setPriority task priority).setState task .invalid := by
    simp [Sys.setPriority, Sys.setState]
  rw [swap, Sys.addprioritized, setState_priority]
  change (((sys.setPriority task priority).setState task .invalid).setState task _).setList list _ =
    _
  rw [setState_setState, ← setPriority_state sys task task priority]
  simp only [Sys.setState, update_eq_self]
  rfl

section

variable (consistent : Consistent sys) (busy : task ≠ idle) (positive : 1 ≤ priority)

include consistent busy positive

/-- `nxsched_blocked_setpriority` keeps the invariant for a task outside `g_readytorun`. -/
theorem Consistent.blockedSetpriority
    (unready : (sys.tcb task).taskState.tasklist ≠ some .readytorun) :
    Consistent (nxschedBlockedSetpriority sys task priority) := by
  have lists := consistent.lists
  rw [nxschedBlockedSetpriority]
  cases named : (sys.tcb task).taskState.tasklist with
  | none =>
    exact ⟨lists.setPriority_away busy positive unready (by rw [named]; exact nofun),
      consistent.held.setPriority⟩
  | some list =>
    rw [named] at unready
    have apart : list ≠ .readytorun := fun same => unready (by rw [same])
    have mem := (lists.placed.mem list task).mpr named
    dsimp only
    split
    · have taken := lists.leave apart mem
      have changed := taken.setPriority_away busy positive
        (by rw [setState_self]; exact nofun) (by rw [setState_self]; exact nofun)
      have entered := changed.enter (by rw [setPriority_state, setState_self]) apart named
        (schedAddprioritized_perm _ _ _) (fun same => by subst same; exact changed.pending.insert)
      have restored := addprioritized_restore (sys.setList list ((sys.lists list).erase task)) task
        priority list
      refine ⟨restored ▸ entered, consistent.held.congr ?_ (fun other => ?_) fun empty => ?_⟩
      · rw [Sys.addprioritized, setList_other _ apart.symm, setPriority_lists,
          setList_other _ apart.symm]
      · rw [Sys.addprioritized, setList_tcb, setPriority_lockcount, setList_tcb]
      · -- A pending task stays pending, so that `g_pendingtasks` is not its list.
        have different : Tasklist.pendingtasks ≠ list := by
          rintro rfl
          rw [empty] at mem
          cases mem
        rw [Sys.addprioritized, setList_other _ different, setPriority_lists,
          setList_other _ different]
        exact empty
    · rename_i unsorted
      have pending : list ≠ .pendingtasks := by
        rintro rfl
        have state : (sys.tcb task).taskState = .pending := by
          cases found : (sys.tcb task).taskState with
          | pending => rfl
          | invalid | readytorun | running | blocked =>
            rw [found] at named
            cases named
        rw [state] at unsorted
        exact unsorted rfl
      refine ⟨lists.setPriority_away busy positive ?_ ?_, consistent.held.setPriority⟩
      · rw [named]
        exact fun same => apart (some.inj same)
      · rw [named]
        exact fun same => pending (some.inj same)

theorem Consistent.runningSetpriority (runs : (sys.tcb task).taskState = .running) :
    ∃ after, nxschedRunningSetpriority sys task priority = some after ∧ Consistent after := by
  have lists := consistent.lists
  obtain ⟨next, rest, shape⟩ := lists.exists_next busy ((lists.running task).mp runs)
  rw [nxschedRunningSetpriority, shape]
  dsimp only [tail_cons]
  split
  · rename_i lowered
    refine consistent.reprioritize busy (by rw [shape]; exact mem_cons_self) positive
      fun other more same => ?_
    rw [shape] at same
    cases same
    exact lowered
  · rename_i higher
    refine ⟨_, rfl, lists.setPriority busy positive ?_ ?_, consistent.held.setPriority⟩
    · have falling := lists.ready
      have nodup := lists.placed.nodup .readytorun
      rw [shape] at falling nodup ⊢
      have parts := pairwise_cons.mp falling
      have outside := (nodup_cons.mp nodup).1
      refine pairwise_cons.mpr ⟨fun other mem => ?_, Falling.setPriority parts.2 outside⟩
      rw [setPriority_self, setPriority_other _ (ne_of_mem_of_not_mem mem outside)]
      rcases mem_cons.mp mem with rfl | later
      · omega
      · have lower := (pairwise_cons.mp parts.2).1 other later
        omega
    · refine lists.pending.setPriority fun mem => ?_
      have named := (lists.placed.mem _ _).mp mem
      rw [runs] at named
      cases named

/-- `nxsched_readytorun_setpriority` keeps the invariant when the new priority comes before the
running task or fits the place of the task. -/
theorem Consistent.readytorunSetpriority (waits : (sys.tcb task).taskState = .readytorun)
    (fits : (∀ head ∈ (sys.lists .readytorun).head?, priority ≤ sys.priority head) → Falling
      (sys.setPriority task priority).priority (sys.lists .readytorun)) :
    ∃ after, nxschedReadytorunSetpriority sys task priority = some after ∧ Consistent after := by
  have lists := consistent.lists
  obtain ⟨head, rest, shape⟩ := lists.exists_head
  rw [nxschedReadytorunSetpriority, shape]
  dsimp only
  split
  · refine consistent.reprioritize busy ((lists.placed.mem _ _).mpr (by rw [waits]; rfl)) positive
      fun next more same => ?_
    -- The task is not the running one.
    rw [lists.head_running same] at waits
    cases waits
  · rename_i low
    refine ⟨_, rfl, lists.setPriority busy positive (fits fun first mem => ?_) ?_,
      consistent.held.setPriority⟩
    · rw [shape] at mem
      cases mem
      omega
    · refine lists.pending.setPriority fun mem => ?_
      have named := (lists.placed.mem _ _).mp mem
      rw [waits] at named
      cases named

end

theorem Lists.setLockcount (lists : Lists sys) (count : Int) :
    Lists (sys.setLockcount task count) := by
  refine lists.transfer (setLockcount_priority ..) ⟨fun list other => ?_, lists.placed.nodup⟩
    lists.ready lists.pending (fun other => ?_) lists.idle_ready
  · rw [setLockcount_state]
    exact lists.placed.mem list other
  · rw [setLockcount_state]
    exact lists.running other

theorem Consistent.lock (consistent : Consistent sys)
    (narrow : ∀ head ∈ (sys.lists .readytorun).head?, (sys.tcb head).lockcount < 0x7fff) :
    Consistent (schedLock sys) := by
  obtain ⟨head, rest, shape⟩ := consistent.lists.exists_head
  have first : (sys.lists .readytorun).head? = some head := by
    rw [shape]
    rfl
  have bound := narrow head first
  rw [schedLock, shape]
  refine ⟨consistent.lists.setLockcount _, fun front same unlocked => ?_⟩
  cases some.inj (first.symm.trans same)
  refine consistent.held head first (Int.not_lt.mp fun locked => ?_)
  have precise : int16 ((sys.tcb head).lockcount + 1) = (sys.tcb head).lockcount + 1 :=
    Int.bmod_eq_of_le (by omega) (by omega)
  simp only [Sys.setLockcount, update_self, precise] at unlocked
  omega

theorem Consistent.unlock (consistent : Consistent sys) :
    ∃ after, schedUnlock sys = some after ∧ Consistent after := by
  obtain ⟨head, rest, shape⟩ := consistent.lists.exists_head
  rw [schedUnlock, shape]
  dsimp only
  have counted : Lists (if 0 < (sys.tcb head).lockcount then
      sys.setLockcount head ((sys.tcb head).lockcount - 1) else sys) := by
    split
    · exact consistent.lists.setLockcount _
    · exact consistent.lists
  have ready : (if 0 < (sys.tcb head).lockcount then
      sys.setLockcount head ((sys.tcb head).lockcount - 1) else sys).lists .readytorun =
        head :: rest := by
    split <;> exact shape
  generalize (if 0 < (sys.tcb head).lockcount then
    sys.setLockcount head ((sys.tcb head).lockcount - 1) else sys) = now at counted ready ⊢
  split
  · exact (counted.setLockcount 0).release
  · rename_i locked
    refine ⟨now, rfl, counted, fun front first unlocked => absurd unlocked ?_⟩
    rw [ready] at first
    cases first
    exact locked

theorem Lists.addblocked (lists : Lists sys) (away : (sys.tcb task).taskState = .invalid)
    (state : BlockedState) : Lists (schedAddblocked sys task state) := by
  rw [schedAddblocked]
  split
  · exact lists.enter away nofun rfl (schedAddprioritized_perm _ _ _) nofun
  · exact lists.enter away nofun rfl (perm_append_singleton _ _) nofun

end Steps

/-- A task waits in one of the blocked states. -/
def TaskState.isBlocked : TaskState → Bool
  | .blocked _ => true
  | _ => false

/-- What the callers guarantee: a task is added when it is in no list and removed or blocked when it
is ready, only a blocked task is unblocked, and the idle task is left alone. -/
def Allowed (sys : Sys) : Op → Prop
  | .addreadytorun task => (sys.tcb task).taskState = .invalid
  | .removereadytorun task => task ≠ idle ∧ task ∈ sys.lists .readytorun
  | .setpriority task _ => task ≠ idle
  | .block task _ => task ≠ idle ∧ task ∈ sys.lists .readytorun
  | .unblock task => (sys.tcb task).taskState.isBlocked
  | _ => True

instance decidableAllowed (sys : Sys) : ∀ op, Decidable (Allowed sys op)
  | .addreadytorun .. | .removereadytorun .. | .setpriority .. | .block .. | .unblock .. => by
    dsimp only [Allowed]; infer_instance
  | .mergepending | .lock | .unlock => isTrue trivial

/-- The condition of the step: the new priority of a ready task that does not come before the
running task fits the place of the task; the running task is removed without merging only when no
task is pending or the next task has locked the scheduler; and the count of locks does not wrap
around. -/
def Orderly (sys : Sys) : Op → Prop
  | .removereadytorun task =>
    (sys.lists .readytorun).head? = some task → sys.lists .pendingtasks ≠ [] →
      ∀ next ∈ (sys.lists .readytorun).tail.head?, 0 < (sys.tcb next).lockcount
  | .setpriority task priority =>
    (sys.tcb task).taskState = .readytorun →
      schedPriorityMin ≤ priority → priority ≤ schedPriorityMax →
        (∀ head ∈ (sys.lists .readytorun).head?, priority.toNat ≤ sys.priority head) →
          Falling (sys.setPriority task priority.toNat).priority (sys.lists .readytorun)
  | .lock => ∀ head ∈ (sys.lists .readytorun).head?, (sys.tcb head).lockcount < 0x7fff
  | _ => True

instance decidableOrderly (sys : Sys) : ∀ op, Decidable (Orderly sys op)
  | .removereadytorun .. | .setpriority .. | .lock => by dsimp only [Orderly]; infer_instance
  | .addreadytorun .. | .mergepending | .unlock | .block .. | .unblock .. => isTrue trivial

/-- Every step that meets the condition has a result and keeps the invariant. -/
theorem consistent_step (sys : Sys) (op : Op) (consistent : Consistent sys)
    (guarded : Allowed sys op ∧ Orderly sys op) :
    ∃ next, step sys op = some next ∧ Consistent next := by
  have lists := consistent.lists
  obtain ⟨allowed, orderly⟩ := guarded
  cases op with
  | addreadytorun task =>
    obtain ⟨after, added, enters, kept, held, _⟩ := lists.add allowed
    rw [step, enters]
    exact ⟨after, rfl, kept, held consistent.held⟩
  | removereadytorun task =>
    obtain ⟨after, removed, leaves, gone⟩ := lists.remove allowed.2 allowed.1
    rw [step, leaves]
    refine ⟨after, rfl, gone.lists, ?_⟩
    cases removed with
    | false => exact gone.held rfl consistent.held
    | true =>
      have first := gone.head.mp rfl
      obtain ⟨next, rest, shape⟩ := lists.exists_next allowed.1 first
      intro head front unlocked
      rw [gone.ready, shape, erase_cons_head] at front
      cases front
      rw [gone.pending]
      by_contra pending
      have locked := orderly first pending next (by rw [shape]; rfl)
      rw [gone.kept.lockcount] at unlocked
      omega
  | mergepending =>
    obtain ⟨after, changed, merged, kept, empty⟩ := lists.merge
    rw [step, merged]
    exact ⟨after, rfl, kept, held_of_empty empty⟩
  | setpriority task priority =>
    rw [step, nxschedSetpriority]
    split
    · exact ⟨sys, rfl, consistent⟩
    · rename_i range
      simp only [schedPriorityMin, schedPriorityMax] at range
      have positive : 1 ≤ priority.toNat := by omega
      split
      · rename_i runs
        exact consistent.runningSetpriority allowed positive runs
      · rename_i waits
        exact consistent.readytorunSetpriority allowed positive waits
          (orderly waits (by simp only [schedPriorityMin]; omega)
            (by simp only [schedPriorityMax]; omega))
      · rename_i idling waiting
        refine ⟨_, rfl, consistent.blockedSetpriority allowed positive ?_⟩
        cases found : (sys.tcb task).taskState with
        | running => exact absurd found idling
        | readytorun => exact absurd found waiting
        | invalid | pending | blocked => exact nofun
  | lock => exact ⟨_, rfl, consistent.lock orderly⟩
  | unlock => exact consistent.unlock
  | block task state =>
    obtain ⟨after, removed, leaves, gone⟩ := lists.remove allowed.2 allowed.1
    rw [step, upBlockTask, leaves]
    exact (gone.lists.addblocked gone.away state).release
  | unblock task =>
    rw [step, upUnblockTask]
    cases found : (sys.tcb task).taskState with
    | blocked state =>
      have mem : task ∈ sys.lists (.blocked state) := by
        rw [lists.placed.mem, found]
        rfl
      have taken : Lists (schedRemoveblocked sys task state) := lists.leave nofun mem
      obtain ⟨after, added, enters, kept, held, _⟩ := taken.add (setState_self ..)
      dsimp only
      rw [enters]
      refine ⟨after, rfl, kept, held (consistent.held.congr rfl (fun other => ?_) id)⟩
      exact setState_lockcount ..
    | invalid | pending | readytorun | running =>
      rw [Allowed, found] at allowed
      cases allowed

/-- A task that can run, whether the scheduler is locked or not. -/
def TaskState.isReady : TaskState → Bool
  | .pending => true
  | .readytorun => true
  | .running => true
  | _ => false

/-- The lists between operations. -/
structure Ordered (sys : Sys) : Prop where
  ready : Falling sys.priority (sys.lists .readytorun)
  pending : Falling sys.priority (sys.lists .pendingtasks)
  /-- Every task is once in the list that its state names, and in no other. -/
  listed : ∀ list task, (sys.lists list).count task =
    if (sys.tcb task).taskState.tasklist = some list then 1 else 0
  /-- The head of `g_readytorun` runs, and no other task. -/
  running : ∃ head, (sys.lists .readytorun).head? = some head ∧
    ∀ task, (sys.tcb task).taskState = .running ↔ task = head
  /-- When the running task has not locked the scheduler, no task is pending and no ready task has a
  higher priority. -/
  unlocked : ∀ head, (sys.lists .readytorun).head? = some head → (sys.tcb head).lockcount ≤ 0 →
    sys.lists .pendingtasks = [] ∧
      ∀ task, (sys.tcb task).taskState.isReady → sys.priority task ≤ sys.priority head

theorem Lists.highest {sys : Sys} (lists : Lists sys) {head task : Nat}
    (first : (sys.lists .readytorun).head? = some head) (mem : task ∈ sys.lists .readytorun) :
    sys.priority task ≤ sys.priority head := by
  obtain ⟨rest, shape⟩ := List.head?_eq_some_iff.mp first
  have falling := lists.ready
  rw [shape] at falling mem
  rcases mem_cons.mp mem with rfl | later
  · exact Nat.le_refl _
  · exact (pairwise_cons.mp falling).1 task later

theorem Consistent.ordered {sys : Sys} (consistent : Consistent sys) : Ordered sys := by
  have lists := consistent.lists
  obtain ⟨head, rest, shape⟩ := lists.exists_head
  have first : (sys.lists .readytorun).head? = some head := by
    rw [shape]
    rfl
  refine ⟨lists.ready, lists.pending, fun list task => ?_, ⟨head, first, fun task => ?_⟩,
    fun front same unlocked => ?_⟩
  · rw [(lists.placed.nodup list).count]
    exact if_congr (lists.placed.mem list task) rfl rfl
  · rw [lists.running, first, some.injEq]
    exact eq_comm
  · have empty := consistent.held front same unlocked
    refine ⟨empty, fun task ready => lists.highest same ?_⟩
    rw [lists.placed.mem]
    cases found : (sys.tcb task).taskState with
    | running | readytorun => rfl
    | pending =>
      have mem := (lists.placed.mem .pendingtasks task).mpr (by rw [found]; rfl)
      rw [empty] at mem
      cases mem
    | invalid | blocked =>
      rw [found] at ready
      cases ready

theorem boot_tcb {priority : Nat → Nat} {task : Nat} (busy : task ≠ idle) :
    (boot priority).tcb task = ⟨.invalid, priority task, 0⟩ := if_neg busy

theorem consistent_boot {priority : Nat → Nat}
    (positive : ∀ task, task ≠ idle → 1 ≤ priority task) : Consistent (boot priority) := by
  refine ⟨⟨⟨fun list task => ?_, fun list => ?_⟩, pairwise_singleton _ _, List.Pairwise.nil,
    fun task => ?_, mem_singleton.mpr rfl, rfl, fun task busy => ?_⟩, held_of_empty rfl⟩
  · by_cases same : task = idle
    · rw [same]
      cases list with
      | readytorun => exact iff_of_true (mem_singleton.mpr rfl) rfl
      | pendingtasks | blocked => exact iff_of_false nofun nofun
    · rw [boot_tcb same]
      cases list with
      | readytorun => exact iff_of_false (fun mem => same (mem_singleton.mp mem)) nofun
      | pendingtasks | blocked => exact iff_of_false nofun nofun
  · cases list with
    | readytorun => exact pairwise_singleton _ _
    | pendingtasks | blocked => exact nodup_nil
  · by_cases same : task = idle
    · rw [same]
      exact iff_of_true rfl rfl
    · rw [boot_tcb same]
      exact iff_of_false nofun fun first => same (some.inj first).symm
  · rw [Sys.priority, boot_tcb busy]
    exact positive task busy

/-- In every run whose steps meet the condition, every operation has a result and the lists are in
order between operations. -/
theorem ready_lists_ordered (priority : Nat → Nat)
    (positive : ∀ task, task ≠ idle → 1 ≤ priority task) (ops : List Op)
    (allowed : Run.Admitted step Allowed (boot priority) ops)
    (orderly : Run.Admitted step Orderly (boot priority) ops) :
    ∃ final, Run.run step (boot priority) ops = some final ∧ Ordered final := by
  obtain ⟨final, performed, consistent⟩ := Run.run_invariant consistent_step
    (consistent_boot positive) (Run.admitted_and allowed orderly)
  exact ⟨final, performed, consistent.ordered⟩

/-- The priorities of three tasks. -/
def levels : Nat → Nat
  | 1 => 100
  | 2 => 50
  | 3 => 40
  | _ => 1

theorem levels_positive (task : Nat) : 1 ≤ levels task := by
  unfold levels
  split <;> decide

/-- A run in which a task becomes ready while the scheduler is locked, waits for a semaphore and
gets other priorities. -/
theorem ready_lists_ordered_locked :
    ∃ final, Run.run step (boot levels) [.addreadytorun 2, .addreadytorun 3, .lock,
        .addreadytorun 1, .setpriority 3 45, .unlock, .block 1 .waitSem, .setpriority 1 120,
        .unblock 1, .setpriority 1 30] = some final ∧
      final.lists .readytorun = [2, 3, 1, 0] ∧ Ordered final := by
  obtain ⟨final, performed, ordered⟩ := ready_lists_ordered levels
    (fun task _ => levels_positive task) [.addreadytorun 2, .addreadytorun 3, .lock,
      .addreadytorun 1, .setpriority 3 45, .unlock, .block 1 .waitSem, .setpriority 1 120,
      .unblock 1, .setpriority 1 30] (by decide) (by decide)
  have value := congrArg (Option.map fun sys => sys.lists .readytorun) performed
  exact ⟨final, performed, Option.some.inj value.symm, ordered⟩

/-- A ready task that gets a higher priority than the task before it stays behind it. -/
theorem ready_list_unordered :
    Run.Admitted step Allowed (boot levels)
        [.addreadytorun 1, .addreadytorun 2, .addreadytorun 3, .setpriority 3 60] ∧
      ∃ final, Run.run step (boot levels)
          [.addreadytorun 1, .addreadytorun 2, .addreadytorun 3, .setpriority 3 60] = some final ∧
        (final.lists .readytorun).map (fun task => (task, final.priority task)) =
          [(1, 100), (2, 50), (3, 60), (0, 0)] ∧ ¬ Ordered final := by
  refine ⟨by decide, _, rfl, by decide, fun ordered => ?_⟩
  exact absurd ordered.ready (by decide)

end Chewie.Sched.Ready
