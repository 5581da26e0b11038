import Chewie.Sched.Ready.Model
import Chewie.Sched.Sem.Count

/-!
# Tasks in the list of their state

`Lists` says that every task is in the list that its state names, that the two lists of ready tasks
are in the order of priority, and that the head of `g_readytorun` is the running task. The lemmas
here say which changes of a list and a state keep this. They are put together for the operations of
the scheduler.
-/

namespace Chewie.Sched.Ready

open Function List Sys

/-- A list is in the order of priority. -/
def Falling (priority : Nat → Nat) (tasks : List Nat) : Prop :=
  tasks.Pairwise fun first second => priority second ≤ priority first

instance decidableFalling (priority : Nat → Nat) (tasks : List Nat) :
    Decidable (Falling priority tasks) :=
  inferInstanceAs (Decidable (List.Pairwise _ tasks))

/-- Every task is in the list that its state names, once, and in no other. -/
structure Placed (sys : Sys) : Prop where
  mem : ∀ list task, task ∈ sys.lists list ↔ (sys.tcb task).taskState.tasklist = some list
  nodup : ∀ list, (sys.lists list).Nodup

/-- The order and the states of the tasks in the lists. -/
structure Lists (sys : Sys) : Prop where
  placed : Placed sys
  ready : Falling sys.priority (sys.lists .readytorun)
  pending : Falling sys.priority (sys.lists .pendingtasks)
  running : ∀ task, (sys.tcb task).taskState = .running ↔
    (sys.lists .readytorun).head? = some task
  idle_ready : idle ∈ sys.lists .readytorun
  idle_priority : sys.priority idle = 0
  priorities : ∀ task, task ≠ idle → 1 ≤ sys.priority task

section Updates

variable (sys : Sys) (task other : Nat)

theorem field_update {α : Type} (field : Tcb → α) {tcb : Nat → Tcb} {value : Tcb}
    (same : field value = field (tcb task)) :
    field (update tcb task value other) = field (tcb other) := by
  by_cases here : other = task
  · rw [here, update_self, same]
  · rw [update_of_ne here]

@[simp] theorem setState_self (state : TaskState) :
    ((sys.setState task state).tcb task).taskState = state := by
  simp [setState]

theorem setState_other {task other : Nat} (different : other ≠ task) (state : TaskState) :
    (sys.setState task state).tcb other = sys.tcb other :=
  update_of_ne different _ _

@[simp] theorem setState_priority (state : TaskState) :
    (sys.setState task state).priority = sys.priority :=
  funext fun other => field_update task other Tcb.schedPriority rfl

@[simp] theorem setState_lockcount (state : TaskState) :
    ((sys.setState task state).tcb other).lockcount = (sys.tcb other).lockcount :=
  field_update task other Tcb.lockcount rfl

@[simp] theorem setState_lists (state : TaskState) :
    (sys.setState task state).lists = sys.lists := rfl

@[simp] theorem setState_setState (first second : TaskState) :
    (sys.setState task first).setState task second = sys.setState task second := by
  simp [setState]

theorem setState_comm {task other : Nat} (different : task ≠ other) (first second : TaskState) :
    (sys.setState task first).setState other second =
      (sys.setState other second).setState task first := by
  simp only [setState, update_of_ne different, update_of_ne different.symm]
  rw [update_comm different]

@[simp] theorem setList_self (list : Tasklist) (tasks : List Nat) :
    (sys.setList list tasks).lists list = tasks := update_self ..

theorem setList_other {list kept : Tasklist} (different : kept ≠ list) (tasks : List Nat) :
    (sys.setList list tasks).lists kept = sys.lists kept :=
  update_of_ne different _ _

@[simp] theorem setList_tcb (list : Tasklist) (tasks : List Nat) :
    (sys.setList list tasks).tcb = sys.tcb := rfl

@[simp] theorem setList_priority (list : Tasklist) (tasks : List Nat) :
    (sys.setList list tasks).priority = sys.priority := rfl

@[simp] theorem setList_setList (list : Tasklist) (first second : List Nat) :
    (sys.setList list first).setList list second = sys.setList list second := by
  simp [setList]

theorem setList_comm {list kept : Tasklist} (different : list ≠ kept) (first second : List Nat) :
    (sys.setList list first).setList kept second = (sys.setList kept second).setList list first := by
  simp only [setList]
  rw [update_comm different]

@[simp] theorem setList_eq (list : Tasklist) : sys.setList list (sys.lists list) = sys := by
  simp [setList]

@[simp] theorem setPriority_lists (priority : Nat) :
    (sys.setPriority task priority).lists = sys.lists := rfl

@[simp] theorem setPriority_state (priority : Nat) :
    ((sys.setPriority task priority).tcb other).taskState = (sys.tcb other).taskState :=
  field_update task other Tcb.taskState rfl

@[simp] theorem setPriority_lockcount (priority : Nat) :
    ((sys.setPriority task priority).tcb other).lockcount = (sys.tcb other).lockcount :=
  field_update task other Tcb.lockcount rfl

@[simp] theorem setPriority_self (priority : Nat) :
    (sys.setPriority task priority).priority task = priority := by
  simp [Sys.setPriority, Sys.priority]

theorem setPriority_other {task other : Nat} (different : other ≠ task) (priority : Nat) :
    (sys.setPriority task priority).priority other = sys.priority other := by
  simp only [Sys.setPriority, Sys.priority, update_of_ne different]

@[simp] theorem setLockcount_state (count : Int) :
    ((sys.setLockcount task count).tcb other).taskState = (sys.tcb other).taskState :=
  field_update task other Tcb.taskState rfl

@[simp] theorem setLockcount_priority (count : Int) :
    (sys.setLockcount task count).priority = sys.priority :=
  funext fun other => field_update task other Tcb.schedPriority rfl

end Updates

section Order

variable {priority changed : Nat → Nat} {task : Nat} {tasks : List Nat}

theorem Falling.insert (falling : Falling priority tasks) :
    Falling priority (schedAddprioritized priority task tasks) := by
  rw [schedAddprioritized_eq]
  exact Stable.insert_pairwise (fun _ _ lower => lower) (fun _ lower => Nat.le_of_lt lower)
    (fun _ _ behind => behind) falling

theorem Falling.congr (falling : Falling priority tasks)
    (same : ∀ other ∈ tasks, changed other = priority other) : Falling changed tasks := by
  refine falling.imp_of_mem fun memFirst memSecond lower => ?_
  rw [same _ memFirst, same _ memSecond]
  exact lower

theorem insert_of_addsHead (adds : addsHead priority task tasks) :
    schedAddprioritized priority task tasks = task :: tasks := by
  cases tasks with
  | nil => rfl
  | cons next rest =>
    have lower : priority next < priority task := by simpa [addsHead] using adds
    rw [schedAddprioritized, if_neg (by omega)]

theorem insert_head (behind : ¬ addsHead priority task tasks) :
    (schedAddprioritized priority task tasks).head? = tasks.head? := by
  cases tasks with
  | nil => exact absurd rfl behind
  | cons next rest =>
    have higher : priority task ≤ priority next := by simpa [addsHead] using behind
    rw [schedAddprioritized, if_pos higher]
    rfl

end Order

section Placing

variable {sys : Sys} {task : Nat} {list : Tasklist} {tasks : List Nat} {state : TaskState}

section

variable (placed : Placed sys)

include placed

theorem Placed.change (nodup : tasks.Nodup)
    (others : ∀ other, other ≠ task → (other ∈ tasks ↔ other ∈ sys.lists list))
    (here : task ∈ tasks ↔ state.tasklist = some list)
    (elsewhere : ∀ kept, kept ≠ list → (task ∈ sys.lists kept ↔ state.tasklist = some kept)) :
    Placed ((sys.setList list tasks).setState task state) := by
  constructor
  · intro kept other
    rw [setState_lists]
    by_cases same : kept = list
    · rw [same, setList_self]
      by_cases moved : other = task
      · rw [moved, setState_self]
        exact here
      · rw [setState_other _ moved, others other moved]
        exact placed.mem list other
    rw [setList_other _ same]
    by_cases moved : other = task
    · rw [moved, setState_self]
      exact elsewhere kept same
    · rw [setState_other _ moved]
      exact placed.mem kept other
  · intro kept
    rw [setState_lists]
    by_cases same : kept = list
    · rw [same, setList_self]
      exact nodup
    · rw [setList_other _ same]
      exact placed.nodup kept

theorem Placed.enter (away : (sys.tcb task).taskState = .invalid)
    (enters : tasks.Perm (task :: sys.lists list)) (named : state.tasklist = some list) :
    Placed ((sys.setList list tasks).setState task state) := by
  have outside : ∀ kept, task ∉ sys.lists kept := fun kept mem => by
    have found := (placed.mem kept task).mp mem
    rw [away] at found
    cases found
  refine placed.change (enters.nodup_iff.mpr
    (nodup_cons.mpr ⟨outside list, placed.nodup list⟩)) (fun other different => ?_) ?_ ?_
  · rw [enters.mem_iff, mem_cons]
    exact or_iff_right different
  · exact iff_of_true (enters.mem_iff.mpr mem_cons_self) named
  · intro kept different
    refine iff_of_false (outside kept) fun other => different ?_
    rw [named] at other
    exact (Option.some.inj other).symm

theorem Placed.leave (mem : task ∈ sys.lists list) :
    Placed ((sys.setList list ((sys.lists list).erase task)).setState task .invalid) := by
  have nodup := placed.nodup list
  refine placed.change (nodup.erase task) (fun other different => ?_) ?_ ?_
  · exact mem_erase_of_ne different
  · exact iff_of_false nodup.not_mem_erase nofun
  · intro kept different
    refine iff_of_false (fun other => different ?_) nofun
    have first := (placed.mem list task).mp mem
    rw [(placed.mem kept task).mp other] at first
    exact Option.some.inj first

theorem Placed.setState (same : state.tasklist = (sys.tcb task).taskState.tasklist) :
    Placed (sys.setState task state) := by
  refine ⟨fun list other => ?_, placed.nodup⟩
  by_cases here : other = task
  · rw [here, setState_self, same]
    exact placed.mem list task
  · rw [setState_other _ here]
    exact placed.mem list other

theorem Placed.setPriority (priority : Nat) : Placed (sys.setPriority task priority) :=
  ⟨fun list other => by rw [setPriority_lists, setPriority_state]; exact placed.mem list other,
    placed.nodup⟩

end

end Placing

end Chewie.Sched.Ready
