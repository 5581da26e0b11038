import Mathlib.Order.Interval.Finset.Nat
import Chewie.Sched.Mqueue.Model
import Chewie.Sched.Sem.Count

/-!
# The tasks that wait for message queues

The counters of a queue are the numbers of listed tasks that wait for it. They are of type
`int16_t`, and so are task identifiers, so that there are never more waiting tasks than a counter
can count. Hence a counter that is not zero has a task in the list, and waking one always finds it.
-/

namespace Chewie.Sched.Mqueue

open Function List

variable {κ : Type}

/-- Nothing that the record of messages depends on has changed. -/
structure SameBooks (sys next : Sys κ) : Prop where
  phase : next.phase = sys.phase
  queue : ∀ msgq, ∃ nwait ntpid,
    next.queue msgq = { sys.queue msgq with nwait := nwait, ntpid := ntpid }

theorem SameBooks.trans {sys second third : Sys κ} (early : SameBooks sys second)
    (late : SameBooks second third) : SameBooks sys third := by
  refine ⟨late.phase.trans early.phase, fun msgq => ?_⟩
  obtain ⟨nwait, ntpid, before⟩ := early.queue msgq
  obtain ⟨nwait', ntpid', after⟩ := late.queue msgq
  exact ⟨nwait', ntpid', by rw [after, before]⟩

variable [DecidableEq κ] {sys : Sys κ} {task : Nat} {wait : Wait} {msgq : κ}

/-- The number of listed tasks that wait for a queue. -/
def waitCount (sys : Sys κ) (wait : Wait) (msgq : κ) : Nat :=
  (sys.waiting wait).countP fun task => (sys.tcb task).msgwaitq = some msgq

/-- The lists, the states of the tasks and the counters agree. -/
structure Waits (sys : Sys κ) : Prop where
  listed : ∀ wait task, task ∈ sys.waiting wait ↔ (sys.tcb task).taskState = .waiting wait
  distinct : ∀ wait, (sys.waiting wait).Nodup
  somewhere : ∀ wait, ∀ task ∈ sys.waiting wait, ∃ msgq, (sys.tcb task).msgwaitq = some msgq
  pids : ∀ wait, ∀ task ∈ sys.waiting wait, 0 < task ∧ task < pidCount
  counted : ∀ wait msgq, (sys.queue msgq).nwait wait = waitCount sys wait msgq

theorem length_pids {list : List Nat} (distinct : list.Nodup)
    (pids : ∀ task ∈ list, 0 < task ∧ task < pidCount) : list.length ≤ 0x7fff := by
  have inside : list.toFinset ⊆ Finset.Ico 1 pidCount := by
    intro task mem
    have bounds := pids task (mem_toFinset.mp mem)
    exact Finset.mem_Ico.mpr bounds
  have card := Finset.card_le_card inside
  rw [toFinset_card_of_nodup distinct, Nat.card_Ico] at card
  exact card

theorem Waits.congr (waits : Waits sys) {next : Sys κ} (waiting : next.waiting = sys.waiting)
    (tcb : next.tcb = sys.tcb)
    (nwait : ∀ msgq, (next.queue msgq).nwait = (sys.queue msgq).nwait) : Waits next := by
  refine ⟨?_, ?_, ?_, ?_, ?_⟩
  · rw [waiting, tcb]
    exact waits.listed
  · rw [waiting]
    exact waits.distinct
  · rw [waiting, tcb]
    exact waits.somewhere
  · rw [waiting]
    exact waits.pids
  · intro wait msgq
    rw [nwait, waits.counted, waitCount, waitCount, waiting, tcb]

theorem countP_update {list : List Nat} (absent : task ∉ list) (tcb : Nat → Tcb κ)
    (changed : Tcb κ) (msgq : κ) :
    (list.countP fun other => (update tcb task changed other).msgwaitq = some msgq) =
      list.countP fun other => (tcb other).msgwaitq = some msgq := by
  refine countP_congr fun other mem => ?_
  have different : other ≠ task := fun same => absent (same ▸ mem)
  rw [update_of_ne different]

/-- A task that enters or leaves one list, with the counter of its queue. -/
theorem Waits.change (waits : Waits sys) {list : List Nat} {changed : Tcb κ} {next : Sys κ}
    (waiting : next.waiting = update sys.waiting wait list)
    (tcb : next.tcb = update sys.tcb task changed)
    (outside : ∀ other ≠ wait, task ∉ sys.waiting other ∧ changed.taskState ≠ .waiting other)
    (others : ∀ other ≠ task, other ∈ list ↔ other ∈ sys.waiting wait)
    (itself : task ∈ list ↔ changed.taskState = .waiting wait)
    (entered : task ∈ list → (∃ msgq, changed.msgwaitq = some msgq) ∧ 0 < task ∧ task < pidCount)
    (distinct : list.Nodup) (counted : ∀ msgq, (next.queue msgq).nwait wait =
      list.countP fun other => (next.tcb other).msgwaitq = some msgq)
    (untouched : ∀ msgq, ∀ other ≠ wait,
      (next.queue msgq).nwait other = (sys.queue msgq).nwait other) : Waits next := by
  have lists : ∀ kind other, other ≠ task →
      (other ∈ next.waiting kind ↔ other ∈ sys.waiting kind) := by
    intro kind other different
    rw [waiting]
    by_cases same : kind = wait
    · subst same
      rw [update_self]
      exact others other different
    · rw [update_of_ne same]
  have away : ∀ kind, kind ≠ wait → next.waiting kind = sys.waiting kind := by
    intro kind different
    rw [waiting, update_of_ne different]
  have here : next.waiting wait = list := by rw [waiting, update_self]
  have fields : ∀ kind, task ∈ next.waiting kind → kind = wait := by
    intro kind mem
    by_contra different
    rw [away kind different] at mem
    exact (outside kind different).1 mem
  refine ⟨fun kind other => ?_, fun kind => ?_, fun kind other mem => ?_, fun kind other mem => ?_,
    fun kind msgq => ?_⟩
  · by_cases same : other = task
    · subst same
      rw [tcb, update_self]
      by_cases kindSame : kind = wait
      · subst kindSame
        rw [here]
        exact itself
      · rw [away kind kindSame]
        exact iff_of_false (outside kind kindSame).1 (outside kind kindSame).2
    · rw [lists kind other same, tcb, update_of_ne same]
      exact waits.listed kind other
  · by_cases same : kind = wait
    · subst same
      rw [here]
      exact distinct
    · rw [away kind same]
      exact waits.distinct kind
  · by_cases same : other = task
    · subst same
      rw [tcb, update_self]
      rw [fields kind mem, here] at mem
      exact (entered mem).1
    · rw [tcb, update_of_ne same]
      exact waits.somewhere kind other ((lists kind other same).mp mem)
  · by_cases same : other = task
    · subst same
      rw [fields kind mem, here] at mem
      exact (entered mem).2
    · exact waits.pids kind other ((lists kind other same).mp mem)
  · by_cases same : kind = wait
    · subst same
      rw [counted, waitCount, here]
    · rw [untouched msgq kind same, waits.counted, waitCount, waitCount, away kind same, tcb,
        countP_update (outside kind same).1]

theorem setWait_nwait (sys : Sys κ) (msgq : κ) (wait : Wait) (count : Int) (other : κ)
    (kind : Wait) :
    ((sys.setWait msgq wait count).queue other).nwait kind =
      if other = msgq ∧ kind = wait then int16 count else (sys.queue other).nwait kind := by
  simp only [Sys.setWait, Sys.setQueue]
  by_cases same : other = msgq
  · subst same
    by_cases kindSame : kind = wait
    · subst kindSame
      simp
    · simp [kindSame]
  · simp [same]

theorem Waits.absent (waits : Waits sys) (ready : (sys.tcb task).taskState = .ready)
    (wait : Wait) : task ∉ sys.waiting wait := by
  rw [waits.listed, ready]
  exact nofun

theorem setWait_counted {change : Int} {total : κ → Nat}
    (value : (sys.queue msgq).nwait wait + change = total msgq) (small : total msgq ≤ 0x7fff)
    (rest : ∀ other ≠ msgq, (sys.queue other).nwait wait = total other) (other : κ) :
    ((sys.setWait msgq wait ((sys.queue msgq).nwait wait + change)).queue other).nwait wait =
      total other := by
  rw [setWait_nwait]
  by_cases same : other = msgq
  · subst same
    rw [if_pos ⟨rfl, rfl⟩, value]
    refine int16_of_narrow ?_
    simp only [Narrow, semValueMax]
    omega
  · rw [if_neg (fun both => same both.1)]
    exact rest other same

/-- Blocking a task keeps the lists. -/
theorem Waits.block (waits : Waits sys) (runs : Runs sys task) (wait : Wait) (msgq : κ) :
    Waits (block sys task wait msgq) := by
  obtain ⟨positive, small, ready⟩ := runs
  have absent := waits.absent ready wait
  have perm := schedAddprioritized_perm (fun other => (sys.tcb other).schedPriority) task
    (sys.waiting wait)
  generalize made : schedAddprioritized (fun other => (sys.tcb other).schedPriority) task
    (sys.waiting wait) = list at perm
  have waiting : (Mqueue.block sys task wait msgq).waiting =
      update sys.waiting wait list := by
    rw [← made]
    rfl
  have distinct : (task :: sys.waiting wait).Nodup := nodup_cons.mpr ⟨absent, waits.distinct wait⟩
  have short : (task :: sys.waiting wait).length ≤ 0x7fff := by
    refine length_pids distinct fun other mem => ?_
    rcases mem_cons.mp mem with rfl | old
    · exact ⟨positive, small⟩
    · exact waits.pids wait other old
  refine waits.change waiting rfl (fun other different => ⟨waits.absent ready other, ?_⟩)
    (fun other different => ?_) ?_ (fun _ => ⟨⟨msgq, rfl⟩, positive, small⟩)
    (perm.nodup_iff.mpr distinct) ?_ (fun other kind different => ?_)
  · simpa using Ne.symm different
  · rw [perm.mem_iff, mem_cons, or_iff_right different]
  · exact iff_of_true (perm.mem_iff.mpr mem_cons_self) rfl
  · have total : ∀ other, (list.countP fun one =>
        ((Mqueue.block sys task wait msgq).tcb one).msgwaitq = some other) =
        waitCount sys wait other + if msgq = other then 1 else 0 := by
      intro other
      have before := countP_update absent sys.tcb
        { sys.tcb task with
          msgwaitq := some msgq, pterrno := .ok, taskState := .waiting wait } other
      rw [perm.countP_eq, countP_cons]
      refine congrArg₂ (· + ·) before ?_
      simp [Mqueue.block]
    have bound : waitCount sys wait msgq ≤ (sys.waiting wait).length := countP_le_length
    have value := waits.counted wait msgq
    have mine := total msgq
    rw [if_pos rfl] at mine
    rw [length_cons] at short
    refine setWait_counted ?_ ?_ ?_
    · omega
    · rw [mine]
      omega
    · intro other different
      rw [total, if_neg (Ne.symm different)]
      exact waits.counted wait other
  · exact (setWait_nwait sys msgq wait _ other kind).trans (if_neg fun both => different both.2)

/-- Taking a waiting task out of its list keeps the lists. -/
theorem Waits.unblock (waits : Waits sys) (blocked : (sys.tcb task).taskState = .waiting wait)
    (queue : (sys.tcb task).msgwaitq = some msgq) (errcode : Errno) :
    Waits (unblock sys task wait msgq errcode) := by
  have mem : task ∈ sys.waiting wait := (waits.listed wait task).mpr blocked
  have gone : task ∉ (sys.waiting wait).erase task := (waits.distinct wait).not_mem_erase
  have waiting : (Mqueue.unblock sys task wait msgq errcode).waiting =
      update sys.waiting wait ((sys.waiting wait).erase task) := rfl
  refine waits.change waiting rfl (fun other different => ⟨fun listed => ?_, nofun⟩)
    (fun other different => mem_erase_of_ne different) (iff_of_false gone nofun)
    (fun listed => absurd listed gone) ((waits.distinct wait).erase task) ?_
    (fun other kind different => ?_)
  · have state := (waits.listed other task).mp listed
    rw [blocked] at state
    exact different (MqState.waiting.inj state).symm
  · have total : ∀ other, waitCount sys wait other =
        (((sys.waiting wait).erase task).countP fun one =>
          ((Mqueue.unblock sys task wait msgq errcode).tcb one).msgwaitq = some other) +
          if msgq = other then 1 else 0 := by
      intro other
      have after := countP_update gone sys.tcb
        { sys.tcb task with msgwaitq := none, pterrno := errcode, taskState := .ready } other
      rw [waitCount, (perm_cons_erase mem).countP_eq, countP_cons]
      refine congrArg₂ (· + ·) after.symm ?_
      simp [queue]
    have bound : waitCount sys wait msgq ≤ (sys.waiting wait).length := countP_le_length
    have short := length_pids (waits.distinct wait) (waits.pids wait)
    have value := waits.counted wait msgq
    have mine := total msgq
    rw [if_pos rfl] at mine
    refine setWait_counted ?_ ?_ ?_
    · omega
    · omega
    · intro other different
      have same := total other
      rw [if_neg (Ne.symm different)] at same
      rw [waits.counted wait other, same]
      rfl
  · exact (setWait_nwait sys msgq wait _ other kind).trans (if_neg fun both => different both.2)

theorem sameBooks_setWait (sys : Sys κ) (msgq : κ) (wait : Wait) (count : Int)
    (waiting : Wait → List Nat) (tcb : Nat → Tcb κ) :
    SameBooks sys { sys.setWait msgq wait count with waiting := waiting, tcb := tcb } := by
  refine ⟨rfl, fun other => ?_⟩
  by_cases same : other = msgq
  · subst same
    exact ⟨_, (sys.queue other).ntpid, update_self _ _ _⟩
  · exact ⟨(sys.queue other).nwait, (sys.queue other).ntpid, update_of_ne same _ _⟩

theorem Waits.wake (waits : Waits sys) (wait : Wait) (msgq : κ) :
    ∃ next, wake sys wait msgq = some next ∧ Waits next ∧ SameBooks sys next := by
  rw [Mqueue.wake]
  split
  · rename_i positive
    have nonempty : 0 < waitCount sys wait msgq := by
      rw [waits.counted] at positive
      exact_mod_cast positive
    obtain ⟨task, mem, waiting⟩ := countP_pos_iff.mp nonempty
    cases found : (sys.waiting wait).find? fun task => (sys.tcb task).msgwaitq = some msgq with
    | none => exact absurd waiting (List.find?_eq_none.mp found task mem)
    | some btcb =>
      have blocked := (waits.listed wait btcb).mp (mem_of_find?_eq_some found)
      have test := List.find?_some found
      have queue := of_decide_eq_true test
      exact ⟨_, rfl, waits.unblock blocked queue _, sameBooks_setWait sys msgq wait _ _ _⟩
  · exact ⟨sys, rfl, waits, rfl, fun other => ⟨_, _, rfl⟩⟩

theorem Waits.waitIrq (waits : Waits sys) (wtcb : Nat) (errcode : Errno) :
    ∃ next, nxmqWaitIrq sys wtcb errcode = some next ∧ Waits next ∧ SameBooks sys next := by
  rw [nxmqWaitIrq]
  cases state : (sys.tcb wtcb).taskState with
  | ready => exact ⟨sys, rfl, waits, rfl, fun other => ⟨_, _, rfl⟩⟩
  | waiting wait =>
    obtain ⟨msgq, queue⟩ := waits.somewhere wait wtcb ((waits.listed wait wtcb).mpr state)
    rw [queue]
    exact ⟨_, rfl, waits.unblock state queue errcode, sameBooks_setWait sys msgq wait _ _ _⟩

theorem Waits.notify (waits : Waits sys) (msgq : κ) (reached : Bool) :
    ∃ next, notify sys msgq reached = some next ∧ Waits next ∧ SameBooks sys next := by
  rw [Mqueue.notify]
  split
  · exact ⟨sys, rfl, waits, rfl, fun other => ⟨_, _, rfl⟩⟩
  · rename_i pid found
    have books : SameBooks sys (sys.setQueue msgq { sys.queue msgq with ntpid := none }) := by
      refine ⟨rfl, fun other => ?_⟩
      by_cases same : other = msgq
      · subst same
        exact ⟨_, _, update_self _ _ _⟩
      · exact ⟨(sys.queue other).nwait, (sys.queue other).ntpid, update_of_ne same _ _⟩
    have detached : Waits (sys.setQueue msgq { sys.queue msgq with ntpid := none }) := by
      refine waits.congr rfl rfl fun other => ?_
      by_cases same : other = msgq
      · subst same
        simp [Sys.setQueue]
      · simp [Sys.setQueue, same]
    cases reached with
    | false => exact ⟨_, rfl, detached, books⟩
    | true =>
      obtain ⟨next, ended, kept, same⟩ := detached.waitIrq pid .eintr
      exact ⟨next, ended, kept, books.trans same⟩

end Chewie.Sched.Mqueue
