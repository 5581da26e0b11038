import Chewie.Sched.Inherit.Record
import Chewie.Sched.Inherit.View

/-!
# Calls on mutexes

A semaphore that begins with one count and is posted by its holder is a mutex. `Sems.Sound` says
what holds between calls, and the theorems here say what each call does to owners, waiters and
ledgers: the model of the code refines the operations of `View`.
-/

namespace Chewie.Sched.Inherit

open Chewie Function Multiset Sems View Kernel

variable {ι : Type} [DecidableEq ι]

namespace Sems

/-- Owners, waiters and ledgers of the semaphores. -/
def view (sems : Sems ι) : View ι :=
  { ledger := sems.ledger
    waits := fun task => (sems.kernel.tcb task).waitsem
    waiting := sems.kernel.waiting
    owner := fun sem => (sems.holders sem).head?.map Holder.htcb }

/-- Counts, waiters and ledgers are in order. -/
structure Core (nnestprio : Nat) (sems : Sems ι) : Prop where
  counted : sems.kernel.Counted
  valid : ∀ task, Valid nnestprio (sems.ledger task)
  waits : ∀ task, (sems.kernel.tcb task).taskState = .waitSem →
    (sems.kernel.tcb task).waitsem ≠ none

/-- The semaphores are mutexes. -/
structure Sound (nnestprio : Nat) (sems : Sems ι) : Prop extends
    Sems.Core nnestprio sems where
  /-- A mutex is free with one count, or one task holds it. -/
  mutex : ∀ sem, (sems.holders sem = [] ∧ sems.kernel.semcount sem = 1) ∨
    ∃ htcb, sems.holders sem = [⟨htcb, 1⟩] ∧ sems.kernel.semcount sem ≤ 0

section Views

variable {sems next : Sems ι} {task nnestprio : Nat} {sem : ι} {ledger : Ledger}

section

omit [DecidableEq ι]

theorem Becomes.view (becomes : sems.Becomes next task ledger) :
    next.view = { sems.view with ledger := update sems.view.ledger task ledger } := by
  apply View.ext
  · exact becomes.ledgers
  · exact funext becomes.moves.waitsem
  · exact coe_eq_coe.2 becomes.moves.waiting
  · change (fun sem => (next.holders sem).head?.map Holder.htcb) = _
    rw [becomes.moves.holders]
    rfl

theorem view_setTcb {tcb : Tcb ι} (waiting : List Nat)
    (same : tcb.schedPriority = (sems.kernel.tcb task).schedPriority) :
    ({ sems with kernel := { sems.kernel.setTcb task tcb with waiting } } : Sems ι).view =
      { sems.view with waits := update sems.view.waits task tcb.waitsem, waiting } := by
  apply View.ext
  · funext other
    by_cases here : other = task
    · simp [view, ledger, schedPriority, setTcb, here, same]
    · simp [view, ledger, schedPriority, setTcb, update_of_ne here]
  · exact funext fun other => apply_update (fun _ => Tcb.waitsem) sems.kernel.tcb task tcb other
  · rfl
  · rfl

theorem view_block (sems : Sems ι) (task : Nat) (sem : ι) :
    ({ sems with kernel := sems.kernel.block task sem } : Sems ι).view =
      sems.view.enter task sem := by
  refine (view_setTcb _ ?_).trans ?_
  · rfl
  · rw [coe_eq_coe.2 (schedAddprioritized_perm _ task _)]
    rfl

theorem view_unblock (sems : Sems ι) (task : Nat) (errcode : Errno) :
    (sems.unblock task errcode).view = sems.view.drop task := by
  refine (view_setTcb _ ?_).trans ?_
  · rfl
  · rfl

theorem setTcb_free (free : (sems.kernel.tcb task).waitsem = none) :
    sems.kernel.setTcb task { sems.kernel.tcb task with waitsem := none } = sems.kernel := by
  have same : ({ sems.kernel.tcb task with waitsem := none } : Tcb ι) = sems.kernel.tcb task := by
    rw [← free]
  unfold setTcb
  rw [same, update_eq_self]

theorem view_owner {htcb counts : Nat} (held : sems.holders sem = [⟨htcb, counts⟩]) :
    sems.view.owner sem = some htcb := by
  change (sems.holders sem).head?.map Holder.htcb = some htcb
  rw [held]
  rfl

theorem view_distinct (listed : sems.kernel.Listed) : sems.view.waiting.Nodup :=
  coe_nodup.2 listed.distinct

theorem view_bound {htcb : Nat} (waits : (sems.kernel.tcb task).waitsem = some sem)
    (owned : sems.view.owner sem = some htcb) :
    (sems.view.waits task).bind sems.view.owner = some htcb := by
  change ((sems.kernel.tcb task).waitsem).bind sems.view.owner = some htcb
  rw [waits]
  exact owned

end

theorem Becomes.core (becomes : sems.Becomes next task ledger) (core : sems.Core nnestprio)
    (valid : Valid nnestprio ledger) : next.Core nnestprio := by
  constructor
  · exact becomes.moves.counted core.counted
  · intro other
    by_cases same : other = task
    · rw [same, becomes.same]
      exact valid
    · rw [becomes.other same]
      exact core.valid other
  · intro other blocked
    rw [becomes.moves.taskState] at blocked
    rw [becomes.moves.waitsem]
    exact core.waits other blocked

theorem view_setHolders (sems : Sems ι) (sem : ι) (holders : List Holder) :
    (sems.setHolders sem holders).view = sems.view.give sem (holders.head?.map Holder.htcb) := by
  apply View.ext
  · rfl
  · rfl
  · rfl
  · funext other
    by_cases same : other = sem
    · subst same
      simp [view, setHolders, give]
    · simp [view, setHolders, give, update_of_ne same]

end Views

end Sems

section Calls

variable {sems : Sems ι} {task nnestprio : Nat} {sem : ι}

theorem Sems.Sound.held (sound : sems.Sound nnestprio) {htcb : Nat}
    (owned : sems.view.owner sem = some htcb) :
    sems.holders sem = [⟨htcb, 1⟩] ∧ sems.kernel.semcount sem ≤ 0 := by
  rcases sound.mutex sem with ⟨free, _⟩ | ⟨other, held, taken⟩
  · change (sems.holders sem).head?.map Holder.htcb = some htcb at owned
    rw [free] at owned
    cases owned
  · rw [view_owner held, Option.some.injEq] at owned
    rw [owned] at held
    exact ⟨held, taken⟩

theorem Sems.Sound.taken (sound : sems.Sound nnestprio)
    (taken : sems.kernel.semcount sem ≤ 0) : ∃ htcb, sems.view.owner sem = some htcb := by
  rcases sound.mutex sem with ⟨_, one⟩ | ⟨htcb, held, _⟩
  · omega
  · exact ⟨htcb, view_owner held⟩

theorem Sems.Sound.waiter (sound : sems.Sound nnestprio)
    (waits : (sems.kernel.tcb task).waitsem = some sem) :
    task ∈ sems.view.waiting ∧ sems.kernel.semcount sem < 0 ∧
      ∃ htcb, sems.view.owner sem = some htcb := by
  have listed := sound.counted.listed
  have negative := sound.counted.negative waits
  refine ⟨?_, negative, sound.taken (Int.le_of_lt negative)⟩
  exact mem_coe.2 ((listed.blocked task).2 (listed.waits task sem waits))

theorem Sems.Core.ready (core : sems.Core nnestprio)
    (ready : (sems.kernel.tcb task).taskState = .ready) :
    (sems.kernel.tcb task).waitsem = none ∧ task ∉ sems.view.waiting := by
  have listed := core.counted.listed
  have awake : (sems.kernel.tcb task).taskState ≠ .waitSem := by
    rw [ready]
    decide
  constructor
  · cases waits : (sems.kernel.tcb task).waitsem with
    | none => rfl
    | some sem => exact absurd (listed.waits task sem waits) awake
  · exact fun mem => listed.absent awake (mem_coe.1 mem)

theorem Sems.Core.int16_succ (core : sems.Core nnestprio)
    (waits : (sems.kernel.tcb task).waitsem = some sem) :
    int16 (sems.kernel.semcount sem + 1) = sems.kernel.semcount sem + 1 := by
  have negative := core.counted.negative waits
  have narrow := core.counted.narrow sem
  unfold Narrow at narrow
  exact int16_of_narrow ⟨by omega, by unfold semValueMax; omega⟩

theorem Sems.Core.unblock (core : sems.Core nnestprio)
    (waits : (sems.kernel.tcb task).waitsem = some sem) (errcode : Errno) :
    ((sems.addCount sem 1).unblock task errcode).Core nnestprio := by
  have view := view_unblock (sems.addCount sem 1) task errcode
  refine ⟨core.counted.unblock waits errcode, ?_, ?_⟩
  · intro other
    have ledger := congrFun (congrArg View.ledger view) other
    change Sems.ledger _ other = sems.ledger other at ledger
    rw [ledger]
    exact core.valid other
  · intro other blocked
    by_cases same : other = task
    · subst same
      simp [Sems.unblock, Kernel.unblock, Kernel.setTcb] at blocked
    · simp only [Sems.unblock, Kernel.unblock, Kernel.setTcb, update_of_ne same] at blocked ⊢
      exact core.waits other blocked

theorem nxsemReleaseholder_single (held : sems.holders sem = [⟨task, 1⟩]) :
    nxsemReleaseholder sems task sem = sems.setHolders sem [⟨task, 0⟩] := by
  unfold nxsemReleaseholder
  rw [held]
  simp [modifyHolder]

section

variable (sound : sems.Sound nnestprio)

include sound

theorem Sems.Sound.mutexes {next : Sems ι} {holders : List Holder} {count : Int}
    (list : next.holders = update sems.holders sem holders)
    (counts : next.kernel.semcount = update sems.kernel.semcount sem count)
    (here : (holders = [] ∧ count = 1) ∨ ∃ htcb, holders = [⟨htcb, 1⟩] ∧ count ≤ 0) :
    ∀ other, (next.holders other = [] ∧ next.kernel.semcount other = 1) ∨
      ∃ htcb, next.holders other = [⟨htcb, 1⟩] ∧ next.kernel.semcount other ≤ 0 := by
  intro other
  rw [list, counts]
  by_cases same : other = sem
  · subst same
    rw [update_self, update_self]
    exact here
  · rw [update_of_ne same, update_of_ne same]
    exact sound.mutex other

/-- Taking a free mutex makes the task its owner. -/
theorem nxsemWait_take (ready : (sems.kernel.tcb task).taskState = .ready)
    (there : 0 < sems.kernel.semcount sem) :
    (nxsemWait nnestprio sems task sem).2 = true ∧
      (nxsemWait nnestprio sems task sem).1.Sound nnestprio ∧
      (nxsemWait nnestprio sems task sem).1.view = sems.view.give sem (some task) := by
  have free : sems.holders sem = [] ∧ sems.kernel.semcount sem = 1 := by
    rcases sound.mutex sem with free | ⟨_, _, taken⟩
    · exact free
    · omega
  have idle := (sound.ready ready).1
  let next := (sems.addCount sem (-1)).setHolders sem [⟨task, 1⟩]
  have done : nxsemWait nnestprio sems task sem = (next, true) := by
    have added : nxsemAddholderTcb (sems.addCount sem (-1)) task sem = next := by
      unfold nxsemAddholderTcb nxsemFindholder
      have absent : (sems.addCount sem (-1)).holders sem = [] := free.1
      rw [absent]
      rfl
    unfold nxsemWait
    rw [if_pos there]
    dsimp only
    rw [added, @setTcb_free ι next task idle]
  have counts : next.kernel.semcount = update sems.kernel.semcount sem 0 := by
    change update sems.kernel.semcount sem (int16 (sems.kernel.semcount sem + -1)) = _
    rw [free.2]
    rfl
  have counted : next.kernel.Counted := by
    have set := sound.counted.setCount (Int.le_of_lt there) (sems.kernel.semcount sem + -1)
      (by omega) (by unfold semValueMax; omega)
    exact set
  rw [done]
  refine ⟨rfl, ⟨⟨counted, sound.valid, sound.waits⟩, ?_⟩, view_setHolders _ sem _⟩
  exact sound.mutexes rfl counts (Or.inr ⟨task, rfl, Int.le_refl _⟩)

/-- Waiting for a mutex raises its owner. -/
theorem nxsemWait_block (ready : (sems.kernel.tcb task).taskState = .ready) {htcb : Nat}
    (owned : sems.view.owner sem = some htcb) (room : -0x8000 < sems.kernel.semcount sem) :
    (nxsemWait nnestprio sems task sem).2 = false ∧
      (nxsemWait nnestprio sems task sem).1.Sound nnestprio ∧
      (nxsemWait nnestprio sems task sem).1.view = sems.view.block nnestprio task sem htcb := by
  have held := sound.held owned
  have listed := sound.counted.listed
  have most := (sound.valid task).most
  have awake : (sems.kernel.tcb task).taskState ≠ .waitSem := by
    rw [ready]
    decide
  let lower := sems.addCount sem (-1)
  let boosted := (nxsemBoostholderprio nnestprio task lower ⟨htcb, 1⟩).1
  have boost := @nxsemBoostholderprio_becomes ι nnestprio lower task ⟨htcb, 1⟩
    (listed.setCount sem _) (sound.valid htcb) most
  have done : nxsemWait nnestprio sems task sem =
      ({ boosted with kernel := boosted.kernel.block task sem }, false) := by
    have single : nxsemForeachholder (nxsemBoostholderprio nnestprio task) lower
        (lower.holders sem) = boosted := by
      change nxsemForeachholder _ lower (sems.holders sem) = _
      rw [held.1]
      simp only [nxsemForeachholder, boost.1]
      rfl
    unfold nxsemWait
    rw [if_neg (Int.not_lt.2 held.2)]
    dsimp only
    rw [single]
  -- The count was lowered before the holder was raised; the waiters agree with the old one.
  let before : Kernel ι := { boosted.kernel with semcount := sems.kernel.semcount }
  have moves : sems.Moves { boosted with kernel := before } :=
    ⟨rfl, boost.2.moves.waiting, boost.2.moves.taskState, boost.2.moves.waitsem,
      boost.2.moves.holders⟩
  have lowered : boosted.kernel = before.setCount sem (before.semcount sem - 1) := by
    have counts : boosted.kernel.semcount =
        (before.setCount sem (before.semcount sem - 1)).semcount := boost.2.moves.semcount
    change boosted.kernel = { boosted.kernel with
      semcount := (before.setCount sem (before.semcount sem - 1)).semcount }
    rw [← counts]
  have counted : (boosted.kernel.block task sem).Counted := by
    rw [lowered]
    apply (moves.counted sound.counted).block
    · rw [moves.taskState]
      exact awake
    · exact held.2
    · exact room
  have count : int16 (sems.kernel.semcount sem + -1) = sems.kernel.semcount sem + -1 :=
    int16_of_narrow ⟨by omega, by unfold semValueMax; omega⟩
  have counts : boosted.kernel.semcount =
      update sems.kernel.semcount sem (sems.kernel.semcount sem + -1) := by
    rw [← count]
    exact boost.2.moves.semcount
  have holders : boosted.holders = update sems.holders sem (sems.holders sem) := by
    rw [update_eq_self]
    exact boost.2.moves.holders
  have valid : ∀ other, Valid nnestprio (boosted.ledger other) := by
    intro other
    by_cases same : other = htcb
    · rw [same, boost.2.same]
      exact (sound.valid htcb).raise most
    · rw [boost.2.other same]
      exact sound.valid other
  have view := view_block boosted task sem
  rw [done]
  refine ⟨rfl, ⟨⟨counted, ?_, ?_⟩, ?_⟩, ?_⟩
  · intro other
    have ledger := congrFun (congrArg View.ledger view) other
    change Sems.ledger _ other = boosted.ledger other at ledger
    rw [ledger]
    exact valid other
  · intro other blocked
    by_cases same : other = task
    · subst same
      simp [Kernel.block, Kernel.setTcb]
    · simp only [Kernel.block, Kernel.setTcb, update_of_ne same] at blocked ⊢
      rw [boost.2.moves.taskState] at blocked
      rw [boost.2.moves.waitsem]
      exact sound.waits other blocked
  · exact sound.mutexes holders counts (Or.inr ⟨htcb, held.1, by omega⟩)
  · rw [view, boost.2.view]
    rfl

/-- A task that gives up waiting lets the owner fall back. -/
theorem nxsemWaitIrq_leave (waits : (sems.kernel.tcb task).waitsem = some sem) {htcb : Nat}
    (owned : sems.view.owner sem = some htcb) (errcode : Errno) :
    ∃ next, nxsemWaitIrq nnestprio sems task errcode = some next ∧ next.Sound nnestprio ∧
      next.view = sems.view.leave task htcb := by
  have listed := sound.counted.listed
  have held := sound.held owned
  have negative := sound.counted.negative waits
  have blocked := listed.waits task sem waits
  let restored := nxsemRestoreholderprio nnestprio task sems htcb
  have becomes := @nxsemRestoreholderprio_becomes ι nnestprio sems task htcb listed
    (sound.valid htcb)
  have core := becomes.core sound.toCore (sound.valid htcb).release
  have still : (restored.kernel.tcb task).waitsem = some sem := by
    rw [becomes.moves.waitsem]
    exact waits
  have done : nxsemWaitIrq nnestprio sems task errcode =
      some ((restored.addCount sem 1).unblock task errcode) := by
    have single : nxsemForeachholder (nxsemRestoreholderprioall nnestprio task) sems
        (sems.holders sem) = restored := by
      rw [held.1]
      rfl
    unfold nxsemWaitIrq
    rw [if_pos blocked, waits]
    dsimp only
    rw [single]
  have counts : (restored.addCount sem 1).kernel.semcount =
      update sems.kernel.semcount sem (sems.kernel.semcount sem + 1) := by
    change update restored.kernel.semcount sem (int16 (restored.kernel.semcount sem + 1)) = _
    rw [becomes.moves.semcount, sound.int16_succ waits]
  have holders : restored.holders = update sems.holders sem (sems.holders sem) := by
    rw [update_eq_self]
    exact becomes.moves.holders
  have view := view_unblock (restored.addCount sem 1) task errcode
  refine ⟨_, done, ⟨core.unblock still errcode, ?_⟩, ?_⟩
  · exact sound.mutexes holders counts (Or.inr ⟨htcb, held.1, by omega⟩)
  · rw [view]
    change restored.view.drop task = _
    rw [becomes.view]
    rfl

/-- Posting a mutex that no task waits for makes it free. -/
theorem nxsemPost_free (owned : sems.view.owner sem = some task)
    (idle : ¬sems.kernel.semcount sem < 0) :
    (nxsemPost nnestprio sems task sem).1.Sound nnestprio ∧
      (nxsemPost nnestprio sems task sem).1.view = sems.view.give sem none := by
  have held := sound.held owned
  have zero : sems.kernel.semcount sem = 0 := by omega
  let released := (sems.setHolders sem [⟨task, 0⟩]).addCount sem 1
  have counts : released.kernel.semcount = update sems.kernel.semcount sem 1 := by
    change update sems.kernel.semcount sem (int16 (sems.kernel.semcount sem + 1)) = _
    rw [zero]
    rfl
  have done : (nxsemPost nnestprio sems task sem).1 = released.setHolders sem [] := by
    have freed : nxsemFindandfreeholder released sem task = released.setHolders sem [] := by
      have list : released.holders sem = [⟨task, 0⟩] := update_self _ _ _
      unfold nxsemFindandfreeholder nxsemFindholder
      rw [list]
      simp
    have positive : ¬released.kernel.semcount sem ≤ 0 := by
      rw [counts, update_self]
      decide
    unfold nxsemPost
    rw [nxsemReleaseholder_single held.1, if_neg positive]
    exact freed
  have counted : released.kernel.Counted :=
    sound.counted.setCount (Int.not_lt.1 idle) (sems.kernel.semcount sem + 1) (by omega)
      (by unfold semValueMax; omega)
  have holders : (released.setHolders sem []).holders =
      update sems.holders sem [] := update_idem _ _ _
  rw [done]
  constructor
  · exact ⟨⟨counted, sound.valid, sound.waits⟩, sound.mutexes holders counts (Or.inl ⟨rfl, rfl⟩)⟩
  · rw [view_setHolders]
    have view : released.view = sems.view.give sem (some task) :=
      view_setHolders sems sem [⟨task, 0⟩]
    rw [view]
    unfold give
    rw [update_idem]
    rfl

end

/-- Letting holders fall back when the first of two got a count from the second: both fall back in
turn, and the second is removed. -/
theorem nxsemRestorebaseprioTask_pair {stcb : Nat} (different : stcb ≠ task)
    (core : sems.Core nnestprio) (held : sems.holders sem = [⟨stcb, 1⟩, ⟨task, 0⟩]) :
    ∃ next, nxsemRestorebaseprioTask nnestprio task sems (some stcb) sem =
        next.setHolders sem [⟨stcb, 1⟩] ∧
      next.Core nnestprio ∧ sems.Moves next ∧
      next.view = (sems.view.restore stcb (sems.view.ledger stcb).level).restore task
        ((sems.view.restore stcb (sems.view.ledger stcb).level).ledger stcb).level := by
  let first := nxsemRestoreholderprio nnestprio stcb sems stcb
  let second := nxsemRestoreholderprio nnestprio stcb first task
  have became := @nxsemRestoreholderprio_becomes ι nnestprio sems stcb stcb core.counted.listed
    (core.valid stcb)
  have coreFirst := became.core core (core.valid stcb).release
  have becomes := @nxsemRestoreholderprio_becomes ι nnestprio first stcb task
    coreFirst.counted.listed (coreFirst.valid task)
  have coreSecond := becomes.core coreFirst (coreFirst.valid task).release
  have heldFirst : first.holders sem = [⟨stcb, 1⟩, ⟨task, 0⟩] := by
    rw [became.moves.holders]
    exact held
  have heldSecond : second.holders sem = [⟨stcb, 1⟩, ⟨task, 0⟩] := by
    rw [becomes.moves.holders]
    exact heldFirst
  have passA : nxsemForeachholder (nxsemRestoreholderprioA nnestprio task stcb) sems
      (sems.holders sem) = first := by
    rw [held]
    simp only [nxsemForeachholder, nxsemRestoreholderprioA, if_pos different]
    simp [first]
  have passB : nxsemForeachholder (nxsemRestoreholderprioB nnestprio task stcb) first
      (first.holders sem) = second := by
    rw [heldFirst]
    simp only [nxsemForeachholder, nxsemRestoreholderprioB, if_neg different]
    simp [second]
  have freed : nxsemFindandfreeholder second sem task = second.setHolders sem [⟨stcb, 1⟩] := by
    unfold nxsemFindandfreeholder nxsemFindholder
    rw [heldSecond]
    simp [different]
  refine ⟨second, ?_, coreSecond, became.moves.trans becomes.moves, ?_⟩
  · unfold nxsemRestorebaseprioTask
    dsimp only
    rw [passA, passB, freed]
  · have level : first.schedPriority stcb =
        ((sems.view.restore stcb (sems.view.ledger stcb).level).ledger stcb).level := by
      rw [restore_same]
      exact congrArg Ledger.level became.same
    rw [becomes.view, level, became.view]
    rw [became.ledgers]
    rfl

/-- Posting a mutex that tasks wait for passes it to the first of them. -/
theorem nxsemPost_hand (sound : sems.Sound nnestprio)
    (ready : (sems.kernel.tcb task).taskState = .ready)
    (owned : sems.view.owner sem = some task) {stcb : Nat}
    (found : sems.kernel.firstWaiter sem = some stcb) :
    stcb ≠ task ∧ (nxsemPost nnestprio sems task sem).1.Sound nnestprio ∧
      (nxsemPost nnestprio sems task sem).1.view = sems.view.hand task sem stcb := by
  have held := sound.held owned
  have waits := (firstWaiter_some found).2
  have negative := sound.counted.negative waits
  have different : stcb ≠ task := by
    intro same
    rw [same, (sound.ready ready).1] at waits
    cases waits
  let released := (sems.setHolders sem [⟨task, 0⟩]).addCount sem 1
  let handed := (released.setHolders sem [⟨stcb, 1⟩, ⟨task, 0⟩]).unblock stcb .ok
  have counts : released.kernel.semcount =
      update sems.kernel.semcount sem (sems.kernel.semcount sem + 1) := by
    rw [← sound.int16_succ waits]
    rfl
  have view : handed.view = (sems.view.drop stcb).give sem (some stcb) := by
    have dropped := view_unblock (released.setHolders sem [⟨stcb, 1⟩, ⟨task, 0⟩]) stcb .ok
    have list : released.view = sems.view.give sem (some task) :=
      view_setHolders sems sem [⟨task, 0⟩]
    rw [view_setHolders, list] at dropped
    rw [dropped]
    unfold give drop
    rw [update_idem]
    rfl
  have core : handed.Core nnestprio := by
    have left := sound.unblock waits .ok
    exact ⟨left.counted, left.valid, left.waits⟩
  obtain ⟨next, restored, coreNext, moves, viewNext⟩ :=
    @nxsemRestorebaseprioTask_pair ι _ handed task nnestprio sem stcb different core
      (update_self _ _ _)
  have done : (nxsemPost nnestprio sems task sem).1 = next.setHolders sem [⟨stcb, 1⟩] := by
    have added : nxsemAddholderTcb released stcb sem =
        released.setHolders sem [⟨stcb, 1⟩, ⟨task, 0⟩] := by
      have list : released.holders sem = [⟨task, 0⟩] := update_self _ _ _
      unfold nxsemAddholderTcb nxsemFindholder
      rw [list]
      simp [Ne.symm different]
    have left : released.kernel.semcount sem ≤ 0 := by
      rw [counts, update_self]
      omega
    have first : released.kernel.firstWaiter sem = some stcb := found
    unfold nxsemPost
    rw [nxsemReleaseholder_single held.1, if_pos left, first]
    dsimp only
    rw [added]
    exact restored
  have holders : (next.setHolders sem [⟨stcb, 1⟩]).holders =
      update sems.holders sem [⟨stcb, 1⟩] := by
    change update next.holders sem _ = _
    rw [moves.holders]
    change update (update (update sems.holders sem _) sem _) sem _ = _
    rw [update_idem, update_idem]
  have countsNext : (next.setHolders sem [⟨stcb, 1⟩]).kernel.semcount =
      update sems.kernel.semcount sem (sems.kernel.semcount sem + 1) := by
    rw [← counts]
    exact moves.semcount
  rw [done]
  refine ⟨different, ⟨⟨coreNext.counted, coreNext.valid, coreNext.waits⟩, ?_⟩, ?_⟩
  · exact sound.mutexes holders countsNext (Or.inr ⟨stcb, rfl, by omega⟩)
  · rw [view_setHolders, viewNext, view]
    unfold hand give
    have again : update (update sems.view.owner sem (some stcb)) sem
        (some stcb) = update sems.view.owner sem (some stcb) :=
      update_idem _ _ _
    apply View.ext
    · rfl
    · rfl
    · rfl
    · exact again

end Calls

end Chewie.Sched.Inherit
