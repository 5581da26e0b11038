import Chewie.Sched.Sem.Balance
import Mathlib.Data.Finset.Card

/-!
# Runs of semaphores

Tasks wait for semaphores and post counts while waits are interrupted and tasks are deleted. `Sys`
keeps books beside the semaphores: the counts posted, the waits granted, and when each wait began.
`Sys.Sound.step` shows that every careful operation keeps the balance of counts and waiters, their
order and the books.
-/

namespace Chewie.Sched

open Chewie Function Kernel List

variable {ι : Type} [DecidableEq ι]

/-- The semaphores with the books that are kept about them. -/
structure Sys (ι : Type) where
  kernel : Kernel ι
  posts : ι → Nat
  grants : ι → Nat
  resets : ι → Nat
  clock : Nat
  since : Nat → Nat

open Sys

/-- Empty books. -/
def Sys.start (kernel : Kernel ι) : Sys ι :=
  { kernel, posts := fun _ => 0, grants := fun _ => 0, resets := fun _ => 0, clock := 0,
    since := fun _ => 0 }

/-- Count one event of a semaphore. -/
def tally (book : ι → Nat) (sem : ι) : ι → Nat := update book sem (book sem + 1)

/-- What happens to semaphores. -/
inductive Op (ι : Type) where
  | wait (task : Nat) (sem : ι)
  | trywait (task : Nat) (sem : ι)
  | post (sem : ι)
  | waitIrq (wtcb : Nat) (errcode : Errno)
  | recover (task : Nat)
  | remove (task : Nat)
  | reset (sem : ι) (count : Nat)

/-- Perform an operation. There is no next state when the code follows `NULL`. -/
def Sys.step (sys : Sys ι) : Op ι → Option (Sys ι)
  | .wait task sem =>
    let done := nxsemWait sys.kernel task sem
    if done.2 then some { sys with kernel := done.1, grants := tally sys.grants sem }
    else some { sys with
      kernel := done.1
      since := update sys.since task sys.clock
      clock := sys.clock + 1 }
  | .trywait task sem =>
    let done := nxsemTrywait sys.kernel task sem
    if done.2 then some { sys with kernel := done.1, grants := tally sys.grants sem }
    else some { sys with kernel := done.1 }
  | .post sem =>
    let done := nxsemPost sys.kernel sem
    let sys := { sys with kernel := done.1, posts := tally sys.posts sem }
    if done.2.isSome then some { sys with grants := tally sys.grants sem } else some sys
  | .waitIrq wtcb errcode =>
    (nxsemWaitIrq sys.kernel wtcb errcode).map fun kernel => { sys with kernel }
  | .recover task => (nxsemRecover sys.kernel task).map fun kernel => { sys with kernel }
  | .remove task => some { sys with kernel := taskRemove sys.kernel task }
  | .reset sem count =>
    some { sys with
      kernel := nxsemReset sys.kernel sem count
      resets := tally sys.resets sem }

/-- What callers promise: a task waits only while it runs, the wait of a task is ended only once,
and a count to set is in range. -/
def Allowed (sys : Sys ι) : Op ι → Prop
  | .wait task _ => (sys.kernel.tcb task).taskState = .ready
  | .trywait task _ => (sys.kernel.tcb task).taskState = .ready
  | .post _ => True
  | .waitIrq wtcb _ => (sys.kernel.tcb wtcb).taskState = .waitSem →
      (sys.kernel.tcb wtcb).waitsem ≠ none
  | .recover task => (sys.kernel.tcb task).taskState = .waitSem →
      (sys.kernel.tcb task).waitsem ≠ none
  | .remove _ => True
  | .reset _ count => (count : Int) ≤ semValueMax

/-- Counts do not leave their range, and a task that is removed waits for no semaphore. -/
def Careful (sys : Sys ι) : Op ι → Prop
  | .wait _ sem => -0x8000 < sys.kernel.semcount sem
  | .post sem => sys.kernel.semcount sem < semValueMax
  | .remove task => (sys.kernel.tcb task).waitsem = none
  | _ => True

/-- Allowed and careful operations. -/
def Guarded (sys : Sys ι) (op : Op ι) : Prop := Allowed sys op ∧ Careful sys op

omit [DecidableEq ι] in
instance decidableAllowed : ∀ (sys : Sys ι) (op : Op ι), Decidable (Allowed sys op)
  | _, .wait .. | _, .trywait .. | _, .waitIrq .. | _, .recover .. | _, .reset .. => by
    dsimp only [Allowed]; infer_instance
  | _, .post .. | _, .remove .. => isTrue trivial

omit [DecidableEq ι] in
instance decidableCareful : ∀ (sys : Sys ι) (op : Op ι), Decidable (Careful sys op)
  | _, .wait .. | _, .post .. | _, .remove .. => by dsimp only [Careful]; infer_instance
  | _, .trywait .. | _, .waitIrq .. | _, .recover .. | _, .reset .. => isTrue trivial

instance decidableGuarded (sys : Sys ι) (op : Op ι) : Decidable (Guarded sys op) :=
  inferInstanceAs (Decidable (_ ∧ _))

/-- The counts and waiters are in balance and the books agree with them. -/
structure Sys.Sound (initial : ι → Int) (sys : Sys ι) : Prop where
  counted : sys.kernel.Counted
  queued : sys.kernel.Queued sys.since sys.clock
  books : ∀ sem, sys.resets sem = 0 →
    initial sem + sys.posts sem = sys.grants sem + max 0 (sys.kernel.semcount sem)

section Steps

variable {initial : ι → Int} {sys : Sys ι} {kernel : Kernel ι} {task : Nat} {sem : ι}

@[simp] theorem tally_same (book : ι → Nat) (sem : ι) : tally book sem sem = book sem + 1 :=
  update_self _ _ _

theorem tally_other (book : ι → Nat) {other : ι} (different : other ≠ sem) :
    tally book sem other = book other :=
  update_of_ne different _ _

theorem resetLoop_spec (counted : kernel.Counted) (count : Nat) :
    (resetLoop sem kernel count).1.Counted ∧ kernel.Shrinks (resetLoop sem kernel count).1 ∧
      (resetLoop sem kernel count).2 ≤ count ∧
      ∀ other, other ≠ sem →
        (resetLoop sem kernel count).1.semcount other = kernel.semcount other := by
  induction count generalizing kernel with
  | zero => exact ⟨counted, ⟨List.Sublist.refl _, fun _ => rfl⟩, Nat.le_refl _, fun _ _ => rfl⟩
  | succ count ih =>
    unfold resetLoop
    by_cases negative : kernel.semcount sem < 0
    · rw [if_pos negative]
      have posted := counted.post sem (by unfold semValueMax; omega)
      have rest := ih posted.1
      refine ⟨rest.1, (shrinks_nxsemPost kernel sem).trans rest.2.1,
        Nat.le_succ_of_le rest.2.2.1, fun other different => ?_⟩
      rw [rest.2.2.2 other different, posted.2.1, update_of_ne different]
    · rw [if_neg negative]
      exact ⟨counted, ⟨List.Sublist.refl _, fun _ => rfl⟩, Nat.le_refl _, fun _ _ => rfl⟩

theorem nxsemReset_spec (counted : kernel.Counted) {count : Nat}
    (narrow : (count : Int) ≤ semValueMax) :
    (nxsemReset kernel sem count).Counted ∧ kernel.Shrinks (nxsemReset kernel sem count) ∧
      ∀ other, other ≠ sem →
        (nxsemReset kernel sem count).semcount other = kernel.semcount other := by
  have loop := @resetLoop_spec ι _ kernel sem counted count
  unfold nxsemReset
  by_cases free : 0 ≤ (resetLoop sem kernel count).1.semcount sem
  · simp only [if_pos free]
    refine ⟨loop.1.setCount free _ (by omega) (by omega),
      loop.2.1.trans (shrinks_setCount _ _ _), fun other different => ?_⟩
    rw [setCount_other _ _ different, loop.2.2.2 other different]
  · simp only [if_neg free]
    exact ⟨loop.1, loop.2.1, loop.2.2.2⟩

section

variable (sound : sys.Sound initial)

include sound

theorem Sys.Sound.change {next : Sys ι} (counted : next.kernel.Counted)
    (shrinks : sys.kernel.Shrinks next.kernel) (since : next.since = sys.since)
    (clock : next.clock = sys.clock)
    (books : ∀ sem, next.resets sem = 0 → initial sem + next.posts sem = next.grants sem + max 0
      (next.kernel.semcount sem)) : next.Sound initial := by
  refine ⟨counted, ?_, books⟩
  rw [since, clock]
  exact sound.queued.shrink shrinks

theorem Sys.Sound.take (awake : (sys.kernel.tcb task).taskState = .ready)
    (there : 0 < sys.kernel.semcount sem) :
    ({ sys with
        kernel := (sys.kernel.setCount sem (sys.kernel.semcount sem - 1)).setTcb task
          { sys.kernel.tcb task with waitsem := none }
        grants := tally sys.grants sem } : Sys ι).Sound initial := by
  have narrow := sound.counted.narrow sem
  have stored : int16 (sys.kernel.semcount sem - 1) = sys.kernel.semcount sem - 1 :=
    int16_of_narrow ⟨by omega, by unfold Narrow at narrow; omega⟩
  have shrinks := (shrinks_setCount sys.kernel sem (sys.kernel.semcount sem - 1)).trans
    (shrinks_setTcb _ task { sys.kernel.tcb task with waitsem := none } rfl)
  refine sound.change (sound.counted.take awake there) shrinks rfl rfl fun other untouched => ?_
  have books := sound.books other untouched
  change initial other + (sys.posts other : Int) = (tally sys.grants sem other : Int) +
    max 0 ((sys.kernel.setCount sem (sys.kernel.semcount sem - 1)).semcount other)
  by_cases same : other = sem
  · subst same
    rw [tally_same, setCount_same]
    omega
  · rw [tally_other _ same, setCount_other _ _ same]
    exact books

theorem Sys.Sound.block (awake : (sys.kernel.tcb task).taskState = .ready)
    (taken : sys.kernel.semcount sem ≤ 0) (room : -0x8000 < sys.kernel.semcount sem) :
    ({ sys with
        kernel := (sys.kernel.setCount sem (sys.kernel.semcount sem - 1)).block task sem
        since := update sys.since task sys.clock
        clock := sys.clock + 1 } : Sys ι).Sound initial := by
  have running : (sys.kernel.tcb task).taskState ≠ .waitSem := by
    rw [awake]
    decide
  have absent := sound.counted.listed.absent running
  have stored : int16 (sys.kernel.semcount sem - 1) = sys.kernel.semcount sem - 1 :=
    int16_of_narrow ⟨by omega, by unfold semValueMax; omega⟩
  constructor
  · exact sound.counted.block running taken room
  · exact Kernel.Queued.block (sound.queued.shrink (shrinks_setCount _ _ _)) absent sem
  · intro other untouched
    have books := sound.books other untouched
    change initial other + (sys.posts other : Int) = (sys.grants other : Int) +
      max 0 ((sys.kernel.setCount sem (sys.kernel.semcount sem - 1)).semcount other)
    by_cases same : other = sem
    · subst same
      rw [setCount_same]
      omega
    · rw [setCount_other _ _ same]
      exact books

theorem Sys.Sound.leave (waits : (sys.kernel.tcb task).waitsem = some sem)
    (counted : kernel.Counted) (shrinks : sys.kernel.Shrinks kernel)
    (counts : kernel.semcount = (sys.kernel.setCount sem (sys.kernel.semcount sem + 1)).semcount) :
    ({ sys with kernel } : Sys ι).Sound initial := by
  have negative := sound.counted.negative waits
  have narrow := sound.counted.narrow sem
  have stored : int16 (sys.kernel.semcount sem + 1) = sys.kernel.semcount sem + 1 :=
    int16_of_narrow ⟨by unfold Narrow at narrow; omega, by unfold semValueMax; omega⟩
  refine sound.change counted shrinks rfl rfl fun other untouched => ?_
  have books := sound.books other untouched
  rw [counts]
  by_cases same : other = sem
  · subst same
    rw [setCount_same]
    dsimp only
    omega
  · rw [setCount_other _ _ same]
    exact books

/-- Posting keeps the books: the count goes to the first waiter or is stored. -/
theorem Sys.Sound.post (room : sys.kernel.semcount sem < semValueMax) :
    ∃ next, sys.step (.post sem) = some next ∧ next.Sound initial := by
  have posted := sound.counted.post sem room
  have shrinks := shrinks_nxsemPost sys.kernel sem
  by_cases negative : sys.kernel.semcount sem < 0
  · obtain ⟨stcb, found⟩ := sound.counted.firstWaiter negative
    refine ⟨{ sys with
      kernel := (nxsemPost sys.kernel sem).1
      posts := tally sys.posts sem
      grants := tally sys.grants sem }, ?_, ?_⟩
    · simp [step, posted.2.2, found]
    · refine sound.change posted.1 shrinks rfl rfl fun other untouched => ?_
      have books := sound.books other untouched
      dsimp only
      rw [posted.2.1]
      by_cases same : other = sem
      · subst same
        rw [tally_same, tally_same, update_self]
        omega
      · rw [tally_other _ same, tally_other _ same, update_of_ne same]
        exact books
  · have none := sound.counted.firstWaiter_none (Int.not_lt.mp negative)
    refine ⟨{ sys with
      kernel := (nxsemPost sys.kernel sem).1
      posts := tally sys.posts sem }, ?_, ?_⟩
    · simp [step, posted.2.2, none]
    · refine sound.change posted.1 shrinks rfl rfl fun other untouched => ?_
      have books := sound.books other untouched
      dsimp only
      rw [posted.2.1]
      by_cases same : other = sem
      · subst same
        rw [tally_same, update_self]
        omega
      · rw [tally_other _ same, update_of_ne same]
        exact books

theorem Sys.Sound.reset {count : Nat} (narrow : (count : Int) ≤ semValueMax) :
    ({ sys with
        kernel := nxsemReset sys.kernel sem count
        resets := tally sys.resets sem } : Sys ι).Sound initial := by
  have done := @nxsemReset_spec ι _ sys.kernel sem sound.counted count narrow
  refine sound.change done.1 done.2.1 rfl rfl fun other untouched => ?_
  dsimp only at untouched ⊢
  by_cases same : other = sem
  · subst same
    rw [tally_same] at untouched
    cases untouched
  · rw [tally_other _ same] at untouched
    rw [done.2.2 other same]
    exact sound.books other untouched

/-- Every careful operation is performed and keeps counts, waiters and books in balance. -/
theorem Sys.Sound.step {op : Op ι} (guarded : Guarded sys op) :
    ∃ next, sys.step op = some next ∧ next.Sound initial := by
  cases op with
  | wait task sem =>
    by_cases there : 0 < sys.kernel.semcount sem
    · refine ⟨_, ?_, sound.take guarded.1 there⟩
      simp [Sys.step, nxsemWait, there]
    · refine ⟨_, ?_, sound.block guarded.1 (Int.not_lt.mp there) guarded.2⟩
      simp [Sys.step, nxsemWait, there]
  | trywait task sem =>
    by_cases there : 0 < sys.kernel.semcount sem
    · refine ⟨_, ?_, sound.take guarded.1 there⟩
      simp [Sys.step, nxsemTrywait, there]
    · refine ⟨sys, ?_, sound⟩
      simp [Sys.step, nxsemTrywait, there]
  | post sem => exact sound.post guarded.2
  | waitIrq wtcb errcode =>
    by_cases blocked : (sys.kernel.tcb wtcb).taskState = .waitSem
    · obtain ⟨sem, waits⟩ := Option.ne_none_iff_exists'.mp (guarded.1 blocked)
      refine ⟨_, ?_, sound.leave waits (sound.counted.unblock waits errcode)
        ((shrinks_setCount _ _ _).trans (shrinks_unblock _ wtcb errcode)) rfl⟩
      simp [Sys.step, nxsemWaitIrq, blocked, waits]
    · refine ⟨sys, ?_, sound⟩
      simp [Sys.step, nxsemWaitIrq, blocked]
  | recover task =>
    by_cases blocked : (sys.kernel.tcb task).taskState = .waitSem
    · obtain ⟨sem, waits⟩ := Option.ne_none_iff_exists'.mp (guarded.1 blocked)
      refine ⟨_, ?_, sound.leave waits (sound.counted.forget waits)
        ((shrinks_setCount _ _ _).trans (shrinks_setTcb _ task _ rfl)) rfl⟩
      simp [Sys.step, nxsemRecover, blocked, waits]
    · refine ⟨sys, ?_, sound⟩
      simp [Sys.step, nxsemRecover, blocked]
  | remove task =>
    refine ⟨_, rfl, ?_⟩
    exact sound.change (sound.counted.remove guarded.2) (shrinks_taskRemove _ task) rfl rfl
      sound.books
  | reset sem count => exact ⟨_, rfl, sound.reset guarded.1⟩

end

end Steps

/-- The semaphores were initialized with counts in range and no task waits yet. -/
structure Kernel.Fresh (kernel : Kernel ι) : Prop where
  idle : kernel.waiting = []
  awake : ∀ task, (kernel.tcb task).taskState ≠ .waitSem
  free : ∀ task, (kernel.tcb task).waitsem = none
  counts : ∀ sem, 0 ≤ kernel.semcount sem ∧ kernel.semcount sem ≤ semValueMax

/-- What the count of a semaphore says about its waiters, its past and its next post. -/
structure Sys.Balanced (initial : ι → Int) (sys : Sys ι) (sem : ι) : Prop where
  /-- A negative count is the number of tasks that wait. -/
  waiters : ∃ waiters : Finset Nat,
    (∀ task, task ∈ waiters ↔ (sys.kernel.tcb task).waitsem = some sem) ∧
      (waiters.card : Int) = max 0 (-sys.kernel.semcount sem)
  free : 0 < sys.kernel.semcount sem → ∀ task, (sys.kernel.tcb task).waitsem ≠ some sem
  /-- Each successful wait took one count. -/
  books : sys.resets sem = 0 →
    initial sem + sys.posts sem = sys.grants sem + max 0 (sys.kernel.semcount sem)
  /-- A post while a task waits restarts the first waiter, whose priority is the highest and who
  has waited longest among those of its priority. -/
  hands : ∀ task, (sys.kernel.tcb task).waitsem = some sem →
    ∃ stcb, sys.kernel.firstWaiter sem = some stcb ∧
      (nxsemPost sys.kernel sem).2 = some stcb ∧
      (nxsemPost sys.kernel sem).1.tcb stcb =
        { sys.kernel.tcb stcb with taskState := .ready, waitsem := none, pterrno := .ok } ∧
      ∀ other, other ≠ stcb → (sys.kernel.tcb other).waitsem = some sem →
        Before (fun task => (sys.kernel.tcb task).schedPriority) sys.since stcb other

section Results

variable {initial : ι → Int} {sys : Sys ι} {kernel : Kernel ι} {sem : ι}

theorem Kernel.Fresh.sound (fresh : kernel.Fresh) : (start kernel).Sound kernel.semcount := by
  have nobody : ∀ sem, kernel.waitCount sem = 0 := by
    intro sem
    unfold Kernel.waitCount
    rw [fresh.idle]
    rfl
  constructor
  · constructor
    · constructor
      · intro task
        change task ∈ kernel.waiting ↔ _
        rw [fresh.idle]
        exact iff_of_false not_mem_nil (fresh.awake task)
      · change kernel.waiting.Nodup
        rw [fresh.idle]
        exact nodup_nil
      · intro task sem waits
        have free := fresh.free task
        change (kernel.tcb task).waitsem = some sem at waits
        rw [free] at waits
        cases waits
    · intro sem
      have counts := fresh.counts sem
      change (kernel.waitCount sem : Int) = max 0 (-kernel.semcount sem)
      rw [nobody]
      omega
    · intro sem
      have counts := fresh.counts sem
      exact ⟨by change _ ≤ kernel.semcount sem; omega, counts.2⟩
  · constructor
    · change kernel.waiting.Pairwise _
      rw [fresh.idle]
      exact List.Pairwise.nil
    · intro task mem
      change task ∈ kernel.waiting at mem
      rw [fresh.idle] at mem
      cases mem
  · intro sem _
    have counts := fresh.counts sem
    change kernel.semcount sem + ((0 : Nat) : Int) = ((0 : Nat) : Int) + max 0 (kernel.semcount sem)
    omega

theorem Kernel.Counted.waiters_card (counted : kernel.Counted) (sem : ι) :
    ∃ waiters : Finset Nat, (∀ task, task ∈ waiters ↔ (kernel.tcb task).waitsem = some sem) ∧
      (waiters.card : Int) = max 0 (-kernel.semcount sem) := by
  let waiters := kernel.waiting.filter fun task => (kernel.tcb task).waitsem = some sem
  refine ⟨waiters.toFinset, fun task => ?_, ?_⟩
  · rw [mem_toFinset, mem_filter, decide_eq_true_eq]
    constructor
    · intro both
      exact both.2
    · intro waits
      exact ⟨(counted.listed.blocked task).mpr (counted.listed.waits task sem waits), waits⟩
  · rw [toFinset_card_of_nodup (counted.listed.distinct.filter _), ← counted.waiters sem]
    unfold Kernel.waitCount
    rw [countP_eq_length_filter]

theorem Sys.Sound.first (sound : sys.Sound initial) {stcb : Nat}
    (found : sys.kernel.firstWaiter sem = some stcb) {other : Nat} (different : other ≠ stcb)
    (waits : (sys.kernel.tcb other).waitsem = some sem) :
    Before (fun task => (sys.kernel.tcb task).schedPriority) sys.since stcb other := by
  have listed := sound.counted.listed
  have mem := (listed.blocked other).mpr (listed.waits other sem waits)
  obtain ⟨_, front, back, split, skipped⟩ := List.find?_eq_some_iff_append.mp found
  rw [split] at mem
  have ordered := sound.queued.ordered
  rw [split] at ordered
  have behind := (pairwise_cons.mp (pairwise_append.mp ordered).2.1).1
  cases mem_append.mp mem with
  | inl earlier =>
    have refused := skipped other earlier
    simp [waits] at refused
  | inr later =>
    cases mem_cons.mp later with
    | inl same => exact absurd same different
    | inr rest => exact behind other rest

theorem Sys.Sound.balanced (sound : sys.Sound initial) (sem : ι) : sys.Balanced initial sem := by
  constructor
  · exact sound.counted.waiters_card sem
  · intro there task waits
    have negative := sound.counted.negative waits
    omega
  · exact sound.books sem
  · intro task waits
    have negative := sound.counted.negative waits
    obtain ⟨stcb, found⟩ := sound.counted.firstWaiter negative
    have posted := sound.counted.post sem (by unfold semValueMax; omega)
    rw [found] at posted
    refine ⟨stcb, found, posted.2.2, ?_, fun other different => sound.first found different⟩
    rcases nxsemPost_cases sys.kernel sem with ⟨first, same, _, done⟩ | ⟨_, done⟩
    · rw [found] at same
      cases same
      rw [done]
      simp [Kernel.unblock, Kernel.setTcb]
    · rw [done] at posted
      cases posted.2.2

/-- In every run of careful operations on semaphores the counts are in balance with the waiters, in
every state reached. -/
theorem semaphore_counts_balance (fresh : kernel.Fresh) {ops : List (Op ι)}
    (guarded : Run.Admitted Sys.step Guarded (Sys.start kernel) ops) :
    ∃ sys, Run.run Sys.step (Sys.start kernel) ops = some sys ∧
      ∀ sem, sys.Balanced kernel.semcount sem := by
  obtain ⟨sys, performed, sound⟩ := Run.run_invariant
    (fun state op holds careful => Sys.Sound.step holds careful) fresh.sound guarded
  exact ⟨sys, performed, sound.balanced⟩

end Results

/-- One semaphore without a count, and tasks of one priority. -/
def vacant : Kernel Unit :=
  { semcount := fun _ => 0
    waiting := []
    tcb := fun _ => { taskState := .ready, waitsem := none, pterrno := .ok, schedPriority := 100 } }

theorem vacant_fresh : vacant.Fresh :=
  ⟨rfl, fun _ => TaskState.noConfusion, fun _ => rfl, fun _ => by
    change (0 : Int) ≤ 0 ∧ (0 : Int) ≤ semValueMax
    decide⟩

/-- Two tasks wait, one of them gets a signal, and the other the count. -/
theorem semaphore_counts_balance_signal :
    ∃ sys, Run.run Sys.step (Sys.start vacant)
        [.wait 1 (), .wait 2 (), .waitIrq 1 .eintr, .post ()] = some sys ∧
      ∀ sem, sys.Balanced vacant.semcount sem :=
  semaphore_counts_balance vacant_fresh (by decide)

/-- A task is deleted while it waits: it leaves the task lists first, so that `nxsem_recover` finds
no waiting task and the count stays negative. The next post is lost. -/
theorem semaphore_count_lost :
    Run.Admitted Sys.step Allowed (Sys.start vacant) [.wait 1 (), .remove 1, .recover 1, .post ()] ∧
      ∃ sys, Run.run Sys.step (Sys.start vacant) [.wait 1 (), .remove 1, .recover 1, .post ()] =
          some sys ∧
        sys.kernel.waiting = [] ∧ sys.resets () = 0 ∧ sys.posts () = 1 ∧ sys.grants () = 0 ∧
        sys.kernel.semcount () = 0 ∧ ¬sys.Balanced vacant.semcount () := by
  refine ⟨by decide, _, rfl, by decide, by decide, by decide, by decide, by decide, ?_⟩
  intro balanced
  exact absurd (balanced.books rfl) (by decide)

end Chewie.Sched
