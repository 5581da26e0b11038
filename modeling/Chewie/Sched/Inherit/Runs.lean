import Chewie.Sched.Inherit.Steps

/-!
# Runs with priority inheritance

Tasks take and post mutexes while waits are interrupted. `Sys` keeps beside them the priority with
which each task began to wait. `Sys.Sound.step` says what every operation does to owners, waiters
and ledgers. Boosts are not given back in every run, and not every waiting task is served: records
have no names, so that the end of one wait can remove the record of another, and a task that passes
a mutex on keeps the records of those that still wait for it. The two results here say in which runs
priorities are returned, and in which runs they are inherited.
-/

namespace Chewie.Sched.Inherit

open Chewie Multiset Sems List

variable {ι : Type} [DecidableEq ι]

/-- The semaphores with the priorities of the waits. -/
structure Sys (ι : Type) where
  sems : Sems ι
  waitPriority : Nat → Nat

/-- No waits yet. -/
def Sys.start (sems : Sems ι) : Sys ι := { sems, waitPriority := fun _ => 0 }

/-- What happens to mutexes. -/
inductive Op (ι : Type) where
  | wait (task : Nat) (sem : ι)
  | post (task : Nat) (sem : ι)
  | waitIrq (wtcb : Nat) (errcode : Errno)
deriving DecidableEq

/-- Perform an operation. There is no next state when the code follows `NULL`. -/
def Sys.step (nnestprio : Nat) (sys : Sys ι) : Op ι → Option (Sys ι)
  | .wait task sem =>
    let done := nxsemWait nnestprio sys.sems task sem
    if done.2 then some { sys with sems := done.1 }
    else
      let priority := sys.sems.schedPriority task
      some { sems := done.1, waitPriority := Function.update sys.waitPriority task priority }
  | .post task sem => some { sys with sems := (nxsemPost nnestprio sys.sems task sem).1 }
  | .waitIrq wtcb errcode =>
    (nxsemWaitIrq nnestprio sys.sems wtcb errcode).map fun sems => { sys with sems }

/-- What callers promise: tasks act while they run, a mutex is posted by its holder, and there is
room for the pending priorities. -/
def Allowed (nnestprio : Nat) (sys : Sys ι) : Op ι → Prop
  | .wait task sem => (sys.sems.kernel.tcb task).taskState = .ready ∧
      ∀ pholder ∈ sys.sems.holders sem, 0 < nnestprio →
        sys.sems.basePriority pholder.htcb < sys.sems.schedPriority task →
        sys.sems.basePriority pholder.htcb < sys.sems.schedPriority pholder.htcb →
        (sys.sems.pendReprios pholder.htcb).length < nnestprio
  | .post task sem => (sys.sems.kernel.tcb task).taskState = .ready ∧
      ∃ pholder ∈ sys.sems.holders sem, pholder.htcb = task
  | .waitIrq _ _ => True

/-- The count of a semaphore stays in its range. -/
def Narrowed (sys : Sys ι) : Op ι → Prop
  | .wait _ sem => -0x8000 < sys.sems.kernel.semcount sem
  | _ => True

/-- A holder has nothing pending, or the wait that ends is the one that it has on record: the
waiting task has the priority with which it began to wait. A task that gets a mutex has its base
priority, and the other waiters do not exceed that of the task that had it. -/
def Returning (sys : Sys ι) : Op ι → Prop
  | .wait _ _ => True
  | .post task sem => sys.sems.pendReprios task = [] ∨
      ∀ stcb ∈ sys.sems.kernel.firstWaiter sem,
        sys.sems.schedPriority stcb = sys.sems.basePriority stcb ∧
        sys.sems.schedPriority stcb = sys.waitPriority stcb ∧
        ∀ other ∈ sys.sems.kernel.waiting, other ≠ stcb →
          (sys.sems.kernel.tcb other).waitsem = some sem →
          sys.waitPriority other ≤ sys.sems.basePriority task
  | .waitIrq wtcb _ => ∀ sem ∈ (sys.sems.kernel.tcb wtcb).waitsem,
      ∀ pholder ∈ sys.sems.holders sem, sys.sems.pendReprios pholder.htcb = [] ∨
        sys.sems.schedPriority wtcb = sys.waitPriority wtcb

/-- Falling back does not go below a demand: the waiting task has the priority with which it began
to wait, and the holder has that on record or another one. -/
def Backed (nnestprio : Nat) (sys : Sys ι) (htcb task : Nat) : Prop :=
  0 < nnestprio ∧ sys.sems.schedPriority task = sys.waitPriority task ∧
    (sys.sems.basePriority htcb < sys.waitPriority task ∨ sys.sems.pendReprios htcb ≠ [])

/-- A holder does not fall back, or the tasks that still wait for it do not exceed its base
priority, or it has a record to fall back to. A task that gets a mutex has its base priority, and
the other waiters do not exceed that. -/
def Covering (nnestprio : Nat) (sys : Sys ι) : Op ι → Prop
  | .wait _ _ => True
  | .post task sem => ∀ stcb ∈ sys.sems.kernel.firstWaiter sem,
      sys.sems.schedPriority stcb = sys.sems.basePriority stcb ∧
      (∀ other ∈ sys.sems.kernel.waiting, other ≠ stcb →
        (sys.sems.kernel.tcb other).waitsem = some sem →
        sys.waitPriority other ≤ sys.sems.basePriority stcb) ∧
      (sys.sems.schedPriority task = sys.sems.basePriority task ∨
        (∀ other ∈ sys.sems.kernel.waiting, (sys.sems.kernel.tcb other).waitsem ≠ some sem →
          ((sys.sems.kernel.tcb other).waitsem).bind sys.sems.view.owner = some task →
          sys.waitPriority other ≤ sys.sems.basePriority task) ∨
        Backed nnestprio sys task stcb)
  | .waitIrq wtcb _ => ∀ sem ∈ (sys.sems.kernel.tcb wtcb).waitsem,
      ∀ pholder ∈ sys.sems.holders sem,
        sys.sems.schedPriority pholder.htcb = sys.sems.basePriority pholder.htcb ∨
        (∀ other ∈ sys.sems.kernel.waiting, other ≠ wtcb →
          ((sys.sems.kernel.tcb other).waitsem).bind sys.sems.view.owner = some pholder.htcb →
          sys.waitPriority other ≤ sys.sems.basePriority pholder.htcb) ∨
        Backed nnestprio sys pholder.htcb wtcb

/-- Operations after which boosts are returned. -/
def ReturnGuard (nnestprio : Nat) (sys : Sys ι) (op : Op ι) : Prop :=
  Allowed nnestprio sys op ∧ Narrowed sys op ∧ Returning sys op

/-- Operations after which demands are met. -/
def CoverGuard (nnestprio : Nat) (sys : Sys ι) (op : Op ι) : Prop :=
  Allowed nnestprio sys op ∧ Narrowed sys op ∧ Covering nnestprio sys op

section

omit [DecidableEq ι]

instance decidableAllowed (nnestprio : Nat) :
    ∀ (sys : Sys ι) (op : Op ι), Decidable (Allowed nnestprio sys op)
  | _, .wait .. | _, .post .. => inferInstanceAs (Decidable (_ ∧ _))
  | _, .waitIrq .. => isTrue trivial

instance decidableNarrowed : ∀ (sys : Sys ι) (op : Op ι), Decidable (Narrowed sys op)
  | _, .wait .. => inferInstanceAs (Decidable (_ < _))
  | _, .post .. | _, .waitIrq .. => isTrue trivial

instance decidableBacked (nnestprio : Nat) (sys : Sys ι) (htcb task : Nat) :
    Decidable (Backed nnestprio sys htcb task) :=
  inferInstanceAs (Decidable (_ ∧ _))

end

instance decidableReturning : ∀ (sys : Sys ι) (op : Op ι), Decidable (Returning sys op)
  | _, .post .. | _, .waitIrq .. => by dsimp only [Returning]; infer_instance
  | _, .wait .. => isTrue trivial

instance decidableCovering (nnestprio : Nat) :
    ∀ (sys : Sys ι) (op : Op ι), Decidable (Covering nnestprio sys op)
  | _, .post .. | _, .waitIrq .. => by dsimp only [Covering]; infer_instance
  | _, .wait .. => isTrue trivial

instance decidableReturnGuard (nnestprio : Nat) (sys : Sys ι) (op : Op ι) :
    Decidable (ReturnGuard nnestprio sys op) :=
  inferInstanceAs (Decidable (_ ∧ _))

instance decidableCoverGuard (nnestprio : Nat) (sys : Sys ι) (op : Op ι) :
    Decidable (CoverGuard nnestprio sys op) :=
  inferInstanceAs (Decidable (_ ∧ _))

/-- What an operation does to owners, waiters and ledgers, and to the priorities of the waits. -/
inductive Effect (nnestprio : Nat) (sys : Sys ι) : Op ι → View ι → (Nat → Nat) → Prop where
  | take {task : Nat} {sem : ι}
      (idle : ∀ waiter ∈ sys.sems.view.waiting, sys.sems.view.waits waiter ≠ some sem) :
      Effect nnestprio sys (.wait task sem) (sys.sems.view.give sem (some task)) sys.waitPriority
  | block {task htcb : Nat} {sem : ι} (absent : task ∉ sys.sems.view.waiting)
      (held : sys.sems.holders sem = [⟨htcb, 1⟩]) :
      Effect nnestprio sys (.wait task sem) (sys.sems.view.block nnestprio task sem htcb)
        (Function.update sys.waitPriority task (sys.sems.view.ledger task).level)
  | free {task : Nat} {sem : ι}
      (idle : ∀ waiter ∈ sys.sems.view.waiting, sys.sems.view.waits waiter ≠ some sem) :
      Effect nnestprio sys (.post task sem) (sys.sems.view.give sem none) sys.waitPriority
  | hand {task stcb : Nat} {sem : ι} (found : sys.sems.kernel.firstWaiter sem = some stcb)
      (different : stcb ≠ task) (owned : sys.sems.view.owner sem = some task) :
      Effect nnestprio sys (.post task sem) (sys.sems.view.hand task sem stcb) sys.waitPriority
  | leave {wtcb htcb : Nat} {sem : ι} {errcode : Errno}
      (waits : (sys.sems.kernel.tcb wtcb).waitsem = some sem)
      (held : sys.sems.holders sem = [⟨htcb, 1⟩]) :
      Effect nnestprio sys (.waitIrq wtcb errcode) (sys.sems.view.leave wtcb htcb)
        sys.waitPriority
  | stay {wtcb : Nat} {errcode : Errno} :
      Effect nnestprio sys (.waitIrq wtcb errcode) sys.sems.view sys.waitPriority

open Effect

section Steps

variable {nnestprio : Nat} {sys : Sys ι} {op : Op ι}

theorem Sems.Sound.idle {sems : Sems ι} {sem : ι} (sound : sems.Sound nnestprio)
    (free : ¬sems.kernel.semcount sem < 0) :
    ∀ waiter ∈ sems.view.waiting, sems.view.waits waiter ≠ some sem :=
  fun _ _ waits => free (sound.counted.negative waits)

/-- Every allowed operation keeps the mutexes in order and has one of the effects. -/
theorem Sys.step_effect (sound : sys.sems.Sound nnestprio) (allowed : Allowed nnestprio sys op)
    (narrowed : Narrowed sys op) :
    ∃ next, sys.step nnestprio op = some next ∧ next.sems.Sound nnestprio ∧
      Effect nnestprio sys op next.sems.view next.waitPriority := by
  cases op with
  | wait task sem =>
    by_cases there : 0 < sys.sems.kernel.semcount sem
    · have taken := nxsemWait_take sound allowed.1 there
      refine ⟨{ sys with sems := (nxsemWait nnestprio sys.sems task sem).1 }, ?_, taken.2.1, ?_⟩
      · exact if_pos taken.1
      · rw [taken.2.2]
        exact take (sound.idle (by omega))
    obtain ⟨htcb, owned⟩ := sound.taken (Int.not_lt.1 there)
    have blocked := nxsemWait_block sound allowed.1 owned narrowed
    refine ⟨{
      sems := (nxsemWait nnestprio sys.sems task sem).1
      waitPriority := Function.update sys.waitPriority task
        (sys.sems.schedPriority task) }, ?_, blocked.2.1, ?_⟩
    · unfold Sys.step
      dsimp only
      rw [if_neg (by rw [blocked.1]; decide)]
    · rw [blocked.2.2]
      exact block (sound.ready allowed.1).2 (sound.held owned).1
  | post task sem =>
    obtain ⟨pholder, holds, same⟩ := allowed.2
    have owned : sys.sems.view.owner sem = some task := by
      rcases sound.mutex sem with ⟨free, _⟩ | ⟨htcb, held, _⟩
      · rw [free] at holds
        cases holds
      · rw [held] at holds
        rw [view_owner held, ← same, List.mem_singleton.1 holds]
    refine ⟨{ sys with sems := (nxsemPost nnestprio sys.sems task sem).1 }, rfl, ?_⟩
    by_cases negative : sys.sems.kernel.semcount sem < 0
    · obtain ⟨stcb, found⟩ := sound.counted.firstWaiter negative
      have handed := nxsemPost_hand sound allowed.1 owned found
      refine ⟨handed.2.1, ?_⟩
      rw [handed.2.2]
      exact hand found handed.1 owned
    · have freed := nxsemPost_free sound owned negative
      refine ⟨freed.1, ?_⟩
      rw [freed.2]
      exact free (sound.idle negative)
  | waitIrq wtcb errcode =>
    by_cases blocked : (sys.sems.kernel.tcb wtcb).taskState = .waitSem
    · obtain ⟨sem, waits⟩ := Option.ne_none_iff_exists'.1 (sound.waits wtcb blocked)
      obtain ⟨_, _, htcb, owned⟩ := sound.waiter waits
      obtain ⟨next, done, kept, view⟩ := nxsemWaitIrq_leave sound waits owned errcode
      refine ⟨{ sys with sems := next }, ?_, kept, ?_⟩
      · change (nxsemWaitIrq nnestprio sys.sems wtcb errcode).map _ = _
        rw [done]
        rfl
      · rw [view]
        exact leave waits (sound.held owned).1
    · refine ⟨sys, ?_, sound, stay⟩
      change (nxsemWaitIrq nnestprio sys.sems wtcb errcode).map _ = _
      unfold nxsemWaitIrq
      rw [if_neg blocked]
      rfl

theorem Sys.genuine_step (nested : 0 < nnestprio) (sound : sys.sems.Sound nnestprio)
    (genuine : sys.sems.view.Genuine sys.waitPriority) (allowed : Allowed nnestprio sys op)
    (returning : Returning sys op) {view : View ι} {waitPriority : Nat → Nat}
    (effect : Effect nnestprio sys op view waitPriority) : view.Genuine waitPriority := by
  have ordered : ∀ other, (sys.sems.view.ledger other).Ordered := fun other =>
    (sound.valid other).ordered
  have distinct := view_distinct sound.counted.listed
  cases effect with
  | take idle => exact genuine.give idle _
  | @block task htcb sem absent held =>
    apply genuine.block absent (view_owner held)
    have fits := allowed.2 ⟨htcb, 1⟩ (by rw [held]; exact List.mem_singleton_self _)
    exact fits nested
  | free idle => exact genuine.give idle _
  | @hand task stcb sem found different owned =>
    have waits := firstWaiter_some found
    apply genuine.hand ordered (mem_coe.2 waits.1) distinct waits.2 owned different
    exact returning.imp id fun matching => matching stcb found
  | @leave wtcb htcb sem errcode waits held =>
    have owned := view_bound waits (view_owner held)
    apply genuine.leave ordered (sound.waiter waits).1 distinct owned
    exact returning sem waits ⟨htcb, 1⟩ (by rw [held]; exact List.mem_singleton_self _)
  | stay => exact genuine

theorem Sys.covered_step (sound : sys.sems.Sound nnestprio)
    (covered : sys.sems.view.Covered nnestprio sys.waitPriority)
    (allowed : Allowed nnestprio sys op) (covering : Covering nnestprio sys op)
    {view : View ι} {waitPriority : Nat → Nat}
    (effect : Effect nnestprio sys op view waitPriority) : view.Covered nnestprio waitPriority := by
  have ordered : ∀ other, (sys.sems.view.ledger other).Ordered := fun other =>
    (sound.valid other).ordered
  have distinct := view_distinct sound.counted.listed
  cases effect with
  | take idle => exact covered.give idle _
  | @block task htcb sem absent held =>
    apply covered.block ordered absent (view_owner held)
    have fits := allowed.2 ⟨htcb, 1⟩ (by rw [held]; exact List.mem_singleton_self _)
    exact fits
  | free idle => exact covered.give idle _
  | @hand task stcb sem found different owned =>
    have waits := firstWaiter_some found
    have parts := covering stcb found
    exact covered.hand ordered (mem_coe.2 waits.1) distinct waits.2 owned different
      parts.1 parts.2.1 parts.2.2
  | @leave wtcb htcb sem errcode waits held =>
    have owned := view_bound waits (view_owner held)
    apply covered.leave ordered (sound.waiter waits).1 distinct owned
    exact covering sem waits ⟨htcb, 1⟩ (by rw [held]; exact List.mem_singleton_self _)
  | stay => exact covered

end Steps

/-- Mutexes that are free, and tasks at their base priority. -/
structure Sems.Fresh (sems : Sems ι) : Prop where
  idle : sems.kernel.waiting = []
  awake : ∀ task, (sems.kernel.tcb task).taskState ≠ .waitSem
  waits : ∀ task, (sems.kernel.tcb task).waitsem = none
  counts : ∀ sem, sems.kernel.semcount sem = 1
  holders : ∀ sem, sems.holders sem = []
  range : ∀ task, schedPriorityMin ≤ sems.basePriority task ∧
    sems.basePriority task ≤ schedPriorityMax
  base : ∀ task, sems.schedPriority task = sems.basePriority task
  pend : ∀ task, sems.pendReprios task = []

section Results

variable {nnestprio : Nat} {sems : Sems ι} {sys : Sys ι}

section

omit [DecidableEq ι]

theorem Sems.Fresh.recorded (fresh : sems.Fresh) (task : Nat) :
    (sems.view.ledger task).recorded = 0 := by
  have base := fresh.base task
  have pend := fresh.pend task
  change (if sems.basePriority task < sems.schedPriority task then
    sems.schedPriority task ::ₘ (sems.pendReprios task : Multiset Nat)
    else (sems.pendReprios task : Multiset Nat)) = 0
  rw [if_neg (by omega), pend]
  rfl

theorem Sems.Fresh.wanted (fresh : sems.Fresh) (waitPriority : Nat → Nat) (htcb : Nat) :
    sems.view.wanted waitPriority htcb = 0 := by
  apply View.wanted_eq_zero
  intro waiter listed
  change waiter ∈ (sems.kernel.waiting : Multiset Nat) at listed
  rw [fresh.idle] at listed
  cases listed

theorem Sys.returned {task : Nat} (valid : Valid nnestprio (sys.sems.ledger task))
    (genuine : sys.sems.view.Genuine sys.waitPriority)
    (free : ∀ sem, ∀ pholder ∈ sys.sems.holders sem, pholder.htcb ≠ task) :
    sys.sems.schedPriority task = sys.sems.basePriority task ∧ sys.sems.pendReprios task = [] := by
  have vacant : sys.sems.view.wanted sys.waitPriority task = 0 := by
    apply View.wanted_eq_zero
    intro waiter _ owned
    obtain ⟨sem, _, owner⟩ := Option.bind_eq_some_iff.1 owned
    obtain ⟨pholder, first, same⟩ := Option.map_eq_some_iff.1 owner
    exact absurd same (free sem pholder (mem_of_head? first))
  have empty := genuine task
  rw [vacant] at empty
  exact valid.ordered.eq_floor (le_zero.1 empty)

end

theorem Sems.Fresh.sound (fresh : sems.Fresh) : sems.Sound nnestprio := by
  have listed : sems.kernel.Listed := by
    constructor
    · intro task
      rw [fresh.idle]
      exact iff_of_false not_mem_nil (fresh.awake task)
    · rw [fresh.idle]
      exact nodup_nil
    · intro task sem waits
      rw [fresh.waits task] at waits
      cases waits
  have counted : sems.kernel.Counted := by
    refine ⟨listed, fun sem => ?_, fun sem => ?_⟩
    · unfold Kernel.waitCount
      rw [fresh.idle, fresh.counts sem]
      rfl
    · rw [fresh.counts sem]
      unfold Narrow semValueMax
      decide
  refine ⟨⟨counted, fun task => ?_, fun task blocked => absurd blocked (fresh.awake task)⟩,
    fun sem => Or.inl ⟨fresh.holders sem, fresh.counts sem⟩⟩
  have range := fresh.range task
  have base := fresh.base task
  have pend := fresh.pend task
  refine ⟨⟨Nat.le_of_eq base.symm, fun entry present => ?_⟩, range.1, ?_, fun _ => pend⟩
  · change entry ∈ sems.pendReprios task at present
    rw [pend] at present
    cases present
  · change sems.schedPriority task ≤ schedPriorityMax
    rw [base]
    exact range.2

theorem Sys.inherited (sound : sys.sems.Sound nnestprio)
    (covered : sys.sems.view.Covered nnestprio sys.waitPriority) {sem : ι} {pholder : Holder}
    (holds : pholder ∈ sys.sems.holders sem) {waiter : Nat}
    (waits : (sys.sems.kernel.tcb waiter).waitsem = some sem) :
    sys.waitPriority waiter ≤ sys.sems.schedPriority pholder.htcb := by
  obtain ⟨listed, _, htcb, owned⟩ := sound.waiter waits
  have same : pholder.htcb = htcb := by
    rw [(sound.held owned).1] at holds
    rw [List.mem_singleton.1 holds]
  rw [same]
  by_cases above : sys.sems.basePriority htcb < sys.waitPriority waiter
  · have bound := view_bound waits owned
    apply (covered htcb).high
    exact mem_map_of_mem _ (mem_filter.2 ⟨listed, bound, above⟩)
  · exact Nat.le_trans (Nat.not_lt.1 above) (sound.valid htcb).ordered.floor_le

/-- In every run whose operations end only waits that are on record, a task that holds no mutex is
at its base priority with nothing pending, in every state reached. -/
theorem boosts_returned (nested : 0 < nnestprio) (fresh : sems.Fresh) {ops : List (Op ι)}
    (guarded : Run.Admitted (Sys.step nnestprio) (ReturnGuard nnestprio) (Sys.start sems) ops) :
    ∃ sys, Run.run (Sys.step nnestprio) (Sys.start sems) ops = some sys ∧
      ∀ task, (∀ sem, ∀ pholder ∈ sys.sems.holders sem, pholder.htcb ≠ task) →
        sys.sems.schedPriority task = sys.sems.basePriority task ∧
          sys.sems.pendReprios task = [] := by
  have keeps : ∀ (sys : Sys ι) (op : Op ι),
      (sys.sems.Sound nnestprio ∧ sys.sems.view.Genuine sys.waitPriority) →
      ReturnGuard nnestprio sys op → ∃ next, sys.step nnestprio op = some next ∧
        next.sems.Sound nnestprio ∧ next.sems.view.Genuine next.waitPriority := by
    intro sys op holds guarded
    obtain ⟨next, done, sound, effect⟩ := Sys.step_effect holds.1 guarded.1 guarded.2.1
    exact ⟨next, done, sound, Sys.genuine_step nested holds.1 holds.2 guarded.1 guarded.2.2 effect⟩
  have initial : (Sys.start sems).sems.Sound nnestprio ∧
      (Sys.start sems).sems.view.Genuine (Sys.start sems).waitPriority := by
    refine ⟨fresh.sound, fun task => ?_⟩
    change (sems.view.ledger task).recorded ≤ _
    rw [fresh.recorded task]
    exact zero_le _
  obtain ⟨sys, performed, sound, genuine⟩ := Run.run_invariant keeps initial guarded
  exact ⟨sys, performed, fun task free => Sys.returned (sound.valid task) genuine free⟩

/-- In every run whose operations leave holders a record to fall back to, a task that holds a mutex
has at least the priority of every task that waits for it, in every state reached. -/
theorem priority_inherited (fresh : sems.Fresh) {ops : List (Op ι)}
    (guarded : Run.Admitted (Sys.step nnestprio) (CoverGuard nnestprio) (Sys.start sems) ops) :
    ∃ sys, Run.run (Sys.step nnestprio) (Sys.start sems) ops = some sys ∧
      ∀ sem, ∀ pholder ∈ sys.sems.holders sem, ∀ waiter,
        (sys.sems.kernel.tcb waiter).waitsem = some sem →
        sys.waitPriority waiter ≤ sys.sems.schedPriority pholder.htcb := by
  have keeps : ∀ (sys : Sys ι) (op : Op ι),
      (sys.sems.Sound nnestprio ∧ sys.sems.view.Covered nnestprio sys.waitPriority) →
      CoverGuard nnestprio sys op → ∃ next, sys.step nnestprio op = some next ∧
        next.sems.Sound nnestprio ∧ next.sems.view.Covered nnestprio next.waitPriority := by
    intro sys op holds guarded
    obtain ⟨next, done, sound, effect⟩ := Sys.step_effect holds.1 guarded.1 guarded.2.1
    exact ⟨next, done, sound, Sys.covered_step holds.1 holds.2 guarded.1 guarded.2.2 effect⟩
  have initial : (Sys.start sems).sems.Sound nnestprio ∧
      (Sys.start sems).sems.view.Covered nnestprio (Sys.start sems).waitPriority := by
    refine ⟨fresh.sound, fun htcb => ?_⟩
    change (sems.view.ledger htcb).Covers nnestprio (sems.view.wanted _ htcb)
    rw [fresh.wanted]
    exact Ledger.Covers.zero
  obtain ⟨sys, performed, sound, covered⟩ := Run.run_invariant keeps initial guarded
  exact ⟨sys, performed, fun sem pholder holds waiter waits =>
    Sys.inherited sound covered holds waits⟩

end Results

/-- Two free mutexes, and tasks whose base priorities are 5, 15, 25 and so on. -/
def ladder : Sems Bool :=
  { kernel :=
      { semcount := fun _ => 1
        waiting := []
        tcb := fun task =>
          { taskState := .ready, waitsem := none, pterrno := .ok,
            schedPriority := min (10 * task + 5) 255 } }
    basePriority := fun task => min (10 * task + 5) 255
    pendReprios := fun _ => []
    holders := fun _ => [] }

theorem ladder_fresh : ladder.Fresh := by
  refine ⟨rfl, fun _ => TaskState.noConfusion, fun _ => rfl, fun _ => rfl, fun _ => rfl,
    fun task => ?_, fun _ => rfl, fun _ => rfl⟩
  change 1 ≤ min (10 * task + 5) 255 ∧ min (10 * task + 5) 255 ≤ 255
  omega

/-- One task takes both mutexes, two others wait for one each, and both are posted. -/
def exchange : List (Op Bool) :=
  [.wait 1 false, .wait 1 true, .wait 2 false, .wait 3 true, .post 1 true, .post 1 false]

/-- Boosts are returned when both mutexes have been posted. -/
theorem boosts_returned_exchange :
    ∃ sys, Run.run (Sys.step 1) (Sys.start ladder) exchange = some sys ∧
      ∀ task, (∀ sem, ∀ pholder ∈ sys.sems.holders sem, pholder.htcb ≠ task) →
        sys.sems.schedPriority task = sys.sems.basePriority task ∧ sys.sems.pendReprios task = [] :=
  boosts_returned (by decide) ladder_fresh (by decide)

/-- Two tasks wait for one mutex. Its holder passes it to the first and falls back to the priority
of the second, although it holds no mutex any more. -/
theorem boosts_kept :
    Run.Admitted (Sys.step 1) (Allowed 1) (Sys.start ladder)
        [.wait 1 false, .wait 2 false, .wait 3 false, .post 1 false] ∧
      ∃ sys, Run.run (Sys.step 1) (Sys.start ladder)
          [.wait 1 false, .wait 2 false, .wait 3 false, .post 1 false] = some sys ∧
        (∀ sem, ∀ pholder ∈ sys.sems.holders sem, pholder.htcb ≠ 1) ∧
        sys.sems.basePriority 1 = 15 ∧ sys.sems.schedPriority 1 = 25 := by
  refine ⟨by decide, _, rfl, ?_, by decide, by decide⟩
  decide

/-- Both waiting tasks are served at their priority. -/
theorem priority_inherited_exchange :
    ∃ sys, Run.run (Sys.step 1) (Sys.start ladder) exchange = some sys ∧
      ∀ sem, ∀ pholder ∈ sys.sems.holders sem, ∀ waiter,
        (sys.sems.kernel.tcb waiter).waitsem = some sem →
        sys.waitPriority waiter ≤ sys.sems.schedPriority pholder.htcb :=
  priority_inherited ladder_fresh (by decide)

/-- With pending priorities, a wait below the base priority of the holder that times out takes the
boost of another task away. Without, posting one of two mutexes takes the boost for the other
away. -/
theorem priority_inverted :
    (Run.Admitted (Sys.step 1) (Allowed 1) (Sys.start ladder)
        [.wait 1 false, .wait 0 false, .wait 3 false, .waitIrq 0 .etimedout] ∧
      ∃ sys, Run.run (Sys.step 1) (Sys.start ladder)
          [.wait 1 false, .wait 0 false, .wait 3 false, .waitIrq 0 .etimedout] = some sys ∧
        sys.sems.holders false = [⟨1, 1⟩] ∧
        (sys.sems.kernel.tcb 3).waitsem = some false ∧ sys.waitPriority 3 = 35 ∧
        sys.sems.schedPriority 1 = 15) ∧
    (Run.Admitted (Sys.step 0) (Allowed 0) (Sys.start ladder)
        [.wait 1 false, .wait 1 true, .wait 2 false, .wait 3 true, .post 1 false] ∧
      ∃ sys, Run.run (Sys.step 0) (Sys.start ladder)
          [.wait 1 false, .wait 1 true, .wait 2 false, .wait 3 true, .post 1 false] = some sys ∧
        sys.sems.holders true = [⟨1, 1⟩] ∧
        (sys.sems.kernel.tcb 3).waitsem = some true ∧ sys.waitPriority 3 = 35 ∧
        sys.sems.schedPriority 1 = 15) := by
  constructor
  · exact ⟨by decide, _, rfl, by decide, by decide, by decide, by decide⟩
  · exact ⟨by decide, _, rfl, by decide, by decide, by decide, by decide⟩

end Chewie.Sched.Inherit
