import Chewie.Lib.Ledger
import Mathlib.Data.Multiset.UnionInter

/-!
# Owners and waiters of mutexes

What priority inheritance is about: each mutex has at most one owner, tasks wait for mutexes, and a
task that owns mutexes is demanded by those that wait for them. `View.wanted` has the priorities of
these waiters, as they were when they began to wait. Two properties relate them to the ledger of the
owner. In a `Genuine` view only demands that exist are recorded, so that a task that owns nothing is
at its base priority. In a `Covered` view every demand is met.
-/

namespace Chewie.Sched.Inherit

open Chewie Function Multiset Ledger

/-- Ledgers, waiters and owners. -/
@[ext] structure View (ι : Type) where
  /-- The priority of each task with what it can fall back to. -/
  ledger : Nat → Ledger
  waits : Nat → Option ι
  waiting : Multiset Nat
  owner : ι → Option Nat

namespace View

variable {ι : Type}

/-- A mutex gets another owner. -/
def give [DecidableEq ι] (view : View ι) (sem : ι) (owner : Option Nat) : View ι :=
  { view with owner := update view.owner sem owner }

/-- The demand on a task is recorded. -/
def boost (nnestprio : Nat) (view : View ι) (htcb demand : Nat) : View ι :=
  { view with
    ledger := update view.ledger htcb ((view.ledger htcb).raise nnestprio demand) }

/-- A demand on a task is released. -/
def restore (view : View ι) (htcb demand : Nat) : View ι :=
  { view with
    ledger := update view.ledger htcb ((view.ledger htcb).release demand) }

/-- A task begins to wait. -/
def enter (view : View ι) (task : Nat) (sem : ι) : View ι :=
  { view with
    waits := update view.waits task (some sem)
    waiting := task ::ₘ view.waiting }

/-- A task stops waiting. -/
def drop (view : View ι) (task : Nat) : View ι :=
  { view with
    waits := update view.waits task none
    waiting := view.waiting.erase task }

/-- A task waits for a mutex that another task has. -/
def block (nnestprio : Nat) (view : View ι) (task : Nat) (sem : ι) (htcb : Nat) : View ι :=
  (view.boost nnestprio htcb (view.ledger task).level).enter task sem

/-- A task gives up waiting for what another task has. -/
def leave (view : View ι) (task htcb : Nat) : View ι :=
  (view.restore htcb (view.ledger task).level).drop task

/-- A mutex passes to a waiting task, which falls back itself before the task that had it. -/
def hand [DecidableEq ι] (view : View ι) (task : Nat) (sem : ι) (stcb : Nat) : View ι :=
  let view := ((view.drop stcb).give sem (some stcb)).restore stcb (view.ledger stcb).level
  view.restore task (view.ledger stcb).level

/-- A waiting task demands more than the base priority from the owner of what it waits for. -/
def Demands (view : View ι) (waitPriority : Nat → Nat) (htcb task : Nat) : Prop :=
  (view.waits task).bind view.owner = some htcb ∧ (view.ledger htcb).floor < waitPriority task

instance (view : View ι) (waitPriority : Nat → Nat) (htcb task : Nat) :
    Decidable (view.Demands waitPriority htcb task) :=
  inferInstanceAs (Decidable (_ ∧ _))

/-- The demands on a task. -/
def wanted (view : View ι) (waitPriority : Nat → Nat) (htcb : Nat) : Multiset Nat :=
  (view.waiting.filter (view.Demands waitPriority htcb)).map waitPriority

/-- Every record is a demand. -/
def Genuine (view : View ι) (waitPriority : Nat → Nat) : Prop :=
  ∀ htcb, (view.ledger htcb).recorded ≤ view.wanted waitPriority htcb

/-- Every demand is met. -/
def Covered (nnestprio : Nat) (view : View ι) (waitPriority : Nat → Nat) : Prop :=
  ∀ htcb, (view.ledger htcb).Covers nnestprio (view.wanted waitPriority htcb)

/-- The holder has room to record the priority of a task. -/
def Fits (view : View ι) (nnestprio task htcb : Nat) : Prop :=
  (view.ledger htcb).floor < (view.ledger task).level →
    (view.ledger htcb).floor < (view.ledger htcb).level →
      (view.ledger htcb).pending.length < nnestprio

/-- The holder has the demand of a task on record, or another one. -/
def OnRecord (view : View ι) (nnestprio : Nat) (waitPriority : Nat → Nat)
    (task htcb : Nat) : Prop :=
  0 < nnestprio ∧ (view.ledger task).level = waitPriority task ∧
    ((view.ledger htcb).floor < waitPriority task ∨ (view.ledger htcb).pending ≠ [])

/-- The other tasks that wait for a mutex demand no more than a bound. -/
def Rivals (view : View ι) (waitPriority : Nat → Nat) (stcb : Nat) (sem : ι) (bound : Nat) : Prop :=
  ∀ other ∈ view.waiting, other ≠ stcb → view.waits other = some sem → waitPriority other ≤ bound

section Wanted

variable {view next : View ι} {waitPriority waitPriority' : Nat → Nat} {sem : ι}
  {task htcb stcb nnestprio : Nat}

theorem floor_lt_of_mem {demand : Nat} (present : demand ∈ view.wanted waitPriority htcb) :
    (view.ledger htcb).floor < demand := by
  obtain ⟨waiter, listed, rfl⟩ := mem_map.1 present
  exact (mem_filter.1 listed).2.2

theorem wanted_le (fewer : next.waiting ≤ view.waiting)
    (same : ∀ waiter ∈ next.waiting, waitPriority' waiter = waitPriority waiter)
    (demands : ∀ waiter ∈ next.waiting, next.Demands waitPriority' htcb waiter →
      view.Demands waitPriority htcb waiter) :
    next.wanted waitPriority' htcb ≤ view.wanted waitPriority htcb := by
  have renamed : next.wanted waitPriority' htcb =
      (next.waiting.filter (next.Demands waitPriority' htcb)).map waitPriority :=
    map_congr rfl fun waiter listed => same waiter (mem_of_mem_filter listed)
  rw [renamed]
  apply map_le_map
  rw [le_filter]
  constructor
  · exact (filter_le _ _).trans fewer
  · intro waiter listed
    have parts := mem_filter.1 listed
    exact demands waiter parts.1 parts.2

theorem wanted_congr (same : next.waiting = view.waiting)
    (priorities : ∀ waiter ∈ view.waiting, waitPriority' waiter = waitPriority waiter)
    (demands : ∀ waiter ∈ view.waiting, next.Demands waitPriority' htcb waiter ↔
      view.Demands waitPriority htcb waiter) :
    next.wanted waitPriority' htcb = view.wanted waitPriority htcb := by
  apply le_antisymm
  · apply wanted_le (le_of_eq same)
    · rw [same]
      exact priorities
    · rw [same]
      exact fun waiter listed => (demands waiter listed).1
  · apply wanted_le (le_of_eq same.symm)
    · exact fun waiter listed => (priorities waiter listed).symm
    · exact fun waiter listed => (demands waiter listed).2

section

variable (view)

theorem restore_same (htcb demand : Nat) :
    (view.restore htcb demand).ledger htcb = (view.ledger htcb).release demand :=
  update_self _ _ _

theorem restore_other {htcb other : Nat} (demand : Nat) (different : other ≠ htcb) :
    (view.restore htcb demand).ledger other = view.ledger other :=
  update_of_ne different _ _

theorem boost_same (htcb demand : Nat) :
    (view.boost nnestprio htcb demand).ledger htcb = (view.ledger htcb).raise nnestprio demand :=
  update_self _ _ _

theorem boost_other {htcb other : Nat} (demand : Nat) (different : other ≠ htcb) :
    (view.boost nnestprio htcb demand).ledger other = view.ledger other :=
  update_of_ne different _ _

theorem update_floor {htcb : Nat} {ledger : Ledger}
    (same : ledger.floor = (view.ledger htcb).floor) (other : Nat) :
    (update view.ledger htcb ledger other).floor = (view.ledger other).floor := by
  by_cases here : other = htcb
  · rw [here, update_self, same]
  · rw [update_of_ne here]

/-- A change of a ledger that keeps the base priority changes no demand. -/
theorem wanted_update (waitPriority : Nat → Nat) {htcb : Nat} {ledger : Ledger}
    (same : ledger.floor = (view.ledger htcb).floor) (other : Nat) :
    ({ view with ledger := update view.ledger htcb ledger } : View ι).wanted waitPriority other =
      view.wanted waitPriority other := by
  apply wanted_congr
  · rfl
  · exact fun _ _ => rfl
  · intro waiter _
    unfold Demands
    rw [update_floor view same]

theorem wanted_restore (waitPriority : Nat → Nat) (htcb demand other : Nat) :
    (view.restore htcb demand).wanted waitPriority other = view.wanted waitPriority other :=
  view.wanted_update waitPriority (release_floor ..) other

end

/-- What is not waited for may get another owner. -/
theorem bind_give [DecidableEq ι] {waits : Option ι} (elsewhere : waits ≠ some sem)
    (owner : Option Nat) : waits.bind (update view.owner sem owner) = waits.bind view.owner := by
  cases waits with
  | none => rfl
  | some other => exact update_of_ne (fun equal => elsewhere (congrArg some equal)) _ _

theorem wanted_give [DecidableEq ι]
    (idle : ∀ waiter ∈ view.waiting, view.waits waiter ≠ some sem) (owner : Option Nat) :
    (view.give sem owner).wanted waitPriority htcb = view.wanted waitPriority htcb := by
  apply wanted_congr
  · rfl
  · exact fun _ _ => rfl
  · intro waiter listed
    change (view.waits waiter).bind (update view.owner sem owner) = _ ∧ _ ↔ _
    rw [bind_give (idle waiter listed)]
    rfl

theorem wanted_give_le [DecidableEq ι] {owner : Option Nat} (owned : owner = some htcb →
      ∀ waiter ∈ view.waiting, view.waits waiter = some sem →
        waitPriority waiter ≤ (view.ledger htcb).floor) :
    (view.give sem owner).wanted waitPriority htcb ≤ view.wanted waitPriority htcb := by
  apply wanted_le
  · exact le_refl _
  · exact fun _ _ => rfl
  intro waiter listed demands
  refine ⟨?_, demands.2⟩
  have bound : (view.waits waiter).bind (update view.owner sem owner) = some htcb := demands.1
  by_cases waits : view.waits waiter = some sem
  · rw [waits, Option.bind_some, update_self] at bound
    have low := owned bound waiter listed waits
    have above : (view.ledger htcb).floor < waitPriority waiter := demands.2
    omega
  · rwa [bind_give waits] at bound

theorem le_wanted_give [DecidableEq ι] {owner : Option Nat}
    (owned : view.owner sem = some htcb → ∀ waiter ∈ view.waiting, view.waits waiter = some sem →
        waitPriority waiter ≤ (view.ledger htcb).floor) :
    view.wanted waitPriority htcb ≤ (view.give sem owner).wanted waitPriority htcb := by
  have back : (view.give sem owner).give sem (view.owner sem) = view := by
    unfold give
    rw [update_idem, update_eq_self]
  have returned := @wanted_give_le ι (view.give sem owner) waitPriority sem htcb _
    (view.owner sem) owned
  rw [back] at returned
  exact returned

/-- The demand of a task that begins to wait is added. -/
theorem wanted_enter (absent : task ∉ view.waiting) (owned : view.owner sem = some stcb)
    (demand : Nat) :
    (view.enter task sem).wanted (update waitPriority task demand) htcb =
      if htcb = stcb ∧ (view.ledger htcb).floor < demand
      then demand ::ₘ view.wanted waitPriority htcb
      else view.wanted waitPriority htcb := by
  let priorities := update waitPriority task demand
  have here : priorities task = demand := update_self _ _ _
  have apart : ∀ waiter ∈ view.waiting, waiter ≠ task := fun waiter listed same =>
    absent (same ▸ listed)
  have rest : ((view.waiting.filter ((view.enter task sem).Demands priorities htcb)).map
      priorities) = view.wanted waitPriority htcb := by
    have congr := @wanted_congr ι view
      { view.enter task sem with waiting := view.waiting } waitPriority priorities htcb rfl
      (fun waiter listed => update_of_ne (apart waiter listed) _ _)
    apply congr
    intro waiter listed
    have waits : (view.enter task sem).waits waiter = view.waits waiter :=
      update_of_ne (apart waiter listed) _ _
    have priority : priorities waiter = waitPriority waiter :=
      update_of_ne (apart waiter listed) _ _
    unfold Demands
    rw [priority]
    rw [waits]
    rfl
  have demands : (view.enter task sem).Demands priorities htcb task ↔
      htcb = stcb ∧ (view.ledger htcb).floor < demand := by
    have waits : (view.enter task sem).waits task = some sem := update_self _ _ _
    unfold Demands
    rw [waits, here]
    change view.owner sem = some htcb ∧ _ ↔ _
    rw [owned, Option.some.injEq, eq_comm]
    rfl
  change ((task ::ₘ view.waiting).filter ((view.enter task sem).Demands priorities htcb)).map
    priorities = _
  by_cases added : (view.enter task sem).Demands priorities htcb task
  · rw [filter_cons_of_pos _ added, map_cons, here, rest, if_pos (demands.1 added)]
  · rw [filter_cons_of_neg _ added, rest, if_neg (fun both => added (demands.2 both))]

section

variable (listed : task ∈ view.waiting) (distinct : view.waiting.Nodup)

include listed distinct

theorem wanted_drop :
    view.wanted waitPriority htcb =
      if view.Demands waitPriority htcb task
      then waitPriority task ::ₘ (view.drop task).wanted waitPriority htcb
      else (view.drop task).wanted waitPriority htcb := by
  have rest : ((view.waiting.erase task).filter (view.Demands waitPriority htcb)).map
      waitPriority = (view.drop task).wanted waitPriority htcb := by
    have congr := @wanted_congr ι (view.drop task)
      { view with waiting := view.waiting.erase task } waitPriority waitPriority htcb rfl
      (fun _ _ => rfl)
    apply congr
    intro waiter left
    have apart : waiter ≠ task := fun same =>
      distinct.notMem_erase (same ▸ left : task ∈ view.waiting.erase task)
    have waits : (view.drop task).waits waiter = view.waits waiter := update_of_ne apart _ _
    unfold Demands
    rw [waits]
    rfl
  have whole := cons_erase listed
  by_cases demands : view.Demands waitPriority htcb task
  · rw [if_pos demands, ← rest, ← map_cons, ← filter_cons_of_pos _ demands, whole]
    rfl
  · rw [if_neg demands, ← rest, ← filter_cons_of_neg _ demands, whole]
    rfl

theorem wanted_drop_le :
    (view.drop task).wanted waitPriority htcb ≤ view.wanted waitPriority htcb := by
  rw [wanted_drop listed distinct]
  split
  · exact le_cons_self _ _
  · exact le_refl _

theorem wanted_drop_owner (owned : (view.waits task).bind view.owner = some htcb) :
    (view.wanted waitPriority htcb).erase (waitPriority task) =
      (view.drop task).wanted waitPriority htcb := by
  by_cases above : (view.ledger htcb).floor < waitPriority task
  · rw [wanted_drop listed distinct, if_pos ⟨owned, above⟩, erase_cons_head]
  · have absent : waitPriority task ∉ view.wanted waitPriority htcb := fun present =>
      above (floor_lt_of_mem present)
    rw [erase_of_notMem absent, wanted_drop listed distinct, if_neg (fun both => above both.2)]

theorem wanted_drop_other (other : (view.waits task).bind view.owner ≠ some htcb) :
    (view.drop task).wanted waitPriority htcb = view.wanted waitPriority htcb := by
  rw [wanted_drop listed distinct, if_neg (fun both => other both.1)]

end

theorem wanted_eq_zero (low : ∀ waiter ∈ view.waiting,
      (view.waits waiter).bind view.owner = some htcb →
        waitPriority waiter ≤ (view.ledger htcb).floor) : view.wanted waitPriority htcb = 0 := by
  refine eq_zero_of_forall_notMem fun demand present => ?_
  obtain ⟨waiter, listed, rfl⟩ := mem_map.1 present
  have parts := mem_filter.1 listed
  have above := parts.2.2
  have bound := low waiter parts.1 parts.2.1
  omega

end Wanted

section Steps

variable {view : View ι} {waitPriority : Nat → Nat} {sem : ι} {task htcb stcb nnestprio : Nat}

theorem wanted_block (absent : task ∉ view.waiting) (owned : view.owner sem = some htcb)
    (other : Nat) :
    (view.block nnestprio task sem htcb).wanted
        (update waitPriority task (view.ledger task).level) other =
      if other = htcb ∧ (view.ledger other).floor < (view.ledger task).level
      then (view.ledger task).level ::ₘ view.wanted waitPriority other
      else view.wanted waitPriority other := by
  have entered := @wanted_enter ι (view.boost nnestprio htcb (view.ledger task).level)
    waitPriority sem task other htcb absent owned (view.ledger task).level
  have boosted := @raise_floor (view.ledger htcb) nnestprio (view.ledger task).level
  unfold boost at entered
  rw [wanted_update view _ boosted] at entered
  simp only [update_floor view boosted] at entered
  exact entered

theorem wanted_hand [DecidableEq ι] (view : View ι) (waitPriority : Nat → Nat) (task : Nat)
    (sem : ι) (stcb other : Nat) :
    (view.hand task sem stcb).wanted waitPriority other =
      ((view.drop stcb).give sem (some stcb)).wanted waitPriority other := by
  unfold hand
  rw [wanted_restore, wanted_restore]

theorem hand_ledger_stcb [DecidableEq ι] (different : stcb ≠ task) :
    (view.hand task sem stcb).ledger stcb =
      (view.ledger stcb).release (view.ledger stcb).level := by
  unfold hand
  rw [restore_other _ _ different, restore_same]
  rfl

theorem hand_ledger_task [DecidableEq ι] (different : stcb ≠ task) :
    (view.hand task sem stcb).ledger task =
      (view.ledger task).release ((view.ledger stcb).release (view.ledger stcb).level).level := by
  unfold hand
  rw [restore_same, restore_same, restore_other _ _ (Ne.symm different)]
  rfl

theorem hand_ledger_other [DecidableEq ι] {other : Nat} (apart : other ≠ stcb)
    (different : other ≠ task) : (view.hand task sem stcb).ledger other = view.ledger other := by
  unfold hand
  rw [restore_other _ _ different, restore_other _ _ apart]
  rfl

section

variable (genuine : view.Genuine waitPriority)

include genuine

theorem Genuine.give [DecidableEq ι]
    (idle : ∀ waiter ∈ view.waiting, view.waits waiter ≠ some sem) (owner : Option Nat) :
    (view.give sem owner).Genuine waitPriority := by
  intro other
  rw [wanted_give idle]
  exact genuine other

theorem Genuine.block (absent : task ∉ view.waiting) (owned : view.owner sem = some htcb)
    (fits : view.Fits nnestprio task htcb) :
    (view.block nnestprio task sem htcb).Genuine
      (update waitPriority task (view.ledger task).level) := by
  intro other
  rw [wanted_block absent owned]
  by_cases here : other = htcb
  · subst here
    change ((view.boost nnestprio other (view.ledger task).level).ledger other).recorded ≤ _
    rw [boost_same]
    by_cases above : (view.ledger other).floor < (view.ledger task).level
    · rw [if_pos ⟨rfl, above⟩, raise_recorded above (fits above)]
      exact cons_le_cons _ (genuine other)
    · rw [if_neg (fun both => above both.2), raise_low (Nat.not_lt.1 above)]
      exact genuine other
  · change ((view.boost nnestprio htcb (view.ledger task).level).ledger other).recorded ≤ _
    rw [if_neg (fun both => here both.1), boost_other _ _ here]
    exact genuine other

theorem Genuine.leave (ordered : ∀ other, (view.ledger other).Ordered)
    (listed : task ∈ view.waiting) (distinct : view.waiting.Nodup)
    (owned : (view.waits task).bind view.owner = some htcb)
    (found : (view.ledger htcb).pending = [] ∨ (view.ledger task).level = waitPriority task) :
    (view.leave task htcb).Genuine waitPriority := by
  intro other
  have restored := wanted_restore (view.drop task) waitPriority htcb (view.ledger task).level other
  change ((view.restore htcb (view.ledger task).level).ledger other).recorded ≤
    ((view.drop task).restore htcb (view.ledger task).level).wanted waitPriority other
  rw [restored]
  by_cases here : other = htcb
  · subst here
    rw [restore_same]
    rcases found with last | same
    · rw [release_last (ordered other) last]
      exact zero_le _
    · rw [same, ← wanted_drop_owner listed distinct owned]
      exact release_recorded_le (ordered other) (genuine other)
  · have elsewhere : (view.waits task).bind view.owner ≠ some other := by
      rw [owned]
      exact fun same => here (Option.some.inj same).symm
    rw [restore_other _ _ here, wanted_drop_other listed distinct elsewhere]
    exact genuine other

/-- Passing on a mutex leaves no record without a demand, if the task that had it has only one
record, or if the task that gets it is not boosted and the other waiters demand nothing. -/
theorem Genuine.hand [DecidableEq ι] (ordered : ∀ other, (view.ledger other).Ordered)
    (listed : stcb ∈ view.waiting) (distinct : view.waiting.Nodup)
    (waits : view.waits stcb = some sem) (owned : view.owner sem = some task)
    (different : stcb ≠ task)
    (found : (view.ledger task).pending = [] ∨ (view.ledger stcb).level = (view.ledger stcb).floor ∧
      (view.ledger stcb).level = waitPriority stcb ∧
      view.Rivals waitPriority stcb sem (view.ledger task).floor) :
    (view.hand task sem stcb).Genuine waitPriority := by
  intro other
  have bound : (view.waits stcb).bind view.owner = some task := by
    rw [waits]
    exact owned
  have elsewhere : other ≠ task → (view.waits stcb).bind view.owner ≠ some other := by
    intro apart
    rw [bound]
    exact fun same => apart (Option.some.inj same).symm
  have kept : other ≠ task →
      view.wanted waitPriority other ≤
        ((view.drop stcb).give sem (some stcb)).wanted waitPriority other := by
    intro apart
    rw [← wanted_drop_other listed distinct (elsewhere apart)]
    apply le_wanted_give
    intro same
    change view.owner sem = some other at same
    rw [owned] at same
    exact absurd (Option.some.inj same).symm apart
  rw [wanted_hand]
  by_cases here : other = task
  · subst here
    rw [hand_ledger_task different]
    rcases found with last | ⟨down, same, low⟩
    · rw [release_last (ordered other) last]
      exact zero_le _
    have lost : (view.drop stcb).wanted waitPriority other ≤
        ((view.drop stcb).give sem (some stcb)).wanted waitPriority other := by
      apply le_wanted_give
      intro _ waiter left waiting
      have apart : waiter ≠ stcb := fun equal => distinct.notMem_erase (equal ▸ left)
      have still : view.waits waiter = some sem := by
        rw [← waiting]
        exact (update_of_ne apart _ _).symm
      exact low waiter (mem_of_mem_erase left) apart still
    rw [release_down down, same]
    have released : ((view.ledger other).release (waitPriority stcb)).recorded ≤
        (view.wanted waitPriority other).erase (waitPriority stcb) :=
      release_recorded_le (ordered other) (genuine other)
    rw [wanted_drop_owner listed distinct bound] at released
    exact released.trans lost
  · by_cases gets : other = stcb
    · subst gets
      rw [hand_ledger_stcb different]
      exact (release_le_recorded (ordered other)).trans ((genuine other).trans (kept here))
    · rw [hand_ledger_other gets here]
      exact (genuine other).trans (kept here)

end

section

variable (covered : view.Covered nnestprio waitPriority)

include covered

theorem Covered.give [DecidableEq ι]
    (idle : ∀ waiter ∈ view.waiting, view.waits waiter ≠ some sem) (owner : Option Nat) :
    (view.give sem owner).Covered nnestprio waitPriority := by
  intro other
  rw [wanted_give idle]
  exact covered other

theorem Covered.block (ordered : ∀ other, (view.ledger other).Ordered)
    (absent : task ∉ view.waiting) (owned : view.owner sem = some htcb)
    (fits : 0 < nnestprio → view.Fits nnestprio task htcb) :
    (view.block nnestprio task sem htcb).Covered nnestprio
      (update waitPriority task (view.ledger task).level) := by
  intro other
  rw [wanted_block absent owned]
  change ((view.boost nnestprio htcb (view.ledger task).level).ledger other).Covers _ _
  by_cases here : other = htcb
  · subst here
    rw [boost_same]
    by_cases above : (view.ledger other).floor < (view.ledger task).level
    · rw [if_pos ⟨rfl, above⟩]
      exact (covered other).raise (ordered other) above fun nested => fits nested above
    · rw [if_neg (fun both => above both.2), raise_low (Nat.not_lt.1 above)]
      exact covered other
  · rw [if_neg (fun both => here both.1), boost_other _ _ here]
    exact covered other

/-- When the demand of a waiting task ends, its holder still meets the demands that are left: it
does not fall back, or nothing is demanded, or it has the demand on record or another one. -/
theorem Covered.release (ordered : (view.ledger htcb).Ordered) (listed : task ∈ view.waiting)
    (distinct : view.waiting.Nodup) (owned : (view.waits task).bind view.owner = some htcb)
    {left : Multiset Nat} (fewer : left ≤ (view.drop task).wanted waitPriority htcb)
    (found : (view.ledger htcb).level = (view.ledger htcb).floor ∨ left = 0 ∨
      view.OnRecord nnestprio waitPriority task htcb) :
    ((view.ledger htcb).release (view.ledger task).level).Covers nnestprio left := by
  rcases found with down | empty | ⟨nested, same, several⟩
  · rw [release_down down]
    exact (covered htcb).mono (fewer.trans (wanted_drop_le listed distinct))
  · rw [empty]
    exact Ledger.Covers.zero
  · rw [← wanted_drop_owner listed distinct owned] at fewer
    rw [same]
    apply Ledger.Covers.mono _ fewer
    apply (covered htcb).release ordered nested
    by_cases above : (view.ledger htcb).floor < waitPriority task
    · rw [wanted_drop listed distinct, if_pos ⟨owned, above⟩]
      exact Or.inl (mem_cons_self _ _)
    · exact Or.inr ⟨Nat.not_lt.1 above, several.resolve_left above⟩

/-- Demands are met after a task has given up waiting. -/
theorem Covered.leave (ordered : ∀ other, (view.ledger other).Ordered)
    (listed : task ∈ view.waiting) (distinct : view.waiting.Nodup)
    (owned : (view.waits task).bind view.owner = some htcb)
    (found : (view.ledger htcb).level = (view.ledger htcb).floor ∨
      (∀ other ∈ view.waiting, other ≠ task → (view.waits other).bind view.owner = some htcb →
        waitPriority other ≤ (view.ledger htcb).floor) ∨
      view.OnRecord nnestprio waitPriority task htcb) :
    (view.leave task htcb).Covered nnestprio waitPriority := by
  intro other
  have restored := wanted_restore (view.drop task) waitPriority htcb (view.ledger task).level other
  change ((view.restore htcb (view.ledger task).level).ledger other).Covers nnestprio
    (((view.drop task).restore htcb (view.ledger task).level).wanted waitPriority other)
  rw [restored]
  by_cases here : other = htcb
  · subst here
    rw [restore_same]
    apply covered.release (ordered other) listed distinct owned (le_refl _)
    rcases found with down | low | several
    · exact Or.inl down
    · refine Or.inr (Or.inl (wanted_eq_zero ?_))
      intro waiter left bound
      have apart : waiter ≠ task := fun equal => distinct.notMem_erase (equal ▸ left)
      have still : (view.drop task).waits waiter = view.waits waiter := update_of_ne apart _ _
      rw [still] at bound
      exact low waiter (mem_of_mem_erase left) apart bound
    · exact Or.inr (Or.inr several)
  · rw [restore_other _ _ here]
    exact (covered other).mono (wanted_drop_le listed distinct)

/-- Demands are met after a mutex has passed to a waiting task that is not boosted and is above the
other waiters. -/
theorem Covered.hand [DecidableEq ι] (ordered : ∀ other, (view.ledger other).Ordered)
    (listed : stcb ∈ view.waiting) (distinct : view.waiting.Nodup)
    (waits : view.waits stcb = some sem) (owned : view.owner sem = some task)
    (different : stcb ≠ task) (down : (view.ledger stcb).level = (view.ledger stcb).floor)
    (first : view.Rivals waitPriority stcb sem (view.ledger stcb).floor)
    (found : (view.ledger task).level = (view.ledger task).floor ∨
      (∀ other ∈ view.waiting, view.waits other ≠ some sem →
        (view.waits other).bind view.owner = some task →
          waitPriority other ≤ (view.ledger task).floor) ∨
      view.OnRecord nnestprio waitPriority stcb task) :
    (view.hand task sem stcb).Covered nnestprio waitPriority := by
  intro other
  have bound : (view.waits stcb).bind view.owner = some task := by
    rw [waits]
    exact owned
  have apart : ∀ waiter ∈ (view.drop stcb).waiting, waiter ≠ stcb := fun waiter left equal =>
    distinct.notMem_erase (equal ▸ left)
  have still : ∀ waiter ∈ (view.drop stcb).waiting,
      (view.drop stcb).waits waiter = view.waits waiter := fun waiter left =>
    update_of_ne (apart waiter left) _ _
  have fewer : ((view.drop stcb).give sem (some stcb)).wanted waitPriority other ≤
      (view.drop stcb).wanted waitPriority other := by
    apply wanted_give_le
    intro same waiter left waiting
    rw [still waiter left] at waiting
    rw [← Option.some.inj same]
    exact first waiter (mem_of_mem_erase left) (apart waiter left) waiting
  rw [wanted_hand]
  by_cases here : other = task
  · subst here
    rw [hand_ledger_task different, release_down down]
    apply covered.release (ordered other) listed distinct bound fewer
    rcases found with falls | low | several
    · exact Or.inl falls
    · refine Or.inr (Or.inl (wanted_eq_zero ?_))
      intro waiter left given
      change ((view.drop stcb).waits waiter).bind
        (update view.owner sem (some stcb)) = some other at given
      rw [still waiter left] at given
      have elsewhere : view.waits waiter ≠ some sem := by
        intro here
        rw [here, Option.bind_some, update_self] at given
        exact different (Option.some.inj given)
      rw [bind_give elsewhere] at given
      exact low waiter (mem_of_mem_erase left) elsewhere given
    · exact Or.inr (Or.inr several)
  · have kept := (covered other).mono (fewer.trans (wanted_drop_le listed distinct))
    by_cases gets : other = stcb
    · subst gets
      rw [hand_ledger_stcb different, release_down down]
      exact kept
    · rw [hand_ledger_other gets here]
      exact kept

end

end Steps

end View

end Chewie.Sched.Inherit
