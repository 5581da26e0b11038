import Chewie.Sched.Inherit.Model
import Chewie.Sched.Sem.Balance

/-!
# Boosts as a ledger

The base priority, the current priority and the pending priorities of a task are a ledger. Raising
a holder records the priority of the waiting task there (`nxsemBoostholderprio_becomes`), and
letting it fall back releases that priority (`nxsemRestoreholderprio_becomes`), in both
configurations. Apart from priorities, only the order of the waiting tasks changes.
-/

namespace Chewie.Sched.Inherit

open Chewie Function Sems Ledger

variable {ι : Type}

/-- The priority of a task with what it can fall back to. -/
def Sems.ledger (sems : Sems ι) (task : Nat) : Ledger :=
  { floor := sems.basePriority task
    level := sems.schedPriority task
    pending := sems.pendReprios task }

/-- A ledger of priorities: ordered, in range, and without a list when none is configured. -/
structure Valid (nnestprio : Nat) (ledger : Ledger) : Prop where
  ordered : ledger.Ordered
  least : schedPriorityMin ≤ ledger.floor
  most : ledger.level ≤ schedPriorityMax
  plain : nnestprio = 0 → ledger.pending = []

/-- Only priorities changed, and with them the order of the waiting tasks. -/
structure Sems.Moves (sems next : Sems ι) : Prop where
  semcount : next.kernel.semcount = sems.kernel.semcount
  waiting : next.kernel.waiting.Perm sems.kernel.waiting
  taskState : ∀ task, (next.kernel.tcb task).taskState = (sems.kernel.tcb task).taskState
  waitsem : ∀ task, (next.kernel.tcb task).waitsem = (sems.kernel.tcb task).waitsem
  holders : next.holders = sems.holders

/-- Only the ledger of one task changed. -/
structure Sems.Becomes (sems next : Sems ι) (task : Nat) (ledger : Ledger) : Prop where
  moves : sems.Moves next
  ledgers : next.ledger = update sems.ledger task ledger

section Valid

variable {nnestprio demand : Nat} {ledger : Ledger}

theorem Valid.raise (valid : Valid nnestprio ledger) (most : demand ≤ schedPriorityMax) :
    Valid nnestprio (ledger.raise nnestprio demand) := by
  constructor
  · exact valid.ordered.raise
  · rw [raise_floor]
    exact valid.least
  · have bound := valid.most
    unfold Ledger.raise
    split
    · split
      · exact most
      · exact bound
    · exact bound
  · intro absent
    have empty := valid.plain absent
    unfold Ledger.raise Ledger.push
    rw [empty, absent]
    simp only [List.length_nil, Nat.lt_irrefl, if_false, ite_self]
    split
    · split <;> rfl
    · exact empty

theorem Valid.release (valid : Valid nnestprio ledger) :
    Valid nnestprio (ledger.release demand) := by
  constructor
  · exact valid.ordered.release
  · rw [release_floor]
    exact valid.least
  · exact Nat.le_trans valid.ordered.release_level valid.most
  · intro absent
    have empty := valid.plain absent
    unfold Ledger.release
    split
    · exact empty
    · rw [if_pos (by rw [empty]; exact Nat.zero_lt_one)]

end Valid

section Frames

variable {sems next last : Sems ι} {task : Nat} {ledger ledger' : Ledger}

theorem Sems.Moves.refl (sems : Sems ι) : sems.Moves sems :=
  ⟨rfl, List.Perm.refl _, fun _ => rfl, fun _ => rfl, rfl⟩

theorem Sems.Moves.trans (first : sems.Moves next) (second : next.Moves last) : sems.Moves last :=
  ⟨second.semcount.trans first.semcount, second.waiting.trans first.waiting,
    fun task => (second.taskState task).trans (first.taskState task),
    fun task => (second.waitsem task).trans (first.waitsem task),
    second.holders.trans first.holders⟩

theorem Sems.Becomes.refl (same : ledger = sems.ledger task) : sems.Becomes sems task ledger := by
  refine ⟨Moves.refl sems, ?_⟩
  rw [same, update_eq_self]

theorem Sems.Becomes.trans (first : sems.Becomes next task ledger)
    (second : next.Becomes last task ledger') : sems.Becomes last task ledger' := by
  refine ⟨first.moves.trans second.moves, ?_⟩
  rw [second.ledgers, first.ledgers, update_idem]

theorem Sems.Becomes.same (becomes : sems.Becomes next task ledger) :
    next.ledger task = ledger := by
  rw [becomes.ledgers, update_self]

theorem Sems.Becomes.other (becomes : sems.Becomes next task ledger) {other : Nat}
    (different : other ≠ task) : next.ledger other = sems.ledger other := by
  rw [becomes.ledgers, update_of_ne different]

theorem Sems.Moves.listed (moves : sems.Moves next) (listed : sems.kernel.Listed) :
    next.kernel.Listed := by
  constructor
  · intro task
    rw [moves.waiting.mem_iff, moves.taskState]
    exact listed.blocked task
  · exact moves.waiting.nodup_iff.2 listed.distinct
  · intro task sem waits
    rw [moves.waitsem] at waits
    rw [moves.taskState]
    exact listed.waits task sem waits

theorem Sems.Moves.counted [DecidableEq ι] (moves : sems.Moves next)
    (counted : sems.kernel.Counted) : next.kernel.Counted := by
  have same : ∀ sem, next.kernel.waitCount sem = sems.kernel.waitCount sem := by
    intro sem
    unfold Kernel.waitCount
    rw [moves.waiting.countP_eq]
    apply List.countP_congr
    intro task _
    rw [moves.waitsem]
  constructor
  · exact moves.listed counted.listed
  · intro sem
    rw [same, moves.semcount]
    exact counted.waiters sem
  · intro sem
    rw [moves.semcount]
    exact counted.narrow sem

theorem Sems.setPend_becomes (sems : Sems ι) (task : Nat) (pend : List Nat) :
    sems.Becomes (sems.setPend task pend) task { sems.ledger task with pending := pend } := by
  refine ⟨⟨rfl, List.Perm.refl _, fun _ => rfl, fun _ => rfl, rfl⟩, ?_⟩
  funext other
  by_cases same : other = task
  · subst same
    simp [ledger, setPend, schedPriority]
  · simp [ledger, setPend, schedPriority, update_of_ne same]

/-- Setting a priority in range succeeds and changes one ledger. -/
theorem nxschedSetpriority_becomes (listed : sems.kernel.Listed) {priority : Nat}
    (least : schedPriorityMin ≤ priority) (most : priority ≤ schedPriorityMax) :
    (nxschedSetpriority sems task priority).2 = true ∧
      sems.Becomes (nxschedSetpriority sems task priority).1 task
        { sems.ledger task with level := priority } := by
  have ledgers : ∀ waiting, (ledger { sems with
      kernel := { sems.kernel.setTcb task { sems.kernel.tcb task with schedPriority := priority }
        with waiting := waiting } }) =
      update sems.ledger task { sems.ledger task with level := priority } := by
    intro waiting
    funext other
    by_cases same : other = task
    · subst same
      simp [ledger, schedPriority, Kernel.setTcb]
    · simp [ledger, schedPriority, Kernel.setTcb, update_of_ne same]
  have fields : ∀ other, (update sems.kernel.tcb task
      { sems.kernel.tcb task with schedPriority := priority } other).taskState =
        (sems.kernel.tcb other).taskState ∧ (update sems.kernel.tcb task
      { sems.kernel.tcb task with schedPriority := priority } other).waitsem =
        (sems.kernel.tcb other).waitsem := by
    intro other
    by_cases same : other = task
    · subst same
      rw [update_self]
      exact ⟨rfl, rfl⟩
    · rw [update_of_ne same]
      exact ⟨rfl, rfl⟩
  have states := fun other => (fields other).1
  have waits := fun other => (fields other).2
  unfold nxschedSetpriority
  rw [if_neg (by omega)]
  split
  · rename_i blocked
    have mem := (listed.blocked task).2 blocked
    have moved := (schedAddprioritized_perm (fun other => ((sems.kernel.setTcb task
      { sems.kernel.tcb task with schedPriority := priority }).tcb other).schedPriority) task
      (sems.kernel.waiting.erase task)).trans (List.perm_cons_erase mem).symm
    exact ⟨rfl, ⟨rfl, moved, states, waits, rfl⟩, ledgers _⟩
  · exact ⟨rfl, ⟨rfl, List.Perm.refl _, states, waits, rfl⟩, ledgers _⟩

theorem nxschedReprioritize_becomes (listed : sems.kernel.Listed)
    (least : schedPriorityMin ≤ sems.basePriority task)
    (most : sems.basePriority task ≤ schedPriorityMax) :
    sems.Becomes (nxschedReprioritize sems task (sems.basePriority task)).1 task
      { sems.ledger task with level := (sems.ledger task).floor, pending := [] } := by
  have set := @nxschedSetpriority_becomes ι sems task listed _ least most
  have cleared := set.2.trans (setPend_becomes _ task [])
  rw [set.2.same] at cleared
  unfold nxschedReprioritize
  rw [if_pos set.1]
  have base : (nxschedSetpriority sems task (sems.basePriority task)).1.basePriority =
      sems.basePriority := by
    unfold nxschedSetpriority
    split
    · rfl
    · split <;> rfl
  have kept : update ((nxschedSetpriority sems task
      (sems.basePriority task)).1.setPend task []).basePriority task (sems.basePriority task) =
      ((nxschedSetpriority sems task (sems.basePriority task)).1.setPend task []).basePriority := by
    change update (nxschedSetpriority sems task (sems.basePriority task)).1.basePriority task _ = _
    rw [base, update_eq_self]
    exact base.symm
  dsimp only
  rw [kept]
  exact cleared

end Frames

section Boosts

variable {nnestprio : Nat} {sems : Sems ι}

/-- Raising a holder records the priority of the task that has to wait. -/
theorem nxsemBoostholderprio_becomes {rtcb : Nat} {pholder : Holder}
    (listed : sems.kernel.Listed) (valid : Valid nnestprio (sems.ledger pholder.htcb))
    (most : sems.schedPriority rtcb ≤ schedPriorityMax) :
    (nxsemBoostholderprio nnestprio rtcb sems pholder).2 = false ∧
      sems.Becomes (nxsemBoostholderprio nnestprio rtcb sems pholder).1 pholder.htcb
        ((sems.ledger pholder.htcb).raise nnestprio (sems.schedPriority rtcb)) := by
  have least : schedPriorityMin ≤ sems.basePriority pholder.htcb := valid.least
  have floor_le : sems.basePriority pholder.htcb ≤ sems.schedPriority pholder.htcb :=
    valid.ordered.floor_le
  have floor : (sems.ledger pholder.htcb).floor = sems.basePriority pholder.htcb := rfl
  have level : (sems.ledger pholder.htcb).level = sems.schedPriority pholder.htcb := rfl
  have pending : (sems.ledger pholder.htcb).pending = sems.pendReprios pholder.htcb := rfl
  unfold nxsemBoostholderprio raise
  rw [floor, level, pending]
  by_cases nested : 0 < nnestprio
  · rw [if_pos nested]
    by_cases above : sems.basePriority pholder.htcb < sems.schedPriority rtcb
    · rw [if_pos above, if_pos above]
      by_cases higher : sems.schedPriority pholder.htcb < sems.schedPriority rtcb
      · rw [if_pos higher, if_pos higher]
        refine ⟨rfl, ?_⟩
        by_cases raised : sems.basePriority pholder.htcb < sems.schedPriority pholder.htcb
        · rw [if_pos raised, if_pos raised]
          have pushed := setPend_becomes sems pholder.htcb
            (push nnestprio (sems.schedPriority pholder.htcb)
              (sems.pendReprios pholder.htcb))
          have set := (@nxschedSetpriority_becomes ι _ pholder.htcb (pushed.moves.listed listed)
            (sems.schedPriority rtcb) (by omega) most).2
          rw [pushed.same] at set
          exact pushed.trans set
        · rw [if_neg raised, if_neg raised]
          exact (nxschedSetpriority_becomes listed (by omega) most).2
      · rw [if_neg higher, if_neg higher]
        exact ⟨rfl, setPend_becomes sems pholder.htcb _⟩
    · rw [if_neg above, if_neg above]
      exact ⟨rfl, Becomes.refl rfl⟩
  · have absent : nnestprio = 0 := by omega
    have empty : sems.pendReprios pholder.htcb = [] := valid.plain absent
    have unpushed : ∀ priority, push nnestprio priority [] = [] := by
      rw [absent]
      exact fun _ => rfl
    rw [if_neg nested]
    by_cases higher : sems.schedPriority pholder.htcb < sems.schedPriority rtcb
    · have set := (@nxschedSetpriority_becomes ι _ pholder.htcb listed
        (sems.schedPriority rtcb) (by omega) most).2
      rw [if_pos higher, if_pos (by omega), if_pos higher, empty, unpushed, ite_self]
      refine ⟨rfl, ?_⟩
      rw [← empty]
      exact set
    rw [if_neg higher]
    refine ⟨rfl, Becomes.refl ?_⟩
    split
    · rw [empty, unpushed, ← empty]
      rfl
    · rfl

/-- Letting a holder fall back releases the priority of the task that no longer waits. -/
theorem nxsemRestoreholderprio_becomes {stcb htcb : Nat} (listed : sems.kernel.Listed)
    (valid : Valid nnestprio (sems.ledger htcb)) :
    sems.Becomes (nxsemRestoreholderprio nnestprio stcb sems htcb) htcb
      ((sems.ledger htcb).release (sems.schedPriority stcb)) := by
  have least : schedPriorityMin ≤ sems.basePriority htcb := valid.least
  have floor_le : sems.basePriority htcb ≤ sems.schedPriority htcb := valid.ordered.floor_le
  have most : sems.schedPriority htcb ≤ schedPriorityMax := valid.most
  have between := valid.ordered.between
  have floor : (sems.ledger htcb).floor = sems.basePriority htcb := rfl
  have level : (sems.ledger htcb).level = sems.schedPriority htcb := rfl
  have pending : (sems.ledger htcb).pending = sems.pendReprios htcb := rfl
  have based := @nxschedReprioritize_becomes ι sems htcb listed least (by omega)
  unfold nxsemRestoreholderprio release
  rw [floor, level, pending] at between ⊢
  by_cases down : sems.schedPriority htcb = sems.basePriority htcb
  · rw [if_neg (not_not_intro down), if_pos down]
    exact Becomes.refl rfl
  rw [if_pos down, if_neg down]
  by_cases empty : (sems.pendReprios htcb).length < 1
  · rw [if_pos empty]
    split <;> exact based
  have nested : 0 < nnestprio := by
    by_contra absent
    have nil : sems.pendReprios htcb = [] := valid.plain (by omega)
    rw [nil] at empty
    exact empty Nat.zero_lt_one
  rw [if_pos nested, if_neg empty, if_neg empty]
  by_cases covered : sems.schedPriority htcb ≤ sems.schedPriority stcb
  · rw [if_pos covered, if_pos covered]
    have bounds := between _ (getD_highest_mem (Nat.not_lt.1 empty))
    have dropped := setPend_becomes sems htcb
      (dropAt (sems.pendReprios htcb) (highest (sems.pendReprios htcb)))
    have set := (@nxschedSetpriority_becomes ι _ htcb (dropped.moves.listed listed)
      ((sems.pendReprios htcb).getD (highest (sems.pendReprios htcb)) 0)
      (by omega) (by omega)).2
    rw [dropped.same] at set
    exact dropped.trans set
  · rw [if_neg covered, if_neg covered]
    cases (sems.pendReprios htcb).idxOf? (sems.schedPriority stcb) with
    | some index => exact setPend_becomes sems htcb _
    | none => exact Becomes.refl rfl

end Boosts

end Chewie.Sched.Inherit
