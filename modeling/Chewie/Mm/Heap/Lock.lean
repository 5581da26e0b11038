import Chewie.Sched.Sem.Balance
import Mathlib.Data.Finset.Card

/-!
# The lock of a heap

The heap is locked with a semaphore and two plain fields: the task that holds the lock and how
often it took it. Tasks run the functions of the lock one statement at a time, in any interleaving.
`Lock.Sound` names the owner of the count of the semaphore and says what the fields hold at each
place in the code, and `Lock.Sound.step` shows that every step keeps this while no wait for the lock
is cancelled.
-/

namespace Chewie.Mm.Sem

open Chewie Sched Function List Kernel

/-- Where a task is in the functions of the lock. -/
inductive Pc where
  | outside
  /-- Before `mm_counts_held++`. -/
  | bump
  | wait
  /-- In that wait, blocked or just restarted. -/
  | asleep
  | tryWait
  /-- Before the task is written to `mm_holder`. -/
  | claim
  /-- Before one is written to `mm_counts_held`. -/
  | count
  /-- Before `mm_counts_held--`. -/
  | drop
  /-- Before `NO_HOLDER` is written to `mm_holder`. -/
  | clear
  /-- Before zero is written to `mm_counts_held`. -/
  | zero
  | post
deriving DecidableEq

/-- The lock, and where each task is. -/
structure Lock where
  kernel : Kernel Unit
  mmHolder : Int
  mmCountsHeld : Nat
  pc : Nat → Pc
  /-- How many takes of each task have returned and were not given back yet. -/
  depth : Nat → Nat

/-- No task holds the lock. -/
def noHolder : Int := -1

/-- Move a task to another place. -/
def Lock.goto (lock : Lock) (task : Nat) (place : Pc) (depth : Nat) : Lock :=
  { lock with
    pc := update lock.pc task place
    depth := update lock.depth task depth }

/-- Call `mm_takesemaphore`: a task that holds the lock only counts. -/
def mmTakesemaphore (lock : Lock) (task : Nat) : Lock :=
  if lock.mmHolder = task then lock.goto task .bump (lock.depth task)
  else lock.goto task .wait (lock.depth task)

/-- Call `mm_trysemaphore`: a task that holds the lock only counts. -/
def mmTrysemaphore (lock : Lock) (task : Nat) : Lock :=
  if lock.mmHolder = task then lock.goto task .bump (lock.depth task)
  else lock.goto task .tryWait (lock.depth task)

/-- Call `mm_givesemaphore`: only the last reference gives the semaphore back. -/
def mmGivesemaphore (lock : Lock) (task : Nat) : Lock :=
  if 1 < lock.mmCountsHeld then lock.goto task .drop (lock.depth task)
  else lock.goto task .clear (lock.depth task)

/-- The next statement of a task in one of the functions. -/
def Lock.next (lock : Lock) (task : Nat) : Option Lock :=
  let depth := lock.depth task
  match lock.pc task with
  | .outside => none
  | .bump =>
    some ({ lock with mmCountsHeld := lock.mmCountsHeld + 1 }.goto task .outside (depth + 1))
  | .wait =>
    let done := nxsemWait lock.kernel task ()
    some ({ lock with kernel := done.1 }.goto task (if done.2 then .claim else .asleep) depth)
  | .asleep =>
    some (lock.goto task (if (lock.kernel.tcb task).pterrno = .eintr then .wait else .claim) depth)
  | .tryWait =>
    let done := nxsemTrywait lock.kernel task ()
    some ({ lock with kernel := done.1 }.goto task (if done.2 then .claim else .outside) depth)
  | .claim => some ({ lock with mmHolder := task }.goto task .count depth)
  | .count => some ({ lock with mmCountsHeld := 1 }.goto task .outside (depth + 1))
  | .drop =>
    some ({ lock with mmCountsHeld := lock.mmCountsHeld - 1 }.goto task .outside (depth - 1))
  | .clear => some ({ lock with mmHolder := noHolder }.goto task .zero depth)
  | .zero => some ({ lock with mmCountsHeld := 0 }.goto task .post depth)
  | .post =>
    some ({ lock with kernel := (nxsemPost lock.kernel ()).1 }.goto task .outside (depth - 1))

/-- What happens to the lock. -/
inductive LockOp where
  | take (task : Nat)
  | try (task : Nat)
  | give (task : Nat)
  | next (task : Nat)
  | waitIrq (wtcb : Nat) (errcode : Errno)
deriving DecidableEq

def Lock.step (lock : Lock) : LockOp → Option Lock
  | .take task => some (mmTakesemaphore lock task)
  | .try task => some (mmTrysemaphore lock task)
  | .give task => some (mmGivesemaphore lock task)
  | .next task => lock.next task
  | .waitIrq wtcb errcode =>
    (nxsemWaitIrq lock.kernel wtcb errcode).map fun kernel => { lock with kernel }

/-- The task is a process that can run. -/
def Runs (lock : Lock) (task : Nat) : Prop :=
  task < 2 ^ 15 ∧ (lock.kernel.tcb task).taskState = .ready

/-- Takes and gives are paired, and waits end with a signal or a cancellation. -/
def LockAllowed (lock : Lock) : LockOp → Prop
  | .take task => Runs lock task ∧ lock.pc task = .outside
  | .try task => Runs lock task ∧ lock.pc task = .outside
  | .give task => Runs lock task ∧ lock.pc task = .outside ∧ 0 < lock.depth task
  | .next task => Runs lock task ∧ lock.pc task ≠ .outside
  | .waitIrq _ errcode => errcode = .eintr ∨ errcode = .ecanceled

/-- No wait for the lock is cancelled. -/
def Uncancelled (lock : Lock) : LockOp → Prop
  | .waitIrq wtcb errcode =>
    (lock.kernel.tcb wtcb).taskState = .waitSem → errcode ≠ .ecanceled
  | _ => True

/-- Allowed steps that cancel no wait for the lock. -/
def LockGuarded (lock : Lock) (op : LockOp) : Prop := LockAllowed lock op ∧ Uncancelled lock op

instance decidableRuns (lock : Lock) (task : Nat) : Decidable (Runs lock task) :=
  inferInstanceAs (Decidable (_ ∧ _))

instance decidableLockAllowed : ∀ (lock : Lock) (op : LockOp), Decidable (LockAllowed lock op)
  | _, .take .. | _, .try .. | _, .give .. | _, .next .. | _, .waitIrq .. => by
    dsimp only [LockAllowed]; infer_instance

instance decidableUncancelled : ∀ (lock : Lock) (op : LockOp), Decidable (Uncancelled lock op)
  | _, .take .. | _, .try .. | _, .give .. | _, .next .. => isTrue trivial
  | _, .waitIrq .. => inferInstanceAs (Decidable (_ → _))

instance decidableLockGuarded (lock : Lock) (op : LockOp) : Decidable (LockGuarded lock op) :=
  inferInstanceAs (Decidable (_ ∧ _))

/-- A task at this place owns the count of the semaphore. -/
def Owns (place : Pc) (depth : Nat) (tcb : Tcb Unit) : Prop :=
  match place with
  | .outside => 0 < depth
  | .wait => False
  | .tryWait => False
  | .asleep => tcb.taskState = .ready ∧ tcb.pterrno = .ok
  | _ => True

/-- What is known about each task. -/
structure Fits (place : Pc) (depth : Nat) (tcb : Tcb Unit) (owner : Prop) : Prop where
  owns : Owns place depth tcb ↔ owner
  depth : ¬owner → depth = 0
  blocked : tcb.taskState = .waitSem → tcb.waitsem = some () ∧ place = .asleep
  live : tcb.taskState ≠ .invalid
  resumed : place = .asleep → tcb.taskState = .ready → tcb.pterrno = .ok ∨ tcb.pterrno = .eintr

open Fits

/-- The fields of the lock while a task owns the count, by the place of that task. -/
def Lock.Shows (lock : Lock) (task : Nat) : Prop :=
  match lock.pc task with
  | .asleep | .claim =>
    lock.mmHolder = noHolder ∧ lock.mmCountsHeld = 0 ∧ lock.depth task = 0
  | .count => lock.mmHolder = task ∧ lock.mmCountsHeld = 0 ∧ lock.depth task = 0
  | .outside | .bump =>
    lock.mmHolder = task ∧ lock.mmCountsHeld = lock.depth task ∧ 0 < lock.depth task
  | .drop => lock.mmHolder = task ∧ lock.mmCountsHeld = lock.depth task ∧ 1 < lock.depth task
  | .clear => lock.mmHolder = task ∧ lock.mmCountsHeld = 1 ∧ lock.depth task = 1
  | .zero => lock.mmHolder = noHolder ∧ lock.mmCountsHeld = 1 ∧ lock.depth task = 1
  | .post => lock.mmHolder = noHolder ∧ lock.mmCountsHeld = 0 ∧ lock.depth task = 1
  | .wait | .tryWait => False

/-- The fields and the count of the semaphore. -/
def Lock.Fields (lock : Lock) : Option Nat → Prop
  | none => lock.mmHolder = noHolder ∧ lock.mmCountsHeld = 0 ∧ lock.kernel.semcount () = 1
  | some task => lock.Shows task ∧ lock.kernel.semcount () ≤ 0

/-- The lock in the hands of its owner. -/
structure Lock.Sound (lock : Lock) (owner : Option Nat) : Prop where
  counted : lock.kernel.Counted
  small : ∀ task ∈ lock.kernel.waiting, task < 2 ^ 15
  tasks : ∀ task, Fits (lock.pc task) (lock.depth task) (lock.kernel.tcb task) (owner = some task)
  fields : lock.Fields owner

section Steps

open Lock

variable {lock : Lock} {owner : Option Nat} {task : Nat} {place : Pc} {depth : Nat}

theorem Fits.running {tcb : Tcb Unit} {owner : Prop} (ready : tcb.taskState = .ready)
    (awake : place ≠ .asleep) (owns : Owns place depth tcb ↔ owner) (none : ¬owner → depth = 0) :
    Fits place depth tcb owner := by
  constructor
  · exact owns
  · exact none
  · intro blocked
    rw [ready] at blocked
    cases blocked
  · rw [ready]
    decide
  · intro same
    exact absurd same awake

theorem Fits.restarted {tcb : Tcb Unit} {owner : Prop} (ready : tcb.taskState = .ready)
    (how : (tcb.pterrno = .ok ∧ owner) ∨ (tcb.pterrno = .eintr ∧ ¬owner)) :
    Fits .asleep 0 tcb owner := by
  constructor
  · cases how with
    | inl granted => exact iff_of_true ⟨ready, granted.1⟩ granted.2
    | inr signalled =>
      refine iff_of_false (fun owns => ?_) signalled.2
      have granted := owns.2
      rw [signalled.1] at granted
      cases granted
  · intro _
    rfl
  · intro blocked
    rw [ready] at blocked
    cases blocked
  · rw [ready]
    decide
  · intro _ _
    exact how.imp And.left And.left

namespace Lock

theorem Fields.goto (fields : lock.Fields owner) (other : owner ≠ some task) (place : Pc)
    (depth : Nat) : (lock.goto task place depth).Fields owner := by
  cases owner with
  | none => exact fields
  | some first =>
    have different : first ≠ task := fun same => other (congrArg some same)
    have shown := fields.1
    unfold Fields Shows goto
    dsimp only
    rw [update_of_ne different, update_of_ne different]
    exact ⟨shown, fields.2⟩

theorem Sound.holder (sound : lock.Sound owner) (named : lock.mmHolder = task) :
    owner = some task := by
  have fields := sound.fields
  cases owner with
  | none =>
    have vacant := fields.1
    unfold noHolder at vacant
    omega
  | some first =>
    have shown := fields.1
    unfold Shows noHolder at shown
    split at shown <;> first | contradiction | (congr 1; omega)

theorem Sound.others {next : Lock} {heir : Option Nat} (sound : lock.Sound owner)
    (moved : ∀ other, other ≠ task → next.pc other = lock.pc other ∧
      next.depth other = lock.depth other ∧ next.kernel.tcb other = lock.kernel.tcb other ∧
      (heir = some other ↔ owner = some other))
    (here : Fits (next.pc task) (next.depth task) (next.kernel.tcb task) (heir = some task)) :
    ∀ other, Fits (next.pc other) (next.depth other) (next.kernel.tcb other)
      (heir = some other) := by
  intro other
  by_cases same : other = task
  · rw [same]
    exact here
  · have kept := moved other same
    rw [kept.1, kept.2.1, kept.2.2.1, kept.2.2.2]
    exact sound.tasks other

theorem Sound.move (sound : lock.Sound owner)
    (ready : (lock.kernel.tcb task).taskState = .ready) (other : owner ≠ some task)
    (awake : place ≠ .asleep) (free : ¬Owns place (lock.depth task) (lock.kernel.tcb task)) :
    (lock.goto task place (lock.depth task)).Sound owner := by
  constructor
  · exact sound.counted
  · exact sound.small
  · apply sound.others
    · intro some different
      exact ⟨update_of_ne different _ _, update_of_ne different _ _, rfl, Iff.rfl⟩
    · have none := (sound.tasks task).depth other
      simp only [goto, update_self]
      exact running ready awake (iff_of_false free other) (fun _ => none)
  · exact sound.fields.goto other place _

theorem Sound.act (sound : lock.Sound (some task))
    (ready : (lock.kernel.tcb task).taskState = .ready) {holder : Int} {counts : Nat}
    (awake : place ≠ .asleep) (owns : Owns place depth (lock.kernel.tcb task))
    (shown : ({ lock with mmHolder := holder, mmCountsHeld := counts }.goto task place
      depth).Shows task) :
    ({ lock with mmHolder := holder, mmCountsHeld := counts }.goto task place depth).Sound
      (some task) := by
  constructor
  · exact sound.counted
  · exact sound.small
  · apply sound.others
    · intro some different
      exact ⟨update_of_ne different _ _, update_of_ne different _ _, rfl, Iff.rfl⟩
    · simp only [goto, update_self]
      exact running ready awake (iff_of_true owns trivial) (fun never => absurd trivial never)
  · exact ⟨shown, sound.fields.2⟩

section

variable (sound : lock.Sound owner)

include sound

theorem Sound.owned (owns : Owns (lock.pc task) (lock.depth task) (lock.kernel.tcb task)) :
    owner = some task :=
  (sound.tasks task).owns.mp owns

theorem Sound.room (small : task < 2 ^ 15) (absent : task ∉ lock.kernel.waiting) :
    -0x8000 < lock.kernel.semcount () := by
  have inside : lock.kernel.waiting.toFinset ⊆ (Finset.range (2 ^ 15)).erase task := by
    intro other mem
    rw [mem_toFinset] at mem
    rw [Finset.mem_erase, Finset.mem_range]
    exact ⟨fun same => absent (same ▸ mem), sound.small other mem⟩
  have most := Finset.card_le_card inside
  rw [toFinset_card_of_nodup sound.counted.listed.distinct,
    Finset.card_erase_of_mem (Finset.mem_range.mpr small), Finset.card_range] at most
  have waiters := sound.counted.waiters ()
  have counted : lock.kernel.waitCount () ≤ lock.kernel.waiting.length := countP_le_length
  omega

theorem Sound.vacant (there : 0 < lock.kernel.semcount ()) : owner = none := by
  cases owner with
  | none => rfl
  | some first =>
    have taken := sound.fields.2
    omega

theorem Sound.take (ready : (lock.kernel.tcb task).taskState = .ready)
    (there : 0 < lock.kernel.semcount ()) :
    ({ lock with
        kernel := (lock.kernel.setCount () (lock.kernel.semcount () - 1)).setTcb task
          { lock.kernel.tcb task with waitsem := none } }.goto task .claim
            (lock.depth task)).Sound (some task) := by
  have vacant := sound.vacant there
  subst vacant
  have fields := sound.fields
  have depth := (sound.tasks task).depth (by simp)
  constructor
  · exact sound.counted.take ready there
  · exact sound.small
  · apply sound.others
    · intro other different
      refine ⟨update_of_ne different _ _, update_of_ne different _ _,
        update_of_ne different _ _, ?_⟩
      simp [Ne.symm different]
    · simp only [goto, setTcb, update_self]
      exact running ready (by decide) (iff_of_true trivial trivial)
        (fun never => absurd trivial never)
  · constructor
    · simp only [Shows, goto, update_self]
      exact ⟨fields.1, fields.2.1, depth⟩
    · change (lock.kernel.setCount () (lock.kernel.semcount () - 1)).semcount () ≤ 0
      rw [setCount_same, fields.2.2]
      decide

/-- A task blocks on the lock of another. -/
theorem Sound.block (runs : Runs lock task) (other : owner ≠ some task)
    (taken : lock.kernel.semcount () ≤ 0) :
    ({ lock with
        kernel := (lock.kernel.setCount () (lock.kernel.semcount () - 1)).block task () }.goto task
          .asleep (lock.depth task)).Sound owner := by
  have awake : (lock.kernel.tcb task).taskState ≠ .waitSem := by
    rw [runs.2]
    decide
  have absent := sound.counted.listed.absent awake
  have room := sound.room runs.1 absent
  have stored : int16 (lock.kernel.semcount () - 1) = lock.kernel.semcount () - 1 :=
    int16_of_narrow ⟨by omega, by unfold semValueMax; omega⟩
  constructor
  · exact sound.counted.block awake taken room
  · intro waiter mem
    cases mem_cons.mp ((schedAddprioritized_perm _ task _).mem_iff.mp mem) with
    | inl same =>
      rw [same]
      exact runs.1
    | inr old => exact sound.small waiter old
  · apply sound.others
    · intro some different
      exact ⟨update_of_ne different _ _, update_of_ne different _ _,
        update_of_ne different _ _, Iff.rfl⟩
    · simp only [goto, Kernel.block, Kernel.setTcb, update_self]
      constructor
      · exact iff_of_false (fun granted => by cases granted.1) other
      · exact (sound.tasks task).depth
      · intro _
        exact ⟨rfl, rfl⟩
      · intro never
        cases never
      · intro _ ready
        cases ready
  · have fields := sound.fields
    cases owner with
    | none =>
      have free := fields.2.2
      omega
    | some first =>
      refine ⟨((Fields.goto fields other .asleep (lock.depth task))).1, ?_⟩
      change (lock.kernel.setCount () (lock.kernel.semcount () - 1)).semcount () ≤ 0
      rw [Kernel.setCount_same]
      omega

theorem Sound.interrupt (blocked : (lock.kernel.tcb task).taskState = .waitSem) :
    ({ lock with
        kernel := (lock.kernel.setCount () (lock.kernel.semcount () + 1)).unblock task
          .eintr } : Lock).Sound owner := by
  have place := (sound.tasks task).blocked blocked
  have negative := sound.counted.negative place.1
  have narrow := sound.counted.narrow ()
  have stored : int16 (lock.kernel.semcount () + 1) = lock.kernel.semcount () + 1 :=
    int16_of_narrow ⟨by unfold Narrow at narrow; omega, by unfold semValueMax; omega⟩
  have other : owner ≠ some task := by
    intro owned
    have owns := (sound.tasks task).owns.mpr owned
    rw [place.2] at owns
    have ready := owns.1
    rw [blocked] at ready
    cases ready
  constructor
  · exact sound.counted.unblock place.1 .eintr
  · intro waiter mem
    exact sound.small waiter (mem_of_mem_erase mem)
  · apply sound.others
    · intro some different
      exact ⟨rfl, rfl, update_of_ne different _ _, Iff.rfl⟩
    · simp only [unblock, setTcb, update_self]
      rw [place.2, (sound.tasks task).depth other]
      exact restarted rfl (Or.inr ⟨rfl, other⟩)
  · have fields := sound.fields
    cases owner with
    | none =>
      have free := fields.2.2
      omega
    | some first =>
      refine ⟨fields.1, ?_⟩
      change (lock.kernel.setCount () (lock.kernel.semcount () + 1)).semcount () ≤ 0
      rw [setCount_same]
      omega

end

/-- The last give hands the count to the first waiter, or stores it. -/
theorem Sound.post (sound : lock.Sound (some task))
    (ready : (lock.kernel.tcb task).taskState = .ready) (place : lock.pc task = .post) :
    ∃ heir, ({ lock with kernel := (nxsemPost lock.kernel ()).1 }.goto task .outside
      (lock.depth task - 1)).Sound heir := by
  have fields := sound.fields
  have shown := fields.1
  unfold Shows at shown
  rw [place] at shown
  have taken := fields.2
  have posted := sound.counted.post () (by unfold semValueMax; omega)
  have small : ∀ waiter ∈ (nxsemPost lock.kernel ()).1.waiting, waiter < 2 ^ 15 :=
    fun waiter mem => sound.small waiter ((shrinks_nxsemPost lock.kernel ()).list.subset mem)
  rcases nxsemPost_cases lock.kernel () with ⟨stcb, found, most, done⟩ | ⟨idle, done⟩
  · have waits := (firstWaiter_some found).2
    have blocked := sound.counted.listed.waits stcb () waits
    have asleep := ((sound.tasks stcb).blocked blocked).2
    have different : stcb ≠ task := by
      intro same
      rw [same, ready] at blocked
      cases blocked
    have none := (sound.tasks stcb).depth (fun same => different (Option.some.inj same).symm)
    refine ⟨some stcb, posted.1, small, ?_, ?_⟩
    · intro other
      rw [done]
      by_cases first : other = stcb
      · subst first
        simp only [goto, unblock, setTcb, update_self, update_of_ne different]
        rw [asleep, none]
        exact restarted rfl (Or.inl ⟨rfl, trivial⟩)
      by_cases giver : other = task
      · subst giver
        simp only [goto, unblock, setTcb, update_self, update_of_ne first, shown.2.2]
        exact running ready (by decide)
          (iff_of_false (Nat.lt_irrefl 0) (fun same => first (Option.some.inj same).symm))
          (fun _ => rfl)
      simp only [goto, unblock, setTcb, update_of_ne first, update_of_ne giver]
      have kept := sound.tasks other
      have never : (some task = some other) = (some stcb = some other) := by
        simp [Ne.symm giver, Ne.symm first]
      rw [never] at kept
      exact kept
    · constructor
      · simp only [Shows, goto, update_of_ne different, asleep]
        exact ⟨shown.1, shown.2.1, none⟩
      · rw [done]
        exact most
  · refine ⟨none, posted.1, small, ?_, shown.1, shown.2.1, ?_⟩
    · apply sound.others
      · intro other different
        rw [done]
        refine ⟨update_of_ne different _ _, update_of_ne different _ _, rfl, ?_⟩
        simp [Ne.symm different]
      · rw [done]
        simp only [goto, update_self, shown.2.2]
        exact running ready (by decide) (iff_of_false (Nat.lt_irrefl 0) (by simp)) (fun _ => rfl)
    · change (nxsemPost lock.kernel ()).1.semcount () = 1
      have free : ¬lock.kernel.semcount () < 0 := by
        intro negative
        have first := sound.counted.firstWaiter negative
        rw [← posted.2.2, done] at first
        cases first with
        | intro stcb never => cases never
      rw [posted.2.1, update_self]
      omega

section

variable (sound : lock.Sound owner) (runs : Runs lock task)

include sound runs

theorem Sound.enter (outside : lock.pc task = .outside) (awake : place ≠ .asleep)
    (free : ∀ depth tcb, ¬Owns place depth tcb) :
    (if lock.mmHolder = task then lock.goto task .bump (lock.depth task)
      else lock.goto task place (lock.depth task)).Sound owner := by
  by_cases named : lock.mmHolder = task
  · rw [if_pos named]
    have owned := sound.holder named
    subst owned
    have shown := sound.fields.1
    unfold Shows at shown
    rw [outside] at shown
    refine sound.act runs.2 (by decide) trivial ?_
    simp only [Shows, goto, update_self]
    exact shown
  · rw [if_neg named]
    apply sound.move runs.2 _ awake (free _ _)
    intro owned
    subst owned
    have shown := sound.fields.1
    unfold Shows at shown
    rw [outside] at shown
    exact named shown.1

theorem Sound.give (outside : lock.pc task = .outside) (nested : 0 < lock.depth task) :
    (mmGivesemaphore lock task).Sound owner := by
  have owned : owner = some task := sound.owned (by rw [outside]; exact nested)
  subst owned
  have shown := sound.fields.1
  unfold Shows at shown
  rw [outside] at shown
  unfold mmGivesemaphore
  by_cases several : 1 < lock.mmCountsHeld
  · rw [if_pos several]
    refine sound.act runs.2 (by decide) trivial ?_
    simp only [Shows, goto, update_self]
    exact ⟨shown.1, shown.2.1, by omega⟩
  · rw [if_neg several]
    refine sound.act runs.2 (by decide) trivial ?_
    simp only [Shows, goto, update_self]
    exact ⟨shown.1, by omega, by omega⟩

/-- Every statement of the functions leaves the lock in the hands of one owner. -/
theorem Sound.next (inside : lock.pc task ≠ .outside) :
    ∃ after heir, lock.next task = some after ∧ after.Sound heir := by
  have ready := runs.2
  have fits := sound.tasks task
  have fields := sound.fields
  unfold Lock.next
  cases place : lock.pc task with
  | outside => exact absurd place inside
  | wait =>
    rw [place] at fits
    have other : owner ≠ some task := fun owned => fits.owns.mpr owned
    by_cases there : 0 < lock.kernel.semcount ()
    · simp only [nxsemWait, if_pos there]
      exact ⟨_, _, rfl, sound.take ready there⟩
    · simp only [nxsemWait, if_neg there]
      exact ⟨_, _, rfl, sound.block runs other (Int.not_lt.mp there)⟩
  | asleep =>
    rw [place] at fits
    by_cases signalled : (lock.kernel.tcb task).pterrno = .eintr
    · simp only [if_pos signalled]
      refine ⟨_, owner, rfl, sound.move ready (fun owned => ?_) (by decide) id⟩
      have granted := (fits.owns.mpr owned).2
      rw [signalled] at granted
      cases granted
    simp only [if_neg signalled]
    have granted := (fits.resumed rfl ready).resolve_right signalled
    have owned := fits.owns.mp ⟨ready, granted⟩
    subst owned
    refine ⟨_, some task, rfl, sound.act ready (by decide) trivial ?_⟩
    have shown := fields.1
    unfold Shows at shown
    rw [place] at shown
    simp only [Shows, goto, update_self]
    exact shown
  | tryWait =>
    rw [place] at fits
    have other : owner ≠ some task := fun owned => fits.owns.mpr owned
    by_cases there : 0 < lock.kernel.semcount ()
    · simp only [nxsemTrywait, if_pos there]
      exact ⟨_, _, rfl, sound.take ready there⟩
    · simp only [nxsemTrywait, if_neg there]
      refine ⟨_, owner, rfl, sound.move ready other (by decide) ?_⟩
      rw [fits.depth other]
      exact Nat.lt_irrefl 0
  | post =>
    have owned : owner = some task := sound.owned (by rw [place]; trivial)
    subst owned
    obtain ⟨heir, after⟩ := sound.post ready place
    exact ⟨_, heir, rfl, after⟩
  | _ =>
    have owned : owner = some task := sound.owned (by rw [place]; trivial)
    subst owned
    have shown := fields.1
    unfold Shows at shown
    rw [place] at shown
    refine ⟨_, some task, rfl, sound.act ready (by decide) ?_ ?_⟩
    · simp only [Owns]
      try omega
    · simp only [Shows, goto, update_self, true_and]
      omega

end

theorem Sound.step (sound : lock.Sound owner) {op : LockOp} (guarded : LockGuarded lock op) :
    ∃ after heir, lock.step op = some after ∧ after.Sound heir := by
  cases op with
  | take task =>
    exact ⟨_, owner, rfl, sound.enter guarded.1.1 guarded.1.2 (by decide) (fun _ _ => id)⟩
  | «try» task =>
    exact ⟨_, owner, rfl, sound.enter guarded.1.1 guarded.1.2 (by decide) (fun _ _ => id)⟩
  | give task =>
    exact ⟨_, owner, rfl, sound.give guarded.1.1 guarded.1.2.1 guarded.1.2.2⟩
  | next task => exact sound.next guarded.1.1 guarded.1.2
  | waitIrq wtcb errcode =>
    by_cases blocked : (lock.kernel.tcb wtcb).taskState = .waitSem
    · have waits := ((sound.tasks wtcb).blocked blocked).1
      have signal : errcode = .eintr := guarded.1.resolve_right (guarded.2 blocked)
      subst signal
      refine ⟨_, owner, ?_, sound.interrupt blocked⟩
      simp [Lock.step, nxsemWaitIrq, blocked, waits]
    · refine ⟨lock, owner, ?_, sound⟩
      simp [Lock.step, nxsemWaitIrq, blocked]

end Lock

end Steps

/-- The lock after `mm_seminitialize`, with tasks of any priorities. -/
def mmSemInitialize (priority : Nat → Nat) : Lock :=
  { kernel :=
      { semcount := fun _ => 1
        waiting := []
        tcb := fun task =>
          { taskState := .ready, waitsem := none, pterrno := .ok, schedPriority := priority task } }
    mmHolder := noHolder
    mmCountsHeld := 0
    pc := fun _ => .outside
    depth := fun _ => 0 }

theorem mmSemInitialize_sound (priority : Nat → Nat) : (mmSemInitialize priority).Sound none := by
  constructor
  · constructor
    · constructor
      · intro task
        exact iff_of_false not_mem_nil (fun never => by cases never)
      · exact nodup_nil
      · intro task sem waits
        cases waits
    · intro sem
      rfl
    · intro sem
      exact ⟨Int.negSucc_le_zero _ |>.trans Int.one_nonneg, by change (1 : Int) ≤ _; decide⟩
  · intro task mem
    cases mem
  · intro task
    exact running rfl Pc.noConfusion (iff_of_false (Nat.lt_irrefl 0) (by simp)) (fun _ => rfl)
  · exact ⟨rfl, rfl, rfl⟩

/-- The last give of a task has cleared `mm_holder`. -/
def Pc.leaves : Pc → Prop
  | .zero => True
  | .post => True
  | _ => False

/-- What the lock promises. -/
structure Lock.Exclusive (lock : Lock) : Prop where
  /-- At most one task is between the return of a take and that of its last give. -/
  single : ∀ first second, 0 < lock.depth first → 0 < lock.depth second → first = second
  /-- Until the last give clears them, the fields name that task and its depth. -/
  named : ∀ task, 0 < lock.depth task → ¬(lock.pc task).leaves →
    lock.mmHolder = task ∧ lock.mmCountsHeld = lock.depth task
  /-- When no task has the count of the semaphore, the lock is free. -/
  free : (∀ task, ¬Owns (lock.pc task) (lock.depth task) (lock.kernel.tcb task)) →
    lock.mmHolder = noHolder ∧ lock.mmCountsHeld = 0 ∧ lock.kernel.semcount () = 1

section Results

variable {lock : Lock} {owner : Option Nat}

theorem Lock.Sound.nested (sound : lock.Sound owner) {task : Nat} (nested : 0 < lock.depth task) :
    owner = some task := by
  by_contra other
  have none := (sound.tasks task).depth other
  omega

theorem Lock.Sound.exclusive (sound : lock.Sound owner) : lock.Exclusive := by
  constructor
  · intro first second one two
    have same := (sound.nested one).symm.trans (sound.nested two)
    exact Option.some.inj same
  · intro task nested remains
    have owned := sound.nested nested
    subst owned
    have shown := sound.fields.1
    unfold Shows at shown
    cases place : lock.pc task with
    | zero =>
      rw [place] at remains
      exact absurd trivial remains
    | post =>
      rw [place] at remains
      exact absurd trivial remains
    | wait =>
      rw [place] at shown
      exact absurd shown id
    | tryWait =>
      rw [place] at shown
      exact absurd shown id
    | _ =>
      rw [place] at shown
      omega
  · intro nobody
    have fields := sound.fields
    cases owner with
    | none => exact fields
    | some task => exact absurd ((sound.tasks task).owns.mpr rfl) (nobody task)

/-- The lock is exclusive in every state of every run in which no wait for it is cancelled. -/
theorem heap_lock_exclusive (priority : Nat → Nat) {ops : List LockOp}
    (guarded : Run.Admitted Lock.step LockGuarded (mmSemInitialize priority) ops) :
    ∃ lock, Run.run Lock.step (mmSemInitialize priority) ops = some lock ∧ lock.Exclusive := by
  have keeps : ∀ (lock : Lock) (op : LockOp), (∃ owner, lock.Sound owner) → LockGuarded lock op →
      ∃ after, lock.step op = some after ∧ ∃ heir, after.Sound heir := by
    intro lock op held careful
    obtain ⟨owner, sound⟩ := held
    obtain ⟨after, heir, performed, kept⟩ := sound.step careful
    exact ⟨after, performed, heir, kept⟩
  obtain ⟨lock, performed, _, sound⟩ := Run.run_invariant keeps
    ⟨none, mmSemInitialize_sound priority⟩ guarded
  exact ⟨lock, performed, sound.exclusive⟩

end Results

/-- A second task is interrupted by a signal while it waits, and waits again. -/
theorem heap_lock_exclusive_signal :
    ∃ lock, Run.run Lock.step (mmSemInitialize fun _ => 100)
        [.take 1, .next 1, .next 1, .next 1, .take 2, .next 2, .waitIrq 2 .eintr, .next 2, .next 2,
          .give 1, .next 1, .next 1, .next 1, .next 2, .next 2, .next 2] = some lock ∧
      lock.Exclusive :=
  heap_lock_exclusive (fun _ => 100) (by decide)

/-- A second task is cancelled while it waits: `mm_takesemaphore` leaves its loop without the count
and claims the lock that the first task holds. -/
theorem heap_lock_shared :
    Run.Admitted Lock.step LockAllowed (mmSemInitialize fun _ => 100)
        [.take 1, .next 1, .next 1, .next 1, .take 2, .next 2, .waitIrq 2 .ecanceled, .next 2,
          .next 2, .next 2] ∧
      ∃ lock, Run.run Lock.step (mmSemInitialize fun _ => 100)
          [.take 1, .next 1, .next 1, .next 1, .take 2, .next 2, .waitIrq 2 .ecanceled, .next 2,
            .next 2, .next 2] = some lock ∧
        lock.pc 1 = .outside ∧ lock.depth 1 = 1 ∧ lock.pc 2 = .outside ∧ lock.depth 2 = 1 ∧
        lock.mmHolder = 2 ∧ lock.kernel.semcount () = 0 := by
  refine ⟨by decide, _, rfl, ?_⟩
  decide

end Chewie.Mm.Sem
