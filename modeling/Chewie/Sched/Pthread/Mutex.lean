import Chewie.Lib.Run
import Mathlib.Logic.Function.Basic

/-!
# Recursive mutexes

One recursive mutex and the threads that lock it. The scheduler lock makes each part of a call
between two waits one step. `pthread_cond_wait` releases the mutex at any depth and takes it back
without restoring `nlocks`, which other threads may have used meanwhile.
-/

namespace Chewie.Sched.Mutex

open Run Function List

/-- Where a thread is. -/
inductive Phase where
  | running
  | locking
  | waiting
  | retaking
deriving DecidableEq

/-- The mutex and the threads. -/
structure Sys where
  /-- `mutex->pid`, or nothing for `-1`. -/
  pid : Option Nat
  nlocks : Nat
  holder : Option Nat
  queue : List Nat
  phase : Nat → Phase
  /-- The locks less the unlocks of each thread. -/
  depth : Nat → Nat

open Sys

/-- The count of the semaphore. -/
def Sys.semcount (sys : Sys) : Int := if sys.holder = none then 1 else -sys.queue.length

def int16Max : Nat := 0x7fff

/-- The steps of the calls. `next` is the waiting thread that `sem_post` chooses. -/
inductive Op where
  | lock (thread : Nat)
  | trylock (thread : Nat)
  | unlock (thread next : Nat)
  | condWait (thread next : Nat)
  | signalled (thread : Nat)
  | resume (thread : Nat)

/-- A call locks the mutex once more. -/
def Sys.again (sys : Sys) (thread : Nat) : Sys :=
  if sys.nlocks < int16Max then
    { sys with
      nlocks := sys.nlocks + 1
      depth := update sys.depth thread (sys.depth thread + 1) }
  else sys

/-- A call that has the semaphore locks the mutex. -/
def Sys.own (sys : Sys) (thread : Nat) : Sys :=
  { sys with
    pid := some thread
    nlocks := 1
    holder := some thread
    phase := update sys.phase thread .running
    depth := update sys.depth thread (sys.depth thread + 1) }

/-- `pthread_mutex_give`. -/
def Sys.give (sys : Sys) (next : Nat) : Sys :=
  { sys with
    pid := none
    holder := if next ∈ sys.queue then some next else sys.queue.head?
    queue := sys.queue.erase (if next ∈ sys.queue then next else sys.queue.headD 0) }

def step (sys : Sys) : Op → Option Sys
  | .lock thread => some (
    if sys.pid = some thread then sys.again thread
    else if sys.holder = none then sys.own thread
    else { sys with
      queue := thread :: sys.queue
      phase := update sys.phase thread .locking })
  | .trylock thread => some (
    if sys.holder = none then sys.own thread
    else if sys.pid = some thread then sys.again thread
    else sys)
  | .unlock thread next => some (
    if sys.semcount < 1 ∧ sys.pid = some thread then
      let sys := { sys with depth := update sys.depth thread (sys.depth thread - 1) }
      if 1 < sys.nlocks then { sys with nlocks := sys.nlocks - 1 }
      else { sys.give next with nlocks := 0 }
    else sys)
  | .condWait thread next => some (
    if sys.pid = some thread then
      { sys.give next with phase := update sys.phase thread .waiting }
    else sys)
  | .signalled thread => some (
    let sys := { sys with phase := update sys.phase thread .retaking }
    if sys.holder = none then { sys with holder := some thread }
    else { sys with queue := thread :: sys.queue })
  | .resume thread => some (
    if sys.phase thread = .locking then sys.own thread
    else { sys with pid := some thread, phase := update sys.phase thread .running })

/-- A thread makes one call at a time, and goes on when it has the semaphore. -/
def Allowed (sys : Sys) : Op → Prop
  | .lock thread | .trylock thread => sys.phase thread = .running
  | .unlock thread next | .condWait thread next =>
    sys.phase thread = .running ∧ (next ∈ sys.queue ∨ sys.queue = [])
  | .signalled thread => sys.phase thread = .waiting
  | .resume thread => sys.holder = some thread ∧ sys.phase thread ≠ .running

/-- The depth of the owner by the mutex: the unlocks that release it. -/
def Sys.level (sys : Sys) : Nat := max 1 sys.nlocks

/-- The thread is inside `pthread_cond_wait` without the mutex. -/
def Sys.Waits (sys : Sys) (thread : Nat) : Prop :=
  sys.phase thread = .waiting ∨ sys.phase thread = .retaking

/-- No other thread waits for a condition with the mutex locked more than once. -/
def Sys.Clear (sys : Sys) (thread : Nat) : Prop :=
  ∀ other, other ≠ thread → sys.Waits other → sys.depth other ≤ 1

/-- No thread gets the mutex while another waits for a condition with more than one lock, and none
locks it once more when its depth is not counted, which is so behind a wait during which another
thread has used the mutex. -/
def Kept (sys : Sys) : Op → Prop
  | .lock thread | .trylock thread =>
    (sys.pid = some thread → sys.nlocks ≠ 0) ∧ (sys.holder = none → sys.Clear thread)
  | .resume thread => sys.Clear thread
  | _ => True

instance decidableAllowed (sys : Sys) : ∀ op, Decidable (Allowed sys op)
  | .lock .. | .trylock .. | .unlock .. | .condWait .. | .signalled .. | .resume .. => by
    dsimp only [Allowed]; infer_instance

/-- Outside `pthread_cond_wait` the owner is the thread with more locks than unlocks, and the mutex
has its depth. -/
structure Nested (sys : Sys) : Prop where
  /-- A thread owns the mutex exactly while it has more locks than unlocks. -/
  owns : ∀ thread, sys.phase thread ≠ .waiting → sys.phase thread ≠ .retaking →
    (sys.pid = some thread ∧ sys.semcount ≤ 0 ↔ 0 < sys.depth thread)
  level : ∀ thread, sys.pid = some thread → sys.level = sys.depth thread

/-- The invariant. -/
structure Inv (sys : Sys) : Prop where
  owner : ∀ thread, sys.pid = some thread → sys.holder = some thread ∧
    sys.phase thread = .running ∧ sys.level = sys.depth thread
  deep : ∀ thread, 0 < sys.depth thread → sys.pid = some thread ∨ sys.Waits thread
  queued : ∀ thread ∈ sys.queue, sys.phase thread = .locking ∨ sys.phase thread = .retaking
  holder : ∀ thread, sys.holder = some thread → thread ∉ sys.queue ∧ (sys.pid = some thread ∨
    sys.phase thread = .locking ∨ sys.phase thread = .retaking)
  distinct : sys.queue.Nodup
  /-- A thread waits for a condition with the mutex locked. -/
  locked : ∀ thread, sys.Waits thread → 0 < sys.depth thread
  /-- While a thread waits with more than one lock, nobody owns the mutex, and its depth is
  counted. -/
  nested : ∀ thread, sys.Waits thread → 1 < sys.depth thread →
    sys.pid = none ∧ sys.nlocks = sys.depth thread
  /-- The count of a mutex without owner is that of a thread that waits. -/
  idle : sys.pid = none → 1 < sys.nlocks → ∃ thread, sys.Waits thread ∧
    sys.depth thread = sys.nlocks

variable {sys : Sys} {thread next : Nat}

section

variable (inv : Inv sys)

include inv

theorem again_inv (owned : sys.pid = some thread) (counted : sys.nlocks ≠ 0) :
    Inv (sys.again thread) := by
  obtain ⟨owner, deep, queued, holder, distinct, locked, nested, idle⟩ := inv
  obtain ⟨has, runs, level⟩ := owner thread owned
  unfold again
  split
  · refine ⟨?_, ?_, queued, holder, distinct, ?_, ?_, ?_⟩ <;>
      grind [Sys.level, Sys.Waits, update_apply]
  · exact ⟨owner, deep, queued, holder, distinct, locked, nested, idle⟩

/-- A thread that waited for the mutex or found it free owns it at its depth. -/
theorem taken_inv (free : sys.pid = none) (out : thread ∉ sys.queue) (clear : sys.Clear thread)
    {taken : Sys} (pid : taken.pid = some thread) (has : taken.holder = some thread)
    (queue : taken.queue = sys.queue) (runs : taken.phase thread = .running)
    (phases : ∀ other, other ≠ thread → taken.phase other = sys.phase other)
    (depths : ∀ other, other ≠ thread → taken.depth other = sys.depth other)
    (level : taken.level = taken.depth thread) : Inv taken := by
  obtain ⟨owner, deep, queued, held, distinct, locked, nested, idle⟩ := inv
  refine ⟨?_, ?_, ?_, ?_, queue ▸ distinct, ?_, ?_, ?_⟩ <;> grind [Sys.Waits, Sys.Clear]

theorem own_inv (free : sys.pid = none) (out : thread ∉ sys.queue)
    (shallow : sys.depth thread = 0) (clear : sys.Clear thread) : Inv (sys.own thread) := by
  refine taken_inv inv free out clear rfl rfl rfl (update_self ..)
    (fun other apart => update_of_ne apart ..) (fun other apart => update_of_ne apart ..) ?_
  simp [Sys.level, own, shallow]

/-- What is left when the owner gives the mutex away: it has no lock, or waits with its depth. -/
theorem give_inv (owned : sys.pid = some thread)
    (choice : next ∈ sys.queue ∨ sys.queue = []) {given : Sys}
    (pid : given.pid = none) (holder_eq : given.holder = (sys.give next).holder)
    (queue : given.queue = (sys.give next).queue)
    (phases : ∀ other, other ≠ thread → given.phase other = sys.phase other)
    (depths : ∀ other, other ≠ thread → given.depth other = sys.depth other)
    (unlocked : given.phase thread = .running ∧ given.depth thread = 0 ∧ given.nlocks = 0 ∨
      given.phase thread = .waiting ∧ given.depth thread = max 1 given.nlocks) : Inv given := by
  obtain ⟨owner, deep, queued, holder, distinct, locked, nested, idle⟩ := inv
  have out : thread ∉ sys.queue := (holder thread (owner thread owned).1).1
  have handed : ∀ other, given.holder = some other → other ∈ sys.queue ∧ other ∉ given.queue := by
    intro other found
    rcases choice with mem | empty
    · simp only [holder_eq, queue, give, if_pos mem] at found ⊢
      cases found
      exact ⟨mem, distinct.not_mem_erase⟩
    · simp [holder_eq, give, empty] at found
  have fewer : given.queue.Sublist sys.queue := by
    rw [queue]
    exact erase_sublist
  have before : ∀ other ∈ given.queue, other ∈ sys.queue := fun _ mem => fewer.subset mem
  refine ⟨?_, ?_, ?_, ?_, distinct.sublist fewer, ?_, ?_, ?_⟩ <;> grind [Sys.Waits]

/-- A running thread that does not own the mutex has not locked it, and does not wait for it. -/
theorem Inv.outside (runs : sys.phase thread = .running) (other : sys.pid ≠ some thread) :
    sys.depth thread = 0 ∧ thread ∉ sys.queue := by
  have deep := inv.deep thread
  have queued := inv.queued thread
  constructor <;> grind [Sys.Waits]

theorem Inv.pid_none (free : sys.holder = none) : sys.pid = none := by
  cases found : sys.pid with
  | none => rfl
  | some thread => exact absurd ((inv.owner thread found).1.symm.trans free) (by simp)

/-- A thread that comes back from a wait finds its depth in the mutex. -/
theorem Inv.level_back (free : sys.pid = none) (waits : sys.Waits thread)
    (clear : sys.Clear thread) : sys.level = sys.depth thread := by
  have positive := inv.locked thread waits
  have counted := inv.nested thread waits
  have idle := inv.idle free
  grind [Sys.level, Sys.Clear]

theorem step_inv {op : Op} (allowed : Allowed sys op ∧ Kept sys op) :
    ∃ next, step sys op = some next ∧ Inv next := by
  have ⟨owner, deep, queued, holder, distinct, locked, nested, idle⟩ := inv
  obtain ⟨allowed, kept⟩ := allowed
  cases op with
  | lock thread =>
    refine ⟨_, rfl, ?_⟩
    split
    case isTrue owned => exact again_inv inv owned (kept.1 owned)
    case isFalse other =>
      obtain ⟨shallow, out⟩ := inv.outside allowed other
      split
      case isTrue free => exact own_inv inv (inv.pid_none free) out shallow (kept.2 free)
      case isFalse busy =>
        refine ⟨?_, ?_, ?_, ?_, nodup_cons.mpr ⟨out, distinct⟩, ?_, ?_, ?_⟩ <;>
          grind [Allowed, Sys.level, Sys.Waits, update_apply]
  | trylock thread =>
    refine ⟨_, rfl, ?_⟩
    split
    case isTrue free =>
      have unowned := inv.pid_none free
      obtain ⟨shallow, out⟩ := inv.outside allowed (by simp [unowned])
      exact own_inv inv unowned out shallow (kept.2 free)
    case isFalse =>
      split
      case isTrue owned => exact again_inv inv owned (kept.1 owned)
      case isFalse => exact inv
  | unlock thread next =>
    refine ⟨_, rfl, ?_⟩
    split
    case isTrue owned =>
      have level := (owner thread owned.2).2.2
      unfold Sys.level at level
      dsimp only
      split
      · refine ⟨?_, ?_, queued, holder, distinct, ?_, ?_, ?_⟩ <;>
          grind [Allowed, Sys.level, Sys.Waits, update_apply]
      · refine give_inv inv owned.2 allowed.2 rfl rfl rfl (fun _ _ => rfl)
          (fun other apart => update_of_ne apart ..) (.inl ⟨allowed.1, ?_, rfl⟩)
        simp only [give, update_self]
        omega
    case isFalse => exact inv
  | condWait thread next =>
    refine ⟨_, rfl, ?_⟩
    split
    case isTrue owned =>
      have level := (owner thread owned).2.2
      exact give_inv inv owned allowed.2 rfl rfl rfl (fun other apart => update_of_ne apart ..)
        (fun _ _ => rfl) (.inr ⟨update_self .., level.symm⟩)
    case isFalse => exact inv
  | signalled thread =>
    refine ⟨_, rfl, ?_⟩
    have waiting : sys.phase thread = .waiting := allowed
    have out : thread ∉ sys.queue := fun mem => by grind
    dsimp only
    split
    · have unowned := inv.pid_none ‹_›
      refine ⟨?_, ?_, ?_, ?_, distinct, ?_, ?_, ?_⟩ <;> grind [Sys.level, Sys.Waits, update_apply]
    · refine ⟨?_, ?_, ?_, ?_, nodup_cons.mpr ⟨out, distinct⟩, ?_, ?_, ?_⟩ <;>
        grind [Sys.level, Sys.Waits, update_apply]
  | resume thread =>
    obtain ⟨has, stopped⟩ := allowed
    obtain ⟨out, place⟩ := holder thread has
    have free : sys.pid = none := by
      cases found : sys.pid with
      | none => rfl
      | some other => grind
    refine ⟨_, rfl, ?_⟩
    split
    case isTrue locking => exact own_inv inv free out (by grind [Sys.Waits]) kept
    case isFalse other =>
      have back : sys.phase thread = .retaking := by simpa [free, other] using place
      exact taken_inv inv free out kept rfl has rfl (update_self ..)
        (fun other apart => update_of_ne apart ..) (fun _ _ => rfl)
        (inv.level_back free (.inr back) kept)

end

/-- An unlocked mutex. -/
def start : Sys := ⟨none, 0, none, [], fun _ => .running, fun _ => 0⟩

/-- In every run in which no thread gets the mutex while another waits for a condition with more
than one lock, and no thread whose depth is not counted locks it once more, the mutex is owned
exactly by the thread with more locks than unlocks, with its depth. -/
theorem mutex_nested (ops : List Op)
    (admitted : Admitted step (fun sys op => Allowed sys op ∧ Kept sys op) start ops) :
    ∃ final, run step start ops = some final ∧ Nested final := by
  have initial : Inv start := by
    refine ⟨?_, ?_, ?_, ?_, List.nodup_nil, ?_, ?_, ?_⟩ <;> simp [start, Sys.Waits]
  obtain ⟨final, performed, inv⟩ :=
    run_invariant (fun _ _ inv allowed => step_inv inv allowed) initial admitted
  refine ⟨final, performed, fun thread out back => ⟨fun owned => ?_, fun locked => ?_⟩,
    fun thread owned => (inv.owner thread owned).2.2⟩
  · rw [← (inv.owner thread owned.1).2.2]
    exact Nat.le_max_left _ _
  · have owned := (inv.deep thread locked).resolve_right (by simp [Sys.Waits, out, back])
    refine ⟨owned, ?_⟩
    rw [Sys.semcount, (inv.owner thread owned).1, if_neg (by simp)]
    omega

/-- A thread waits for a condition with the mutex, which another thread locks twice meanwhile. -/
def waitOnce : List Op :=
  [.lock 1, .condWait 1 0, .lock 2, .trylock 2, .unlock 2 0, .signalled 1, .unlock 2 1, .resume 1,
    .unlock 1 0]

/-- The thread comes back with its single lock, and its unlock releases the mutex. -/
theorem mutex_nested_signal :
    ∃ final, run step start waitOnce = some final ∧ Nested final ∧
      final.pid = none ∧ final.depth 1 = 0 := by
  have admitted : Admitted step (fun sys op => Allowed sys op ∧ Kept sys op) start waitOnce := by
    simp +decide [waitOnce, Admitted, Allowed, Kept, step, start, Sys.Clear, Sys.Waits, own, again, give,
      semcount, update_apply]
    constructor
    all_goals
      intro other _ _
      repeat' split
      all_goals decide
  obtain ⟨final, reached, nested⟩ := mutex_nested _ admitted
  refine ⟨final, reached, nested, ?_⟩
  cases reached
  decide

/-- A thread locks twice and waits for a condition, and another thread locks the mutex meanwhile. -/
def waitTwice : List Op :=
  [.lock 1, .lock 1, .condWait 1 0, .lock 2, .unlock 2 0, .signalled 1, .resume 1, .unlock 1 0]

/-- The first unlock behind the wait releases the mutex. -/
theorem mutex_released_early :
    Admitted step Allowed start waitTwice ∧
      ∃ final, run step start waitTwice = some final ∧
        final.pid = none ∧ final.depth 1 = 1 ∧ ¬Nested final := by
  refine ⟨by decide, _, rfl, by decide, by decide, fun nested => ?_⟩
  have owned := (nested.owns 1 (by decide) (by decide)).mpr (by decide)
  exact absurd owned.1 (by decide)

end Chewie.Sched.Mutex
