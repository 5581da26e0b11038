import Chewie.Lib.Run
import Chewie.Lib.Word

/-!
# Read/write locks

The internal mutex makes each part of a call between two waits one step. The threads that hold the
lock, once for each hold, and those that wait for its condition variable are recorded beside it. A
wait can end at any time: signalled or spuriously, with an error, or by a cancellation, which runs
the cleanup handler.
-/

namespace Chewie.Libc.Rwlock

open Run List Word

/-- `pthread_rwlock_t`, without the mutex and the condition variable. -/
structure Lock where
  numReaders : Nat
  numWriters : Nat
  writeInProgress : Bool

/-- The lock with its threads. -/
structure Sys where
  lock : Lock
  reading : List Nat
  writing : List Nat
  rdwait : List Nat
  /-- The threads that wait in `pthread_rwlock_timedwrlock`, where they have registered. -/
  wrwait : List Nat

/-- How a wait for the condition variable ends. -/
inductive Ending where
  | woken
  | failed
  | cancelled
deriving DecidableEq

/-- The calls, and the ends of their waits. The calls without a time limit are the timed ones. -/
inductive Op where
  | tryrdlock (thread : Nat)
  | timedrdlock (thread : Nat)
  | trywrlock (thread : Nat)
  | timedwrlock (thread : Nat)
  | unlock (thread : Nat)
  | rdwake (thread : Nat) (ending : Ending)
  | wrwake (thread : Nat) (ending : Ending)

def uintMax : Nat := 2 ^ 32 - 1

/-- `tryrdlock`: `none` is `EBUSY` and `some false` is `EAGAIN`. -/
def tryrdlock (sys : Sys) (thread : Nat) : Option Bool × Sys :=
  if 0 < sys.lock.numWriters ∨ sys.lock.writeInProgress then (none, sys)
  else if sys.lock.numReaders = uintMax then (some false, sys)
  else (some true, { sys with
    lock := { sys.lock with numReaders := Word.add 32 sys.lock.numReaders 1 }
    reading := thread :: sys.reading })

/-- The loop of `pthread_rwlock_timedrdlock` up to a wait or the end. -/
def rdloop (sys : Sys) (thread : Nat) : Sys :=
  let (err, sys) := tryrdlock sys thread
  if err = none then { sys with rdwait := thread :: sys.rdwait } else sys

/-- The end of `pthread_rwlock_timedwrlock`, where the thread is no longer registered. -/
def Sys.unregister (sys : Sys) : Sys :=
  { sys with lock := { sys.lock with numWriters := Word.sub 32 sys.lock.numWriters 1 } }

/-- The loop of `pthread_rwlock_timedwrlock` up to a wait or the end. -/
def wrloop (sys : Sys) (thread : Nat) : Sys :=
  if sys.lock.writeInProgress ∨ 0 < sys.lock.numReaders then
    { sys with wrwait := thread :: sys.wrwait }
  else
    Sys.unregister { sys with
      lock := { sys.lock with writeInProgress := true }
      writing := thread :: sys.writing }

def step (sys : Sys) : Op → Option Sys
  | .tryrdlock thread => some (tryrdlock sys thread).2
  | .timedrdlock thread => some (rdloop sys thread)
  | .trywrlock thread => some (
    if 0 < sys.lock.numReaders ∨ sys.lock.writeInProgress then sys
    else { sys with
      lock := { sys.lock with writeInProgress := true }
      writing := thread :: sys.writing })
  | .timedwrlock thread => some (
    if sys.lock.numWriters = uintMax then sys
    else wrloop { sys with
      lock := { sys.lock with numWriters := Word.add 32 sys.lock.numWriters 1 } } thread)
  | .unlock thread => some (
    if 0 < sys.lock.numReaders then
      { sys with
        lock := { sys.lock with numReaders := sys.lock.numReaders - 1 }
        reading := sys.reading.erase thread }
    else if sys.lock.writeInProgress then
      { sys with
        lock := { sys.lock with writeInProgress := false }
        writing := sys.writing.erase thread }
    else sys)
  | .rdwake thread ending =>
    let sys := { sys with rdwait := sys.rdwait.erase thread }
    some (if ending = .woken then rdloop sys thread else sys)
  | .wrwake thread ending =>
    let sys := { sys with wrwait := sys.wrwait.erase thread }
    some (if ending = .woken then wrloop sys thread else sys.unregister)

/-- Only a holder unlocks, and only a wait that has begun ends. -/
def Allowed (sys : Sys) : Op → Prop
  | .unlock thread => thread ∈ sys.reading ++ sys.writing
  | .rdwake thread _ => thread ∈ sys.rdwait
  | .wrwake thread _ => thread ∈ sys.wrwait
  | _ => True

instance decidableAllowed (sys : Sys) : ∀ call, Decidable (Allowed sys call)
  | .unlock .. | .rdwake .. | .wrwake .. => by dsimp only [Allowed]; infer_instance
  | .tryrdlock .. | .timedrdlock .. | .trywrlock .. | .timedwrlock .. => isTrue trivial

/-- The fields count the holders and the registered threads, and a writer holds the lock alone. -/
def Exclusive (sys : Sys) : Prop :=
  sys.lock.numReaders = sys.reading.length ∧
    (sys.lock.writeInProgress = true ↔ sys.writing.length = 1) ∧
    sys.writing.length ≤ 1 ∧ (sys.writing = [] ∨ sys.reading = []) ∧
    sys.lock.numWriters = sys.wrwait.length

/-- The invariant, where `registered` threads have registered and do not wait. -/
structure Inv (sys : Sys) (registered : Nat) : Prop where
  readers : sys.lock.numReaders = sys.reading.length
  writers : sys.lock.numWriters = sys.wrwait.length + registered
  progress : sys.writing.length = if sys.lock.writeInProgress then 1 else 0
  alone : sys.lock.writeInProgress = true → sys.reading = []
  fits : sys.lock.numReaders < 2 ^ 32 ∧ sys.lock.numWriters < 2 ^ 32

variable {sys : Sys} {thread : Nat}

theorem tryrdlock_inv (inv : Inv sys 0) : Inv (tryrdlock sys thread).2 0 := by
  unfold tryrdlock
  by_cases busy : 0 < sys.lock.numWriters ∨ sys.lock.writeInProgress
  · rw [if_pos busy]
    exact inv
  rw [if_neg busy]
  by_cases full : sys.lock.numReaders = uintMax
  · rw [if_pos full]
    exact inv
  rw [if_neg full]
  have small : sys.lock.numReaders + 1 < 2 ^ 32 := by
    have fits := inv.fits.1
    unfold uintMax at full
    omega
  have next : add 32 sys.lock.numReaders 1 = sys.lock.numReaders + 1 := add_of_lt small
  refine ⟨?_, inv.writers, inv.progress, fun wip => absurd (.inr wip) busy, ?_⟩
  · exact next.trans (congrArg (· + 1) inv.readers)
  · exact ⟨next ▸ small, inv.fits.2⟩

theorem rdloop_inv (inv : Inv sys 0) : Inv (rdloop sys thread) 0 := by
  have kept := @tryrdlock_inv sys thread inv
  unfold rdloop
  dsimp only
  split
  · exact ⟨kept.readers, kept.writers, kept.progress, kept.alone, kept.fits⟩
  · exact kept

theorem unregister_inv {registered : Nat} (inv : Inv sys (registered + 1)) :
    Inv sys.unregister registered := by
  have writers := inv.writers
  have fits := inv.fits.2
  have less : sub 32 sys.lock.numWriters 1 = sys.lock.numWriters - 1 := sub_of_le (by omega) fits
  have count : sys.lock.numWriters - 1 = sys.wrwait.length + registered := by omega
  have small : sys.lock.numWriters - 1 < 2 ^ 32 := by omega
  unfold Sys.unregister
  rw [less]
  exact ⟨inv.readers, count, inv.progress, inv.alone, inv.fits.1, small⟩

theorem acquire_inv {registered : Nat} (inv : Inv sys registered)
    (idle : ¬ sys.lock.writeInProgress = true) (absent : ¬ 0 < sys.lock.numReaders) :
    Inv { sys with
      lock := { sys.lock with writeInProgress := true }
      writing := thread :: sys.writing } registered := by
  have progress := inv.progress
  rw [if_neg idle] at progress
  refine ⟨inv.readers, inv.writers, congrArg (· + 1) progress, fun _ => ?_, inv.fits⟩
  exact eq_nil_of_length_eq_zero (inv.readers.symm.trans (Nat.eq_zero_of_not_pos absent))

theorem wrloop_inv (inv : Inv sys 1) : Inv (wrloop sys thread) 0 := by
  unfold wrloop
  by_cases busy : sys.lock.writeInProgress ∨ 0 < sys.lock.numReaders
  · rw [if_pos busy]
    exact ⟨inv.readers, inv.writers, inv.progress, inv.alone, inv.fits⟩
  rw [if_neg busy]
  exact unregister_inv
    (acquire_inv inv (fun wip => busy (.inl wip)) fun nonempty => busy (.inr nonempty))

theorem step_inv (inv : Inv sys 0) {call : Op} (allowed : Allowed sys call) :
    ∃ next, step sys call = some next ∧ Inv next 0 := by
  have readers := inv.readers
  have progress := inv.progress
  cases call with
  | tryrdlock thread => exact ⟨_, rfl, tryrdlock_inv inv⟩
  | timedrdlock thread => exact ⟨_, rfl, rdloop_inv inv⟩
  | trywrlock thread =>
    refine ⟨_, rfl, ?_⟩
    dsimp only
    split
    · exact inv
    · rename_i free
      exact acquire_inv inv (fun wip => free (.inr wip)) fun nonempty => free (.inl nonempty)
  | timedwrlock thread =>
    refine ⟨_, rfl, ?_⟩
    dsimp only
    split
    · exact inv
    · rename_i more
      have fits := inv.fits.2
      have small : sys.lock.numWriters + 1 < 2 ^ 32 := by
        unfold uintMax at more
        omega
      have next : add 32 sys.lock.numWriters 1 = sys.lock.numWriters + 1 := add_of_lt small
      refine wrloop_inv ⟨readers, ?_, progress, inv.alone, inv.fits.1, next ▸ small⟩
      exact next.trans (congrArg (· + 1) inv.writers)
  | unlock thread =>
    have holds : thread ∈ sys.reading ∨ thread ∈ sys.writing := mem_append.mp allowed
    refine ⟨_, rfl, ?_⟩
    split
    · rename_i nonempty
      have idle : ¬ sys.lock.writeInProgress = true := fun wip => by
        rw [inv.alone wip] at readers
        exact absurd readers (Nat.ne_of_gt nonempty)
      rw [if_neg idle] at progress
      rw [eq_nil_of_length_eq_zero progress] at holds
      have mem := holds.resolve_right not_mem_nil
      refine ⟨?_, inv.writers, inv.progress, fun wip => absurd wip idle, ?_, inv.fits.2⟩
      · rw [length_erase_of_mem mem, readers]
      · exact Nat.lt_of_le_of_lt (Nat.sub_le _ _) inv.fits.1
    · rename_i absent
      have empty : sys.reading = [] := eq_nil_of_length_eq_zero (by omega)
      split
      · rename_i wip
        rw [if_pos wip] at progress
        rw [empty] at holds
        have mem := holds.resolve_left not_mem_nil
        refine ⟨readers, inv.writers, ?_, fun _ => empty, inv.fits⟩
        rw [length_erase_of_mem mem, progress]
        rfl
      · exact inv
  | rdwake thread ending =>
    have kept : Inv { sys with rdwait := sys.rdwait.erase thread } 0 :=
      ⟨readers, inv.writers, progress, inv.alone, inv.fits⟩
    refine ⟨_, rfl, ?_⟩
    split
    · exact rdloop_inv kept
    · exact kept
  | wrwake thread ending =>
    have mem : thread ∈ sys.wrwait := allowed
    have kept : Inv { sys with wrwait := sys.wrwait.erase thread } 1 := by
      refine ⟨readers, ?_, progress, inv.alone, inv.fits⟩
      have positive := length_pos_of_mem mem
      have length := length_erase_of_mem mem
      have writers := inv.writers
      change sys.lock.numWriters = (sys.wrwait.erase thread).length + 1
      omega
    refine ⟨_, rfl, ?_⟩
    split
    · exact wrloop_inv kept
    · exact unregister_inv kept

/-- `pthread_rwlock_init`. -/
def start : Sys := ⟨⟨0, 0, false⟩, [], [], [], []⟩

/-- In every run of the calls, and of the ends of their waits, the fields of the lock count its
holders and its registered writers, and no writer holds it together with another thread. -/
theorem rwlock_excludes (calls : List Op) (allowed : Admitted step Allowed start calls) :
    ∃ final, run step start calls = some final ∧ Exclusive final := by
  have initial : Inv start 0 := ⟨rfl, rfl, rfl, fun _ => rfl, by decide, by decide⟩
  obtain ⟨final, performed, inv⟩ :=
    run_invariant (fun _ _ inv allowed => step_inv inv allowed) initial allowed
  refine ⟨final, performed, inv.readers, ?_, ?_, ?_, inv.writers⟩
  · rw [inv.progress]
    cases final.lock.writeInProgress <;> decide
  · rw [inv.progress]
    split <;> decide
  · have progress := inv.progress
    cases wip : final.lock.writeInProgress with
    | true => exact .inr (inv.alone wip)
    | false =>
      rw [wip] at progress
      exact .inl (eq_nil_of_length_eq_zero progress)

/-- Two readers, a writer that waits for them and is cancelled, and a writer that gets the lock. -/
theorem rwlock_excludes_cancelled :
    ∃ final, run step start [.timedrdlock 1, .tryrdlock 2, .timedwrlock 3, .timedrdlock 4,
      .wrwake 3 .woken, .unlock 1, .wrwake 3 .cancelled, .unlock 2, .timedwrlock 5,
      .rdwake 4 .woken, .unlock 5, .rdwake 4 .woken] = some final ∧ Exclusive final :=
  rwlock_excludes _ (by decide)

end Chewie.Libc.Rwlock
