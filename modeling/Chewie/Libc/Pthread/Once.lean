import Chewie.Lib.Run
import Mathlib.Logic.Function.Basic

/-!
# One-time initialisation

The control is tested and set with pre-emption disabled, which makes that part of a call one step.
Other threads run between the steps of the routine. Each returned value is recorded with whether the
routine had returned by then.
-/

namespace Chewie.Libc.Once

open Run Function List

/-- Where a thread is. -/
inductive Phase where
  | outside
  | running (left : Nat)
  | leaving (ret : Int)

/-- The control with its callers. -/
structure Sys where
  onceControl : Bool
  phase : Nat → Phase
  calls : Nat
  started : Nat
  finished : Bool
  /-- The values returned, each with whether `init_routine` had returned. -/
  returns : List (Int × Bool)

/-- What a thread can do. -/
inductive Op where
  /-- `pthread_once` up to `sched_unlock`, where a null pointer makes the call invalid. -/
  | call (thread : Nat) (valid : Bool)
  | work (thread : Nat)
  | leave (thread : Nat)

def einval : Int := 22

/-- A thread goes on to a phase. -/
def Sys.goto (sys : Sys) (thread : Nat) (phase : Phase) : Sys :=
  { sys with phase := update sys.phase thread phase }

/-- One step, where `init_routine` has a number of steps. -/
def step (steps : Nat) (sys : Sys) : Op → Option Sys
  | .call thread valid =>
    match sys.phase thread with
    | .outside =>
      if valid = false then some (sys.goto thread (.leaving einval))
      else if sys.onceControl = false then
        some (Sys.goto { sys with
          onceControl := true, calls := sys.calls + 1, started := sys.started + 1 }
          thread (.running steps))
      else some (Sys.goto { sys with calls := sys.calls + 1 } thread (.leaving 0))
    | _ => none
  | .work thread =>
    match sys.phase thread with
    | .running 0 => some (Sys.goto { sys with finished := true } thread (.leaving 0))
    | .running (left + 1) => some (sys.goto thread (.running left))
    | _ => none
  | .leave thread =>
    match sys.phase thread with
    | .leaving ret =>
      some (Sys.goto { sys with returns := (ret, sys.finished) :: sys.returns } thread .outside)
    | _ => none

/-- `PTHREAD_ONCE_INIT`. -/
def start : Sys := ⟨false, fun _ => .outside, 0, 0, false, []⟩

/-- The first call starts the routine, and no other does. -/
def Sys.Started (sys : Sys) : Prop :=
  sys.started = min 1 sys.calls ∧ (sys.onceControl = true ↔ 0 < sys.calls)

/-- No call that has succeeded, or is about to, has left before the routine returned. -/
def Sys.Completed (sys : Sys) : Prop :=
  (∀ thread, sys.phase thread = .leaving 0 → sys.finished = true) ∧
    ∀ value ∈ sys.returns, value.1 = 0 → value.2 = true

/-- No thread calls while the routine runs. -/
def Quiet (sys : Sys) : Op → Prop
  | .call _ _ => sys.onceControl = true → sys.finished = true
  | _ => True

instance decidableQuiet (sys : Sys) : ∀ op, Decidable (Quiet sys op)
  | .call .. => inferInstanceAs (Decidable (_ → _))
  | .work _ | .leave _ => isTrue trivial

variable {steps : Nat} {sys next : Sys}

theorem step_started (op : Op) (holds : sys.Started) (done : step steps sys op = some next) :
    next.Started := by
  obtain ⟨once, set⟩ := holds
  revert done
  fun_cases step steps sys op <;> rintro ⟨⟩
  case case2 thread _ _ unset =>
    have first : sys.calls = 0 := by
      rw [unset] at set
      simpa using set
    exact ⟨by simp [Sys.goto, once, first], by simp [Sys.goto]⟩
  case case3 thread _ _ taken =>
    have more : 0 < sys.calls := set.mp (by simpa using taken)
    refine ⟨?_, by simpa [Sys.goto] using taken⟩
    change sys.started = min 1 (sys.calls + 1)
    omega
  all_goals exact ⟨once, set⟩

theorem Sys.Completed.goto (holds : sys.Completed) {thread : Nat} {phase : Phase}
    (late : phase = .leaving 0 → sys.finished = true) : (sys.goto thread phase).Completed := by
  refine ⟨fun other leaving => ?_, holds.2⟩
  by_cases same : other = thread
  · subst same
    exact late ((update_self ..).symm.trans leaving)
  · exact holds.1 other ((update_of_ne same ..).symm.trans leaving)

theorem step_completed (op : Op) (holds : sys.Completed) (quiet : Quiet sys op)
    (done : step steps sys op = some next) : next.Completed := by
  revert done
  fun_cases step steps sys op <;> rintro ⟨⟩
  · exact holds.goto fun ok => by cases ok
  · exact Sys.Completed.goto holds fun never => by cases never
  · rename_i taken
    exact Sys.Completed.goto holds fun _ => quiet (by simpa using taken)
  · exact @Sys.Completed.goto { sys with finished := true } ⟨fun _ _ => rfl, holds.2⟩ _ _
      fun _ => rfl
  · exact holds.goto fun never => by cases never
  · rename_i thread ret leaving
    refine @Sys.Completed.goto { sys with returns := (ret, sys.finished) :: sys.returns }
      ⟨holds.1, forall_mem_cons.mpr ⟨fun ok => ?_, holds.2⟩⟩ _ _ fun never => by cases never
    exact holds.1 thread (leaving.trans (congrArg _ ok))

/-- In every run `init_routine` is started by the first call and by no other. If no thread calls
while it runs, every successful call returns after it has returned. -/
theorem pthread_once_completes (steps : Nat) (ops : List Op) {final : Sys}
    (performed : run (step steps) start ops = some final) :
    final.started = min 1 final.calls ∧ (Admitted (step steps) Quiet start ops →
      ∀ value ∈ final.returns, value.1 = 0 → value.2 = true) := by
  have begun : start.Started := ⟨rfl, by decide⟩
  have empty : start.Completed :=
    ⟨fun _ never => Phase.noConfusion never, fun _ mem => absurd mem not_mem_nil⟩
  refine ⟨(run_keeps (fun _ op _ => step_started op) begun performed).1, fun quiet => ?_⟩
  exact (run_keeps_admitted (fun _ op _ => step_completed op) empty quiet performed).2

/-- A second call after the routine, and an invalid one. -/
def sampleCalls : List Op :=
  [.call 1 true, .work 1, .work 1, .leave 1, .call 2 true, .call 3 false, .leave 3, .leave 2]

theorem pthread_once_completes_twice :
    ∃ final, run (step 1) start sampleCalls = some final ∧ final.started = min 1 final.calls ∧
      ∀ value ∈ final.returns, value.1 = 0 → value.2 = true :=
  ⟨_, rfl, (pthread_once_completes 1 sampleCalls rfl).1,
    (pthread_once_completes 1 sampleCalls rfl).2 (by decide)⟩

/-- A thread that calls while another is in the routine returns before it. -/
theorem pthread_once_early :
    ∃ final ∈ run (step 1) start [.call 1 true, .call 2 true, .leave 2],
      (0, false) ∈ final.returns := by
  refine ⟨_, rfl, ?_⟩
  decide

end Chewie.Libc.Once
