import Mathlib.Logic.Basic

/-!
# Runs of a partial machine

A machine performs actions on a state. `step` is partial: `none` means that the machine has no
next state. A `guard` says which actions the environment may perform in which state. `run`
performs a list of actions, `Admitted` says that every action of the list is allowed where it is
performed, and `run_invariant` is the induction rule: an invariant that every allowed action
keeps, without getting stuck, holds after every admitted run.
-/

namespace Chewie.Run

variable {σ α : Type} (step : σ → α → Option σ) (guard : σ → α → Prop)

/-- Perform the actions in order. -/
def run : σ → List α → Option σ
  | state, [] => some state
  | state, action :: rest => (step state action).bind fun next => run next rest

/-- Every action is allowed in the state it is performed in. -/
def Admitted : σ → List α → Prop
  | _, [] => True
  | state, action :: rest =>
    guard state action ∧ ∀ next ∈ step state action, Admitted next rest

instance decidableAdmitted [decidable : ∀ state action, Decidable (guard state action)] :
    ∀ state actions, Decidable (Admitted step guard state actions)
  | _, [] => isTrue trivial
  | state, action :: rest =>
    match decidable state action with
    | isFalse refused => isFalse fun admitted => refused admitted.1
    | isTrue allowed =>
      match found : step state action with
      | none => isTrue ⟨allowed, fun next reached => by rw [found] at reached; cases reached⟩
      | some next =>
        match decidableAdmitted next rest with
        | isTrue later => isTrue ⟨allowed, fun other reached => by
            rw [found] at reached
            cases reached
            exact later⟩
        | isFalse never => isFalse fun admitted => never (admitted.2 next found)

variable {step guard}

variable {state : σ} {actions : List α} {holds : σ → Prop}

theorem admitted_mono {weaker : σ → α → Prop}
    (implies : ∀ state action, guard state action → weaker state action)
    (admitted : Admitted step guard state actions) : Admitted step weaker state actions := by
  induction actions generalizing state with
  | nil => trivial
  | cons action rest ih =>
    exact ⟨implies state action admitted.1, fun next reached => ih (admitted.2 next reached)⟩

theorem admitted_and {other : σ → α → Prop}
    (first : Admitted step guard state actions) (second : Admitted step other state actions) :
    Admitted step (fun state action => guard state action ∧ other state action) state actions := by
  induction actions generalizing state with
  | nil => trivial
  | cons action rest ih =>
    exact ⟨⟨first.1, second.1⟩,
      fun next reached => ih (first.2 next reached) (second.2 next reached)⟩

theorem admitted_of_forall {allowed : α → Prop} (state : σ)
    (all : ∀ action ∈ actions, allowed action) :
    Admitted step (fun _ => allowed) state actions := by
  induction actions generalizing state with
  | nil => trivial
  | cons action rest ih =>
    exact ⟨all action List.mem_cons_self,
      fun next _ => ih next (fun other mem => all other (List.mem_cons_of_mem _ mem))⟩

theorem run_total {next : σ → α → σ} (state : σ) (actions : List α) :
    run (fun state action => some (next state action)) state actions =
      some (actions.foldl next state) := by
  induction actions generalizing state with
  | nil => rfl
  | cons action rest ih => exact ih (next state action)

theorem run_invariant
    (keeps : ∀ state action, holds state → guard state action →
      ∃ next, step state action = some next ∧ holds next) (initial : holds state)
    (admitted : Admitted step guard state actions) :
    ∃ final, run step state actions = some final ∧ holds final := by
  induction actions generalizing state with
  | nil => exact ⟨state, rfl, initial⟩
  | cons action rest ih =>
    obtain ⟨next, reached, kept⟩ := keeps state action initial admitted.1
    obtain ⟨final, performed, last⟩ := ih kept (admitted.2 next reached)
    refine ⟨final, ?_, last⟩
    rw [run, reached]
    exact performed

theorem run_keeps_admitted
    (keeps : ∀ state action next, holds state → guard state action →
      step state action = some next → holds next) {final : σ} (initial : holds state)
    (admitted : Admitted step guard state actions)
    (performed : run step state actions = some final) : holds final := by
  induction actions generalizing state with
  | nil =>
    cases performed
    exact initial
  | cons action rest ih =>
    rw [run, Option.bind_eq_some_iff] at performed
    obtain ⟨next, reached, later⟩ := performed
    exact ih (keeps state action next initial admitted.1 reached) (admitted.2 next reached) later

theorem run_keeps
    (keeps : ∀ state action next, holds state → step state action = some next → holds next)
    {final : σ} (initial : holds state)
    (performed : run step state actions = some final) : holds final :=
  run_keeps_admitted (fun state action next before _ => keeps state action next before) initial
    (admitted_of_forall state (fun _ _ => trivial)) performed

end Chewie.Run
