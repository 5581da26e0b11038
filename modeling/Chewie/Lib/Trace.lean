import Chewie.Lib.Run

/-!
# Machines that answer

A machine answers each action. A specification says which answers are right, and how an abstract
state changes with them; it may leave both open. `simulates` is the induction rule: when every
allowed action is answered rightly and keeps a relation between the two states, the answers of every
admitted run are right.
-/

namespace Chewie.Trace

open Option

variable {σ τ α ρ : Type}

section Machine

variable (step : σ → α → Option (ρ × σ))

/-- Perform the actions in order, and collect the answers. -/
def answers : σ → List α → Option (List ρ × σ)
  | state, [] => some ([], state)
  | state, action :: rest =>
    (step state action).bind fun result =>
      (answers result.2 rest).map fun later => (result.1 :: later.1, later.2)

/-- The machine without its answers. -/
def moves (state : σ) (action : α) : Option σ := (step state action).map Prod.snd

end Machine

/-- The answers to the actions are right, and lead from one abstract state to the other. -/
def Explains (spec : τ → α → ρ → τ → Prop) : τ → List α → List ρ → τ → Prop
  | before, [], results, after => results = [] ∧ after = before
  | before, action :: rest, results, after =>
    ∃ result later middle, results = result :: later ∧ spec before action result middle ∧
      Explains spec middle rest later after

/-- When every allowed action is answered rightly and keeps the relation, every admitted run is
answered rightly. -/
theorem simulates {step : σ → α → Option (ρ × σ)} {guard : σ → α → Prop}
    {spec : τ → α → ρ → τ → Prop} {related : σ → τ → Prop}
    (simulate : ∀ state abstract action, related state abstract → guard state action →
      ∃ result next abstract', step state action = some (result, next) ∧
        spec abstract action result abstract' ∧ related next abstract')
    {state : σ} {abstract : τ} (initial : related state abstract) {actions : List α}
    (admitted : Run.Admitted (moves step) guard state actions) :
    ∃ results final abstract', answers step state actions = some (results, final) ∧
      Explains spec abstract actions results abstract' ∧ related final abstract' := by
  induction actions generalizing state abstract with
  | nil => exact ⟨[], state, abstract, rfl, ⟨rfl, rfl⟩, initial⟩
  | cons action rest ih =>
    obtain ⟨result, next, middle, reached, right, kept⟩ :=
      simulate state abstract action initial admitted.1
    have moved : next ∈ moves step state action := by
      rw [moves, reached]
      rfl
    obtain ⟨results, final, after, performed, explained, last⟩ := ih kept (admitted.2 next moved)
    refine ⟨result :: results, final, after, ?_, ⟨result, results, middle, rfl, right, explained⟩,
      last⟩
    rw [answers, reached, bind_some, performed, map_some]

theorem answers_of_explains {step : σ → α → Option (ρ × σ)} {actions : List α} {results : List ρ}
    {state final : σ} (explained : Explains (fun before action result after =>
      step before action = some (result, after)) state actions results final) :
    answers step state actions = some (results, final) := by
  induction actions generalizing state results with
  | nil =>
    obtain ⟨rfl, rfl⟩ := explained
    rfl
  | cons action rest ih =>
    obtain ⟨result, later, middle, rfl, reached, explained⟩ := explained
    rw [answers, reached, bind_some, ih explained, map_some]

end Chewie.Trace
