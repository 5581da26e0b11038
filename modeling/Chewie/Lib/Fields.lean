import Mathlib.Data.List.Basic

/-!
# Reading a text field by field

A text is cut into fields at a separator. A reader handles every field that a separator ends with a
step, which may give the result at once, and the last field with a finish. A loop over the
characters that does this for one field does it for the text.
-/

namespace Chewie.Fields

open List

variable {α σ ρ : Type} [DecidableEq α] {sep : α}

/-- Read the fields in order. -/
def readFields (step : σ → List α → Except ρ σ) (finish : σ → List α → ρ) :
    List (List α) → σ → ρ
  | [], state => finish state []
  | [field], state => finish state field
  | field :: next :: rest, state =>
    match step state field with
    | .error result => result
    | .ok after => readFields step finish (next :: rest) after

omit [DecidableEq α] in
theorem readFields_cons (step : σ → List α → Except ρ σ) (finish : σ → List α → ρ)
    (field last : List α) (inner : List (List α)) (state : σ) :
    readFields step finish (field :: inner ++ [last]) state =
      match step state field with
      | .error result => result
      | .ok after => readFields step finish (inner ++ [last]) after := by
  cases inner with
  | nil => simp only [cons_append, nil_append, readFields]
  | cons next inner => simp only [cons_append, readFields]

theorem text_induction (sep : α) {motive : List α → Prop}
    (last : ∀ field, sep ∉ field → motive field)
    (more : ∀ field rest, sep ∉ field → motive rest → motive (field ++ sep :: rest))
    (text : List α) : motive text := by
  induction length : text.length using Nat.strongRecOn generalizing text with
  | _ count ih =>
    by_cases present : sep ∈ text
    · obtain ⟨field, rest, shape, absent⟩ := eq_append_cons_of_mem present
      rw [shape]
      apply more field rest absent
      apply ih rest.length _ rest rfl
      rw [← length, shape, length_append, length_cons]
      omega
    · exact last text present

theorem loop_eq_readFields (sep : α) {step : σ → List α → Except ρ σ} {finish : σ → List α → ρ}
    {loop : List α → σ → ρ}
    (last : ∀ field state, sep ∉ field → loop field state = finish state field)
    (more : ∀ field rest state, sep ∉ field → loop (field ++ sep :: rest) state =
      match step state field with
      | .error result => result
      | .ok after => loop rest after) (text : List α) (state : σ) :
    loop text state = readFields step finish (text.splitOn sep) state := by
  induction text using text_induction sep generalizing state with
  | last field absent =>
    rw [splitOn_eq_singleton absent, last field state absent]
    rfl
  | more field rest absent ih =>
    rw [splitOn_append_cons_self_of_not_mem absent, more field rest state absent]
    cases fields : rest.splitOn sep with
    | nil => exact absurd fields (splitOn_ne_nil sep rest)
    | cons next others =>
      simp only [readFields]
      cases step state field with
      | error result => rfl
      | ok after =>
        rw [← fields]
        exact ih after

omit [DecidableEq α] in
/-- A loop that collects the characters of a field one by one, and fails at a character that it does
not accept or at the limit, collects a field or fails. -/
theorem loop_collect {loop : List α → List α → σ → ρ} {fail : σ → ρ} {accepts : α → Bool}
    {limit : Nat} (each : ∀ ch rest done state, ch ≠ sep → loop (ch :: rest) done state =
      if accepts ch then
        if limit ≤ (done ++ [ch]).length then fail state else loop rest (done ++ [ch]) state
      else fail state) {field : List α} (absent : sep ∉ field) (rest done : List α) (state : σ)
    (short : done.length < limit) :
    loop (field ++ rest) done state =
      if field.all accepts = true ∧ (done ++ field).length < limit then
        loop rest (done ++ field) state
      else fail state := by
  induction field generalizing done with
  | nil => simp [short]
  | cons ch field ih =>
    have other : ch ≠ sep := fun same => absent (by simp [same])
    rw [cons_append, each ch _ done state other]
    by_cases accepted : accepts ch = true
    · by_cases full : limit ≤ (done ++ [ch]).length
      · have long : ¬(done ++ ch :: field).length < limit := by
          simp only [length_append, length_cons, length_nil] at full ⊢
          omega
        rw [if_pos accepted, if_pos full, if_neg (fun both => long both.2)]
      · rw [if_pos accepted, if_neg full,
          ih (fun member => absent (by simp [member])) (done ++ [ch]) (by omega)]
        simp [accepted, append_assoc]
    · simp [accepted]

end Chewie.Fields
