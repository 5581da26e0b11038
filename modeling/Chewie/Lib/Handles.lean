import Mathlib.Data.List.Basic

/-!
# Logs of descriptors

A log has the newest event first. An event opens a name, uses a descriptor, or closes it. The files
that are open are a function of the log. A log is clean when no descriptor is handed out twice at a
time, and none is used or closed unless it is open. In a clean log every open but the last one of a
descriptor is matched by one close, and so is the last one exactly when the descriptor is no longer
open.
-/

namespace Chewie.Handles

open List

/-- What happened to a descriptor. A negative descriptor is a failure. -/
inductive Event (κ γ : Type) where
  | opened (name : κ) (fd : Int)
  | used (fd : Int) (command : γ) (ret : Int)
  | closed (fd : Int)
deriving DecidableEq

variable {κ γ : Type}

/-- The open descriptors with their names. -/
def openFiles : List (Event κ γ) → List (Int × κ)
  | [] => []
  | .opened name fd :: rest => if 0 ≤ fd then (fd, name) :: openFiles rest else openFiles rest
  | .used _ _ _ :: rest => openFiles rest
  | .closed fd :: rest => (openFiles rest).filter fun file => file.1 ≠ fd

/-- The open descriptors. -/
def openFds (log : List (Event κ γ)) : List Int := (openFiles log).map Prod.fst

/-- Every descriptor is handed out while it is not open, and used and closed while it is. -/
def Clean : List (Event κ γ) → Prop
  | [] => True
  | .opened _ fd :: rest => (0 ≤ fd → fd ∉ openFds rest) ∧ Clean rest
  | .used fd _ _ :: rest => (0 ≤ fd → fd ∈ openFds rest) ∧ Clean rest
  | .closed fd :: rest => (0 ≤ fd → fd ∈ openFds rest) ∧ Clean rest

instance decidableClean : ∀ log : List (Event κ γ), Decidable (Clean log)
  | [] => isTrue trivial
  | .opened _ fd :: rest =>
    have := decidableClean rest
    inferInstanceAs (Decidable ((0 ≤ fd → fd ∉ openFds rest) ∧ Clean rest))
  | .used fd _ _ :: rest =>
    have := decidableClean rest
    inferInstanceAs (Decidable ((0 ≤ fd → fd ∈ openFds rest) ∧ Clean rest))
  | .closed fd :: rest =>
    have := decidableClean rest
    inferInstanceAs (Decidable ((0 ≤ fd → fd ∈ openFds rest) ∧ Clean rest))

/-- How often a descriptor was handed out. -/
def opens (fd : Int) : List (Event κ γ) → Nat
  | [] => 0
  | .opened _ other :: rest => opens fd rest + if other = fd then 1 else 0
  | .used _ _ _ :: rest => opens fd rest
  | .closed _ :: rest => opens fd rest

/-- How often a descriptor was closed. -/
def closes (fd : Int) : List (Event κ γ) → Nat
  | [] => 0
  | .opened _ _ :: rest => closes fd rest
  | .used _ _ _ :: rest => closes fd rest
  | .closed other :: rest => closes fd rest + if other = fd then 1 else 0

theorem mem_openFds_closed (fd other : Int) (log : List (Event κ γ)) :
    fd ∈ openFds (.closed other :: log) ↔ fd ∈ openFds log ∧ fd ≠ other := by
  constructor
  · intro found
    obtain ⟨file, kept, rfl⟩ := mem_map.1 found
    have both := mem_filter.1 kept
    exact ⟨mem_map.2 ⟨file, both.1, rfl⟩, of_decide_eq_true both.2⟩
  · rintro ⟨found, different⟩
    obtain ⟨file, present, rfl⟩ := mem_map.1 found
    exact mem_map.2 ⟨file, mem_filter.2 ⟨present, decide_eq_true different⟩, rfl⟩

theorem mem_openFds_opened (name : κ) {fd : Int} (other : Int) (log : List (Event κ γ))
    (valid : 0 ≤ fd) : fd ∈ openFds (.opened name other :: log) ↔ other = fd ∨ fd ∈ openFds log := by
  simp only [openFds, openFiles]
  by_cases success : 0 ≤ other
  · rw [if_pos success, map_cons, mem_cons]
    exact or_congr eq_comm Iff.rfl
  rw [if_neg success]
  constructor
  · exact Or.inr
  · rintro (rfl | found)
    · exact absurd valid success
    · exact found

theorem openFds_nonneg {log : List (Event κ γ)} {fd : Int} (present : fd ∈ openFds log) : 0 ≤ fd := by
  induction log with
  | nil => cases present
  | cons event rest ih =>
    cases event with
    | opened name other =>
      by_cases success : 0 ≤ other
      · simp only [openFds, openFiles, if_pos success, map_cons, mem_cons] at present
        rcases present with rfl | older
        · exact success
        · exact ih older
      · simp only [openFds, openFiles, if_neg success] at present
        exact ih present
    | used other command ret => exact ih present
    | closed other => exact ih ((mem_openFds_closed fd other rest).1 present).1

theorem opens_eq_closes {log : List (Event κ γ)} (clean : Clean log) {fd : Int} (valid : 0 ≤ fd) :
    opens fd log = closes fd log + if fd ∈ openFds log then 1 else 0 := by
  induction log with
  | nil => rfl
  | cons event rest ih =>
    cases event with
    | opened name other =>
      have before := ih clean.2
      simp only [opens, closes, mem_openFds_opened name other rest valid]
      by_cases same : other = fd
      · subst same
        rw [if_neg (clean.1 valid)] at before
        simp [before]
      · simpa [same] using before
    | used other command ret => exact ih clean.2
    | closed other =>
      have before := ih clean.2
      simp only [opens, closes, mem_openFds_closed]
      by_cases same : other = fd
      · subst same
        rw [if_pos (clean.1 valid)] at before
        simp [before]
      · have different : fd ≠ other := fun equal => same equal.symm
        simpa [same, different] using before

end Chewie.Handles
