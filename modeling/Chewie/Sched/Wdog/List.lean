import Chewie.Sched.Wdog.Model

/-!
# The list of active watchdogs

What `wd_start`, `wd_cancel` and `wd_gettime` do with the list, in terms of the absolute times that
the lags stand for: `insertWdog_spec` puts a watchdog behind all that do not expire later,
`removeWdog_some` takes one out, and no other watchdog moves.
-/

namespace Chewie.Sched

open Chewie Delta List

section Places

variable {delay : Int} {list : List (Timer × Int)}

/-- `wd_start` is at a place of the list that it may reach. -/
structure Spot.At (spot : Spot) (delay : Int) (list : List (Timer × Int)) : Prop where
  split : list = spot.front ++ spot.curr :: spot.rest
  now : spot.now = Delta.span spot.front + spot.curr.2
  passed : ∀ entry ∈ absolute 0 spot.front, entry.2 ≤ delay

theorem passed_append {front : List (Timer × Int)} {curr : Timer × Int}
    (passed : ∀ entry ∈ absolute 0 front, entry.2 ≤ delay) (shorter : span front + curr.2 ≤ delay) :
    ∀ entry ∈ absolute 0 (front ++ [curr]), entry.2 ≤ delay := by
  intro entry mem
  rw [absolute_append] at mem
  cases mem_append.mp mem with
  | inl old => exact passed entry old
  | inr new =>
    have same := mem_singleton.mp new
    rw [same]
    omega

theorem toPositive_at (positive : 0 ≤ delay) {front : List (Timer × Int)} {curr : Timer × Int}
    {rest : List (Timer × Int)} (split : list = front ++ curr :: rest)
    (passed : ∀ entry ∈ absolute 0 front, entry.2 ≤ delay) :
    (toPositive (span front) front curr rest).At delay list := by
  induction rest generalizing front curr with
  | nil => exact ⟨split, rfl, passed⟩
  | cons next rest ih =>
    unfold toPositive
    by_cases negative : span front + curr.2 < 0
    · rw [if_pos negative]
      have more := @ih (front ++ [curr]) next (by rw [split, append_assoc]; rfl)
        (passed_append passed (by omega))
      rw [span_append, span_cons, span_nil, Int.add_zero] at more
      exact more
    · rw [if_neg negative]
      exact ⟨split, rfl, passed⟩

theorem pastShorter_at {now : Int} {front : List (Timer × Int)} {curr : Timer × Int}
    {rest : List (Timer × Int)} (place : (Spot.mk now front curr rest).At delay list) :
    (pastShorter delay now front curr rest).At delay list ∧
      (delay < (pastShorter delay now front curr rest).now ∨
        (pastShorter delay now front curr rest).rest = []) := by
  induction rest generalizing front curr now with
  | nil => exact ⟨place, Or.inr rfl⟩
  | cons next rest ih =>
    unfold pastShorter
    by_cases shorter : now ≤ delay
    · rw [if_pos shorter]
      apply ih
      have here := place.now
      dsimp only at here
      constructor
      · rw [place.split, append_assoc]
        rfl
      · simp only [span_append, span_cons, span_nil]
        omega
      · exact passed_append place.passed (by omega)
    · rw [if_neg shorter]
      exact ⟨place, Or.inl (Int.not_le.mp shorter)⟩

/-- A watchdog is put behind all that do not expire later, and no other moves. -/
theorem insertWdog_spec (positive : 0 ≤ delay) (timer : Timer) (list : List (Timer × Int)) :
    ∃ front back, list = front ++ back ∧
      insertWdog delay timer list = front ++ (timer, delay - span front) ::
        carry (span front - delay) back ∧
      (∀ entry ∈ absolute 0 front, entry.2 ≤ delay) ∧
      ∀ entry rest, back = entry :: rest → delay < span front + entry.2 := by
  cases list with
  | nil =>
    refine ⟨[], [], rfl, ?_, fun entry never => ?_, fun entry rest never => ?_⟩
    · simp [insertWdog, carry]
    · cases never
    · cases never
  | cons head tail =>
    have first := @toPositive_at delay (head :: tail) positive [] head tail rfl
      (fun entry never => by cases never)
    rw [span_nil] at first
    have second := pastShorter_at first
    unfold insertWdog
    dsimp only
    generalize pastShorter delay (toPositive 0 [] head tail).now (toPositive 0 [] head tail).front
      (toPositive 0 [] head tail).curr (toPositive 0 [] head tail).rest = spot at second
    have place := second.1
    have here := place.now
    by_cases before : delay < spot.now
    · refine ⟨spot.front, spot.curr :: spot.rest, place.split, ?_, place.passed, ?_⟩
      · have lag : delay - (spot.now - spot.curr.2) = delay - span spot.front := by omega
        have next : spot.curr.2 - (delay - span spot.front) =
            spot.curr.2 + (span spot.front - delay) := by omega
        rw [if_pos before, lag, next]
        rfl
      · intro entry rest same
        rw [← (cons.inj same).1]
        omega
    · have last := second.2.resolve_left before
      refine ⟨spot.front ++ [spot.curr], [], ?_, ?_, passed_append place.passed (by omega), ?_⟩
      · rw [place.split, last, append_nil]
      · have lag : delay - spot.now = delay - span (spot.front ++ [spot.curr]) := by
          rw [span_append, span_cons, span_nil]
          omega
        rw [if_neg before, last, lag, append_assoc]
        rfl
      · intro entry rest never
        cases never

end Places

section Lists

variable {wdog : Nat}

theorem removeWdog_some {list kept : List (Timer × Int)} {timer : Timer}
    (found : removeWdog wdog list = some (timer, kept)) :
    ∃ front lag back, list = front ++ (timer, lag) :: back ∧ timer.wdog = wdog ∧
      kept = front ++ carry lag back := by
  induction list generalizing kept with
  | nil => cases found
  | cons entry rest ih =>
    cases entry with
    | mk first lag =>
      unfold removeWdog at found
      by_cases same : first.wdog = wdog
      · rw [if_pos same] at found
        cases found
        exact ⟨[], lag, rest, rfl, same, rfl⟩
      rw [if_neg same] at found
      obtain ⟨result, inner, equal⟩ := Option.map_eq_some_iff.mp found
      cases equal
      obtain ⟨front, later, back, split, named, remaining⟩ := ih inner
      refine ⟨(first, lag) :: front, later, back, ?_, named, ?_⟩
      · rw [split]
        rfl
      · rw [remaining]
        rfl

theorem removeWdog_isSome {list : List (Timer × Int)}
    (mem : wdog ∈ list.map fun entry => entry.1.wdog) :
    ∃ timer kept, removeWdog wdog list = some (timer, kept) := by
  induction list with
  | nil => cases mem
  | cons entry rest ih =>
    cases entry with
    | mk first lag =>
      unfold removeWdog
      by_cases same : first.wdog = wdog
      · rw [if_pos same]
        exact ⟨first, _, rfl⟩
      · rw [if_neg same]
        have there := (mem_cons.mp mem).resolve_left (fun equal => same equal.symm)
        obtain ⟨timer, kept, found⟩ := ih there
        rw [found]
        exact ⟨timer, _, rfl⟩

theorem gettimeLoop_eq {list : List (Timer × Int)} (now delay : Int)
    {entry : Timer × Int} (found : (absolute now list).find?
      (fun entry => entry.1.wdog = wdog) = some entry) :
    gettimeLoop wdog delay list = entry.2 - now + delay := by
  induction list generalizing now delay with
  | nil => cases found
  | cons first rest ih =>
    cases first with
    | mk timer lag =>
      unfold gettimeLoop
      by_cases same : timer.wdog = wdog
      · simp only [absolute, find?_cons, same, decide_true, Option.some.injEq] at found
        rw [← found]
        omega
      · rw [if_neg same]
        simp only [absolute, find?_cons, same, decide_false] at found
        rw [ih (now + lag) (delay + lag) found]
        omega

theorem find_absolute (now : Int) (list : List (Timer × Int)) :
    ((absolute now list).find? fun entry => entry.1.wdog = wdog).map Prod.fst =
      (list.find? fun entry => entry.1.wdog = wdog).map Prod.fst := by
  induction list generalizing now with
  | nil => rfl
  | cons first rest ih =>
    cases first with
    | mk timer lag =>
      by_cases same : timer.wdog = wdog
      · simp [absolute, same]
      · simp only [absolute, find?_cons, same, decide_false]
        exact ih (now + lag)

end Lists

end Chewie.Sched
