import Mathlib.Data.List.Nodup
import Chewie.Lib.Run
import Chewie.Sched.Wqueue.Model

/-!
# Runs of the kernel work queue

Whenever work runs, the last that happened to it before is that it was queued with the same worker
and argument, at least its delay ago. This holds in every run. The first thread sleeps no longer
than any work in the queue allows, unless tick differences wrap around: when work has been in the
queue for 2^32 ticks or more, or when the time that it has been there and the time that the pass has
taken are 2^32 ticks or more together.
-/

namespace Chewie.Sched.Wqueue

open Function List Option Word Event

/-- The last event about a work. -/
def latest (work : Nat) (history : List Event) : Option Event :=
  history.find? fun event => event.subject = some work

/-- Whenever work runs, the last event about it before is that it was queued with the same worker
and argument, at least its delay ago. So it was not run or cancelled since, and not queued again. -/
def Justified : List Event → Prop
  | [] => True
  | .ran work worker arg time :: earlier =>
    (∃ delay start, latest work earlier = some (.queued work worker arg delay start) ∧
      start + delay ≤ time) ∧ Justified earlier
  | .queued .. :: earlier => Justified earlier
  | .cancelled _ :: earlier => Justified earlier
  | .slept .. :: earlier => Justified earlier

/-- The first thread never slept for longer than some work in the queue had to wait. -/
def Punctual (history : List Event) : Prop :=
  ∀ next remaining, Event.slept 0 next remaining ∈ history → ∀ ticks ∈ remaining, next ≤ ticks

/-- The queue agrees with the work structures and the record. -/
structure Sound (sys : Sys) : Prop where
  distinct : sys.q.Nodup
  listed : ∀ item, item ∈ sys.q ↔ (sys.work item).worker ≠ none
  tagged : ∀ item ∈ sys.q,
    (sys.work item).qtime = Word.wrap 32 (sys.start item) ∧ sys.start item ≤ sys.clock
  pending : ∀ item worker, (sys.work item).worker = some worker →
    latest item sys.history =
      some (.queued item worker (sys.work item).arg (sys.work item).delay (sys.start item))
  justified : Justified sys.history

theorem latest_cons (work : Nat) (event : Event) (history : List Event) :
    latest work (event :: history) =
      if event.subject = some work then some event else latest work history := by
  rw [latest]
  by_cases about : event.subject = some work
  · simp [about]
  · simp [about, latest]

theorem scan_some {work : Nat → Work} {ctick stick item after : Nat} {q : List Nat}
    {next : Nat} (found : scan work ctick stick q next = (some item, after)) :
    item ∈ q ∧ (work item).delay ≤ sub 32 ctick (work item).qtime := by
  induction q generalizing next with
  | nil => cases found
  | cons first rest ih =>
    rw [scan] at found
    split at found
    · rename_i due
      cases found
      exact ⟨mem_cons_self, due⟩
    · have later := ih found
      exact ⟨mem_cons_of_mem first later.1, later.2⟩

theorem scan_none {work : Nat → Work} {ctick stick after : Nat} {q : List Nat} {next : Nat}
    (found : scan work ctick stick q next = (none, after)) :
    after ≤ next ∧ ∀ item ∈ q, sub 32 ctick (work item).qtime < (work item).delay ∧
      after ≤ remainingOf (work item) ctick stick := by
  induction q generalizing next with
  | nil =>
    cases found
    exact ⟨Nat.le_refl _, nofun⟩
  | cons first rest ih =>
    rw [scan] at found
    split at found
    · cases found
    · rename_i early
      obtain ⟨least, others⟩ := ih found
      have smaller : after ≤ next ∧ after ≤ remainingOf (work first) ctick stick := by
        split at least <;> omega
      refine ⟨smaller.1, fun item mem => ?_⟩
      rcases mem_cons.mp mem with rfl | later
      · exact ⟨Nat.lt_of_not_le early, smaller.2⟩
      · exact others item later

section Steps

variable {sys : Sys}

section

variable (sound : Sound sys)

include sound

theorem Sound.elapsed {item : Nat} (mem : item ∈ sys.q) :
    sub 32 sys.clockSystimer (sys.work item).qtime = wrap 32 (sys.clock - sys.start item) := by
  obtain ⟨qtime, past⟩ := sound.tagged item mem
  rw [qtime]
  exact sub_wrap past

/-- Queueing work keeps the queue sound. -/
theorem Sound.queue (work worker arg delay : Nat) :
    Sound (workQqueue sys work worker arg delay) := by
  have gone : ∀ item, item ∈ (if (sys.work work).worker ≠ none then sys.q.erase work else sys.q) ↔
      item ∈ sys.q ∧ item ≠ work := by
    intro item
    split
    · rw [sound.distinct.mem_erase_iff, and_comm]
    · rename_i free
      refine ⟨fun mem => ⟨mem, ?_⟩, And.left⟩
      rintro rfl
      exact free ((sound.listed item).mp mem)
  have distinct : (if (sys.work work).worker ≠ none then sys.q.erase work else sys.q).Nodup := by
    split
    · exact sound.distinct.erase work
    · exact sound.distinct
  refine ⟨?_, fun item => ?_, fun item mem => ?_, fun item other has => ?_, sound.justified⟩
  · refine nodup_append.mpr ⟨distinct, nodup_singleton work, ?_⟩
    rintro item old last new rfl
    exact ((gone item).mp old).2 (mem_singleton.mp new)
  · simp only [workQqueue, mem_append, mem_singleton, gone]
    by_cases same : item = work
    · subst same
      simp
    · simp [same, sound.listed]
  · simp only [workQqueue] at mem ⊢
    by_cases same : item = work
    · subst same
      simp [Sys.clockSystimer]
    · rw [update_of_ne same, update_of_ne same]
      have old := mem_append.mp mem
      simp only [mem_singleton, same, or_false, gone] at old
      exact sound.tagged item old.1
  · simp only [workQqueue] at has ⊢
    rw [latest_cons]
    by_cases same : item = work
    · subst same
      rw [update_self] at has
      cases has
      simp [subject]
    · have away : ¬(queued work worker arg delay sys.clock).subject = some item := by
        simpa [subject] using Ne.symm same
      rw [update_of_ne same] at has
      rw [if_neg away, update_of_ne same, update_of_ne same]
      exact sound.pending item other has

theorem Sound.dequeue {item : Nat} (event : Event) (about : event.subject = some item)
    (justified : Justified (event :: sys.history)) (thread : Nat → Thread) :
    Sound { sys with
      q := sys.q.erase item
      work := update sys.work item { sys.work item with worker := none }
      thread := thread
      history := event :: sys.history } := by
  have gone : ∀ other, other ∈ sys.q.erase item ↔ other ≠ item ∧ other ∈ sys.q := fun other =>
    sound.distinct.mem_erase_iff
  refine ⟨sound.distinct.erase item, fun other => ?_, fun other mem => ?_, fun other worker has => ?_,
    justified⟩
  · simp only [gone]
    by_cases same : other = item
    · subst same
      simp
    · simp [same, sound.listed]
  · simp only [gone] at mem ⊢
    rw [update_of_ne mem.1]
    exact sound.tagged other mem.2
  · simp only at has ⊢
    by_cases same : other = item
    · subst same
      rw [update_self] at has
      cases has
    rw [update_of_ne same] at has
    have away : ¬event.subject = some other := by
      rw [about]
      simpa using Ne.symm same
    rw [latest_cons, if_neg away, update_of_ne same]
    exact sound.pending other worker has

theorem Sound.cancel (work : Nat) : Sound (workQcancel sys work) := by
  rw [workQcancel]
  split
  · exact sound.dequeue (.cancelled work) rfl sound.justified sys.thread
  · rename_i free
    refine ⟨sound.distinct, sound.listed, sound.tagged, fun other worker has => ?_, sound.justified⟩
    have away : ¬(cancelled work).subject = some other := by
      rintro ⟨⟩
      exact free (by rw [has]; exact nofun)
    rw [latest_cons, if_neg away]
    exact sound.pending other worker has

theorem Sound.sleep (wndx next : Nat) : Sound (sys.sleep wndx next) := by
  refine ⟨sound.distinct, sound.listed, sound.tagged, fun other worker has => ?_, sound.justified⟩
  have away : ¬(slept wndx next
      (sys.q.map fun item => sys.start item + (sys.work item).delay - sys.clock)).subject =
      some other := nofun
  exact sound.pending other worker has

theorem workProcess_cases (wndx stick next : Nat) :
    (∃ after, scan sys.work sys.clockSystimer stick sys.q next = (none, after) ∧
      workProcess sys wndx stick next = sys.sleep wndx after) ∨
    (∃ item worker after, item ∈ sys.q ∧ (sys.work item).worker = some worker ∧
      (sys.work item).delay ≤ wrap 32 (sys.clock - sys.start item) ∧
      workProcess sys wndx stick next =
        { sys with
          q := sys.q.erase item
          work := update sys.work item { sys.work item with worker := none }
          thread := update sys.thread wndx (.busy stick after)
          history := .ran item worker (sys.work item).arg sys.clock :: sys.history }) := by
  rw [workProcess]
  cases found : scan sys.work sys.clockSystimer stick sys.q next with
  | mk ready after =>
    cases ready with
    | none => exact Or.inl ⟨after, rfl, rfl⟩
    | some item =>
      obtain ⟨mem, due⟩ := scan_some found
      rw [sound.elapsed mem] at due
      obtain ⟨worker, has⟩ := ne_none_iff_exists'.mp ((sound.listed item).mp mem)
      refine Or.inr ⟨item, worker, after, mem, has, due, ?_⟩
      dsimp only
      rw [has]

theorem Sound.process (wndx stick next : Nat) : Sound (workProcess sys wndx stick next) := by
  rcases workProcess_cases sound wndx stick next with
    ⟨after, -, asleep⟩ | ⟨item, worker, after, mem, has, due, called⟩
  · rw [asleep]
    exact sound.sleep wndx after
  · rw [called]
    refine sound.dequeue (.ran item worker (sys.work item).arg sys.clock) rfl
      ⟨⟨_, _, sound.pending item worker has, ?_⟩, sound.justified⟩ _
    have low : wrap 32 (sys.clock - sys.start item) ≤ sys.clock - sys.start item := Nat.mod_le _ _
    have past := (sound.tagged item mem).2
    omega

end

/-- No tick difference that the pass takes for work in the queue wraps around. -/
def Unwrapped (sys : Sys) (stick : Nat) : Prop :=
  ∀ item ∈ sys.q, sys.clock - sys.start item < 2 ^ 32 ∧
    (sys.clock - sys.start item < (sys.work item).delay →
      sys.clock - sys.start item + Word.sub 32 sys.clockSystimer stick < 2 ^ 32)

theorem punctual_process (sound : Sound sys) (punctual : Punctual sys.history) {wndx stick : Nat}
    (next : Nat) (unwrapped : wndx = 0 → Unwrapped sys stick) :
    Punctual (workProcess sys wndx stick next).history := by
  intro ticks remaining slept one mem
  rcases workProcess_cases sound wndx stick next with
    ⟨after, found, asleep⟩ | ⟨item, worker, after, -, -, -, called⟩
  · rw [asleep] at slept
    rcases mem_cons.mp slept with now | before
    · cases now
      obtain ⟨item, queued, rfl⟩ := mem_map.mp mem
      obtain ⟨early, least⟩ := (scan_none found).2 item queued
      obtain ⟨short, sum⟩ := unwrapped rfl item queued
      have elapsed := sound.elapsed queued
      rw [wrap_of_lt short] at elapsed
      rw [elapsed] at early
      rw [remainingOf, elapsed, add_of_lt (sum early)] at least
      split at least <;> omega
    · exact punctual ticks remaining before one mem
  · rw [called] at slept
    rcases mem_cons.mp slept with now | before
    · cases now
    · exact punctual ticks remaining before one mem

end Steps

/-- The condition of the step: in a pass of the first thread no tick difference wraps around. -/
def Timely (sys : Sys) : Op → Prop
  | .wake wndx => wndx = 0 → Unwrapped sys sys.clockSystimer
  | .finish wndx =>
    match sys.thread wndx with
    | .asleep => True
    | .busy stick _ => wndx = 0 → Unwrapped sys stick
  | _ => True

instance decidableTimely (sys : Sys) : ∀ op, Decidable (Timely sys op)
  | .wake wndx =>
    inferInstanceAs (Decidable (wndx = 0 → ∀ item ∈ sys.q, _ ∧ (_ → _)))
  | .finish wndx =>
    match busy : sys.thread wndx with
    | .asleep => isTrue (by simp only [Timely, busy])
    | .busy stick _ =>
      decidable_of_iff (wndx = 0 → ∀ item ∈ sys.q, sys.clock - sys.start item < 2 ^ 32 ∧
        (sys.clock - sys.start item < (sys.work item).delay →
          sys.clock - sys.start item + Word.sub 32 sys.clockSystimer stick < 2 ^ 32))
        (by simp only [Timely, busy]; rfl)
  | .tick _ => isTrue trivial
  | .queue .. => isTrue trivial
  | .cancel _ => isTrue trivial

theorem sound_step (sys : Sys) (op : Op) (sound : Sound sys) (allowed : Allowed sys op) :
    ∃ next, step sys op = some next ∧ Sound next := by
  cases op with
  | tick ticks =>
    refine ⟨_, rfl, sound.distinct, sound.listed, fun item mem => ?_, sound.pending,
      sound.justified⟩
    have tagged := sound.tagged item mem
    exact ⟨tagged.1, tagged.2.trans (Nat.le_add_right _ _)⟩
  | queue work worker arg delay => exact ⟨_, rfl, sound.queue work worker arg delay⟩
  | cancel work => exact ⟨_, rfl, sound.cancel work⟩
  | wake wndx =>
    refine ⟨workProcess sys wndx sys.clockSystimer workDelayMax, ?_, sound.process _ _ _⟩
    rw [step, allowed]
  | finish wndx =>
    cases busy : sys.thread wndx with
    | asleep => exact absurd busy allowed
    | busy stick next =>
      refine ⟨workProcess sys wndx stick next, ?_, sound.process _ _ _⟩
      rw [step, busy]

theorem punctual_step {sys next : Sys} {op : Op} (sound : Sound sys)
    (punctual : Punctual sys.history) (timely : Timely sys op)
    (stepped : step sys op = some next) : Punctual next.history := by
  have add : ∀ event : Event, event.subject ≠ none → Punctual (event :: sys.history) := by
    intro event about ticks remaining slept
    rcases mem_cons.mp slept with rfl | before
    · exact absurd rfl about
    · exact punctual ticks remaining before
  cases op with
  | tick ticks =>
    cases stepped
    exact punctual
  | queue work worker arg delay =>
    cases stepped
    exact add _ nofun
  | cancel work =>
    cases stepped
    rw [workQcancel]
    split <;> exact add _ nofun
  | wake wndx =>
    rw [step] at stepped
    split at stepped
    · cases stepped
      exact punctual_process sound punctual _ timely
    · cases stepped
  | finish wndx =>
    rw [step] at stepped
    rw [Timely] at timely
    split at stepped
    · cases stepped
    · rename_i stick left busy
      cases stepped
      rw [busy] at timely
      exact punctual_process sound punctual left timely

/-- How often work was queued. -/
def queueCount (work : Nat) (history : List Event) : Nat :=
  history.countP fun
    | .queued item .. => item = work
    | _ => false

/-- How often work ran. -/
def runCount (work : Nat) (history : List Event) : Nat :=
  history.countP fun
    | .ran item .. => item = work
    | _ => false

/-- Queueing is the last that happened to the work. -/
def awaited (work : Nat) (history : List Event) : Nat :=
  match latest work history with
  | some (.queued ..) => 1
  | _ => 0

/-- Work that was queued last has run less often than it was queued, and other work at most as
often. -/
theorem runCount_awaited (work : Nat) {history : List Event} (justified : Justified history) :
    runCount work history + awaited work history ≤ queueCount work history := by
  induction history with
  | nil => exact Nat.le_refl 0
  | cons event earlier ih =>
    simp only [runCount, queueCount, countP_cons, awaited, latest_cons] at ih ⊢
    cases event with
    | queued item worker arg delay time =>
      have least := ih justified
      by_cases same : item = work
      · simp only [Bool.false_eq_true, ↓reduceIte, Nat.add_zero, subject, same, decide_true,
          Nat.add_le_add_iff_right]
        omega
      · simp only [Bool.false_eq_true, ↓reduceIte, Nat.add_zero, subject, some.injEq,
          same, decide_false]
        omega
    | cancelled item =>
      have least := ih justified
      by_cases same : item = work
      · simp only [Bool.false_eq_true, ↓reduceIte, Nat.add_zero, subject, same]
        omega
      · simp only [Bool.false_eq_true, ↓reduceIte, Nat.add_zero, subject, some.injEq, same]
        omega
    | ran item worker arg time =>
      obtain ⟨⟨delay, start, last, -⟩, before⟩ := justified
      have least := ih before
      by_cases same : item = work
      · subst same
        rw [last] at least
        simp only [decide_true, ↓reduceIte, subject, Nat.add_zero, Bool.false_eq_true]
        omega
      · simp only [same, decide_false, Bool.false_eq_true, ↓reduceIte, Nat.add_zero, subject,
          some.injEq]
        omega
    | slept wndx next remaining =>
      have least := ih justified
      simp only [Bool.false_eq_true, ↓reduceIte, Nat.add_zero, subject, reduceCtorEq]
      omega

/-- Nothing is queued and nothing has happened. -/
structure Fresh (sys : Sys) : Prop where
  empty : sys.q = []
  /-- The work structures are cleared, as the caller must do. -/
  cleared : ∀ item, (sys.work item).worker = none
  record : sys.history = []

theorem sound_of_fresh {sys : Sys} (fresh : Fresh sys) : Sound sys := by
  have nothing : ∀ item, item ∉ sys.q := by
    intro item
    rw [fresh.empty]
    exact not_mem_nil
  refine ⟨?_, fun item => ?_, fun item mem => absurd mem (nothing item), fun item worker has => ?_,
    ?_⟩
  · rw [fresh.empty]
    exact nodup_nil
  · exact iff_of_false (nothing item) (not_not_intro (fresh.cleared item))
  · rw [fresh.cleared item] at has
    cases has
  · rw [fresh.record]
    trivial

/-- In every run, whenever work runs the last that happened to it is that it was queued with the
same worker and argument at least its delay ago, and it runs at most as often as it is queued. In
every run in which no tick difference of a pass of the first thread wraps around, that thread sleeps
no longer than any work in the queue allows. -/
theorem work_on_time {sys : Sys} (fresh : Fresh sys) {ops : List Op}
    (admitted : Run.Admitted step Allowed sys ops) :
    ∃ final, Run.run step sys ops = some final ∧ Justified final.history ∧
      (∀ work, runCount work final.history ≤ queueCount work final.history) ∧
      (Run.Admitted step Timely sys ops → Punctual final.history) := by
  have sound := sound_of_fresh fresh
  obtain ⟨final, performed, kept⟩ := Run.run_invariant sound_step sound admitted
  refine ⟨final, performed, kept.justified, fun work => ?_, fun timely => ?_⟩
  · have least := runCount_awaited work kept.justified
    omega
  · have start : Sound sys ∧ Punctual sys.history := by
      refine ⟨sound, ?_⟩
      rw [fresh.record]
      exact nofun
    have keeps : ∀ state op, (Sound state ∧ Punctual state.history) →
        (Allowed state op ∧ Timely state op) →
        ∃ next, step state op = some next ∧ Sound next ∧ Punctual next.history := by
      intro state op both guard
      obtain ⟨next, stepped, after⟩ := sound_step state op both.1 guard.1
      exact ⟨next, stepped, after, punctual_step both.1 both.2 guard.2 stepped⟩
    obtain ⟨other, again, -, punctual⟩ :=
      Run.run_invariant keeps start (Run.admitted_and admitted timely)
    rw [performed] at again
    cases again
    exact punctual

/-- No work, and threads that sleep. -/
def idleQueue : Sys where
  clock := 0
  work := fun _ => ⟨none, 0, 0, 0⟩
  q := []
  thread := fun _ => .asleep
  start := fun _ => 0
  history := []

theorem idleQueue_fresh : Fresh idleQueue := ⟨rfl, fun _ => rfl, rfl⟩

/-- Work is queued twice, the second time with another argument. The first thread is woken by the
call, sleeps until the work is due, and calls the worker. -/
def requeued : List Op :=
  [.queue 1 50 7 9, .tick 2, .queue 1 50 8 3, .wake 0, .tick 3, .wake 0, .tick 1, .finish 0]

/-- The work runs once, with the last argument and delay. -/
theorem work_on_time_requeued : Fresh idleQueue ∧
    ∃ final, Run.run step idleQueue requeued = some final ∧
      runCount 1 final.history = 1 ∧ .ran 1 50 8 5 ∈ final.history ∧
      .slept 0 3 [3] ∈ final.history ∧ Justified final.history ∧ Punctual final.history := by
  have admitted : Run.Admitted step Allowed idleQueue requeued := by decide
  have timely : Run.Admitted step Timely idleQueue requeued := by decide
  obtain ⟨final, performed, justified, -, punctual⟩ := work_on_time idleQueue_fresh admitted
  have value : (Run.run step idleQueue requeued).map Sys.history = some
      [.slept 0 workDelayMax [], .ran 1 50 8 5, .slept 0 3 [3], .queued 1 50 8 3 2,
        .queued 1 50 7 9 0] := by decide
  rw [performed] at value
  have history := Option.some.inj value
  refine ⟨idleQueue_fresh, final, performed, ?_, ?_, ?_, justified, punctual timely⟩
  · rw [history]
    decide
  · rw [history]
    decide
  · rw [history]
    decide

/-- Two works with long delays are queued. The first becomes due ten ticks before the second and
runs for eight ticks. -/
def wrapped : List Op :=
  [.queue 1 50 0 (2 ^ 32 - 12), .queue 2 60 0 (2 ^ 32 - 2), .wake 0, .tick (2 ^ 32 - 12), .wake 0,
    .tick 8, .finish 0]

/-- The thread sleeps for almost the whole range of the counter, while the second work is due in two
ticks. -/
theorem work_overslept : Fresh idleQueue ∧ Run.Admitted step Allowed idleQueue wrapped ∧
    ∃ final, Run.run step idleQueue wrapped = some final ∧
      .slept 0 (2 ^ 32 - 6) [2] ∈ final.history ∧ ¬Punctual final.history := by
  have admitted : Run.Admitted step Allowed idleQueue wrapped := by decide
  obtain ⟨final, performed, -⟩ := Run.run_invariant sound_step (sound_of_fresh idleQueue_fresh)
    admitted
  have value : (Run.run step idleQueue wrapped).map Sys.history = some
      [.slept 0 (2 ^ 32 - 6) [2], .ran 1 50 0 (2 ^ 32 - 12),
        .slept 0 (2 ^ 32 - 12) [2 ^ 32 - 12, 2 ^ 32 - 2], .queued 2 60 0 (2 ^ 32 - 2) 0,
        .queued 1 50 0 (2 ^ 32 - 12) 0] := by decide +kernel
  rw [performed] at value
  have history := Option.some.inj value
  have slept : .slept 0 (2 ^ 32 - 6) [2] ∈ final.history := by
    rw [history]
    decide
  refine ⟨idleQueue_fresh, admitted, final, performed, slept, fun punctual => ?_⟩
  have short := punctual _ _ slept 2 mem_cons_self
  omega

end Chewie.Sched.Wqueue
