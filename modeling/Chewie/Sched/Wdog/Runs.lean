import Chewie.Sched.Wdog.List
import Mathlib.Data.List.Sort
import Mathlib.Data.List.Perm.Lattice

/-!
# Watchdogs expire on time

The books of the watchdogs tell for each start the call of `wd_timer` that is due to run it. The
runs so far and the active watchdogs, read as absolute times, are one timeline: it is ordered by the
call that is due and, within one call, by the order of the starts. `Timers.Sound` says so, and every
call, every watchdog function and every tick keep it.
-/

namespace Chewie.Sched

open Chewie Function Delta List Timers

/-- An event of the timeline comes before another: its call of `wd_timer` is earlier, or it is the
same and the watchdog was started first. -/
def Earlier (first second : Int × Nat) : Prop :=
  first.1 < second.1 ∨ (first.1 = second.1 ∧ first.2 < second.2)

/-- An entry of the list, with its time, as an event of the timeline. -/
def event (entry : Timer × Int) : Int × Nat := (entry.2, entry.1.start)

/-- The runs to come: the call of `wd_timer` that each active watchdog waits for, and its start. -/
def Timers.pending (timers : Timers) : List (Int × Nat) :=
  (absolute timers.ticks timers.activelist).map event

/-- The watchdogs agree with the books. -/
structure Timers.Sound (timers : Timers) : Prop where
  timeline : (timers.runs ++ timers.pending).Pairwise Earlier
  due : ∀ event ∈ timers.runs ++ timers.pending, timers.starts[event.2]? = some event.1
  past : ∀ event ∈ timers.runs, event.1 ≤ timers.ticks
  future : ∀ event ∈ timers.pending, timers.ticks ≤ event.1
  range : ∀ event ∈ timers.pending, event.1 - timers.ticks ≤ int32Max
  fates : (timers.pending.map Prod.snd ++ timers.runs.map Prod.snd ++ timers.stops).Perm
    (List.range timers.starts.length)
  flags : ∀ wdog, timers.active wdog = true ↔
    wdog ∈ timers.activelist.map fun entry => entry.1.wdog
  distinct : (timers.activelist.map fun entry => entry.1.wdog).Nodup
  reads : ∀ read ∈ timers.reads, read.1 = read.2
  counted : timers.started.length = timers.starts.length
  named : ∀ timer ∈ timers.activelist.map Prod.fst,
    timers.started[timer.start]? = some timer.wdog

/-- The coming runs that are due now. -/
def Timers.late (timers : Timers) : Nat :=
  timers.pending.countP fun event => event.1 ≤ timers.ticks

/-- What a call keeps. -/
structure Acted (timers next : Timers) : Prop where
  sound : next.Sound
  ticks : next.ticks = timers.ticks
  late : next.late ≤ timers.late

section Calls

variable {timers : Timers} {wdog : Nat}

theorem pending_middle {front back : List (Timer × Int)} {timer : Timer} {lag : Int}
    (split : timers.activelist = front ++ (timer, lag) :: back) :
    timers.pending = (absolute timers.ticks front).map event ++
      (timers.ticks + span front + lag, timer.start) ::
        (absolute (timers.ticks + span front + lag) back).map event := by
  unfold pending
  rw [split, absolute_middle, map_append]
  rfl

theorem carry_names (lag : Int) (list : List (Timer × Int)) :
    (carry lag list).map (fun entry => entry.1.wdog) = list.map fun entry => entry.1.wdog := by
  have items := congrArg (map Timer.wdog) (carry_items lag list)
  rwa [map_map, map_map] at items

/-- A watchdog that is taken out of the list was cancelled. -/
theorem Timers.Sound.remove (sound : timers.Sound) {front back : List (Timer × Int)}
    {timer : Timer} {lag : Int} (split : timers.activelist = front ++ (timer, lag) :: back) :
    Acted timers { timers with
      activelist := front ++ carry lag back
      active := update timers.active timer.wdog false
      stops := timers.stops ++ [timer.start] } := by
  let next : Timers := { timers with
    activelist := front ++ carry lag back
    active := update timers.active timer.wdog false
    stops := timers.stops ++ [timer.start] }
  have before := pending_middle split
  have after : next.pending = (absolute timers.ticks front).map event ++
      (absolute (timers.ticks + span front + lag) back).map event := by
    change (absolute timers.ticks (front ++ carry lag back)).map event = _
    rw [absolute_remove, map_append]
  have fewer : next.pending.Sublist timers.pending := by
    rw [before, after]
    exact (Sublist.refl _).append (sublist_cons_self _ _)
  have names : timers.activelist.map (fun entry => entry.1.wdog) =
      front.map (fun entry => entry.1.wdog) ++
        timer.wdog :: back.map fun entry => entry.1.wdog := by
    rw [split, map_append]
    rfl
  have kept : next.activelist.map (fun entry => entry.1.wdog) =
      front.map (fun entry => entry.1.wdog) ++ back.map fun entry => entry.1.wdog := by
    rw [map_append, carry_names]
  have once := sound.distinct
  rw [names] at once
  have parts := nodup_middle.mp once
  refine ⟨⟨?_, ?_, sound.past, ?_, ?_, ?_, ?_, ?_, sound.reads, sound.counted, ?_⟩, rfl,
    fewer.countP_le⟩
  · exact sound.timeline.sublist (fewer.append_left _)
  · intro event mem
    exact sound.due event ((fewer.append_left _).subset mem)
  · intro event mem
    exact sound.future event (fewer.subset mem)
  · intro event mem
    exact sound.range event (fewer.subset mem)
  · apply Perm.trans _ sound.fates
    rw [after, before]
    simp only [map_append, map_cons, append_assoc]
    apply (perm_append_left_iff _).mpr
    rw [← append_assoc, ← append_assoc]
    apply (perm_append_singleton _ _).trans
    rw [append_assoc, cons_append]
  · intro other
    rw [kept]
    by_cases same : other = timer.wdog
    · subst same
      simp only [update_self]
      exact iff_of_false (by decide) (nodup_cons.mp parts).1
    · simp only [update_of_ne same]
      rw [sound.flags other, names]
      simp [same]
  · rw [kept]
    exact (nodup_cons.mp parts).2
  · intro other mem
    rw [map_append, carry_items] at mem
    apply sound.named other
    rw [split, map_append]
    exact (mem_append.mp mem).elim (mem_append_left _)
      fun behind => mem_append_right _ (mem_cons_of_mem _ behind)

/-- A start is pending, has run or was stopped, and only one of these. -/
theorem Timers.Sound.fate (sound : timers.Sound) {start : Nat}
    (known : start < timers.starts.length) :
    (timers.pending.map Prod.snd).count start + (timers.runs.map Prod.snd).count start +
      timers.stops.count start = 1 := by
  have total := sound.fates.count_eq start
  rw [count_append, count_append] at total
  rw [total]
  exact count_eq_one_of_mem nodup_range (mem_range.mpr known)

/-- The starts that are current by the books are those in the list. -/
theorem Timers.Sound.mem_current (sound : timers.Sound) {start : Nat} :
    start ∈ timers.current wdog ↔ (⟨wdog, start⟩ : Timer) ∈ timers.activelist.map Prod.fst := by
  have tags : timers.pending.map Prod.snd =
      (timers.activelist.map Prod.fst).map Timer.start := by
    unfold pending
    rw [← absolute_items timers.ticks, map_map, map_map]
    rfl
  unfold current
  rw [mem_filter, mem_range, decide_eq_true_eq]
  constructor
  · rintro ⟨known, name, notRun, notStopped⟩
    have fate := sound.fate known
    rw [count_eq_zero.mpr notRun, count_eq_zero.mpr notStopped] at fate
    have waits : start ∈ timers.pending.map Prod.snd := count_pos_iff.mp (by omega)
    rw [tags] at waits
    obtain ⟨timer, there, rfl⟩ := mem_map.mp waits
    obtain rfl : wdog = timer.wdog := Option.some.inj (name.symm.trans (sound.named timer there))
    exact there
  · intro there
    have name := sound.named _ there
    have known : start < timers.starts.length := by
      rw [← sound.counted]
      exact (List.getElem?_eq_some_iff.mp name).1
    have fate := sound.fate known
    have waits : start ∈ timers.pending.map Prod.snd := by
      rw [tags]
      exact mem_map.mpr ⟨_, there, rfl⟩
    have once := count_pos_iff.mpr waits
    refine ⟨known, name, fun ran => ?_, fun stopped => ?_⟩
    · have again := count_pos_iff.mpr ran
      omega
    · have again := count_pos_iff.mpr stopped
      omega

theorem Timers.Sound.current_active (sound : timers.Sound) {timer : Timer}
    (there : timer ∈ timers.activelist.map Prod.fst) :
    timers.current timer.wdog = [timer.start] := by
  have distinct := sound.distinct
  rw [show (fun entry : Timer × Int => entry.1.wdog) = Timer.wdog ∘ Prod.fst from rfl,
    ← map_map] at distinct
  have once : (timers.current timer.wdog).Nodup := nodup_range.filter _
  apply perm_singleton.mp
  apply (perm_ext_iff_of_nodup once (nodup_singleton _)).mpr
  intro start
  rw [sound.mem_current, mem_singleton]
  constructor
  · intro other
    exact congrArg Timer.start (inj_on_of_nodup_map distinct other there rfl)
  · rintro rfl
    exact there

theorem Timers.Sound.current_inactive (sound : timers.Sound) (flag : timers.active wdog = false) :
    timers.current wdog = [] := by
  apply eq_nil_iff_forall_not_mem.mpr
  intro start mem
  obtain ⟨entry, there, same⟩ := mem_map.mp (sound.mem_current.mp mem)
  have active := (sound.flags wdog).mpr (mem_map.mpr ⟨entry, there, by rw [same]⟩)
  rw [flag] at active
  cases active

theorem Timers.Sound.cancel (sound : timers.Sound) (wdog : Nat) :
    ∃ activelist active, wdCancel timers wdog = some { timers with activelist, active } ∧
      Acted timers { timers with
        activelist, active, stops := timers.stops ++ timers.current wdog } ∧
      active wdog = false := by
  unfold wdCancel
  cases flag : timers.active wdog with
  | false =>
    refine ⟨timers.activelist, timers.active, by simp, ?_, flag⟩
    rw [sound.current_inactive flag, append_nil]
    exact ⟨sound, rfl, Nat.le_refl _⟩
  | true =>
    obtain ⟨timer, kept, found⟩ := removeWdog_isSome ((sound.flags wdog).mp flag)
    obtain ⟨front, lag, back, split, named, same⟩ := removeWdog_some found
    subst named
    subst same
    refine ⟨front ++ carry lag back, update timers.active timer.wdog false, ?_, ?_,
      update_self _ _ _⟩
    · simp [found]
    · rw [@current_active timers sound timer (by simp [split])]
      exact sound.remove split

theorem pairwise_insert {α : Type} {order : α → α → Prop} {front back : List α} {item : α}
    (ordered : (front ++ back).Pairwise order) (before : ∀ other ∈ front, order other item)
    (after : ∀ other ∈ back, order item other) : (front ++ item :: back).Pairwise order := by
  obtain ⟨left, right, across⟩ := pairwise_append.mp ordered
  refine pairwise_append.mpr ⟨left, pairwise_cons.mpr ⟨after, right⟩, fun first mem => ?_⟩
  exact forall_mem_cons.mpr ⟨before first mem, across first mem⟩

/-- A watchdog that is put into the list comes behind the runs that are not later, and before the
others. -/
theorem Timers.Sound.insert_pending (sound : timers.Sound) {delay : Int} (least : 0 ≤ delay)
    (timer : Timer) :
    ∃ front back, timers.pending = front ++ back ∧
      (absolute timers.ticks (insertWdog delay timer timers.activelist)).map event =
        front ++ (timers.ticks + delay, timer.start) :: back ∧
      (∀ other ∈ front, other.1 ≤ timers.ticks + delay) ∧
      ∀ other ∈ back, timers.ticks + delay < other.1 := by
  obtain ⟨front, back, split, placed, passed, first⟩ :=
    insertWdog_spec least timer timers.activelist
  have before : timers.pending = (absolute timers.ticks front).map event ++
      (absolute (timers.ticks + span front) back).map event := by
    unfold pending
    rw [split, absolute_append, map_append]
  refine ⟨_, _, before, ?_, ?_, ?_⟩
  · rw [placed, absolute_insert, map_append]
    rfl
  · intro other mem
    obtain ⟨entry, there, same⟩ := mem_map.mp mem
    rw [← Int.zero_add timers.ticks, absolute_shift] at there
    obtain ⟨early, known, moved⟩ := mem_map.mp there
    have bound := passed early known
    rw [← same, ← moved]
    change early.2 + timers.ticks ≤ timers.ticks + delay
    omega
  · intro other mem
    cases back with
    | nil => cases mem
    | cons head rest =>
      have above := first head rest rfl
      have timeline := sound.timeline
      rw [before] at timeline
      have tail := (pairwise_append.mp (pairwise_append.mp timeline).2.1).2.1
      have order := (pairwise_cons.mp tail).1
      cases mem_cons.mp mem with
      | inl same =>
        rw [same]
        change timers.ticks + delay < timers.ticks + span front + head.2
        omega
      | inr more =>
        have behind := order other more
        change timers.ticks + span front + head.2 < _ ∨
          timers.ticks + span front + head.2 = _ ∧ _ at behind
        omega

theorem Timers.Sound.numbered (sound : timers.Sound) {event : Int × Nat}
    (mem : event ∈ timers.runs ++ timers.pending) : event.2 < timers.starts.length :=
  (List.getElem?_eq_some_iff.mp (sound.due event mem)).1

theorem insertWdog_items {delay : Int} (least : 0 ≤ delay) (timer : Timer)
    (list : List (Timer × Int)) :
    ((insertWdog delay timer list).map Prod.fst).Perm (timer :: list.map Prod.fst) := by
  obtain ⟨front, back, split, placed, _⟩ := insertWdog_spec least timer list
  rw [placed, split, map_append, map_append, map_cons, carry_items]
  exact perm_middle

section

variable (sound : timers.Sound)

include sound

namespace Timers

/-- A watchdog that is put into the list takes its place in the timeline. -/
theorem Sound.insert (absent : timers.active wdog = false) {delay : Int}
    (least : 0 ≤ delay) (most : delay < int32Max) :
    Acted timers { timers with
      activelist := insertWdog (delay + 1) ⟨wdog, timers.starts.length⟩ timers.activelist
      active := update timers.active wdog true
      started := timers.started ++ [wdog]
      starts := timers.starts ++ [timers.ticks + delay + 1] } := by
  let timer : Timer := ⟨wdog, timers.starts.length⟩
  obtain ⟨front, back, before, after, passed, above⟩ :=
    @Sound.insert_pending timers sound (delay + 1) (by omega) timer
  have due : timers.ticks + (delay + 1) = timers.ticks + delay + 1 := by omega
  have number : timer.start = timers.starts.length := rfl
  rw [due] at passed above
  rw [due] at after
  have perm : (front ++ (timers.ticks + delay + 1, timers.starts.length) :: back).Perm
      ((timers.ticks + delay + 1, timers.starts.length) :: timers.pending) := by
    rw [before]
    exact perm_middle
  have items := @insertWdog_items (delay + 1) (by omega) timer timers.activelist
  have names : ((insertWdog (delay + 1) timer timers.activelist).map fun entry => entry.1.wdog).Perm
      (wdog :: timers.activelist.map fun entry => entry.1.wdog) := by
    have named := items.map Timer.wdog
    rwa [map_map, map_cons, map_map] at named
  have coming (holds : Int × Nat → Prop)
      (new : holds (timers.ticks + delay + 1, timers.starts.length))
      (old : ∀ run ∈ timers.pending, holds run) : ∀ run ∈ (absolute timers.ticks
        (insertWdog (delay + 1) timer timers.activelist)).map event, holds run := by
    rw [after]
    exact fun run mem => forall_mem_cons.mpr ⟨new, old⟩ run (perm.mem_iff.mp mem)
  constructor
  · constructor
    · change (timers.runs ++ (absolute timers.ticks _).map event).Pairwise Earlier
      rw [after, ← append_assoc]
      have timeline := sound.timeline
      rw [before, ← append_assoc] at timeline
      apply pairwise_insert timeline
      · intro other mem
        have early : other.1 ≤ timers.ticks + delay + 1 := by
          cases mem_append.mp mem with
          | inl ran =>
            have done := sound.past other ran
            omega
          | inr waits => exact passed other waits
        have small : other.2 < timers.starts.length := by
          apply sound.numbered
          rw [before, ← append_assoc]
          exact mem_append_left _ mem
        unfold Earlier
        omega
      · intro other mem
        exact Or.inl (above other mem)
    · have known : ∀ event ∈ timers.runs ++ timers.pending,
          (timers.starts ++ [timers.ticks + delay + 1])[event.2]? = some event.1 := by
        intro event mem
        rw [getElem?_append_left (sound.numbered mem)]
        exact sound.due event mem
      refine forall_mem_append.mpr ⟨fun event ran => known event (mem_append_left _ ran),
        coming _ ?_ fun event waits => known event (mem_append_right _ waits)⟩
      rw [getElem?_append_right (Nat.le_refl _), Nat.sub_self]
      rfl
    · exact sound.past
    · refine coming (fun event => timers.ticks ≤ event.1) ?_ sound.future
      omega
    · refine coming (fun event => event.1 - timers.ticks ≤ int32Max) ?_ sound.range
      omega
    · change (((absolute timers.ticks _).map event).map Prod.snd ++
        timers.runs.map Prod.snd ++ timers.stops).Perm
        (List.range (timers.starts ++ [timers.ticks + delay + 1]).length)
      rw [after, length_append, length_singleton, range_succ]
      apply ((((perm.map Prod.snd).append_right _).append_right _).trans _)
      exact (sound.fates.cons _).trans (perm_append_singleton _ _).symm
    · intro other
      rw [names.mem_iff, mem_cons]
      by_cases same : other = wdog
      · subst same
        simp only [update_self]
        exact iff_of_true trivial (Or.inl trivial)
      · simp only [update_of_ne same, same, false_or]
        exact sound.flags other
    · apply names.nodup_iff.mpr
      apply nodup_cons.mpr
      refine ⟨?_, sound.distinct⟩
      intro other
      have active := (sound.flags wdog).mpr other
      rw [absent] at active
      cases active
    · exact sound.reads
    · rw [length_append, length_append, sound.counted]
      rfl
    · intro other mem
      rcases mem_cons.mp (items.mem_iff.mp mem) with rfl | old
      · simp [timer, ← sound.counted]
      · have name := sound.named other old
        rw [getElem?_append_left (List.getElem?_eq_some_iff.mp name).1]
        exact name
  · rfl
  · change ((absolute timers.ticks _).map event).countP _ ≤ _
    rw [after, perm.countP_eq, countP_cons]
    have later : ¬timers.ticks + delay + 1 ≤ timers.ticks := by omega
    simp only [later, decide_false, Bool.false_eq_true, if_false, Nat.add_zero]
    exact Nat.le_refl _

theorem Sound.start (wdog : Nat) {delay : Int} (least : 0 ≤ delay) (most : delay < int32Max) :
    ∃ next, timers.act (.start wdog delay) = some next ∧ Acted timers next := by
  obtain ⟨activelist, active, cancelled, acted, inactive⟩ := sound.cancel wdog
  have inserted := acted.sound.insert inactive least most
  have adjusted : adjust delay = delay + 1 := by
    unfold adjust
    by_cases zero : delay ≤ 0
    · omega
    · rw [if_neg zero, if_neg (by omega)]
  refine ⟨_, ?_, inserted.sound, inserted.ticks.trans acted.ticks,
    Nat.le_trans inserted.late acted.late⟩
  rw [Timers.act, wdStart, if_neg (Int.not_lt.mpr least), cancelled, Option.map_some,
    Option.map_some, if_neg (Int.not_lt.mpr least), adjusted]

theorem Sound.gettime (wdog : Nat) : wdGettime timers wdog = timers.left wdog := by
  have lookup := @find_absolute wdog timers.ticks timers.activelist
  unfold wdGettime left
  cases found : timers.activelist.find? (fun entry => entry.1.wdog = wdog) with
  | none =>
    have inactive : timers.active wdog = false := by
      cases flag : timers.active wdog with
      | false => rfl
      | true =>
        obtain ⟨entry, mem, named⟩ := mem_map.mp ((sound.flags wdog).mp flag)
        have refused := find?_eq_none.mp found entry mem
        simp [named] at refused
    rw [inactive, sound.current_inactive inactive]
    rfl
  | some entry =>
    have named := find?_some found
    simp only [decide_eq_true_eq] at named
    subst named
    have flag := (sound.flags entry.1.wdog).mpr (mem_map.mpr ⟨entry, mem_of_find?_eq_some found, rfl⟩)
    rw [found] at lookup
    obtain ⟨timed, there, same⟩ := Option.map_eq_some_iff.mp lookup
    have due := sound.due (event timed) (mem_append_right _
      (mem_map.mpr ⟨timed, mem_of_find?_eq_some there, rfl⟩))
    have loop := @gettimeLoop_eq entry.1.wdog timers.activelist timers.ticks 0 timed there
    rw [flag, if_pos rfl,
      sound.current_active (mem_map.mpr ⟨entry, mem_of_find?_eq_some found, rfl⟩)]
    unfold event at due
    rw [same] at due
    simp only [getD_eq_getElem?_getD, due, Option.getD_some]
    omega

theorem Sound.act {act : Act} (inRange : act.InRange) :
    ∃ next, timers.act act = some next ∧ Acted timers next := by
  cases act with
  | start wdog delay => exact sound.start wdog inRange.1 inRange.2
  | cancel wdog =>
    obtain ⟨activelist, active, cancelled, acted, _⟩ := sound.cancel wdog
    exact ⟨_, by rw [Timers.act, cancelled, Option.map_some], acted⟩
  | delete wdog =>
    cases flag : timers.active wdog with
    | true =>
      obtain ⟨activelist, active, cancelled, acted, _⟩ := sound.cancel wdog
      exact ⟨_, by rw [Timers.act, wdDelete, if_pos flag, cancelled, Option.map_some], acted⟩
    | false =>
      refine ⟨timers, ?_, sound, rfl, Nat.le_refl _⟩
      simp [Timers.act, wdDelete, flag, sound.current_inactive flag]
  | gettime wdog =>
    refine ⟨_, rfl, ⟨sound.timeline, sound.due, sound.past, sound.future, sound.range, sound.fates,
      sound.flags, sound.distinct, ?_, sound.counted, sound.named⟩, rfl, Nat.le_refl _⟩
    intro read mem
    cases mem_append.mp mem with
    | inl old => exact sound.reads read old
    | inr new =>
      rw [mem_singleton.mp new]
      exact sound.gettime wdog

theorem Sound.acts {acts : List Act} (inRange : ∀ act ∈ acts, act.InRange) :
    ∃ next, Run.run Timers.act timers acts = some next ∧ Acted timers next := by
  induction acts generalizing timers with
  | nil => exact ⟨timers, rfl, sound, rfl, Nat.le_refl _⟩
  | cons act rest ih =>
    obtain ⟨middle, performed, first⟩ := sound.act (inRange act mem_cons_self)
    obtain ⟨next, others, more⟩ := ih first.sound
      (fun act mem => inRange act (mem_cons_of_mem _ mem))
    refine ⟨next, ?_, more.sound, more.ticks.trans first.ticks, Nat.le_trans more.late first.late⟩
    rw [Run.run, performed]
    exact others

end Timers

end

end Calls

section Ticks

variable {timers : Timers}

/-- The first watchdog is taken from the list and runs. -/
def Timers.fire (timers : Timers) (timer : Timer) (lag : Int) (rest : List (Timer × Int)) :
    Timers :=
  { timers with
    activelist := carry lag rest
    active := update timers.active timer.wdog false
    runs := timers.runs ++ [(timers.ticks, timer.start)] }

section

variable {rest : List (Timer × Int)} {lag : Int} {timer : Timer} (sound : timers.Sound)
  (first : timers.activelist = (timer, lag) :: rest)

include sound first

/-- The first watchdog runs when it is due. -/
theorem Timers.Sound.fire (used : lag ≤ 0) :
    (timers.fire timer lag rest).Sound ∧ (timers.fire timer lag rest).late + 1 = timers.late := by
  have before : timers.pending = (timers.ticks + lag, timer.start) ::
      (timers.fire timer lag rest).pending := by
    unfold Timers.pending Timers.fire
    rw [first, absolute_carry]
    rfl
  have now : timers.ticks + lag = timers.ticks := by
    have future := sound.future _ (by rw [before]; exact mem_cons_self)
    omega
  rw [now] at before
  have line : (timers.fire timer lag rest).runs ++ (timers.fire timer lag rest).pending =
      timers.runs ++ timers.pending := by
    rw [before]
    exact append_assoc _ [_] _
  have names : timers.activelist.map (fun entry => entry.1.wdog) =
      timer.wdog :: (timers.fire timer lag rest).activelist.map fun entry => entry.1.wdog := by
    rw [first]
    exact congrArg _ (carry_names lag rest).symm
  have once := sound.distinct
  rw [names] at once
  have parts := nodup_cons.mp once
  constructor
  · constructor
    · rw [line]
      exact sound.timeline
    · rw [line]
      exact sound.due
    · intro event mem
      cases mem_append.mp mem with
      | inl old => exact sound.past event old
      | inr new =>
        rw [mem_singleton.mp new]
        exact Int.le_refl _
    · intro event mem
      exact sound.future event (by rw [before]; exact mem_cons_of_mem _ mem)
    · intro event mem
      exact sound.range event (by rw [before]; exact mem_cons_of_mem _ mem)
    · apply Perm.trans _ sound.fates
      apply Perm.append_right
      change ((timers.fire timer lag rest).pending.map Prod.snd ++
        (timers.runs ++ [(timers.ticks, timer.start)]).map Prod.snd).Perm _
      rw [before, map_append, ← append_assoc]
      exact perm_append_singleton _ _
    · intro other
      by_cases same : other = timer.wdog
      · subst same
        simp only [Timers.fire, update_self]
        exact iff_of_false (by decide) parts.1
      · have flag := sound.flags other
        rw [names, mem_cons, or_iff_right same] at flag
        simp only [Timers.fire, update_of_ne same] at flag ⊢
        exact flag
    · exact parts.2
    · exact sound.reads
    · exact sound.counted
    · intro other mem
      rw [Timers.fire, carry_items] at mem
      exact sound.named other (by rw [first]; exact mem_cons_of_mem _ mem)
  · have due : timers.ticks ≤ timers.ticks := Int.le_refl _
    unfold late
    rw [before, countP_cons]
    simp only [due, decide_true, if_true]
    rfl

theorem Timers.Sound.quiet (left : 0 < lag) : timers.late = 0 := by
  have before : timers.pending = (timers.ticks + lag, timer.start) ::
      (absolute (timers.ticks + lag) rest).map event := by
    unfold pending
    rw [first]
    rfl
  have timeline := (pairwise_append.mp sound.timeline).2.1
  rw [before] at timeline
  have order := (pairwise_cons.mp timeline).1
  apply countP_eq_zero.mpr
  intro event mem late
  rw [before] at mem
  simp only [decide_eq_true_eq] at late
  cases mem_cons.mp mem with
  | inl same =>
    rw [same] at late
    omega
  | inr more =>
    have behind := order event more
    unfold Earlier at behind
    omega

end

/-- The loop of `wd_expiration` runs all watchdogs that are due, whatever they do. -/
theorem Timers.Sound.expiration (sound : timers.Sound) {fuel : Nat} (enough : timers.late ≤ fuel)
    {callbacks : List (List Act)} (inRange : ∀ acts ∈ callbacks, ∀ act ∈ acts, act.InRange) :
    ∃ next, wdExpiration fuel callbacks timers = some next ∧ next.Sound ∧ next.late = 0 := by
  induction fuel generalizing timers callbacks with
  | zero =>
    have none : timers.late = 0 := Nat.le_zero.mp enough
    refine ⟨timers, ?_, sound, none⟩
    unfold wdExpiration
    cases list : timers.activelist with
    | nil => rfl
    | cons entry rest =>
      cases entry with
      | mk timer lag =>
        by_cases used : lag ≤ 0
        · have fired := (sound.fire list used).2
          omega
        · simp only [if_neg used]
  | succ fuel ih =>
    unfold wdExpiration
    cases list : timers.activelist with
    | nil =>
      refine ⟨timers, rfl, sound, ?_⟩
      unfold late pending
      rw [list]
      rfl
    | cons entry rest =>
      cases entry with
      | mk timer lag =>
        by_cases used : lag ≤ 0
        · have fired := sound.fire list used
          have calls : ∀ act ∈ callbacks.headD [], act.InRange := by
            cases callbacks with
            | nil =>
              intro act never
              cases never
            | cons acts others => exact inRange acts mem_cons_self
          obtain ⟨middle, performed, acted⟩ := fired.1.acts calls
          obtain ⟨next, others, kept⟩ := ih acted.sound
            (by have fewer := acted.late; have one := fired.2; omega)
            (fun acts mem => inRange acts (mem_of_mem_tail mem))
          refine ⟨next, ?_, kept⟩
          simp only [if_pos used]
          change (Run.run Timers.act (timers.fire timer lag rest) (callbacks.headD [])).bind _ = _
          rw [performed]
          exact others
        · simp only [if_neg used]
          exact ⟨timers, rfl, sound, sound.quiet list (Int.not_le.mp used)⟩

/-- One tick has passed and the first lag is counted down. -/
def Timers.pass (timers : Timers) : Timers :=
  { timers with ticks := timers.ticks + 1, activelist := carry (-1) timers.activelist }

theorem wdTimer_eq (callbacks : List (List Act)) (timers : Timers) :
    wdTimer callbacks { timers with ticks := timers.ticks + 1 } =
      wdExpiration timers.activelist.length callbacks timers.pass := by
  unfold wdTimer Timers.pass
  cases list : timers.activelist with
  | nil => rfl
  | cons entry rest => rfl

theorem Timers.pass_pending (timers : Timers) : timers.pass.pending = timers.pending := by
  unfold pending Timers.pass
  rw [absolute_carry, Int.add_neg_cancel_right]

section

variable (sound : timers.Sound) (quiet : timers.late = 0)

include sound quiet

theorem Timers.Sound.pass : timers.pass.Sound := by
  have same := timers.pass_pending
  have names : timers.pass.activelist.map _ = _ := carry_names (-1) timers.activelist
  constructor
  · rw [same]
    exact sound.timeline
  · rw [same]
    exact sound.due
  · intro event mem
    have before := sound.past event mem
    change event.1 ≤ timers.ticks + 1
    omega
  · intro event mem
    rw [same] at mem
    have ahead := countP_eq_zero.mp quiet event mem
    simp only [decide_eq_true_eq] at ahead
    change timers.ticks + 1 ≤ event.1
    omega
  · intro event mem
    rw [same] at mem
    have before := sound.range event mem
    change event.1 - (timers.ticks + 1) ≤ int32Max
    omega
  · rw [same]
    exact sound.fates
  · rw [names]
    exact sound.flags
  · rw [names]
    exact sound.distinct
  · exact sound.reads
  · exact sound.counted
  · rw [Timers.pass, carry_items]
    exact sound.named

theorem Timers.Sound.tick {callbacks : List (List Act)}
    (inRange : ∀ acts ∈ callbacks, ∀ act ∈ acts, act.InRange) :
    ∃ next, timers.step (.tick callbacks) = some next ∧ next.Sound ∧ next.late = 0 := by
  rw [Timers.step, wdTimer_eq]
  apply (sound.pass quiet).expiration _ inRange
  apply Nat.le_trans countP_le_length
  rw [timers.pass_pending]
  unfold pending
  rw [length_map, absolute_length]

theorem Timers.Sound.step {op : WdogOp} (inRange : op.InRange) :
    ∃ next, timers.step op = some next ∧ (next.Sound ∧ next.late = 0) := by
  cases op with
  | call act =>
    obtain ⟨next, performed, acted⟩ := sound.act inRange
    have fewer := acted.late
    exact ⟨next, performed, acted.sound, by omega⟩
  | tick callbacks => exact sound.tick quiet inRange

end

end Ticks

/-- What the books say about the watchdogs. -/
structure Timers.OnTime (timers : Timers) : Prop where
  /-- A watchdog runs only at the call of `wd_timer` that is due. -/
  due : ∀ tick start, (tick, start) ∈ timers.runs → timers.starts[start]? = some tick
  /-- A start that was not cancelled has run exactly once when its call of `wd_timer` is over. -/
  once : ∀ start tick, timers.starts[start]? = some tick → tick ≤ timers.ticks →
    start ∉ timers.stops → (timers.runs.map Prod.snd).count start = 1
  /-- A start that was cancelled never runs, and one whose call is not over has not run. -/
  never : ∀ start tick, timers.starts[start]? = some tick →
    (start ∈ timers.stops ∨ timers.ticks < tick) → start ∉ timers.runs.map Prod.snd
  order : timers.runs.Pairwise Earlier
  /-- `wd_gettime` of an active watchdog is the number of calls that are left. -/
  left : ∀ wdog, wdGettime timers wdog = timers.left wdog
  /-- So were the results of the calls of `wd_gettime` before, also in watchdog functions. -/
  reads : ∀ read ∈ timers.reads, read.1 = read.2
  /-- No lag is out of the range of its type. -/
  range : ∀ entry ∈ absolute 0 timers.activelist, 0 < entry.2 ∧ entry.2 ≤ int32Max

section Results

variable {timers : Timers}

/-- Watchdogs that agree with the books are on time. -/
theorem Timers.Sound.onTime (sound : timers.Sound) (quiet : timers.late = 0) : timers.OnTime := by
  have ahead : ∀ event ∈ timers.pending, timers.ticks < event.1 := by
    intro event mem
    have never := countP_eq_zero.mp quiet event mem
    simp only [decide_eq_true_eq] at never
    omega
  constructor
  · intro tick start mem
    exact sound.due (tick, start) (mem_append_left _ mem)
  · intro start tick found elapsed notStopped
    have fate := sound.fate (List.getElem?_eq_some_iff.mp found).1
    have gone : start ∉ timers.pending.map Prod.snd := by
      intro mem
      obtain ⟨event, there, same⟩ := mem_map.mp mem
      have due := sound.due event (mem_append_right _ there)
      rw [same, found, Option.some.injEq] at due
      have later := ahead event there
      omega
    rw [count_eq_zero.mpr gone, count_eq_zero.mpr notStopped] at fate
    omega
  · intro start tick found reason mem
    have fate := sound.fate (List.getElem?_eq_some_iff.mp found).1
    have ran := count_pos_iff.mpr mem
    cases reason with
    | inl stopped =>
      have twice := count_pos_iff.mpr stopped
      omega
    | inr later =>
      obtain ⟨event, there, same⟩ := mem_map.mp mem
      have due := sound.due event (mem_append_left _ there)
      have past := sound.past event there
      rw [same, found] at due
      have equal := Option.some.inj due
      omega
  · exact (pairwise_append.mp sound.timeline).1
  · exact sound.gettime
  · exact sound.reads
  · intro entry mem
    have there : event (entry.1, entry.2 + timers.ticks) ∈ timers.pending := by
      unfold pending
      rw [← Int.zero_add timers.ticks, absolute_shift, Int.zero_add]
      exact mem_map.mpr ⟨_, mem_map.mpr ⟨entry, mem, rfl⟩, rfl⟩
    have later := ahead _ there
    have small := sound.range _ there
    unfold event at later small
    omega

theorem initial_sound : initial.Sound := by
  constructor
  · exact Pairwise.nil
  · intro event never
    cases never
  · intro event never
    cases never
  · intro event never
    cases never
  · intro event never
    cases never
  · exact Perm.refl _
  · intro wdog
    exact iff_of_false (by simp [initial]) not_mem_nil
  · exact nodup_nil
  · intro read never
    cases never
  · rfl
  · intro timer never
    cases never

/-- In every run of calls and ticks, whatever the watchdog functions do, watchdogs expire on
time. -/
theorem watchdogs_on_time {ops : List WdogOp} (inRange : ∀ op ∈ ops, op.InRange) :
    ∃ timers, Run.run Timers.step Timers.initial ops = some timers ∧ timers.OnTime := by
  have keeps : ∀ (timers : Timers) (op : WdogOp), (timers.Sound ∧ timers.late = 0) → op.InRange →
      ∃ next, timers.step op = some next ∧ (next.Sound ∧ next.late = 0) :=
    fun timers op holds allowed => holds.1.step holds.2 allowed
  obtain ⟨timers, performed, sound, quiet⟩ := Run.run_invariant keeps ⟨initial_sound, rfl⟩
    (Run.admitted_of_forall Timers.initial inRange)
  exact ⟨timers, performed, sound.onTime quiet⟩

end Results

/-- Three watchdogs, of which the first starts the second again and cancels the third when it
runs. -/
def sampleOps : List WdogOp :=
  [.call (.start 1 0), .call (.start 2 1), .call (.start 3 0), .tick [[.start 2 0, .cancel 3]],
    .call (.gettime 2), .tick []]

/-- The first start and the restart run, each at its call. -/
theorem watchdogs_on_time_sample :
    ∃ timers, Run.run Timers.step Timers.initial sampleOps = some timers ∧ timers.OnTime ∧
      timers.starts = [1, 2, 1, 2] ∧ timers.runs = [(1, 0), (2, 3)] ∧ timers.stops = [1, 2] := by
  obtain ⟨timers, reached, onTime⟩ := @watchdogs_on_time sampleOps (by decide)
  have outcome : (Run.run Timers.step Timers.initial sampleOps).map
      (fun timers => (timers.starts, timers.runs, timers.stops)) =
        some ([1, 2, 1, 2], [(1, 0), (2, 3)], [1, 2]) := by
    decide +kernel
  rw [reached, Option.map_some, Option.some.injEq, Prod.mk.injEq, Prod.mk.injEq] at outcome
  exact ⟨timers, reached, onTime, outcome⟩

end Chewie.Sched
