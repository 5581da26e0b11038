import Chewie.Sched.Ready.Moves

/-!
# Merging the pending tasks

`sched_mergepending` walks through `g_readytorun` once. Because `g_pendingtasks` is in the order of
priority, the place of each pending task is not before that of the one before it, and each of them
is inserted as `sched_addprioritized` would insert it. The idle task is always behind them.
-/

namespace Chewie.Sched.Ready

open List

section Walk

variable {priority : Nat → Nat} {ptcb : Nat} {passed rest : List Nat}

theorem advance_stops (above : ∀ first ∈ passed, priority ptcb ≤ priority first)
    (low : ∃ last ∈ rest, priority last < priority ptcb) :
    ∃ before rtcb behind, advance priority ptcb passed rest = (before, rtcb :: behind) ∧
      before ++ rtcb :: behind = passed ++ rest ∧
      (∀ first ∈ before, priority ptcb ≤ priority first) ∧ priority rtcb < priority ptcb := by
  induction rest generalizing passed with
  | nil =>
    obtain ⟨last, mem, _⟩ := low
    cases mem
  | cons rtcb rest ih =>
    rw [advance]
    split
    · rename_i behind
      have longer : ∀ first ∈ passed ++ [rtcb], priority ptcb ≤ priority first := by
        intro first mem
        rcases mem_append.mp mem with old | new
        · exact above first old
        · rw [mem_singleton.mp new]
          exact behind
      obtain ⟨last, mem, lower⟩ := low
      have later : last ∈ rest := by
        rcases mem_cons.mp mem with same | later
        · rw [same] at lower
          omega
        · exact later
      obtain ⟨before, found, behind, stops, divided, remaining⟩ := ih longer ⟨last, later, lower⟩
      rw [append_assoc] at divided
      exact ⟨before, found, behind, stops, divided, remaining⟩
    · rename_i lower
      exact ⟨passed, rtcb, rest, rfl, rfl, above, by omega⟩

theorem insert_between {before behind : List Nat} {rtcb : Nat}
    (above : ∀ first ∈ before, priority ptcb ≤ priority first)
    (lower : priority rtcb < priority ptcb) :
    schedAddprioritized priority ptcb (before ++ rtcb :: behind) =
      before ++ ptcb :: rtcb :: behind := by
  induction before with
  | nil => rw [nil_append, schedAddprioritized, if_neg (by omega), nil_append]
  | cons first more ih =>
    rw [cons_append, schedAddprioritized, if_pos (above first mem_cons_self),
      ih fun other mem => above other (mem_cons_of_mem first mem), cons_append]

end Walk

section Merging

variable {sys : Sys} {ptcb rtcb : Nat} {more before behind : List Nat}

theorem Lists.takePending (lists : Lists (sys.setList .pendingtasks (ptcb :: more))) :
    Lists ((sys.setList .pendingtasks more).setState ptcb .invalid) := by
  have mem : ptcb ∈ (sys.setList .pendingtasks (ptcb :: more)).lists .pendingtasks := by
    exact mem_cons_self
  have taken := lists.leave (by decide) mem
  rwa [setList_self, erase_cons_head, setList_setList] at taken

theorem enter_taken {ready : List Nat} (state : TaskState) :
    ((((sys.setList .readytorun ready).setList .pendingtasks more).setState ptcb
      .invalid).addprioritized ptcb .readytorun).setState ptcb state =
    ((sys.setState ptcb state).setList .readytorun
      (schedAddprioritized sys.priority ptcb ready)).setList .pendingtasks more := by
  have listed : (((sys.setList .readytorun ready).setList .pendingtasks more).setState ptcb
      .invalid).lists .readytorun = ready := by
    rw [setState_lists, setList_other _ (by decide), setList_self]
  rw [Sys.addprioritized, listed, setState_priority, setList_priority, setList_priority]
  change ((((sys.setState ptcb .invalid).setState ptcb state).setList .readytorun
    ready).setList .pendingtasks more).setList .readytorun _ = _
  rw [setState_setState, setList_comm _ (by decide), setList_setList]

theorem Lists.mergeHead
    (lists : Lists ((sys.setList .readytorun (rtcb :: behind)).setList .pendingtasks (ptcb :: more)))
    (lower : sys.priority rtcb < sys.priority ptcb) :
    Lists ((((sys.setState rtcb .readytorun).setState ptcb .running).setList .readytorun
      (ptcb :: rtcb :: behind)).setList .pendingtasks more) := by
  have adds : addsHead sys.priority ptcb (rtcb :: behind) = true := decide_eq_true lower
  have different : rtcb ≠ ptcb := by
    rintro rfl
    omega
  have entered := lists.takePending.enterHead (setState_self ..)
    (by rw [setState_lists, setList_other _ (by decide), setList_self])
    (by rw [setState_lists, setList_other _ (by decide), setList_self, setState_priority]; exact adds)
  rw [enter_taken, insert_of_addsHead adds] at entered
  rw [setState_comm _ different]
  exact entered

/-- Every pending task is put into its place. -/
theorem mergeLoop_lists {pending passed rest : List Nat} {ret : Bool}
    (lists : Lists ((sys.setList .readytorun (passed ++ rest)).setList .pendingtasks pending))
    (above : ∀ first ∈ passed, ∀ ptcb ∈ pending, sys.priority ptcb ≤ sys.priority first)
    (last : idle ∈ rest) :
    ∃ after changed, mergeLoop sys pending passed rest ret = some (after, changed) ∧
      Lists after ∧ after.lists .pendingtasks = [] := by
  induction pending generalizing sys passed rest ret with
  | nil => exact ⟨_, _, rfl, lists, setList_self ..⟩
  | cons ptcb more ih =>
    have busy : ptcb ≠ idle := lists.takePending.ne_idle (setState_self ..)
    have zero : sys.priority idle = 0 := lists.idle_priority
    have positive : 1 ≤ sys.priority ptcb := lists.priorities ptcb busy
    have falling := lists.pending
    have below := (pairwise_cons.mp falling).1
    obtain ⟨before, rtcb, behind, stops, divided, higher, lower⟩ :=
      advance_stops (fun first mem => above first mem ptcb mem_cons_self)
        ⟨idle, last, by omega⟩
    -- The idle task is never passed.
    have later : idle ∈ ptcb :: rtcb :: behind := by
      have mem : idle ∈ before ++ rtcb :: behind := by
        rw [divided]
        exact mem_append_right passed last
      rcases mem_append.mp mem with early | late
      · have high := higher idle early
        omega
      · exact mem_cons_of_mem ptcb late
    rw [← divided] at lists
    rw [mergeLoop, stops]
    cases before with
    | nil => exact ih (lists.mergeHead lower) nofun later
    | cons first before =>
      have stays : ¬ addsHead sys.priority ptcb (first :: before ++ rtcb :: behind) = true := by
        have least := higher first mem_cons_self
        simpa [addsHead] using least
      have entered := lists.takePending.enterBehind (setState_self ..) (by
        rw [setState_lists, setList_other _ (by decide), setList_self, setState_priority]
        exact stays)
      rw [enter_taken, insert_between higher lower] at entered
      refine ih entered (fun other mem next mem' => ?_) later
      rw [setState_priority]
      exact Nat.le_trans (below next mem') (higher other mem)

end Merging

end Chewie.Sched.Ready
