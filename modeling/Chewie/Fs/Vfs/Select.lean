import Chewie.Lib.Signed

/-! # Select

`select` makes one list of poll entries from three descriptor sets and spreads the answers of
`poll` over the sets again. A missing set is a NULL pointer. -/

namespace Chewie.Fs.Vfs

/-- The bits of `pollevent_t`. -/
inductive Event where
  | pollin
  | pollout
  | pollerr
  | pollhup
  | pollnval
deriving DecidableEq

/-- An entry of the list for `poll`. -/
structure Pollfd where
  fd : Nat
  events : Finset Event
  revents : Finset Event

open Pollfd

structure Sets where
  readfds : Option (Finset Nat)
  writefds : Option (Finset Nat)
  exceptfds : Option (Finset Nat)
deriving DecidableEq

/-- A timeout; seconds are unsigned. -/
structure Timeval where
  tv_sec : Nat
  tv_usec : Int

/-- What the poll layer does: the results of the setup and of the teardown of a descriptor, the
events it has by then, and the result of the wait, zero when it times out. -/
structure Layer where
  setup : Nat → Int
  revents : Nat → Finset Event
  wait : Int → Int
  teardown : Nat → Int

/-- `FD_ISSET` on a set that may be missing. -/
def isSet (fd : Nat) (set : Option (Finset Nat)) : Bool := set.any (fd ∈ ·)

/-- A monitor operation is requested on the descriptor. -/
def Sets.watched (sets : Sets) (fd : Nat) : Bool :=
  isSet fd sets.readfds || isSet fd sets.writefds || isSet fd sets.exceptfds

/-- The events that are asked of a descriptor; exceptions ask for none. -/
def Sets.eventsOf (sets : Sets) (fd : Nat) : Finset Event :=
  (if isSet fd sets.readfds then {.pollin} else ∅) ∪
    if isSet fd sets.writefds then {.pollout} else ∅

/-- The list for `poll`. -/
def Sets.pollset (sets : Sets) (nfds : Int) : List Pollfd :=
  ((List.range nfds.toNat).filter sets.watched).map fun fd => ⟨fd, sets.eventsOf fd, ∅⟩

/-- The timeout in milliseconds, computed in 32 bits. -/
def msecOf : Option Timeval → Int
  | some timeout => Signed.wrap 32 (timeout.tv_sec * 1000 + timeout.tv_usec.tdiv 1000)
  | none => -1

/-- The list with the events of the descriptors. -/
def Layer.polled (layer : Layer) (fds : List Pollfd) : List Pollfd :=
  fds.map fun entry => { entry with revents := layer.revents entry.fd }

/-- `poll`: the number of entries with an event and the list, or an error. -/
def poll (layer : Layer) (fds : List Pollfd) (timeout : Int) : Option (Nat × List Pollfd) :=
  if (∃ entry ∈ fds, layer.setup entry.fd < 0) ∨ (timeout ≠ 0 ∧ layer.wait timeout < 0) ∨
      ∃ entry ∈ fds, layer.teardown entry.fd < 0 then none
  else some ((layer.polled fds).countP (·.revents ≠ ∅), layer.polled fds)

/-- A mask test: one of the conditions is among the events. -/
def hit (conditions revents : Finset Event) : Bool := ∃ event ∈ conditions, event ∈ revents

/-- One check of the conversion: the entry has one of the conditions of a set that is there. -/
def report (conditions : Finset Event) (entry : Pollfd) (ret : Int) :
    Option (Finset Nat) → Int × Option (Finset Nat)
  | some set =>
    if hit conditions entry.revents then (ret + 1, some (insert entry.fd set))
    else (ret, some set)
  | none => (ret, none)

/-- One step of the conversion. -/
def convert (found : Int × Sets) (entry : Pollfd) : Int × Sets :=
  let (ret, readfds) := report {.pollin, .pollhup} entry found.1 found.2.readfds
  let (ret, writefds) := report {.pollout} entry ret found.2.writefds
  let (ret, exceptfds) := report {.pollerr} entry ret found.2.exceptfds
  (ret, ⟨readfds, writefds, exceptfds⟩)

/-- The sets that are there, without a bit. -/
def Sets.cleared (sets : Sets) : Sets :=
  ⟨sets.readfds.map fun _ => ∅, sets.writefds.map fun _ => ∅, sets.exceptfds.map fun _ => ∅⟩

/-- `select`, with the result of the allocation. -/
def select (layer : Layer) (nfds : Int) (sets : Sets) (timeout : Option Timeval)
    (allocated : Bool) : Int × Sets :=
  if sets.pollset nfds ≠ [] ∧ allocated = false then (-1, sets)
  else
    match poll layer (sets.pollset nfds) (msecOf timeout) with
    | none => (-1, sets.cleared)
    | some (ret, polled) =>
      if 0 < ret then polled.foldl convert (0, sets.cleared) else (0, sets.cleared)

/-- The number of bits in a set. -/
def bits (set : Option (Finset Nat)) : Int := set.elim 0 fun set => set.card

/-- The descriptors with one of the conditions, for a set that is there. -/
def answer (conditions : Finset Event) (entries : List Pollfd) (set : Option (Finset Nat)) :
    Option (Finset Nat) :=
  set.map fun _ => ((entries.filter (hit conditions ·.revents)).map Pollfd.fd).toFinset

def answers (entries : List Pollfd) (sets : Sets) : Sets where
  readfds := answer {.pollin, .pollhup} entries sets.readfds
  writefds := answer {.pollout} entries sets.writefds
  exceptfds := answer {.pollerr} entries sets.exceptfds

/-- The number of bits in the sets. -/
def Sets.total (sets : Sets) : Int := bits sets.readfds + bits sets.writefds + bits sets.exceptfds

theorem report_answer (conditions : Finset Event) {entry : Pollfd} {done : List Pollfd}
    (fresh : entry.fd ∉ done.map fd) (ret : Int) (set : Option (Finset Nat)) :
    report conditions entry ret (answer conditions done set) =
      (ret + (bits (answer conditions (done ++ [entry]) set) - bits (answer conditions done set)),
        answer conditions (done ++ [entry]) set) := by
  rcases set with _ | set
  · simp [answer, report, bits]
  have apart : entry.fd ∉
      ((done.filter (hit conditions ·.revents)).map fd).toFinset := by
    intro member
    simp only [List.mem_toFinset, List.mem_map, List.mem_filter] at member
    obtain ⟨other, ⟨earlier, -⟩, same⟩ := member
    exact fresh (List.mem_map.2 ⟨other, earlier, same⟩)
  cases found : hit conditions entry.revents
  · simp [answer, report, bits, found]
  · have more := Finset.card_insert_of_notMem apart
    simp [answer, report, bits, found, Finset.union_comm] at more ⊢
    omega

theorem total_answers_nil (sets : Sets) : (answers [] sets).total = 0 := by
  rcases sets with ⟨_ | _, _ | _, _ | _⟩ <;> rfl

/-- The conversion finds the answers and counts their bits. -/
theorem foldl_convert (sets : Sets) {entries : List Pollfd} (distinct : (entries.map fd).Nodup) :
    entries.foldl convert (0, answers [] sets) =
      ((answers entries sets).total, answers entries sets) := by
  induction entries using List.reverseRecOn with
  | nil => rw [total_answers_nil]; rfl
  | append_singleton done entry earlier =>
    simp only [List.map_append, List.map_cons, List.map_nil] at distinct
    have fresh : entry.fd ∉ done.map fd := fun member =>
      (List.nodup_append.1 distinct).2.2 _ member _ (List.mem_singleton_self _) rfl
    rw [List.foldl_append, earlier distinct.of_append_left]
    simp only [List.foldl_cons, List.foldl_nil, convert, answers, report_answer _ fresh,
      Sets.total, Prod.mk.injEq, and_true]
    omega

variable {layer : Layer} {nfds : Int} {sets : Sets}

/-- A call that succeeds gives the answers. -/
theorem select_eq {timeout : Option Timeval} {allocated : Bool}
    (returned : 0 ≤ (select layer nfds sets timeout allocated).1) :
    select layer nfds sets timeout allocated =
      let found := answers (layer.polled (sets.pollset nfds)) sets
      (found.total, found) := by
  have distinct : ((layer.polled (sets.pollset nfds)).map fd).Nodup := by
    simp only [Layer.polled, Sets.pollset, List.map_map, Function.comp_def, List.map_id']
    exact List.nodup_range.filter _
  unfold select poll at returned ⊢
  split_ifs at returned ⊢ with failed error
  · exact absurd returned (show ¬(0 : Int) ≤ -1 by decide)
  · exact absurd returned (show ¬(0 : Int) ≤ -1 by decide)
  · dsimp only
    split_ifs with nonempty
    · exact foldl_convert sets distinct
    · -- without an event the answers are the cleared sets
      have quiet : ∀ entry ∈ layer.polled (sets.pollset nfds), entry.revents = ∅ := by
        simpa [List.countP_eq_zero] using nonempty
      have same : answers (layer.polled (sets.pollset nfds)) sets = answers [] sets := by
        simp +contextual [answers, answer, hit, List.filter_eq_nil_iff.2, quiet]
      rw [same, total_answers_nil]
      rfl

/-- The descriptors of an input set with one of the conditions. -/
def expected (layer : Layer) (nfds : Int) (conditions : Finset Event) (set : Option (Finset Nat)) :
    Option (Finset Nat) :=
  set.map (·.filter fun fd => (fd : Int) < nfds ∧ hit conditions (layer.revents fd))

/-- The polled descriptors with one of the conditions of a set are in the set. -/
def Asked (layer : Layer) (nfds : Int) (sets : Sets) (conditions : Finset Event)
    (set : Option (Finset Nat)) : Prop :=
  ∀ fd : Nat, fd < nfds → sets.watched fd → hit conditions (layer.revents fd) →
    ∀ members ∈ set, fd ∈ members

theorem answer_eq_iff (conditions : Finset Event) {set : Option (Finset Nat)}
    (watched : ∀ fd, isSet fd set = true → sets.watched fd = true) :
    answer conditions (layer.polled (sets.pollset nfds)) set = expected layer nfds conditions set ↔
      Asked layer nfds sets conditions set := by
  rcases set with _ | members
  · simp [answer, expected, Asked]
  have found (fd : Nat) : fd ∈ (((layer.polled (sets.pollset nfds)).filter
      (hit conditions ·.revents)).map Pollfd.fd).toFinset ↔
      (fd < nfds ∧ sets.watched fd) ∧ hit conditions (layer.revents fd) := by
    simp [Layer.polled, Sets.pollset]
  simp only [answer, expected, Asked, Option.map_some, Option.mem_some_iff, forall_eq',
    Option.some.injEq]
  simp only [Finset.ext_iff, found, Finset.mem_filter]
  constructor
  · intro same fd below polled hit
    exact ((same fd).1 ⟨⟨below, polled⟩, hit⟩).1
  · intro inside fd
    constructor
    · rintro ⟨⟨below, polled⟩, hit⟩
      exact ⟨inside fd below polled hit, below, hit⟩
    · rintro ⟨member, below, hit⟩
      exact ⟨⟨below, watched fd (by simpa [isSet] using member)⟩, hit⟩

/-- Milliseconds that are not shorter than the timeout. -/
def Timeval.covers (timeout : Timeval) : Set Int :=
  {msec | timeout.tv_sec * 1000000 + timeout.tv_usec ≤ 1000 * msec}

/-- A call that succeeds counts the bits it sets, and its sets are right just if each condition
is found on descriptors of its own set only. The timeout for `poll` is right just if it is a whole
number of milliseconds that an `int` holds. -/
theorem select_exact_iff (timeout : Option Timeval) (allocated : Bool) (ret : Int) (out : Sets)
    (result : select layer nfds sets timeout allocated = (ret, out))
    (valid : ∀ time ∈ timeout, 0 ≤ time.tv_usec ∧ time.tv_usec < 1000000) :
    (0 ≤ ret → ret = out.total ∧ (out = ⟨expected layer nfds {.pollin, .pollhup} sets.readfds,
        expected layer nfds {.pollout} sets.writefds,
        expected layer nfds {.pollerr} sets.exceptfds⟩ ↔
      Asked layer nfds sets {.pollin, .pollhup} sets.readfds ∧
        Asked layer nfds sets {.pollout} sets.writefds ∧
        Asked layer nfds sets {.pollerr} sets.exceptfds)) ∧
      ∀ time ∈ timeout, (IsLeast time.covers (msecOf timeout) ↔
        time.tv_usec % 1000 = 0 ∧ time.tv_sec * 1000 + time.tv_usec / 1000 < 2 ^ 31) := by
  constructor
  · intro returned
    have success : 0 ≤ (select layer nfds sets timeout allocated).1 := by rwa [result]
    cases result.symm.trans (select_eq success)
    refine ⟨rfl, ?_⟩
    simp only [answers, Sets.mk.injEq]
    rw [answer_eq_iff, answer_eq_iff, answer_eq_iff]
    all_goals
      intro fd set
      simp [Sets.watched, set]
  · rintro time rfl
    obtain ⟨lower, upper⟩ := valid time rfl
    simp only [msecOf, Int.tdiv_eq_ediv_of_nonneg lower, IsLeast, Timeval.covers,
      Set.mem_ofPred_eq, mem_lowerBounds, Signed.wrap, Int.bmod]
    constructor
    · rintro ⟨long, -⟩
      split at long <;> omega
    · rintro ⟨whole, fits⟩
      constructor
      · omega
      · intro msec long
        omega

/-- The third descriptor is hung up. -/
def hungUp : Layer := ⟨fun _ => 0, fun fd => if fd = 3 then {.pollhup} else ∅, fun _ => 0, fun _ => 0⟩

/-- A descriptor that hung up is reported for reading. -/
theorem select_exact_iff_hungUp :
    select hungUp 4 ⟨some {3}, none, none⟩ (some ⟨1, 5000⟩) true = (1, ⟨some {3}, none, none⟩) ∧
    1 = Sets.total ⟨some {3}, none, none⟩ ∧
    IsLeast (Timeval.covers ⟨1, 5000⟩) (msecOf (some ⟨1, 5000⟩)) := by
  have right := @select_exact_iff hungUp 4 ⟨some {3}, none, none⟩ (some ⟨1, 5000⟩) true 1
    ⟨some {3}, none, none⟩ (by decide) (by simp)
  exact ⟨by decide, (right.1 (by decide)).1, (right.2 _ rfl).2 (by decide)⟩

/-- A descriptor that is only asked for writing is reported for reading, and the timeout of one
microsecond is none. -/
theorem select_reports_unasked :
    select hungUp 4 ⟨some ∅, some {3}, none⟩ (some ⟨0, 1⟩) true =
      (1, ⟨some {3}, some ∅, none⟩) ∧ msecOf (some ⟨0, 1⟩) = 0 := by
  decide

end Chewie.Fs.Vfs
