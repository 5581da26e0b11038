import Mathlib.Data.Set.Card
import Chewie.Sched.Mqueue.Books
import Chewie.Sched.Mqueue.Waits

/-!
# Runs of message queues

The lists of waiting tasks and the books of every queue are kept by every step, as long as no
message is added to a queue whose counter is at the largest value of its type. In every such run
each message is received once and unchanged, in the order of priority and sending, and the counters
count what they should. One message more makes the counter of the messages negative.
-/

namespace Chewie.Sched.Mqueue

open Function List Option Run Sys

variable {κ : Type} [DecidableEq κ] {maxBytes : Nat} {sys : Sys κ} {task : Nat} {msgq : κ}

/-- The message of the queue that a task has taken and not delivered. -/
def inHand (msgq : κ) : Phase κ → Option Message
  | .doReceive queue mqmsg => if queue = msgq then some mqmsg else none
  | _ => none

/-- The messages of the queue that are in the hands of tasks. -/
def hand (phase : Nat → Phase κ) (msgq : κ) : List Message :=
  Holders.held pidCount (inHand msgq ∘ phase)

/-- The arguments of an unfinished send have been verified. -/
def Verified (maxBytes : Nat) : Phase κ → Prop
  | .waitSend _ msg prio => prio ≤ mqPrioMax ∧ msg.length < 2 ^ lenWidth maxBytes
  | .doSend _ msg prio => prio ≤ mqPrioMax ∧ msg.length < 2 ^ lenWidth maxBytes
  | _ => True

structure Inv (maxBytes : Nat) (sys : Sys κ) : Prop where
  waits : Waits sys
  books : ∀ msgq, Books maxBytes (sys.queue msgq) (hand sys.phase msgq)
  verified : ∀ task, Verified maxBytes (sys.phase task)

theorem Inv.same (inv : Inv maxBytes sys) {next : Sys κ} (waits : Waits next)
    (books : SameBooks sys next) : Inv maxBytes next := by
  refine ⟨waits, fun msgq => ?_, ?_⟩
  · obtain ⟨nwait, ntpid, same⟩ := books.queue msgq
    rw [same, books.phase]
    exact (inv.books msgq).congr nwait ntpid
  · rw [books.phase]
    exact inv.verified

/-- A phase has no message in hand. -/
def EmptyHanded (phase : Phase κ) : Prop := ∀ msgq, inHand msgq phase = none

section

variable (inv : Inv maxBytes sys)

include inv

theorem Inv.move {phase : Phase κ} (ret : Nat → Int) (before : EmptyHanded (sys.phase task))
    (after : EmptyHanded phase) (verified : Verified maxBytes phase) :
    Inv maxBytes { sys.setPhase task phase with ret := ret } := by
  refine ⟨inv.waits.congr rfl rfl fun _ => rfl, fun msgq => ?_, fun other => ?_⟩
  · simp only [setPhase]
    rw [hand, comp_update, after msgq, update_eq_self_iff.mpr (before msgq).symm]
    exact inv.books msgq
  · simp only [setPhase, update_apply]
    split_ifs with same
    · exact verified
    · exact inv.verified other

theorem Inv.handOver {queue : Msgq} {phase : Phase κ} (ret : Nat → Int)
    (books : Books maxBytes queue (hand (update sys.phase task phase) msgq))
    (nwait : queue.nwait = (sys.queue msgq).nwait)
    (others : ∀ other ≠ msgq, inHand other phase = inHand other (sys.phase task))
    (verified : Verified maxBytes phase) :
    Inv maxBytes { (sys.setQueue msgq queue).setPhase task phase with ret := ret } := by
  refine ⟨inv.waits.congr rfl rfl fun other => ?_, fun other => ?_, fun other => ?_⟩
  · simp only [setQueue, setPhase]
    by_cases same : other = msgq
    · subst same
      rw [update_self]
      exact nwait
    · rw [update_of_ne same]
  · simp only [setQueue, setPhase]
    by_cases same : other = msgq
    · subst same
      rw [update_self]
      exact books
    · have kept : hand (update sys.phase task phase) other = hand sys.phase other := by
        rw [hand, comp_update, others other same]
        exact congrArg (Holders.held pidCount) (update_eq_self task _)
      rw [update_of_ne same, kept]
      exact inv.books other
  · simp only [setQueue, setPhase, update_apply]
    split_ifs with same
    · exact verified
    · exact inv.verified other

theorem Inv.setQueue {queue : Msgq} (nwait : queue.nwait = (sys.queue msgq).nwait)
    (books : Books maxBytes queue (hand sys.phase msgq)) :
    Inv maxBytes (sys.setQueue msgq queue) := by
  have same : update sys.phase 0 (sys.phase 0) = sys.phase := update_eq_self 0 _
  have given := @Inv.handOver κ _ maxBytes sys 0 msgq inv queue (sys.phase 0) sys.ret
    (by rwa [same]) nwait (fun _ _ => rfl) (inv.verified 0)
  simp only [Sys.setQueue, Sys.setPhase, same] at given
  exact given

theorem Inv.stop (runs : Runs sys task) (phase : Phase κ) (before : EmptyHanded (sys.phase task))
    (after : EmptyHanded phase) (verified : Verified maxBytes phase) (wait : Wait) (msgq : κ) :
    Inv maxBytes (block (sys.setPhase task phase) task wait msgq) := by
  have moved := inv.move sys.ret before after verified
  exact moved.same (moved.waits.block runs wait msgq) (sameBooks_setWait _ msgq wait _ _ _)

theorem Inv.waitSend (runs : Runs sys task) (before : EmptyHanded (sys.phase task))
    {msg : List UInt8} {prio : Nat}
    (verified : prio ≤ mqPrioMax ∧ msg.length < 2 ^ lenWidth maxBytes) (nonblock : Bool) :
    Inv maxBytes (nxmqWaitSend sys task msgq msg prio nonblock) := by
  rw [nxmqWaitSend]
  split
  · split
    · exact inv.move _ before (fun _ => rfl) trivial
    · exact inv.stop runs (.waitSend msgq msg prio) before (fun _ => rfl) verified .notFull msgq
  · exact inv.move sys.ret before (fun _ => rfl) verified

theorem Inv.doSend {msg : List UInt8} {prio : Nat} (room : (sys.queue msgq).nmsgs < semValueMax)
    (low : prio ≤ mqPrioMax) (short : msg.length < 2 ^ lenWidth maxBytes) (reached : Bool) :
    ∃ next, nxmqDoSend maxBytes sys msgq msg prio reached = some next ∧ Inv maxBytes next := by
  have inserted : Inv maxBytes
      (sys.setQueue msgq (insertMessage maxBytes (sys.queue msgq) msg prio)) :=
    inv.setQueue rfl ((inv.books msgq).insert room low short)
  obtain ⟨second, notified, waits, books⟩ := inserted.waits.notify msgq reached
  obtain ⟨third, woken, waits', books'⟩ := waits.wake .notEmpty msgq
  refine ⟨third, ?_, inserted.same waits' (books.trans books')⟩
  rw [nxmqDoSend, notified]
  exact woken

theorem Inv.waitReceive (runs : Runs sys task) (before : EmptyHanded (sys.phase task))
    (nonblock : Bool) : Inv maxBytes (nxmqWaitReceive sys task msgq nonblock) := by
  rw [nxmqWaitReceive]
  split
  · rename_i newmsg rest first
    have taken : (hand (update sys.phase task (.doReceive msgq newmsg)) msgq).Perm
        (newmsg :: hand sys.phase msgq) := by
      rw [hand, comp_update, inHand, if_pos rfl]
      exact Holders.held_take runs.2.1 (before msgq) newmsg
    refine inv.handOver sys.ret (((inv.books msgq).take first).perm taken.symm) rfl
      (fun other different => ?_) trivial
    rw [inHand, if_neg (Ne.symm different), before other]
  · split
    · exact inv.move _ before (fun _ => rfl) trivial
    · exact inv.stop runs (.waitReceive msgq) before (fun _ => rfl) trivial .notEmpty msgq

theorem Inv.doReceive (runs : Runs sys task) {mqmsg : Message}
    (holds : sys.phase task = .doReceive msgq mqmsg) :
    ∃ next, nxmqDoReceive sys task msgq mqmsg = some next ∧ Inv maxBytes next := by
  have given : (hand sys.phase msgq).Perm
      (mqmsg :: hand (update sys.phase task .idle) msgq) := by
    rw [hand, hand, comp_update]
    refine Holders.held_give runs.2.1 ?_
    rw [comp_apply, holds, inHand, if_pos rfl]
  have others : ∀ other ≠ msgq, inHand other .idle = inHand other (sys.phase task) := by
    intro other different
    rw [holds, inHand, inHand, if_neg (Ne.symm different)]
    exact nofun
  have delivered := inv.handOver (update sys.ret task mqmsg.msglen)
    ((inv.books msgq).perm given).deliver rfl others trivial
  obtain ⟨next, woken, waits, books⟩ := delivered.waits.wake .notFull msgq
  exact ⟨next, woken, delivered.same waits books⟩

theorem Inv.verify {wrok : Bool} {msg : List UInt8} {prio : Nat}
    (passed : ¬nxmqVerifySend (sys.queue msgq) wrok msg prio < 0) :
    prio ≤ mqPrioMax ∧ msg.length < 2 ^ lenWidth maxBytes := by
  have fits := (inv.books msgq).fits
  simp only [nxmqVerifySend, einval, eperm, emsgsize] at passed
  split at passed
  · omega
  · split at passed
    · omega
    · split at passed
      · omega
      · omega

end

/-- The condition of the step: no message is added to a queue whose counter is at the largest value
of `int16_t`. -/
def Roomy (sys : Sys κ) : Op κ → Prop
  | .sendIrq msgq _ _ _ _ => (sys.queue msgq).nmsgs < semValueMax
  | .resume task _ _ _ =>
    match sys.phase task with
    | .doSend msgq _ _ => (sys.queue msgq).nmsgs < semValueMax
    | _ => True
  | _ => True

instance decidableRoomy (sys : Sys κ) : ∀ op : Op κ, Decidable (Roomy sys op)
  | .sendIrq msgq _ _ _ _ => inferInstanceAs (Decidable ((sys.queue msgq).nmsgs < semValueMax))
  | .resume task _ _ _ =>
    match phase : sys.phase task with
    | .doSend msgq _ _ =>
      decidable_of_iff ((sys.queue msgq).nmsgs < semValueMax) (by simp only [Roomy, phase])
    | .idle | .waitSend _ _ _ | .waitReceive _ | .doReceive _ _ =>
      isTrue (by simp only [Roomy, phase])
  | .send .. => isTrue trivial
  | .receive .. => isTrue trivial
  | .waitIrq .. => isTrue trivial
  | .notify .. => isTrue trivial

/-- Going on in a call keeps the invariant. -/
theorem Inv.resume (inv : Inv maxBytes sys) (runs : Runs sys task)
    {nonblock allocated reached : Bool} (busy : sys.phase task ≠ .idle)
    (roomy : Roomy sys (.resume task nonblock allocated reached)) :
    ∃ next, resume maxBytes sys task nonblock allocated reached = some next ∧
      Inv maxBytes next := by
  have verified := inv.verified task
  rw [Mqueue.resume]
  simp only [Roomy] at roomy
  cases phase : sys.phase task with
  | idle => exact absurd phase busy
  | waitSend msgq msg prio =>
    have before : EmptyHanded (sys.phase task) := by rw [phase]; exact fun _ => rfl
    rw [phase] at verified
    dsimp only
    split
    · exact ⟨_, rfl, inv.move _ before (fun _ => rfl) trivial⟩
    · exact ⟨_, rfl, inv.waitSend runs before verified false⟩
  | doSend msgq msg prio =>
    have before : EmptyHanded (sys.phase task) := by rw [phase]; exact fun _ => rfl
    rw [phase] at verified roomy
    have returned : ∀ ret, Inv maxBytes (sys.finish task ret) := fun ret =>
      inv.move _ before (fun _ => rfl) trivial
    cases allocated with
    | false => exact ⟨_, rfl, returned _⟩
    | true =>
      exact (returned 0).doSend roomy verified.1 verified.2 reached
  | waitReceive msgq =>
    have before : EmptyHanded (sys.phase task) := by rw [phase]; exact fun _ => rfl
    dsimp only
    split
    · exact ⟨_, rfl, inv.move _ before (fun _ => rfl) trivial⟩
    · exact ⟨_, rfl, inv.waitReceive runs before nonblock⟩
  | doReceive msgq mqmsg =>
    exact inv.doReceive runs phase

/-- Every possible step that meets the condition succeeds and keeps the invariant. -/
theorem inv_step (sys : Sys κ) (op : Op κ) (inv : Inv maxBytes sys)
    (guard : Allowed sys op ∧ Roomy sys op) :
    ∃ next, step maxBytes sys op = some next ∧ Inv maxBytes next := by
  obtain ⟨allowed, roomy⟩ := guard
  cases op with
  | send task msgq wrok nonblock msg prio =>
    have before : EmptyHanded (sys.phase task) := by rw [allowed.2]; exact fun _ => rfl
    refine ⟨_, rfl, ?_⟩
    simp only [nxmqSend]
    split
    · exact inv.move _ before (fun _ => rfl) trivial
    · rename_i passed
      exact inv.waitSend allowed.1 before (inv.verify passed) nonblock
  | sendIrq msgq wrok msg prio reached =>
    simp only [step, nxmqSendIrq]
    split
    · exact ⟨sys, rfl, inv⟩
    · rename_i passed
      have verified := inv.verify passed
      exact inv.doSend roomy verified.1 verified.2 reached
  | receive task msgq rdok nonblock msglen =>
    have before : EmptyHanded (sys.phase task) := by rw [allowed.2]; exact fun _ => rfl
    refine ⟨_, rfl, ?_⟩
    simp only [nxmqReceive]
    split
    · exact inv.move _ before (fun _ => rfl) trivial
    · exact inv.waitReceive allowed.1 before nonblock
  | resume task nonblock allocated reached => exact inv.resume allowed.1 allowed.2 roomy
  | waitIrq wtcb errcode =>
    obtain ⟨next, ended, waits, books⟩ := inv.waits.waitIrq wtcb errcode
    exact ⟨next, ended, inv.same waits books⟩
  | notify msgq ntpid =>
    refine ⟨_, rfl, inv.setQueue rfl ?_⟩
    exact (inv.books msgq).congr (sys.queue msgq).nwait ntpid

theorem waitIrq_phase {wtcb : Nat} {errcode : Errno} {next : Sys κ}
    (ended : nxmqWaitIrq sys wtcb errcode = some next) : next.phase = sys.phase := by
  rw [nxmqWaitIrq] at ended
  split at ended
  · cases ended
    rfl
  · split at ended
    · cases ended
      rfl
    · cases ended

theorem wake_phase {wait : Wait} {next : Sys κ} (woken : wake sys wait msgq = some next) :
    next.phase = sys.phase := by
  rw [wake] at woken
  split at woken
  · split at woken
    · cases woken
      rfl
    · cases woken
  · cases woken
    rfl

theorem doSend_phase {msg : List UInt8} {prio : Nat} {reached : Bool} {next : Sys κ}
    (sent : nxmqDoSend maxBytes sys msgq msg prio reached = some next) :
    next.phase = sys.phase := by
  obtain ⟨notified, told, woken⟩ := bind_eq_some_iff.mp sent
  rw [wake_phase woken]
  rw [notify] at told
  split at told
  · cases told
    rfl
  · split at told
    · have same := waitIrq_phase told
      exact same
    · cases told
      rfl

/-- A message that a task has after a step and did not have before was the first of its queue. -/
def TakesFirst (sys next : Sys κ) : Prop :=
  ∀ task msgq mqmsg, next.phase task = .doReceive msgq mqmsg →
    sys.phase task = .doReceive msgq mqmsg ∨ ∃ rest, (sys.queue msgq).msglist = mqmsg :: rest

theorem takesFirst_update {next : Sys κ} {phase : Phase κ}
    (moved : next.phase = update sys.phase task phase)
    (after : EmptyHanded phase) : TakesFirst sys next := by
  intro other msgq mqmsg has
  rw [moved] at has
  rw [update_apply] at has
  split_ifs at has with same
  · have absent := after msgq
    rw [has, inHand, if_pos rfl] at absent
    cases absent
  · exact Or.inl has

omit [DecidableEq κ] in
theorem takesFirst_same {next : Sys κ} (same : next.phase = sys.phase) : TakesFirst sys next := by
  intro other msgq mqmsg has
  rw [same] at has
  exact Or.inl has

theorem takesFirst_waitReceive (sys : Sys κ) (task : Nat) (msgq : κ) (nonblock : Bool) :
    TakesFirst sys (nxmqWaitReceive sys task msgq nonblock) := by
  rw [nxmqWaitReceive]
  split
  · rename_i newmsg rest first
    intro other queue mqmsg has
    simp only [setPhase, setQueue, update_apply] at has
    split_ifs at has with same
    · cases has
      exact Or.inr ⟨rest, first⟩
    · exact Or.inl has
  · split
    · exact takesFirst_update rfl fun _ => rfl
    · exact @takesFirst_update _ _ _ task _ (.waitReceive msgq) rfl fun _ => rfl

theorem takesFirst_waitSend (sys : Sys κ) (task : Nat) (msgq : κ) (msg : List UInt8) (prio : Nat)
    (nonblock : Bool) : TakesFirst sys (nxmqWaitSend sys task msgq msg prio nonblock) := by
  rw [nxmqWaitSend]
  split
  · split
    · exact takesFirst_update rfl fun _ => rfl
    · exact @takesFirst_update _ _ _ task _ (.waitSend msgq msg prio) rfl fun _ => rfl
  · exact takesFirst_update rfl fun _ => rfl

theorem takesFirst_resume {nonblock allocated reached : Bool} {next : Sys κ}
    (resumed : resume maxBytes sys task nonblock allocated reached = some next) :
    TakesFirst sys next := by
  rw [Mqueue.resume] at resumed
  split at resumed
  · cases resumed
  · split at resumed
    · cases resumed
      exact takesFirst_update rfl fun _ => rfl
    · cases resumed
      exact takesFirst_waitSend sys task _ _ _ false
  · split at resumed
    · exact takesFirst_update (doSend_phase resumed) fun _ => rfl
    · cases resumed
      exact takesFirst_update rfl fun _ => rfl
  · split at resumed
    · cases resumed
      exact takesFirst_update rfl fun _ => rfl
    · cases resumed
      exact takesFirst_waitReceive sys task _ nonblock
  · exact takesFirst_update (wake_phase resumed) fun _ => rfl

theorem takesFirst_step {op : Op κ} {next : Sys κ} (stepped : step maxBytes sys op = some next) :
    TakesFirst sys next := by
  cases op with
  | send task msgq wrok nonblock msg prio =>
    cases stepped
    simp only [nxmqSend]
    split
    · exact takesFirst_update rfl fun _ => rfl
    · exact takesFirst_waitSend sys task msgq msg prio nonblock
  | sendIrq msgq wrok msg prio reached =>
    simp only [step, nxmqSendIrq] at stepped
    split at stepped
    · cases stepped
      exact takesFirst_same rfl
    · exact takesFirst_same (doSend_phase stepped)
  | receive task msgq rdok nonblock msglen =>
    cases stepped
    simp only [nxmqReceive]
    split
    · exact takesFirst_update rfl fun _ => rfl
    · exact takesFirst_waitReceive sys task msgq nonblock
  | resume task nonblock allocated reached => exact takesFirst_resume stepped
  | waitIrq wtcb errcode => exact takesFirst_same (waitIrq_phase stepped)
  | notify msgq ntpid =>
    cases stepped
    exact takesFirst_same rfl

/-- The queue delivers its messages. -/
structure Delivers (maxBytes : Nat) (sys : Sys κ) (msgq : κ) : Prop where
  /-- Each message that was sent is received, in the hand of a task that is receiving it, or in the
  list, and only in one of these places. -/
  once : ((sys.queue msgq).received.map Received.id ++ ((hand sys.phase msgq).map Message.id ++
    (sys.queue msgq).msglist.map Message.id)).Perm (List.range (sys.queue msgq).sent.length)
  /-- It is received with its own priority, bytes and length. -/
  intact : ∀ got ∈ (sys.queue msgq).received,
    (sys.queue msgq).sent[got.id]? = some ⟨got.prio, got.ubuffer⟩ ∧
      got.rcvmsglen = got.ubuffer.length
  /-- A step that takes a message takes one of the highest priority, and among those the one that
  was sent first. -/
  best : ∀ op next task mqmsg, step maxBytes sys op = some next →
    next.phase task = .doReceive msgq mqmsg → sys.phase task ≠ .doReceive msgq mqmsg →
    mqmsg ∈ (sys.queue msgq).msglist ∧ ∀ other ∈ (sys.queue msgq).msglist,
      other = mqmsg ∨ other.priority < mqmsg.priority ∨
        (other.priority = mqmsg.priority ∧ mqmsg.id < other.id)
  nmsgs : (sys.queue msgq).nmsgs = (sys.queue msgq).msglist.length
  /-- `nwaitnotempty` and `nwaitnotfull` are the numbers of tasks in those states. -/
  nwait : ∀ wait, (sys.queue msgq).nwait wait = Set.ncard
    {task | (sys.tcb task).taskState = .waiting wait ∧ (sys.tcb task).msgwaitq = some msgq}

theorem Waits.ncard (waits : Waits sys) (wait : Wait) (msgq : κ) : waitCount sys wait msgq =
    Set.ncard {task | (sys.tcb task).taskState = .waiting wait ∧
      (sys.tcb task).msgwaitq = some msgq} := by
  have tasks : {task | (sys.tcb task).taskState = .waiting wait ∧
      (sys.tcb task).msgwaitq = some msgq} =
      ((sys.waiting wait).filter fun task => (sys.tcb task).msgwaitq = some msgq).toFinset := by
    ext task
    simp [waits.listed]
  rw [tasks, Set.ncard_coe_finset, toFinset_card_of_nodup ((waits.distinct wait).filter _),
    waitCount, countP_eq_length_filter]

theorem Inv.delivers (inv : Inv maxBytes sys) (msgq : κ) : Delivers maxBytes sys msgq := by
  have books := inv.books msgq
  refine ⟨books.once, books.delivered, ?_, books.count, fun wait => ?_⟩
  · intro op next task mqmsg stepped has hadNot
    obtain ⟨rest, first⟩ := (takesFirst_step stepped task msgq mqmsg has).resolve_left hadNot
    have order := books.order
    rw [first] at order ⊢
    refine ⟨mem_cons_self, fun other mem => ?_⟩
    rcases mem_cons.mp mem with rfl | later
    · exact Or.inl rfl
    · exact Or.inr ((pairwise_cons.mp order).1 other later)
  · rw [inv.waits.counted, inv.waits.ncard]

/-- No task is in a call, no task waits, and the queues have just been created. -/
structure Fresh (maxBytes : Nat) (sys : Sys κ) : Prop where
  queues : ∀ msgq, (sys.queue msgq).msglist = [] ∧ (sys.queue msgq).nmsgs = 0 ∧
    (∀ wait, (sys.queue msgq).nwait wait = 0) ∧ (sys.queue msgq).sent = [] ∧
    (sys.queue msgq).received = [] ∧ (sys.queue msgq).maxmsgsize < 2 ^ lenWidth maxBytes
  tasks : ∀ task, sys.phase task = .idle ∧ (sys.tcb task).taskState = .ready
  lists : ∀ wait, sys.waiting wait = []

theorem inv_of_fresh (fresh : Fresh maxBytes sys) : Inv maxBytes sys := by
  have nobody : ∀ wait task, task ∉ sys.waiting wait := by
    intro wait task
    rw [fresh.lists wait]
    exact not_mem_nil
  refine ⟨⟨fun wait task => ?_, fun wait => ?_, fun wait task mem => absurd mem (nobody wait task),
    fun wait task mem => absurd mem (nobody wait task), fun wait msgq => ?_⟩, fun msgq => ?_,
    fun task => ?_⟩
  · rw [(fresh.tasks task).2]
    exact iff_of_false (nobody wait task) (fun same => by cases same)
  · rw [fresh.lists wait]
    exact nodup_nil
  · rw [(fresh.queues msgq).2.2.1, waitCount, fresh.lists wait]
    rfl
  · obtain ⟨msglist, nmsgs, -, sent, received, fits⟩ := fresh.queues msgq
    have empty : hand sys.phase msgq = [] := by
      refine filterMap_eq_nil_iff.mpr fun task _ => ?_
      rw [comp_apply, (fresh.tasks task).1]
      rfl
    rw [empty]
    refine ⟨?_, ?_, ?_, ?_, ?_, ?_, fits⟩
    · rw [whereabouts, received, msglist, sent]
      exact List.Perm.refl _
    · rw [msglist]
      exact fun _ mem => absurd mem not_mem_nil
    · rw [received]
      exact fun _ mem => absurd mem not_mem_nil
    · rw [msglist]
      exact List.Pairwise.nil
    · rw [nmsgs, msglist]
      rfl
    · rw [nmsgs]
      decide
  · rw [(fresh.tasks task).1]
    trivial

/-- In every run of any number of tasks and queues in which no message is added to a queue whose
counter is at the largest value of `int16_t`, every step succeeds and every queue delivers its
messages. -/
theorem messages_delivered (fresh : Fresh maxBytes sys) {ops : List (Op κ)}
    (admitted : Run.Admitted (step maxBytes) (fun sys op => Allowed sys op ∧ Roomy sys op)
      sys ops) :
    ∃ final, Run.run (step maxBytes) sys ops = some final ∧
      ∀ msgq, Delivers maxBytes final msgq := by
  obtain ⟨final, performed, inv⟩ := Run.run_invariant inv_step (inv_of_fresh fresh) admitted
  exact ⟨final, performed, inv.delivers⟩

/-- One queue for at most the largest number of messages, and tasks of one priority. -/
def oneQueue : Sys Unit where
  queue := fun _ => ⟨[], 0x7fff, 0, fun _ => 0, 4, none, [], []⟩
  waiting := fun _ => []
  tcb := fun _ => ⟨.ready, none, .ok, 100⟩
  phase := fun _ => .idle
  ret := fun _ => 0

theorem oneQueue_fresh : Fresh 32 oneQueue := by
  have fits : 4 < 2 ^ lenWidth 32 := by decide
  exact ⟨fun _ => ⟨rfl, rfl, fun _ => rfl, rfl, rfl, fits⟩, fun _ => ⟨rfl, rfl⟩, fun _ => rfl⟩

/-- A task waits for a message. Another task sends one, which wakes it, and an interrupt handler
sends a more important one before it runs. -/
def overtaken : List (Op Unit) :=
  [.receive 1 () true false 4, .send 2 () true false [7, 8] 5, .resume 2 false true false,
    .sendIrq () true [9] 6 false, .resume 1 false true false, .resume 1 false true false]

/-- The more important message is received first. -/
theorem messages_delivered_overtaken : ∃ final,
    Run.run (step 32) oneQueue overtaken = some final ∧
      (final.queue ()).received = [⟨1, 1, 6, [9]⟩] ∧ ∀ msgq, Delivers 32 final msgq := by
  have admitted : Run.Admitted (step 32) (fun sys op => Allowed sys op ∧ Roomy sys op)
      oneQueue overtaken := by decide
  obtain ⟨final, performed, delivers⟩ := messages_delivered oneQueue_fresh admitted
  have value : (Run.run (step 32) oneQueue overtaken).map (fun sys => (sys.queue ()).received) =
      some [⟨1, 1, 6, [9]⟩] := rfl
  rw [performed] at value
  exact ⟨final, performed, Option.some.inj value, delivers⟩

/-- A task sends some empty messages, and an interrupt handler sends one more. -/
def fill : Nat → List (Op Unit)
  | 0 => [.sendIrq () true [] 0 false]
  | count + 1 => .send 1 () true false [] 0 :: .resume 1 false true false :: fill count

/-- A queue with some messages for which no task waits, while the sending task is in no call. -/
structure Filled (count : Nat) (sys : Sys Unit) : Prop where
  sender : (sys.tcb 1).taskState = .ready ∧ sys.phase 1 = .idle
  length : (sys.queue ()).msglist.length = count
  nmsgs : (sys.queue ()).nmsgs = count
  maxmsgs : (sys.queue ()).maxmsgs = 0x7fff
  nwait : (sys.queue ()).nwait .notEmpty = 0
  ntpid : (sys.queue ()).ntpid = none

theorem insertMessage_length (queue : Msgq) (msg : List UInt8) (prio : Nat) :
    (insertMessage maxBytes queue msg prio).msglist.length = queue.msglist.length + 1 :=
  (Stable.insert_perm _ _ _ _).length_eq

theorem Filled.doSend {count : Nat} {sys : Sys Unit} (filled : Filled count sys) :
    nxmqDoSend 32 sys () [] 0 false =
      some (sys.setQueue () (insertMessage 32 (sys.queue ()) [] 0)) := by
  have ntpid : (insertMessage 32 (sys.queue ()) [] 0).ntpid = none := filled.ntpid
  have nwait : (insertMessage 32 (sys.queue ()) [] 0).nwait .notEmpty = 0 := filled.nwait
  rw [nxmqDoSend, notify, setQueue_same, ntpid]
  dsimp only [bind_some]
  rw [wake, setQueue_same, nwait]
  rfl

theorem verifySend_empty (queue : Msgq) : nxmqVerifySend queue true [] 0 = 0 := by
  simp [nxmqVerifySend]

theorem Filled.send {count : Nat} {sys : Sys Unit} (filled : Filled count sys)
    (room : count < 0x7fff) :
    step 32 sys (.send 1 () true false [] 0) = some (sys.setPhase 1 (.doSend () [] 0)) := by
  have notFull : ¬(sys.queue ()).maxmsgs ≤ (sys.queue ()).nmsgs := by
    rw [filled.maxmsgs, filled.nmsgs]
    omega
  rw [step, nxmqSend, verifySend_empty, if_neg (by decide), nxmqWaitSend, if_neg notFull]

theorem Filled.resume {count : Nat} {sys : Sys Unit} (filled : Filled count sys)
    (room : count < 0x7fff) :
    ∃ next, step 32 (sys.setPhase 1 (.doSend () [] 0)) (.resume 1 false true false) = some next ∧
      Filled (count + 1) next := by
  have ended : Filled count ((sys.setPhase 1 (.doSend () [] 0)).finish 1 0) :=
    ⟨⟨filled.sender.1, setPhase_same (sys.setPhase 1 (.doSend () [] 0)) 1 .idle⟩, filled.length,
      filled.nmsgs, filled.maxmsgs, filled.nwait, filled.ntpid⟩
  have sends : step 32 (sys.setPhase 1 (.doSend () [] 0)) (.resume 1 false true false) =
      nxmqDoSend 32 ((sys.setPhase 1 (.doSend () [] 0)).finish 1 0) () [] 0 false := by
    rfl
  refine ⟨_, sends.trans ended.doSend, ?_⟩
  refine ⟨ended.sender, ?_, ?_, ?_, ?_, ?_⟩
  · rw [setQueue_same, insertMessage_length, ended.length]
  · change int16 (_ + 1) = _
    rw [ended.nmsgs, int16_of_narrow (by simp only [Narrow, semValueMax]; omega)]
    rfl
  · exact ended.maxmsgs
  · exact ended.nwait
  · exact ended.ntpid

/-- The task fills the queue to its limit, and the counter of the next message wraps around. -/
theorem run_fill (count : Nat) : ∀ {before : Nat} {sys : Sys Unit}, Filled before sys →
    before + count = 0x7fff →
    Admitted (step 32) Allowed sys (fill count) ∧
      ∃ final, run (step 32) sys (fill count) = some final ∧
        (final.queue ()).nmsgs = -0x8000 ∧ (final.queue ()).msglist.length = 0x8000 := by
  induction count with
  | zero =>
    intro before sys filled total
    have last : step 32 sys (.sendIrq () true [] 0 false) =
        some (sys.setQueue () (insertMessage 32 (sys.queue ()) [] 0)) := by
      exact filled.doSend
    refine ⟨⟨trivial, fun next _ => trivial⟩,
      sys.setQueue () (insertMessage 32 (sys.queue ()) [] 0), ?_, ?_, ?_⟩
    · rw [fill, run, last]
      rfl
    · change int16 (_ + 1) = _
      rw [filled.nmsgs, show before = 0x7fff from total]
      rfl
    · rw [setQueue_same, insertMessage_length, filled.length, show before = 0x7fff from total]
  | succ count ih =>
    intro before sys filled total
    have first := filled.send (by omega)
    obtain ⟨next, second, more⟩ := filled.resume (by omega)
    obtain ⟨admitted, final, performed, wrapped⟩ := ih more (by omega)
    refine ⟨⟨⟨⟨by decide, by decide, filled.sender.1⟩, filled.sender.2⟩, fun mid reached => ?_⟩,
      final, ?_, wrapped⟩
    · rw [first] at reached
      cases reached
      refine ⟨⟨⟨by decide, by decide, filled.sender.1⟩, ?_⟩, fun last reached => ?_⟩
      · exact fun same => by cases same
      · rw [second] at reached
        cases reached
        exact admitted
    · rw [fill, run, first]
      dsimp only [bind_some]
      rw [run, second]
      exact performed

/-- A queue for 32767 messages that is full has 32768 messages after an interrupt handler has sent
one more, and `nmsgs` is -32768. -/
theorem messages_miscounted : Fresh 32 oneQueue ∧
    Run.Admitted (step 32) Allowed oneQueue (fill 0x7fff) ∧
      ∃ final, Run.run (step 32) oneQueue (fill 0x7fff) = some final ∧
        (final.queue ()).nmsgs = -0x8000 ∧ (final.queue ()).msglist.length = 0x8000 := by
  have empty : Filled 0 oneQueue := ⟨⟨rfl, rfl⟩, rfl, rfl, rfl, rfl, rfl⟩
  exact ⟨oneQueue_fresh, run_fill 0x7fff empty rfl⟩

end Chewie.Sched.Mqueue
