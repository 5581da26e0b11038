import Chewie.Lib.Stable
import Chewie.Sched.Sem.Model

/-!
# Message queues

A message queue keeps its messages in the order of priority. A task that finds it full or empty
waits in a list that it shares with the tasks that wait for other queues, until a message is taken
or added, a signal arrives or its time is over, and then looks at the queue again. Between the
decision that a message may be sent and the sending, and between the removal of a message and its
copy to the user, only interrupt handlers run in the firmware; here any other step can come between.
The record of what was sent and received stands beside the state of the code.
-/

namespace Chewie.Sched.Mqueue

open Function

/-- What a task can wait for at a queue. -/
inductive Wait where
  | notEmpty
  | notFull
deriving DecidableEq

/-- Where a task is. -/
inductive MqState where
  | ready
  | waiting (wait : Wait)
deriving DecidableEq

/-- `struct mqueue_msg_s`. -/
structure Message where
  /-- How many messages were sent to the queue before, which the code does not keep. -/
  id : Nat
  priority : Nat
  msglen : Nat
  mail : List UInt8
deriving DecidableEq

/-- What a sender gave to the queue. -/
structure Sent where
  prio : Nat
  msg : List UInt8

/-- What a receiver got. -/
structure Received where
  id : Nat
  rcvmsglen : Nat
  prio : Nat
  ubuffer : List UInt8

/-- `struct mqueue_inode_s`. -/
structure Msgq where
  msglist : List Message
  maxmsgs : Int
  nmsgs : Int
  /-- `nwaitnotempty` and `nwaitnotfull`, the numbers of waiting tasks. -/
  nwait : Wait → Int
  maxmsgsize : Nat
  ntpid : Option Nat
  sent : List Sent
  received : List Received

/-- The part of a task control block that message queues use. -/
structure Tcb (κ : Type) where
  taskState : MqState
  msgwaitq : Option κ
  pterrno : Errno
  schedPriority : Nat

/-- How far a task is in a call. -/
inductive Phase (κ : Type) where
  | idle
  | waitSend (msgq : κ) (msg : List UInt8) (prio : Nat)
  | doSend (msgq : κ) (msg : List UInt8) (prio : Nat)
  | waitReceive (msgq : κ)
  | doReceive (msgq : κ) (mqmsg : Message)
deriving DecidableEq

/-- The queues and tasks. -/
structure Sys (κ : Type) where
  queue : κ → Msgq
  /-- `g_waitingformqnotempty` and `g_waitingformqnotfull`, from the head. -/
  waiting : Wait → List Nat
  tcb : Nat → Tcb κ
  phase : Nat → Phase κ
  ret : Nat → Int

/-- The largest priority, `MQ_PRIO_MAX`. -/
def mqPrioMax : Nat := 255

/-- The number of bits of the fields for the length of a message, for a value of
`CONFIG_MQ_MAXMSGSIZE`. -/
def lenWidth (maxBytes : Nat) : Nat := if maxBytes < 256 then 8 else 16

def eperm : Int := 1

def eagain : Int := 11

def enomem : Int := 12

def einval : Int := 22

def emsgsize : Int := 122

variable {κ : Type} [DecidableEq κ]

/-- Change a queue. -/
def Sys.setQueue (sys : Sys κ) (msgq : κ) (queue : Msgq) : Sys κ :=
  { sys with queue := update sys.queue msgq queue }

theorem setQueue_same (sys : Sys κ) (msgq : κ) (queue : Msgq) :
    (sys.setQueue msgq queue).queue msgq = queue := by
  simp [Sys.setQueue]

/-- Change how far a task is. -/
def Sys.setPhase (sys : Sys κ) (task : Nat) (phase : Phase κ) : Sys κ :=
  { sys with phase := update sys.phase task phase }

omit [DecidableEq κ] in
theorem setPhase_same (sys : Sys κ) (task : Nat) (phase : Phase κ) :
    (sys.setPhase task phase).phase task = phase := by
  simp [Sys.setPhase]

/-- Return from a call. -/
def Sys.finish (sys : Sys κ) (task : Nat) (ret : Int) : Sys κ :=
  { sys.setPhase task .idle with ret := update sys.ret task ret }

/-- Change the number of tasks that wait for a queue, of type `int16_t`. -/
def Sys.setWait (sys : Sys κ) (msgq : κ) (wait : Wait) (count : Int) : Sys κ :=
  sys.setQueue msgq { sys.queue msgq with
    nwait := update (sys.queue msgq).nwait wait (int16 count) }

/-- Block a task in front of a queue. -/
def block (sys : Sys κ) (task : Nat) (wait : Wait) (msgq : κ) : Sys κ :=
  let sys := sys.setWait msgq wait ((sys.queue msgq).nwait wait + 1)
  let list := schedAddprioritized (fun other => (sys.tcb other).schedPriority) task
    (sys.waiting wait)
  { sys with
    tcb := update sys.tcb task
      { sys.tcb task with
        msgwaitq := some msgq, pterrno := .ok, taskState := .waiting wait }
    waiting := update sys.waiting wait list }

/-- Take a task that waits for a queue out of the list of waiting tasks. -/
def unblock (sys : Sys κ) (task : Nat) (wait : Wait) (msgq : κ) (errcode : Errno) : Sys κ :=
  let sys := sys.setWait msgq wait ((sys.queue msgq).nwait wait - 1)
  { sys with
    tcb := update sys.tcb task
      { sys.tcb task with msgwaitq := none, pterrno := errcode, taskState := .ready }
    waiting := update sys.waiting wait ((sys.waiting wait).erase task) }

/-- Wake the first task that waits for the queue, when the count says that there is one. A task that
is not found makes the code follow `NULL`. -/
def wake (sys : Sys κ) (wait : Wait) (msgq : κ) : Option (Sys κ) :=
  if 0 < (sys.queue msgq).nwait wait then
    match (sys.waiting wait).find? fun task => (sys.tcb task).msgwaitq = some msgq with
    | some btcb => some (unblock sys btcb wait msgq (sys.tcb btcb).pterrno)
    | none => none
  else some sys

/-- End the wait of a task with an error. -/
def nxmqWaitIrq (sys : Sys κ) (wtcb : Nat) (errcode : Errno) : Option (Sys κ) :=
  match (sys.tcb wtcb).taskState with
  | .ready => some sys
  | .waiting wait =>
    match (sys.tcb wtcb).msgwaitq with
    | some msgq => some (unblock sys wtcb wait msgq errcode)
    | none => none

/-- Verify the arguments of a send. The result is zero or a negative error. -/
def nxmqVerifySend (queue : Msgq) (wrok : Bool) (msg : List UInt8) (prio : Nat) : Int :=
  if mqPrioMax < prio then -einval
  else if !wrok then -eperm
  else if queue.maxmsgsize < msg.length then -emsgsize
  else 0

/-- Verify the arguments of a receive. -/
def nxmqVerifyReceive (queue : Msgq) (rdok : Bool) (msglen : Nat) : Int :=
  if !rdok then -eperm
  else if msglen < queue.maxmsgsize then -emsgsize
  else 0

/-- Wait until the queue is not full, to the point where the task stops or may send. -/
def nxmqWaitSend (sys : Sys κ) (task : Nat) (msgq : κ) (msg : List UInt8) (prio : Nat)
    (nonblock : Bool) : Sys κ :=
  if (sys.queue msgq).maxmsgs ≤ (sys.queue msgq).nmsgs then
    if nonblock then sys.finish task (-eagain)
    else block (sys.setPhase task (.waitSend msgq msg prio)) task .notFull msgq
  else sys.setPhase task (.doSend msgq msg prio)

/-- Put a message into the list. -/
def insertMessage (maxBytes : Nat) (queue : Msgq) (msg : List UInt8) (prio : Nat) : Msgq :=
  let mqmsg : Message :=
    { id := queue.sent.length
      priority := prio % 2 ^ 8
      msglen := msg.length % 2 ^ lenWidth maxBytes
      mail := msg }
  { queue with
    msglist := Stable.insert Message.priority prio mqmsg queue.msglist
    nmsgs := int16 (queue.nmsgs + 1)
    sent := queue.sent ++ [⟨prio, msg⟩] }

/-- Notify the task that asked for it. `reached` tells that the signal ends a wait of the task. -/
def notify (sys : Sys κ) (msgq : κ) (reached : Bool) : Option (Sys κ) :=
  match (sys.queue msgq).ntpid with
  | none => some sys
  | some pid =>
    let sys := sys.setQueue msgq { sys.queue msgq with ntpid := none }
    if reached then nxmqWaitIrq sys pid .eintr else some sys

/-- Send a message for which there is a buffer. -/
def nxmqDoSend (maxBytes : Nat) (sys : Sys κ) (msgq : κ) (msg : List UInt8) (prio : Nat)
    (reached : Bool) : Option (Sys κ) :=
  let sys := sys.setQueue msgq (insertMessage maxBytes (sys.queue msgq) msg prio)
  (notify sys msgq reached).bind fun sys => wake sys .notEmpty msgq

/-- Take the first message, to the point where the task stops or has it. -/
def nxmqWaitReceive (sys : Sys κ) (task : Nat) (msgq : κ) (nonblock : Bool) : Sys κ :=
  match (sys.queue msgq).msglist with
  | newmsg :: rest =>
    let sys := sys.setQueue msgq { sys.queue msgq with
      msglist := rest, nmsgs := int16 ((sys.queue msgq).nmsgs - 1) }
    sys.setPhase task (.doReceive msgq newmsg)
  | [] =>
    if nonblock then sys.finish task (-eagain)
    else block (sys.setPhase task (.waitReceive msgq)) task .notEmpty msgq

/-- Give a message to the user. -/
def nxmqDoReceive (sys : Sys κ) (task : Nat) (msgq : κ) (mqmsg : Message) : Option (Sys κ) :=
  let rcvmsglen := mqmsg.msglen
  let got : Received :=
    ⟨mqmsg.id, rcvmsglen, mqmsg.priority, mqmsg.mail.take rcvmsglen⟩
  let sys := sys.setQueue msgq { sys.queue msgq with
    received := (sys.queue msgq).received ++ [got] }
  wake (sys.finish task rcvmsglen) .notFull msgq

/-- `nxmq_send` of a task, up to `nxmq_do_send`. -/
def nxmqSend (sys : Sys κ) (task : Nat) (msgq : κ) (wrok nonblock : Bool) (msg : List UInt8)
    (prio : Nat) : Sys κ :=
  let verified := nxmqVerifySend (sys.queue msgq) wrok msg prio
  if verified < 0 then sys.finish task verified
  else nxmqWaitSend sys task msgq msg prio nonblock

/-- `nxmq_send` of an interrupt handler, which does not look whether the queue is full. -/
def nxmqSendIrq (maxBytes : Nat) (sys : Sys κ) (msgq : κ) (wrok : Bool) (msg : List UInt8)
    (prio : Nat) (reached : Bool) : Option (Sys κ) :=
  if nxmqVerifySend (sys.queue msgq) wrok msg prio < 0 then some sys
  else nxmqDoSend maxBytes sys msgq msg prio reached

/-- `nxmq_receive`, up to `nxmq_do_receive`. -/
def nxmqReceive (sys : Sys κ) (task : Nat) (msgq : κ) (rdok nonblock : Bool)
    (msglen : Nat) : Sys κ :=
  let verified := nxmqVerifyReceive (sys.queue msgq) rdok msglen
  if verified < 0 then sys.finish task verified
  else nxmqWaitReceive sys task msgq nonblock

/-- A task in a call runs again. `nonblock` is the flag of its descriptor now, and `allocated` tells
that a sender gets a buffer. -/
def resume (maxBytes : Nat) (sys : Sys κ) (task : Nat) (nonblock allocated reached : Bool) :
    Option (Sys κ) :=
  match sys.phase task with
  | .idle => none
  | .waitSend msgq msg prio =>
    if (sys.tcb task).pterrno ≠ .ok then
      some (sys.finish task (-errnoValue (sys.tcb task).pterrno))
    else some (nxmqWaitSend sys task msgq msg prio false)
  | .doSend msgq msg prio =>
    if allocated then nxmqDoSend maxBytes (sys.finish task 0) msgq msg prio reached
    else some (sys.finish task (-enomem))
  | .waitReceive msgq =>
    if (sys.tcb task).pterrno ≠ .ok then
      some (sys.finish task (-errnoValue (sys.tcb task).pterrno))
    else some (nxmqWaitReceive sys task msgq nonblock)
  | .doReceive msgq mqmsg => nxmqDoReceive sys task msgq mqmsg

/-- The steps of the queues and their users. -/
inductive Op (κ : Type) where
  | send (task : Nat) (msgq : κ) (wrok nonblock : Bool) (msg : List UInt8) (prio : Nat)
  | sendIrq (msgq : κ) (wrok : Bool) (msg : List UInt8) (prio : Nat) (reached : Bool)
  | receive (task : Nat) (msgq : κ) (rdok nonblock : Bool) (msglen : Nat)
  | resume (task : Nat) (nonblock allocated reached : Bool)
  | waitIrq (wtcb : Nat) (errcode : Errno)
  | notify (msgq : κ) (ntpid : Option Nat)

def step (maxBytes : Nat) (sys : Sys κ) : Op κ → Option (Sys κ)
  | .send task msgq wrok nonblock msg prio =>
    some (nxmqSend sys task msgq wrok nonblock msg prio)
  | .sendIrq msgq wrok msg prio reached => nxmqSendIrq maxBytes sys msgq wrok msg prio reached
  | .receive task msgq rdok nonblock msglen =>
    some (nxmqReceive sys task msgq rdok nonblock msglen)
  | .resume task nonblock allocated reached =>
    resume maxBytes sys task nonblock allocated reached
  | .waitIrq wtcb errcode => nxmqWaitIrq sys wtcb errcode
  | .notify msgq ntpid => some (sys.setQueue msgq { sys.queue msgq with ntpid := ntpid })

/-- The number of task identifiers, of type `pid_t`. -/
def pidCount : Nat := 2 ^ 15

/-- The task can execute. The idle task, number zero, calls nothing that waits. -/
def Runs (sys : Sys κ) (task : Nat) : Prop :=
  0 < task ∧ task < pidCount ∧ (sys.tcb task).taskState = .ready

instance decidableRuns (sys : Sys κ) (task : Nat) : Decidable (Runs sys task) :=
  inferInstanceAs (Decidable (0 < task ∧ task < pidCount ∧ (sys.tcb task).taskState = .ready))

/-- Which steps can happen: a task that waits does nothing, and calls do not overlap. -/
def Allowed (sys : Sys κ) : Op κ → Prop
  | .send task _ _ _ _ _ => Runs sys task ∧ sys.phase task = .idle
  | .receive task _ _ _ _ => Runs sys task ∧ sys.phase task = .idle
  | .resume task _ _ _ => Runs sys task ∧ sys.phase task ≠ .idle
  | _ => True

instance decidableAllowed (sys : Sys κ) : ∀ op : Op κ, Decidable (Allowed sys op)
  | .send .. | .receive .. | .resume .. => by dsimp only [Allowed]; infer_instance
  | .sendIrq .. | .waitIrq .. | .notify .. => isTrue trivial

end Chewie.Sched.Mqueue
