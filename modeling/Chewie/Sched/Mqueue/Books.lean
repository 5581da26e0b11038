import Chewie.Lib.Holders
import Chewie.Sched.Mqueue.Model
import Chewie.Sched.Sem.Count

/-!
# The messages of one queue

`Books` relates the messages of a queue to what was sent and received: the messages received, those
in the hands of tasks that have taken them and those in the list are all messages that were sent,
each once and unchanged, and the list is in the order of priority and sending. Sending, taking and
delivering a message keep the books.
-/

namespace Chewie.Sched.Mqueue

open List

/-- A message with these fields is what was sent under its number. -/
def Genuine (sent : List Sent) (id prio len : Nat) (data : List UInt8) : Prop :=
  sent[id]? = some ⟨prio, data⟩ ∧ len = data.length

/-- The numbers of the messages that were sent, by where they are now. -/
def whereabouts (queue : Msgq) (hand : List Message) : List Nat :=
  queue.received.map Received.id ++ (hand.map Message.id ++ queue.msglist.map Message.id)

/-- The messages of a queue, of which `hand` are taken from the list and not delivered yet, are
those that were sent. -/
structure Books (maxBytes : Nat) (queue : Msgq) (hand : List Message) : Prop where
  once : (whereabouts queue hand).Perm (List.range queue.sent.length)
  kept : ∀ mqmsg ∈ hand ++ queue.msglist,
    Genuine queue.sent mqmsg.id mqmsg.priority mqmsg.msglen mqmsg.mail
  delivered : ∀ got ∈ queue.received,
    Genuine queue.sent got.id got.prio got.rcvmsglen got.ubuffer
  order : queue.msglist.Pairwise (Stable.Before Message.priority Message.id)
  count : queue.nmsgs = queue.msglist.length
  narrow : queue.nmsgs ≤ semValueMax
  fits : queue.maxmsgsize < 2 ^ lenWidth maxBytes

variable {maxBytes : Nat} {queue : Msgq} {hand : List Message}

theorem Genuine.append {sent : List Sent} {id prio len : Nat} {data : List UInt8}
    (genuine : Genuine sent id prio len data) (more : List Sent) :
    Genuine (sent ++ more) id prio len data := by
  obtain ⟨found, size⟩ := genuine
  have inside : id < sent.length := (List.getElem?_eq_some_iff.mp found).1
  exact ⟨(List.getElem?_append_left inside).trans found, size⟩

section

variable (books : Books maxBytes queue hand)

include books

theorem Books.perm {other : List Message} (perm : hand.Perm other) :
    Books maxBytes queue other := by
  refine ⟨?_, fun mqmsg mem => ?_, books.delivered, books.order, books.count, books.narrow,
    books.fits⟩
  · have moved : (whereabouts queue other).Perm (whereabouts queue hand) :=
      ((perm.symm.map Message.id).append_right _).append_left _
    exact moved.trans books.once
  · exact books.kept mqmsg ((perm.append_right _).mem_iff.mpr mem)

theorem Books.congr (nwait : Wait → Int) (ntpid : Option Nat) :
    Books maxBytes { queue with nwait := nwait, ntpid := ntpid } hand :=
  ⟨books.once, books.kept, books.delivered, books.order, books.count, books.narrow, books.fits⟩

theorem Books.earlier {mqmsg : Message} (mem : mqmsg ∈ queue.msglist) :
    mqmsg.id < queue.sent.length := by
  have genuine := books.kept mqmsg (mem_append_right hand mem)
  exact (List.getElem?_eq_some_iff.mp genuine.1).1

/-- Sending a message keeps the books, unless the counter is at its largest value. -/
theorem Books.insert {msg : List UInt8} {prio : Nat} (room : queue.nmsgs < semValueMax)
    (low : prio ≤ mqPrioMax) (short : msg.length < 2 ^ lenWidth maxBytes) :
    Books maxBytes (insertMessage maxBytes queue msg prio) hand := by
  have priority : prio % 2 ^ 8 = prio := Nat.mod_eq_of_lt (by simp only [mqPrioMax] at low; omega)
  have length : msg.length % 2 ^ lenWidth maxBytes = msg.length := Nat.mod_eq_of_lt short
  have count := books.count
  simp only [insertMessage, priority, length]
  generalize new : (⟨queue.sent.length, prio, msg.length, msg⟩ : Message) = mqmsg
  have rank : mqmsg.priority = prio := by rw [← new]
  have perm := Stable.insert_perm Message.priority prio mqmsg queue.msglist
  have larger : int16 (queue.nmsgs + 1) = queue.nmsgs + 1 := by
    refine int16_of_narrow ?_
    simp only [Narrow, semValueMax] at room ⊢
    omega
  refine ⟨?_, fun one mem => ?_, fun got mem => (books.delivered got mem).append _, ?_, ?_, ?_,
    books.fits⟩
  · simp only [whereabouts, length_append, length_singleton, range_succ]
    have inside := ((perm.map Message.id).append_left (hand.map Message.id)).append_left
      (queue.received.map Received.id)
    refine inside.trans ?_
    rw [← new]
    have front : (queue.received.map Received.id ++ (hand.map Message.id ++
        queue.sent.length :: queue.msglist.map Message.id)).Perm
        (queue.sent.length :: whereabouts queue hand) := by
      rw [← append_assoc, whereabouts, ← append_assoc]
      exact perm_middle
    exact front.trans ((books.once.cons _).trans (perm_append_singleton _ _).symm)
  · rcases mem_append.mp mem with held | listed
    · exact (books.kept one (mem_append_left _ held)).append _
    · rcases mem_cons.mp (perm.mem_iff.mp listed) with rfl | old
      · rw [← new]
        exact ⟨getElem?_concat_length, rfl⟩
      · exact (books.kept one (mem_append_right _ old)).append _
  · rw [← rank]
    refine Stable.insert_ordered books.order fun other mem => ?_
    rw [← new]
    exact books.earlier mem
  · rw [larger, perm.length_eq, count]
    rfl
  · dsimp only
    omega

theorem Books.take {newmsg : Message} {rest : List Message} (first : queue.msglist = newmsg :: rest) :
    Books maxBytes { queue with msglist := rest, nmsgs := int16 (queue.nmsgs - 1) }
      (newmsg :: hand) := by
  have narrow := books.narrow
  have count := books.count
  rw [first, length_cons] at count
  have smaller : int16 (queue.nmsgs - 1) = queue.nmsgs - 1 := by
    refine int16_of_narrow ?_
    simp only [Narrow, semValueMax] at narrow ⊢
    omega
  refine ⟨?_, fun one mem => books.kept one ?_, books.delivered, ?_, ?_, ?_, books.fits⟩
  · have once := books.once
    rw [whereabouts, first] at once
    refine Perm.trans (Perm.append_left _ ?_) once
    exact perm_middle.symm
  · rw [first]
    rcases mem_append.mp mem with held | listed
    · rcases mem_cons.mp held with rfl | old
      · exact mem_append_right hand mem_cons_self
      · exact mem_append_left _ old
    · exact mem_append_right hand (mem_cons_of_mem newmsg listed)
  · have order := books.order
    rw [first] at order
    exact (pairwise_cons.mp order).2
  · dsimp only
    omega
  · dsimp only
    omega

end

theorem Books.deliver {mqmsg : Message} (books : Books maxBytes queue (mqmsg :: hand)) :
    Books maxBytes { queue with received := queue.received ++
      [⟨mqmsg.id, mqmsg.msglen, mqmsg.priority, mqmsg.mail.take mqmsg.msglen⟩] } hand := by
  have genuine := books.kept mqmsg (mem_append_left _ mem_cons_self)
  refine ⟨?_, fun one mem => books.kept one (mem_cons_of_mem mqmsg mem), fun got mem => ?_,
    books.order, books.count, books.narrow, books.fits⟩
  · have once := books.once
    simpa [whereabouts] using once
  · rcases mem_append.mp mem with old | new
    · exact books.delivered got old
    · rw [mem_singleton.mp new, genuine.2, take_length]
      exact ⟨genuine.1, rfl⟩

end Chewie.Sched.Mqueue
