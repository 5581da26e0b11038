import Chewie.Lib.Links
import Chewie.Lib.Trace
import Chewie.Sched.Ready.Model

/-!
# Queues of linked nodes

The task lists of the scheduler are queues of type `dq_queue_t`, whose nodes are linked both ways
through fields of their own. The functions on them read and write these fields, and have no result
where they would follow a `NULL` pointer. They are compared with functions on lists, those on which
the models of the scheduler rest: any number of queues shares the nodes.
-/

namespace Chewie.Sched.Queue

open Function List Links Trace Ready

variable {κ : Type} [DecidableEq κ]

/-- The fields of the nodes and of the queues. -/
structure Mem (κ : Type) where
  flink : Nat → Option Nat
  blink : Nat → Option Nat
  head : κ → Option Nat
  tail : κ → Option Nat

section Functions

variable (m : Mem κ)

@[simp] def Mem.setFlink (node : Nat) (value : Option Nat) : Mem κ :=
  { m with flink := update m.flink node value }

@[simp] def Mem.setBlink (node : Nat) (value : Option Nat) : Mem κ :=
  { m with blink := update m.blink node value }

@[simp] def Mem.setHead (queue : κ) (value : Option Nat) : Mem κ :=
  { m with head := update m.head queue value }

@[simp] def Mem.setTail (queue : κ) (value : Option Nat) : Mem κ :=
  { m with tail := update m.tail queue value }

/-- `dq_addfirst`. -/
def dqAddfirst (node : Nat) (queue : κ) : Mem κ :=
  let m := (m.setBlink node none).setFlink node (m.head queue)
  match m.head queue with
  | none => (m.setHead queue (some node)).setTail queue (some node)
  | some first => (m.setBlink first (some node)).setHead queue (some node)

/-- `dq_addlast`. -/
def dqAddlast (node : Nat) (queue : κ) : Option (Mem κ) :=
  let m := (m.setFlink node none).setBlink node (m.tail queue)
  match m.head queue with
  | none => some ((m.setHead queue (some node)).setTail queue (some node))
  | some _ => (m.tail queue).map fun last =>
    (m.setFlink last (some node)).setTail queue (some node)

/-- `dq_rem`. -/
def dqRem (node : Nat) (queue : κ) : Mem κ :=
  let prev := m.blink node
  let next := m.flink node
  let m := match prev with
    | none => m.setHead queue next
    | some prev => m.setFlink prev next
  let m := match next with
    | none => m.setTail queue prev
    | some next => m.setBlink next prev
  (m.setFlink node none).setBlink node none

/-- `dq_remfirst`. -/
def dqRemfirst (queue : κ) : Option Nat × Mem κ :=
  match m.head queue with
  | none => (none, m)
  | some ret =>
    let m := match m.flink ret with
      | none => (m.setHead queue none).setTail queue none
      | some next => (m.setHead queue (some next)).setBlink next none
    (some ret, (m.setFlink ret none).setBlink ret none)

/-- The search of `sched_addprioritized`. There is no result when it runs out of fuel. -/
def searchNext (priority : Nat → Nat) (tcb : Nat) : Nat → Option Nat → Option (Option Nat)
  | 0, _ => none
  | _ + 1, none => some none
  | fuel + 1, some next =>
    if priority tcb ≤ priority next then searchNext priority tcb fuel (m.flink next)
    else some (some next)

/-- `sched_addprioritized`, with the priorities. -/
def addprioritized (priority : Nat → Nat) (fuel tcb : Nat) (list : κ) : Option (Bool × Mem κ) :=
  (searchNext m priority tcb fuel (m.head list)).map fun
    | none =>
      match m.tail list with
      | none => (true, (((m.setFlink tcb none).setBlink tcb none).setHead list (some tcb)).setTail
        list (some tcb))
      | some prev => (false, (((m.setFlink tcb none).setBlink tcb (some prev)).setFlink prev
        (some tcb)).setTail list (some tcb))
    | some next =>
      match m.blink next with
      | none => (true, (((m.setFlink tcb (some next)).setBlink tcb none).setBlink next
        (some tcb)).setHead list (some tcb))
      | some prev => (false, (((m.setFlink tcb (some next)).setBlink tcb (some prev)).setFlink prev
        (some tcb)).setBlink next (some tcb))

end Functions

/-- The links of a queue run through its list. -/
structure Holds (m : Mem κ) (queue : κ) (nodes : List Nat) : Prop where
  linked : Seg m.flink m.blink none nodes none
  head : m.head queue = nodes.head?
  tail : m.tail queue = nodes.getLast?
  distinct : nodes.Nodup

/-- Each queue holds its list, and no node is in two queues. -/
structure Threads (m : Mem κ) (lists : κ → List Nat) : Prop where
  holds : ∀ queue, Holds m queue (lists queue)
  apart : ∀ one two, one ≠ two → (lists one).Disjoint (lists two)

/-- What every insertion writes. -/
def Mem.splice (m : Mem κ) (prev next : Option Nat) (node : Nat) (queue : κ) : Mem κ where
  flink := setBack (update m.flink node next) prev (some node)
  blink := setBack (update m.blink node prev) next (some node)
  head := if prev = none then update m.head queue (some node) else m.head
  tail := if next = none then update m.tail queue (some node) else m.tail

/-- What every removal writes. -/
def Mem.cut (m : Mem κ) (prev next : Option Nat) (node : Nat) (queue : κ) : Mem κ where
  flink := update (setBack m.flink prev next) node none
  blink := update (setBack m.blink next prev) node none
  head := if prev = none then update m.head queue next else m.head
  tail := if next = none then update m.tail queue prev else m.tail

section Edits

variable {m : Mem κ} {lists : κ → List Nat} (threads : Threads m lists) {queue : κ}
  {front back : List Nat} {node : Nat}

include threads

/-- One queue gets another list, at most one node of which is new. -/
theorem Threads.replace (node : Nat) {after : Mem κ} {nodes : List Nat}
    (held : Holds after queue nodes)
    (old : ∀ place ∈ nodes, place = node ∨ place ∈ lists queue)
    (fresh : ∀ other ≠ queue, node ∉ lists other)
    (fields : ∀ place, place ≠ node → place ∉ lists queue →
      after.flink place = m.flink place ∧ after.blink place = m.blink place)
    (others : ∀ other ≠ queue, after.head other = m.head other ∧ after.tail other = m.tail other) :
    Threads after (update lists queue nodes) := by
  have away {other : κ} (differs : other ≠ queue) : (lists other).Disjoint nodes := by
    intro place inside here
    rcases old place here with rfl | listed
    · exact fresh other differs inside
    · exact threads.apart other queue differs inside listed
  constructor
  · refine (forall_update_iff lists (Holds after)).mpr ⟨held, fun other differs => ?_⟩
    obtain ⟨linked, head, tail, distinct⟩ := threads.holds other
    obtain ⟨sameHead, sameTail⟩ := others other differs
    refine ⟨seg_congr linked fun place inside => fields place ?_ ?_, sameHead.trans head,
      sameTail.trans tail, distinct⟩
    · exact fun found => fresh other differs (found ▸ inside)
    · exact threads.apart other queue differs inside
  · intro one two differs
    by_cases first : one = queue
    · subst first
      rw [update_self, update_of_ne differs.symm]
      exact fun _ here inside => away differs.symm inside here
    · rw [update_of_ne first]
      by_cases second : two = queue
      · subst second
        rw [update_self]
        exact away differs
      · rw [update_of_ne second]
        exact threads.apart one two differs

/-- An insertion between the two parts of a list. -/
theorem Threads.splice (split : lists queue = front ++ back)
    (fresh : ∀ other, node ∉ lists other) :
    Threads (m.splice front.getLast? back.head? node queue)
      (update lists queue (front ++ node :: back)) := by
  have out := fresh queue
  obtain ⟨linked, head, tail, distinct⟩ := threads.holds queue
  rw [split] at linked head tail distinct out
  have distinct' : (front ++ node :: back).Nodup :=
    perm_middle.nodup_iff.mpr (nodup_cons.mpr ⟨out, distinct⟩)
  refine threads.replace node ⟨seg_insert distinct' linked, ?_, ?_, distinct'⟩
    (fun place inside => ?_) (fun other _ => fresh other) (fun place differs out => ?_)
    fun other differs => ?_
  · cases front with
    | nil => simp [Mem.splice]
    | cons first rest => simpa [Mem.splice] using head
  · cases back with
    | nil => simp [Mem.splice]
    | cons first rest => simpa [Mem.splice] using tail
  · rw [split]
    exact mem_cons.mp (perm_middle.mem_iff.mp inside)
  · rw [split, mem_append, not_or] at out
    constructor
    · exact (setBack_of_ne fun found => out.1 (mem_of_mem_getLast? found)).trans
        (update_of_ne differs _ _)
    · exact (setBack_of_ne fun found => out.2 (mem_of_mem_head? found)).trans
        (update_of_ne differs _ _)
  · constructor <;> simp only [Mem.splice] <;> split_ifs <;> simp [differs]

/-- A removal from between the two parts of a list. -/
theorem Threads.cut (split : lists queue = front ++ node :: back) :
    Threads (m.cut (m.blink node) (m.flink node) node queue)
        (update lists queue (front ++ back)) ∧
      m.blink node = front.getLast? ∧ m.flink node = back.head? := by
  obtain ⟨linked, head, tail, distinct⟩ := threads.holds queue
  rw [split] at linked head tail distinct
  obtain ⟨prev, next⟩ := seg_fields linked
  refine ⟨?_, prev, next⟩
  rw [prev, next]
  obtain ⟨out, distinct'⟩ := nodup_cons.mp (perm_middle.nodup_iff.mp distinct)
  have rest : Seg (m.cut front.getLast? back.head? node queue).flink
      (m.cut front.getLast? back.head? node queue).blink none (front ++ back) none :=
    seg_congr (seg_remove distinct linked) fun place inside => by
      have differs : place ≠ node := fun same => out (same ▸ inside)
      exact ⟨update_of_ne differs _ _, update_of_ne differs _ _⟩
  refine threads.replace node ⟨rest, ?_, ?_, distinct'⟩ (fun place inside => .inr ?_)
    (fun other differs inside => ?_) (fun place differs out => ?_) fun other differs => ?_
  · cases front with
    | nil => simp [Mem.cut]
    | cons first rest => simpa [Mem.cut] using head
  · cases back with
    | nil => simp [Mem.cut]
    | cons first rest => simpa [Mem.cut] using tail
  · rw [split]
    exact perm_middle.mem_iff.mpr (mem_cons_of_mem node inside)
  · refine threads.apart other queue differs inside ?_
    rw [split]
    exact mem_append_right front mem_cons_self
  · rw [split, mem_append, not_or, mem_cons, not_or] at out
    constructor
    · exact (update_of_ne differs _ _).trans
        (setBack_of_ne fun found => out.1 (mem_of_mem_getLast? found))
    · exact (update_of_ne differs _ _).trans
        (setBack_of_ne fun found => out.2.2 (mem_of_mem_head? found))
  · constructor <;> simp only [Mem.cut] <;> split_ifs <;> simp [differs]

end Edits

section Writes

variable (m : Mem κ) (node : Nat) (queue : κ)

theorem dqAddfirst_eq : dqAddfirst m node queue = m.splice none (m.head queue) node queue := by
  cases head : m.head queue <;> simp [dqAddfirst, head, Mem.splice, setBack]

theorem dqAddlast_eq (empty : m.head queue = none ↔ m.tail queue = none) :
    dqAddlast m node queue = some (m.splice (m.tail queue) none node queue) := by
  cases tail : m.tail queue <;> cases head : m.head queue <;>
    simp [dqAddlast, head, tail, Mem.splice, setBack] at empty ⊢

theorem dqRem_eq : dqRem m node queue = m.cut (m.blink node) (m.flink node) node queue := by
  cases prev : m.blink node <;> cases next : m.flink node <;>
    simp [dqRem, prev, next, Mem.cut, setBack]

theorem dqRemfirst_eq (head : m.head queue = some node) :
    dqRemfirst m queue = (some node, m.cut none (m.flink node) node queue) := by
  cases next : m.flink node <;> simp [dqRemfirst, head, next, Mem.cut, setBack]

theorem addprioritized_eq {priority : Nat → Nat} {fuel : Nat} {prev next : Option Nat}
    (found : searchNext m priority node fuel (m.head queue) = some next)
    (before : next.elim (m.tail queue) m.blink = prev) :
    addprioritized m priority fuel node queue =
      some (prev.isNone, m.splice prev next node queue) := by
  subst before
  rw [addprioritized, found]
  cases next with
  | none =>
    cases tail : m.tail queue <;> simp [Mem.splice, setBack]
  | some next =>
    cases prev : m.blink next <;> simp [prev, Mem.splice, setBack]

omit [DecidableEq κ] in
/-- Along a list the search stops where the list-level function inserts. -/
theorem searchNext_seg (priority : Nat → Nat) {nodes : List Nat} {before : Option Nat}
    (linked : Seg m.flink m.blink before nodes none) {fuel : Nat} (enough : nodes.length < fuel) :
    ∃ front back, nodes = front ++ back ∧
      schedAddprioritized priority node nodes = front ++ node :: back ∧
      addsHead priority node nodes = front.getLast?.isNone ∧
      searchNext m priority node fuel nodes.head? = some back.head? := by
  induction nodes generalizing before fuel with
  | nil =>
    cases fuel with
    | zero => omega
    | succ fuel => exact ⟨[], [], rfl, rfl, rfl, rfl⟩
  | cons next rest ih =>
    cases fuel with
    | zero => omega
    | succ fuel =>
      obtain ⟨_, forward, behind⟩ := linked
      by_cases passes : priority node ≤ priority next
      · obtain ⟨front, back, split, inserted, _, found⟩ := ih behind (by simpa using enough)
        have ahead : m.flink next = rest.head? := by simpa using forward
        refine ⟨next :: front, back, by rw [split]; rfl, ?_, ?_, ?_⟩
        · rw [schedAddprioritized, if_pos passes, inserted, cons_append]
        · simp [addsHead, passes, getLast?_cons]
        · rw [head?_cons, searchNext, if_pos passes, ahead, found]
      · refine ⟨[], next :: rest, rfl, ?_, ?_, ?_⟩
        · rw [schedAddprioritized, if_neg passes, nil_append]
        · simpa [addsHead] using passes
        · rw [head?_cons, searchNext, if_neg passes]

end Writes

/-- A call of one of the functions. -/
inductive Call (κ : Type) where
  | addfirst (node : Nat) (queue : κ)
  | addlast (node : Nat) (queue : κ)
  | rem (node : Nat) (queue : κ)
  | remfirst (queue : κ)
  | addprioritized (priority : Nat → Nat) (fuel tcb : Nat) (list : κ)

/-- What a call returns. -/
inductive Answer where
  | done
  | entry (node : Option Nat)
  | headChanged (changed : Bool)

/-- Perform a call. -/
def serve (m : Mem κ) : Call κ → Option (Answer × Mem κ)
  | .addfirst node queue => some (.done, dqAddfirst m node queue)
  | .addlast node queue => (dqAddlast m node queue).map (.done, ·)
  | .rem node queue => some (.done, dqRem m node queue)
  | .remfirst queue => some (.entry (dqRemfirst m queue).1, (dqRemfirst m queue).2)
  | .addprioritized priority fuel tcb list =>
    (addprioritized m priority fuel tcb list).map fun result => (.headChanged result.1, result.2)

/-- What the call does to the lists. -/
def listServe (lists : κ → List Nat) : Call κ → Option (Answer × (κ → List Nat))
  | .addfirst node queue => some (.done, update lists queue (node :: lists queue))
  | .addlast node queue => some (.done, update lists queue (lists queue ++ [node]))
  | .rem node queue => some (.done, update lists queue ((lists queue).erase node))
  | .remfirst queue => some (.entry (lists queue).head?, update lists queue (lists queue).tail)
  | .addprioritized priority _ tcb list =>
    some (.headChanged (addsHead priority tcb (lists list)),
      update lists list (schedAddprioritized priority tcb (lists list)))

/-- A node that is added is in no queue, and one that is removed is in the queue. The search has
enough fuel for the list. -/
def Allowed (lists : κ → List Nat) : Call κ → Prop
  | .addfirst node _ | .addlast node _ => ∀ queue, node ∉ lists queue
  | .rem node queue => node ∈ lists queue
  | .remfirst _ => True
  | .addprioritized _ fuel tcb list =>
    (∀ queue, tcb ∉ lists queue) ∧ (lists list).length < fuel

/-- Each call does to the lists what it should. -/
theorem serve_threads (lists : κ → List Nat) (m : Mem κ) (call : Call κ)
    (threads : Threads m lists) (allowed : Allowed lists call) :
    ∃ answer lists' m', listServe lists call = some (answer, lists') ∧
      serve m call = some (answer, m') ∧ Threads m' lists' := by
  cases call with
  | addfirst node queue =>
    refine ⟨_, _, _, rfl, rfl, ?_⟩
    rw [dqAddfirst_eq, (threads.holds queue).head]
    exact threads.splice (nil_append _).symm allowed
  | addlast node queue =>
    have last := (threads.holds queue).tail
    have empty : m.head queue = none ↔ m.tail queue = none := by
      rw [(threads.holds queue).head, last, head?_eq_none_iff, getLast?_eq_none_iff]
    refine ⟨_, _, _, rfl, by rw [serve, dqAddlast_eq m node queue empty]; rfl, ?_⟩
    rw [last]
    exact threads.splice (append_nil _).symm allowed
  | rem node queue =>
    obtain ⟨front, back, split⟩ := append_of_mem allowed
    refine ⟨_, _, _, rfl, rfl, ?_⟩
    have distinct := (threads.holds queue).distinct
    rw [split] at distinct
    have out : node ∉ front := fun inside =>
      (nodup_append.mp distinct).2.2 node inside node mem_cons_self rfl
    rw [dqRem_eq, split, erase_append_right _ out, erase_cons_head]
    exact (threads.cut split).1
  | remfirst queue =>
    have head := (threads.holds queue).head
    cases nodes : lists queue with
    | nil =>
      rw [nodes] at head
      refine ⟨_, _, m, rfl, by simp [serve, dqRemfirst, head, nodes], ?_⟩
      rwa [nodes, tail_nil, ← nodes, update_eq_self]
    | cons first rest =>
      rw [nodes] at head
      obtain ⟨kept, prev, _⟩ := threads.cut (nodes.trans (nil_append _).symm)
      rw [prev] at kept
      refine ⟨_, _, _, rfl, ?_, by rw [nodes]; exact kept⟩
      rw [serve, dqRemfirst_eq m first queue head, nodes]
      rfl
  | addprioritized priority fuel tcb list =>
    obtain ⟨front, back, split, inserted, first, found⟩ :=
      searchNext_seg m tcb priority (threads.holds list).linked allowed.2
    have before : back.head?.elim (m.tail list) m.blink = front.getLast? := by
      cases back with
      | nil => rw [head?_nil, Option.elim, (threads.holds list).tail, split, append_nil]
      | cons next rest => exact (threads.cut split).2.1
    rw [← (threads.holds list).head] at found
    refine ⟨_, _, m.splice front.getLast? back.head? tcb list, rfl, ?_, ?_⟩
    · rw [serve, addprioritized_eq m tcb list found before, first]
      rfl
    · rw [inserted]
      exact threads.splice split allowed.1

/-- Every run of calls returns what it returns on lists, follows no null pointer, and leaves the
links of these lists. -/
theorem queues_are_lists (lists : κ → List Nat) (m : Mem κ) (threads : Threads m lists)
    (calls : List (Call κ)) (admitted : Run.Admitted (moves listServe) Allowed lists calls) :
    ∃ results final m', answers serve m calls = some (results, m') ∧
      answers listServe lists calls = some (results, final) ∧ Threads m' final := by
  obtain ⟨results, final, m', performed, explained, last⟩ :=
    simulates serve_threads threads admitted
  exact ⟨results, final, m', answers_of_explains explained, performed, last⟩

/-- The memory in which all queues are empty. -/
def emptyMem : Mem κ := ⟨fun _ => none, fun _ => none, fun _ => none, fun _ => none⟩

/-- A task of high priority goes in front of two others, of which the first one then leaves. -/
theorem queues_are_lists_four :
    ∃ results final m', answers serve (emptyMem : Mem Bool) [.addlast 1 false, .addfirst 2 true,
        .addprioritized id 2 3 false, .rem 1 false] = some (results, m') ∧
      answers listServe (fun _ => []) [.addlast 1 false, .addfirst 2 true,
        .addprioritized id 2 3 false, .rem 1 false] = some (results, final) ∧ Threads m' final :=
  queues_are_lists (fun _ => []) emptyMem
    ⟨fun _ => ⟨trivial, rfl, rfl, nodup_nil⟩, fun _ _ _ => disjoint_nil_left _⟩ _
    (by simp [Run.Admitted, moves, listServe, Allowed, update, schedAddprioritized])

end Chewie.Sched.Queue
