import Mathlib.Data.List.Basic

/-!
# Doubly linked lists stored in two link fields

A node type carries a forward and a backward link field, each a function from
nodes to optional nodes. `Seg` says that a list of nodes is threaded through both
fields, between a given predecessor and a given successor; the two ends are
explicit so that a list splits at any point. Removing and inserting a node are the
assignments C code makes by hand, and `seek` is the search loop that keeps the
last node passed.
-/

namespace Chewie.Links

open List Function

section Fields

variable {α : Type}

/-- The nodes are linked in order, after `before` and in front of `after`. -/
def Seg (forward backward : α → Option α) : Option α → List α → Option α → Prop
  | _, [], _ => True
  | before, node :: rest, after =>
    backward node = before ∧ forward node = rest.head?.or after ∧
      Seg forward backward (some node) rest after

variable {forward backward forward' backward' : α → Option α} {before after : Option α}

theorem seg_append (front back : List α) :
    Seg forward backward before (front ++ back) after ↔
      Seg forward backward before front (back.head?.or after) ∧
        Seg forward backward (front.getLast?.or before) back after := by
  induction front generalizing before with
  | nil => simp [Seg]
  | cons node front ih =>
    have last : (node :: front).getLast?.or before = front.getLast?.or (some node) := by
      cases front with
      | nil => simp
      | cons next rest => simp [List.getLast?_eq_some_getLast]
    have head : ((front ++ back).head?.or after) = front.head?.or (back.head?.or after) := by
      cases front <;> simp
    simp only [cons_append, Seg, ih, last, head, and_assoc]

theorem seg_congr {nodes : List α} (linked : Seg forward backward before nodes after)
    (same : ∀ node ∈ nodes, forward' node = forward node ∧ backward' node = backward node) :
    Seg forward' backward' before nodes after := by
  induction nodes generalizing before with
  | nil => trivial
  | cons node rest ih =>
    obtain ⟨back, next, tail⟩ := linked
    obtain ⟨sameNext, sameBack⟩ := same node mem_cons_self
    refine ⟨sameBack.trans back, sameNext.trans next, ih tail ?_⟩
    intro other inside
    exact same other (mem_cons_of_mem node inside)

theorem seg_fields {front back : List α} {node : α}
    (linked : Seg forward backward none (front ++ node :: back) none) :
    backward node = front.getLast? ∧ forward node = back.head? := by
  obtain ⟨_, backField, forwardField, _⟩ := (seg_append front (node :: back)).mp linked
  exact ⟨by simpa using backField, by simpa using forwardField⟩

theorem not_mem_behind {front rest : List α} {last other : α}
    (distinct : (front ++ last :: rest).Nodup) (inside : other ∈ front ++ [last]) :
    other ∉ rest := by
  intro behind
  rw [append_cons] at distinct
  exact (nodup_append.mp distinct).2.2 other inside other behind rfl

end Fields

section Update

variable {α : Type} [DecidableEq α]
variable {forward backward : α → Option α} {before after : Option α}

/-- The backward fields once the successor, if there is one, points back at `target`. -/
def setBack (backward : α → Option α) (successor target : Option α) : α → Option α :=
  match successor with
  | none => backward
  | some next => Function.update backward next target

theorem setBack_of_ne {successor target : Option α} {node : α} (other : successor ≠ some node) :
    setBack backward successor target node = backward node := by
  cases successor with
  | none => rfl
  | some next =>
    have differs : node ≠ next := fun same => other (congrArg some same.symm)
    simp [setBack, differs]

theorem setBack_same (backward : α → Option α) (next : α) (target : Option α) :
    setBack backward (some next) target next = target := by
  simp [setBack]

theorem seg_redirect {front : List α} {last : α} (fresh : last ∉ front)
    (linked : Seg forward backward before (front ++ [last]) after) (successor : Option α) :
    Seg (update forward last successor) backward before (front ++ [last]) successor := by
  rw [seg_append] at linked ⊢
  obtain ⟨earlier, backField, _, _⟩ := linked
  refine ⟨seg_congr (by simpa using earlier) ?_, backField, by simp, trivial⟩
  intro node inside
  have differs : node ≠ last := fun same => fresh (same ▸ inside)
  exact ⟨by simp [differs], rfl⟩

theorem seg_retarget {nodes : List α} (distinct : nodes.Nodup)
    (linked : Seg forward backward before nodes after) (target : Option α) :
    Seg forward (setBack backward nodes.head? target) target nodes after := by
  cases nodes with
  | nil => trivial
  | cons node rest =>
    obtain ⟨_, forwardField, tail⟩ := linked
    refine ⟨setBack_same backward node target, forwardField, seg_congr tail ?_⟩
    intro other inside
    have differs : node ≠ other := fun same => (nodup_cons.mp distinct).1 (same ▸ inside)
    exact ⟨rfl, setBack_of_ne (by simpa using differs)⟩

/-- Removing a node: its predecessor and its successor are linked to each other. -/
theorem seg_unlink {front back : List α} {last node : α}
    (distinct : (front ++ last :: node :: back).Nodup)
    (linked : Seg forward backward none (front ++ last :: node :: back) none) :
    Seg (update forward last back.head?) (setBack backward back.head? (some last))
      none (front ++ last :: back) none := by
  obtain ⟨_, tailDistinct, apart⟩ := nodup_append.mp distinct
  obtain ⟨lastOut, nodeDistinct⟩ := nodup_cons.mp tailDistinct
  obtain ⟨_, backDistinct⟩ := nodup_cons.mp nodeDistinct
  rw [append_cons, seg_append] at linked
  obtain ⟨head, _, _, tail⟩ := linked
  rw [append_cons, seg_append]
  constructor
  · have lastFresh : last ∉ front := fun inside => apart last inside last (by simp) rfl
    refine seg_congr (seg_redirect lastFresh head (back.head?.or none)) ?_
    intro other inside
    refine ⟨by simp, setBack_of_ne fun same => ?_⟩
    exact not_mem_behind distinct inside (mem_cons_of_mem node (mem_of_mem_head? same))
  · refine seg_congr (seg_retarget backDistinct tail ((front ++ [last]).getLast?.or none)) ?_
    intro other inside
    have differs : other ≠ last := fun same => lastOut (by simp [← same, inside])
    exact ⟨by simp [differs], by simp⟩

/-- Inserting a node after `last`: the four assignments of a doubly linked insertion. -/
theorem seg_link {front back : List α} {last node : α}
    (distinct : (front ++ last :: node :: back).Nodup)
    (linked : Seg forward backward none (front ++ last :: back) none) :
    Seg (update (update forward last (some node)) node back.head?)
      (setBack (update backward node (some last)) back.head? (some node))
      none (front ++ last :: node :: back) none := by
  obtain ⟨_, tailDistinct, apart⟩ := nodup_append.mp distinct
  obtain ⟨lastOut, nodeDistinct⟩ := nodup_cons.mp tailDistinct
  obtain ⟨nodeOut, backDistinct⟩ := nodup_cons.mp nodeDistinct
  rw [append_cons, seg_append] at linked
  obtain ⟨head, tail⟩ := linked
  rw [append_cons, seg_append]
  refine ⟨?_, ?_, ?_, ?_⟩
  · have lastFresh : last ∉ front := fun inside => apart last inside last (by simp) rfl
    refine seg_congr (seg_redirect lastFresh head (some node)) ?_
    intro other inside
    obtain ⟨notNode, notBack⟩ := not_or.mp (mem_cons.not.mp (not_mem_behind distinct inside))
    refine ⟨by simp [notNode], ?_⟩
    rw [setBack_of_ne fun same => notBack (mem_of_mem_head? same)]
    simp [notNode]
  · rw [setBack_of_ne fun same => nodeOut (mem_of_mem_head? same)]
    simp
  · simp
  · refine seg_congr (seg_retarget backDistinct tail (some node)) ?_
    intro other inside
    have notLast : other ≠ last := fun same => lastOut (by simp [← same, inside])
    have notNode : other ≠ node := fun same => nodeOut (same ▸ inside)
    refine ⟨by simp [notLast, notNode], ?_⟩
    cases back with
    | nil => simp at inside
    | cons next rest =>
      by_cases first : other = next
      · subst first
        simp [setBack]
      · simp [setBack, first, notNode]

/-- Inserting a node anywhere, also at an end of the list. -/
theorem seg_insert {front back : List α} {node : α} (distinct : (front ++ node :: back).Nodup)
    (linked : Seg forward backward none (front ++ back) none) :
    Seg (setBack (update forward node back.head?) front.getLast? (some node))
      (setBack (update backward node front.getLast?) back.head? (some node))
      none (front ++ node :: back) none := by
  rcases front.eq_nil_or_concat with rfl | ⟨front, last, rfl⟩
  · obtain ⟨nodeOut, backDistinct⟩ := nodup_cons.mp distinct
    refine ⟨?_, by simp [setBack], ?_⟩
    · rw [setBack_of_ne fun same => nodeOut (mem_of_mem_head? same)]
      simp
    · have kept : Seg (update forward node back.head?) (update backward node none) none back none :=
        seg_congr linked fun other inside => by
          have differs : other ≠ node := fun same => nodeOut (same ▸ inside)
          simp [differs]
      exact seg_retarget backDistinct kept (some node)
  · rw [concat_append] at distinct linked
    have differs : node ≠ last := by
      rintro rfl
      exact (nodup_cons.mp (nodup_append.mp distinct).2.1).1 mem_cons_self
    have inserted := seg_link distinct linked
    rw [update_comm differs.symm] at inserted
    simpa [setBack] using inserted

/-- Removing a node anywhere. -/
theorem seg_remove {front back : List α} {node : α} (distinct : (front ++ node :: back).Nodup)
    (linked : Seg forward backward none (front ++ node :: back) none) :
    Seg (setBack forward front.getLast? back.head?) (setBack backward back.head? front.getLast?)
      none (front ++ back) none := by
  rcases front.eq_nil_or_concat with rfl | ⟨front, last, rfl⟩
  · exact seg_retarget (nodup_cons.mp distinct).2 linked.2.2 none
  · rw [concat_append] at distinct linked
    simpa [setBack] using seg_unlink distinct linked

end Update

section Seek

variable {α : Type}

/-- Follow `forward` until a node stops the search, keeping the last node passed. The fuel
bounds the number of nodes inspected; running out of it is the only way to return `none`. -/
def seek (forward : α → Option α) (stop : α → Bool) :
    Nat → α → Option α → Option (α × Option α)
  | 0, _, _ => none
  | _ + 1, passed, none => some (passed, none)
  | fuel + 1, passed, some node =>
    if stop node then some (passed, some node) else seek forward stop fuel node (forward node)

theorem seek_stop {forward : α → Option α} {stop : α → Bool} {fuel : Nat} {passed : α}
    {next : Option α} (fueled : 0 < fuel) (stopped : ∀ node ∈ next, stop node = true) :
    seek forward stop fuel passed next = some (passed, next) := by
  obtain ⟨rest, rfl⟩ := Nat.exists_eq_succ_of_ne_zero (Nat.ne_of_gt fueled)
  cases next with
  | none => rfl
  | some node => rw [seek, if_pos (stopped node rfl)]

/-- Along a linked list the search splits the nodes ahead into those it passes and those from
the first that stops it. -/
theorem seek_seg {forward backward : α → Option α} (stop : α → Bool) (nodes : List α)
    (fuel : Nat) (start : α) (enough : nodes.length < fuel)
    (linked : Seg forward backward (some start) nodes none) :
    ∃ passed rest, nodes = passed ++ rest ∧ (∀ node ∈ passed, stop node = false) ∧
      (∀ node, rest.head? = some node → stop node = true) ∧
      seek forward stop fuel start nodes.head? = some (passed.getLast?.getD start, rest.head?) := by
  induction nodes generalizing fuel start with
  | nil =>
    cases fuel with
    | zero => omega
    | succ fuel => exact ⟨[], [], rfl, by simp, by simp, rfl⟩
  | cons node rest ih =>
    cases fuel with
    | zero => omega
    | succ fuel =>
      obtain ⟨_, forwardField, tail⟩ := linked
      cases stops : stop node with
      | true =>
        refine ⟨[], node :: rest, rfl, by simp, ?_, by simp [seek, stops]⟩
        intro other isHead
        obtain rfl : node = other := by simpa using isHead
        exact stops
      | false =>
        obtain ⟨passed, later, split, skipped, stopped, found⟩ :=
          ih fuel node (by simpa using enough) tail
        refine ⟨node :: passed, later, by rw [split]; rfl, ?_, stopped, ?_⟩
        · intro other inside
          rcases mem_cons.mp inside with rfl | inPassed
          · exact stops
          · exact skipped other inPassed
        · have next : forward node = rest.head? := by simpa using forwardField
          have lastPassed : (node :: passed).getLast?.getD start = passed.getLast?.getD node := by
            cases passed with
            | nil => simp
            | cons second others => simp [List.getLast?_eq_some_getLast]
          simp [seek, stops, next, found, lastPassed]

end Seek

end Chewie.Links
