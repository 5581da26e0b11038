import Chewie.Mm.Heap.Model
import Mathlib.Data.Nat.Log
import Mathlib.Data.List.Perm.Subperm

/-!
# The ordered free list

The free list is one doubly linked list threaded through the bucket headers. `FreeList`
describes it by the list of nodes it visits: the headers are all there, and the nodes are
ordered by bucket and, inside a bucket, by size. Headers have size zero, so they stand in
front of the chunks of their bucket. The two edits of the source, `mm_addfreechunk` and the
unlink sequence, keep the description.
-/

namespace Chewie.Mm

open List Node Function Links

namespace Geometry

theorem ndxLoop_eq (size ndx : Nat) : ndxLoop size ndx = ndx + Nat.log 2 size := by
  induction size using Nat.strongRecOn generalizing ndx with
  | ind size ih =>
    rw [ndxLoop]
    by_cases more : 1 < size
    · have half : size >>> 1 = size / 2 := Nat.shiftRight_eq_div_pow size 1
      have smaller : size / 2 < size := by omega
      have step : Nat.log 2 size = Nat.log 2 (size / 2) + 1 := Nat.log_of_one_lt_of_le (by decide) more
      rw [if_pos more, half, ih _ smaller]
      omega
    · have zero : Nat.log 2 size = 0 := Nat.log_of_lt (by omega)
      rw [if_neg more, zero, Nat.add_zero]

variable (g : Geometry)

theorem mmSize2ndx_of_lt {size : Nat} (small : size < g.maxChunk) :
    g.mmSize2ndx size = Nat.log 2 (size / 2 ^ g.minShift) := by
  have below : ¬g.maxChunk ≤ size := by omega
  rw [mmSize2ndx, if_neg below, ndxLoop_eq, Nat.zero_add, Nat.shiftRight_eq_div_pow]

theorem log_le_nnodes {size : Nat} (small : size < g.maxChunk) :
    Nat.log 2 (size / 2 ^ g.minShift) ≤ g.nnodes - 1 := by
  have bound : size / 2 ^ g.minShift < 2 ^ (g.maxShift - g.minShift) := by
    rw [Nat.div_lt_iff_lt_mul (Nat.two_pow_pos _), ← Nat.pow_add, Nat.sub_add_cancel g.shift_le]
    exact small
  have power : Nat.log 2 (size / 2 ^ g.minShift) ≤ g.maxShift - g.minShift := by
    calc
      Nat.log 2 (size / 2 ^ g.minShift) ≤ Nat.log 2 (2 ^ (g.maxShift - g.minShift)) :=
        Nat.log_mono_right (Nat.le_of_lt bound)
      _ = g.maxShift - g.minShift := Nat.log_pow (by decide) _
  exact power

theorem mmSize2ndx_lt (size : Nat) : g.mmSize2ndx size < g.nnodes := by
  have positive : 0 < g.nnodes := Nat.succ_pos _
  by_cases small : size < g.maxChunk
  · have bound := g.log_le_nnodes small
    rw [g.mmSize2ndx_of_lt small]
    omega
  · rw [mmSize2ndx, if_pos (by omega)]
    omega

theorem mmSize2ndx_mono {left right : Nat} (ordered : left ≤ right) :
    g.mmSize2ndx left ≤ g.mmSize2ndx right := by
  by_cases small : right < g.maxChunk
  · rw [g.mmSize2ndx_of_lt small, g.mmSize2ndx_of_lt (Nat.lt_of_le_of_lt ordered small)]
    exact Nat.log_mono_right (Nat.div_le_div_right ordered)
  · have last : g.mmSize2ndx right = g.nnodes - 1 := by
      rw [mmSize2ndx, if_pos (by omega)]
    have bound := g.mmSize2ndx_lt left
    omega

theorem mmSize2ndx_start (alignsize : Nat) :
    (if g.maxChunk ≤ alignsize then g.nnodes - 1 else g.mmSize2ndx alignsize) =
      g.mmSize2ndx alignsize := by
  by_cases large : g.maxChunk ≤ alignsize
  · rw [if_pos large, mmSize2ndx, if_pos large]
  · rw [if_neg large]

end Geometry

/-- The bucket of a node: a header's own index, a chunk's by its size. -/
def Node.bucket (g : Geometry) (size : Node → Nat) : Node → Nat
  | .head index => index
  | .chunk address => g.mmSize2ndx (size (.chunk address))

@[simp] theorem Node.bucket_head (g : Geometry) (size : Node → Nat) (index : Nat) :
    (head index).bucket g size = index := rfl

@[simp] theorem Node.bucket_chunk (g : Geometry) (size : Node → Nat) (address : Nat) :
    (chunk address).bucket g size = g.mmSize2ndx (size (.chunk address)) := rfl

/-- The order of the free list: by bucket, then by size. -/
def Node.Before (g : Geometry) (size : Node → Nat) (left right : Node) : Prop :=
  left.bucket g size < right.bucket g size ∨
    left.bucket g size = right.bucket g size ∧ size left ≤ size right

/-- The free list visits exactly these nodes, in this order. -/
structure FreeList (g : Geometry) (size : Node → Nat) (flink blink : Node → Option Node)
    (nodes : List Node) : Prop where
  linked : Links.Seg flink blink none nodes none
  distinct : nodes.Nodup
  heads : ∀ index, .head index ∈ nodes ↔ index < g.nnodes
  headSize : ∀ index, .head index ∈ nodes → size (.head index) = 0
  chunks : ∀ address, .chunk address ∈ nodes →
    0 < size (.chunk address) ∧ address < 2 ^ g.wordBits
  sorted : nodes.Pairwise (Node.Before g size)

namespace FreeList

variable {g : Geometry} {size size' : Node → Nat} {flink blink : Node → Option Node}
variable {nodes : List Node}

theorem before_trans {first second third : Node} (left : Before g size first second)
    (right : Before g size second third) : Before g size first third := by
  unfold Before at *
  omega

section

variable (list : FreeList g size flink blink nodes)

include list

theorem length_lt : nodes.length < g.fuel := by
  have covered : nodes ⊆ (List.range g.nnodes).map head ++
      (List.range (2 ^ g.wordBits)).map chunk := by
    intro node inside
    cases node with
    | head index =>
      have bound := (list.heads index).mp inside
      simp [bound]
    | chunk address =>
      have bound := (list.chunks address inside).2
      simp [bound]
  have short := (list.distinct.subperm covered).length_le
  simp only [length_append, length_map, length_range] at short
  unfold Geometry.fuel
  omega

theorem congr_size (same : ∀ node ∈ nodes, size' node = size node) :
    FreeList g size' flink blink nodes := by
  have bucket : ∀ node ∈ nodes, node.bucket g size' = node.bucket g size := by
    intro node inside
    cases node with
    | head index => rfl
    | chunk address => simp only [bucket, same _ inside]
  refine ⟨list.linked, list.distinct, list.heads, ?_, ?_, ?_⟩
  · intro index inside
    rw [same _ inside]
    exact list.headSize index inside
  · intro address inside
    rw [same _ inside]
    exact list.chunks address inside
  · refine list.sorted.imp_of_mem ?_
    intro left right leftIn rightIn ordered
    unfold Before at *
    rw [bucket left leftIn, bucket right rightIn, same left leftIn, same right rightIn]
    exact ordered

theorem before_head_zero {node : Node} (inside : node ∈ nodes) (other : node ≠ .head 0) :
    ¬Before g size node (.head 0) := by
  intro ordered
  have zero : size (.head 0) = 0 := list.headSize 0 ((list.heads 0).mpr (Nat.succ_pos _))
  cases node with
  | head index =>
    have positive : index ≠ 0 := fun same => other (congrArg head same)
    simp only [Before, bucket_head] at ordered
    omega
  | chunk address =>
    have positive := (list.chunks address inside).1
    simp only [Before, bucket_head] at ordered
    omega

theorem predecessor {node : Node} (inside : node ∈ nodes) (other : node ≠ .head 0) :
    ∃ front last back, nodes = front ++ last :: node :: back := by
  obtain ⟨front, back, split⟩ := append_of_mem inside
  rcases eq_nil_or_concat front with rfl | ⟨earlier, last, rfl⟩
  · exfalso
    have headIn : head 0 ∈ nodes := (list.heads 0).mpr (Nat.succ_pos _)
    have sorted := list.sorted
    rw [split] at headIn sorted
    have later : head 0 ∈ back := by
      rcases mem_cons.mp headIn with same | later
      · exact absurd same.symm other
      · exact later
    exact list.before_head_zero inside other ((pairwise_cons.mp sorted).1 _ later)
  · exact ⟨earlier, last, back, by simpa using split⟩

end

/-- Taking a node out keeps the order. The two fields written are those the unlink sequence
of the source assigns. -/
theorem unlink_nodes {front back : List Node} {last : Node} {address : Nat}
    (list : FreeList g size flink blink (front ++ last :: .chunk address :: back)) :
    FreeList g size (update flink last back.head?)
      (setBack blink back.head? (some last)) (front ++ last :: back) := by
  have sublist : (front ++ last :: back).Sublist (front ++ last :: .chunk address :: back) :=
    (List.Sublist.refl front).append ((sublist_cons_self _ back).cons_cons last)
  refine ⟨seg_unlink list.distinct list.linked, list.distinct.sublist sublist, ?_, ?_, ?_,
    list.sorted.sublist sublist⟩
  · intro index
    rw [← list.heads index]
    simp
  · intro index inside
    exact list.headSize index (sublist.subset inside)
  · intro other inside
    exact list.chunks other (sublist.subset inside)

end FreeList

/-- The unlink sequence takes a listed chunk off the list and touches only link fields. -/
theorem Heap.unlink_spec {g : Geometry} {h : Heap} {nodes : List Node} {address : Nat}
    (list : FreeList g h.size h.flink h.blink nodes) (inside : .chunk address ∈ nodes) :
    ∃ flink blink, h.unlink (.chunk address) = some { h with flink := flink, blink := blink } ∧
      FreeList g h.size flink blink (nodes.erase (.chunk address)) := by
  obtain ⟨front, last, back, split⟩ := list.predecessor inside (by simp)
  subst split
  have fields := seg_fields
    (show Seg h.flink h.blink none ((front ++ [last]) ++ .chunk address :: back) none by
      simpa using list.linked)
  have backField : h.blink (.chunk address) = some last := by simpa using fields.1
  have distinct := list.distinct
  have differs : chunk address ≠ last := by
    intro same
    rw [same] at distinct
    have tail := (nodup_append.mp distinct).2.1
    simp at tail
  have outside : chunk address ∉ front := by
    intro inFront
    have apart := (nodup_append.mp distinct).2.2
    exact apart _ inFront _ (by simp) rfl
  refine ⟨update h.flink last back.head?, setBack h.blink back.head? (some last), ?_, ?_⟩
  · simp [Heap.unlink, backField, fields.2, update_of_ne differs]
  · have erased : (front ++ last :: .chunk address :: back).erase (.chunk address) =
        front ++ last :: back := by
      rw [erase_append_right _ outside, erase_cons_tail (by simpa using differs.symm),
        erase_cons_head]
    rw [erased]
    exact list.unlink_nodes

namespace FreeList

variable {g : Geometry} {size : Node → Nat} {flink blink : Node → Option Node}
variable {front passed rest : List Node} {ndx address : Nat}

section

variable (bucket : g.mmSize2ndx (size (.chunk address)) = ndx)
    (list : FreeList g size flink blink (front ++ .head ndx :: (passed ++ rest)))

include bucket list

theorem before_new (skipped : ∀ node ∈ passed, size node ≠ 0 ∧ size node < size (.chunk address)) :
    ∀ node ∈ front ++ .head ndx :: passed, Before g size node (.chunk address) := by
  have headSize : size (.head ndx) = 0 := list.headSize ndx (by simp)
  have parts := pairwise_append.mp list.sorted
  have afterHead := (pairwise_cons.mp parts.2.1).1
  intro node inside
  rcases mem_append.mp inside with inFront | later
  · have ordered := parts.2.2 node inFront (.head ndx) (by simp)
    simp only [Before, bucket_head, bucket_chunk, bucket] at ordered ⊢
    omega
  rcases mem_cons.mp later with rfl | inPassed
  · refine Or.inr ⟨bucket.symm, ?_⟩
    rw [headSize]
    exact Nat.zero_le _
  have small := skipped node inPassed
  have ordered := afterHead node (by simp [inPassed])
  cases node with
  | head index =>
    exact absurd (list.headSize index (by simp [inPassed])) small.1
  | chunk other =>
    have mono := g.mmSize2ndx_mono (Nat.le_of_lt small.2)
    simp only [Before, bucket_head, bucket_chunk, bucket] at ordered mono ⊢
    omega

theorem new_before
    (stopped : ∀ node, rest.head? = some node → size node = 0 ∨ size (.chunk address) ≤ size node) :
    ∀ node ∈ rest, Before g size (.chunk address) node := by
  have parts := pairwise_append.mp list.sorted
  have behind := pairwise_cons.mp parts.2.1
  have restSorted := (pairwise_append.mp behind.2).2.1
  cases rest with
  | nil => simp
  | cons first others =>
    have firstBefore : Before g size (.chunk address) first := by
      have ordered := behind.1 first (by simp)
      cases first with
      | head index =>
        have differs : index ≠ ndx := by
          rintro rfl
          have tail := (nodup_append.mp list.distinct).2.1
          exact (nodup_cons.mp tail).1 (by simp)
        simp only [Before, bucket_head, bucket_chunk, bucket] at ordered ⊢
        omega
      | chunk other =>
        have positive := (list.chunks other (by simp)).1
        have large : size (.chunk address) ≤ size (.chunk other) := by
          rcases stopped _ rfl with zero | large
          · omega
          · exact large
        have mono := g.mmSize2ndx_mono large
        simp only [Before, bucket_chunk]
        omega
    intro node inside
    rcases mem_cons.mp inside with rfl | later
    · exact firstBefore
    · exact before_trans firstBefore ((pairwise_cons.mp restSorted).1 node later)

end

/-- Putting a chunk between the nodes that sort in front of it and those that sort behind it
keeps the list. -/
theorem link_nodes {front back : List Node} {last : Node}
    (list : FreeList g size flink blink (front ++ last :: back))
    (fresh : .chunk address ∉ front ++ last :: back) (positive : 0 < size (.chunk address))
    (bounded : address < 2 ^ g.wordBits)
    (lower : ∀ node ∈ front ++ [last], Before g size node (.chunk address))
    (upper : ∀ node ∈ back, Before g size (.chunk address) node) :
    FreeList g size
      (update (update flink last (some (.chunk address))) (.chunk address)
        back.head?) (setBack (update blink (.chunk address) (some last)) back.head?
        (some (.chunk address))) (front ++ last :: .chunk address :: back) := by
  have members : ∀ node, node ∈ front ++ last :: .chunk address :: back ↔
      node = .chunk address ∨ node ∈ front ++ last :: back := by
    intro node
    simp only [mem_append, mem_cons]
    tauto
  have shuffle : (front ++ last :: .chunk address :: back).Perm
      (.chunk address :: (front ++ last :: back)) := by
    have moved : ((front ++ [last]) ++ .chunk address :: back).Perm
        (.chunk address :: ((front ++ [last]) ++ back)) := perm_middle
    simpa using moved
  have distinct : (front ++ last :: .chunk address :: back).Nodup :=
    shuffle.nodup_iff.mpr (nodup_cons.mpr ⟨fresh, list.distinct⟩)
  refine ⟨seg_link distinct list.linked, distinct, ?_, ?_, ?_, ?_⟩
  · intro index
    rw [← list.heads index]
    simp
  · intro index inside
    rcases (members _).mp inside with same | old
    · cases same
    · exact list.headSize index old
  · intro other inside
    rcases (members _).mp inside with same | old
    · cases same
      exact ⟨positive, bounded⟩
    · exact list.chunks other old
  · have parts := pairwise_append.mp
      (show ((front ++ [last]) ++ back).Pairwise (Before g size) by
        simpa using list.sorted)
    have joined : ((front ++ [last]) ++ .chunk address :: back).Pairwise
        (Before g size) := by
      refine pairwise_append.mpr ⟨parts.1, pairwise_cons.mpr ⟨upper, parts.2.1⟩, ?_⟩
      intro left leftIn right rightIn
      rcases mem_cons.mp rightIn with rfl | later
      · exact lower left leftIn
      · exact parts.2.2 left leftIn right later
    simpa using joined

end FreeList

/-- `mm_addfreechunk` puts a chunk in its place, touches only link fields and records the
size. -/
theorem mmAddfreechunk_spec {g : Geometry} {h : Heap} {nodes : List Node} {address : Nat}
    (list : FreeList g h.size h.flink h.blink nodes) (fresh : .chunk address ∉ nodes)
    (positive : 0 < h.size (.chunk address)) (bounded : address < 2 ^ g.wordBits) :
    ∃ flink blink nodes', mmAddfreechunk g h (.chunk address) =
        some { h with
          flink := flink
          blink := blink
          inserted := h.size (.chunk address) :: h.inserted } ∧
      FreeList g h.size flink blink nodes' ∧
      ∀ node, node ∈ nodes' ↔ node = .chunk address ∨ node ∈ nodes := by
  let ndx := g.mmSize2ndx (h.size (.chunk address))
  have headIn : head ndx ∈ nodes := (list.heads _).mpr (g.mmSize2ndx_lt _)
  obtain ⟨front, back, split⟩ := append_of_mem headIn
  have linked := list.linked
  rw [split, seg_append] at linked
  have short := list.length_lt
  rw [split, length_append, length_cons] at short
  obtain ⟨passed, rest, ahead, skipped, stopped, found⟩ := seek_seg
    (fun next => !(h.size next != 0 && decide (h.size next < h.size (.chunk address))))
    back g.fuel (.head ndx) (by omega) linked.2.2.2
  have headNext : h.flink (.head ndx) = back.head? := by simpa using linked.2.2.1
  rw [← headNext] at found
  subst ahead
  rw [split] at list fresh
  have passedSmall : ∀ node ∈ passed,
      h.size node ≠ 0 ∧ h.size node < h.size (.chunk address) := by
    intro node inside
    simpa using skipped node inside
  have restLarge : ∀ node, rest.head? = some node →
      h.size node = 0 ∨ h.size (.chunk address) ≤ h.size node := by
    intro node isHead
    have stops := stopped node isHead
    by_cases zero : h.size node = 0
    · exact Or.inl zero
    · exact Or.inr (by simpa [zero] using stops)
  have lower := list.before_new rfl passedSmall
  have upper := list.new_before rfl restLarge
  obtain ⟨earlier, last, lastSplit, lastFound⟩ : ∃ earlier last,
      front ++ .head ndx :: passed = earlier ++ [last] ∧
        passed.getLast?.getD (.head ndx) = last := by
    rcases eq_nil_or_concat passed with rfl | ⟨others, last, rfl⟩
    · exact ⟨front, .head ndx, rfl, rfl⟩
    · exact ⟨front ++ .head ndx :: others, last, by simp, by simp⟩
  have whole : front ++ .head ndx :: (passed ++ rest) = earlier ++ last :: rest := by
    calc
      front ++ .head ndx :: (passed ++ rest) = (front ++ .head ndx :: passed) ++ rest := by simp
      _ = earlier ++ last :: rest := by rw [lastSplit]; simp
  rw [whole] at list fresh
  rw [lastSplit] at lower
  refine ⟨_, _, _, ?_, list.link_nodes fresh positive bounded lower upper, ?_⟩
  · rw [lastFound] at found
    simp only [mmAddfreechunk, bind, Option.bind]
    rw [found]
  · intro node
    rw [split, whole]
    simp only [mem_append, mem_cons]
    tauto

end Chewie.Mm
