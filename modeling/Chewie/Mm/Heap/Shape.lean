import Chewie.Mm.Heap.Sections

/-!
# What a well formed heap looks like

The invariant of this development speaks about a layout that is not part of the heap. Here its
consequences are stated on the memory alone: walking a region from its first guard by the size
fields, and following the free list by the forward links.
-/

namespace Chewie.Mm

open Tags List Region Node Mm.Geometry

open Tags (Chunk total carry place Tagged Marked)

/-- The node reached from the first guard of a region after some steps of adding `node->size`. -/
def Heap.node (h : Heap) (bounds : Bounds) (steps : Nat) : Nat :=
  Tags.walk (fun a => h.size (.chunk a)) bounds.heapstart steps

/-- A chunk between the guards of some region. -/
def IsChunk (h : Heap) (a : Nat) : Prop :=
  ∃ bounds ∈ h.regions, ∃ steps, h.node bounds (steps + 1) = a ∧ a < bounds.heapend

/-- The nodes of a region fill it exactly and know each other's sizes. -/
structure RegionTiled (g : Geometry) (h : Heap) (bounds : Bounds) (count : Nat) : Prop where
  lands : h.node bounds count = bounds.heapend
  /-- Not before `count` steps. -/
  inside : ∀ steps < count, h.node bounds steps < bounds.heapend
  /-- Every node knows the size of the one physically before it. -/
  preceding : ∀ steps < count, g.clearAlloc (h.preceding (.chunk (h.node bounds (steps + 1)))) =
    h.size (.chunk (h.node bounds steps))
  /-- Chunks between the guards have a positive size made of whole units. -/
  sizes : ∀ steps, 0 < steps → steps < count →
    0 < h.size (.chunk (h.node bounds steps)) ∧ g.unit ∣ h.size (.chunk (h.node bounds steps))
  firstGuard : g.allocated (h.preceding (.chunk bounds.heapstart)) = true
  lastGuard : g.allocated (h.preceding (.chunk bounds.heapend)) = true

/-- Two pointers name chunks that do not overlap. -/
def ChunksApart (g : Geometry) (h : Heap) (left right : Nat) : Prop :=
  left - g.allocNode + h.size (.chunk (left - g.allocNode)) ≤ right - g.allocNode ∨
    right - g.allocNode + h.size (.chunk (right - g.allocNode)) ≤ left - g.allocNode

/-- The regions are tiled, and the pointers handed out name distinct allocated chunks. -/
structure Tiled (g : Geometry) (h : Heap) (live : List Nat) : Prop where
  regions : ∀ bounds ∈ h.regions, ∃ count, RegionTiled g h bounds count
  /-- A pointer handed out is behind the header of an allocated chunk. -/
  allocated : ∀ mem ∈ live, g.allocNode ≤ mem ∧ IsChunk h (mem - g.allocNode) ∧
    g.allocated (h.preceding (.chunk (mem - g.allocNode))) = true
  disjoint : live.Pairwise (ChunksApart g h)

section Walk

variable {g : Geometry} {h : Heap} {layout : List Region} {nodes : List Node} {r : Region}

section

variable (inv : Inv g h layout nodes []) (member : r ∈ layout)

include inv member

theorem Inv.node_total {steps : Nat} (inside : steps ≤ r.chunks.length + 2) :
    h.node (r.bounds g) steps = r.base + total ((r.full g).take steps) := by
  apply walk_total (inv.tagged r member)
  simpa [full] using inside

theorem Inv.node_header {steps : Nat} (inside : steps < (r.full g).length) :
    h.size (.chunk (h.node (r.bounds g) steps)) = (r.full g)[steps].size ∧
      h.preceding (.chunk (h.node (r.bounds g) steps)) =
        Word.tag g.allocShift (carry 0 ((r.full g).take steps)) (r.full g)[steps].used :=
  walk_header (inv.tagged r member) inside

theorem Inv.node_lands : h.node (r.bounds g) (r.chunks.length + 1) = (r.bounds g).heapend := by
  rw [inv.node_total member (by omega)]
  simp [Region.full, Region.bounds, Region.heapend, Region.guard, Nat.add_assoc]

theorem Inv.node_chunk {steps : Nat} (inside : steps ≤ r.chunks.length) :
    h.node (r.bounds g) (steps + 1) = r.first g + total (r.chunks.take steps) := by
  rw [inv.node_total member (by omega)]
  simp [Region.full, Region.first, Region.guard, take_append_of_le_length inside, Nat.add_assoc]

theorem Inv.node_inside {steps : Nat} (inside : steps < r.chunks.length + 1) :
    h.node (r.bounds g) steps < (r.bounds g).heapend := by
  have next : h.node (r.bounds g) (steps + 1) ≤ h.node (r.bounds g) (r.chunks.length + 1) :=
    walk_mono _ _ (by omega)
  rw [inv.node_lands member] at next
  have length : steps < (r.full g).length := by
    simp only [full, length_cons, length_append, length_nil]
    omega
  have size := (inv.node_header member length).1
  have positive : 0 < (r.full g)[steps].size := by
    have among := getElem_mem length
    simp only [full, mem_cons, mem_append, not_mem_nil, or_false] at among
    rcases among with guard | own | guard
    · rw [show (r.full g)[steps] = Region.guard g from guard]
      exact g.allocNode_pos
    · exact Nat.lt_of_lt_of_le g.freeNode_pos ((inv.shape r member).sizes _ own).1
    · rw [show (r.full g)[steps] = Region.guard g from guard]
      exact g.allocNode_pos
  have step : h.node (r.bounds g) (steps + 1) =
      h.node (r.bounds g) steps + h.size (.chunk (h.node (r.bounds g) steps)) := rfl
  omega

theorem Inv.carry_small (steps : Nat) : carry 0 ((r.full g).take steps) < 2 ^ g.allocShift := by
  have bound := carry_le 0 ((r.full g).take steps)
  have small := (inv.shape r member).small
  have prefixTotal : total ((r.full g).take steps) + total ((r.full g).drop steps) =
      total (r.full g) := by
    rw [← total_append, take_append_drop]
  simp only [Region.full, total_cons, total_append, total_nil, Region.guard] at prefixTotal
  unfold unit at small
  simp only [Region.full, Region.guard] at bound ⊢
  omega

/-- A region of a well formed heap is tiled. -/
theorem Inv.region_tiled : RegionTiled g h (r.bounds g) (r.chunks.length + 1) := by
  have length : (r.full g).length = r.chunks.length + 2 := by simp [full]
  refine ⟨inv.node_lands member, fun steps inside => inv.node_inside member inside, ?_, ?_, ?_, ?_⟩
  · intro steps inside
    have before : steps < (r.full g).length := by omega
    have here : steps + 1 < (r.full g).length := by omega
    rw [(inv.node_header member here).2, (inv.node_header member before).1,
      clearAlloc_tag (inv.carry_small member _), carry_take_succ 0 (r.full g) before]
  · intro steps positive inside
    obtain ⟨index, rfl⟩ := Nat.exists_eq_add_of_lt positive
    have here : 0 + index + 1 < (r.full g).length := by omega
    have bound : index < r.chunks.length := by omega
    have own : (r.full g)[0 + index + 1] = r.chunks[index] := by
      simp [full, getElem_append_left bound]
    have sizes := (inv.shape r member).sizes _ (getElem_mem bound)
    rw [(inv.node_header member here).1, own]
    exact ⟨Nat.lt_of_lt_of_le g.freeNode_pos sizes.1, sizes.2⟩
  · have field := (inv.node_header member (show 0 < (r.full g).length by omega)).2
    have start : h.node (r.bounds g) 0 = (r.bounds g).heapstart := rfl
    rw [start] at field
    rw [field, allocated_tag (inv.carry_small member 0)]
    rfl
  · have here : r.chunks.length + 1 < (r.full g).length := by omega
    have field := (inv.node_header member here).2
    rw [inv.node_lands member] at field
    rw [field, allocated_tag (inv.carry_small member _)]
    simp [Region.full, Region.guard]

end

theorem Inv.isChunk_iff (inv : Inv g h layout nodes []) (a : Nat) :
    IsChunk h a ↔ ∃ chunk, (a, chunk) ∈ places g layout := by
  constructor
  · rintro ⟨bounds, listed, steps, reached, inside⟩
    rw [inv.bounds] at listed
    obtain ⟨r, member, rfl⟩ := mem_map.mp listed
    have bound : steps < r.chunks.length := by
      by_contra beyond
      have passed : h.node (r.bounds g) (r.chunks.length + 1) ≤ h.node (r.bounds g) (steps + 1) :=
        walk_mono _ _ (by omega)
      rw [inv.node_lands member] at passed
      omega
    rw [inv.node_chunk member (Nat.le_of_lt bound)] at reached
    refine ⟨r.chunks[steps], mem_flatMap.mpr ⟨r, member, ?_⟩⟩
    rw [mem_place_iff]
    exact ⟨steps, bound, by rw [reached]⟩
  · rintro ⟨chunk, placed⟩
    obtain ⟨r, member, own⟩ := mem_flatMap.mp placed
    obtain ⟨steps, bound, entry⟩ := (mem_place_iff _).mp own
    have address : a = r.first g + total (r.chunks.take steps) := congrArg Prod.fst entry
    refine ⟨r.bounds g, ?_, steps, ?_, ?_⟩
    · rw [inv.bounds]
      exact mem_map_of_mem member
    · rw [inv.node_chunk member (Nat.le_of_lt bound), address]
    · rw [address, ← inv.node_chunk member (Nat.le_of_lt bound)]
      exact inv.node_inside member (by omega)

theorem Inv.places_distinct (inv : Inv g h layout nodes []) :
    (places g layout).Pairwise fun first second => first.1 ≠ second.1 := by
  apply pairwise_flatMap.mpr
  constructor
  · intro r member
    apply place_distinct
    intro chunk inside
    exact Nat.lt_of_lt_of_le g.freeNode_pos ((inv.shape r member).sizes chunk inside).1
  · have apart := pairwise_map.mp inv.apart
    apply List.Pairwise.imp _ apart
    intro left right separate first firstIn second secondIn same
    have firstRange := place_bounds firstIn
    have secondRange := place_bounds secondIn
    have header := g.allocNode_pos
    simp only [Apart, Region.span, Region.limit, Region.first] at separate firstRange secondRange
    omega

theorem Inv.marked_iff (inv : Inv g h layout nodes []) (flag : Bool) (a : Nat) :
    Marked flag (places g layout) a ↔
      IsChunk h a ∧ g.allocated (h.preceding (.chunk a)) = flag := by
  rw [inv.isChunk_iff]
  constructor
  · rintro ⟨chunk, placed, marked⟩
    exact ⟨⟨chunk, placed⟩, by rw [(inv.place_header placed).2, marked]⟩
  · rintro ⟨⟨chunk, placed⟩, marked⟩
    rw [(inv.place_header placed).2] at marked
    exact ⟨chunk, placed, marked⟩

/-- Two placed chunks that are not the same do not overlap. -/
theorem Inv.places_apart {pending : List Nat} (inv : Inv g h layout nodes pending)
    {a b size other : Nat} {flag mark : Bool} (first : (a, ⟨size, flag⟩) ∈ places g layout)
    (second : (b, ⟨other, mark⟩) ∈ places g layout) (differ : a ≠ b ∨ flag ≠ mark) :
    a + size ≤ b ∨ b + other ≤ a := by
  obtain ⟨s, filled, start⟩ := Spot.of_place first
  rw [filled] at inv second
  rcases (Spot.mem_places _).mp second with outside | own
  · have apart := inv.outer_outside outside
    simp only [total_cons, total_nil, Nat.add_zero] at apart
    omega
  · simp only [place_cons, place_nil, mem_cons, not_mem_nil, or_false, Prod.mk.injEq,
      Chunk.mk.injEq] at own
    rcases differ with differ | differ
    · exact absurd (start.trans own.1.symm) differ
    · exact absurd own.2.2.symm differ

/-- A well formed heap whose pointers are owned is tiled, and its pointers name disjoint
allocated chunks. -/
theorem Owned.tiled {live : List Nat} (owned : Owned g h live layout nodes) : Tiled g h live := by
  have inv := owned.inv
  have named : ∀ mem ∈ live, ∃ chunk, (mem - g.allocNode, chunk) ∈ places g layout ∧
      chunk.used = true ∧ g.allocNode ≤ mem := by
    intro mem held
    obtain ⟨b, ⟨chunk, placed, used⟩, rfl⟩ := (owned.owned mem).mp held
    rw [Nat.add_sub_cancel]
    exact ⟨chunk, placed, used, Nat.le_add_left _ _⟩
  refine ⟨?_, ?_, ?_⟩
  · intro bounds listed
    rw [inv.bounds] at listed
    obtain ⟨r, member, rfl⟩ := mem_map.mp listed
    exact ⟨_, inv.region_tiled member⟩
  · intro mem held
    obtain ⟨chunk, placed, used, low⟩ := named mem held
    refine ⟨low, (inv.isChunk_iff _).mpr ⟨chunk, placed⟩, ?_⟩
    rw [(inv.place_header placed).2, used]
  · apply List.Pairwise.imp_of_mem _ owned.distinct
    intro left right leftHeld rightHeld differ
    obtain ⟨leftChunk, leftPlaced, _, leftLow⟩ := named left leftHeld
    obtain ⟨rightChunk, rightPlaced, _, rightLow⟩ := named right rightHeld
    have leftSize := (inv.place_header leftPlaced).1
    have rightSize := (inv.place_header rightPlaced).1
    unfold ChunksApart
    rw [leftSize, rightSize]
    exact inv.places_apart leftPlaced rightPlaced (.inl (by omega))

end Walk

/-- Following the forward links from a node visits exactly these nodes and then ends. -/
def Visits (flink : Node → Option Node) : Option Node → List Node → Prop
  | start, [] => start = none
  | start, node :: rest => start = some node ∧ Visits flink (flink node) rest

/-- The nodes of a free list with the given chunks in its buckets. -/
def bucketNodes (g : Geometry) (bucket : Nat → List Nat) : List Node :=
  (List.range g.nnodes).flatMap fun index => .head index :: (bucket index).map .chunk

/-- The free list visits the bucket headers in order, each followed by the free chunks of its
bucket in order of size, and every free chunk is visited once. -/
structure ListedByBucket (g : Geometry) (h : Heap) (bucket : Nat → List Nat) : Prop where
  /-- The forward links from the first header visit headers and buckets in order. -/
  visits : Visits h.flink (some (.head 0)) (bucketNodes g bucket)
  /-- A bucket holds the free chunks whose size maps to it. -/
  members : ∀ index < g.nnodes, ∀ a, a ∈ bucket index ↔ IsChunk h a ∧
    h.isFree g (.chunk a) = true ∧ g.mmSize2ndx (h.size (.chunk a)) = index
  once : ∀ index, (bucket index).Nodup
  ordered : ∀ index, (bucket index).Pairwise fun a b => h.size (.chunk a) ≤ h.size (.chunk b)
  /-- The backward links are the inverse of the forward links. -/
  inverse : ∀ node ∈ bucketNodes g bucket, ∀ other ∈ bucketNodes g bucket,
    h.flink node = some other ↔ h.blink other = some node
  first : h.blink (.head 0) = none

section Buckets

variable {α : Type}

/-- The items up to a key are those below it and then those at it, when they are sorted by key. -/
theorem filter_key_succ (key : α → Nat) (bound : Nat) (items : List α)
    (sorted : items.Pairwise fun a b => key a ≤ key b) :
    items.filter (fun a => decide (key a < bound + 1)) =
      items.filter (fun a => decide (key a < bound)) ++
        items.filter (fun a => decide (key a = bound)) := by
  induction items with
  | nil => rfl
  | cons item rest ih =>
    obtain ⟨least, restSorted⟩ := pairwise_cons.mp sorted
    by_cases below : key item < bound
    · have upper : key item < bound + 1 := by omega
      have other : key item ≠ bound := by omega
      simp only [filter_cons, upper, below, other, decide_true, decide_false, if_true,
        Bool.false_eq_true, if_false, ih restSorted, cons_append]
    have above : ∀ other ∈ item :: rest, bound ≤ key other :=
      forall_mem_cons.mpr ⟨Nat.le_of_not_lt below, fun other inside =>
        Nat.le_trans (Nat.le_of_not_lt below) (least other inside)⟩
    have none : (item :: rest).filter (fun a => decide (key a < bound)) = [] :=
      filter_eq_nil_iff.mpr fun other inside => by simpa using above other inside
    rw [none]
    apply filter_congr
    intro other inside
    have low := above other inside
    exact decide_eq_decide.mpr (by omega)

theorem flatMap_filter_key (key : α → Nat) (bound : Nat) (items : List α)
    (sorted : items.Pairwise fun a b => key a ≤ key b) :
    (List.range bound).flatMap (fun index => items.filter fun a => decide (key a = index)) =
      items.filter (fun a => decide (key a < bound)) := by
  induction bound with
  | zero => simp
  | succ bound ih =>
    rw [range_succ, flatMap_append, ih, filter_key_succ key bound items sorted]
    simp

end Buckets

section Listing

variable {g : Geometry} {h : Heap} {nodes : List Node} {layout : List Region}

def Node.address : Node → Option Nat
  | .head _ => none
  | .chunk a => some a

/-- The chunks of one bucket in list order. -/
def bucketOf (g : Geometry) (h : Heap) (nodes : List Node) (index : Nat) : List Nat :=
  (nodes.filter fun node => decide (node.bucket g h.size = index)).filterMap Node.address

theorem visits_of_seg {flink blink : Node → Option Node} {before : Option Node}
    (linked : Links.Seg flink blink before nodes none) : Visits flink nodes.head? nodes := by
  induction nodes generalizing before with
  | nil => rfl
  | cons node rest ih =>
    obtain ⟨_, next, tail⟩ := linked
    refine ⟨rfl, ?_⟩
    rw [next, Option.or_none]
    exact ih tail

section

variable (list : FreeList g h.size h.flink h.blink nodes)

include list

theorem FreeList.bucket_lt {node : Node} (inside : node ∈ nodes) :
    node.bucket g h.size < g.nnodes := by
  cases node with
  | head index => exact (list.heads index).mp inside
  | chunk a => exact g.mmSize2ndx_lt _

/-- The nodes of one bucket are its header and then its chunks. -/
theorem FreeList.bucket_nodes {index : Nat} (bound : index < g.nnodes) :
    nodes.filter (fun node => decide (node.bucket g h.size = index)) =
      .head index :: (bucketOf g h nodes index).map .chunk := by
  have sorted := list.sorted.filter fun node => decide (node.bucket g h.size = index)
  have distinct := list.distinct.filter fun node => decide (node.bucket g h.size = index)
  have headIn : head index ∈
      nodes.filter (fun node => decide (node.bucket g h.size = index)) := by
    simp [(list.heads index).mpr bound]
  have among : ∀ node ∈ nodes.filter (fun node => decide (node.bucket g h.size = index)),
      node ∈ nodes ∧ node.bucket g h.size = index := by
    intro node inside
    simpa using mem_filter.mp inside
  unfold bucketOf
  generalize nodes.filter (fun node => decide (node.bucket g h.size = index)) = own at *
  obtain ⟨front, back, rfl⟩ := append_of_mem headIn
  have headSize : h.size (.head index) = 0 := list.headSize index (among _ headIn).1
  have nothing : front = [] := by
    cases front with
    | nil => rfl
    | cons node rest =>
      have inside := among node (by simp)
      have order := (pairwise_append.mp sorted).2.2 node (by simp) (.head index) (by simp)
      have differs : node ≠ .head index := (nodup_append.mp distinct).2.2 node (by simp) _ (by simp)
      cases node with
      | head other =>
        have same : other = index := inside.2
        exact absurd (by rw [same]) differs
      | chunk a =>
        have positive := (list.chunks a inside.1).1
        have bucket := inside.2
        rcases order with lower | ⟨_, ordered⟩
        · rw [bucket_head] at lower
          omega
        · omega
  subst nothing
  simp only [nil_append] at distinct among ⊢
  have chunks : ∀ node ∈ back, ∃ a, node = .chunk a := by
    intro node inside
    cases node with
    | head other =>
      have same : other = index := (among _ (mem_cons_of_mem _ inside)).2
      rw [same] at inside
      exact absurd inside (nodup_cons.mp distinct).1
    | chunk a => exact ⟨a, rfl⟩
  rw [filterMap_cons]
  simp only [address]
  congr 1
  clear among distinct sorted headIn
  induction back with
  | nil => rfl
  | cons node rest ih =>
    obtain ⟨a, rfl⟩ := chunks node (by simp)
    have tail := ih fun other inside => chunks other (by simp [inside])
    rw [filterMap_cons]
    simp only [address, map_cons]
    rw [← tail]

theorem FreeList.eq_bucketNodes : nodes = bucketNodes g (bucketOf g h nodes) := by
  have sorted : nodes.Pairwise fun a b => a.bucket g h.size ≤ b.bucket g h.size := by
    apply List.Pairwise.imp _ list.sorted
    intro left right order
    rcases order with lower | ⟨equal, _⟩
    · exact Nat.le_of_lt lower
    · exact Nat.le_of_eq equal
  have split := flatMap_filter_key (fun node => bucket g h.size node) g.nnodes nodes sorted
  have all : nodes.filter (fun node => decide (node.bucket g h.size < g.nnodes)) = nodes := by
    apply filter_eq_self.mpr
    intro node inside
    simpa using list.bucket_lt inside
  rw [all] at split
  rw [← split]
  apply flatMap_congr
  intro index inside
  rw [split]
  exact list.bucket_nodes (mem_range.mp inside)

theorem FreeList.inverse {node other : Node} (nodeIn : node ∈ nodes) (otherIn : other ∈ nodes) :
    h.flink node = some other ↔ h.blink other = some node := by
  constructor
  · intro forward
    obtain ⟨front, back, rfl⟩ := append_of_mem nodeIn
    have fields := Links.seg_fields list.linked
    rw [fields.2] at forward
    cases back with
    | nil => simp at forward
    | cons next rest =>
      obtain rfl : next = other := by simpa using forward
      have view : front ++ node :: next :: rest = (front ++ [node]) ++ next :: rest := by simp
      have linked := list.linked
      rw [view] at linked
      rw [(Links.seg_fields linked).1]
      simp
  · intro backward
    obtain ⟨front, back, rfl⟩ := append_of_mem otherIn
    have fields := Links.seg_fields list.linked
    rw [fields.1] at backward
    rcases eq_nil_or_concat front with empty | ⟨others, last, split⟩
    · simp [empty] at backward
    · rw [split] at backward
      obtain rfl : last = node := by simpa using backward
      have view : front ++ other :: back = others ++ last :: (other :: back) := by simp [split]
      have linked := list.linked
      rw [view] at linked
      rw [(Links.seg_fields linked).2]
      rfl

theorem FreeList.head_first : nodes.head? = some (.head 0) := by
  have positive : 0 < g.nnodes := by
    unfold nnodes
    omega
  rw [list.eq_bucketNodes]
  unfold bucketNodes
  cases count : g.nnodes with
  | zero => omega
  | succ rest => simp [range_succ_eq_map]

end

theorem Node.of_address {node : Node} {a : Nat} (address : node.address = some a) :
    node = .chunk a := by
  cases node with
  | head other => cases address
  | chunk b => rw [Option.some.inj address]

/-- A well formed heap's free list is listed by bucket. -/
theorem Inv.listed_by_bucket (inv : Inv g h layout nodes []) :
    ListedByBucket g h (bucketOf g h nodes) := by
  have list := inv.list
  have view := list.eq_bucketNodes
  have startHead := list.head_first
  refine ⟨?_, ?_, ?_, ?_, ?_, ?_⟩
  · rw [← view, ← startHead]
    exact visits_of_seg list.linked
  · intro index _ a
    have listed := inv.listed a
    have inside : a ∈ bucketOf g h nodes index ↔
        .chunk a ∈ nodes ∧ g.mmSize2ndx (h.size (.chunk a)) = index := by
      unfold bucketOf
      rw [mem_filterMap]
      constructor
      · rintro ⟨node, among, address⟩
        rw [of_address address] at among
        have kept := mem_filter.mp among
        exact ⟨kept.1, of_decide_eq_true kept.2⟩
      · rintro ⟨member, bucket⟩
        exact ⟨.chunk a, mem_filter.mpr ⟨member, decide_eq_true bucket⟩, rfl⟩
    rw [inside, listed]
    have free : Marked false (places g layout) a ↔
        IsChunk h a ∧ h.isFree g (.chunk a) = true := by
      rw [inv.marked_iff, Heap.isFree]
      simp
    rw [free]
    simp [and_assoc]
  · intro index
    apply List.Pairwise.filterMap _ _ (list.distinct.filter _)
    intro left right differ a leftAddress b rightAddress same
    exact differ (by rw [of_address leftAddress, of_address rightAddress, same])
  · intro index
    have sorted := list.sorted.filter fun node => decide (node.bucket g h.size = index)
    have inBucket : ∀ node ∈ nodes.filter (fun node => decide (node.bucket g h.size = index)),
        node.bucket g h.size = index := by
      intro node inside
      simpa using (mem_filter.mp inside).2
    apply List.Pairwise.filterMap _ _ (sorted.imp_of_mem
      (S := fun left right => h.size left ≤ h.size right) _)
    · intro left right order a leftAddress b rightAddress
      rw [of_address leftAddress, of_address rightAddress] at order
      exact order
    · intro left right leftIn rightIn order
      rcases order with lower | ⟨_, ordered⟩
      · rw [inBucket left leftIn, inBucket right rightIn] at lower
        omega
      · exact ordered
  · rw [← view]
    intro node nodeIn other otherIn
    exact list.inverse nodeIn otherIn
  · cases nodesEq : nodes with
    | nil => simp [nodesEq] at startHead
    | cons node rest =>
      have same : node = .head 0 := by simpa [nodesEq] using startHead
      have linked := list.linked
      rw [nodesEq, same] at linked
      exact linked.1

end Listing

end Chewie.Mm
