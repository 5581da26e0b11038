import Chewie.Mm.Heap.Runs
import Mathlib.Data.Nat.Prime.Basic

/-!
# Requests near the end of `size_t`

Adding the header and rounding up is done modulo the width of `size_t`, and no function but a debug
assertion looks at the result. A request just below the limit is rounded to zero or to a single
granule. This module says for which requests the allocators still keep their promise: a pointer
other than NULL has the requested bytes behind it, and the heap stays well formed.
-/

namespace Chewie.Mm

open Mm.Geometry Tags Option List Heap

open Tags (Chunk total place)

/-- A pointer that is not NULL has the requested bytes behind it and the heap is well formed. -/
def Granted (g : Geometry) (request : Nat) (result : Option (Heap × Nat)) : Prop :=
  ∀ h mem, result = some (h, mem) → mem ≠ 0 →
    WellFormed g h ∧ g.allocNode ≤ mem ∧ IsChunk h (mem - g.allocNode) ∧
      request + g.allocNode ≤ h.size (.chunk (mem - g.allocNode))

/-- The pointer is behind the header of an allocated chunk. -/
def Held (g : Geometry) (h : Heap) (mem : Nat) : Prop :=
  g.allocNode ≤ mem ∧ IsChunk h (mem - g.allocNode) ∧
    g.allocated (h.preceding (.chunk (mem - g.allocNode))) = true

/-- Every free chunk is smaller than the wanted size. -/
def Exhausted (g : Geometry) (h : Heap) (want : Nat) : Prop :=
  ∀ a, IsChunk h a → h.isFree g (.chunk a) = true → h.size (.chunk a) < want

section Grants

variable {g : Geometry} {h : Heap} {layout : List Region} {nodes : List Node}
variable {request mem : Nat}

theorem Inv.owned (inv : Inv g h layout nodes []) : ∃ live, Owned g h live layout nodes := by
  refine ⟨(((places g layout).filter fun entry => entry.2.used).map fun entry =>
    entry.1 + g.allocNode), inv, ?_, ?_⟩
  · intro a
    rw [List.mem_map]
    constructor
    · rintro ⟨entry, inside, rfl⟩
      obtain ⟨placed, used⟩ := mem_filter.mp inside
      exact ⟨entry.1, ⟨entry.2, placed, used⟩, rfl⟩
    · rintro ⟨b, ⟨chunk, placed, used⟩, rfl⟩
      exact ⟨(b, chunk), mem_filter.mpr ⟨placed, used⟩, rfl⟩
  · apply pairwise_map.mpr
    apply Pairwise.imp _ (inv.places_distinct.filter _)
    intro left right differ same
    exact differ (Nat.add_right_cancel same)

theorem Held.live {live : List Nat} (held : Held g h mem) (owned : Owned g h live layout nodes) :
    mem ∈ live := by
  obtain ⟨header, chunk, used⟩ := held
  rw [owned.owned]
  exact ⟨mem - g.allocNode, (owned.inv.marked_iff true _).mpr ⟨chunk, used⟩, by omega⟩

theorem Serves.granted {least : Nat} (inv : Inv g h layout nodes [])
    (serves : mem ≠ 0 → Serves g layout mem least) (enough : request + g.allocNode ≤ least) :
    Granted g request (some (h, mem)) := by
  intro h' mem' result notNull
  obtain ⟨rfl, rfl⟩ := result
  obtain ⟨a, size, placed, rfl, large⟩ := serves notNull
  rw [Nat.add_sub_cancel, (inv.place_header placed).1]
  exact ⟨⟨layout, nodes, inv⟩, Nat.le_add_left _ _, (inv.isChunk_iff a).mpr ⟨_, placed⟩,
    Nat.le_trans enough large⟩

theorem granted_null (h : Heap) : Granted g request (some (h, 0)) := by
  intro h' mem result notNull
  simp only [Option.some.injEq, Prod.mk.injEq] at result
  exact absurd result.2.symm notNull

theorem WellFormed.small (wellFormed : WellFormed g h) {a : Nat} (chunk : IsChunk h a) :
    h.size (.chunk a) < 2 ^ g.allocShift := by
  obtain ⟨layout, nodes, inv⟩ := wellFormed
  obtain ⟨entry, placed⟩ := (inv.isChunk_iff a).mp chunk
  obtain ⟨s, filled, rfl⟩ := Spot.of_place placed
  rw [filled] at inv placed
  have small := inv.small
  have size := (inv.place_header placed).1
  simp only [total_cons, total_nil] at small size
  omega

theorem not_granted (large : 2 ^ g.allocShift ≤ request) (notNull : mem ≠ 0) :
    ¬Granted g request (some (h, mem)) := by
  intro granted
  obtain ⟨wellFormed, _, chunk, enough⟩ := granted h mem rfl notNull
  have small := wellFormed.small chunk
  omega

theorem mmMalloc_granted (inv : Inv g h layout nodes []) (ok : RequestOk g request) :
    Granted g request (mmMalloc g h request) := by
  obtain ⟨live, owned⟩ := inv.owned
  obtain ⟨h', mem, layout', nodes', allocated, owned', _, _, serves⟩ :=
    mmMalloc_owned owned (Or.inr ok.nonzero)
  rw [allocated]
  exact Serves.granted owned'.inv serves ok.bounds.1

theorem mmMalloc_exhausted (inv : Inv g h layout nodes []) (nonzero : chunkSize g request ≠ 0)
    (exhausted : Exhausted g h (chunkSize g request)) : mmMalloc g h request = some (h, 0) := by
  by_cases empty : request = 0
  · rw [mmMalloc, if_pos (by omega)]
  rcases mmMalloc_spec inv (Nat.pos_of_ne_zero empty) nonzero with
    ⟨failed, _⟩ | ⟨s, size, h', nodes', allocates, _⟩
  · exact failed
  · have placed : (s.start g, ⟨size, false⟩) ∈ places g layout := by
      rw [allocates.found]
      exact @Spot.place_mem g s [] [] ⟨size, false⟩
    have marked := (inv.marked_iff false _).mp ⟨_, placed, rfl⟩
    have less := exhausted _ marked.1 (by rw [isFree, marked.2]; rfl)
    have fits := allocates.fits
    rw [(inv.place_header placed).1] at less
    simp only at less
    omega

end Grants

section Zero

variable {g : Geometry} {h : Heap} {layout : List Region} {nodes : List Node}

theorem mmAddfreechunk_empty {node : Node} (empty : h.size node = 0) :
    ∃ h', mmAddfreechunk g h node = some h' := by
  have found := @Links.seek_stop _ h.flink
    (fun next => !(h.size next != 0 && decide (h.size next < h.size node))) g.fuel
    (.head (g.mmSize2ndx (h.size node))) (h.flink (.head (g.mmSize2ndx (h.size node))))
    (Nat.succ_pos _) (by simp [empty])
  rw [mmAddfreechunk]
  simp only [found, bind_eq_bind, bind_some]
  exact ⟨_, rfl⟩

theorem mallocTake_zero {a : Nat} (linked : ∃ prev, h.blink (.chunk a) = some prev)
    (fits : a + g.allocNode < 2 ^ g.wordBits) :
    ∃ h', mallocTake g h (.chunk a) 0 = some (h', a + g.allocNode) := by
  obtain ⟨prev, linked⟩ := linked
  have payload : g.add a g.allocNode = a + g.allocNode := add_eq fits
  have unlinked : ∃ h₁, h.unlink (.chunk a) = some h₁ := by
    rw [unlink, linked]
    exact ⟨_, rfl⟩
  obtain ⟨h₁, unlinked⟩ := unlinked
  rw [mallocTake, unlinked]
  simp only [bind_eq_bind, bind_some]
  by_cases room : g.freeNode ≤ g.sub (h₁.size (.chunk a)) 0
  · have split : ∃ h₂, mallocSplit g h₁ (.chunk a) 0 (g.sub (h₁.size (.chunk a)) 0) = some h₂ := by
      have remainder : h₁.after g (.chunk a) 0 = .chunk a := after_chunk _ (by omega)
      unfold mallocSplit
      simp only [remainder]
      apply mmAddfreechunk_empty
      simp [mmsize, Word.wrap]
    obtain ⟨h₂, split⟩ := split
    rw [if_pos room, split]
    simp only [bind_some, addr_chunk, payload]
    exact ⟨_, rfl⟩
  · rw [if_neg room]
    simp only [bind_some, addr_chunk, payload]
    exact ⟨_, rfl⟩

theorem FreeList.first_next (list : FreeList g h.size h.flink h.blink nodes) (two : 2 ≤ g.nnodes) :
    ∃ node ∈ nodes, h.flink (.head 0) = some node ∧ h.blink node = some (.head 0) ∧
      node ≠ .head 0 := by
  have first := list.head_first
  have second : Node.head 1 ∈ nodes := (list.heads 1).mpr two
  have linked := list.linked
  have distinct := list.distinct
  cases nodes with
  | nil => cases second
  | cons node rest =>
    obtain rfl : node = .head 0 := by simpa using first
    cases rest with
    | nil => simp at second
    | cons next others =>
      obtain ⟨_, forward, backward, _⟩ := linked
      refine ⟨next, by simp, by simpa using forward, backward, ?_⟩
      rintro rfl
      simp at distinct

/-- A request rounded to zero always gets a pointer: to the first chunk of the first bucket, or into
the table of bucket headers. -/
theorem mmMalloc_zero {request : Nat} (inv : Inv g h layout nodes []) (positive : 0 < request)
    (zero : chunkSize g request = 0) (two : 2 ≤ g.nnodes)
    (table : h.nodelist + g.nnodes * g.freeNode < 2 ^ g.wordBits) :
    ∃ h' mem, mmMalloc g h request = some (h', mem) ∧ mem ≠ 0 := by
  have header := g.allocNode_pos
  obtain ⟨node, inside, forward, backward, _⟩ := inv.list.first_next two
  have found := @Links.seek_stop _ h.flink (fun node => !decide (h.size node < 0)) g.fuel
    (.head 0) (h.flink (.head 0)) (Nat.succ_pos _) (by simp)
  have limit : ¬g.maxChunk ≤ 0 := Nat.not_le.mpr (Nat.two_pow_pos _)
  have bucket : g.mmSize2ndx 0 = 0 := by
    rw [mmSize2ndx, if_neg limit, ndxLoop]
    simp
  have unfolded : mmMalloc g h request = mallocTake g h node 0 := by
    rw [mmMalloc, if_neg (by omega)]
    rw [show g.alignUp (g.add request g.allocNode) = 0 from zero]
    rw [forward] at found
    simp only [limit, if_false, bucket, forward, found, bind_eq_bind, bind_some]
  rw [unfolded]
  cases node with
  | chunk a =>
    obtain ⟨⟨chunk, placed, _⟩, _⟩ := (inv.listed a).mp inside
    obtain ⟨s, filled, rfl⟩ := Spot.of_place placed
    have fits : s.start g + g.allocNode < 2 ^ g.wordBits := by
      rw [filled] at inv
      have space := inv.fits
      omega
    obtain ⟨h', taken⟩ := mallocTake_zero ⟨_, backward⟩ fits
    exact ⟨h', _, taken, by omega⟩
  | head index =>
    have bound : index < g.nnodes := (inv.list.heads index).mp inside
    have empty : h.size (.head index) = 0 := inv.list.headSize index inside
    have entries : (index + 1) * g.freeNode ≤ g.nnodes * g.freeNode := Nat.mul_le_mul_right _ bound
    rw [Nat.succ_mul] at entries
    have larger : g.allocNode ≤ g.freeNode := Nat.le_add_right _ _
    have small : ¬g.freeNode ≤ g.sub 0 0 := by
      rw [sub_eq (Nat.le_refl 0) (Nat.two_pow_pos _)]
      omega
    rw [mallocTake, unlink, backward]
    simp only [bind_eq_bind, bind_some, empty, if_neg small]
    refine ⟨_, _, rfl, ?_⟩
    have address : g.add (h.nodelist + index * g.freeNode) g.allocNode =
        h.nodelist + index * g.freeNode + g.allocNode := by
      apply add_eq
      omega
    simp only [setPreceding, addr, address]
    omega

/-- A held pointer resized to a request that is rounded to zero is returned as it is. -/
theorem reallocInPlace_zero {s : Spot} {size request : Nat}
    (inv : Inv g h (s.fill [⟨size, true⟩]) nodes []) (zero : chunkSize g request = 0) :
    ∃ h', reallocInPlace g h (s.start g + g.allocNode) request =
      some (h', some (s.start g + g.allocNode)) := by
  obtain ⟨wide, left, right, wider⟩ := Widened.of_spot g s
  have reads := wider.reads inv
  have sizes := inv.one.sizes.1
  have bounds := inv.one.bounds
  have here : h.after g (.chunk (s.start g)) 0 = .chunk (s.start g) := after_chunk _ (by omega)
  have shrunk : ∃ h', mmShrinkchunk g h (.chunk (s.start g)) 0 = some h' := by
    rw [mmShrinkchunk, reads.own, reads.behind]
    by_cases free : h.isFree g (.chunk (s.start g + size)) = true
    · have flag := inv.one.isFree
      rw [free] at flag
      have edge := wider.rightEdge
      have after := wider.after
      rw [show (s.next g).used = false by simpa using flag.symm] at edge
      cases edge with
      | free other =>
        have view : s.fill [⟨size, true⟩] =
            Spot.fill { s with after := wide.after } [⟨size, true⟩, ⟨other, false⟩] := by
          simp [Spot.fill, after]
        rw [view] at inv
        obtain ⟨flink, blink, unlinked, _⟩ := inv.unlink inv.two.placed.2 rfl (by simp)
        change h.unlink (.chunk (s.start g + size)) = _ at unlinked
        have front : Heap.after g { h with flink := flink, blink := blink } (.chunk (s.start g)) 0 =
            .chunk (s.start g) := Heap.after_chunk _ (by omega)
        rw [if_pos free, unlinked]
        simp only [bind_eq_bind, bind_some, front]
        apply mmAddfreechunk_empty
        simp [mmsize, Word.wrap]
    · have room : g.add 0 g.freeNode ≤ size := by
        rw [add_eq (by omega)]
        omega
      rw [if_neg free, if_pos room]
      simp only [here]
      apply mmAddfreechunk_empty
      simp [mmsize, Word.wrap]
  obtain ⟨h', shrunk⟩ := shrunk
  refine ⟨h', ?_⟩
  rw [reallocInPlace, reads.back]
  simp only [show g.alignUp (g.add request g.allocNode) = 0 from zero, reads.own]
  rw [if_pos (Nat.zero_le _), if_pos (by omega), shrunk]
  rfl

end Zero

/-- The requests `mm_malloc` meets in the firmware's geometry: rounding does not wrap, or it wraps
to one granule and there is no free chunk at all. -/
def MallocFits (h : Heap) (size : Nat) : Prop :=
  size + 23 < 2 ^ 32 ∨ 2 ^ 32 < size + 8 ∧ Exhausted .standard h 16

/-- The requests `mm_realloc` meets. -/
def ReallocFits (h : Heap) (mem size : Nat) : Prop :=
  if mem = 0 then MallocFits h size else size + 23 < 2 ^ 32

/-- Requests `mm_memalign` meets: widening and rounding do not wrap, or the wrapped request is
refused by `mm_malloc`. -/
def MemalignFits (h : Heap) (alignment size : Nat) : Prop :=
  if alignment ≤ 16 then MallocFits h size
  else
    let allocsize := memalignAllocsize .standard alignment (Geometry.standard.alignUp size)
    (size + 15 < 2 ^ 32 ∧ Geometry.standard.alignUp size + 2 * alignment + 23 < 2 ^ 32) ∨
      allocsize = 0 ∨
      allocsize + 23 < 2 ^ 32 ∧ Exhausted .standard h (chunkSize .standard allocsize)

section Standard

variable {h : Heap} {layout : List Region} {nodes : List Node}

theorem chunkSize_standard (size : Nat) :
    chunkSize .standard size = ((size + 8) % 2 ^ 32 + 15) % 2 ^ 32 / 16 * 16 := by
  rw [chunkSize, alignUp_eq]
  rfl

theorem requestOk_standard {size : Nat} (fits : size + 23 < 2 ^ 32) : RequestOk .standard size :=
  fits

section

variable (inv : Inv .standard h layout nodes [])

include inv

/-- `mm_malloc` meets exactly the requests that fit. -/
theorem mmMalloc_standard (table : h.nodelist + 304 < 2 ^ 32) {size : Nat} (word : size < 2 ^ 32) :
    Granted .standard size (mmMalloc .standard h size) ↔ MallocFits h size := by
  have rounded := chunkSize_standard size
  have reach : (2 : Nat) ^ standard.allocShift = 2 ^ 31 := rfl
  by_cases plain : size + 23 < 2 ^ 32
  · exact ⟨fun _ => Or.inl plain, fun _ => mmMalloc_granted inv (requestOk_standard plain)⟩
  by_cases wrapped : 2 ^ 32 < size + 8
  · have one : chunkSize .standard size = 16 := by
      omega
    constructor
    · intro granted
      refine Or.inr ⟨wrapped, ?_⟩
      rcases mmMalloc_spec inv (by omega : 0 < size) (by omega) with
        ⟨_, none⟩ | ⟨s, old, h', nodes', _, taken, _⟩
      · intro a chunk free
        obtain ⟨entry, placed, unused⟩ := (inv.marked_iff false a).mpr
          ⟨chunk, by simpa [isFree] using free⟩
        have less := none a entry placed unused
        rw [one] at less
        rw [(inv.place_header placed).1]
        exact less
      · rw [taken] at granted
        exact absurd granted (not_granted (by omega) (by
          have header := standard.allocNode_pos
          omega))
    · intro fits
      have none : Exhausted .standard h (chunkSize .standard size) := by
        rw [one]
        exact (fits.resolve_left plain).2
      rw [mmMalloc_exhausted inv (by omega) none]
      exact granted_null h
  · have zero : chunkSize .standard size = 0 := by
      omega
    have pointer := mmMalloc_zero inv (by omega : 0 < size) zero (by decide) table
    obtain ⟨h', mem, taken, notNull⟩ := pointer
    constructor
    · intro granted
      rw [taken] at granted
      exact absurd granted (not_granted (by omega) notNull)
    · rintro (fits | fits)
      · exact absurd fits plain
      · exact absurd fits.1 wrapped

/-- `mm_realloc` returns a held pointer when the rounded request wraps. -/
theorem mmRealloc_wraps {mem size : Nat} (held : Held .standard h mem) (word : size < 2 ^ 32)
    (wraps : ¬size + 23 < 2 ^ 32) : ∃ h', mmRealloc .standard h mem size = some (h', mem) := by
  have rounded := chunkSize_standard size
  obtain ⟨live, owned⟩ := inv.owned
  obtain ⟨s, old, rfl, rfl⟩ := owned.spot (held.live owned)
  have header := standard.allocNode_pos
  have sizes : standard.freeNode ≤ old := (inv.sizes ⟨old, true⟩ (by simp)).1
  have node : standard.freeNode = 16 := rfl
  have inPlace : ∃ h', reallocInPlace .standard h
      (s.start .standard + standard.allocNode) size =
        some (h', some (s.start .standard + standard.allocNode)) := by
    by_cases wrapped : 2 ^ 32 < size + 8
    · have one : chunkSize .standard size = 16 := by
        omega
      obtain ⟨wide, left, right, wider⟩ := Widened.of_spot .standard s
      have nonzero : chunkSize .standard size ≠ 0 := by omega
      obtain ⟨h', nodes', layout', result, performed, resized, _⟩ := reallocInPlace_spec inv wider
        nonzero (growth_of_unit (by decide) inv)
      cases resized with
      | shrink smaller => exact ⟨h', performed⟩
      | keep same => exact ⟨h', performed⟩
      | grow larger => omega
      | move short => omega
    · exact reallocInPlace_zero inv (by rw [rounded]; omega)
  obtain ⟨h', performed⟩ := inPlace
  refine ⟨h', ?_⟩
  rw [mmRealloc, if_neg (by omega), if_neg (by omega), performed]
  rfl

theorem mmRealloc_standard (table : h.nodelist + 304 < 2 ^ 32) {mem size : Nat}
    (word : size < 2 ^ 32) (held : mem = 0 ∨ Held .standard h mem) :
    Granted .standard size (mmRealloc .standard h mem size) ↔ ReallocFits h mem size := by
  unfold ReallocFits
  by_cases null : mem = 0
  · rw [if_pos null, mmRealloc, if_pos null]
    exact mmMalloc_standard inv table word
  rw [if_neg null]
  have pointer := held.resolve_left null
  by_cases plain : size + 23 < 2 ^ 32
  · refine ⟨fun _ => plain, fun _ => ?_⟩
    obtain ⟨live, owned⟩ := inv.owned
    have inside := pointer.live owned
    have ok := requestOk_standard plain
    obtain ⟨h', new, layout', nodes', performed, owned', _, _, serves⟩ :=
      mmRealloc_owned owned (Or.inr inside) ok (by
        intro _
        obtain ⟨s, old, rfl, rfl⟩ := owned.spot inside
        exact growth_of_unit (by decide) inv)
    rw [performed]
    exact Serves.granted owned'.inv serves ok.bounds.1
  · obtain ⟨h', performed⟩ := mmRealloc_wraps inv pointer word plain
    rw [performed]
    have reach : (2 : Nat) ^ standard.allocShift = 2 ^ 31 := rfl
    exact ⟨fun granted => absurd granted (not_granted (by omega) null),
      fun fits => absurd fits plain⟩

/-- `mm_memalign` meets the requests that fit. -/
theorem mmMemalign_standard (table : h.nodelist + 304 < 2 ^ 32) {exponent size : Nat}
    (word : size < 2 ^ 32) (fits : MemalignFits h (2 ^ exponent) size) :
    Granted .standard size (mmMemalign .standard h (2 ^ exponent) size) := by
  have granule : standard.minChunk = 16 := rfl
  unfold MemalignFits at fits
  by_cases fine : 2 ^ exponent ≤ 16
  · rw [if_pos fine] at fits
    rw [mmMemalign, if_pos (show 2 ^ exponent ≤ standard.minChunk from fine)]
    exact (mmMalloc_standard inv table word).mpr fits
  rw [if_neg fine] at fits
  have refused : ∀ request, memalignAllocsize .standard (2 ^ exponent)
      (standard.alignUp size) = request → mmMalloc .standard h request = some (h, 0) →
      Granted .standard size (mmMemalign .standard h (2 ^ exponent) size) := by
    intro request asked none
    rw [mmMemalign, if_neg (by omega)]
    simp only [asked, none, bind_eq_bind, bind_some, if_true]
    exact granted_null h
  rcases fits with ⟨rounds, room⟩ | zero | ⟨plain, exhausted⟩
  · obtain ⟨live, owned⟩ := inv.owned
    obtain ⟨h', mem, layout', nodes', performed, owned', _, _, serves⟩ :=
      mmMemalign_owned owned (by omega) rounds (requestOk_standard room)
    rw [performed]
    exact Serves.granted owned'.inv (fun notNull => (serves notNull).2) (Nat.le_refl _)
  · apply refused 0 zero
    rw [mmMalloc, if_pos (by decide)]
  · apply refused _ rfl
    exact mmMalloc_exhausted inv (requestOk_standard plain).nonzero exhausted

end

end Standard

/-- Which requests the allocators meet in every well formed heap of the firmware's geometry, for
every `size_t` size: exactly those that fit, and for `mm_memalign` at least those. -/
theorem usable_size (h : Heap) (wellFormed : WellFormed .standard h)
    (table : h.nodelist + 304 < 2 ^ 32) :
    (∀ size < 2 ^ 32, Granted .standard size (mmMalloc .standard h size) ↔ MallocFits h size) ∧
    (∀ mem, ∀ size < 2 ^ 32, mem = 0 ∨ Held .standard h mem →
      (Granted .standard size (mmRealloc .standard h mem size) ↔ ReallocFits h mem size)) ∧
    ∀ exponent < 32, ∀ size < 2 ^ 32,
      (MemalignFits h (2 ^ exponent) size →
        Granted .standard size (mmMemalign .standard h (2 ^ exponent) size)) ∧
      (2 ^ exponent ≤ 16 → Granted .standard size (mmMemalign .standard h (2 ^ exponent) size) →
        MemalignFits h (2 ^ exponent) size) := by
  obtain ⟨layout, nodes, inv⟩ := wellFormed
  refine ⟨?_, ?_, ?_⟩
  · intro size word
    exact mmMalloc_standard inv table word
  · intro mem size word held
    exact mmRealloc_standard inv table word held
  · intro exponent _ size word
    refine ⟨mmMemalign_standard inv table word, ?_⟩
    intro fine granted
    rw [mmMemalign, if_pos (show 2 ^ exponent ≤ Geometry.standard.minChunk from fine)] at granted
    rw [MemalignFits, if_pos fine]
    exact (mmMalloc_standard inv table word).mp granted

theorem wellFormed_malloc : ∃ h,
    (mmInitialize .standard blank 4096 1024).bind (fun h =>
      (mmMalloc .standard h 100).map Prod.fst) = some h ∧
    WellFormed .standard h ∧ Held .standard h 4112 := by
  obtain ⟨h₀, initialized, sound⟩ :=
    @mmInitialize_sound .standard blank 4096 1024 (by decide +kernel)
  obtain ⟨h₁, mem, allocated, layout, nodes, owned, _⟩ :=
    sound.malloc (show RequestOk .standard 100 by decide +kernel)
  have pointer : ∀ h ∈ mmInitialize .standard blank 4096 1024,
      ∀ result ∈ mmMalloc .standard h 100, result.2 = 4112 := by
    decide +kernel
  obtain rfl : mem = 4112 := pointer h₀ initialized (h₁, mem) allocated
  refine ⟨h₁, ?_, ⟨layout, nodes, owned.inv⟩,
    owned.tiled.allocated 4112 (by simp [Client.receive, gain])⟩
  rw [initialized, bind_some, allocated]
  rfl

/-- The three allocators meet a request of 100 bytes. -/
theorem usable_size_hundred : ∃ h, WellFormed .standard h ∧
    Granted .standard 100 (mmMalloc .standard h 100) ∧
    Granted .standard 100 (mmRealloc .standard h 4112 100) ∧
    Granted .standard 100 (mmMemalign .standard h (2 ^ 6) 100) := by
  obtain ⟨h, run, wellFormed, held⟩ := wellFormed_malloc
  have table : ∀ other ∈ (mmInitialize .standard blank 4096 1024).bind (fun h =>
      (mmMalloc .standard h 100).map Prod.fst), other.nodelist + 304 < 2 ^ 32 := by
    decide +kernel
  obtain ⟨malloc, realloc, memalign⟩ := usable_size h wellFormed (table h run)
  refine ⟨h, wellFormed, ?_, ?_, ?_⟩
  · apply (malloc 100 (by decide)).mpr
    exact Or.inl (by decide)
  · apply (realloc 4112 100 (by decide) (Or.inr held)).mpr
    rw [ReallocFits, if_neg (by decide)]
    decide
  · apply (memalign 6 (by decide) 100 (by decide)).1
    exact Or.inl (by decide +kernel)

/-- In a well formed heap, `mm_malloc` of `SIZE_MAX - 7` bytes returns a pointer into the bucket
headers, `mm_realloc` to `SIZE_MAX` bytes keeps a small chunk, and an aligned request that wraps
gets a small chunk. -/
theorem usable_size_wraps : ∃ h, WellFormed .standard h ∧ Held .standard h 4112 ∧
    ¬Granted .standard (2 ^ 32 - 8) (mmMalloc .standard h (2 ^ 32 - 8)) ∧
    ¬Granted .standard (2 ^ 32 - 1) (mmRealloc .standard h 4112 (2 ^ 32 - 1)) ∧
    ¬Granted .standard (2 ^ 32 - 100) (mmMemalign .standard h (2 ^ 6) (2 ^ 32 - 100)) := by
  obtain ⟨h, run, wellFormed, held⟩ := wellFormed_malloc
  have pointers : ∀ other ∈ (mmInitialize .standard blank 4096 1024).bind (fun h =>
      (mmMalloc .standard h 100).map Prod.fst),
      (∃ result ∈ mmMalloc .standard other (2 ^ 32 - 8), result.2 ≠ 0) ∧
      (∃ result ∈ mmRealloc .standard other 4112 (2 ^ 32 - 1), result.2 ≠ 0) ∧
      ∃ result ∈ mmMemalign .standard other (2 ^ 6) (2 ^ 32 - 100), result.2 ≠ 0 := by
    decide +kernel
  obtain ⟨⟨malloc, taken, first⟩, ⟨realloc, kept, second⟩, memalign, cut, third⟩ := pointers h run
  refine ⟨h, wellFormed, held, ?_, ?_, ?_⟩
  · rw [mem_def.mp taken]
    exact not_granted (by decide) first
  · rw [mem_def.mp kept]
    exact not_granted (by decide) second
  · rw [mem_def.mp cut]
    exact not_granted (by decide) third

section Aligned

variable {g : Geometry} {h : Heap}

/-- What a pointer that `mm_memalign` returned is good for. -/
structure Aligned (g : Geometry) (h h' : Heap) (alignment size mem : Nat) : Prop where
  divides : alignment ∣ mem
  held : Held g h' mem ∧ size + g.allocNode ≤ h'.size (.chunk (mem - g.allocNode))
  /-- What was cut off is free: no other chunk has become allocated. -/
  others : ∀ other, Held g h' other → other = mem ∨ Held g h other
  wellFormed : WellFormed g h'
  frees : ∃ freed, mmFree g h' mem = some freed ∧ WellFormed g freed

theorem mmMemalign_serves {live : List Nat} {layout : List Region} {nodes : List Node}
    (owned : Owned g h live layout nodes) {alignment size : Nat} (ok : AlignOk g alignment size)
    (natural : alignment ≤ g.unit ∨ g.minChunk < alignment) :
    ∃ h' mem layout' nodes', mmMemalign g h alignment size = some (h', mem) ∧
      Owned g h' (gain mem live) layout' nodes' ∧
      (mem ≠ 0 → alignment ∣ mem ∧ Serves g layout' mem (size + g.allocNode)) := by
  obtain ⟨⟨exponent, _, rfl⟩, request⟩ := ok
  by_cases fine : 2 ^ exponent ≤ g.minChunk
  · rw [if_pos fine] at request
    obtain ⟨h', mem, layout', nodes', allocated, owned', _, _, serves⟩ :=
      mmMalloc_owned owned (Or.inr request.nonzero)
    refine ⟨h', mem, layout', nodes', by rw [mmMemalign, if_pos fine, allocated], owned', ?_⟩
    intro notNull
    refine ⟨?_, (serves notNull).mono request.bounds.1⟩
    obtain ⟨a, old, placed, rfl, _⟩ := serves notNull
    obtain ⟨s, filled, rfl⟩ := Spot.of_place placed
    obtain ⟨power, _, unit⟩ := (Nat.dvd_prime_pow Nat.prime_two).mp g.unit_dvd
    have small : 2 ^ exponent ≤ 2 ^ power := unit ▸ natural.resolve_right (Nat.not_lt.mpr fine)
    have natural : 2 ^ exponent ∣ g.unit := by
      rw [Geometry.unit, unit]
      exact Nat.pow_dvd_pow 2 ((Nat.pow_le_pow_iff_right (by decide)).mp small)
    exact Nat.dvd_trans natural (filled ▸ owned'.inv).payload_unit
  · rw [if_neg fine] at request
    obtain ⟨h', mem, layout', nodes', performed, owned', _, _, serves⟩ :=
      mmMemalign_owned owned (Nat.lt_of_not_le fine) request.1 request.2
    exact ⟨h', mem, layout', nodes', performed, owned', serves⟩

/-- In every well formed heap `mm_memalign` returns NULL or an aligned pointer to enough bytes,
which can be given back, unless `mm_malloc` is trusted with an alignment above the unit of sizes. -/
theorem memalign_aligned (wellFormed : WellFormed g h) {alignment size : Nat}
    (ok : AlignOk g alignment size) (natural : alignment ≤ g.unit ∨ g.minChunk < alignment) :
    ∃ h' mem, mmMemalign g h alignment size = some (h', mem) ∧
      (mem ≠ 0 → Aligned g h h' alignment size mem) := by
  obtain ⟨layout, nodes, inv⟩ := wellFormed
  obtain ⟨live, owned⟩ := inv.owned
  obtain ⟨h', mem, layout', nodes', performed, owned', serves⟩ := mmMemalign_serves owned ok natural
  refine ⟨h', mem, performed, fun notNull => ?_⟩
  obtain ⟨divides, served⟩ := serves notNull
  rw [gain, if_neg notNull] at owned'
  have granted := Serves.granted owned'.inv (fun _ => served) (Nat.le_refl _) h' mem rfl notNull
  obtain ⟨freed, _, _, frees, owned'', _⟩ := mmFree_owned owned' (mem_cons_self ..)
  refine ⟨divides, ⟨owned'.tiled.allocated mem (mem_cons_self ..), granted.2.2.2⟩, ?_,
    granted.1, freed, frees, _, _, owned''.inv⟩
  intro other held
  rcases mem_cons.mp (held.live owned') with same | old
  · exact Or.inl same
  · exact Or.inr (owned.tiled.allocated other old)

end Aligned

/-- A request for 100 bytes aligned to 64. -/
theorem memalign_aligned_hundred : ∃ h h', WellFormed .standard h ∧
    mmMemalign .standard h 64 100 = some (h', 4224) ∧ Aligned .standard h h' 64 100 4224 := by
  obtain ⟨h, run, wellFormed, _⟩ := wellFormed_malloc
  have pointer : ∀ other ∈ (mmInitialize .standard blank 4096 1024).bind (fun h =>
      (mmMalloc .standard h 100).map Prod.fst), ∀ result ∈ mmMemalign .standard other 64 100,
      result.2 = 4224 := by
    decide +kernel
  have ok : AlignOk .standard 64 100 := by decide +kernel
  obtain ⟨h', mem, performed, aligned⟩ := memalign_aligned wellFormed ok (Or.inr (by decide))
  obtain rfl : mem = 4224 := pointer h run (h', mem) performed
  exact ⟨h, h', wellFormed, performed, aligned (by decide)⟩

/-- The payloads of a `CONFIG_MM_SMALL` heap are at odd multiples of eight, and a pointer with the
alignment sixteen is taken from `mm_malloc`. -/
theorem memalign_misaligned : AlignOk .mmSmall 16 1 ∧
    ∃ h ∈ mmInitialize .mmSmall blank 4096 1024, ∃ result ∈ mmMemalign .mmSmall h 16 1,
      result.2 ≠ 0 ∧ ¬16 ∣ result.2 := by
  decide +kernel

end Chewie.Mm
