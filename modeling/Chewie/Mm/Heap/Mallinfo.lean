import Chewie.Mm.Heap.Runs

/-!
# The heap's books

`mm_mallinfo` walks every region and sums up what it meets. In a well formed heap the walk meets
each chunk and each guard once, so the two sums are the bytes of the regions, and the free chunks
it counts are those on the free list. `mm_heapsize` is a book of its own: `mm_addregion` adds to
it and `mm_extend` does not.
-/

namespace Chewie.Mm

open Mm.Geometry Tags List Region

open Tags (Chunk total place Tagged)

/-- What the node loop of `mm_mallinfo` adds for one node. -/
def Mallinfo.visit (g : Geometry) (info : Mallinfo) (chunk : Chunk) : Mallinfo :=
  if chunk.used then { info with uordblks := g.add info.uordblks chunk.size }
  else
    { info with
      ordblks := info.ordblks + 1
      fordblks := g.add info.fordblks chunk.size
      mxordblk := if info.mxordblk < chunk.size then chunk.size else info.mxordblk }

def freeChunks (chunks : List Chunk) : List Chunk := chunks.filter fun chunk => !chunk.used

/-- The books are those of the chunks seen so far. -/
structure Counted (info : Mallinfo) (seen : List Chunk) : Prop where
  space : info.uordblks + info.fordblks = total seen
  count : info.ordblks = (freeChunks seen).length
  largest : info.mxordblk = ((freeChunks seen).map Chunk.size).foldr max 0

section Visits

variable {g : Geometry} {h : Heap} {info : Mallinfo} {seen : List Chunk}

theorem foldr_max_concat (sizes : List Nat) (size : Nat) :
    (sizes ++ [size]).foldr max 0 = max (sizes.foldr max 0) size := by
  rw [foldr_append, foldr_cons, Nat.max_comm]
  exact foldr_assoc

/-- Visiting one more node. -/
theorem Counted.visit (counted : Counted info seen) {chunk : Chunk}
    (fits : total seen + chunk.size < 2 ^ g.wordBits) :
    Counted (info.visit g chunk) (seen ++ [chunk]) := by
  have space := counted.space
  have count := counted.count
  have largest := counted.largest
  by_cases used : chunk.used = true
  · have free : freeChunks (seen ++ [chunk]) = freeChunks seen := by
      simp [freeChunks, used]
    have result : info.visit g chunk =
        { info with uordblks := info.uordblks + chunk.size } := by
      rw [Mallinfo.visit, if_pos used, add_eq (by omega)]
    rw [result]
    refine ⟨?_, ?_, ?_⟩
    · simp only [total_append, total_cons, total_nil]
      omega
    · rw [free]
      exact count
    · rw [free]
      exact largest
  · have free : freeChunks (seen ++ [chunk]) = freeChunks seen ++ [chunk] := by
      simp [freeChunks, used]
    have result : info.visit g chunk =
        { info with
          ordblks := info.ordblks + 1
          fordblks := info.fordblks + chunk.size
          mxordblk := max info.mxordblk chunk.size } := by
      have greater : (if info.mxordblk < chunk.size then chunk.size else info.mxordblk) =
          max info.mxordblk chunk.size := by
        split_ifs with less
        · omega
        · omega
      rw [Mallinfo.visit, if_neg used, add_eq (by omega), greater]
    rw [result]
    refine ⟨?_, ?_, ?_⟩
    · simp only [total_append, total_cons, total_nil]
      omega
    · rw [free, length_append, ← count]
      rfl
    · rw [free, map_append, map_cons, map_nil, foldr_max_concat, ← largest]

theorem Counted.visits (counted : Counted info seen) (chunks : List Chunk)
    (fits : total seen + total chunks < 2 ^ g.wordBits) :
    Counted (chunks.foldl (Mallinfo.visit g) info) (seen ++ chunks) := by
  induction chunks generalizing info seen with
  | nil => simpa using counted
  | cons chunk rest ih =>
    rw [total_cons] at fits
    have step := @Counted.visit g info seen counted chunk (by omega)
    have final := ih step (by simp only [total_append, total_cons, total_nil]; omega)
    simpa using final

/-- The node loop visits the chunks up to the last guard. -/
theorem mallinfoNodes_spec (chunks : List Chunk) {address before fuel : Nat}
    (tagged : Tagged g.allocShift (fun a => h.size (.chunk a)) (fun a => h.preceding (.chunk a))
      address before chunks)
    (positive : Tags.Positive chunks) (small : before + total chunks < 2 ^ g.allocShift)
    (fits : address + total chunks < 2 ^ g.wordBits) (fueled : total chunks < fuel) :
    mallinfoNodes g h (address + total chunks) fuel address info =
      some (chunks.foldl (Mallinfo.visit g) info) := by
  induction chunks generalizing address before fuel info with
  | nil =>
    obtain ⟨fuel, rfl⟩ := Nat.exists_eq_succ_of_ne_zero (Nat.ne_of_gt fueled)
    simp [mallinfoNodes]
  | cons chunk rest ih =>
    obtain ⟨fuel, rfl⟩ := Nat.exists_eq_succ_of_ne_zero (Nat.ne_of_gt (Nat.zero_lt_of_lt fueled))
    obtain ⟨size, preceding, later⟩ := tagged
    obtain ⟨own, restPositive⟩ := positive_cons.mp positive
    rw [total_cons] at small fits fueled
    have inside : address < address + total (chunk :: rest) := by
      rw [total_cons]
      omega
    have flag : g.allocated (h.preceding (.chunk address)) = chunk.used := by
      rw [show h.preceding (.chunk address) = _ from preceding, allocated_tag (by omega)]
    have field : h.size (.chunk address) = chunk.size := size
    have step : g.add address chunk.size = address + chunk.size := add_eq (by omega)
    have stop : address + total (chunk :: rest) = address + chunk.size + total rest := by
      rw [total_cons, Nat.add_assoc]
    have tail := @ih (info.visit g chunk) (address + chunk.size) chunk.size fuel later restPositive
      (by omega) (by omega) (by omega)
    rw [mallinfoNodes, if_pos inside]
    dsimp only
    rw [flag, field, step, stop, foldl_cons, ← tail]
    rfl

end Visits

section Regions

variable {g : Geometry} {h : Heap} {layout : List Region} {nodes : List Node}

/-- The region loop visits all chunks and guards of the regions it is given. -/
theorem mallinfoRegions_spec (inv : Inv g h layout nodes []) (rest : List Region)
    (among : ∀ r ∈ rest, r ∈ layout) {info : Mallinfo} {seen : List Chunk}
    (counted : Counted info seen)
    (fits : total seen + total (rest.flatMap (full g)) < 2 ^ g.wordBits) :
    ∃ info', mallinfoRegions g h (rest.map (bounds g)) info = some info' ∧
      Counted info' (seen ++ rest.flatMap (full g)) := by
  induction rest generalizing info seen with
  | nil => exact ⟨info, rfl, by simpa using counted⟩
  | cons r rest ih =>
    have member : r ∈ layout := among r (mem_cons_self ..)
    have shape := inv.shape r member
    have header := g.allocNode_pos
    have tagged : Tagged g.allocShift (fun a => h.size (.chunk a))
        (fun a => h.preceding (.chunk a)) r.base 0 ((guard g :: r.chunks) ++
          [guard g]) := inv.tagged r member
    have walked := ((tagged_append _ _).mp tagged).1
    have positive : Tags.Positive (guard g :: r.chunks) := by
      apply positive_cons.mpr
      refine ⟨header, ?_⟩
      intro chunk inside
      exact Nat.lt_of_lt_of_le g.freeNode_pos (shape.sizes chunk inside).1
    have small := shape.small
    have space := shape.fits
    have guardSize : (guard g).size = g.allocNode := rfl
    unfold Geometry.unit at small
    unfold limit at space
    have stop : (r.bounds g).heapend = r.base + total (guard g :: r.chunks) := by
      rw [total_cons, ← Nat.add_assoc]
      rfl
    have nodesLoop := @mallinfoNodes_spec g h info (guard g :: r.chunks) r.base 0 g.fuel
      walked positive (by rw [total_cons]; omega) (by rw [total_cons]; omega)
      (by rw [total_cons]; unfold Geometry.fuel; omega)
    have full : r.full g = (guard g :: r.chunks) ++ [guard g] := rfl
    have visited := counted.visits (g := g) (r.full g) (by
      rw [flatMap_cons, total_append] at fits
      omega)
    rw [full, foldl_append] at visited
    obtain ⟨info', performed, final⟩ := ih (fun other inside => among other
      (mem_cons_of_mem _ inside)) visited (by
        rw [flatMap_cons, total_append, ← Nat.add_assoc, ← total_append] at fits
        exact fits)
    refine ⟨info', ?_, ?_⟩
    · rw [map_cons, mallinfoRegions, stop]
      rw [show (r.bounds g).heapstart = r.base from rfl, nodesLoop]
      exact performed
    · rw [flatMap_cons, ← append_assoc]
      exact final

theorem bytes_eq_total (layout : List Region) :
    bytes g layout = total (layout.flatMap (full g)) := by
  induction layout with
  | nil => rfl
  | cons r rest ih =>
    have unfolded : bytes g (r :: rest) = total r.chunks + 2 * g.allocNode + bytes g rest := by
      simp [bytes]
    rw [flatMap_cons]
    simp only [Region.full, Region.guard, total_cons, total_append, total_nil]
    omega

theorem mmMallinfo_spec (inv : Inv g h layout nodes []) :
    ∃ info, mmMallinfo g h = some info ∧ info.arena = h.heapsize ∧
      Counted info (layout.flatMap (full g)) := by
  have empty : Counted ⟨0, 0, 0, 0, 0⟩ [] := ⟨rfl, rfl, rfl⟩
  have fits := inv.bytes_lt
  rw [bytes_eq_total] at fits
  obtain ⟨info, performed, counted⟩ :=
    mallinfoRegions_spec inv layout (fun _ inside => inside) empty (by simpa using fits)
  refine ⟨{ info with arena := h.heapsize }, ?_, rfl, counted.space, counted.count, counted.largest⟩
  rw [mmMallinfo, inv.bounds, performed]
  rfl

end Regions

section Listed

variable {g : Geometry} {h : Heap} {layout : List Region} {nodes : List Node}

theorem Inv.listed_perm (inv : Inv g h layout nodes []) :
    (nodes.filterMap Node.address).Perm
      (((places g layout).filter fun entry => !entry.2.used).map Prod.fst) := by
  apply (perm_ext_iff_of_nodup ?_ ?_).mpr
  · intro a
    rw [mem_filterMap, mem_map]
    constructor
    · rintro ⟨node, inside, address⟩
      cases node with
      | head index => cases address
      | chunk b =>
        injection address with same
        obtain ⟨⟨chunk, placed, free⟩, _⟩ := (inv.listed b).mp inside
        refine ⟨(b, chunk), mem_filter.mpr ⟨placed, ?_⟩, same⟩
        simp [free]
    · rintro ⟨entry, inside, rfl⟩
      obtain ⟨placed, free⟩ := mem_filter.mp inside
      refine ⟨.chunk entry.1, (inv.listed _).mpr ⟨⟨entry.2, placed, ?_⟩, by simp⟩, rfl⟩
      simpa using free
  · apply inv.list.distinct.filterMap
    intro left right a leftAt rightAt
    cases left with
    | head index => cases leftAt
    | chunk b =>
      cases right with
      | head index => cases rightAt
      | chunk d =>
        injection leftAt with leftEq
        injection rightAt with rightEq
        rw [leftEq, rightEq]
  · apply pairwise_map.mpr
    exact inv.places_distinct.filter _

theorem freeChunks_places (layout : List Region) :
    ((places g layout).filter fun entry => !entry.2.used).map Prod.snd =
      freeChunks (layout.flatMap (full g)) := by
  induction layout with
  | nil => rfl
  | cons r rest ih =>
    have own : ((place (r.first g) r.chunks).filter fun entry => !entry.2.used).map Prod.snd =
        freeChunks (r.full g) := by
      have guards : freeChunks (r.full g) = freeChunks r.chunks := by
        simp [freeChunks, Region.full, Region.guard]
      rw [guards, freeChunks]
      conv_rhs => rw [← @Tags.place_map_snd (r.first g) r.chunks, filter_map]
      rfl
    have split : places g (r :: rest) = place (r.first g) r.chunks ++ places g rest := by
      simp [places]
    rw [split, filter_append, map_append, own, ih]
    simp [freeChunks]

theorem Inv.listed_sizes (inv : Inv g h layout nodes []) :
    ((nodes.filterMap Node.address).map fun a => h.size (.chunk a)).Perm
      ((freeChunks (layout.flatMap (full g))).map Chunk.size) := by
  have sizes := inv.listed_perm.map fun a => h.size (.chunk a)
  rw [map_map] at sizes
  rw [← freeChunks_places, map_map]
  have same : ((places g layout).filter fun entry => !entry.2.used).map
      ((fun a => h.size (.chunk a)) ∘ Prod.fst) =
      ((places g layout).filter fun entry => !entry.2.used).map (Chunk.size ∘ Prod.snd) := by
    apply map_congr_left
    intro entry inside
    exact (inv.place_header (mem_filter.mp inside).1).1
  rw [same] at sizes
  exact sizes

end Listed

/-- What `mm_mallinfo` reports about a heap that was given `given` bytes: every byte is booked once
and the free chunks are those on the free list. -/
structure Reports (h : Heap) (info : Mallinfo) (given : Nat) : Prop where
  arena : info.arena = h.heapsize
  space : info.uordblks + info.fordblks = given
  listed : ∃ nodes, Visits h.flink (some (.head 0)) nodes ∧
    info.ordblks = (nodes.filterMap Node.address).length ∧
    info.mxordblk =
      ((nodes.filterMap Node.address).map fun a => h.size (.chunk a)).foldr max 0

theorem Sound.reports {g : Geometry} {c : Client} (sound : Sound g c) :
    ∃ info, mmMallinfo g c.heap = some info ∧
      Reports c.heap info (c.heap.heapsize + c.extended) := by
  obtain ⟨layout, nodes, owned, books⟩ := sound
  obtain ⟨info, performed, arena, counted⟩ := mmMallinfo_spec owned.inv
  have sizes := owned.inv.listed_sizes
  have visits := owned.inv.listed_by_bucket.visits
  rw [← owned.inv.list.eq_bucketNodes] at visits
  refine ⟨info, performed, arena, ?_, nodes, visits, ?_, ?_⟩
  · rw [books, bytes_eq_total]
    exact counted.space
  · have length := sizes.length_eq
    rw [length_map, length_map] at length
    rw [length]
    exact counted.count
  · rw [sizes.foldr_eq]
    exact counted.largest

/-- Guarded calls other than `mm_extend`. -/
def Fixed (g : Geometry) (c : Client) (call : Call) : Prop :=
  Guarded g c call ∧ ∀ mem size region, call ≠ .extend mem size region

/-- After `mm_initialize` and any guarded calls other than `mm_extend`, allocated and free bytes add
up to the arena and the free chunks reported are those on the free list. -/
theorem heap_books (g : Geometry) (h : Heap) (heapstart heapsize : Nat)
    (ok : RegionOk g [] heapstart heapsize) :
    ∃ h₀, mmInitialize g h heapstart heapsize = some h₀ ∧
      ∀ calls, Run.Admitted (perform g) (Fixed g) ⟨h₀, [], 0⟩ calls →
        ∃ c, Run.run (perform g) ⟨h₀, [], 0⟩ calls = some c ∧
          ∃ info, mmMallinfo g c.heap = some info ∧ Reports c.heap info c.heap.heapsize := by
  obtain ⟨h₀, initialized, sound⟩ := mmInitialize_sound h ok
  refine ⟨h₀, initialized, ?_⟩
  intro calls admitted
  have kept : ∀ c call, Sound g c ∧ c.extended = 0 → Fixed g c call →
      ∃ next, perform g c call = some next ∧ Sound g next ∧ next.extended = 0 := by
    intro c call before fixed
    obtain ⟨next, performed, after⟩ := perform_sound before.1 fixed.1.1 fixed.1.2
    refine ⟨next, performed, after, ?_⟩
    cases call with
    | extend mem size region => exact absurd rfl (fixed.2 mem size region)
    | malloc size | zalloc size | calloc n elemSize | free mem | realloc mem size
    | memalign alignment size | addregion heapstart heapsize =>
      obtain ⟨result, _, rfl⟩ := Option.map_eq_some_iff.mp performed
      exact before.2
  obtain ⟨c, performed, final, none⟩ := Run.run_invariant kept ⟨sound, rfl⟩ admitted
  obtain ⟨info, reported, reports⟩ := final.reports
  rw [none] at reports
  exact ⟨c, performed, info, reported, reports⟩

instance decidableFixed (g : Geometry) (c : Client) (call : Call) : Decidable (Fixed g c call) :=
  match call with
  | .extend mem size region => isFalse fun fixed => fixed.2 mem size region rfl
  | .malloc _ | .zalloc _ | .calloc _ _ | .free _ | .realloc _ _ | .memalign _ _
  | .addregion _ _ => decidable_of_iff (Guarded g c _) ⟨fun guarded => ⟨guarded, by simp⟩, And.left⟩

/-- The books of a run with two regions and a resized chunk. -/
theorem heap_books_regions :
    ∃ h₀, mmInitialize .standard blank 4096 1024 = some h₀ ∧
      ∃ c, Run.run (perform .standard) ⟨h₀, [], 0⟩
        [.malloc 100, .addregion 32768 512, .realloc 4112 300, .free 0] = some c ∧
        ∃ info, mmMallinfo .standard c.heap = some info ∧ Reports c.heap info c.heap.heapsize := by
  obtain ⟨h₀, initialized, books⟩ := heap_books .standard blank 4096 1024 (by decide +kernel)
  have admitted : ∀ h ∈ mmInitialize .standard blank 4096 1024,
      Run.Admitted (perform .standard) (Fixed .standard) ⟨h, [], 0⟩
        [.malloc 100, .addregion 32768 512, .realloc 4112 300, .free 0] := by
    decide +kernel
  exact ⟨h₀, initialized, books _ (admitted h₀ initialized)⟩

/-- A heap of 1024 bytes extended by 256 bytes still reports an arena of 1024 bytes, although its
chunks have 1280. -/
theorem heap_books_extended :
    ∃ h₀ ∈ mmInitialize .standard blank 4096 1024,
      Run.Admitted (perform .standard) (Allowed .standard) ⟨h₀, [], 0⟩ [.extend 5120 256 0] ∧
      ∃ c ∈ Run.run (perform .standard) ⟨h₀, [], 0⟩ [.extend 5120 256 0],
        ∃ info ∈ mmMallinfo .standard c.heap,
          info.arena = 1024 ∧ info.uordblks + info.fordblks = 1280 := by
  decide +kernel

end Chewie.Mm
