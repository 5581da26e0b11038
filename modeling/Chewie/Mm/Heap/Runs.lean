import Mathlib.Order.Interval.Finset.Nat
import Chewie.Lib.Run
import Chewie.Mm.Heap.Shape

/-!
# Runs of heap calls

A run starts with `mm_initialize` and performs any finite list of calls of the heap's interface.
`Allowed` is what the callers promise: they free and resize pointers they hold, ask for sizes that
do not wrap, align to powers of two and donate memory the heap does not have yet. Every allowed
call keeps the heap `Sound`: well formed, owned by its clients, with its books balanced.
-/

namespace Chewie.Mm

open Tags List Run Mm.Geometry

open Tags (Chunk total Marked)

/-- A call of the heap's interface. -/
inductive Call where
  | malloc (size : Nat)
  | zalloc (size : Nat)
  | calloc (n elemSize : Nat)
  | free (mem : Nat)
  | realloc (mem size : Nat)
  | memalign (alignment size : Nat)
  | extend (mem size region : Nat)
  | addregion (heapstart heapsize : Nat)
deriving DecidableEq

/-- A heap and what its clients remember. -/
structure Client where
  heap : Heap
  live : List Nat
  extended : Nat

/-- The pointers held after `mm_realloc` of `mem` returned `new`. -/
def regain (mem size new : Nat) (live : List Nat) : List Nat :=
  if size < 1 then live.erase mem else if new = 0 then live else new :: live.erase mem

/-- The clients after an allocation. -/
def Client.receive (c : Client) (result : Heap × Nat) : Client :=
  { c with heap := result.1, live := gain result.2 c.live }

def perform (g : Geometry) (c : Client) : Call → Option Client
  | .malloc size => (mmMalloc g c.heap size).map c.receive
  | .zalloc size => (mmZalloc g c.heap size).map c.receive
  | .calloc n elemSize => (mmCalloc g c.heap n elemSize).map c.receive
  | .free mem => (mmFree g c.heap mem).map fun h => { c with heap := h, live := c.live.erase mem }
  | .realloc mem size => (mmRealloc g c.heap mem size).map fun result =>
    { c with heap := result.1, live := regain mem size result.2 c.live }
  | .memalign alignment size => (mmMemalign g c.heap alignment size).map c.receive
  | .extend mem size region => (mmExtend g c.heap mem size region).map fun h =>
    { c with heap := h, extended := c.extended + size }
  | .addregion heapstart heapsize => (mmAddregion g c.heap heapstart heapsize).map fun h =>
    { c with heap := h }

/-- A power of two whose request, rounded twice and widened for the alignment, does not wrap. -/
def AlignOk (g : Geometry) (alignment size : Nat) : Prop :=
  (∃ exponent < g.wordBits, alignment = 2 ^ exponent) ∧
    if alignment ≤ g.minChunk then RequestOk g size
    else size + g.granMask < 2 ^ g.wordBits ∧ RequestOk g (g.alignUp size + 2 * alignment)

/-- What the callers promise. -/
def Allowed (g : Geometry) (c : Client) : Call → Prop
  | .malloc size => RequestOk g size
  | .zalloc size => RequestOk g size
  | .calloc n elemSize => n * elemSize < 2 ^ g.wordBits → RequestOk g (n * elemSize)
  | .free mem => mem = 0 ∨ mem ∈ c.live
  | .realloc mem size => (mem = 0 ∨ mem ∈ c.live) ∧ RequestOk g size
  | .memalign alignment size => AlignOk g alignment size
  | .extend mem size region =>
    ∃ bounds ∈ c.heap.regions, ExtendOk g c.heap.regions mem size region bounds
  | .addregion heapstart heapsize => RegionOk g c.heap.regions heapstart heapsize

/-- When `mm_realloc` enlarges a chunk in place, what it leaves of the neighbours can hold a free
node. Callers cannot know this; the source relies on it. -/
def Careful (g : Geometry) (c : Client) : Call → Prop
  | .realloc mem size => mem ∈ c.live → GrowthUsable g c.heap mem size
  | _ => True

/-- The heap is well formed and owned by its clients, and its books balance. -/
def Sound (g : Geometry) (c : Client) : Prop :=
  ∃ layout nodes, Owned g c.heap c.live layout nodes ∧
    c.heap.heapsize + c.extended = bytes g layout

section Decidable

variable (g : Geometry) (c : Client)

instance decidableRequestOk (request : Nat) : Decidable (RequestOk g request) :=
  inferInstanceAs (Decidable (_ < _))

instance decidableRegionOk (regions : List Bounds) (heapstart heapsize : Nat) :
    Decidable (RegionOk g regions heapstart heapsize) :=
  decidable_of_iff _ (regionOk_iff ..).symm

instance decidableExtendOk (regions : List Bounds) (mem size region : Nat) (bounds : Bounds) :
    Decidable (ExtendOk g regions mem size region bounds) :=
  decidable_of_iff _ (extendOk_iff ..).symm

instance decidableAlignOk (alignment size : Nat) : Decidable (AlignOk g alignment size) :=
  inferInstanceAs (Decidable (_ ∧ _))

instance decidableAllowed : ∀ call, Decidable (Allowed g c call)
  | .malloc .. | .zalloc .. | .calloc .. | .free .. | .realloc .. | .memalign .. | .extend ..
  | .addregion .. => by dsimp only [Allowed]; infer_instance

instance decidableUsable (size : Nat) : Decidable (Usable g size) :=
  inferInstanceAs (Decidable (_ ∨ _))

instance decidableGrowthUsable (h : Heap) (oldmem request : Nat) :
    Decidable (GrowthUsable g h oldmem request) :=
  inferInstanceAs (Decidable (_ → _ → _ ∧ _))

instance decidableCareful : ∀ call, Decidable (Careful g c call)
  | .realloc .. => inferInstanceAs (Decidable (_ → _))
  | .malloc .. | .zalloc .. | .calloc .. | .free .. | .memalign .. | .extend .. | .addregion .. =>
    isTrue trivial

end Decidable

section Books

variable {g : Geometry} {h : Heap} {layout : List Region} {nodes : List Node}

theorem apart_sum_le (ranges : List (Nat × Nat)) (bound : Nat) (apart : ranges.Pairwise Apart)
    (inside : ∀ range ∈ ranges, range.2 ≤ bound) :
    (ranges.map fun range => range.2 - range.1).sum ≤ bound := by
  have covered : ∃ bytes : Finset Nat,
      bytes.card = (ranges.map fun range => range.2 - range.1).sum ∧
      ∀ x, x ∈ bytes ↔ ∃ range ∈ ranges, range.1 ≤ x ∧ x < range.2 := by
    clear inside
    induction ranges with
    | nil => exact ⟨∅, by simp⟩
    | cons range rest ih =>
      obtain ⟨first, later⟩ := pairwise_cons.mp apart
      obtain ⟨bytes, card, members⟩ := ih later
      refine ⟨Finset.Ico range.1 range.2 ∪ bytes, ?_, ?_⟩
      · have separate : Disjoint (Finset.Ico range.1 range.2) bytes := by
          rw [Finset.disjoint_left]
          intro x own other
          obtain ⟨second, member, low, high⟩ := (members x).mp other
          have order := Finset.mem_Ico.mp own
          have ranges := first second member
          unfold Apart at ranges
          omega
        rw [Finset.card_union_of_disjoint separate, card]
        simp
      · intro x
        simp [members]
  obtain ⟨bytes, card, members⟩ := covered
  rw [← card]
  have below : bytes ⊆ Finset.range bound := by
    intro x member
    obtain ⟨range, listed, _, high⟩ := (members x).mp member
    have limit := inside range listed
    rw [Finset.mem_range]
    omega
  simpa using Finset.card_le_card below

theorem Inv.bytes_lt {pending : List Nat} (inv : Inv g h layout nodes pending) :
    bytes g layout < 2 ^ g.wordBits := by
  have positive : 0 < 2 ^ g.wordBits := Nat.two_pow_pos _
  have sum : bytes g layout =
      ((layout.map (Region.span g)).map fun range => range.2 - range.1).sum := by
    unfold bytes
    rw [map_map]
    congr 1
    apply map_congr_left
    intro r _
    simp only [Function.comp, Region.span, Region.limit]
    omega
  have bound := apart_sum_le (layout.map (Region.span g)) (2 ^ g.wordBits - 1) inv.apart (by
    intro range listed
    obtain ⟨r, member, rfl⟩ := mem_map.mp listed
    have fits := (inv.shape r member).fits
    simp only [Region.span]
    omega)
  omega

end Books

section Steps

variable {g : Geometry} {c : Client}

theorem Sound.of_owned {h : Heap} {live : List Nat} {layout layout' : List Region}
    {nodes' : List Node} (books : c.heap.heapsize + c.extended = bytes g layout)
    (frame : Frame c.heap h) (same : bytes g layout' = bytes g layout)
    (owned : Owned g h live layout' nodes') : Sound g { c with heap := h, live := live } :=
  ⟨layout', nodes', owned, by rw [frame.heapsize, same]; exact books⟩

section

variable (sound : Sound g c)

include sound

theorem Sound.malloc {size : Nat} (ok : RequestOk g size) :
    ∃ h mem, mmMalloc g c.heap size = some (h, mem) ∧ Sound g (c.receive (h, mem)) := by
  obtain ⟨layout, nodes, owned, books⟩ := sound
  obtain ⟨h, mem, layout', nodes', allocated, owned', reshaped, frame, _⟩ :=
    mmMalloc_owned owned (Or.inr ok.nonzero)
  exact ⟨h, mem, allocated, Sound.of_owned books frame reshaped.exchanged.bytes owned'⟩

theorem Sound.calloc {n elemSize : Nat}
    (ok : n * elemSize < 2 ^ g.wordBits → RequestOk g (n * elemSize)) :
    ∃ h mem, mmCalloc g c.heap n elemSize = some (h, mem) ∧ Sound g (c.receive (h, mem)) := by
  have refused : Sound g (c.receive (c.heap, 0)) := by
    exact sound
  by_cases positive : 0 < n ∧ 0 < elemSize
  · by_cases fits : n ≤ (2 ^ g.wordBits - 1) / elemSize
    · rw [mmCalloc, if_pos positive, if_pos fits]
      apply sound.malloc
      apply ok
      have product : n * elemSize ≤ 2 ^ g.wordBits - 1 := (Nat.le_div_iff_mul_le positive.2).mp fits
      have word : 0 < 2 ^ g.wordBits := Nat.two_pow_pos _
      omega
    · exact ⟨c.heap, 0, by rw [mmCalloc, if_pos positive, if_neg fits], refused⟩
  · exact ⟨c.heap, 0, by rw [mmCalloc, if_neg positive], refused⟩

theorem Sound.free {mem : Nat} (held : mem = 0 ∨ mem ∈ c.live) :
    ∃ h, mmFree g c.heap mem = some h ∧ Sound g { c with heap := h, live := c.live.erase mem } := by
  obtain ⟨layout, nodes, owned, books⟩ := sound
  by_cases null : mem = 0
  · have absent : mem ∉ c.live := fun inside => owned.not_null inside null
    refine ⟨c.heap, by rw [mmFree, if_pos null], layout, nodes, ?_, books⟩
    rw [erase_of_not_mem absent]
    exact owned
  · obtain ⟨h, layout', nodes', freed, owned', reshaped, frame⟩ :=
      mmFree_owned owned (held.resolve_left null)
    exact ⟨h, freed, Sound.of_owned books frame reshaped.exchanged.bytes owned'⟩

theorem Sound.realloc {mem size : Nat} (held : mem = 0 ∨ mem ∈ c.live) (ok : RequestOk g size)
    (careful : g.freeNode ≤ g.unit ∨ (mem ∈ c.live → GrowthUsable g c.heap mem size)) :
    ∃ h new, mmRealloc g c.heap mem size = some (h, new) ∧
      Sound g { c with heap := h, live := regain mem size new c.live } := by
  obtain ⟨layout, nodes, owned, books⟩ := sound
  have usable : mem ∈ c.live → GrowthUsable g c.heap mem size := by
    intro inside
    rcases careful with coarse | usable
    · obtain ⟨s, old, rfl, rfl⟩ := owned.spot inside
      exact growth_of_unit coarse owned.inv
    · exact usable inside
  obtain ⟨h, new, layout', nodes', performed, owned', frame, same, _⟩ :=
    mmRealloc_owned owned held ok usable
  exact ⟨h, new, performed, Sound.of_owned books frame same owned'⟩

theorem Sound.memalign {alignment size : Nat} (ok : AlignOk g alignment size) :
    ∃ h mem, mmMemalign g c.heap alignment size = some (h, mem) ∧ Sound g (c.receive (h, mem)) := by
  obtain ⟨⟨exponent, _, rfl⟩, request⟩ := ok
  by_cases fine : 2 ^ exponent ≤ g.minChunk
  · rw [if_pos fine] at request
    rw [mmMemalign, if_pos fine]
    exact sound.malloc request
  · rw [if_neg fine] at request
    obtain ⟨layout, nodes, owned, books⟩ := sound
    obtain ⟨h, mem, layout', nodes', performed, owned', frame, same, _⟩ :=
      mmMemalign_owned owned (Nat.lt_of_not_le fine) request.1 request.2
    exact ⟨h, mem, performed, Sound.of_owned books frame same owned'⟩

end

theorem used_stretch {s : Spot} (last : s.after = []) (size a : Nat) :
    Used g (s.fill [⟨size, true⟩]) a ↔ Used g (s.fill []) a ∨ a = s.start g := by
  unfold Used
  rw [Spot.marked_places, Spot.marked_places]
  simp [Spot.outer, last]

/-- `mm_extend` keeps the heap sound. -/
theorem Sound.extend (sound : Sound g c) {mem size region : Nat} {bounds : Bounds}
    (ok : ExtendOk g c.heap.regions mem size region bounds) :
    ∃ h, mmExtend g c.heap mem size region = some h ∧
      Sound g { c with heap := h, extended := c.extended + size } := by
  obtain ⟨layout, nodes, owned, books⟩ := sound
  obtain ⟨s, rfl, last, rfl, rfl⟩ := ok.spot owned.inv
  obtain ⟨h₁, stretched, inv₁, frame₁⟩ := extendTail_spec owned.inv last ok
  have adjacent : mem = s.start g + g.allocNode := ok.adjacent
  have fresh : ¬Used g (s.fill []) (s.start g) := by
    intro used
    have outside : Marked true (s.outer g (total [⟨size, true⟩])) (s.start g) := by
      have before := (Spot.marked_places _ _).mp used
      simpa [Spot.outer, last] using before
    have apart := inv₁.marked_outside outside
    have positive := ok.positive
    simp only [total_cons, total_nil] at apart
    omega
  have owned₁ := owned.add inv₁ (used_stretch last size) fresh
  rw [← adjacent] at owned₁
  obtain ⟨h₂, layout₂, nodes₂, freed, owned₂, reshaped, frame₂⟩ :=
    mmFree_owned owned₁ (mem_cons_self ..)
  rw [erase_cons_head] at owned₂
  refine ⟨h₂, ?_, layout₂, nodes₂, owned₂, ?_⟩
  · rw [mmExtend, stretched]
    exact freed
  · have grown : bytes g (s.fill [⟨size, true⟩]) = bytes g (s.fill []) + size := by
      simp only [bytes, Spot.fill, last, map_append, map_cons, sum_append,
        sum_cons, total_append, total_cons, total_nil, append_nil]
      omega
    have kept : h₂.heapsize = c.heap.heapsize := (frame₁.trans frame₂).heapsize
    simp only [kept, reshaped.exchanged.bytes, grown, ← books]
    omega

theorem mmAddregion_owned {h : Heap} {live : List Nat} {layout : List Region} {nodes : List Node}
    {heapstart heapsize : Nat} (owned : Owned g h live layout nodes)
    (ok : RegionOk g h.regions heapstart heapsize) :
    ∃ h' nodes', mmAddregion g h heapstart heapsize = some h' ∧
      Owned g h' live (layout ++ [addedRegion g heapstart heapsize]) nodes' ∧
      h'.heapsize = g.add h.heapsize
        (g.alignDown (heapstart + heapsize) - g.alignUp heapstart) := by
  obtain ⟨h', nodes', added, inv', heapsizeEq⟩ := mmAddregion_spec owned.inv ok
  refine ⟨h', nodes', added, ⟨inv', ?_, owned.distinct⟩, heapsizeEq⟩
  intro a
  rw [owned.owned]
  simp [Used, places, addedRegion, marked_append]

theorem initNodelist_owned (h : Heap) : Owned g (initNodelist g h) [] [] (bucketHeads g) := by
  refine ⟨initNodelist_inv g h, ?_, nodup_nil⟩
  intro a
  simp [Used, places]

theorem Sound.addregion (sound : Sound g c) {heapstart heapsize : Nat}
    (ok : RegionOk g c.heap.regions heapstart heapsize) :
    ∃ h, mmAddregion g c.heap heapstart heapsize = some h ∧ Sound g { c with heap := h } := by
  obtain ⟨layout, nodes, owned, books⟩ := sound
  obtain ⟨h, nodes', added, owned', heapsizeEq⟩ := mmAddregion_owned owned ok
  have room := ok.room
  have grown : bytes g (layout ++ [addedRegion g heapstart heapsize]) =
      bytes g layout + (g.alignDown (heapstart + heapsize) - g.alignUp heapstart) := by
    simp only [bytes, addedRegion, map_append, map_cons, map_nil, sum_append,
      sum_cons, sum_nil, total_cons, total_nil]
    unfold unit at room
    omega
  have fits := owned'.inv.bytes_lt
  refine ⟨h, added, _, nodes', owned', ?_⟩
  rw [heapsizeEq, add_eq (by omega)]
  simp only
  omega

theorem perform_sound {call : Call} (sound : Sound g c) (allowed : Allowed g c call)
    (careful : g.freeNode ≤ g.unit ∨ Careful g c call) :
    ∃ next, perform g c call = some next ∧ Sound g next := by
  cases call with
  | malloc size =>
    obtain ⟨h, mem, performed, kept⟩ := sound.malloc allowed
    exact ⟨_, by rw [perform, performed]; rfl, kept⟩
  | zalloc size =>
    obtain ⟨h, mem, performed, kept⟩ := sound.malloc allowed
    exact ⟨_, by rw [perform, mmZalloc, performed]; rfl, kept⟩
  | calloc n elemSize =>
    obtain ⟨h, mem, performed, kept⟩ := sound.calloc allowed
    exact ⟨_, by rw [perform, performed]; rfl, kept⟩
  | free mem =>
    obtain ⟨h, performed, kept⟩ := sound.free allowed
    exact ⟨_, by rw [perform, performed]; rfl, kept⟩
  | realloc mem size =>
    obtain ⟨h, new, performed, kept⟩ := sound.realloc allowed.1 allowed.2 careful
    exact ⟨_, by rw [perform, performed]; rfl, kept⟩
  | memalign alignment size =>
    obtain ⟨h, mem, performed, kept⟩ := sound.memalign allowed
    exact ⟨_, by rw [perform, performed]; rfl, kept⟩
  | extend mem size region =>
    obtain ⟨bounds, _, ok⟩ := allowed
    obtain ⟨h, performed, kept⟩ := sound.extend ok
    exact ⟨_, by rw [perform, performed]; rfl, kept⟩
  | addregion heapstart heapsize =>
    obtain ⟨h, performed, kept⟩ := sound.addregion allowed
    exact ⟨_, by rw [perform, performed]; rfl, kept⟩

theorem mmInitialize_sound (h : Heap) {heapstart heapsize : Nat}
    (ok : RegionOk g [] heapstart heapsize) :
    ∃ h₀, mmInitialize g h heapstart heapsize = some h₀ ∧ Sound g ⟨h₀, [], 0⟩ := by
  have empty : Sound g ⟨initNodelist g h, [], 0⟩ := ⟨[], bucketHeads g, initNodelist_owned h, rfl⟩
  exact empty.addregion ok

end Steps

/-- Calls that keep every promise and, where the unit of sizes cannot hold a free node, do not
enlarge a chunk so that too little remains of a neighbour. -/
def Guarded (g : Geometry) (c : Client) (call : Call) : Prop :=
  Allowed g c call ∧ (g.freeNode ≤ g.unit ∨ Careful g c call)

instance decidableGuarded (g : Geometry) (c : Client) (call : Call) :
    Decidable (Guarded g c call) :=
  inferInstanceAs (Decidable (_ ∧ (_ ∨ _)))

/-- Memory before `mm_initialize`. -/
def blank : Heap :=
  ⟨0, 0, [], fun _ => 0, fun _ => 0, fun _ => none, fun _ => none, []⟩

/-- A run that makes every kind of call. -/
def everyCall : List Call :=
  [.malloc 100, .zalloc 40, .calloc 3 10, .realloc 4112 300, .memalign 64 50, .addregion 32768 512,
    .extend 5120 256 0, .free 4224, .realloc 0 24, .malloc 600]

theorem everyCall_admitted : ∀ h ∈ mmInitialize .standard blank 4096 1024,
    Admitted (perform .standard) (Allowed .standard) ⟨h, [], 0⟩ everyCall := by
  decide +kernel

section Runs

variable {g : Geometry} {c : Client}

theorem run_sound (sound : Sound g c) {calls : List Call}
    (admitted : Admitted (perform g) (Guarded g) c calls) :
    ∃ final, run (perform g) c calls = some final ∧ Sound g final :=
  run_invariant (fun _ _ kept guarded => perform_sound kept guarded.1 guarded.2) sound admitted

theorem run_sound_standard {c : Client} (sound : Sound .standard c) {calls : List Call}
    (admitted : Admitted (perform .standard) (Allowed .standard) c calls) :
    ∃ final, run (perform .standard) c calls = some final ∧ Sound .standard final := by
  have coarse : standard.freeNode ≤ standard.unit := by decide
  exact run_sound sound (admitted_mono (fun _ _ allowed => ⟨allowed, Or.inl coarse⟩) admitted)

end Runs

/-- After `mm_initialize` and any allowed calls, the regions are tiled by their chunks and the
pointers handed out name disjoint allocated chunks. -/
theorem heap_tiled (h : Heap) (heapstart heapsize : Nat)
    (ok : RegionOk .standard [] heapstart heapsize) :
    ∃ h₀, mmInitialize .standard h heapstart heapsize = some h₀ ∧
      ∀ calls, Run.Admitted (perform .standard) (Allowed .standard) ⟨h₀, [], 0⟩ calls →
        ∃ c, Run.run (perform .standard) ⟨h₀, [], 0⟩ calls = some c ∧
          Tiled .standard c.heap c.live := by
  obtain ⟨h₀, initialized, sound⟩ := mmInitialize_sound h ok
  refine ⟨h₀, initialized, ?_⟩
  intro calls admitted
  obtain ⟨c, performed, layout, nodes, owned, _⟩ := run_sound_standard sound admitted
  exact ⟨c, performed, owned.tiled⟩

/-- A run with every kind of call leaves a tiled heap. -/
theorem heap_tiled_everyCall :
    ∃ h₀, mmInitialize .standard blank 4096 1024 = some h₀ ∧
      ∃ c, Run.run (perform .standard) ⟨h₀, [], 0⟩ everyCall = some c ∧
        Tiled .standard c.heap c.live := by
  obtain ⟨h₀, initialized, tiled⟩ := heap_tiled blank 4096 1024 (by decide +kernel)
  exact ⟨h₀, initialized, tiled everyCall (everyCall_admitted h₀ initialized)⟩

/-- After `mm_initialize` and any allowed calls, the free list visits the bucket headers in order,
each followed by exactly the free chunks of its bucket in order of size. -/
theorem heap_listed (h : Heap) (heapstart heapsize : Nat)
    (ok : RegionOk .standard [] heapstart heapsize) :
    ∃ h₀, mmInitialize .standard h heapstart heapsize = some h₀ ∧
      ∀ calls, Run.Admitted (perform .standard) (Allowed .standard) ⟨h₀, [], 0⟩ calls →
        ∃ c, Run.run (perform .standard) ⟨h₀, [], 0⟩ calls = some c ∧
          ∃ bucket, ListedByBucket .standard c.heap bucket := by
  obtain ⟨h₀, initialized, sound⟩ := mmInitialize_sound h ok
  refine ⟨h₀, initialized, ?_⟩
  intro calls admitted
  obtain ⟨c, performed, layout, nodes, owned, _⟩ := run_sound_standard sound admitted
  exact ⟨c, performed, _, owned.inv.listed_by_bucket⟩

/-- A run with every kind of call leaves an ordered free list. -/
theorem heap_listed_everyCall :
    ∃ h₀, mmInitialize .standard blank 4096 1024 = some h₀ ∧
      ∃ c, Run.run (perform .standard) ⟨h₀, [], 0⟩ everyCall = some c ∧
        ∃ bucket, ListedByBucket .standard c.heap bucket := by
  obtain ⟨h₀, initialized, listed⟩ := heap_listed blank 4096 1024 (by decide +kernel)
  exact ⟨h₀, initialized, listed everyCall (everyCall_admitted h₀ initialized)⟩

end Chewie.Mm
