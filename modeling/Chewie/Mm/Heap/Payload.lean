import Chewie.Mm.Heap.Wrap

/-!
# What `mm_malloc` takes

`mm_malloc` takes a smallest free chunk that is large enough, of all buckets.
-/

namespace Chewie.Mm

open Mm.Geometry Tags Option

section Fit

variable {g : Geometry} {h : Heap} {layout : List Region} {nodes : List Node} {want size : Nat}

/-- A free chunk of at least `want` bytes. -/
def Fitting (g : Geometry) (h : Heap) (want a : Nat) : Prop :=
  IsChunk h a ∧ h.isFree g (.chunk a) = true ∧ want ≤ h.size (.chunk a)

/-- `mm_malloc` returns NULL when no free chunk is large enough, and otherwise a smallest one, which
is allocated then. -/
def BestFit (g : Geometry) (h : Heap) (size : Nat) : Prop :=
  ∃ h' mem, mmMalloc g h size = some (h', mem) ∧
    (mem = 0 ↔ ∀ a, ¬Fitting g h (chunkSize g size) a) ∧
    WellFormed g h' ∧ (mem ≠ 0 → Held g h' mem ∧
      ∃ a, Fitting g h (chunkSize g size) a ∧ mem = a + g.allocNode ∧
        ∀ b, Fitting g h (chunkSize g size) b → h.size (.chunk a) ≤ h.size (.chunk b))

theorem Inv.fitting_iff (inv : Inv g h layout nodes []) {a : Nat} :
    Fitting g h want a ↔
      (a, ⟨h.size (.chunk a), false⟩) ∈ places g layout ∧ want ≤ h.size (.chunk a) := by
  constructor
  · rintro ⟨chunk, free, large⟩
    obtain ⟨entry, placed, unused⟩ :=
      (inv.marked_iff false a).mpr ⟨chunk, by simpa [Heap.isFree] using free⟩
    have size : h.size (.chunk a) = entry.size := (inv.place_header placed).1
    rw [size] at large ⊢
    rw [← unused]
    exact ⟨placed, large⟩
  · rintro ⟨placed, large⟩
    obtain ⟨chunk, unused⟩ := (inv.marked_iff false a).mp ⟨_, placed, rfl⟩
    exact ⟨chunk, by rw [Heap.isFree, unused]; rfl, large⟩

theorem malloc_best_fit (wellFormed : WellFormed g h) (positive : 0 < size)
    (ok : RequestOk g size) : BestFit g h size := by
  obtain ⟨layout, nodes, inv⟩ := wellFormed
  obtain ⟨live, owned⟩ := inv.owned
  obtain ⟨h₁, mem, layout₁, nodes₁, allocated, owned₁, _⟩ :=
    mmMalloc_owned owned (Or.inr ok.nonzero)
  rcases mmMalloc_spec inv positive ok.nonzero with
    ⟨failed, small⟩ | ⟨s, found, h', nodes', allocates, done, _⟩
  · refine ⟨h, 0, failed, ⟨fun _ a fits => ?_, fun _ => rfl⟩, ⟨layout, nodes, inv⟩,
      fun notNull => absurd rfl notNull⟩
    obtain ⟨placed, large⟩ := inv.fitting_iff.mp fits
    exact absurd large (Nat.not_le.mpr (small _ _ placed rfl))
  · have header := g.allocNode_pos
    have placed : (s.start g, ⟨found, false⟩) ∈ places g layout := by
      rw [allocates.found]
      exact @Spot.place_mem g s [] [] ⟨found, false⟩
    have own : h.size (.chunk (s.start g)) = found := (inv.place_header placed).1
    have fits : Fitting g h (chunkSize g size) (s.start g) := by
      rw [inv.fitting_iff, own]
      exact ⟨placed, allocates.fits⟩
    rw [done] at allocated
    cases allocated
    refine ⟨_, _, done, ⟨fun null => by omega, fun none => absurd fits (none _)⟩,
      ⟨layout₁, nodes₁, owned₁.inv⟩,
      fun notNull => ⟨owned₁.tiled.allocated _ ?_, _, fits, rfl, fun b other => ?_⟩⟩
    · rw [gain, if_neg notNull]
      exact List.mem_cons_self
    obtain ⟨place, large⟩ := inv.fitting_iff.mp other
    rw [own]
    exact allocates.smallest _ _ place rfl large

/-- The second chunk of 112 bytes is behind the first. -/
theorem malloc_best_fit_hundred : ∃ h, WellFormed .standard h ∧ BestFit .standard h 100 ∧
    (mmMalloc .standard h 100).map Prod.snd = some 4224 := by
  obtain ⟨h, run, wellFormed, _⟩ := wellFormed_malloc
  have pointer : ∀ other ∈ (mmInitialize .standard blank 4096 1024).bind (fun h =>
      (mmMalloc .standard h 100).map Prod.fst),
      (mmMalloc .standard other 100).map Prod.snd = some 4224 := by
    decide +kernel
  exact ⟨h, wellFormed, malloc_best_fit wellFormed (by decide) (by decide +kernel), pointer h run⟩

end Fit

end Chewie.Mm
