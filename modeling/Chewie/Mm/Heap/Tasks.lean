import Chewie.Mm.Heap.Tidy
import Chewie.Mm.Heap.Runs

/-!
# Tasks that share a heap

Any number of tasks call `mm_malloc`, `mm_free`, `mm_realloc` and `mm_memalign`. The code between
`mm_takesemaphore` and `mm_givesemaphore` is one atomic step. `mm_realloc` and `mm_memalign` release
the semaphore between their sections: a task that is between two sections of a call is described by
its program counter, and other tasks may take steps meanwhile.
-/

namespace Chewie.Mm

open List Option

open Tags (Chunk total place)

/-- Where a task is between two atomic steps. -/
inductive Pc where
  | idle
  /-- `mm_realloc` could not extend the chunk in place and will call `mm_malloc`. -/
  | copying (oldmem size : Nat)
  /-- `mm_realloc` copied the payload and will call `mm_free`. -/
  | moved (oldmem newmem : Nat)
  /-- `mm_memalign` got its raw chunk and will cut it. -/
  | aligning (alignment size allocsize rawchunk : Nat)
deriving DecidableEq

/-- The pointers a task holds inside a call. -/
def Pc.holds : Pc → List Nat
  | .idle => []
  | .copying oldmem _ => [oldmem]
  | .moved oldmem newmem => [oldmem, newmem]
  | .aligning _ _ _ rawchunk => [rawchunk]

/-- A heap and the tasks that use it. -/
structure System where
  heap : Heap
  /-- The pointers handed out, not yet freed, and not inside a call. -/
  live : List Nat
  tasks : List Pc

/-- An atomic step of one task. -/
inductive Action where
  | malloc (size : Nat)
  | free (mem : Nat)
  | realloc (mem size : Nat)
  | memalign (alignment size : Nat)
  | resume
deriving DecidableEq

section Steps

variable (g : Geometry) (s : System) (task : Nat)

/-- `mm_malloc` as one step. -/
def mallocStep (size : Nat) : Option System :=
  (mmMalloc g s.heap size).map fun (h, mem) => { s with heap := h, live := gain mem s.live }

/-- `mm_free` as one step. -/
def freeStep (mem : Nat) : Option System :=
  (mmFree g s.heap mem).map fun h => { s with heap := h, live := s.live.erase mem }

/-- The first section of `mm_realloc`. -/
def reallocStep (mem size : Nat) : Option System :=
  if mem = 0 then mallocStep g s size
  else if size < 1 then freeStep g s mem
  else
    (reallocInPlace g s.heap mem size).map fun (h, result) =>
      match result with
      | some new => { s with heap := h, live := new :: s.live.erase mem }
      | none => ⟨h, s.live.erase mem, s.tasks.set task (.copying mem size)⟩

/-- The first section of `mm_memalign`. -/
def memalignStep (alignment size : Nat) : Option System :=
  if alignment ≤ g.minChunk then mallocStep g s size
  else
    let size := g.alignUp size
    let allocsize := memalignAllocsize g alignment size
    (mmMalloc g s.heap allocsize).map fun (h, rawchunk) =>
      if rawchunk = 0 then { s with heap := h }
      else { s with
        heap := h
        tasks := s.tasks.set task (.aligning alignment size allocsize rawchunk) }

/-- The next section of the call a task is in. -/
def resumeStep : Option System :=
  match s.tasks[task]? with
  | some (.copying oldmem size) =>
    (mmMalloc g s.heap size).map fun (h, newmem) =>
      if newmem = 0 then ⟨h, oldmem :: s.live, s.tasks.set task .idle⟩
      else { s with heap := h, tasks := s.tasks.set task (.moved oldmem newmem) }
  | some (.moved oldmem newmem) =>
    (mmFree g s.heap oldmem).map fun h => ⟨h, newmem :: s.live, s.tasks.set task .idle⟩
  | some (.aligning alignment size allocsize rawchunk) =>
    (memalignCut g s.heap alignment size allocsize rawchunk).map fun (h, mem) =>
      ⟨h, mem :: s.live, s.tasks.set task .idle⟩
  | _ => none

end Steps

/-- One atomic step of one task. -/
def System.step (g : Geometry) (s : System) : Nat × Action → Option System
  | (_, .malloc size) => mallocStep g s size
  | (_, .free mem) => freeStep g s mem
  | (task, .realloc mem size) => reallocStep g s task mem size
  | (task, .memalign alignment size) => memalignStep g s task alignment size
  | (task, .resume) => resumeStep g s task

/-- A step the tasks may take: an idle task calls with a pointer it holds and a size that does not
wrap, or a task that is inside a call goes on with it. -/
def Permitted (g : Geometry) (s : System) : Nat × Action → Prop
  | (task, .malloc size) => s.tasks[task]? = some .idle ∧ RequestOk g size
  | (task, .free mem) => s.tasks[task]? = some .idle ∧ (mem = 0 ∨ mem ∈ s.live)
  | (task, .realloc mem size) => s.tasks[task]? = some .idle ∧ (mem = 0 ∨ mem ∈ s.live) ∧
    RequestOk g size ∧ (g.freeNode ≤ g.unit ∨ (mem ∈ s.live → GrowthUsable g s.heap mem size))
  | (task, .memalign alignment size) => s.tasks[task]? = some .idle ∧ AlignOk g alignment size
  | (task, .resume) => ∃ pc ∈ s.tasks, s.tasks[task]? = some pc ∧ pc ≠ .idle

/-- When `mm_memalign` cuts its raw chunk, the chunk starts on the alignment or the chunk
physically before it is allocated. -/
def Pc.Calm (g : Geometry) (h : Heap) : Pc → Prop
  | .aligning alignment _ _ rawchunk =>
    let node := Node.chunk (g.sub rawchunk g.allocNode)
    let mask := g.sub alignment 1
    Word.andNot g.wordBits (g.add rawchunk mask) mask = rawchunk ∨
      h.isFree g (h.ahead g node (g.clearAlloc (h.preceding node))) = false
  | _ => True

/-- A step that does not cut a raw chunk behind a free chunk. -/
def Calm (g : Geometry) (s : System) : Nat × Action → Prop
  | (task, .resume) => ∀ pc ∈ s.tasks[task]?, pc.Calm g s.heap
  | _ => True

section Decidable

variable (g : Geometry) (s : System)

instance decidablePermitted : ∀ action, Decidable (Permitted g s action)
  | (_, .malloc _) | (_, .free _) | (_, .realloc _ _) | (_, .memalign _ _) | (_, .resume) => by
    dsimp only [Permitted]; infer_instance

instance decidablePcCalm (h : Heap) : ∀ pc, Decidable (Pc.Calm g h pc)
  | .aligning .. => inferInstanceAs (Decidable (_ ∨ _))
  | .idle | .copying .. | .moved .. => isTrue trivial

instance decidableCalm : ∀ action, Decidable (Calm g s action)
  | (task, .resume) => inferInstanceAs (Decidable (∀ pc ∈ s.tasks[task]?, Pc.Calm g s.heap pc))
  | (_, .malloc _) | (_, .free _) | (_, .realloc _ _) | (_, .memalign _ _) =>
    inferInstanceAs (Decidable True)

end Decidable

/-- What is known about a task between two sections of its call. -/
def Ready (g : Geometry) (layout : List Region) : Pc → Prop
  | .copying _ size => RequestOk g size
  | .aligning alignment size allocsize rawchunk =>
    ∃ exponent, alignment = 2 ^ exponent ∧ g.minChunk < alignment ∧
      allocsize = size + 2 * alignment ∧
      Serves g layout rawchunk (size + 2 * alignment + g.allocNode)
  | _ => True

/-- The pointers the tasks hold inside their calls. -/
def holdings (tasks : List Pc) : List Nat := tasks.flatMap Pc.holds

/-- The heap is well formed and tidy, its pointers are held by the clients or by one task inside a
call, and every such task can go on. -/
def Settled (g : Geometry) (s : System) : Prop :=
  ∃ layout nodes, Owned g s.heap (s.live ++ holdings s.tasks) layout nodes ∧ Tidy layout ∧
    ∀ pc ∈ s.tasks, Ready g layout pc

section Focus

variable {g : Geometry} {h : Heap} {live : List Nat} {front back : List Pc} {pc : Pc}
variable {layout layout' : List Region} {nodes : List Node}

theorem Owned.perm {other : List Nat} (owned : Owned g h live layout nodes)
    (same : live.Perm other) : Owned g h other layout nodes :=
  ⟨owned.inv, fun a => same.symm.mem_iff.trans (owned.owned a), same.nodup_iff.mp owned.distinct⟩

theorem holdings_focus (live : List Nat) (front back : List Pc) (pc : Pc) :
    (live ++ holdings (front ++ pc :: back)).Perm
      (pc.holds ++ (live ++ holdings (front ++ back))) := by
  have split : holdings (front ++ pc :: back) = holdings front ++ (pc.holds ++ holdings back) := by
    simp [holdings]
  have others : holdings (front ++ back) = holdings front ++ holdings back := by
    simp [holdings]
  have exchange := perm_append_comm_assoc (live ++ holdings front) pc.holds (holdings back)
  rw [split, others, ← append_assoc, ← append_assoc live]
  exact exchange

theorem Ready.keeps (ready : Ready g layout pc)
    (kept : ∀ entry ∈ places g layout, entry.2.used = true →
      entry.1 + g.allocNode ∈ pc.holds → entry ∈ places g layout') : Ready g layout' pc := by
  cases pc with
  | idle => trivial
  | copying oldmem size => exact ready
  | moved oldmem newmem => trivial
  | aligning alignment size allocsize rawchunk =>
    obtain ⟨exponent, power, coarse, sum, serves⟩ := ready
    refine ⟨exponent, power, coarse, sum, serves.keeps ?_⟩
    intro entry placed used address
    exact kept entry placed used (by simp [Pc.holds, address])

theorem Settled.intro {next : Pc} {h' : Heap} {live' : List Nat} {nodes' : List Node}
    (owned : Owned g h' (next.holds ++ (live' ++ holdings (front ++ back))) layout' nodes')
    (tidy : Tidy layout') (own : Ready g layout' next)
    (others : ∀ pc ∈ front ++ back, Ready g layout' pc) :
    Settled g ⟨h', live', front ++ next :: back⟩ := by
  refine ⟨layout', nodes', owned.perm (holdings_focus _ _ _ _).symm, tidy, ?_⟩
  intro pc inside
  rcases mem_append.mp inside with early | later
  · exact others pc (mem_append_left _ early)
  · rcases mem_cons.mp later with rfl | behind
    · exact own
    · exact others pc (mem_append_right _ behind)

theorem Exchanged.ready {touched : Option Nat} {mine : List Nat}
    (exchanged : Exchanged g touched layout layout')
    (distinct : (mine ++ holdings (front ++ back)).Nodup) (own : ∀ mem ∈ touched, mem ∈ mine)
    (others : ∀ pc ∈ front ++ back, Ready g layout pc) :
    ∀ pc ∈ front ++ back, Ready g layout' pc := by
  intro pc inside
  apply (others pc inside).keeps
  intro entry placed used held
  apply exchanged.keeps placed used
  intro touches
  exact disjoint_of_nodup_append distinct (own _ touches) (mem_flatMap.mpr ⟨pc, inside, held⟩)

end Focus

section Sections

variable {g : Geometry} {s : System} {task : Nat}

theorem Settled.focus {pc : Pc} (settled : Settled g s) (found : s.tasks[task]? = some pc) :
    ∃ front back layout nodes, s.tasks = front ++ pc :: back ∧
      (∀ next, s.tasks.set task next = front ++ next :: back) ∧
      Owned g s.heap (pc.holds ++ (s.live ++ holdings (front ++ back))) layout nodes ∧
      Tidy layout ∧ Ready g layout pc ∧ ∀ other ∈ front ++ back, Ready g layout other := by
  obtain ⟨layout, nodes, owned, tidy, ready⟩ := settled
  obtain ⟨inside, here⟩ := List.getElem?_eq_some_iff.mp found
  obtain ⟨front, back, split, set⟩ : ∃ front back, s.tasks = front ++ pc :: back ∧
      ∀ next, s.tasks.set task next = front ++ next :: back := by
    refine ⟨s.tasks.take task, s.tasks.drop (task + 1), ?_, fun next => ?_⟩
    · rw [← here, cons_getElem_drop_succ, take_append_drop]
    · rw [set_eq_take_append_cons_drop, if_pos inside]
  rw [split] at owned ready
  refine ⟨front, back, layout, nodes, split, set, owned.perm (holdings_focus _ _ _ _), tidy,
    ready pc (by simp), ?_⟩
  intro other inside
  apply ready other
  rcases mem_append.mp inside with early | later
  · exact mem_append_left _ early
  · exact mem_append_right _ (mem_cons_of_mem _ later)

section

variable (settled : Settled g s) (found : s.tasks[task]? = some .idle)

include settled found

theorem mallocStep_settled {size : Nat} (ok : RequestOk g size) :
    ∃ next, mallocStep g s size = some next ∧ Settled g next := by
  obtain ⟨front, back, layout, nodes, split, _, owned, tidy, _, others⟩ := settled.focus found
  obtain ⟨h, mem, layout', nodes', allocated, owned', reshaped, _, _⟩ :=
    mmMalloc_owned owned (Or.inr ok.nonzero)
  have distinct : (s.live ++ holdings (front ++ back)).Nodup := owned.distinct
  refine ⟨⟨h, gain mem s.live, s.tasks⟩, by rw [mallocStep, allocated]; rfl, ?_⟩
  have gained : gain mem (Pc.idle.holds ++ (s.live ++ holdings (front ++ back))) =
      Pc.idle.holds ++ (gain mem s.live ++ holdings (front ++ back)) := by
    by_cases null : mem = 0
    · rw [gain, gain, if_pos null, if_pos null]
    · rw [gain, gain, if_neg null, if_neg null]
      rfl
  rw [gained] at owned'
  rw [split]
  exact Settled.intro owned' (reshaped.tidy tidy) trivial
    (reshaped.exchanged.ready distinct (by simp) others)

theorem freeStep_settled {mem : Nat} (held : mem = 0 ∨ mem ∈ s.live) :
    ∃ next, freeStep g s mem = some next ∧ Settled g next := by
  by_cases null : mem = 0
  · obtain ⟨layout, nodes, owned, tidy, ready⟩ := settled
    have absent : mem ∉ s.live := by
      intro inside
      exact owned.not_null (mem_append_left _ inside) null
    refine ⟨⟨s.heap, s.live.erase mem, s.tasks⟩, ?_, layout, nodes, ?_, tidy, ready⟩
    · rw [freeStep, mmFree, if_pos null]
      rfl
    · rw [erase_of_not_mem absent]
      exact owned
  · have inside := held.resolve_left null
    obtain ⟨front, back, layout, nodes, split, _, owned, tidy, _, others⟩ := settled.focus found
    obtain ⟨h, layout', nodes', freed, owned', reshaped, _⟩ :=
      mmFree_owned owned (mem_append_right _ (mem_append_left _ inside))
    have distinct : (s.live ++ holdings (front ++ back)).Nodup := owned.distinct
    refine ⟨⟨h, s.live.erase mem, s.tasks⟩, by rw [freeStep, freed]; rfl, ?_⟩
    have erased : (Pc.idle.holds ++ (s.live ++ holdings (front ++ back))).erase mem =
        Pc.idle.holds ++ (s.live.erase mem ++ holdings (front ++ back)) :=
      erase_append_left _ inside
    rw [erased] at owned'
    rw [split]
    exact Settled.intro owned' (reshaped.tidy tidy) trivial
      (reshaped.exchanged.ready distinct (by simpa using inside) others)

/-- The first section of `mm_realloc` keeps the system settled. -/
theorem reallocStep_settled {mem size : Nat} (held : mem = 0 ∨ mem ∈ s.live) (ok : RequestOk g size)
    (careful : g.freeNode ≤ g.unit ∨ (mem ∈ s.live → GrowthUsable g s.heap mem size)) :
    ∃ next, reallocStep g s task mem size = some next ∧ Settled g next := by
  by_cases null : mem = 0
  · rw [reallocStep, if_pos null]
    exact mallocStep_settled settled found ok
  have inside := held.resolve_left null
  by_cases empty : size < 1
  · rw [reallocStep, if_neg null, if_pos empty]
    exact freeStep_settled settled found held
  obtain ⟨front, back, layout, nodes, split, set, owned, tidy, _, others⟩ := settled.focus found
  have holds : mem ∈ Pc.idle.holds ++ (s.live ++ holdings (front ++ back)) :=
    mem_append_right _ (mem_append_left _ inside)
  have distinct : (s.live ++ holdings (front ++ back)).Nodup := owned.distinct
  have usable : GrowthUsable g s.heap mem size := by
    rcases careful with coarse | usable
    · obtain ⟨spot, old, rfl, rfl⟩ := owned.spot holds
      exact growth_of_unit coarse owned.inv
    · exact usable inside
  obtain ⟨h, result, layout', nodes', performed, owned', reshaped, _⟩ :=
    reallocInPlace_owned owned holds ok.nonzero usable
  have ready := reshaped.exchanged.ready distinct (by simpa using inside) others
  cases result with
  | some new =>
    refine ⟨⟨h, new :: s.live.erase mem, s.tasks⟩, ?_, ?_⟩
    · rw [reallocStep, if_neg null, if_neg empty, performed]
      rfl
    · have erased : (Pc.idle.holds ++ (s.live ++ holdings (front ++ back))).erase mem =
          s.live.erase mem ++ holdings (front ++ back) := erase_append_left _ inside
      simp only [erased] at owned'
      rw [split]
      exact Settled.intro owned' (reshaped.tidy tidy) trivial ready
  | none =>
    refine ⟨⟨h, s.live.erase mem, s.tasks.set task (.copying mem size)⟩, ?_, ?_⟩
    · rw [reallocStep, if_neg null, if_neg empty, performed]
      rfl
    · have kept : Owned g h (mem :: (s.live.erase mem ++ holdings (front ++ back))) layout'
          nodes' := owned'.perm ((perm_cons_erase inside).append_right _)
      rw [set]
      exact Settled.intro kept (reshaped.tidy tidy) (show Ready g layout' (.copying ..) from ok)
        ready

/-- The first section of `mm_memalign` keeps the system settled. -/
theorem memalignStep_settled {alignment size : Nat} (ok : AlignOk g alignment size) :
    ∃ next, memalignStep g s task alignment size = some next ∧ Settled g next := by
  obtain ⟨⟨exponent, _, power⟩, request⟩ := ok
  by_cases fine : alignment ≤ g.minChunk
  · rw [if_pos fine] at request
    rw [memalignStep, if_pos fine]
    exact mallocStep_settled settled found request
  rw [if_neg fine] at request
  obtain ⟨rounds, ok⟩ := request
  have allocsize := memalignAllocsize_eq ok
  obtain ⟨front, back, layout, nodes, split, set, owned, tidy, _, others⟩ := settled.focus found
  obtain ⟨h, raw, layout', nodes', allocated, owned', reshaped, _, chunk⟩ :=
    mmMalloc_owned owned (Or.inr ok.nonzero)
  have distinct : (s.live ++ holdings (front ++ back)).Nodup := owned.distinct
  have ready := reshaped.exchanged.ready distinct (by simp) others
  have unfolded : memalignStep g s task alignment size =
      some (if raw = 0 then { s with heap := h } else { s with
        heap := h
        tasks := s.tasks.set task (.aligning alignment (g.alignUp size)
          (g.alignUp size + 2 * alignment) raw) }) := by
    rw [memalignStep, if_neg fine]
    simp [allocsize, allocated]
  refine ⟨_, unfolded, ?_⟩
  by_cases failed : raw = 0
  · rw [gain, if_pos failed] at owned'
    rw [if_pos failed, split]
    exact Settled.intro owned' (reshaped.tidy tidy) trivial ready
  · rw [gain, if_neg failed] at owned'
    rw [if_neg failed, set]
    apply Settled.intro owned' (reshaped.tidy tidy) _ ready
    exact ⟨exponent, power, Nat.lt_of_not_le fine, rfl, (chunk failed).mono ok.bounds.1⟩

end

theorem Cutting.calm {h : Heap} {layout layout' : List Region} {nodes : List Node}
    {spot wide : Spot} {left right : List Chunk} {mem request size skip : Nat}
    (cutting : Cutting g layout layout' mem request spot wide left right size skip)
    (inv : Inv g h layout nodes []) (used : h.isFree g (h.ahead g (.chunk (g.sub mem g.allocNode))
      (g.clearAlloc (h.preceding (.chunk (g.sub mem g.allocNode))))) = false) : left = [] := by
  have wider := cutting.wider
  rw [cutting.raw] at inv
  have reads := wider.reads inv
  rw [cutting.payload, reads.back, reads.ahead, inv.lead_isFree] at used
  have edge := wider.leftEdge
  rw [show spot.leadUsed = true by simpa using used] at edge
  cases edge
  rfl

/-- The next section of a call keeps the system settled when it is calm. -/
theorem resumeStep_settled {pc : Pc} (settled : Settled g s) (found : s.tasks[task]? = some pc)
    (busy : pc ≠ .idle) (calm : Calm g s (task, .resume)) :
    ∃ next, resumeStep g s task = some next ∧ Settled g next := by
  obtain ⟨front, back, layout, nodes, split, set, owned, tidy, own, others⟩ := settled.focus found
  have distinct := owned.distinct
  rw [← append_assoc] at distinct
  cases pc with
  | idle => exact absurd rfl busy
  | copying oldmem size =>
    have ok : RequestOk g size := own
    obtain ⟨h, new, layout', nodes', allocated, owned', reshaped, _, _⟩ :=
      mmMalloc_owned owned (Or.inr ok.nonzero)
    have ready := reshaped.exchanged.ready distinct (by simp) others
    have unfolded : resumeStep g s task =
        some (if new = 0 then ⟨h, oldmem :: s.live, s.tasks.set task .idle⟩ else
          { s with heap := h, tasks := s.tasks.set task (.moved oldmem new) }) := by
      rw [resumeStep, found]
      simp [allocated]
    refine ⟨_, unfolded, ?_⟩
    by_cases failed : new = 0
    · rw [gain, if_pos failed] at owned'
      rw [if_pos failed, set]
      exact Settled.intro owned' (reshaped.tidy tidy) trivial ready
    rw [gain, if_neg failed] at owned'
    rw [if_neg failed, set]
    have swapped : Owned g h (oldmem :: new :: (s.live ++ holdings (front ++ back))) layout' nodes' :=
      owned'.perm (Perm.swap oldmem new _)
    exact Settled.intro swapped (reshaped.tidy tidy) trivial ready
  | moved oldmem newmem =>
    obtain ⟨h, layout', nodes', freed, owned', reshaped, _⟩ := mmFree_owned owned (mem_cons_self ..)
    have ready := reshaped.exchanged.ready distinct (by simp [Pc.holds]) others
    refine ⟨⟨h, newmem :: s.live, s.tasks.set task .idle⟩, ?_, ?_⟩
    · rw [resumeStep, found]
      simp [freed]
    · have erased : (oldmem :: newmem :: (s.live ++ holdings (front ++ back))).erase oldmem =
          newmem :: (s.live ++ holdings (front ++ back)) := erase_cons_head _ _
      have kept : Owned g h (newmem :: (s.live ++ holdings (front ++ back))) layout' nodes' := by
        rw [← erased]
        exact owned'
      rw [set]
      exact Settled.intro kept (reshaped.tidy tidy) trivial ready
  | aligning alignment size allocsize rawchunk =>
    obtain ⟨exponent, power, coarse, sum, serves⟩ := own
    rw [power] at coarse serves sum
    obtain ⟨h, skip, layout', nodes', spot, wide, left, right, old, performed, owned', _, _, cutting,
        _⟩ := memalignCut_owned owned (mem_cons_self ..) coarse serves
    have either : left = [] ∨ skip = 0 := by
      rcases calm _ found with aligned | used
      · rw [power] at aligned
        simp only [memalignCut, aligned, ne_eq, not_true_eq_false, if_false, bind_eq_bind,
          bind_some] at performed
        obtain ⟨h₁, _, returned⟩ := bind_eq_some_iff.mp performed
        simp only [Option.some.injEq, Prod.mk.injEq] at returned
        exact Or.inr (by omega)
      · exact Or.inl (cutting.calm owned.inv used)
    have ready := cutting.exchanged.ready distinct (by simp [Pc.holds]) others
    refine ⟨⟨h, (rawchunk + skip) :: s.live, s.tasks.set task .idle⟩, ?_, ?_⟩
    · rw [resumeStep, found]
      simp [power, sum, performed]
    · have erased : (rawchunk :: (s.live ++ holdings (front ++ back))).erase rawchunk =
          s.live ++ holdings (front ++ back) := erase_cons_head _ _
      have kept : Owned g h ((rawchunk + skip) :: (s.live ++ holdings (front ++ back))) layout'
          nodes' := by
        rw [← erased]
        exact owned'
      rw [set]
      exact Settled.intro kept (cutting.tidy tidy either) trivial ready

theorem step_settled {action : Nat × Action} (settled : Settled g s)
    (permitted : Permitted g s action) (calm : Calm g s action) :
    ∃ next, System.step g s action = some next ∧ Settled g next := by
  obtain ⟨task, action⟩ := action
  cases action with
  | malloc size => exact mallocStep_settled settled permitted.1 permitted.2
  | free mem => exact freeStep_settled settled permitted.1 permitted.2
  | realloc mem size =>
    obtain ⟨found, held, ok, careful⟩ := permitted
    exact reallocStep_settled settled found held ok careful
  | memalign alignment size => exact memalignStep_settled settled permitted.1 permitted.2
  | resume =>
    obtain ⟨pc, _, found, busy⟩ := permitted
    exact resumeStep_settled settled found busy calm

end Sections

/-- A block of memory given to the heap: its start and its size. -/
abbrev Block := Nat × Nat

/-- The start of the firmware: `mm_initialize` with the first block and `mm_addregion` with the
others, before there are tasks. -/
def boot (g : Geometry) (h : Heap) (first : Block) (others : List Block) : Option Heap :=
  (mmInitialize g h first.1 first.2).bind fun h =>
    Run.run (fun h block => mmAddregion g h block.1 block.2) h others

/-- The blocks are what `RegionOk` asks for. -/
def BootOk (g : Geometry) (h : Heap) (first : Block) (others : List Block) : Prop :=
  RegionOk g [] first.1 first.2 ∧ ∀ h₀ ∈ mmInitialize g h first.1 first.2,
    Run.Admitted (fun h block => mmAddregion g h block.1 block.2)
      (fun h block => RegionOk g h.regions block.1 block.2) h₀ others

theorem boot_tidy {g : Geometry} {h : Heap} {first : Block} {others : List Block}
    (ok : BootOk g h first others) :
    ∃ h₀, boot g h first others = some h₀ ∧
      ∃ layout nodes, Owned g h₀ [] layout nodes ∧ Tidy layout := by
  have kept : ∀ (h : Heap) (block : Block),
      (∃ layout nodes, Owned g h [] layout nodes ∧ Tidy layout) →
      RegionOk g h.regions block.1 block.2 →
      ∃ h', mmAddregion g h block.1 block.2 = some h' ∧
        ∃ layout nodes, Owned g h' [] layout nodes ∧ Tidy layout := by
    intro h block before ok
    obtain ⟨layout, nodes, owned, tidy⟩ := before
    obtain ⟨h', nodes', added, owned', _⟩ := mmAddregion_owned owned ok
    refine ⟨h', added, _, nodes', owned', ?_⟩
    intro r member
    rcases mem_append.mp member with old | new
    · exact tidy r old
    · rw [mem_singleton.mp new]
      exact List.IsChain.singleton _
  have empty : Tidy [] := fun r inside => by cases inside
  obtain ⟨h₁, initialized, booted⟩ :=
    kept (initNodelist g h) first ⟨[], _, initNodelist_owned h, empty⟩ ok.1
  obtain ⟨h₀, performed, final⟩ := Run.run_invariant kept booted (ok.2 h₁ initialized)
  refine ⟨h₀, ?_, final⟩
  rw [boot, show mmInitialize g h first.1 first.2 = some h₁ from initialized]
  exact performed

/-- Every run of tasks that start idle after the boot keeps the system settled. -/
theorem tasks_settled {g : Geometry} {h : Heap} {first : Block} {others : List Block} (count : Nat)
    (ok : BootOk g h first others) :
    ∃ h₀, boot g h first others = some h₀ ∧
      ∀ actions, Run.Admitted (System.step g) (fun s action => Permitted g s action ∧
          Calm g s action) ⟨h₀, [], List.replicate count .idle⟩ actions →
        ∃ s, Run.run (System.step g) ⟨h₀, [], List.replicate count .idle⟩ actions = some s ∧
          Settled g s := by
  obtain ⟨h₀, booted, layout, nodes, owned, tidy⟩ := boot_tidy ok
  refine ⟨h₀, booted, fun actions admitted => ?_⟩
  have settled : Settled g ⟨h₀, [], List.replicate count .idle⟩ := by
    refine ⟨layout, nodes, ?_, tidy, ?_⟩
    · have none : holdings (List.replicate count .idle) = [] := by
        simp [holdings, Pc.holds]
      simp only [none]
      exact owned
    · intro pc inside
      rw [eq_of_mem_replicate inside]
      trivial
  exact Run.run_invariant (fun _ _ kept guarded => step_settled kept guarded.1 guarded.2) settled
    admitted

/-- Whatever the tasks do and however their steps interleave, no two physically adjacent chunks are
free, as long as no aligned cut finds a free chunk before its raw chunk. -/
theorem tasks_coalesce (g : Geometry) (h : Heap) (first : Block) (others : List Block)
    (count : Nat) (ok : BootOk g h first others) :
    ∃ h₀, boot g h first others = some h₀ ∧
      ∀ actions, Run.Admitted (System.step g) (fun s action => Permitted g s action ∧
          Calm g s action) ⟨h₀, [], List.replicate count .idle⟩ actions →
        ∃ s, Run.run (System.step g) ⟨h₀, [], List.replicate count .idle⟩ actions = some s ∧
          NoAdjacentFree g s.heap := by
  obtain ⟨h₀, booted, runs⟩ := tasks_settled count ok
  refine ⟨h₀, booted, fun actions admitted => ?_⟩
  obtain ⟨s, performed, layout', nodes', owned', tidy', _⟩ := runs actions admitted
  exact ⟨s, performed, owned'.inv.no_adjacent_free tidy'⟩

/-- Two tasks: one resizes a chunk that has to move while the other aligns one. -/
def twoTasks : List (Nat × Action) :=
  [(0, .malloc 24), (1, .malloc 24), (0, .realloc 32784 200), (1, .memalign 64 64), (0, .resume),
    (1, .resume), (0, .resume)]

theorem tasks_coalesce_two :
    ∃ h₀, boot .standard blank (4096, 1024) [(32768, 512)] = some h₀ ∧
      ∃ s, Run.run (System.step .standard) ⟨h₀, [], [.idle, .idle]⟩ twoTasks = some s ∧
        NoAdjacentFree .standard s.heap := by
  have ok : BootOk .standard blank (4096, 1024) [(32768, 512)] :=
    ⟨by decide +kernel, by decide +kernel⟩
  obtain ⟨h₀, booted, coalesced⟩ := tasks_coalesce .standard blank _ _ 2 ok
  have admitted : ∀ h ∈ boot .standard blank (4096, 1024) [(32768, 512)],
      Run.Admitted (System.step .standard) (fun s action => Permitted .standard s action ∧
        Calm .standard s action) ⟨h, [], [.idle, .idle]⟩ twoTasks := by
    decide +kernel
  exact ⟨h₀, booted, coalesced _ (admitted h₀ booted)⟩

/-- While one task is between the two sections of `mm_memalign`, another frees the chunk before the
raw chunk. The cut then leaves two adjacent free chunks. -/
theorem tasks_not_coalesced :
    ∃ h₀ ∈ boot .standard blank (4096, 1024) [],
      Run.Admitted (System.step .standard) (Permitted .standard) ⟨h₀, [], [.idle, .idle]⟩
        [(0, .malloc 24), (0, .memalign 64 64), (1, .free 4112), (0, .resume)] ∧
      ∃ s ∈ Run.run (System.step .standard) ⟨h₀, [], [.idle, .idle]⟩
        [(0, .malloc 24), (0, .memalign 64 64), (1, .free 4112), (0, .resume)],
        ¬NoAdjacentFree .standard s.heap := by
  -- The second chunk of the region and the one behind it are free.
  have adjacent (h : Heap) (found : ∃ bounds ∈ h.regions, h.node bounds (1 + 1) < bounds.heapend ∧
      h.isFree .standard (.chunk (h.node bounds 1)) = true ∧
      h.isFree .standard (.chunk (h.node bounds (1 + 1))) = true) :
      ¬NoAdjacentFree .standard h := by
    obtain ⟨bounds, listed, inside, both⟩ := found
    exact fun none => none bounds listed 1 inside both
  refine Exists.imp (fun h₀ => And.imp_right (And.imp_right
    (Exists.imp fun s => And.imp_right (adjacent s.heap)))) ?_
  decide +kernel

/-- There is at most one chunk between the guards of each region, and it is free. -/
def Whole (g : Geometry) (h : Heap) : Prop :=
  ∀ bounds ∈ h.regions, ∃ nodes ≤ 2, RegionTiled g h bounds nodes ∧
    ∀ steps, 0 < steps → steps < nodes → h.isFree g (.chunk (h.node bounds steps)) = true

/-- Whatever the tasks did, when no pointer is held any more the heap is whole again. -/
theorem tasks_return_whole (g : Geometry) (h : Heap) (first : Block) (others : List Block)
    (count : Nat) (ok : BootOk g h first others) :
    ∃ h₀, boot g h first others = some h₀ ∧
      ∀ actions, Run.Admitted (System.step g) (fun s action => Permitted g s action ∧
          Calm g s action) ⟨h₀, [], List.replicate count .idle⟩ actions →
        ∃ s, Run.run (System.step g) ⟨h₀, [], List.replicate count .idle⟩ actions = some s ∧
          (s.live ++ holdings s.tasks = [] → Whole g s.heap) := by
  obtain ⟨h₀, booted, runs⟩ := tasks_settled count ok
  refine ⟨h₀, booted, fun actions admitted => ?_⟩
  obtain ⟨s, performed, layout', nodes', owned', tidy', _⟩ := runs actions admitted
  refine ⟨s, performed, fun unheld bounds listed => ?_⟩
  obtain ⟨nodes, tiled⟩ := owned'.tiled.regions bounds listed
  have free : ∀ steps, 0 < steps → steps < nodes →
      s.heap.isFree g (.chunk (s.heap.node bounds steps)) = true := by
    intro steps positive inside
    rw [Heap.isFree, Bool.not_eq_true']
    by_contra used
    have chunk : IsChunk s.heap (s.heap.node bounds steps) :=
      ⟨bounds, listed, steps - 1, by rw [Nat.sub_add_cancel positive], tiled.inside steps inside⟩
    have held := (owned'.owned _).mpr ⟨_, (owned'.inv.marked_iff true _).mpr
      ⟨chunk, by simpa using used⟩, rfl⟩
    rw [unheld] at held
    cases held
  refine ⟨nodes, ?_, tiled, free⟩
  -- A third node would be a second chunk next to the first one.
  by_contra more
  have apart := owned'.inv.no_adjacent_free tidy' bounds listed 1 (tiled.inside 2 (by omega))
  exact apart ⟨free 1 (by omega) (by omega), free 2 (by omega) (by omega)⟩

/-- A chunk has to move while another task frees its neighbour; then the moved chunk is freed. -/
def movedRun : List (Nat × Action) :=
  [(0, .malloc 24), (1, .malloc 24), (0, .realloc 4112 200), (1, .free 4144), (0, .resume),
    (0, .resume), (0, .free 4144)]

theorem tasks_return_whole_moved :
    ∃ h₀, boot .standard blank (4096, 1024) [] = some h₀ ∧
      ∃ s, Run.run (System.step .standard) ⟨h₀, [], [.idle, .idle]⟩ movedRun = some s ∧
        Whole .standard s.heap := by
  obtain ⟨h₀, booted, whole⟩ := tasks_return_whole .standard blank (4096, 1024) [] 2
    ⟨by decide +kernel, by decide +kernel⟩
  have checked : ∀ h ∈ boot .standard blank (4096, 1024) [],
      Run.Admitted (System.step .standard) (fun s action => Permitted .standard s action ∧
        Calm .standard s action) ⟨h, [], [.idle, .idle]⟩ movedRun ∧
      ∀ s ∈ Run.run (System.step .standard) ⟨h, [], [.idle, .idle]⟩ movedRun,
        s.live ++ holdings s.tasks = [] := by
    decide +kernel
  obtain ⟨admitted, unheld⟩ := checked h₀ booted
  obtain ⟨s, performed, free⟩ := whole _ admitted
  exact ⟨h₀, booted, s, performed, free (unheld s performed)⟩

end Chewie.Mm
