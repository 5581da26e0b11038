import Chewie.Fs.Fat.Model
import Chewie.Lib.Chains
import Chewie.Lib.Holders

/-!
# Allocation of clusters

What `fat_extendchain` and `fat_removechain` do to the cluster table. A chain takes free clusters
only, and the clusters of a chain and the free ones together stay the same number.
-/

namespace Chewie.Fs.Fat

open Chains Function List Volume

section Marks

variable (mnt : Mount)

/-- The end-of-chain marks. -/
def Mount.IsEnd (value : Nat) : Prop :=
  2 ^ mnt.type.bits - 8 ≤ value ∧ value < 2 ^ mnt.type.bits

/-- The file that begins at `start` has these clusters. -/
abbrev Chain (fs : Volume) (start : Nat) (cells : List Nat) : Prop :=
  Owns mnt.IsCluster mnt.IsEnd 0 fs.fat start cells

/-- No cluster is free. -/
def Full (fs : Volume) : Prop := ∀ cluster, mnt.IsCluster cluster → fs.fat cluster ≠ 0

variable {mnt}

theorem Mount.IsEnd.ge {value : Nat} (mark : mnt.IsEnd value) : mnt.nclusters ≤ value := by
  have bound := mnt.nclusters_le
  have low := mark.1
  omega

theorem Mount.IsEnd.not_cluster {value : Nat} (mark : mnt.IsEnd value) : ¬ mnt.IsCluster value :=
  fun inside => absurd inside.2 (Nat.not_lt.mpr mark.ge)

theorem Mount.zero_not_cluster (mnt : Mount) : ¬ mnt.IsCluster 0 := fun inside => by
  have low := inside.1
  omega

theorem Mount.zero_not_end (mnt : Mount) : ¬ mnt.IsEnd 0 := fun mark => by
  have positive := mnt.two_lt_nclusters
  have low := mark.ge
  omega

theorem Mount.IsCluster.fits {cluster : Nat} (inside : mnt.IsCluster cluster) :
    cluster % 2 ^ mnt.type.bits = cluster := by
  have bound := mnt.nclusters_le
  have upper := inside.2
  exact Nat.mod_eq_of_lt (by omega)

theorem Mount.newMark (mnt : Mount) : mnt.IsEnd (0x0fffffff % 2 ^ mnt.type.bits) := by
  unfold Mount.IsEnd
  cases mnt.type <;> decide

end Marks

section Entries

variable {mnt : Mount} {fs : Volume} {cluster : Nat}

theorem fatGetcluster_of_cluster (inside : mnt.IsCluster cluster) :
    fatGetcluster mnt fs cluster = fs.fat cluster :=
  if_pos inside

theorem fatPutcluster_of_cluster (inside : mnt.IsCluster cluster) (value : Nat) :
    fatPutcluster mnt fs cluster value =
      (0, { fs with fat := update fs.fat cluster (value % 2 ^ mnt.type.bits) }) :=
  if_pos (.inr inside)

end Entries

section Search

variable {mnt : Mount} {fs : Volume} {start : Nat}

/-- The outcome of the search, when these clusters are left to be examined. -/
def Searched (mnt : Mount) (fs : Volume) (left : Nat → Prop) (found : Int) : Prop :=
  (found = 0 ∧ ∀ cluster, left cluster → fs.fat cluster ≠ 0) ∨
    ∃ new : Nat, found = new ∧ mnt.IsCluster new ∧ fs.fat new = 0

theorem Searched.skip {left rest : Nat → Prop} {found : Int} {cluster : Nat}
    (searched : Searched mnt fs rest found) (used : fs.fat cluster ≠ 0)
    (covers : ∀ other, left other → other = cluster ∨ rest other) : Searched mnt fs left found := by
  rcases searched with ⟨absent, all⟩ | nonempty
  · refine .inl ⟨absent, fun other mem => ?_⟩
    rcases covers other mem with same | later
    · rw [same]
      exact used
    · exact all other later
  · exact .inr nonempty

/-- The search goes from cluster to cluster, around the end of the table, until it is back at the
cluster that it began behind. -/
theorem searchLoop_left (fs : Volume) (first : 1 ≤ start) (inside : start < mnt.nclusters)
    (fuel cluster : Nat) (lower : 1 ≤ cluster) (upper : cluster < mnt.nclusters)
    (above : start ≤ cluster → mnt.nclusters - cluster + start ≤ fuel)
    (below : cluster < start → start - cluster ≤ fuel) :
    ∃ found, searchLoop mnt fs start fuel cluster = some found ∧
      Searched mnt fs (fun other => mnt.IsCluster other ∧
        (start ≤ cluster ∧ (cluster < other ∨ other ≤ start) ∨ cluster < other ∧ other ≤ start))
        found := by
  induction fuel generalizing cluster with
  | zero => omega
  | succ fuel ih =>
    rw [searchLoop]
    by_cases ends : mnt.nclusters ≤ cluster + 1 ∧ start < 2
    · rw [if_pos ends]
      refine ⟨0, rfl, .inl ⟨rfl, fun other mem => ?_⟩⟩
      have low := mem.1.1
      have high := mem.1.2
      omega
    obtain ⟨next, moves⟩ : ∃ next, next = if mnt.nclusters ≤ cluster + 1 then 2 else cluster + 1 :=
      ⟨_, rfl⟩
    have place : mnt.nclusters ≤ cluster + 1 ∧ next = 2 ∨
        cluster + 1 < mnt.nclusters ∧ next = cluster + 1 := by
      rw [moves]
      split <;> omega
    have valid : mnt.IsCluster next := ⟨by omega, by omega⟩
    simp only [if_neg ends, ← moves, fatGetcluster_of_cluster valid]
    by_cases free : fs.fat next = 0
    · rw [free]
      exact ⟨_, rfl, .inr ⟨next, rfl, valid, free⟩⟩
    rw [if_neg (by omega)]
    by_cases last : next = start
    · rw [if_pos last]
      refine ⟨0, rfl, .inl ⟨rfl, fun other mem => ?_⟩⟩
      have low := mem.1.1
      have high := mem.1.2
      rw [show other = next by omega]
      exact free
    rw [if_neg last]
    obtain ⟨found, result, searched⟩ := ih next (by omega) valid.2 (by omega) (by omega)
    refine ⟨found, result, searched.skip free fun other mem => ?_⟩
    have low := mem.1.1
    have high := mem.1.2
    by_cases here : other = next
    · exact .inl here
    · exact .inr ⟨mem.1, by omega⟩

theorem searchLoop_spec (fs : Volume) (first : 1 ≤ start) (inside : start < mnt.nclusters) :
    ∃ found, searchLoop mnt fs start (mnt.nclusters + 1) start = some found ∧
      Searched mnt fs mnt.IsCluster found := by
  obtain ⟨found, result, searched⟩ :=
    searchLoop_left fs first inside (mnt.nclusters + 1) start first inside (by omega)
      (by omega)
  refine ⟨found, result, ?_⟩
  rcases searched with ⟨absent, all⟩ | nonempty
  · exact .inl ⟨absent, fun other valid => all other ⟨valid, by omega⟩⟩
  · exact .inr nonempty

end Search

section Growth

variable {mnt : Mount} {fs : Volume} {start cluster new index : Nat} {cells : List Nat}

/-- The volume once a free cluster has become a chain of its own. -/
def Volume.taken (mnt : Mount) (fs : Volume) (new : Nat) : Volume :=
  { fs with
    fat := update fs.fat new (0x0fffffff % 2 ^ mnt.type.bits)
    fsinextfree := new }

/-- The volume once a free cluster has been added behind another one. -/
def Volume.joined (mnt : Mount) (fs : Volume) (cluster new : Nat) : Volume :=
  { fs with
    fat := update (update fs.fat new (0x0fffffff % 2 ^ mnt.type.bits)) cluster new
    fsinextfree := new }

theorem fatCreatechain_spec (mnt : Mount) (fs : Volume) :
    (Full mnt fs ∧ fatCreatechain mnt fs = some (0, fs)) ∨
      ∃ new : Nat, mnt.IsCluster new ∧ fs.fat new = 0 ∧
        fatCreatechain mnt fs = some ((new : Int), fs.taken mnt new) := by
  have two := mnt.two_lt_nclusters
  have first : ∃ begin, searchStart mnt fs 0 = .ok begin ∧ 1 ≤ begin ∧ begin < mnt.nclusters := by
    unfold searchStart
    rw [if_pos rfl]
    by_cases bad : fs.fsinextfree = 0 ∨ mnt.nclusters ≤ fs.fsinextfree
    · exact ⟨1, by rw [if_pos bad], by omega, by omega⟩
    · exact ⟨fs.fsinextfree, by rw [if_neg bad], by omega, by omega⟩
  obtain ⟨begin, started, low, high⟩ := first
  obtain ⟨found, result, searched⟩ := searchLoop_spec fs low high
  simp only [fatCreatechain, fatExtendchain, started, result, Option.map_some]
  rcases searched with ⟨absent, all⟩ | ⟨new, rfl, valid, free⟩
  · rw [absent]
    exact .inl ⟨all, rfl⟩
  · refine .inr ⟨new, valid, free, ?_⟩
    have positive := valid.1
    rw [if_neg (by omega)]
    simp [linkNew, fatPutcluster_of_cluster valid, taken]

theorem fatExtendchain_inside (inside : mnt.IsCluster cluster)
    (later : mnt.IsCluster (fs.fat cluster)) :
    fatExtendchain mnt fs cluster = some ((fs.fat cluster : Int), fs) := by
  have low := later.1
  have high := later.2
  have positive := inside.1
  have started : searchStart mnt fs cluster = .error (fs.fat cluster : Int) := by
    unfold searchStart
    rw [if_neg (by omega), fatGetcluster_of_cluster inside]
    rw [if_neg (by omega), if_neg (by omega), if_pos (by omega)]
  simp only [fatExtendchain, started]

theorem fatExtendchain_last (inside : mnt.IsCluster cluster) (mark : mnt.IsEnd (fs.fat cluster)) :
    (Full mnt fs ∧ fatExtendchain mnt fs cluster = some (0, fs)) ∨
      ∃ new : Nat, mnt.IsCluster new ∧ fs.fat new = 0 ∧
        fatExtendchain mnt fs cluster = some ((new : Int), fs.joined mnt cluster new) := by
  have positive : 1 ≤ cluster := Nat.le_of_succ_le inside.1
  have behind := mark.ge
  have two := mnt.two_lt_nclusters
  have started : searchStart mnt fs cluster = .ok cluster := by
    unfold searchStart
    rw [if_neg (by omega), fatGetcluster_of_cluster inside]
    rw [if_neg (by omega), if_neg (by omega), if_neg (by omega)]
  obtain ⟨found, result, searched⟩ := searchLoop_spec fs positive inside.2
  simp only [fatExtendchain, started, result, Option.map_some]
  rcases searched with ⟨absent, all⟩ | ⟨new, rfl, valid, free⟩
  · rw [absent]
    exact .inl ⟨all, rfl⟩
  · refine .inr ⟨new, valid, free, ?_⟩
    have low := valid.1
    rw [if_neg (by omega)]
    simp [linkNew, fatPutcluster_of_cluster valid, fatPutcluster_of_cluster inside, valid.fits,
      joined, show cluster ≠ 0 by omega]

end Growth

section Room

variable {mnt : Mount} {fs fs' fs'' : Volume} {start cluster new index : Nat}
variable {cells cells' cells'' : List Nat}

/-- The cluster, when it is free. -/
def Volume.freeAt (fs : Volume) (cluster : Nat) : Option Nat :=
  if 2 ≤ cluster ∧ fs.fat cluster = 0 then some cluster else none

def freeClusters (mnt : Mount) (fs : Volume) : List Nat :=
  Holders.held mnt.nclusters fs.freeAt

/-- A sector of one of the clusters. -/
def InClusters (mnt : Mount) (cells : List Nat) (sector : Int) : Prop :=
  ∃ cluster ∈ cells, fatCluster2sector mnt cluster ≤ sector ∧
    sector < fatCluster2sector mnt cluster + mnt.fatsecperclus

theorem Full.freeClusters_eq (full : Full mnt fs) : freeClusters mnt fs = [] := by
  simp only [freeClusters, Holders.held, filterMap_eq_nil_iff, mem_range]
  intro cluster upper
  refine if_neg fun free => ?_
  exact full cluster ⟨free.1, upper⟩ free.2

theorem freeClusters_taken (inside : mnt.IsCluster new) (free : fs.fat new = 0)
    (used : fs'.fat new ≠ 0)
    (others : ∀ other, other ≠ new → (fs'.fat other = 0 ↔ fs.fat other = 0)) :
    (freeClusters mnt fs).length = (freeClusters mnt fs').length + 1 := by
  have changed : fs'.freeAt = update fs.freeAt new none := by
    funext other
    by_cases same : other = new
    · rw [same, update_self]
      exact if_neg fun both => used both.2
    · rw [update_of_ne same]
      simp only [freeAt, others other same]
  have here : fs.freeAt new = some new := if_pos ⟨inside.1, free⟩
  have given := (Holders.held_give inside.2 here).length_eq
  rw [← changed] at given
  exact given

/-- What an operation on a file may do to the volume: the chain takes free clusters, and only
sectors of the chain are written. -/
structure Grows (mnt : Mount) (fs fs' : Volume) (cells cells' : List Nat) : Prop where
  links : Grown 0 fs.fat fs'.fat cells cells'
  room : cells'.length + (freeClusters mnt fs').length =
    cells.length + (freeClusters mnt fs).length
  data : ∀ sector, ¬ InClusters mnt cells' sector → fs'.disk sector = fs.disk sector

theorem Grows.refl (mnt : Mount) (fs : Volume) (cells : List Nat) : Grows mnt fs fs cells cells :=
  ⟨Grown.refl 0 fs.fat cells, rfl, fun _ _ => rfl⟩

theorem InClusters.mono {sector : Int} (inside : InClusters mnt cells sector)
    (longer : cells <+: cells') : InClusters mnt cells' sector := by
  obtain ⟨cluster, mem, bounds⟩ := inside
  exact ⟨cluster, longer.subset mem, bounds⟩

theorem Grows.trans (one : Grows mnt fs fs' cells cells')
    (two : Grows mnt fs' fs'' cells' cells'') :
    Grows mnt fs fs'' cells cells'' where
  links := one.links.trans two.links
  room := two.room.trans one.room
  data sector outside := by
    rw [two.data sector outside]
    exact one.data sector fun inside => outside (inside.mono two.links.stays)

theorem createchain_grows (mnt : Mount) (fs : Volume) :
    (Full mnt fs ∧ fatCreatechain mnt fs = some (0, fs)) ∨
      ∃ (new : Nat) (fs' : Volume), fatCreatechain mnt fs = some ((new : Int), fs') ∧
        Chain mnt fs' new [new] ∧ Grows mnt fs fs' [] [new] ∧ fs'.disk = fs.disk := by
  rcases fatCreatechain_spec mnt fs with full | ⟨new, inside, free, result⟩
  · exact .inl full
  have mark := mnt.newMark
  have entry : (fs.taken mnt new).fat new = 0x0fffffff % 2 ^ mnt.type.bits := update_self ..
  have used : (fs.taken mnt new).fat new ≠ 0 := fun zero => by
    rw [entry] at zero
    exact mnt.zero_not_end (zero ▸ mark)
  have others : ∀ other, other ≠ new → (fs.taken mnt new).fat other = fs.fat other :=
    fun other differ => update_of_ne differ ..
  refine .inr ⟨new, fs.taken mnt new, result, owns_single inside (entry ▸ mark), ⟨?_, ?_, ?_⟩, rfl⟩
  · refine ⟨ nil_prefix, fun cell mem => .inr ?_, fun cell outside => others cell ?_⟩
    · rw [mem_singleton.mp mem]
      exact free
    · exact fun same => outside (same ▸ mem_singleton_self new)
  · have count := freeClusters_taken inside free used fun other differ => by
      rw [others other differ]
    rw [length_singleton, length_nil]
    omega
  · exact fun _ _ => rfl

theorem Chain.fat_ne_zero (chain : Chain mnt fs start cells) (mem : cluster ∈ cells) :
    fs.fat cluster ≠ 0 :=
  fun free => chain.not_mem_of_free mnt.zero_not_cluster mnt.zero_not_end free mem

theorem Chain.eq_nil (chain : Chain mnt fs 0 cells) : cells = [] := by
  by_contra nonempty
  have mem := mem_of_getElem? (chain.head nonempty)
  exact mnt.zero_not_cluster (chain.valid 0 mem)

/-- A cluster is added behind the last one. -/
theorem joined_grows {front : List Nat} (chain : Chain mnt fs start (front ++ [cluster]))
    (inside : mnt.IsCluster new) (free : fs.fat new = 0) :
    Chain mnt (fs.joined mnt cluster new) start (front ++ [cluster] ++ [new]) ∧
      Grows mnt fs (fs.joined mnt cluster new) (front ++ [cluster])
        (front ++ [cluster] ++ [new]) := by
  have mark := mnt.newMark
  have fresh : new ∉ front ++ [cluster] := fun mem => chain.fat_ne_zero mem free
  have apart : new ≠ cluster := fun same => fresh (by simp [same])
  have entry : (fs.joined mnt cluster new).fat new = 0x0fffffff % 2 ^ mnt.type.bits := by
    simp only [joined]
    rw [update_of_ne apart, update_self]
  have others : ∀ other, other ≠ new → other ≠ cluster →
      (fs.joined mnt cluster new).fat other = fs.fat other := by
    intro other notNew notLast
    simp only [joined]
    rw [update_of_ne notLast, update_of_ne notNew]
  have last : (fs.joined mnt cluster new).fat cluster = new := update_self ..
  have positive := inside.1
  refine ⟨chain.extend inside mark fresh, ⟨⟨prefix_append .., ?_, ?_⟩, ?_, fun _ _ => rfl⟩⟩
  · intro cell mem
    rcases mem_append.mp mem with old | added
    · exact .inl old
    · rw [mem_singleton.mp added]
      exact .inr free
  · intro cell outside
    refine others cell (fun same => outside ?_) (fun same => outside ?_)
    · simp [same]
    · simp [same]
  · have used : (fs.joined mnt cluster new).fat new ≠ 0 := fun zero => by
      rw [entry] at zero
      exact mnt.zero_not_end (zero ▸ mark)
    have count := freeClusters_taken inside free used fun other differ => by
      by_cases same : other = cluster
      · rw [same]
        have before := chain.fat_ne_zero (mem_append_right front (mem_singleton_self cluster))
        omega
      · rw [others other differ same]
    rw [length_append, length_singleton]
    omega

/-- The cluster behind one of a chain, which may be added, unless the volume is full. -/
theorem extendchain_grows (chain : Chain mnt fs start cells)
    (found : cells[index]? = some cluster) :
    (Full mnt fs ∧ cells[index + 1]? = none ∧ fatExtendchain mnt fs cluster = some (0, fs)) ∨
      ∃ (next : Nat) (fs' : Volume) (cells' : List Nat),
        fatExtendchain mnt fs cluster = some ((next : Int), fs') ∧
          Chain mnt fs' start cells' ∧ Grows mnt fs fs' cells cells' ∧ fs'.disk = fs.disk ∧
          cells'[index + 1]? = some next ∧ cells'.length ≤ cells.length + 1 := by
  have inside := chain.valid cluster (mem_of_getElem? found)
  cases behind : cells[index + 1]? with
  | some next =>
    have link := chain.next_eq found behind
    have later := chain.valid next (mem_of_getElem? behind)
    refine .inr ⟨next, fs, cells, ?_, chain, Grows.refl mnt fs cells, rfl, behind,
      Nat.le_succ cells.length⟩
    rw [← link] at later ⊢
    exact fatExtendchain_inside inside later
  | none =>
    have mark := chain.next_stop found behind
    rcases fatExtendchain_last inside mark with ⟨full, result⟩ | ⟨new, valid, free, result⟩
    · exact .inl ⟨full, rfl, result⟩
    have length : cells.length = index + 1 := by
      have upper := List.getElem?_eq_none_iff.mp behind
      have lower := (List.getElem?_eq_some_iff.mp found).1
      omega
    have split : cells = cells.take index ++ [cluster] := by
      conv_lhs => rw [← take_append_drop index cells]
      rw [drop_eq_getElem_cons (by omega), drop_of_length_le (by omega)]
      rw [(List.getElem?_eq_some_iff.mp found).2]
    rw [split] at chain
    obtain ⟨longer, grows⟩ := joined_grows chain valid free
    refine .inr ⟨new, fs.joined mnt cluster new, cells ++ [new], result, ?_, ?_, rfl, ?_,
      Nat.le_of_eq length_append⟩
    · rw [← split] at longer
      exact longer
    · rw [← split] at grows
      exact grows
    · rw [← length, getElem?_concat_length]

end Room

section Removal

variable {mnt : Mount} {fs : Volume} {start : Nat} {cells : List Nat}

/-- The volume without the clusters of a chain. -/
def Volume.erased (fs : Volume) (cells : List Nat) : Volume :=
  { fs with fat := fun cluster => if cluster ∈ cells then 0 else fs.fat cluster }

/-- The loop of `fat_removechain` frees the clusters of a path. -/
theorem removechainLoop_path {last : Nat} (mark : mnt.IsEnd last)
    (path : Path fs.fat start cells last) (inside : ∀ cell ∈ cells, mnt.IsCluster cell)
    (distinct : cells.Nodup) {fuel : Nat} (enough : cells.length < fuel) :
    removechainLoop mnt fuel fs start = some (0, fs.erased cells) := by
  induction cells generalizing fs start fuel with
  | nil =>
    obtain ⟨fuel, rfl⟩ := Nat.exists_eq_add_one_of_ne_zero (Nat.ne_of_gt enough)
    rw [show start = last from path, removechainLoop, if_neg mark.not_cluster]
    simp [erased]
  | cons cell rest ih =>
    obtain ⟨fuel, rfl⟩ := Nat.exists_eq_add_one_of_ne_zero (Nat.ne_of_gt (Nat.zero_lt_of_lt enough))
    have valid := inside cell mem_cons_self
    have fresh : cell ∉ rest := (nodup_cons.mp distinct).1
    have later : Path (update fs.fat cell 0) (fs.fat cell) rest last := by
      refine path_congr path.2 fun other mem => update_of_ne ?_ _ _
      exact fun same => fresh (same ▸ mem)
    rw [show start = cell from path.1, removechainLoop, if_pos valid,
      fatGetcluster_of_cluster valid, fatPutcluster_of_cluster valid]
    simp only []
    rw [if_neg (by omega), if_neg (by omega)]
    rw [ih later (fun other mem => inside other (mem_cons_of_mem cell mem))
      (nodup_cons.mp distinct).2 (by rw [length_cons] at enough; omega)]
    simp only [erased, Option.some.injEq, Prod.mk.injEq, mk.injEq, true_and, and_true]
    funext other
    by_cases same : other = cell
    · simp [same]
    · simp [same]

theorem Chain.length_le (chain : Chain mnt fs start cells) : cells.length ≤ mnt.nclusters := by
  have subset : cells ⊆ range mnt.nclusters := fun cell mem =>
    mem_range.mpr (chain.valid cell mem).2
  have bound := (chain.distinct.subperm subset).length_le
  rwa [length_range] at bound

theorem fatRemovechain_chain (chain : Chain mnt fs start cells) :
    fatRemovechain mnt fs start = some (0, fs.erased cells) := by
  unfold fatRemovechain
  by_cases absent : cells = []
  · rw [chain.empty absent, absent, removechainLoop, if_neg mnt.zero_not_cluster]
    simp [erased]
  · obtain ⟨last, mark, path⟩ := chain.linked absent
    exact removechainLoop_path mark path chain.valid chain.distinct
      (Nat.lt_succ_of_le chain.length_le)

/-- The clusters that are found by following the table. -/
def follow (mnt : Mount) (fs : Volume) : Nat → Nat → List Nat
  | 0, _ => []
  | fuel + 1, cluster =>
    if mnt.IsCluster cluster then cluster :: follow mnt fs fuel (fs.fat cluster) else []

/-- The clusters of the file that begins at `start`. -/
def clustersOf (mnt : Mount) (fs : Volume) (start : Nat) : List Nat :=
  follow mnt fs mnt.nclusters start

theorem follow_path {last : Nat} (mark : mnt.IsEnd last) (path : Path fs.fat start cells last)
    (inside : ∀ cell ∈ cells, mnt.IsCluster cell) {fuel : Nat} (enough : cells.length ≤ fuel) :
    follow mnt fs fuel start = cells := by
  induction cells generalizing start fuel with
  | nil =>
    rw [show start = last from path]
    cases fuel with
    | zero => rfl
    | succ fuel => exact if_neg mark.not_cluster
  | cons cell rest ih =>
    cases fuel with
    | zero => cases enough
    | succ fuel =>
      rw [show start = cell from path.1, follow, if_pos (inside cell mem_cons_self),
        ih path.2 (fun other mem => inside other (mem_cons_of_mem cell mem))
          (Nat.le_of_succ_le_succ enough)]

theorem Chain.clustersOf_eq (chain : Chain mnt fs start cells) :
    clustersOf mnt fs start = cells := by
  unfold clustersOf
  by_cases absent : cells = []
  · rw [chain.empty absent, absent]
    cases mnt.nclusters with
    | zero => rfl
    | succ fuel => exact if_neg mnt.zero_not_cluster
  · obtain ⟨last, mark, path⟩ := chain.linked absent
    exact follow_path mark path chain.valid chain.length_le

end Removal

end Chewie.Fs.Fat
