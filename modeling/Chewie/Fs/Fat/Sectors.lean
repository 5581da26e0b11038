import Chewie.Fs.Fat.Alloc

/-!
# The current sector and the sector buffer

A file keeps its place as a cluster, a sector of it and the number of sectors left in it. `At` says
that the three belong together, and which sector of the file they stand for. `Sound` says that what
waits in the buffer belongs to the file. Writing to such a file takes free clusters and changes the
sectors of the file only.
-/

namespace Chewie.Fs.Fat

open Chains List

section Place

variable {mnt : Mount} {ff ff' : File} {cells cells' : List Nat} {index place : Nat}

/-- The current cluster is the one at `index`, and the current sector is number `place` of the
file. Behind the last sector of a cluster none is left in it. -/
structure At (mnt : Mount) (ff : File) (cells : List Nat) (index place : Nat) : Prop where
  found : cells[index]? = some ff.currentcluster
  left : ff.sectorsincluster ≤ mnt.fatsecperclus
  sector : ff.currentsector + ff.sectorsincluster =
    fatCluster2sector mnt ff.currentcluster + mnt.fatsecperclus
  place_eq : index * mnt.fatsecperclus + mnt.fatsecperclus = place + ff.sectorsincluster

theorem At.congr (here : At mnt ff cells index place)
    (cluster : ff'.currentcluster = ff.currentcluster)
    (left : ff'.sectorsincluster = ff.sectorsincluster)
    (sector : ff'.currentsector = ff.currentsector) : At mnt ff' cells index place := by
  constructor
  · rw [cluster]
    exact here.found
  · rw [left]
    exact here.left
  · rw [cluster, left, sector]
    exact here.sector
  · rw [left]
    exact here.place_eq

theorem At.mono (here : At mnt ff cells index place) (longer : cells <+: cells') :
    At mnt ff cells' index place := by
  refine ⟨?_, here.left, here.sector, here.place_eq⟩
  obtain ⟨more, rfl⟩ := longer
  have inside := (List.getElem?_eq_some_iff.mp here.found).1
  rw [List.getElem?_append_left inside]
  exact here.found

theorem At.advance (here : At mnt ff cells index place) {nsectors : Nat}
    (fits : nsectors ≤ ff.sectorsincluster) :
    At mnt (ff.advance nsectors) cells index (place + nsectors) := by
  have left := here.left
  have sector := here.sector
  have number := here.place_eq
  refine ⟨here.found, ?_, ?_, ?_⟩ <;> simp only [File.advance] <;> omega

theorem at_enter (mnt : Mount) (ff : File) {cluster : Nat} (found : cells[index]? = some cluster) :
    At mnt (ff.enter mnt cluster) cells index (index * mnt.fatsecperclus) :=
  ⟨found, Nat.le_refl _, rfl, rfl⟩

theorem cluster2sector_pos {cluster : Nat} (inside : mnt.IsCluster cluster) :
    0 < fatCluster2sector mnt cluster := by
  have positive := mnt.database_pos
  unfold fatCluster2sector
  rw [if_pos inside]
  omega

theorem At.inside (here : At mnt ff cells index place) {offset : Nat}
    (below : offset < ff.sectorsincluster) : InClusters mnt cells (ff.currentsector + offset) := by
  have left := here.left
  have sector := here.sector
  exact ⟨ff.currentcluster, mem_of_getElem? here.found, by omega, by omega⟩

theorem At.sector_pos {fs : Volume} {start : Nat} (here : At mnt ff cells index place)
    (chain : Chain mnt fs start cells) : 0 < ff.currentsector := by
  have positive := cluster2sector_pos (chain.valid _ (mem_of_getElem? here.found))
  have left := here.left
  have sector := here.sector
  omega

end Place

section Buffer

variable {mnt : Mount} {file : Opened} {cells : List Nat}

/-- The file has these clusters, and what waits in its buffer belongs to one of them. -/
structure Sound (mnt : Mount) (file : Opened) (cells : List Nat) : Prop where
  chain : Chain mnt file.fs file.ff.startcluster cells
  waiting : file.ff.dirty = true → file.ff.valid = true ∧ InClusters mnt cells file.ff.cachesector

theorem InClusters.pos {fs : Volume} {start : Nat} {sector : Int}
    (inside : InClusters mnt cells sector) (chain : Chain mnt fs start cells) : 0 < sector := by
  obtain ⟨cluster, mem, low, _⟩ := inside
  have positive := cluster2sector_pos (chain.valid cluster mem)
  omega

/-- The volume once the buffer has been written. -/
def Opened.settled (file : Opened) : Volume :=
  if file.ff.dirty then hwwrite file.fs file.ff.cachesector file.ff.buffer else file.fs

@[simp] theorem settled_fat (file : Opened) : file.settled.fat = file.fs.fat := by
  unfold Opened.settled
  split <;> rfl

theorem Sound.settled_grows (sound : Sound mnt file cells) :
    Grows mnt file.fs file.settled cells cells := by
  refine ⟨?_, ?_, fun sector outside => ?_⟩
  · rw [settled_fat]
    exact Grown.refl 0 _ cells
  · have same : file.settled.freeAt = file.fs.freeAt := by
      funext cluster
      simp only [Volume.freeAt, settled_fat]
    simp only [freeClusters, same]
  · unfold Opened.settled
    by_cases dirty : file.ff.dirty = true
    · rw [if_pos dirty]
      refine Function.update_of_ne (fun same => outside ?_) _ _
      rw [same]
      exact (sound.waiting dirty).2
    · rw [if_neg dirty]

theorem Sound.settled_chain (sound : Sound mnt file cells) :
    Chain mnt file.settled file.ff.startcluster cells :=
  sound.chain.congr fun cluster _ => by rw [settled_fat]

theorem clean_eq {ff : File} (clean : ¬ ff.dirty = true) : { ff with dirty := false } = ff := by
  cases ff
  simp only [Bool.not_eq_true] at clean
  simp only [clean]

theorem fatFfcacheflush_eq (sound : Sound mnt file cells) :
    fatFfcacheflush file = { fs := file.settled, ff := { file.ff with dirty := false } } := by
  unfold fatFfcacheflush Opened.settled
  by_cases dirty : file.ff.dirty = true
  · obtain ⟨valid, inside⟩ := sound.waiting dirty
    have known := inside.pos sound.chain
    rw [if_pos ⟨by omega, dirty, valid⟩, if_pos dirty]
  · rw [if_neg fun all => dirty all.2.1, if_neg dirty, clean_eq dirty]

theorem fatFfcacheread_eq (sound : Sound mnt file cells) (sector : Int) :
    fatFfcacheread file sector =
      if file.ff.cachesector = sector ∧ file.ff.valid = true then file
      else
        { fs := file.settled
          ff := { file.ff with
            dirty := false
            buffer := file.settled.disk sector
            cachesector := sector
            valid := true } } := by
  unfold fatFfcacheread
  by_cases held : file.ff.cachesector = sector ∧ file.ff.valid = true
  · rw [if_pos held, if_neg (by simp [held.1, held.2])]
  have load : file.ff.cachesector ≠ sector ∨ (!file.ff.valid) = true := by
    by_cases same : file.ff.cachesector = sector
    · right
      simpa [same] using held
    · exact .inl same
  rw [if_neg held, if_pos load, fatFfcacheflush_eq sound]

theorem fatFfcacheinvalidate_eq (sound : Sound mnt file cells) :
    fatFfcacheinvalidate file =
      { fs := file.settled
        ff := { file.ff with
          dirty := false
          valid := false
          cachesector := if file.ff.valid then 0 else file.ff.cachesector } } := by
  unfold fatFfcacheinvalidate
  by_cases valid : file.ff.valid = true
  · rw [fatFfcacheflush_eq sound]
    simp only [valid, if_true]
  have clean : ¬ file.ff.dirty = true := fun dirty => valid (sound.waiting dirty).1
  obtain ⟨fs, ff⟩ := file
  cases ff
  simp_all [Opened.settled]

end Buffer

section Kept

variable {mnt : Mount} {file file' file'' : Opened} {cells cells' cells'' : List Nat}

/-- What an operation keeps, and what it may change. -/
structure Keeps (mnt : Mount) (file file' : Opened) (cells cells' : List Nat) : Prop where
  sound : Sound mnt file' cells'
  grows : Grows mnt file.fs file'.fs cells cells'
  wrok : file'.ff.wrok = file.ff.wrok

theorem Keeps.refl (sound : Sound mnt file cells) : Keeps mnt file file cells cells :=
  ⟨sound, Grows.refl mnt file.fs cells, rfl⟩

theorem Keeps.trans (one : Keeps mnt file file' cells cells')
    (two : Keeps mnt file' file'' cells' cells'') : Keeps mnt file file'' cells cells'' :=
  ⟨two.sound, one.grows.trans two.grows, two.wrok.trans one.wrok⟩

theorem keeps_fields {ff : File} (sound : Sound mnt file cells)
    (start : ff.startcluster = file.ff.startcluster) (dirty : ff.dirty = file.ff.dirty)
    (valid : ff.valid = file.ff.valid) (cached : ff.cachesector = file.ff.cachesector)
    (wrok : ff.wrok = file.ff.wrok) : Keeps mnt file { file with ff := ff } cells cells := by
  refine ⟨⟨?_, ?_⟩, Grows.refl mnt file.fs cells, wrok⟩
  · rw [start]
    exact sound.chain
  · rw [dirty, valid, cached]
    exact sound.waiting

theorem keeps_settled {ff : File} (sound : Sound mnt file cells)
    (start : ff.startcluster = file.ff.startcluster)
    (waiting : ff.dirty = true → ff.valid = true ∧ InClusters mnt cells ff.cachesector)
    (wrok : ff.wrok = file.ff.wrok) :
    Keeps mnt file { fs := file.settled, ff := ff } cells cells := by
  refine ⟨⟨?_, waiting⟩, sound.settled_grows, wrok⟩
  rw [start]
  exact sound.settled_chain

theorem keeps_grown {fs : Volume} (ff : File) (sound : Sound mnt file cells)
    (chain : Chain mnt fs ff.startcluster cells') (grows : Grows mnt file.fs fs cells cells')
    (dirty : ff.dirty = file.ff.dirty) (valid : ff.valid = file.ff.valid)
    (cached : ff.cachesector = file.ff.cachesector) (wrok : ff.wrok = file.ff.wrok) :
    Keeps mnt file { fs := fs, ff := ff } cells cells' := by
  refine ⟨⟨chain, ?_⟩, grows, wrok⟩
  rw [dirty, valid, cached]
  intro waits
  obtain ⟨ok, inside⟩ := sound.waiting waits
  exact ⟨ok, inside.mono grows.links.stays⟩

theorem keeps_flush (sound : Sound mnt file cells) :
    Keeps mnt file (fatFfcacheflush file) cells cells := by
  rw [fatFfcacheflush_eq sound]
  exact keeps_settled sound rfl (fun dirty => by cases dirty) rfl

theorem keeps_cacheread (sound : Sound mnt file cells) (sector : Int) :
    Keeps mnt file (fatFfcacheread file sector) cells cells := by
  rw [fatFfcacheread_eq sound]
  split
  · exact Keeps.refl sound
  · exact keeps_settled sound rfl (fun dirty => by cases dirty) rfl

theorem keeps_invalidate (sound : Sound mnt file cells) :
    Keeps mnt file (fatFfcacheinvalidate file) cells cells := by
  rw [fatFfcacheinvalidate_eq sound]
  exact keeps_settled sound rfl (fun dirty => by cases dirty) rfl

end Kept

section Turns

variable {mnt : Mount} {file : Opened} {cells : List Nat} {index place : Nat}

theorem loaded_eq (sound : Sound mnt file cells) (replaced : Bool) :
    file.loaded replaced = file ∧ file.ff.cachesector = file.ff.currentsector ∨
      ∃ valid buffer, file.loaded replaced =
        { fs := file.settled
          ff := { file.ff with
            dirty := false
            buffer := buffer
            cachesector := file.ff.currentsector
            valid := valid } } := by
  unfold Opened.loaded
  cases replaced with
  | true =>
    rw [fatFfcacheflush_eq sound]
    exact .inr ⟨file.ff.valid, file.ff.buffer, rfl⟩
  | false =>
    rw [if_neg (by decide), fatFfcacheread_eq sound]
    split
    · exact .inl ⟨rfl, (And.left ‹_›)⟩
    · exact .inr ⟨true, _, rfl⟩

theorem loaded_keeps (sound : Sound mnt file cells) (here : At mnt file.ff cells index place)
    (replaced : Bool) :
    Keeps mnt file (file.loaded replaced) cells cells ∧
      At mnt (file.loaded replaced).ff cells index place ∧
      (file.loaded replaced).ff.cachesector = file.ff.currentsector ∧
      (file.loaded replaced).ff.sectorsincluster = file.ff.sectorsincluster := by
  rcases loaded_eq sound replaced with ⟨same, cached⟩ | ⟨valid, buffer, loaded⟩
  · rw [same]
    exact ⟨Keeps.refl sound, here, cached, rfl⟩
  · rw [loaded]
    exact ⟨keeps_settled sound rfl (fun dirty => by cases dirty) rfl, here.congr rfl rfl rfl, rfl,
      rfl⟩

section Store

variable (mnt : Mount) (ff : File) (sectorindex : Nat) (data : List UInt8)

@[simp] theorem store_startcluster :
    (ff.store mnt sectorindex data).startcluster = ff.startcluster := by
  unfold File.store
  split <;> rfl

@[simp] theorem store_cachesector :
    (ff.store mnt sectorindex data).cachesector = ff.cachesector := by
  unfold File.store
  split <;> rfl

@[simp] theorem store_wrok : (ff.store mnt sectorindex data).wrok = ff.wrok := by
  unfold File.store
  split <;> rfl

end Store

theorem At.store {ff : File} (here : At mnt ff cells index place) (nonempty : 1 ≤ ff.sectorsincluster)
    (sectorindex : Nat) (data : List UInt8) :
    At mnt (ff.store mnt sectorindex data) cells index
      (if sectorindex + data.length < mnt.hwsectorsize then place else place + 1) := by
  unfold File.store
  by_cases short : sectorindex + data.length < mnt.hwsectorsize
  · simp only [if_pos short]
    exact here.congr rfl rfl rfl
  · simp only [if_neg short]
    exact (here.advance nonempty).congr rfl rfl rfl

theorem storeSector_keeps (sound : Sound mnt file cells) (here : At mnt file.ff cells index place)
    (nonempty : 1 ≤ file.ff.sectorsincluster) (replaced : Bool) (sectorindex : Nat)
    (data : List UInt8) :
    Keeps mnt file (storeSector mnt file replaced sectorindex data) cells cells ∧
      At mnt (storeSector mnt file replaced sectorindex data).ff cells index
        (if sectorindex + data.length < mnt.hwsectorsize then place else place + 1) := by
  obtain ⟨keeps, there, cached, left⟩ := loaded_keeps sound here replaced
  have inside : InClusters mnt cells (file.loaded replaced).ff.cachesector := by
    have first := here.inside nonempty
    rwa [Int.natCast_zero, Int.add_zero, ← cached] at first
  refine ⟨keeps.trans ⟨⟨?_, fun _ => ⟨rfl, ?_⟩⟩, Grows.refl mnt _ cells, store_wrok ..⟩,
    there.store (left ▸ nonempty) sectorindex data⟩
  · change Chain mnt _ ((file.loaded replaced).ff.store mnt sectorindex data).startcluster cells
    rw [store_startcluster]
    exact keeps.sound.chain
  · change InClusters mnt cells ((file.loaded replaced).ff.store mnt sectorindex data).cachesector
    rw [store_cachesector]
    exact inside

theorem hwwriteAll_grows (here : At mnt file.ff cells index place) {nsectors : Nat}
    (fits : nsectors ≤ file.ff.sectorsincluster) (data : List UInt8) :
    Grows mnt file.fs (mnt.hwwriteAll file.fs file.ff.currentsector nsectors data) cells cells := by
  refine ⟨Grown.refl 0 _ cells, rfl, fun sector outside => ?_⟩
  funext offset
  refine if_neg fun written => outside ?_
  have inside := @At.inside mnt file.ff cells index place here
    (sector - file.ff.currentsector).toNat (by omega)
  rwa [show file.ff.currentsector + (sector - file.ff.currentsector).toNat = sector by omega]
    at inside

theorem sectorindex_lt (mnt : Mount) (position : Int) :
    mnt.sectorindex position < mnt.hwsectorsize := by
  have positive := mnt.sector_pos
  have bound := Int.emod_lt_of_pos position (Int.natCast_pos.mpr positive)
  unfold Mount.sectorindex
  omega

theorem direct_pos {position : Int} {buflen : Nat} (direct : mnt.direct position buflen = true) :
    1 ≤ buflen / mnt.hwsectorsize ∧ mnt.sectorindex position = 0 := by
  simp only [Mount.direct, decide_eq_true_eq] at direct
  exact ⟨direct.1, direct.2.1⟩

theorem writeTurn_pos (left : 1 ≤ file.ff.sectorsincluster) {data : List UInt8}
    (nonempty : data.length ≠ 0) :
    1 ≤ (writeTurn mnt file data).1 ∧ (writeTurn mnt file data).1 ≤ data.length := by
  unfold writeTurn
  by_cases direct : mnt.direct file.ff.pos data.length = true
  · rw [if_pos direct]
    have first := (direct_pos direct).1
    have one : 1 ≤ min (data.length / mnt.hwsectorsize) file.ff.sectorsincluster := by omega
    exact ⟨Nat.mul_pos one mnt.sector_pos,
      Nat.le_trans (Nat.mul_le_mul_right _ (Nat.min_le_left ..)) (Nat.div_mul_le_self ..)⟩
  · rw [if_neg direct]
    have small := sectorindex_lt mnt file.ff.pos
    simp only [writeCached]
    omega

section

variable (sound : Sound mnt file cells) (here : At mnt file.ff cells index place)

include sound here

theorem At.invalidate : At mnt (fatFfcacheinvalidate file).ff cells index place := by
  rw [fatFfcacheinvalidate_eq sound]
  exact here.congr rfl rfl rfl

theorem writeDirect_keeps (data : List UInt8) :
    Keeps mnt file (writeDirect mnt file data).2 cells cells ∧
      At mnt (writeDirect mnt file data).2.ff cells index
        (place + min (data.length / mnt.hwsectorsize) file.ff.sectorsincluster) := by
  have keeps := keeps_invalidate sound
  have there := here.invalidate sound
  have same : (fatFfcacheinvalidate file).ff.sectorsincluster = file.ff.sectorsincluster := by
    rw [fatFfcacheinvalidate_eq sound]
  have clean : (fatFfcacheinvalidate file).ff.dirty = false := by
    rw [fatFfcacheinvalidate_eq sound]
  have fits : min (data.length / mnt.hwsectorsize) file.ff.sectorsincluster ≤
      (fatFfcacheinvalidate file).ff.sectorsincluster := by
    rw [same]
    exact Nat.min_le_right ..
  simp only [writeDirect]
  refine ⟨keeps.trans ⟨⟨keeps.sound.chain, fun dirty => ?_⟩, hwwriteAll_grows there fits data, rfl⟩,
    (there.advance fits).congr rfl rfl rfl⟩
  change (fatFfcacheinvalidate file).ff.dirty = true at dirty
  rw [clean] at dirty
  cases dirty

theorem writeTurn_keeps (left : 1 ≤ file.ff.sectorsincluster) (data : List UInt8) :
    Keeps mnt file (writeTurn mnt file data).2 cells cells ∧
      ∃ place', At mnt (writeTurn mnt file data).2.ff cells index place' := by
  unfold writeTurn
  split
  · have written := writeDirect_keeps sound here data
    exact ⟨written.1, _, written.2⟩
  · have stored := storeSector_keeps sound here left (mnt.replaced file.ff data.length)
      (mnt.sectorindex file.ff.pos)
      (data.take (min (mnt.hwsectorsize - mnt.sectorindex file.ff.pos) data.length))
    exact ⟨stored.1.trans (keeps_fields stored.1.sound rfl rfl rfl rfl rfl), _,
      stored.2.congr rfl rfl rfl⟩

/-- Before each turn a sector is left in the current cluster, or the volume is full. -/
theorem writeCluster_keeps :
    (Full mnt file.fs ∧ file.ff.sectorsincluster = 0 ∧ cells[index + 1]? = none ∧
        writeCluster mnt file = some (-enospc, file)) ∨
      ∃ (file' : Opened) (cells' : List Nat) (index' : Nat),
        writeCluster mnt file = some (0, file') ∧ Keeps mnt file file' cells cells' ∧
          At mnt file'.ff cells' index' place ∧ 1 ≤ file'.ff.sectorsincluster ∧
          file'.fs.disk = file.fs.disk ∧
          ∃ cluster sector left, file'.ff = { file.ff with
            currentcluster := cluster
            currentsector := sector
            sectorsincluster := left } := by
  unfold writeCluster
  by_cases empty : file.ff.sectorsincluster < 1
  · rw [if_pos empty]
    have positive := mnt.cluster_pos
    rcases extendchain_grows sound.chain here.found with
      ⟨full, ending, result⟩ | ⟨next, fs, cells', result, chain, grows, disk, found, _⟩
    · refine .inl ⟨full, by omega, ending, ?_⟩
      rw [result, Option.map_some]
      simp only []
      rw [if_neg (by omega), if_pos (by omega)]
    · have inside := chain.valid next (mem_of_getElem? found)
      have low := inside.1
      have high := inside.2
      refine .inr ⟨{ fs := fs, ff := file.ff.enter mnt next }, cells', index + 1, ?_,
        keeps_grown _ sound chain grows rfl rfl rfl rfl, ?_, positive, disk, next, _, _, rfl⟩
      · rw [result, Option.map_some]
        simp only []
        rw [if_neg (by omega), if_neg (by omega), Int.toNat_natCast]
      · have entered := at_enter mnt file.ff found
        have number := here.place_eq
        rw [show place = (index + 1) * mnt.fatsecperclus by rw [Nat.succ_mul]; omega]
        exact entered
  · rw [if_neg empty]
    exact .inr ⟨file, cells, index, rfl, Keeps.refl sound, here, Nat.le_of_not_lt empty, rfl, _, _,
      _, rfl⟩

end

theorem currentsector_at {ff : File} {position : Int}
    (found : cells[index]? = some ff.currentcluster) (inside : position ≤ ff.size) :
    (fatCurrentsector mnt ff position).1 = 0 ∧
      At mnt (fatCurrentsector mnt ff position).2 cells index
        (index * mnt.fatsecperclus +
          (position.tdiv mnt.hwsectorsize % mnt.fatsecperclus).toNat) := by
  have positive := mnt.cluster_pos
  have bound := Int.emod_lt_of_pos (position.tdiv mnt.hwsectorsize) (Int.natCast_pos.mpr positive)
  unfold fatCurrentsector
  rw [if_pos inside]
  generalize (position.tdiv mnt.hwsectorsize % mnt.fatsecperclus) = offset at bound ⊢
  refine ⟨rfl, found, ?_, ?_, ?_⟩ <;> simp only [] <;> omega

end Turns

end Chewie.Fs.Fat
