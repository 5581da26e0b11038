import Chewie.Fs.Fat.Contents

/-!
# Writing and seeking

Writing from a position of the file stores the bytes there and keeps those below the position and
those of the file behind them. A sector that is not read before a part of it is written has no bytes
of the file behind that part. Seeking keeps the bytes of the file.
-/

namespace Chewie.Fs.Fat

open Chains List Option Function

section Storing

variable {mnt : Mount} {file file' file'' : Opened} {cells cells' cells'' : List Nat}
variable {index pos size : Nat}

/-- The bytes are stored at the position; those below it and those of a file of this size behind
them are kept. -/
structure Written (mnt : Mount) (file file' : Opened) (cells cells' : List Nat) (pos : Nat)
    (data : List UInt8) (size : Nat) : Prop where
  before : ∀ position < pos, byteAt mnt file' cells' position = byteAt mnt file cells position
  stored : ∀ offset byte, data[offset]? = some byte →
    byteAt mnt file' cells' (pos + offset) = byte
  behind : ∀ position < size, pos + data.length ≤ position →
    byteAt mnt file' cells' position = byteAt mnt file cells position

theorem written_nil (longer : cells <+: cells') (same : file'.settled.disk = file.settled.disk)
    (below : pos ≤ cells.length * mnt.clustersize)
    (covered : size ≤ cells.length * mnt.clustersize) :
    Written mnt file file' cells cells' pos [] size where
  before position lower := by
    rw [byteAt_congr same, byteAt_mono longer (by omega)]
  stored offset byte found := by cases found
  behind position lower _ := by
    rw [byteAt_congr same, byteAt_mono longer (by omega)]

theorem Written.append {first second : List UInt8}
    (one : Written mnt file file' cells cells' pos first size)
    (two : Written mnt file' file'' cells' cells'' (pos + first.length) second size) :
    Written mnt file file'' cells cells'' pos (first ++ second) size where
  before position lower := (two.before position (by omega)).trans (one.before position lower)
  stored offset byte found := by
    by_cases early : offset < first.length
    · rw [getElem?_append_left early] at found
      rw [two.before (pos + offset) (by omega)]
      exact one.stored offset byte found
    · rw [getElem?_append_right (by omega)] at found
      have later := two.stored (offset - first.length) byte found
      rwa [show pos + first.length + (offset - first.length) = pos + offset by omega] at later
  behind position lower upper := by
    rw [length_append] at upper
    rw [two.behind position lower (by omega)]
    exact one.behind position lower (by omega)

theorem At.number_le {ff : File} {place : Nat} (here : At mnt ff cells index place) :
    place + ff.sectorsincluster ≤ cells.length * mnt.fatsecperclus := by
  have inside := (List.getElem?_eq_some_iff.mp here.found).1
  rw [← here.place_eq, ← Nat.succ_mul]
  exact Nat.mul_le_mul_right _ inside

theorem settled_of_clean (clean : file.ff.dirty = false) : file.settled = file.fs := by
  unfold Opened.settled
  rw [clean]
  rfl

theorem settled_disk_congr (disk : file'.fs.disk = file.fs.disk)
    (dirty : file'.ff.dirty = file.ff.dirty) (cached : file'.ff.cachesector = file.ff.cachesector)
    (buffer : file'.ff.buffer = file.ff.buffer) : file'.settled.disk = file.settled.disk := by
  unfold Opened.settled
  rw [dirty]
  split
  · simp only [hwwrite, disk, cached, buffer]
  · exact disk

theorem Clean.congr (clean : Clean file) (disk : file'.fs.disk = file.fs.disk)
    (valid : file'.ff.valid = file.ff.valid) (dirty : file'.ff.dirty = file.ff.dirty)
    (cached : file'.ff.cachesector = file.ff.cachesector)
    (buffer : file'.ff.buffer = file.ff.buffer) : Clean file' := by
  unfold Clean
  rw [disk, valid, dirty, cached, buffer]
  exact clean

section

variable (sound : Sound mnt file cells)

include sound

theorem storeSector_settled (replaced : Bool) (sectorindex : Nat) (data : List UInt8) :
    (storeSector mnt file replaced sectorindex data).settled.disk =
      update file.settled.disk file.ff.currentsector fun offset =>
        if sectorindex ≤ offset ∧ offset < sectorindex + data.length then
          data.getD (offset - sectorindex) 0
        else (file.loaded replaced).ff.buffer offset := by
  have stored : (storeSector mnt file replaced sectorindex data).settled.disk =
      update (file.loaded replaced).fs.disk (file.loaded replaced).ff.cachesector
        fun offset =>
          if sectorindex ≤ offset ∧ offset < sectorindex + data.length then
            data.getD (offset - sectorindex) 0
          else (file.loaded replaced).ff.buffer offset := by
    have cached := store_cachesector mnt (file.loaded replaced).ff sectorindex data
    rw [← cached]
    rfl
  rw [stored]
  rcases loaded_eq sound replaced with ⟨same, cached⟩ | ⟨valid, buffer, loaded⟩
  · rw [same, ← cached]
    unfold Opened.settled
    split
    · exact (update_idem ..).symm
    · rfl
  · rw [loaded]

theorem loaded_buffer (clean : Clean file) :
    (file.loaded false).ff.buffer = file.settled.disk file.ff.currentsector :=
  cacheread_buffer sound clean file.ff.currentsector

/-- Bytes are put into the current sector, from the position on. A sector that is not read before
has no other bytes of the file behind the position. -/
theorem storeSector_written (clean : Clean file)
    (here : At mnt file.ff cells index (pos / mnt.hwsectorsize))
    (left : 1 ≤ file.ff.sectorsincluster) {replaced : Bool} {data : List UInt8}
    (fits : pos % mnt.hwsectorsize + data.length ≤ mnt.hwsectorsize)
    (covered : pos ≤ cells.length * mnt.clustersize)
    (bounded : size ≤ cells.length * mnt.clustersize)
    (blind : replaced = true → pos % mnt.hwsectorsize = 0 ∧
      (data.length = mnt.hwsectorsize ∨ size ≤ pos + data.length)) :
    Written mnt file (storeSector mnt file replaced (pos % mnt.hwsectorsize) data) cells cells pos
      data size := by
  have sector := here.sectorOf left
  rw [Int.natCast_zero, Int.add_zero, Nat.add_zero] at sector
  have number_le := here.number_le
  have settled := storeSector_settled sound replaced (pos % mnt.hwsectorsize) data
  -- A position in another sector is not touched.
  have far : ∀ position, position < cells.length * mnt.clustersize →
      position / mnt.hwsectorsize ≠ pos / mnt.hwsectorsize →
      byteAt mnt (storeSector mnt file replaced (pos % mnt.hwsectorsize) data) cells position =
        byteAt mnt file cells position := by
    intro position inside differ
    rw [byteAt, settled, update_of_ne, byteAt]
    intro same
    rw [← sector] at same
    exact differ (sectorOf_inj sound.chain (number_of_position inside) (by omega) same)
  have near : ∀ position, position / mnt.hwsectorsize = pos / mnt.hwsectorsize →
      byteAt mnt (storeSector mnt file replaced (pos % mnt.hwsectorsize) data) cells position =
        if pos % mnt.hwsectorsize ≤ position % mnt.hwsectorsize ∧
            position % mnt.hwsectorsize < pos % mnt.hwsectorsize + data.length then
          data.getD (position % mnt.hwsectorsize - pos % mnt.hwsectorsize) 0
        else (file.loaded replaced).ff.buffer (position % mnt.hwsectorsize) := by
    intro position same
    rw [byteAt, settled, same, sector, update_self]
  have split := Nat.div_add_mod pos mnt.hwsectorsize
  have kept : ∀ position, position < pos ∨ position < size ∧ pos + data.length ≤ position →
      byteAt mnt (storeSector mnt file replaced (pos % mnt.hwsectorsize) data) cells position =
        byteAt mnt file cells position := by
    intro position outside
    by_cases same : position / mnt.hwsectorsize = pos / mnt.hwsectorsize
    · have split' := Nat.div_add_mod position mnt.hwsectorsize
      have below' := Nat.mod_lt position mnt.sector_pos
      rw [same] at split'
      rw [near position same, if_neg (by omega)]
      cases replaced with
      | true => have whole := blind rfl; omega
      | false => rw [loaded_buffer sound clean, byteAt, same, sector]
    · exact far position (by omega) same
  refine ⟨fun position lower => kept position (.inl lower), ?_,
    fun position lower upper => kept position (.inr ⟨lower, upper⟩)⟩
  · intro offset byte found
    have short := (List.getElem?_eq_some_iff.mp found).1
    obtain ⟨number, rest⟩ := @near_position mnt pos offset (by omega)
    rw [near _ number, rest, if_pos (by omega), getD_eq_getElem?_getD,
      show pos % mnt.hwsectorsize + offset - pos % mnt.hwsectorsize = offset by omega, found,
      getD_some]

theorem storeSector_fields (replaced : Bool) (sectorindex : Nat) (data : List UInt8) :
    (storeSector mnt file replaced sectorindex data).ff.pos = file.ff.pos ∧
      (storeSector mnt file replaced sectorindex data).ff.size = file.ff.size ∧
      (storeSector mnt file replaced sectorindex data).ff.rdok = file.ff.rdok := by
  unfold storeSector File.store
  rcases loaded_eq sound replaced with ⟨same, _⟩ | ⟨valid, buffer, loaded⟩
  · rw [same]
    split <;> exact ⟨rfl, rfl, rfl⟩
  · rw [loaded]
    split <;> exact ⟨rfl, rfl, rfl⟩

end

theorem Standing.covers (standing : Standing mnt file cells index pos) {count : Nat}
    (fits : count ≤ file.ff.sectorsincluster) :
    (pos / mnt.hwsectorsize + count) * mnt.hwsectorsize ≤ cells.length * mnt.clustersize := by
  have number_le := standing.here.number_le
  rw [Mount.clustersize, ← Nat.mul_assoc]
  exact Nat.mul_le_mul_right _ (by omega)

end Storing

section Writing

variable {mnt : Mount} {file : Opened} {cells : List Nat} {index pos size : Nat}
variable {data : List UInt8}

/-- What a turn of `fat_write` that starts at the position has done once it has written `count`
bytes. -/
structure Turned (mnt : Mount) (file file' : Opened) (cells : List Nat) (index pos size : Nat)
    (data : List UInt8) (count : Nat) : Prop where
  standing : Standing mnt file' cells index (pos + count)
  advances : Advances mnt file file' cells cells
  written : Written mnt file file' cells cells pos (data.take count) size
  covered : pos + count ≤ cells.length * mnt.clustersize

section

variable (standing : Standing mnt file cells index pos)

include standing

section

variable (covered : size ≤ cells.length * mnt.clustersize)
variable (inside : pos ≤ cells.length * mnt.clustersize)

include covered inside

/-- A part of a sector is written. -/
theorem writeCached_spec (left : 1 ≤ file.ff.sectorsincluster) (size_eq : file.ff.size = size)
    (bounded : size < 2 ^ 31) {count : Nat}
    (count_eq : min (mnt.hwsectorsize - pos % mnt.hwsectorsize) data.length = count)
    (fits : pos + data.length < 2 ^ 31) :
    ∃ file', writeCached mnt file data = (count, file') ∧
      Turned mnt file file' cells index pos size data count := by
  have below := Nat.mod_lt pos mnt.sector_pos
  have length : (data.take count).length = count := by
    rw [length_take]
    omega
  have blind : mnt.replaced file.ff data.length = true → pos % mnt.hwsectorsize = 0 ∧
      ((data.take count).length = mnt.hwsectorsize ∨ size ≤ pos + (data.take count).length) := by
    intro replaced
    simp only [Mount.replaced, decide_eq_true_eq, standing.pos_eq, sectorindex_natCast,
      size_eq] at replaced
    have precise := @toUint_of_nonneg size (by omega) (by omega)
    have exact_' := @toUint_of_nonneg ((pos : Int) + data.length) (by omega) (by omega)
    omega
  have written := storeSector_written standing.sound standing.clean standing.here left (by omega)
    inside covered blind
  obtain ⟨keeps, here⟩ := storeSector_keeps standing.sound standing.here left
    (mnt.replaced file.ff data.length) (pos % mnt.hwsectorsize) (data.take count)
  obtain ⟨pos_eq, same, access⟩ := storeSector_fields standing.sound
    (mnt.replaced file.ff data.length) (pos % mnt.hwsectorsize) (data.take count)
  have dirty : (storeSector mnt file (mnt.replaced file.ff data.length) (pos % mnt.hwsectorsize)
    (data.take count)).ff.dirty = true := rfl
  unfold writeCached
  simp only [standing.pos_eq, sectorindex_natCast, count_eq]
  rw [standing.pos_eq] at pos_eq
  generalize storeSector mnt file (mnt.replaced file.ff data.length) (pos % mnt.hwsectorsize)
    (data.take count) = stored at *
  have moved := keeps.trans (@keeps_fields mnt stored cells (stored.ff.move count) keeps.sound rfl
    rfl rfl rfl rfl)
  have clean : Clean { stored with ff := stored.ff.move count } := by
    intro _ waits
    change stored.ff.dirty = false at waits
    rw [dirty] at waits
    cases waits
  refine ⟨_, rfl, ⟨moved.sound, clean, move_pos pos_eq (by omega), ?_⟩, ⟨moved, same, access⟩,
    ⟨written.before, written.stored, written.behind⟩, ?_⟩
  · rw [length] at here
    by_cases short : pos % mnt.hwsectorsize + count < mnt.hwsectorsize
    · rw [if_pos short] at here
      rw [(near_position short).1]
      exact here.congr rfl rfl rfl
    · rw [if_neg short] at here
      rw [@next_sector mnt pos count (by omega)]
      exact here.congr rfl rfl rfl
  · have covers := standing.covers left
    have split := Nat.div_add_mod pos mnt.hwsectorsize
    rw [Nat.mul_comm] at split
    rw [Nat.succ_mul] at covers
    omega

/-- Whole sectors are written to the device. -/
theorem hwwriteAll_written (aligned : pos % mnt.hwsectorsize = 0) {count : Nat}
    (fits : count ≤ file.ff.sectorsincluster) (enough : count * mnt.hwsectorsize ≤ data.length)
    {file' : Opened}
    (settled : file'.settled.disk = (mnt.hwwriteAll file.settled file.ff.currentsector count
      data).disk) :
    Written mnt file file' cells cells pos (data.take (count * mnt.hwsectorsize)) size := by
  have split := Nat.div_add_mod pos mnt.hwsectorsize
  have last := standing.here.number_le
  have length : (data.take (count * mnt.hwsectorsize)).length = count * mnt.hwsectorsize := by
    rw [length_take]
    omega
  -- A position outside the sectors that were written is not touched.
  have far : ∀ position, position < cells.length * mnt.clustersize →
      (position < pos ∨ pos + count * mnt.hwsectorsize ≤ position) →
      byteAt mnt file' cells position = byteAt mnt file cells position := by
    intro position below outside
    rw [byteAt, settled]
    refine if_neg fun among => ?_
    have sector := @At.sectorOf mnt file.ff cells index _ standing.here
      (mnt.sectorOf cells (position / mnt.hwsectorsize) - file.ff.currentsector).toNat (by omega)
    rw [show file.ff.currentsector + (mnt.sectorOf cells (position / mnt.hwsectorsize) -
      file.ff.currentsector).toNat = mnt.sectorOf cells (position / mnt.hwsectorsize) by omega]
      at sector
    have number := sectorOf_inj standing.sound.chain (by omega) (number_of_position below) sector
    have lower : pos / mnt.hwsectorsize ≤ position / mnt.hwsectorsize := by omega
    have upper : position / mnt.hwsectorsize < pos / mnt.hwsectorsize + count := by omega
    rcases outside with less | more
    · have start := (Nat.le_div_iff_mul_le mnt.sector_pos).mp lower
      rw [Nat.mul_comm] at start
      omega
    · have finish := (Nat.div_lt_iff_lt_mul mnt.sector_pos).mp upper
      rw [Nat.add_mul, Nat.mul_comm (pos / mnt.hwsectorsize)] at finish
      omega
  constructor
  · intro position lower
    exact far position (by omega) (.inl lower)
  · intro offset byte found
    have short := (List.getElem?_eq_some_iff.mp found).1
    rw [length] at short
    rw [List.getElem?_take_of_lt short] at found
    obtain ⟨number, rest⟩ := @aligned_position mnt pos offset aligned
    have sector : offset / mnt.hwsectorsize < count :=
      (Nat.div_lt_iff_lt_mul mnt.sector_pos).mpr short
    have below := Nat.mod_lt offset mnt.sector_pos
    have position : ((offset / mnt.hwsectorsize : Nat) : Int).toNat * mnt.hwsectorsize +
        offset % mnt.hwsectorsize = offset := by
      rw [Int.toNat_natCast, Nat.mul_comm, Nat.div_add_mod]
    rw [byteAt, number, rest, standing.here.sectorOf (by omega), settled]
    simp only [Mount.hwwriteAll]
    rw [if_pos ⟨Int.le_add_of_nonneg_right (Int.natCast_nonneg _),
      Int.add_lt_add_left (Int.ofNat_lt.mpr sector) _, below⟩, add_sub_cancel_left, position,
      getD_eq_getElem?_getD, found, getD_some]
  · intro position lower upper
    rw [length] at upper
    exact far position (by omega) (.inr upper)

/-- Whole sectors are written from the user's buffer. -/
theorem writeDirect_spec (aligned : pos % mnt.hwsectorsize = 0) {count : Nat}
    (count_eq : min (data.length / mnt.hwsectorsize) file.ff.sectorsincluster = count)
    (fits : pos + data.length < 2 ^ 31) :
    ∃ file', writeDirect mnt file data = (count * mnt.hwsectorsize, file') ∧
      Turned mnt file file' cells index pos size data (count * mnt.hwsectorsize) := by
  have enough : count * mnt.hwsectorsize ≤ data.length := by
    rw [← count_eq]
    exact Nat.le_trans (Nat.mul_le_mul_right _ (Nat.min_le_left ..)) (Nat.div_mul_le_self ..)
  have below : count ≤ file.ff.sectorsincluster := by omega
  obtain ⟨keeps, here⟩ := writeDirect_keeps standing.sound standing.here data
  obtain ⟨_, _, _, fields⟩ := invalidate_fields standing.sound
  have given : (fatFfcacheinvalidate file).fs = file.settled := by
    rw [fatFfcacheinvalidate_eq standing.sound]
  have clean : (fatFfcacheinvalidate file).ff.dirty = false ∧
      (fatFfcacheinvalidate file).ff.valid = false := by
    rw [fatFfcacheinvalidate_eq standing.sound]
    exact ⟨rfl, rfl⟩
  have sector : (fatFfcacheinvalidate file).ff.currentsector = file.ff.currentsector := by
    rw [fields]
  have settled : (writeDirect mnt file data).2.settled.disk =
      (mnt.hwwriteAll file.settled file.ff.currentsector count data).disk := by
    have flat := @settled_of_clean (writeDirect mnt file data).2 clean.1
    rw [flat]
    simp only [writeDirect, count_eq, given, sector]
  have pos_eq : (writeDirect mnt file data).2.ff.pos = (pos + count * mnt.hwsectorsize : Nat) := by
    simp only [writeDirect, count_eq]
    refine move_pos ?_ (by omega)
    rw [fields]
    exact standing.pos_eq
  refine ⟨(writeDirect mnt file data).2, ?_, ⟨keeps.sound, ?_, pos_eq, ?_⟩, ⟨keeps, ?_, ?_⟩,
    hwwriteAll_written standing covered inside aligned below enough settled, ?_⟩
  · simp only [writeDirect, count_eq]
  · intro valid
    change (fatFfcacheinvalidate file).ff.valid = true at valid
    rw [clean.2] at valid
    cases valid
  · obtain ⟨number, _⟩ := @aligned_position mnt pos (count * mnt.hwsectorsize) aligned
    rw [number, Nat.mul_div_cancel _ mnt.sector_pos]
    rwa [count_eq] at here
  · change (fatFfcacheinvalidate file).ff.size = _
    rw [fields]
  · change (fatFfcacheinvalidate file).ff.rdok = _
    rw [fields]
  · have covers := standing.covers below
    have split := Nat.div_add_mod pos mnt.hwsectorsize
    rw [Nat.mul_comm] at split
    rw [Nat.add_mul] at covers
    omega

theorem writeTurn_spec (left : 1 ≤ file.ff.sectorsincluster) (size_eq : file.ff.size = size)
    (bounded : size < 2 ^ 31) (fits : pos + data.length < 2 ^ 31) :
    Turned mnt file (writeTurn mnt file data).2 cells index pos size data
      (writeTurn mnt file data).1 := by
  unfold writeTurn
  by_cases direct : mnt.direct file.ff.pos data.length = true
  · rw [if_pos direct]
    obtain ⟨last, result, turned⟩ := writeDirect_spec standing covered inside
      (standing.direct direct).2 rfl fits
    rw [result]
    exact turned
  · rw [if_neg direct]
    obtain ⟨last, result, turned⟩ := writeCached_spec standing covered inside left size_eq bounded
      rfl fits
    rw [result]
    exact turned

end

/-- Before each turn of `fat_write` a sector is left in the current cluster, when there is room for
the position. -/
theorem writeCluster_spec
    (room : pos / mnt.clustersize < cells.length + (freeClusters mnt file.fs).length) :
    ∃ file' cells' index', writeCluster mnt file = some (0, file') ∧
      Standing mnt file' cells' index' pos ∧ 1 ≤ file'.ff.sectorsincluster ∧
      Advances mnt file file' cells cells' ∧ file'.settled.disk = file.settled.disk := by
  rcases writeCluster_keeps standing.sound standing.here with
    ⟨full, finish, last, _⟩ |
    ⟨entered, cells', index', result, keeps, there, left, disk, _, _, _, ff⟩
  · exfalso
    have behind := cluster_behind standing.here finish
    have number := (Nat.le_div_iff_mul_le (clustersize_pos mnt)).mpr behind
    have length := getElem?_eq_none_iff.mp last
    rw [full.freeClusters_eq, length_nil] at room
    omega
  · refine ⟨entered, cells', index', result, ⟨keeps.sound, ?_, ?_, there⟩, left,
      ⟨keeps, ?_, ?_⟩, ?_⟩
    · exact standing.clean.congr disk (by rw [ff]) (by rw [ff]) (by rw [ff]) (by rw [ff])
    · rw [ff]
      exact standing.pos_eq
    · rw [ff]
    · rw [ff]
    · exact settled_disk_congr disk (by rw [ff]) (by rw [ff]) (by rw [ff])

/-- The loop of `fat_write`, when there is room for the bytes. -/
theorem writeLoop_spec {fuel : Nat} (enough : data.length < fuel) (size_eq : file.ff.size = size)
    (bounded : size < 2 ^ 31) (covered : size ≤ cells.length * mnt.clustersize)
    (inside : pos ≤ cells.length * mnt.clustersize) (fits : pos + data.length < 2 ^ 31)
    (room : (pos + data.length) / mnt.clustersize < cells.length + (freeClusters mnt
      file.fs).length) :
    ∃ file' cells' index', writeLoop mnt fuel file data = some (0, file') ∧
      Standing mnt file' cells' index' (pos + data.length) ∧
      pos + data.length ≤ cells'.length * mnt.clustersize ∧
      Advances mnt file file' cells cells' ∧ Written mnt file file' cells cells' pos data size := by
  induction fuel generalizing file cells index pos data with
  | zero => omega
  | succ fuel ih =>
    rw [writeLoop]
    by_cases absent : data.length = 0
    · have empty : data = [] := eq_nil_of_length_eq_zero absent
      rw [empty]
      exact ⟨file, cells, index, rfl, standing, inside, Advances.refl standing.sound,
        written_nil prefix_rfl rfl inside covered⟩
    rw [if_neg absent]
    have here : pos / mnt.clustersize ≤ (pos + data.length) / mnt.clustersize :=
      Nat.div_le_div_right (Nat.le_add_right ..)
    obtain ⟨entered, cells', index', result, there, left, kept, same⟩ :=
      writeCluster_spec standing (Nat.lt_of_le_of_lt here room)
    have stays := kept.grows.links.stays
    have longer : cells.length * mnt.clustersize ≤ cells'.length * mnt.clustersize :=
      Nat.mul_le_mul_right _ stays.length_le
    have turned := @writeTurn_spec mnt entered cells' index' pos size data there (by omega)
      (by omega) left (kept.size.trans size_eq) bounded fits
    have progress := @writeTurn_pos mnt entered left data absent
    rw [result, bind_some]
    simp only [lt_self_iff_false, if_false]
    generalize (writeTurn mnt entered data).1 = count at turned progress ⊢
    generalize (writeTurn mnt entered data).2 = next at turned ⊢
    have rest : (data.drop count).length = data.length - count := length_drop
    have total : pos + count + (data.drop count).length = pos + data.length := by omega
    have room' := turned.advances.grows.room.trans kept.grows.room
    obtain ⟨last, cells'', index'', done, finish, covers, kept', written⟩ :=
      @ih next cells' index' (pos + count) (data.drop count) turned.standing (by omega)
        (turned.advances.size.trans (kept.size.trans size_eq)) (by omega) turned.covered
        (by omega) (by rw [total, room']; exact room)
    rw [total] at finish covers
    refine ⟨last, cells'', index'', done, finish, covers,
      kept.trans (turned.advances.trans kept'), ?_⟩
    have first : (data.take count).length = count := by
      rw [length_take]
      omega
    have both := turned.written.append (by rw [first]; exact written)
    rw [take_append_drop] at both
    have grown := @written_nil mnt file entered cells cells' pos size stays same inside covered
    exact grown.append both

end

/-- The first cluster of a file without clusters, when there is room for it. -/
theorem Ready.first (ready : Ready mnt file [] pos size)
    (room : 0 < (freeClusters mnt file.fs).length) :
    ∃ file' cells', firstCluster mnt file = some file' ∧ cells' ≠ [] ∧
      Ready mnt file' cells' pos size ∧ Advances mnt file file' [] cells' ∧
      file'.settled.disk = file.settled.disk ∧ file'.ff.currentsector = file.ff.currentsector := by
  have chainless : file.ff.startcluster = 0 := ready.sound.chain.empty rfl
  have covered := ready.covered
  rw [length_nil] at covered
  have ordered := ready.ordered
  have zero : pos = 0 := by omega
  obtain ⟨first, cells', result, keeps, disk, found, _, _, _, ff⟩ :=
    @firstCluster_keeps mnt file [] 0 ready.sound (.inl chainless) fun _ full => by
      rw [full.freeClusters_eq] at room
      exact absurd room (Nat.lt_irrefl 0)
  have start : cells'[0]? = some first.ff.currentcluster := by
    rcases found with found | ⟨_, found⟩ <;> exact found
  have unset : file.ff.currentsector = 0 := by
    rcases ready.placed with ⟨unset, _⟩ | ⟨index, here⟩
    · exact unset
    · cases here.found
  refine ⟨first, cells', result, ?_, ⟨keeps.sound, ?_, ?_, ?_, ordered, ready.bounded, ?_, ?_⟩,
    ⟨keeps, by rw [ff], by rw [ff]⟩, ?_, by rw [ff]⟩
  · intro absent
    rw [absent] at start
    cases start
  · exact ready.clean.congr disk (by rw [ff]) (by rw [ff]) (by rw [ff]) (by rw [ff])
  · rw [ff]
    exact ready.pos_eq
  · rw [ff]
    exact ready.size_eq
  · omega
  · refine .inl ⟨by rw [ff]; exact unset, .inr ?_⟩
    rw [zero, Nat.zero_div]
    exact start
  · exact settled_disk_congr disk (by rw [ff]) (by rw [ff]) (by rw [ff])

/-- The first sector to write to, for a position in the sector. -/
theorem firstSector_spec (ready : Ready mnt file cells pos size)
    (room : 0 < cells.length + (freeClusters mnt file.fs).length) {position : Nat}
    (inside : position ≤ size) (near : position / mnt.hwsectorsize = pos / mnt.hwsectorsize) :
    ∃ file' cells' index, firstSector mnt file position = some (0, file') ∧
      Standing mnt file' cells' index pos ∧ Advances mnt file file' cells cells' ∧
      file'.settled.disk = file.settled.disk := by
  unfold firstSector
  by_cases known : file.ff.currentsector ≠ 0
  · rw [if_pos known]
    rcases ready.placed with ⟨unset, _⟩ | ⟨index, here⟩
    · exact absurd unset known
    · exact ⟨file, cells, index, rfl, ⟨ready.sound, ready.clean, ready.pos_eq, here⟩,
        Advances.refl ready.sound, rfl⟩
  rw [if_neg known]
  have unset : file.ff.currentsector = 0 := by omega
  by_cases absent : cells = []
  · rw [absent] at ready room ⊢
    rw [length_nil, Nat.zero_add] at room
    obtain ⟨first, cells', result, nonempty, ready', kept, same, still⟩ := ready.first room
    obtain ⟨ok, standing, kept', same'⟩ := ready'.locate (still.trans unset) nonempty inside near
    rw [result]
    exact ⟨_, cells', _, congrArg some (Prod.ext ok rfl), standing, kept.trans kept',
      same'.trans same⟩
  · obtain ⟨ok, standing, kept, same⟩ := ready.locate unset absent inside near
    have chained : file.ff.startcluster ≠ 0 := fun chainless =>
      absent (Chain.eq_nil (chainless ▸ ready.sound.chain))
    rw [firstCluster, if_neg chained]
    exact ⟨_, cells, _, congrArg some (Prod.ext ok rfl), standing, kept, same⟩

/-- `fat_write` stores the bytes at the position once the first sector is found, when there is room
for them. -/
theorem fatWrite_from {first : Opened} {cells' : List Nat} (access : file.ff.wrok = true)
    (pos_eq : file.ff.pos = pos) (size_eq : file.ff.size = size) (bounded : size < 2 ^ 31)
    (covered : size ≤ cells.length * mnt.clustersize)
    (inside : pos ≤ cells.length * mnt.clustersize)
    (result : firstSector mnt file pos = some (0, first))
    (standing : Standing mnt first cells' index pos) (kept : Advances mnt file first cells cells')
    (same : first.settled.disk = file.settled.disk) (fits : pos + data.length < 2 ^ 31)
    (room : (pos + data.length) / mnt.clustersize <
      cells.length + (freeClusters mnt file.fs).length) :
    ∃ file' cells'', fatWrite mnt file data = some ((data.length : Int), file') ∧
      Ready mnt file' cells'' (pos + data.length) (max size (pos + data.length)) ∧
      Keeps mnt file file' cells cells'' ∧ file'.ff.rdok = file.ff.rdok ∧
      Written mnt file file' cells cells'' pos data size := by
  have small : ¬ toUint (file.ff.size + data.length) < toUint file.ff.size := by
    rw [size_eq]
    have precise := @toUint_of_nonneg size (by omega) (by omega)
    have exact_' := @toUint_of_nonneg ((size : Int) + data.length) (by omega) (by omega)
    omega
  have stays := kept.grows.links.stays
  have longer : cells.length * mnt.clustersize ≤ cells'.length * mnt.clustersize :=
    Nat.mul_le_mul_right _ stays.length_le
  obtain ⟨last, cells'', index', done, finish, covers, kept', written⟩ :=
    writeLoop_spec standing (Nat.lt_succ_self data.length) (kept.size.trans size_eq) bounded
      (by omega) (by omega) fits (by rw [kept.grows.room]; exact room)
  have all := kept.trans kept'
  have longer' : cells.length * mnt.clustersize ≤ cells''.length * mnt.clustersize :=
    Nat.mul_le_mul_right _ all.grows.links.stays.length_le
  have stored : Written mnt file last cells cells'' pos data size :=
    (@written_nil mnt file first cells cells' pos size stays same (by omega) covered).append written
  have size_eq' : last.ff.size = size := all.size.trans size_eq
  unfold fatWrite
  rw [if_neg (by rw [access]; decide), if_neg small, pos_eq, result, bind_some]
  simp only [lt_self_iff_false, if_false]
  rw [done, map_some]
  by_cases grows : last.ff.size < last.ff.pos
  · rw [if_pos grows]
    have moved := @keeps_fields mnt last cells'' { last.ff with size := last.ff.pos } all.sound rfl
      rfl rfl rfl rfl
    refine ⟨_, cells'', rfl, ⟨moved.sound, finish.clean, finish.pos_eq, ?_, ?_, ?_, ?_, ?_⟩,
      all.toKeeps.trans moved, all.rdok, ⟨stored.before, stored.stored, stored.behind⟩⟩
    · rw [finish.pos_eq] at grows
      rw [Nat.max_eq_right (by omega)]
      exact finish.pos_eq
    · exact Nat.le_max_right ..
    · omega
    · omega
    · exact .inr ⟨index', finish.here.congr rfl rfl rfl⟩
  · rw [if_neg grows]
    rw [finish.pos_eq] at grows
    have large : max size (pos + data.length) = size := by omega
    rw [large]
    exact ⟨last, cells'', rfl, finish.ready size_eq' (by omega) bounded (by omega), all.toKeeps,
      all.rdok, stored⟩

end Writing

section Seeking

variable {mnt : Mount} {file : Opened} {cells : List Nat} {pos size target : Nat}

theorem seekLocate_spec {rest : Int} (sum : file.ff.pos + rest = target) (fits : target < 2 ^ 31)
    (size_eq : file.ff.size = size) (known : target ≤ size ∨ file.ff.currentsector = 0)
    (found : cells[target / mnt.clustersize]? = some file.ff.currentcluster) :
    ∃ sector left, seekLocate mnt file rest = { file with ff := { file.ff with
        pos := target, currentsector := sector, sectorsincluster := left } } ∧
      PlacedAt mnt (seekLocate mnt file rest).ff cells target := by
  have wrapped : toOff (file.ff.pos + rest) = target := by
    rw [sum]
    exact toOff_of_fits (by omega) (by omega)
  obtain ⟨sector, left, fields⟩ := currentsector_fields mnt { file.ff with pos := target } target
  have located : seekLocate mnt file rest = { file with
      ff := (fatCurrentsector mnt { file.ff with pos := target } target).2 } := by
    simp only [seekLocate, wrapped]
  refine ⟨sector, left, by rw [located, fields], ?_⟩
  rw [located]
  by_cases inside : target ≤ size
  · obtain ⟨_, here⟩ := @currentsector_at mnt cells _ { file.ff with pos := target } target found
      (by rw [size_eq]; exact Int.ofNat_le.mpr inside)
    rw [number_in_cluster] at here
    exact .inr ⟨_, here⟩
  · have unset := known.resolve_left inside
    have outside : ¬ (target : Int) ≤ file.ff.size := by omega
    simp only [fatCurrentsector, if_neg outside]
    exact .inl ⟨unset, .inr found⟩

/-- The sector of the new position is looked up and loaded. -/
theorem seekSector_spec {rest : Int} (sound : Sound mnt file cells) (clean : Clean file)
    (sum : file.ff.pos + rest = target) (fits : target < 2 ^ 31) (size_eq : file.ff.size = size)
    (known : target ≤ size ∨ file.ff.currentsector = 0)
    (found : cells[target / mnt.clustersize]? = some file.ff.currentcluster) :
    Advances mnt file (seekSector mnt file rest) cells cells ∧
      Clean (seekSector mnt file rest) ∧
      (seekSector mnt file rest).settled.disk = file.settled.disk ∧
      (seekSector mnt file rest).ff.pos = target ∧
      PlacedAt mnt (seekSector mnt file rest).ff cells target := by
  obtain ⟨sector, left, located, placed⟩ :=
    @seekLocate_spec mnt file cells size target rest sum fits size_eq known found
  have keeps := seekLocate_keeps sound rest
  have clean' : Clean (seekLocate mnt file rest) := by
    rw [located]
    exact clean
  unfold seekSector
  by_cases part : mnt.sectorindex rest ≠ 0
  · rw [if_pos part]
    generalize (seekLocate mnt file rest).ff.currentsector = current
    obtain ⟨_, _, _, _, fields⟩ := cacheread_fields keeps.sound current
    refine ⟨⟨keeps.trans (keeps_cacheread keeps.sound current), ?_, ?_⟩,
      cacheread_clean keeps.sound clean' current, ?_, ?_, ?_⟩
    · rw [fields, located]
    · rw [fields, located]
    · rw [cacheread_settled keeps.sound, located]
      rfl
    · rw [fields, located]
    · rw [fields]
      rcases placed with unset | ⟨index, here⟩
      · exact .inl unset
      · exact .inr ⟨index, here.congr rfl rfl rfl⟩
  · rw [if_neg part]
    refine ⟨⟨keeps, ?_, ?_⟩, clean', ?_, ?_, placed⟩
    · rw [located]
    · rw [located]
    · rw [located]
      rfl
    · rw [located]

theorem seekBegin_clean (sound : Sound mnt file cells) (clean : Clean file) :
    Clean (seekBegin mnt file) := by
  rw [seekBegin_eq sound]
  exact fun valid _ => clean.buffer valid

/-- The walk of `fat_seek` ends in the cluster of the position, when the chain reaches it or can be
extended to it. -/
theorem walk_ends {file file' : Opened} {cells' : List Nat} {index' : Nat} {ret rest : Int}
    (zero : file.ff.pos = 0) (walked : Walked mnt file file' cells' 0 index' target ret rest)
    (room : target / mnt.clustersize < cells'.length ∨ file.ff.wrok = true ∧
      target / mnt.clustersize < cells'.length + (freeClusters mnt file'.fs).length) :
    ret = 0 ∧ index' = target / mnt.clustersize ∧ file'.ff.pos + rest = target := by
  obtain ⟨sum, ending⟩ := walked
  rw [zero, Int.zero_add] at ending
  have next : ((index' + 1) * mnt.clustersize : Nat) = index' * mnt.clustersize + mnt.clustersize :=
    Nat.succ_mul ..
  rcases ending with ⟨ok, low, inside, total⟩ | ⟨full, length, part, less⟩
  · refine ⟨ok, ?_, total⟩
    have lower := (Nat.le_div_iff_mul_le (clustersize_pos mnt)).mpr
      (show index' * mnt.clustersize ≤ target by omega)
    have upper := (Nat.div_lt_iff_lt_mul (clustersize_pos mnt)).mpr
      (show target < (index' + 1) * mnt.clustersize by omega)
    omega
  · exfalso
    have lower := (Nat.le_div_iff_mul_le (clustersize_pos mnt)).mpr
      (show (index' + 1) * mnt.clustersize ≤ target by omega)
    rcases room with reaches | ⟨access, room⟩
    · omega
    · rw [(full access).freeClusters_eq, length_nil] at room
      omega

/-- `fat_seek` to another sector, when the chain reaches the position or can be extended to it. The
file has to end behind the position, or the current sector must not be set. -/
theorem seekAway_spec (ready : Ready mnt file cells pos size) {position : Int}
    (limit : seekLimit file.ff position = target) (nonempty : cells ≠ [] ∨ 0 < target)
    (known : target ≤ size ∨ file.ff.wrok = true ∧ file.ff.currentsector = 0)
    (fits : target < 2 ^ 31) (room : target / mnt.clustersize < cells.length ∨ file.ff.wrok = true ∧
      target / mnt.clustersize < cells.length + (freeClusters mnt file.fs).length) :
    ∃ file' cells', seekAway mnt file position = some (0, file') ∧
      Ready mnt file' cells' target (max size target) ∧ Keeps mnt file file' cells cells' ∧
      (file.ff.wrok = false → cells' = cells) ∧
      file'.ff.rdok = file.ff.rdok ∧ file'.settled.disk = file.settled.disk := by
  have bounded := ready.bounded
  have covered := ready.covered
  have begun := seekBegin_keeps ready.sound
  have beginning := @seekBegin_eq mnt file cells ready.sound
  have clean := @seekBegin_clean mnt file cells ready.sound ready.clean
  have settled : (seekBegin mnt file).settled.disk = file.settled.disk := by
    rw [beginning]
    rfl
  have limit' : seekLimit (seekBegin mnt file).ff position = target := by
    rw [beginning]
    exact limit
  obtain ⟨first, cells', result, keeps, disk, ⟨start, fields⟩, fixed, empty⟩ :=
    seekStart_keeps begun.sound target
  rw [beginning] at fields fixed
  have room' := keeps.grows.room.trans begun.grows.room
  have chained : first.ff.startcluster ≠ 0 := by
    intro chainless
    obtain ⟨before, full⟩ := empty chainless
    rw [beginning] at before
    have absent : cells = [] := Chain.eq_nil (before ▸ ready.sound.chain)
    have same := begun.grows.room
    rw [absent] at room same
    have positive := nonempty.resolve_left (fun nonempty => nonempty absent)
    rw [(full (by omega)).freeClusters_eq] at same
    rw [← same] at room
    exact room.elim (Nat.not_lt_zero _) fun able => Nat.not_lt_zero _ able.2
  have head := keeps.sound.chain.head (keeps.sound.chain.ne_nil chained)
  obtain ⟨ret, rest, last, cells'', index', done, kept, disk', found, ⟨place, current, after⟩, _,
    fixed', walked⟩ := @seekLoop_spec mnt first cells' 0 first.ff.startcluster target keeps.sound
      head _ (Nat.lt_succ_self _)
  have wrok : first.ff.wrok = file.ff.wrok := keeps.wrok.trans begun.wrok
  rw [wrok] at fixed'
  have zero : first.ff.pos = 0 := by rw [fields]
  have room'' := kept.grows.room.trans room'
  have longer := (keeps.grows.links.stays.trans kept.grows.links.stays).length_le
  obtain ⟨ok, index_eq, sum⟩ := walk_ends zero (walked (by omega) (by omega) (by omega)) (by
    rw [room'', wrok]
    rcases room with reaches | room
    · exact .inl (by omega)
    · exact .inr room)
  rw [index_eq] at found
  have same : last.settled.disk = file.settled.disk := by
    rw [← settled]
    refine settled_disk_congr (disk'.trans disk) ?_ ?_ ?_ <;> rw [after, fields, beginning]
  have clean' : Clean last := by
    refine clean.congr (disk'.trans disk) ?_ ?_ ?_ ?_ <;> rw [after, fields, beginning]
  have size_eq : last.ff.size = size := by
    rw [after, fields]
    exact ready.size_eq
  have known' : target ≤ size ∨ last.ff.currentsector = 0 := by
    rw [after, fields]
    exact known.imp_right And.right
  obtain ⟨located, clean'', same', pos_eq, placed⟩ :=
    seekSector_spec kept.sound clean' sum fits size_eq known' found
  have below := (List.getElem?_eq_some_iff.mp found).1
  have covered' : target < cells''.length * mnt.clustersize :=
    (Nat.div_lt_iff_lt_mul (clustersize_pos mnt)).mp below
  have all := begun.trans (keeps.trans (kept.trans located.toKeeps))
  have longer : cells.length * mnt.clustersize ≤ cells''.length * mnt.clustersize :=
    Nat.mul_le_mul_right _ longer
  have unchanged : file.ff.wrok = false → cells'' = cells := fun access => by
    refine (fixed' access).trans (fixed fun chainless => ?_)
    have absent : cells = [] := Chain.eq_nil (chainless ▸ ready.sound.chain)
    rw [absent] at room
    exact room.elim (Nat.not_lt_zero _) fun able => absurd able.1 (ne_true_of_eq_false access)
  have rdok : (seekSector mnt last rest).ff.rdok = file.ff.rdok := by
    rw [located.rdok, after, fields]
  have sought : seekAway mnt file position = some (0, seekSize (seekSector mnt last rest)) := by
    unfold seekAway
    simp only []
    rw [limit', result, bind_some, if_neg chained, done, ok]
    rfl
  rw [sought]
  have access : target ≤ size ∨ (seekSector mnt last rest).ff.wrok = true :=
    known.imp_right fun able => all.wrok.trans able.1
  have size_eq' := located.size.trans size_eq
  generalize seekSector mnt last rest = final at *
  unfold seekSize
  by_cases grows : final.ff.wrok = true ∧ final.ff.size < final.ff.pos
  · rw [if_pos grows]
    have longer := grows.2
    have moved := @keeps_fields mnt final cells''
      { final.ff with size := final.ff.pos, modified := true } all.sound rfl rfl rfl rfl rfl
    refine ⟨_, cells'', rfl, ⟨moved.sound, clean'', pos_eq, ?_, Nat.le_max_right .., by omega,
      by omega, ?_⟩, all.trans moved, unchanged, rdok, same'.trans same⟩
    · rw [Nat.max_eq_right (by omega)]
      exact pos_eq
    · rcases placed with unset | ⟨index, here⟩
      · exact .inl unset
      · exact .inr ⟨index, here.congr rfl rfl rfl⟩
  · rw [if_neg grows]
    have shorter : target ≤ size := access.elim id fun able => by
      have less : ¬ final.ff.size < final.ff.pos := fun less => grows ⟨able, less⟩
      omega
    rw [Nat.max_eq_left shorter]
    exact ⟨final, cells'', rfl, ⟨all.sound, clean'', pos_eq, size_eq', shorter, bounded, by omega,
      placed⟩, all, unchanged, rdok, same'.trans same⟩

theorem Ready.near (ready : Ready mnt file cells pos size)
    (near : target / mnt.hwsectorsize = pos / mnt.hwsectorsize) (inside : target ≤ size) :
    Ready mnt { file with ff := { file.ff with pos := target } } cells target size := by
  have moved := @keeps_fields mnt file cells { file.ff with pos := target } ready.sound rfl rfl rfl
    rfl rfl
  refine ⟨moved.sound, ready.clean, rfl, ready.size_eq, inside, ready.bounded, ready.covered, ?_⟩
  unfold PlacedAt
  rw [near, near_cluster near]
  rcases ready.placed with unset | ⟨index, here⟩
  · exact .inl unset
  · exact .inr ⟨index, here.congr rfl rfl rfl⟩

theorem tdiv_eq_iff (mnt : Mount) (target pos : Nat) :
    (target : Int).tdiv mnt.hwsectorsize = (pos : Int).tdiv mnt.hwsectorsize ↔
      target / mnt.hwsectorsize = pos / mnt.hwsectorsize :=
  Int.ofNat_inj

end Seeking

end Chewie.Fs.Fat
