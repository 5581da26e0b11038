import Chewie.Fs.Fat.Confined

/-!
# The bytes of a file

The sectors of a file are numbered along its clusters. Its bytes are those of the device once the
buffer has been written, so that loading and giving up the buffer do not change them. A file stands
at a position when its current sector is the one that the position is in. Reading then returns the
bytes from the position on, and the file stands behind them.
-/

namespace Chewie.Fs.Fat

open Chains List Mount

section Layout

variable {mnt : Mount} {fs : Volume} {ff : File} {cells cells' : List Nat}
variable {start index place number other : Nat}

/-- The sector of the device that is sector `number` of a file with these clusters. -/
def Mount.sectorOf (mnt : Mount) (cells : List Nat) (number : Nat) : Int :=
  fatCluster2sector mnt (cells.getD (number / mnt.fatsecperclus) 0) +
    (number % mnt.fatsecperclus : Nat)

theorem sectorOf_cluster {cluster offset : Nat} (found : cells[index]? = some cluster)
    (below : offset < mnt.fatsecperclus) :
    mnt.sectorOf cells (index * mnt.fatsecperclus + offset) =
      fatCluster2sector mnt cluster + offset := by
  have quotient : (index * mnt.fatsecperclus + offset) / mnt.fatsecperclus = index := by
    rw [Nat.mul_comm, Nat.mul_add_div mnt.cluster_pos, Nat.div_eq_of_lt below, Nat.add_zero]
  have remainder : (index * mnt.fatsecperclus + offset) % mnt.fatsecperclus = offset := by
    rw [Nat.mul_comm, Nat.mul_add_mod, Nat.mod_eq_of_lt below]
  rw [sectorOf, quotient, remainder, getD_eq_getElem?_getD, found, Option.getD_some]

theorem At.sectorOf (here : At mnt ff cells index place) {offset : Nat}
    (below : offset < ff.sectorsincluster) :
    mnt.sectorOf cells (place + offset) = ff.currentsector + offset := by
  have left := here.left
  have sector := here.sector
  have number := here.place_eq
  have split : place + offset =
      index * mnt.fatsecperclus + (mnt.fatsecperclus - ff.sectorsincluster + offset) := by
    omega
  rw [split, sectorOf_cluster here.found (by omega)]
  omega

theorem cluster_of_number (inside : number < cells.length * mnt.fatsecperclus) :
    ∃ cluster, cells[number / mnt.fatsecperclus]? = some cluster := by
  have below : number / mnt.fatsecperclus < cells.length :=
    (Nat.div_lt_iff_lt_mul mnt.cluster_pos).mpr inside
  exact ⟨_, getElem?_eq_getElem below⟩

theorem sectorOf_mono (longer : cells <+: cells')
    (inside : number < cells.length * mnt.fatsecperclus) :
    mnt.sectorOf cells' number = mnt.sectorOf cells number := by
  obtain ⟨cluster, found⟩ := cluster_of_number inside
  obtain ⟨more, rfl⟩ := longer
  have below := (List.getElem?_eq_some_iff.mp found).1
  simp [sectorOf, List.getElem?_append_left below]

/-- Two sectors of a file are different sectors of the device. -/
theorem sectorOf_inj (chain : Chain mnt fs start cells)
    (inside : number < cells.length * mnt.fatsecperclus)
    (inside' : other < cells.length * mnt.fatsecperclus)
    (same : mnt.sectorOf cells number = mnt.sectorOf cells other) : number = other := by
  obtain ⟨one, found⟩ := cluster_of_number inside
  obtain ⟨two, found'⟩ := cluster_of_number inside'
  have valid := chain.valid one (mem_of_getElem? found)
  have valid' := chain.valid two (mem_of_getElem? found')
  have below := Nat.mod_lt number mnt.cluster_pos
  have below' := Nat.mod_lt other mnt.cluster_pos
  simp only [sectorOf, getD_eq_getElem?_getD, found, found', Option.getD_some,
    fatCluster2sector, if_pos valid, if_pos valid'] at same
  have equal : mnt.fatsecperclus * (one - 2) + number % mnt.fatsecperclus =
      mnt.fatsecperclus * (two - 2) + other % mnt.fatsecperclus := by
    rw [Nat.mul_comm _ (one - 2), Nat.mul_comm _ (two - 2)]
    omega
  -- The cluster and the sector in it are the quotient and the remainder of one number.
  have quotient := congrArg (fun sector => sector / mnt.fatsecperclus) equal
  have remainder := congrArg (fun sector => sector % mnt.fatsecperclus) equal
  simp only [Nat.mul_add_div mnt.cluster_pos, Nat.div_eq_of_lt below, Nat.div_eq_of_lt below',
    Nat.add_zero] at quotient
  simp only [Nat.mul_add_mod, Nat.mod_mod] at remainder
  have cluster : one = two := by
    have low := valid.1
    have low' := valid'.1
    omega
  have index_eq : number / mnt.fatsecperclus = other / mnt.fatsecperclus :=
    (List.getElem?_inj (List.getElem?_eq_some_iff.mp found).1 chain.distinct).mp
      (by rw [found, found', cluster])
  rw [← Nat.div_add_mod number mnt.fatsecperclus, ← Nat.div_add_mod other mnt.fatsecperclus,
    index_eq, remainder]

theorem number_of_position {position : Nat} (inside : position < cells.length * mnt.clustersize) :
    position / mnt.hwsectorsize < cells.length * mnt.fatsecperclus := by
  rw [Nat.div_lt_iff_lt_mul mnt.sector_pos, Nat.mul_assoc]
  exact inside

end Layout

section Bytes

variable {mnt : Mount} {file file' : Opened} {cells cells' : List Nat} {position : Nat}

/-- The byte of the file at a position, with what waits in the buffer. -/
def byteAt (mnt : Mount) (file : Opened) (cells : List Nat) (position : Nat) : UInt8 :=
  file.settled.disk (mnt.sectorOf cells (position / mnt.hwsectorsize))
    (position % mnt.hwsectorsize)

theorem byteAt_congr (same : file'.settled.disk = file.settled.disk) :
    byteAt mnt file' cells position = byteAt mnt file cells position := by
  rw [byteAt, byteAt, same]

theorem byteAt_mono (longer : cells <+: cells')
    (inside : position < cells.length * mnt.clustersize) :
    byteAt mnt file cells' position = byteAt mnt file cells position := by
  rw [byteAt, byteAt, sectorOf_mono longer (number_of_position inside)]

/-- A buffer that need not be written holds what is on the device. -/
def Clean (file : Opened) : Prop :=
  file.ff.valid = true → file.ff.dirty = false → file.ff.buffer = file.fs.disk file.ff.cachesector

theorem cacheread_settled (sound : Sound mnt file cells) (sector : Int) :
    (fatFfcacheread file sector).settled = file.settled := by
  rw [fatFfcacheread_eq sound]
  split <;> rfl

theorem Clean.buffer (clean : Clean file) (valid : file.ff.valid = true) :
    file.ff.buffer = file.settled.disk file.ff.cachesector := by
  unfold Opened.settled
  cases dirty : file.ff.dirty with
  | true =>
    exact (Function.update_self file.ff.cachesector file.ff.buffer file.fs.disk).symm
  | false =>
    exact clean valid dirty

section

variable (sound : Sound mnt file cells)

include sound

theorem cacheread_buffer (clean : Clean file) (sector : Int) :
    (fatFfcacheread file sector).ff.buffer = file.settled.disk sector := by
  rw [fatFfcacheread_eq sound]
  by_cases held : file.ff.cachesector = sector ∧ file.ff.valid = true
  · rw [if_pos held, ← held.1]
    exact clean.buffer held.2
  · rw [if_neg held]

theorem cacheread_clean (clean : Clean file) (sector : Int) :
    Clean (fatFfcacheread file sector) := by
  rw [fatFfcacheread_eq sound]
  split
  · exact clean
  · exact fun _ _ => rfl

theorem invalidate_settled : (fatFfcacheinvalidate file).settled = file.settled := by
  rw [fatFfcacheinvalidate_eq sound]
  rfl

theorem invalidate_clean : Clean (fatFfcacheinvalidate file) := by
  rw [fatFfcacheinvalidate_eq sound]
  exact fun valid => by cases valid

theorem invalidate_fields :
    ∃ dirty cached valid, (fatFfcacheinvalidate file).ff = { file.ff with
      dirty := dirty, cachesector := cached, valid := valid } := by
  rw [fatFfcacheinvalidate_eq sound]
  exact ⟨_, _, _, rfl⟩

end

end Bytes

section Positions

variable {mnt : Mount} {pos offset : Nat}

theorem sectorindex_natCast (mnt : Mount) (pos : Nat) :
    mnt.sectorindex (pos : Int) = pos % mnt.hwsectorsize := by
  rw [sectorindex, ← Int.natCast_emod, Int.toNat_natCast]

theorem near_position (near : pos % mnt.hwsectorsize + offset < mnt.hwsectorsize) :
    (pos + offset) / mnt.hwsectorsize = pos / mnt.hwsectorsize ∧
      (pos + offset) % mnt.hwsectorsize = pos % mnt.hwsectorsize + offset := by
  have split := Nat.div_add_mod pos mnt.hwsectorsize
  have sum : pos + offset = mnt.hwsectorsize * (pos / mnt.hwsectorsize) +
      (pos % mnt.hwsectorsize + offset) := by omega
  constructor
  · rw [sum, Nat.mul_add_div mnt.sector_pos, Nat.div_eq_of_lt near, Nat.add_zero]
  · rw [sum, Nat.mul_add_mod, Nat.mod_eq_of_lt near]

theorem next_sector (ending : pos % mnt.hwsectorsize + offset = mnt.hwsectorsize) :
    (pos + offset) / mnt.hwsectorsize = pos / mnt.hwsectorsize + 1 := by
  have split := Nat.div_add_mod pos mnt.hwsectorsize
  have sum : pos + offset = mnt.hwsectorsize * (pos / mnt.hwsectorsize + 1) := by
    rw [Nat.mul_succ]
    omega
  rw [sum, Nat.mul_div_cancel_left _ mnt.sector_pos]

theorem aligned_position (aligned : pos % mnt.hwsectorsize = 0) :
    (pos + offset) / mnt.hwsectorsize = pos / mnt.hwsectorsize + offset / mnt.hwsectorsize ∧
      (pos + offset) % mnt.hwsectorsize = offset % mnt.hwsectorsize := by
  have split := Nat.div_add_mod pos mnt.hwsectorsize
  have sum : pos + offset = mnt.hwsectorsize * (pos / mnt.hwsectorsize) + offset := by omega
  constructor
  · rw [sum, Nat.mul_add_div mnt.sector_pos]
  · rw [sum, Nat.mul_add_mod]

end Positions

section Reading

variable {mnt : Mount} {file file' file'' : Opened} {cells cells' cells'' : List Nat}
variable {index pos buflen : Nat}

/-- The current sector is the one that the position is in, or the end of the sector before. -/
structure Standing (mnt : Mount) (file : Opened) (cells : List Nat) (index pos : Nat) : Prop where
  sound : Sound mnt file cells
  clean : Clean file
  pos_eq : file.ff.pos = pos
  here : At mnt file.ff cells index (pos / mnt.hwsectorsize)

/-- What the loops of the file operations keep: the size and the access. -/
structure Advances (mnt : Mount) (file file' : Opened) (cells cells' : List Nat) : Prop
    extends Keeps mnt file file' cells cells' where
  size : file'.ff.size = file.ff.size
  rdok : file'.ff.rdok = file.ff.rdok

theorem Advances.refl (sound : Sound mnt file cells) : Advances mnt file file cells cells :=
  ⟨Keeps.refl sound, rfl, rfl⟩

theorem Advances.trans (one : Advances mnt file file' cells cells')
    (two : Advances mnt file' file'' cells' cells'') : Advances mnt file file'' cells cells'' :=
  ⟨one.toKeeps.trans two.toKeeps, two.size.trans one.size, two.rdok.trans one.rdok⟩

/-- The bytes from a position on. -/
def bytesFrom (mnt : Mount) (file : Opened) (cells : List Nat) (pos count : Nat) : List UInt8 :=
  (List.range count).map fun offset => byteAt mnt file cells (pos + offset)

theorem bytesFrom_add (mnt : Mount) (file : Opened) (cells : List Nat) (pos count more : Nat) :
    bytesFrom mnt file cells pos (count + more) =
      bytesFrom mnt file cells pos count ++ bytesFrom mnt file cells (pos + count) more := by
  simp [bytesFrom, range_add, Nat.add_assoc]

theorem bytesFrom_congr (same : file'.settled.disk = file.settled.disk) (count : Nat) :
    bytesFrom mnt file' cells pos count = bytesFrom mnt file cells pos count :=
  map_congr_left fun _ _ => byteAt_congr same

theorem move_pos {ff : File} {count : Nat} (pos_eq : ff.pos = pos) (fits : pos + count < 2 ^ 31) :
    (ff.move count).pos = (pos + count : Nat) := by
  simp only [File.move, pos_eq]
  rw [toOff_of_fits (by omega) (by omega)]
  omega

section

variable (standing : Standing mnt file cells index pos)

include standing

theorem Standing.direct (direct : mnt.direct file.ff.pos buflen = true) :
    1 ≤ buflen / mnt.hwsectorsize ∧ pos % mnt.hwsectorsize = 0 := by
  have whole := direct_pos direct
  rw [standing.pos_eq] at whole
  exact whole

/-- Whole sectors of the file are read. -/
theorem readDirect_spec (aligned : pos % mnt.hwsectorsize = 0) {count : Nat}
    (count_eq : min (buflen / mnt.hwsectorsize) file.ff.sectorsincluster = count)
    (fits : pos + count * mnt.hwsectorsize < 2 ^ 31) :
    ∃ file', readDirect mnt file buflen =
        (bytesFrom mnt file cells pos (count * mnt.hwsectorsize), file') ∧
      Standing mnt file' cells index (pos + count * mnt.hwsectorsize) ∧
      Advances mnt file file' cells cells ∧ file'.settled.disk = file.settled.disk := by
  have keeps := keeps_invalidate standing.sound
  have there := standing.here.invalidate standing.sound
  have settled := invalidate_settled standing.sound
  have clean := invalidate_clean standing.sound
  have given : (fatFfcacheinvalidate file).fs = file.settled := by
    rw [fatFfcacheinvalidate_eq standing.sound]
  obtain ⟨_, _, _, fields⟩ := invalidate_fields standing.sound
  have below : count ≤ file.ff.sectorsincluster := by omega
  unfold readDirect
  simp only [count_eq]
  generalize fatFfcacheinvalidate file = loaded at *
  have kept : Advances mnt file loaded cells cells := ⟨keeps, by rw [fields], by rw [fields]⟩
  have moved := kept.trans ⟨@keeps_fields mnt loaded cells
    ((loaded.ff.advance count).move (count * mnt.hwsectorsize)) keeps.sound rfl rfl rfl rfl rfl,
    rfl, rfl⟩
  refine ⟨_, Prod.ext ?_ rfl, ⟨moved.sound, clean, move_pos ?_ fits, ?_⟩, moved,
    congrArg Volume.disk settled⟩
  · refine map_congr_left fun offset mem => ?_
    have sector : offset / mnt.hwsectorsize < count :=
      (Nat.div_lt_iff_lt_mul mnt.sector_pos).mpr (mem_range.mp mem)
    obtain ⟨number, rest⟩ := @aligned_position mnt pos offset aligned
    rw [byteAt, number, rest, standing.here.sectorOf (by omega), given, fields]
  · rw [fields]
    exact standing.pos_eq
  · obtain ⟨number, _⟩ := @aligned_position mnt pos (count * mnt.hwsectorsize) aligned
    rw [number, Nat.mul_div_cancel _ mnt.sector_pos]
    exact (there.advance (by rw [fields]; exact below)).congr rfl rfl rfl

/-- A part of a sector of the file is read. -/
theorem readCached_spec (left : 1 ≤ file.ff.sectorsincluster) {count : Nat}
    (count_eq : min (mnt.hwsectorsize - pos % mnt.hwsectorsize) buflen = count)
    (fits : pos + count < 2 ^ 31) :
    ∃ file', readCached mnt file buflen = (bytesFrom mnt file cells pos count, file') ∧
      Standing mnt file' cells index (pos + count) ∧
      Advances mnt file file' cells cells ∧ file'.settled.disk = file.settled.disk := by
  have below := Nat.mod_lt pos mnt.sector_pos
  have keeps := keeps_cacheread standing.sound file.ff.currentsector
  have settled := cacheread_settled standing.sound file.ff.currentsector
  have buffer := cacheread_buffer standing.sound standing.clean file.ff.currentsector
  have clean := cacheread_clean standing.sound standing.clean file.ff.currentsector
  obtain ⟨_, _, _, _, fields⟩ := cacheread_fields standing.sound file.ff.currentsector
  unfold readCached
  simp only [standing.pos_eq, sectorindex_natCast, count_eq]
  have read : (range count).map (fun offset =>
      (fatFfcacheread file file.ff.currentsector).ff.buffer (pos % mnt.hwsectorsize + offset)) =
        bytesFrom mnt file cells pos count := by
    refine map_congr_left fun offset mem => ?_
    have near := mem_range.mp mem
    obtain ⟨number, rest⟩ := @near_position mnt pos offset (by omega)
    have sector := standing.here.sectorOf left
    rw [Int.natCast_zero, Int.add_zero, Nat.add_zero] at sector
    rw [buffer, byteAt, number, rest, sector]
  generalize fatFfcacheread file file.ff.currentsector = loaded at *
  have here : At mnt loaded.ff cells index (pos / mnt.hwsectorsize) := by
    rw [fields]
    exact standing.here.congr rfl rfl rfl
  have pos_eq : loaded.ff.pos = pos := by
    rw [fields]
    exact standing.pos_eq
  have kept : Advances mnt file loaded cells cells := ⟨keeps, by rw [fields], by rw [fields]⟩
  by_cases short : buflen < mnt.hwsectorsize - pos % mnt.hwsectorsize
  · simp only [if_pos short]
    have moved := kept.trans ⟨@keeps_fields mnt loaded cells (loaded.ff.move count) keeps.sound rfl
      rfl rfl rfl rfl, rfl, rfl⟩
    refine ⟨_, Prod.ext read rfl, ⟨moved.sound, clean, move_pos pos_eq fits, ?_⟩, moved,
      congrArg Volume.disk settled⟩
    rw [(@near_position mnt pos count (by omega)).1]
    exact here.congr rfl rfl rfl
  · simp only [if_neg short]
    have moved := kept.trans ⟨@keeps_fields mnt loaded cells ((loaded.ff.advance 1).move count)
      keeps.sound rfl rfl rfl rfl rfl, rfl, rfl⟩
    refine ⟨_, Prod.ext read rfl, ⟨moved.sound, clean, move_pos pos_eq fits, ?_⟩, moved,
      congrArg Volume.disk settled⟩
    rw [@next_sector mnt pos count (by omega)]
    exact (here.advance (by rw [fields]; exact left)).congr rfl rfl rfl

theorem readTurn_spec (left : 1 ≤ file.ff.sectorsincluster) (nonempty : buflen ≠ 0)
    (fits : pos + buflen < 2 ^ 31) :
    ∃ count file', readTurn mnt file buflen = (bytesFrom mnt file cells pos count, file') ∧
      1 ≤ count ∧ count ≤ buflen ∧ Standing mnt file' cells index (pos + count) ∧
      Advances mnt file file' cells cells ∧ file'.settled.disk = file.settled.disk := by
  unfold readTurn
  by_cases direct : mnt.direct file.ff.pos buflen = true
  · rw [if_pos direct]
    obtain ⟨one, aligned⟩ := standing.direct direct
    have upper : min (buflen / mnt.hwsectorsize) file.ff.sectorsincluster * mnt.hwsectorsize ≤
        buflen :=
      Nat.le_trans (Nat.mul_le_mul_right _ (Nat.min_le_left ..)) (Nat.div_mul_le_self ..)
    have lower : 1 ≤ min (buflen / mnt.hwsectorsize) file.ff.sectorsincluster := by omega
    obtain ⟨last, result, done⟩ := @readDirect_spec mnt file cells index pos buflen standing aligned
      _ rfl (by omega)
    exact ⟨_, last, result, Nat.mul_pos lower mnt.sector_pos, upper, done⟩
  · rw [if_neg direct]
    have below := Nat.mod_lt pos mnt.sector_pos
    obtain ⟨last, result, done⟩ := @readCached_spec mnt file cells index pos buflen standing left _
      rfl (by omega)
    exact ⟨_, last, result, by omega, by omega, done⟩

end

theorem cluster_behind (here : At mnt file.ff cells index (pos / mnt.hwsectorsize))
    (ending : file.ff.sectorsincluster = 0) : (index + 1) * mnt.clustersize ≤ pos := by
  have number := here.place_eq
  have product : (index + 1) * mnt.clustersize = pos / mnt.hwsectorsize * mnt.hwsectorsize := by
    rw [clustersize, ← Nat.mul_assoc, Nat.succ_mul]
    congr 1
    omega
  rw [product]
  exact Nat.div_mul_le_self pos mnt.hwsectorsize

/-- Before each turn of `fat_read` a sector is left in the current cluster. -/
theorem readCluster_spec (standing : Standing mnt file cells index pos)
    (inside : pos < cells.length * mnt.clustersize) :
    ∃ file' index', readCluster mnt file = (0, file') ∧ Standing mnt file' cells index' pos ∧
      1 ≤ file'.ff.sectorsincluster ∧ Advances mnt file file' cells cells ∧
      file'.settled.disk = file.settled.disk := by
  unfold readCluster
  by_cases empty : file.ff.sectorsincluster < 1
  · have zero : file.ff.sectorsincluster = 0 := by omega
    have behind := cluster_behind standing.here zero
    have more : index + 1 < cells.length :=
      Nat.lt_of_mul_lt_mul_right (Nat.lt_of_le_of_lt behind inside)
    obtain ⟨next, found⟩ : ∃ next, cells[index + 1]? = some next := ⟨_, getElem?_eq_getElem more⟩
    have chain := standing.sound.chain
    have current := chain.valid _ (mem_of_getElem? standing.here.found)
    have valid := chain.valid next (mem_of_getElem? found)
    have low := valid.1
    have high := valid.2
    have entered := @keeps_fields mnt file cells (file.ff.enter mnt next) standing.sound rfl rfl rfl
      rfl rfl
    rw [if_pos empty]
    simp only [fatGetcluster_of_cluster current, chain.next_eq standing.here.found found]
    rw [if_neg (by omega)]
    refine ⟨_, index + 1, rfl, ⟨entered.sound, standing.clean, standing.pos_eq, ?_⟩,
      mnt.cluster_pos, ⟨entered, rfl, rfl⟩, rfl⟩
    have number := standing.here.place_eq
    rw [show pos / mnt.hwsectorsize = (index + 1) * mnt.fatsecperclus by rw [Nat.succ_mul]; omega]
    exact at_enter mnt file.ff found
  · rw [if_neg empty]
    exact ⟨file, index, rfl, standing, by omega, Advances.refl standing.sound, rfl⟩

/-- The loop of `fat_read`. -/
theorem readLoop_spec (standing : Standing mnt file cells index pos) {fuel : Nat}
    (enough : buflen < fuel) (inside : pos + buflen ≤ cells.length * mnt.clustersize)
    (fits : pos + buflen < 2 ^ 31) :
    ∃ file' index', readLoop mnt fuel file buflen =
        some (0, bytesFrom mnt file cells pos buflen, file') ∧
      Standing mnt file' cells index' (pos + buflen) ∧ Advances mnt file file' cells cells ∧
      file'.settled.disk = file.settled.disk := by
  induction fuel generalizing file index pos buflen with
  | zero => omega
  | succ fuel ih =>
    rw [readLoop]
    by_cases empty : buflen = 0
    · rw [empty]
      exact ⟨file, index, rfl, standing, Advances.refl standing.sound, rfl⟩
    rw [if_neg empty]
    obtain ⟨entered, index', result, there, left, kept, same⟩ :=
      readCluster_spec standing (by omega)
    obtain ⟨count, turned, turn, one, most, behind, kept', same'⟩ :=
      readTurn_spec there left empty fits
    have length : (bytesFrom mnt entered cells pos count).length = count := by
      simp [bytesFrom]
    obtain ⟨last, index'', done, ending, kept'', same''⟩ :=
      @ih turned index' (pos + count) (buflen - count) behind (by omega) (by omega) (by omega)
    have all := (same''.trans same').trans same
    rw [result]
    simp only [lt_self_iff_false, if_false, turn, length, done, Option.map_some]
    refine ⟨last, index'', ?_, ?_, kept.trans (kept'.trans kept''), all⟩
    · rw [bytesFrom_congr (same'.trans same), bytesFrom_congr same, ← bytesFrom_add,
        Nat.add_sub_cancel' most]
    · rw [Nat.add_assoc, Nat.add_sub_cancel' most] at ending
      exact ending

end Reading

section Calls

variable {mnt : Mount} {file : Opened} {cells : List Nat} {pos size : Nat}

/-- The current sector is the one of the position, or it is not set and the current cluster is the
one of the position. -/
def PlacedAt (mnt : Mount) (ff : File) (cells : List Nat) (pos : Nat) : Prop :=
  (ff.currentsector = 0 ∧ (cells = [] ∨ cells[pos / mnt.clustersize]? = some ff.currentcluster)) ∨
    ∃ index, At mnt ff cells index (pos / mnt.hwsectorsize)

/-- An open file between two calls. -/
structure Ready (mnt : Mount) (file : Opened) (cells : List Nat) (pos size : Nat) : Prop where
  sound : Sound mnt file cells
  clean : Clean file
  pos_eq : file.ff.pos = pos
  size_eq : file.ff.size = size
  ordered : pos ≤ size
  bounded : size < 2 ^ 31
  covered : size ≤ cells.length * mnt.clustersize
  placed : PlacedAt mnt file.ff cells pos

theorem number_in_cluster (mnt : Mount) (pos : Nat) :
    pos / mnt.clustersize * mnt.fatsecperclus +
        ((pos : Int).tdiv mnt.hwsectorsize % mnt.fatsecperclus).toNat = pos / mnt.hwsectorsize := by
  have quotient : pos / mnt.clustersize = pos / mnt.hwsectorsize / mnt.fatsecperclus := by
    rw [Nat.div_div_eq_div_mul, clustersize, Nat.mul_comm]
  have remainder : ((pos : Int).tdiv mnt.hwsectorsize % mnt.fatsecperclus).toNat =
      pos / mnt.hwsectorsize % mnt.fatsecperclus := rfl
  rw [quotient, remainder, Nat.mul_comm, Nat.div_add_mod]

theorem currentsector_fields (mnt : Mount) (ff : File) (position : Int) :
    ∃ sector left, (fatCurrentsector mnt ff position).2 = { ff with
      currentsector := sector, sectorsincluster := left } := by
  unfold fatCurrentsector
  split
  · exact ⟨_, _, rfl⟩
  · exact ⟨_, _, rfl⟩

theorem near_cluster {position : Nat}
    (near : position / mnt.hwsectorsize = pos / mnt.hwsectorsize) :
    position / mnt.clustersize = pos / mnt.clustersize := by
  rw [clustersize, Nat.mul_comm, ← Nat.div_div_eq_div_mul, near, Nat.div_div_eq_div_mul]

/-- The current sector is looked up when it is not set, for a position in the sector. -/
theorem Ready.locate (ready : Ready mnt file cells pos size) (unset : file.ff.currentsector = 0)
    (nonempty : cells ≠ []) {position : Nat} (inside : position ≤ size)
    (near : position / mnt.hwsectorsize = pos / mnt.hwsectorsize) :
    (fatCurrentsector mnt file.ff position).1 = 0 ∧
      Standing mnt { file with ff := (fatCurrentsector mnt file.ff position).2 } cells
        (pos / mnt.clustersize) pos ∧
      Advances mnt file { file with ff := (fatCurrentsector mnt file.ff position).2 } cells
        cells ∧
      ({ file with ff := (fatCurrentsector mnt file.ff position).2 } : Opened).settled.disk =
        file.settled.disk := by
  have found : cells[pos / mnt.clustersize]? = some file.ff.currentcluster := by
    rcases ready.placed with ⟨_, empty | found⟩ | ⟨index, here⟩
    · exact absurd empty nonempty
    · exact found
    · have positive := here.sector_pos ready.sound.chain
      omega
  obtain ⟨ok, here⟩ := @currentsector_at mnt cells _ file.ff position found
    (by rw [ready.size_eq]; exact Int.ofNat_le.mpr inside)
  rw [← near_cluster near, number_in_cluster, near, near_cluster near] at here
  obtain ⟨sector, left, fields⟩ := currentsector_fields mnt file.ff position
  rw [fields] at here ⊢
  have keeps := @keeps_fields mnt file cells
    { file.ff with currentsector := sector, sectorsincluster := left } ready.sound rfl rfl rfl rfl
    rfl
  exact ⟨ok, ⟨keeps.sound, ready.clean, ready.pos_eq, here⟩, ⟨keeps, rfl, rfl⟩, rfl⟩

theorem Standing.ready {index : Nat} (standing : Standing mnt file cells index pos)
    (size_eq : file.ff.size = size) (ordered : pos ≤ size) (bounded : size < 2 ^ 31)
    (covered : size ≤ cells.length * mnt.clustersize) : Ready mnt file cells pos size :=
  ⟨standing.sound, standing.clean, standing.pos_eq, size_eq, ordered, bounded, covered,
    .inr ⟨index, standing.here⟩⟩

theorem Ready.stands (ready : Ready mnt file cells pos size) (nonempty : cells ≠ []) :
    ∃ ff index, (if file.ff.currentsector = 0 then fatCurrentsector mnt file.ff file.ff.pos
        else (0, file.ff)) = (0, ff) ∧ Standing mnt { file with ff := ff } cells index pos ∧
      Advances mnt file { file with ff := ff } cells cells ∧
      ({ file with ff := ff } : Opened).settled.disk = file.settled.disk := by
  by_cases unset : file.ff.currentsector = 0
  · rw [if_pos unset, ready.pos_eq]
    obtain ⟨ok, located⟩ := ready.locate unset nonempty ready.ordered rfl
    exact ⟨_, _, Prod.ext ok rfl, located⟩
  · rw [if_neg unset]
    rcases ready.placed with ⟨zero, _⟩ | ⟨index, here⟩
    · exact absurd zero unset
    · exact ⟨_, index, rfl, ⟨ready.sound, ready.clean, ready.pos_eq, here⟩,
        Advances.refl ready.sound, rfl⟩

/-- `fat_read` returns the bytes from the position on, as far as the file goes. -/
theorem fatRead_spec (ready : Ready mnt file cells pos size) (access : file.ff.rdok = true)
    (nonempty : cells ≠ []) {buflen count : Nat} (count_eq : min buflen (size - pos) = count) :
    ∃ file', fatRead mnt file buflen =
        some ((count : Int), bytesFrom mnt file cells pos count, file') ∧
      Ready mnt file' cells (pos + count) size ∧ Advances mnt file file' cells cells ∧
      file'.settled.disk = file.settled.disk := by
  have ordered := ready.ordered
  have bounded := ready.bounded
  have covered := ready.covered
  have rest : toUint (file.ff.size - file.ff.pos) = size - pos := by
    have precise := @toUint_of_nonneg (file.ff.size - file.ff.pos)
    rw [ready.pos_eq, ready.size_eq] at precise ⊢
    omega
  obtain ⟨ff, index, located, standing, kept, same⟩ := ready.stands nonempty
  obtain ⟨last, index', done, ending, kept', same'⟩ :=
    readLoop_spec standing (Nat.lt_succ_self count) (by omega) (by omega)
  have length : (bytesFrom mnt file cells pos count).length = count := by
    simp [bytesFrom]
  unfold fatRead
  rw [if_neg (by rw [access]; decide)]
  simp only [rest, count_eq, located, lt_self_iff_false, if_false]
  rw [done, bytesFrom_congr same, Option.map_some]
  simp only [lt_self_iff_false, if_false, length]
  refine ⟨last, rfl, ending.ready ?_ (by omega) bounded covered, kept.trans kept', same'.trans same⟩
  rw [kept'.size, kept.size]
  exact ready.size_eq

end Calls

end Chewie.Fs.Fat
