import Chewie.Fs.Fat.Sectors

/-!
# File operations stay in their file

Writing, extending and seeking take free clusters for the file and change sectors of the file only,
as long as the place of the file is known: the current sector lies in the current cluster, or it is
not set. A seek behind the end of the file loses the place when the current sector is set, and so
does the first cluster of a file on a full volume.
-/

namespace Chewie.Fs.Fat

open Chains Option List Keeps

section Machine

theorem toOff_of_fits {value : Int} (lower : -2 ^ 31 ≤ value) (upper : value < 2 ^ 31) :
    toOff value = value :=
  Signed.wrap_of_fits lower upper

theorem toUint_of_nonneg {value : Int} (lower : 0 ≤ value) (upper : value < 2 ^ 32) :
    (toUint value : Int) = value := by
  unfold toUint
  omega

theorem toUint_toOff (value : Int) : toUint (toOff value) = toUint value := by
  unfold toUint toOff Signed.wrap
  congr 1
  have same := @Int.bmod_emod value (2 ^ 32)
  exact same

theorem toUint_sub {value : Int} {less : Nat} (ordered : less ≤ toUint value) :
    toUint (value - less) = toUint value - less := by
  unfold toUint at ordered ⊢
  omega

end Machine

section Places

variable {mnt : Mount} {ff ff' : File} {cells : List Nat}

/-- The place of a file is known: the current sector is set and belongs to the current cluster, or
it is not set and the current cluster is one of the file. -/
def Placed (mnt : Mount) (ff : File) (cells : List Nat) : Prop :=
  (ff.currentsector = 0 ∧
    (ff.startcluster = 0 ∨ ∃ index : Nat, cells[index]? = some ff.currentcluster)) ∨
    ∃ index place, At mnt ff cells index place

theorem Placed.congr (placed : Placed mnt ff cells) (start : ff'.startcluster = ff.startcluster)
    (cluster : ff'.currentcluster = ff.currentcluster)
    (left : ff'.sectorsincluster = ff.sectorsincluster)
    (sector : ff'.currentsector = ff.currentsector) : Placed mnt ff' cells := by
  rcases placed with unset | ⟨index, place, here⟩
  · left
    rw [start, cluster, sector]
    exact unset
  · exact .inr ⟨index, place, here.congr cluster left sector⟩

theorem Placed.mono {cells' : List Nat} (placed : Placed mnt ff cells) (longer : cells <+: cells') :
    Placed mnt ff cells' := by
  rcases placed with ⟨unset, chainless | ⟨index, found⟩⟩ | ⟨index, place, here⟩
  · exact .inl ⟨unset, .inl chainless⟩
  · obtain ⟨more, rfl⟩ := longer
    have inside := (List.getElem?_eq_some_iff.mp found).1
    exact .inl ⟨unset, .inr ⟨index, by rw [List.getElem?_append_left inside]; exact found⟩⟩
  · exact .inr ⟨index, place, here.mono longer⟩

end Places

section Writing

variable {mnt : Mount} {file : Opened} {cells : List Nat} {index place : Nat}

theorem writeLoop_keeps (sound : Sound mnt file cells) (here : At mnt file.ff cells index place)
    {fuel : Nat} {data : List UInt8} (enough : data.length < fuel) :
    ∃ ret file' cells', writeLoop mnt fuel file data = some (ret, file') ∧
      Keeps mnt file file' cells cells' ∧ ∃ index place, At mnt file'.ff cells' index place := by
  induction fuel generalizing file cells index place data with
  | zero => omega
  | succ fuel ih =>
    rw [writeLoop]
    by_cases absent : data.length = 0
    · rw [if_pos absent]
      exact ⟨0, file, cells, rfl, refl sound, index, place, here⟩
    rw [if_neg absent]
    rcases writeCluster_keeps sound here with
      ⟨_, _, _, result⟩ | ⟨entered, cells', index', result, keeps, there, left, _, _⟩
    · rw [result]
      exact ⟨-enospc, file, cells, rfl, refl sound, index, place, here⟩
    · rw [result]
      obtain ⟨turned, place', behind⟩ := writeTurn_keeps keeps.sound there left data
      have progress := @writeTurn_pos mnt entered left data absent
      have shorter : (data.drop (writeTurn mnt entered data).1).length < fuel := by
        rw [length_drop]
        omega
      obtain ⟨ret, last, cells'', done, kept, finish⟩ := ih turned.sound behind shorter
      exact ⟨ret, last, cells'', done, keeps.trans (turned.trans kept), finish⟩

/-- The loop of `fat_dirextend`. -/
theorem extendLoop_keeps (sound : Sound mnt file cells) (here : At mnt file.ff cells index place)
    (pos : Int) {fuel remaining : Nat} (enough : remaining < fuel) :
    ∃ ret file' cells', extendLoop mnt fuel file pos remaining = some (ret, file') ∧
      Keeps mnt file file' cells cells' ∧ ∃ index place, At mnt file'.ff cells' index place := by
  induction fuel generalizing file cells index place pos remaining with
  | zero => omega
  | succ fuel ih =>
    rw [extendLoop]
    by_cases absent : remaining = 0
    · rw [if_pos absent]
      exact ⟨0, file, cells, rfl, refl sound, index, place, here⟩
    rw [if_neg absent]
    rcases writeCluster_keeps sound here with
      ⟨_, _, _, result⟩ | ⟨entered, cells', index', result, keeps, there, left, _, _⟩
    · rw [result]
      exact ⟨-enospc, file, cells, rfl, refl sound, index, place, here⟩
    · rw [result]
      have small := sectorindex_lt mnt pos
      obtain ⟨stored, behind⟩ := storeSector_keeps keeps.sound there left
        (mnt.sectorindex pos = 0 ∧ (mnt.hwsectorsize ≤ remaining ∨
          entered.ff.size ≤ pos + remaining)) (mnt.sectorindex pos)
        (replicate (min (mnt.hwsectorsize - mnt.sectorindex pos) remaining) 0)
      obtain ⟨ret, last, cells'', done, kept, finish⟩ := ih stored.sound behind
        (pos + min (mnt.hwsectorsize - mnt.sectorindex pos) remaining)
        (show remaining - min (mnt.hwsectorsize - mnt.sectorindex pos) remaining < fuel by omega)
      exact ⟨ret, last, cells'', done, keeps.trans (stored.trans kept), finish⟩

theorem Sound.clean_of_nil (sound : Sound mnt file []) : ¬ file.ff.dirty = true := by
  intro dirty
  obtain ⟨cluster, mem, _⟩ := (sound.waiting dirty).2
  exact not_mem_nil mem

section

variable (sound : Sound mnt file cells)

include sound

theorem firstCluster_keeps
    (found : file.ff.startcluster = 0 ∨ cells[index]? = some file.ff.currentcluster)
    (room : file.ff.startcluster = 0 → ¬ Full mnt file.fs) :
    ∃ file' cells', firstCluster mnt file = some file' ∧ Keeps mnt file file' cells cells' ∧
      file'.fs.disk = file.fs.disk ∧
      (cells'[index]? = some file'.ff.currentcluster ∨
        file.ff.startcluster = 0 ∧ cells'[0]? = some file'.ff.currentcluster) ∧
      ∃ start cluster left, file'.ff = { file.ff with
        startcluster := start
        currentcluster := cluster
        sectorsincluster := left } := by
  unfold firstCluster
  by_cases chainless : file.ff.startcluster = 0
  · rw [if_pos chainless]
    have absent : cells = [] := Chain.eq_nil (chainless ▸ sound.chain)
    rw [absent] at sound ⊢
    rcases createchain_grows mnt file.fs with
      ⟨full, _⟩ | ⟨new, fs, result, chain, grows, disk⟩
    · exact absurd full (room chainless)
    · refine ⟨{ fs := fs, ff := { file.ff with
          startcluster := new
          currentcluster := new
          sectorsincluster := mnt.fatsecperclus } }, [new], by rw [result]; rfl,
        ⟨⟨chain, fun dirty => absurd dirty sound.clean_of_nil⟩, grows, rfl⟩, disk,
        .inr ⟨chainless, rfl⟩, _, _, _, rfl⟩
  · rw [if_neg chainless]
    exact ⟨file, cells, rfl, refl sound, rfl, .inl (found.resolve_left chainless), _, _, _, rfl⟩

/-- The first sector to write to. -/
theorem firstSector_keeps (placed : Placed mnt file.ff cells)
    (room : file.ff.currentsector = 0 → file.ff.startcluster = 0 → ¬ Full mnt file.fs)
    (position : Int) :
    ∃ ret file' cells', firstSector mnt file position = some (ret, file') ∧
      Keeps mnt file file' cells cells' ∧ Placed mnt file'.ff cells' ∧
      (¬ ret < 0 → ∃ index place, At mnt file'.ff cells' index place) := by
  unfold firstSector
  by_cases known : file.ff.currentsector ≠ 0
  · rw [if_pos known]
    refine ⟨0, file, cells, rfl, refl sound, placed, fun _ => ?_⟩
    rcases placed with ⟨unset, _⟩ | here
    · exact absurd unset known
    · exact here
  rw [if_neg known]
  have unset : file.ff.currentsector = 0 := by omega
  have found : ∃ index : Nat, file.ff.startcluster = 0 ∨
      cells[index]? = some file.ff.currentcluster := by
    rcases placed with ⟨_, chainless | ⟨index, found⟩⟩ | ⟨index, place, here⟩
    · exact ⟨0, .inl chainless⟩
    · exact ⟨index, .inr found⟩
    · exact ⟨index, .inr here.found⟩
  obtain ⟨index, found⟩ := found
  obtain ⟨first, cells', result, keeps, _, there, start, cluster, left, fields⟩ :=
    firstCluster_keeps sound found (room unset)
  have somewhere : ∃ index : Nat, cells'[index]? = some first.ff.currentcluster := by
    rcases there with found | ⟨_, found⟩
    · exact ⟨index, found⟩
    · exact ⟨0, found⟩
  obtain ⟨index', found'⟩ := somewhere
  rw [result]
  refine ⟨(fatCurrentsector mnt first.ff position).1,
    { first with ff := (fatCurrentsector mnt first.ff position).2 }, cells', rfl, ?_⟩
  by_cases inside : position ≤ first.ff.size
  · obtain ⟨ok, here⟩ := @currentsector_at mnt cells' index' first.ff position found' inside
    refine ⟨keeps.trans ?_, .inr ⟨index', _, here⟩, fun _ => ⟨index', _, here⟩⟩
    simp only [fatCurrentsector, if_pos inside]
    exact keeps_fields keeps.sound rfl rfl rfl rfl rfl
  · simp only [fatCurrentsector, if_neg inside]
    exact ⟨keeps, .inl ⟨by rw [fields]; exact unset, .inr ⟨index', found'⟩⟩,
      fun ok => absurd (by decide) ok⟩

theorem fatWrite_keeps (placed : file.ff.wrok = true → Placed mnt file.ff cells)
    (room : file.ff.wrok = true → file.ff.currentsector = 0 → file.ff.startcluster = 0 → ¬ Full mnt
      file.fs) (data : List UInt8) :
    ∃ ret file' cells', fatWrite mnt file data = some (ret, file') ∧
      Keeps mnt file file' cells cells' ∧ (file'.ff.wrok = true → Placed mnt file'.ff cells') := by
  unfold fatWrite
  by_cases denied : (!file.ff.wrok) = true
  · rw [if_pos denied]
    exact ⟨_, file, cells, rfl, refl sound, placed⟩
  rw [if_neg denied]
  by_cases large : toUint (file.ff.size + data.length) < toUint file.ff.size
  · rw [if_pos large]
    exact ⟨_, file, cells, rfl, refl sound, placed⟩
  rw [if_neg large]
  have access : file.ff.wrok = true := by simpa using denied
  obtain ⟨ret, first, cells', result, keeps, kept, here⟩ :=
    firstSector_keeps sound (placed access) (room access) file.ff.pos
  rw [result, bind_some]
  by_cases failed : ret < 0
  · simp only [if_pos failed]
    exact ⟨_, first, cells', rfl, keeps, fun _ => kept⟩
  simp only [if_neg failed]
  obtain ⟨index, place, there⟩ := here failed
  obtain ⟨ret, last, cells'', done, kept, index', place', finish⟩ :=
    writeLoop_keeps keeps.sound there (Nat.lt_succ_self data.length)
  rw [done, map_some]
  by_cases failed : ret < 0
  · simp only [if_pos failed]
    exact ⟨_, _, cells'', rfl, keeps.trans kept, fun _ => .inr ⟨index', place', finish⟩⟩
  simp only [if_neg failed]
  by_cases longer : last.ff.size < last.ff.pos
  · rw [if_pos longer]
    exact ⟨_, _, cells'', rfl,
      keeps.trans (kept.trans (keeps_fields kept.sound rfl rfl rfl rfl rfl)),
      fun _ => .inr ⟨index', place', finish.congr rfl rfl rfl⟩⟩
  · rw [if_neg longer]
    exact ⟨_, _, cells'', rfl, keeps.trans kept, fun _ => .inr ⟨index', place', finish⟩⟩

theorem fatDirextend_keeps (placed : Placed mnt file.ff cells)
    (room : file.ff.currentsector = 0 → file.ff.startcluster = 0 → ¬ Full mnt file.fs)
    (length : Int) :
    ∃ ret file' cells', fatDirextend mnt file length = some (ret, file') ∧
      Keeps mnt file file' cells cells' ∧ Placed mnt file'.ff cells' := by
  unfold fatDirextend
  obtain ⟨ret, first, cells', result, keeps, kept, here⟩ :=
    firstSector_keeps sound placed room file.ff.size
  simp only []
  rw [result, bind_some]
  by_cases failed : ret < 0
  · simp only [if_pos failed]
    exact ⟨_, first, cells', rfl, keeps, kept⟩
  simp only [if_neg failed]
  obtain ⟨index, place, there⟩ := here failed
  obtain ⟨ret, last, cells'', done, kept, index', place', finish⟩ :=
    extendLoop_keeps keeps.sound there file.ff.size
      (Nat.lt_succ_self (length - file.ff.size).toNat)
  rw [done, map_some]
  by_cases failed : ret < 0
  · simp only [if_pos failed]
    exact ⟨_, _, cells'', rfl, keeps.trans kept, .inr ⟨index', place', finish⟩⟩
  · simp only [if_neg failed]
    exact ⟨_, _, cells'', rfl,
      keeps.trans (kept.trans (keeps_fields kept.sound rfl rfl rfl rfl rfl)),
      .inr ⟨index', place', finish.congr rfl rfl rfl⟩⟩

end

end Writing

section Seeking

variable {mnt : Mount} {file : Opened} {cells : List Nat} {index cluster : Nat} {position : Int}

theorem clustersize_pos (mnt : Mount) : 0 < mnt.clustersize :=
  Nat.mul_pos mnt.cluster_pos mnt.sector_pos

/-- How far the loop of `fat_seek` has come when it leaves the rest `position'` of the position. It
stops early where the chain ends and is not extended. -/
def Walked (mnt : Mount) (file file' : Opened) (cells' : List Nat) (index index' : Nat)
    (position ret position' : Int) : Prop :=
  file'.ff.pos + index * mnt.clustersize = file.ff.pos + index' * mnt.clustersize ∧
    ((ret = 0 ∧ 0 ≤ position' ∧ position' < mnt.clustersize ∧
        file'.ff.pos + position' = file.ff.pos + position) ∨
      (file.ff.wrok = true → Full mnt file'.fs) ∧ cells'.length = index' + 1 ∧
        mnt.clustersize ≤ position' ∧ file'.ff.pos + position' ≤ file.ff.pos + position)

section

variable (sound : Sound mnt file cells)

include sound

/-- The cluster behind one of the file is there, or is added to the chain. Otherwise the chain ends,
on a full volume or because the file can only be read. -/
theorem seekCluster_spec (found : cells[index]? = some cluster) :
    (∃ (next : Nat) (fs : Volume) (cells' : List Nat),
      seekCluster mnt file cluster = some ((next : Int), { file with fs := fs }) ∧
        Chain mnt fs file.ff.startcluster cells' ∧ Grows mnt file.fs fs cells cells' ∧
        fs.disk = file.fs.disk ∧ cells'[index + 1]? = some next ∧
        (file.ff.wrok = false → cells' = cells)) ∨
      cells[index + 1]? = none ∧
        (Full mnt file.fs ∧ seekCluster mnt file cluster = some (0, file) ∨
          file.ff.wrok = false ∧ ∃ mark : Nat, mnt.nclusters ≤ mark ∧
            seekCluster mnt file cluster = some ((mark : Int), file)) := by
  unfold seekCluster
  cases access : file.ff.wrok with
  | true =>
    rcases extendchain_grows sound.chain found with
      ⟨full, finish, result⟩ | ⟨next, fs, cells', result, chain, grows, disk, behind, _⟩
    · exact .inr ⟨finish, .inl ⟨full, by rw [result]; rfl⟩⟩
    · exact .inl ⟨next, fs, cells', by rw [result]; rfl, chain, grows, disk, behind,
        fun never => by cases never⟩
  | false =>
    have valid := sound.chain.valid cluster (mem_of_getElem? found)
    rw [fatGetcluster_of_cluster valid]
    cases behind : cells[index + 1]? with
    | some next =>
      rw [sound.chain.next_eq found behind]
      exact .inl ⟨next, file.fs, cells, rfl, sound.chain, Grows.refl .., rfl, behind, fun _ => rfl⟩
    | none =>
      exact .inr ⟨rfl, .inr ⟨rfl, _, (sound.chain.next_stop found behind).ge, rfl⟩⟩

/-- The loop of `fat_seek` walks along the chain, which it extends when the file can be written. A
position in range is reached unless the chain ends before it. -/
theorem seekLoop_spec (found : cells[index]? = some cluster) {fuel : Nat}
    (enough : toUint position / mnt.clustersize < fuel) :
    ∃ ret position' file' cells' index',
      seekLoop mnt fuel file position cluster = some (ret, position', file') ∧
        Keeps mnt file file' cells cells' ∧ file'.fs.disk = file.fs.disk ∧
        cells'[index']? = some file'.ff.currentcluster ∧
        (∃ pos current, file'.ff = { file.ff with pos := pos, currentcluster := current }) ∧
        (file.ff.wrok = true → ret = 0) ∧ (file.ff.wrok = false → cells' = cells) ∧
        (0 ≤ file.ff.pos → 0 ≤ position → file.ff.pos + position < 2 ^ 31 →
          Walked mnt file file' cells' index index' position ret position') := by
  induction fuel generalizing file cells index cluster position with
  | zero => exact absurd enough (Nat.not_lt_zero _)
  | succ fuel ih =>
    have moved : Keeps mnt file { file with ff := { file.ff with currentcluster := cluster } } cells
        cells := keeps_fields sound rfl rfl rfl rfl rfl
    rw [seekLoop]
    by_cases inside : toUint position < mnt.clustersize
    · rw [if_pos inside]
      refine ⟨0, position, _, cells, index, rfl, moved, rfl, found, ⟨_, _, rfl⟩, fun _ => rfl,
        fun _ => rfl, fun _ low high => ⟨rfl, .inl ⟨rfl, low, ?_, rfl⟩⟩⟩
      have precise := toUint_of_nonneg low (by omega)
      omega
    rw [if_neg inside]
    have precise : 0 ≤ file.ff.pos → 0 ≤ position → file.ff.pos + position < 2 ^ 31 →
        (mnt.clustersize : Int) ≤ position := fun start low high => by
      have value := toUint_of_nonneg low (by omega)
      omega
    rcases seekCluster_spec moved.sound found with
      ⟨next, fs, cells', result, chain, grows, disk, behind, fixed⟩ | ⟨finish, ending⟩
    · have valid := chain.valid next (mem_of_getElem? behind)
      have low := valid.1
      have high := valid.2
      rw [result, bind_some]
      simp only []
      rw [if_neg (by omega), if_neg (by omega), if_neg (by omega)]
      have kept := keeps_grown
        (({ file.ff with currentcluster := cluster } : File).move mnt.clustersize) sound chain
        grows rfl rfl rfl rfl
      have closer : toUint (toOff (position - mnt.clustersize)) / mnt.clustersize < fuel := by
        rw [toUint_toOff, toUint_sub (Nat.le_of_not_lt inside)]
        have fewer := Nat.sub_mul_div (toUint position) mnt.clustersize 1
        rw [Nat.mul_one] at fewer
        have more : 1 ≤ toUint position / mnt.clustersize :=
          (Nat.one_le_div_iff (clustersize_pos mnt)).mpr (Nat.le_of_not_lt inside)
        omega
      obtain ⟨ret, position', file', cells'', index', done, keeps, same, place, fields, ok,
        fixed', walked⟩ := ih kept.sound behind closer
      refine ⟨ret, position', file', cells'', index', done, kept.trans keeps, same.trans disk,
        place, fields, ok, fun access => (fixed' access).trans (fixed access),
        fun start rest total => ?_⟩
      have wrapped : toOff (file.ff.pos + mnt.clustersize) = file.ff.pos + mnt.clustersize :=
        toOff_of_fits (by omega) (by omega)
      have advanced : (File.move { file.ff with currentcluster := cluster } mnt.clustersize).pos =
          file.ff.pos + mnt.clustersize := wrapped
      have shorter : toOff (position - mnt.clustersize) = position - mnt.clustersize :=
        toOff_of_fits (by omega) (by omega)
      obtain ⟨sum, ending⟩ := walked (by rw [advanced]; omega) (by rw [shorter]; omega)
        (by rw [advanced, shorter]; omega)
      rw [advanced, Int.natCast_add, Int.add_mul] at sum
      rw [advanced] at ending
      refine ⟨by omega, ?_⟩
      rcases ending with ⟨ok, low, inside, total⟩ | ⟨full, last, rest, total⟩
      · exact .inl ⟨ok, low, inside, by omega⟩
      · exact .inr ⟨full, last, rest, by omega⟩
    · have last : cells.length = index + 1 := by
        have upper := List.getElem?_eq_none_iff.mp finish
        have lower := (List.getElem?_eq_some_iff.mp found).1
        omega
      rcases ending with ⟨full, result⟩ | ⟨access, mark, high, result⟩
      · rw [result]
        refine ⟨0, mnt.clustersize, _, cells, index, rfl, moved, rfl, found, ⟨_, _, rfl⟩,
          fun _ => rfl, fun _ => rfl, fun start low total =>
            ⟨rfl, .inr ⟨fun _ => full, last, by omega, ?_⟩⟩⟩
        change file.ff.pos + _ ≤ _
        omega
      · have two := mnt.two_lt_nclusters
        rw [result, bind_some]
        simp only []
        rw [if_neg (by omega), if_neg (by omega), if_pos (by omega)]
        have never : ¬ file.ff.wrok = true := ne_true_of_eq_false access
        exact ⟨-enospc, position, _, cells, index, rfl, moved, rfl, found, ⟨_, _, rfl⟩,
          fun write => absurd write never, fun _ => rfl, fun start low total =>
            ⟨rfl, .inr ⟨fun write => absurd write never, last, precise start low total,
              Int.le_refl _⟩⟩⟩

theorem cacheread_fields (sector : Int) :
    ∃ dirty buffer cached valid, (fatFfcacheread file sector).ff = { file.ff with
      dirty := dirty, buffer := buffer, cachesector := cached, valid := valid } := by
  rw [fatFfcacheread_eq sound]
  split
  · exact ⟨_, _, _, _, rfl⟩
  · exact ⟨_, _, _, _, rfl⟩

theorem seekLocate_keeps (position : Int) :
    Keeps mnt file (seekLocate mnt file position) cells cells := by
  unfold seekLocate fatCurrentsector
  simp only []
  split <;> exact keeps_fields sound rfl rfl rfl rfl rfl

end

theorem seekLocate_placed (found : cells[index]? = some file.ff.currentcluster)
    (known : file.ff.currentsector = 0 ∨ toOff (file.ff.pos + position) ≤ file.ff.size) :
    Placed mnt (seekLocate mnt file position).ff cells := by
  by_cases inside : toOff (file.ff.pos + position) ≤ file.ff.size
  · have here := (@currentsector_at mnt cells index
      { file.ff with pos := toOff (file.ff.pos + position) } _ found inside).2
    exact .inr ⟨index, _, here⟩
  · simp only [seekLocate, fatCurrentsector, if_neg inside]
    exact .inl ⟨known.resolve_right inside, .inr ⟨index, found⟩⟩

theorem seekSector_keeps (sound : Sound mnt file cells) (position : Int) :
    Keeps mnt file (seekSector mnt file position) cells cells := by
  have located := seekLocate_keeps sound position
  unfold seekSector
  split
  · exact located.trans (keeps_cacheread located.sound _)
  · exact located

theorem seekSector_placed (sound : Sound mnt file cells)
    (placed : Placed mnt (seekLocate mnt file position).ff cells) :
    Placed mnt (seekSector mnt file position).ff cells := by
  unfold seekSector
  split
  · obtain ⟨_, _, _, _, fields⟩ := cacheread_fields (seekLocate_keeps sound position).sound
      (seekLocate mnt file position).ff.currentsector
    rw [fields]
    exact placed.congr rfl rfl rfl rfl
  · exact placed

theorem seekSize_keeps (sound : Sound mnt file cells) :
    Keeps mnt file (seekSize file) cells cells := by
  unfold seekSize
  split
  · exact keeps_fields sound rfl rfl rfl rfl rfl
  · exact refl sound

theorem seekSize_placed (placed : Placed mnt file.ff cells) :
    Placed mnt (seekSize file).ff cells := by
  unfold seekSize
  split
  · exact placed.congr rfl rfl rfl rfl
  · exact placed

section

variable (sound : Sound mnt file cells)

include sound

/-- The chain of a file is created for a position behind the start, unless the volume is full. -/
theorem seekStart_keeps (position : Int) :
    ∃ file' cells', seekStart mnt file position = some file' ∧ Keeps mnt file file' cells cells' ∧
      file'.fs.disk = file.fs.disk ∧ (∃ start, file'.ff = { file.ff with startcluster := start }) ∧
      (file.ff.startcluster ≠ 0 → cells' = cells) ∧
      (file'.ff.startcluster = 0 → file.ff.startcluster = 0 ∧
        (0 < position → Full mnt file.fs)) := by
  unfold seekStart
  by_cases create : file.ff.startcluster = 0 ∧ 0 < position
  · rw [if_pos create]
    have absent : cells = [] := Chain.eq_nil (create.1 ▸ sound.chain)
    rw [absent] at sound ⊢
    rcases createchain_grows mnt file.fs with ⟨full, result⟩ | ⟨new, fs, result, chain, grows, disk⟩
    · refine ⟨file, [], ?_, refl sound, rfl, ⟨_, rfl⟩, fun _ => rfl,
        fun chainless => ⟨chainless, fun _ => full⟩⟩
      rw [result, map_some]
      simp only [Int.toNat_zero, ← create.1]
    · refine ⟨{ fs := fs, ff := { file.ff with startcluster := new } }, [new], by rw [result]; rfl,
        keeps_grown _ sound chain grows rfl rfl rfl rfl, disk, ⟨_, rfl⟩,
        fun stored => absurd create.1 stored, fun chainless => ?_⟩
      have low := (chain.valid new (mem_singleton_self new)).1
      change new = 0 at chainless
      omega
  · rw [if_neg create]
    exact ⟨file, cells, rfl, refl sound, rfl, ⟨_, rfl⟩, fun _ => rfl, fun chainless =>
      ⟨chainless, fun behind => absurd ⟨chainless, behind⟩ create⟩⟩

theorem seekBegin_eq :
    seekBegin mnt file = { fs := file.settled, ff := { file.ff with
      dirty := false, pos := 0, sectorsincluster := mnt.fatsecperclus } } := by
  unfold seekBegin
  rw [fatFfcacheflush_eq sound]

theorem seekBegin_keeps : Keeps mnt file (seekBegin mnt file) cells cells := by
  rw [seekBegin_eq sound]
  exact keeps_settled sound rfl (fun dirty => by cases dirty) rfl

/-- `fat_seek` to another sector. With write access the place is known behind it, as far as it was
not set or the position is in the file. -/
theorem seekAway_keeps (placed : file.ff.wrok = true → Placed mnt file.ff cells)
    (known : file.ff.wrok = true → file.ff.currentsector = 0 ∨
      0 ≤ position ∧ position ≤ file.ff.size ∧ position < 2 ^ 31) :
    ∃ ret file' cells', seekAway mnt file position = some (ret, file') ∧
      Keeps mnt file file' cells cells' ∧
      (file.ff.wrok = true → ret = 0 ∧ Placed mnt file'.ff cells') := by
  have begun := seekBegin_keeps sound
  have started := seekBegin_eq sound
  have limit : file.ff.wrok = true → seekLimit (seekBegin mnt file).ff position = position := by
    intro access
    rw [started]
    exact if_neg fun limited => by simp [access] at limited
  unfold seekAway
  simp only []
  generalize seekLimit (seekBegin mnt file).ff position = target at limit ⊢
  obtain ⟨first, cells', result, keeps, _, ⟨start, fields⟩, _, empty⟩ :=
    seekStart_keeps begun.sound target
  rw [started] at fields
  rw [result, bind_some]
  by_cases chainless : first.ff.startcluster = 0
  · rw [if_pos chainless]
    refine ⟨0, _, cells', rfl, begun.trans (keeps.trans (seekSize_keeps keeps.sound)),
      fun access => ⟨rfl, seekSize_placed (.inl ⟨?_, .inl chainless⟩)⟩⟩
    have before := (empty chainless).1
    rw [started] at before
    rw [fields]
    rcases placed access with ⟨unset, _⟩ | ⟨index, place, here⟩
    · exact unset
    · have absent : cells = [] := Chain.eq_nil (before ▸ sound.chain)
      have found := here.found
      rw [absent] at found
      cases found
  · rw [if_neg chainless]
    have head := keeps.sound.chain.head (keeps.sound.chain.ne_nil chainless)
    obtain ⟨ret, rest, last, cells'', index', done, kept, _, found, ⟨pos, current, after⟩, ok, _,
      walked⟩ := seekLoop_spec keeps.sound head (Nat.lt_succ_self _)
    rw [done, map_some]
    by_cases failed : ret < 0
    · simp only [if_pos failed]
      refine ⟨ret, last, cells'', rfl, begun.trans (keeps.trans kept), fun access => ?_⟩
      have zero := ok (keeps.wrok.trans (begun.wrok.trans access))
      omega
    simp only [if_neg failed]
    have loaded := seekSector_keeps kept.sound rest
    refine ⟨0, _, cells'', rfl, begun.trans (keeps.trans (kept.trans
      (loaded.trans (seekSize_keeps loaded.sound)))), fun access =>
      ⟨rfl, seekSize_placed (seekSector_placed kept.sound (seekLocate_placed found ?_))⟩⟩
    rcases known access with unset | ⟨low, high, fits⟩
    · left
      rw [after, fields]
      exact unset
    right
    have zero : first.ff.pos = 0 := by rw [fields]
    have size : last.ff.size = file.ff.size := by rw [after, fields]
    have same := limit access
    obtain ⟨sum, ending⟩ := walked (by omega) (by omega) (by omega)
    have multiple : 0 ≤ (index' : Int) * mnt.clustersize :=
      Int.mul_nonneg (Int.natCast_nonneg _) (Int.natCast_nonneg _)
    rw [toOff_of_fits (by omega) (by omega)]
    omega

end

/-- A seek to this position keeps the place: it stays in the current sector, the file cannot be
written, the current sector is not set, or the position is in the file. -/
def SeekPlaced (mnt : Mount) (ff : File) (position : Int) : Prop :=
  position.tdiv mnt.hwsectorsize = ff.pos.tdiv mnt.hwsectorsize ∨ ff.wrok = false ∨
    ff.currentsector = 0 ∨ 0 ≤ position ∧ position ≤ ff.size ∧ position < 2 ^ 31

instance decidableSeekPlaced (mnt : Mount) (ff : File) (position : Int) :
    Decidable (SeekPlaced mnt ff position) :=
  inferInstanceAs (Decidable (_ ∨ _ ∨ _ ∨ _ ∧ _ ∧ _))

theorem fatSeek_to (sound : Sound mnt file cells)
    (placed : file.ff.wrok = true → Placed mnt file.ff cells) {offset : Int} {whence : Whence}
    (target : seekPosition file.ff offset whence = some position)
    (fits : SeekPlaced mnt file.ff position) :
    ∃ ret file' cells', fatSeek mnt file offset whence = some (ret, file') ∧
      Keeps mnt file file' cells cells' ∧
      (file.ff.wrok = true → ret = 0 ∧ Placed mnt file'.ff cells') := by
  unfold fatSeek
  rw [target]
  simp only []
  by_cases near : position.tdiv mnt.hwsectorsize = file.ff.pos.tdiv mnt.hwsectorsize
  · rw [if_pos near]
    exact ⟨0, _, cells, rfl, keeps_fields sound rfl rfl rfl rfl rfl,
      fun access => ⟨rfl, (placed access).congr rfl rfl rfl rfl⟩⟩
  · rw [if_neg near]
    refine seekAway_keeps sound placed fun access => ?_
    have known := fits.resolve_left near
    rw [access] at known
    exact known.resolve_left (by decide)

end Seeking

end Chewie.Fs.Fat
