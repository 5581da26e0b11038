import Chewie.Fs.Fat.Access

/-!
# Setting the length of a file

`fat_truncate` sets the length of a file that is open for writing. It extends the file from the
current sector, which is the one of the position, and leaves the current sector behind the zeros:
the position and the new length have to be in one sector. It must not remove clusters. A position
behind the new length is found again only when the current sector is set.
-/

namespace Chewie.Fs.Fat

open Chains Run Trace Option List

section Statement

variable (mnt : Mount)

/-- The lengths that `fat_truncate` can set: no cluster is removed, the position is found again, and
the file is extended within the sector of the position. -/
def LengthFits (file : Opened) (entry : Entry) (length : Int) : Prop :=
  0 ≤ length ∧ TruncateKeeps mnt file.fs file.ff entry length ∧
    (file.ff.pos ≤ length ∨ file.ff.currentsector ≠ 0) ∧
    (file.ff.size < length → length.tdiv mnt.hwsectorsize = file.ff.pos.tdiv mnt.hwsectorsize)

instance decidableLengthFits (file : Opened) (entry : Entry) (length : Int) :
    Decidable (LengthFits mnt file entry length) :=
  inferInstanceAs (Decidable (_ ∧ _ ∧ (_ ∨ _) ∧ (_ → _)))

/-- The length of the file was set: bytes behind the old end are zero, the others and the position
are kept, and the next write stores its bytes at the position. -/
structure Truncated (file file' : Opened) (length : Int) : Prop where
  size : file'.ff.size = length
  pos : file'.ff.pos = file.ff.pos
  kept : ∀ position : Nat, position < length → position < (file.contents mnt).size →
    (file'.contents mnt).byte position = (file.contents mnt).byte position
  zeros : ∀ position : Nat, (file.contents mnt).size ≤ position → position < length →
    (file'.contents mnt).byte position = 0
  lands : ∀ data : List UInt8, file'.HasRoom mnt (file'.ff.pos + data.length) →
    ∃ final, fatWrite mnt file' data = some ((data.length : Int), final) ∧
      ∀ offset byte, data[offset]? = some byte →
        (final.contents mnt).byte ((file.contents mnt).pos + offset) = byte

end Statement

section Landing

variable {mnt : Mount} {file : Opened} {cells : List Nat} {pos size : Nat}

/-- A write at the position finds its sector, although the position may be behind the end. -/
structure Landing (mnt : Mount) (file : Opened) (cells : List Nat) (pos size : Nat) : Prop where
  sound : Sound mnt file cells
  clean : Clean file
  pos_eq : file.ff.pos = pos
  size_eq : file.ff.size = size
  bounded : size < 2 ^ 31
  covered : size ≤ cells.length * mnt.clustersize
  inside : pos ≤ cells.length * mnt.clustersize
  placed : PlacedAt mnt file.ff cells pos
  known : pos ≤ size ∨ file.ff.currentsector ≠ 0

theorem Ready.landing (ready : Ready mnt file cells pos size) : Landing mnt file cells pos size :=
  ⟨ready.sound, ready.clean, ready.pos_eq, ready.size_eq, ready.bounded, ready.covered,
    Nat.le_trans ready.ordered ready.covered, ready.placed, .inl ready.ordered⟩

theorem Landing.firstSector (landing : Landing mnt file cells pos size)
    (room : 0 < cells.length + (freeClusters mnt file.fs).length) :
    ∃ file' cells' index, Fat.firstSector mnt file pos = some (0, file') ∧
      Standing mnt file' cells' index pos ∧ Advances mnt file file' cells cells' ∧
      file'.settled.disk = file.settled.disk := by
  by_cases set : file.ff.currentsector ≠ 0
  · rcases landing.placed with ⟨unset, _⟩ | ⟨index, here⟩
    · exact absurd unset set
    · exact ⟨file, cells, index, if_pos set,
        ⟨landing.sound, landing.clean, landing.pos_eq, here⟩, Advances.refl landing.sound, rfl⟩
  · have ordered := landing.known.resolve_right set
    have ready : Ready mnt file cells pos size := ⟨landing.sound, landing.clean, landing.pos_eq,
      landing.size_eq, ordered, landing.bounded, landing.covered, landing.placed⟩
    exact firstSector_spec ready room ordered rfl

theorem Landing.lands (landing : Landing mnt file cells pos size) (access : file.ff.wrok = true)
    {data : List UInt8} (room : file.HasRoom mnt (file.ff.pos + data.length)) :
    ∃ final, fatWrite mnt file data = some ((data.length : Int), final) ∧
      ∀ offset byte, data[offset]? = some byte →
        (final.contents mnt).byte (pos + offset) = byte := by
  obtain ⟨fits, enough⟩ := room
  rw [landing.pos_eq] at fits
  rw [landing.pos_eq, Opened.clusters, landing.sound.chain.clustersOf_eq] at enough
  obtain ⟨first, cells', index, result, standing, kept, same⟩ :=
    landing.firstSector (Nat.zero_lt_of_lt enough)
  obtain ⟨final, cells'', done, ready, _, _, written⟩ := @fatWrite_from mnt file cells index pos
    size data first cells' access landing.pos_eq landing.size_eq landing.bounded landing.covered
    landing.inside result standing kept same (by omega) enough
  refine ⟨final, done, ?_⟩
  rw [ready.contents_eq]
  exact written.stored

end Landing

section Extending

variable {mnt : Mount} {file : Opened} {cells : List Nat} {pos size length : Nat}

/-- `fat_dirextend` within the sector of the position. -/
theorem fatDirextend_spec (ready : Ready mnt file cells pos size) (longer : size < length)
    (near : length / mnt.hwsectorsize = pos / mnt.hwsectorsize) (fits : length < 2 ^ 31)
    (room : length / mnt.clustersize < cells.length + (freeClusters mnt file.fs).length) :
    ∃ file' cells', fatDirextend mnt file length = some (0, file') ∧
      Ready mnt file' cells' pos length ∧ Keeps mnt file file' cells cells' ∧
      Written mnt file file' cells cells' size (replicate (length - size) 0) size := by
  have ordered := ready.ordered
  have covered := ready.covered
  -- The end of the file and the new length are in the sector of the position.
  have number : size / mnt.hwsectorsize = pos / mnt.hwsectorsize := by
    have low : pos / mnt.hwsectorsize ≤ size / mnt.hwsectorsize := Nat.div_le_div_right ordered
    have high : size / mnt.hwsectorsize ≤ length / mnt.hwsectorsize :=
      Nat.div_le_div_right (Nat.le_of_lt longer)
    omega
  have short : size % mnt.hwsectorsize + (length - size) < mnt.hwsectorsize := by
    have split := Nat.div_add_mod size mnt.hwsectorsize
    have split' := Nat.div_add_mod length mnt.hwsectorsize
    have below := Nat.mod_lt length mnt.sector_pos
    rw [number] at split
    rw [near] at split'
    omega
  have room' : pos / mnt.clustersize < cells.length + (freeClusters mnt file.fs).length := by
    have below : pos / mnt.clustersize ≤ length / mnt.clustersize := Nat.div_le_div_right (by omega)
    omega
  obtain ⟨first, cells', index, result, standing, kept, same⟩ :=
    @firstSector_spec mnt file cells pos size ready (Nat.zero_lt_of_lt room') size
      (Nat.le_refl size) number
  obtain ⟨entered, cells'', index', step, there, left, kept', same'⟩ :=
    writeCluster_spec standing (by rw [kept.grows.room]; exact room')
  have both := kept.trans kept'
  have stays := both.grows.links.stays
  have wider : cells.length * mnt.clustersize ≤ cells''.length * mnt.clustersize :=
    Nat.mul_le_mul_right _ stays.length_le
  have count : min (mnt.hwsectorsize - size % mnt.hwsectorsize) (length - size) =
      length - size := by omega
  have here : At mnt entered.ff cells'' index' (size / mnt.hwsectorsize) := by
    rw [number]
    exact there.here
  obtain ⟨replaced, replaced_eq⟩ : ∃ replaced : Bool, replaced =
      decide (size % mnt.hwsectorsize = 0 ∧ (mnt.hwsectorsize ≤ length - size ∨
        entered.ff.size ≤ (size : Int) + (length - size : Nat))) := ⟨_, rfl⟩
  have zeros : (replicate (length - size) (0 : UInt8)).length = length - size := length_replicate
  have written := @storeSector_written mnt entered cells'' index' size size there.sound there.clean
    here left replaced (replicate (length - size) 0) (by omega) (by omega) (by omega)
    (fun blind => by
      rw [replaced_eq, decide_eq_true_eq] at blind
      exact ⟨blind.1, .inr (by omega)⟩)
  obtain ⟨stored, behind⟩ := storeSector_keeps there.sound here left replaced
    (size % mnt.hwsectorsize) (replicate (length - size) 0)
  obtain ⟨pos_eq, _, _⟩ := @storeSector_fields mnt entered cells'' there.sound replaced
    (size % mnt.hwsectorsize) (replicate (length - size) 0)
  have dirty : (storeSector mnt entered replaced (size % mnt.hwsectorsize)
    (replicate (length - size) 0)).ff.dirty = true := rfl
  have done : fatDirextend mnt file length = some (0,
      { storeSector mnt entered replaced (size % mnt.hwsectorsize)
          (replicate (length - size) 0) with
        ff := { (storeSector mnt entered replaced (size % mnt.hwsectorsize)
          (replicate (length - size) 0)).ff with size := length } }) := by
    have remaining : ((length : Int) - size).toNat = length - size := by omega
    obtain ⟨fuel, fuel_eq⟩ : ∃ fuel, length - size = fuel + 1 := ⟨length - size - 1, by omega⟩
    unfold fatDirextend
    simp only []
    rw [ready.size_eq, result, bind_some]
    simp only [lt_self_iff_false, if_false]
    rw [remaining, extendLoop, if_neg (by omega), step, bind_some]
    simp only [lt_self_iff_false, if_false, sectorindex_natCast, count, ← replaced_eq, Nat.sub_self]
    rw [fuel_eq]
    rfl
  rw [if_pos (by rw [zeros]; exact short), number] at behind
  generalize storeSector mnt entered replaced (size % mnt.hwsectorsize)
    (replicate (length - size) 0) = final at *
  have moved := @keeps_fields mnt final cells'' { final.ff with size := length } stored.sound rfl
    rfl rfl rfl rfl
  have clean : Clean { final with ff := { final.ff with size := length } } := by
    intro _ waits
    rw [dirty] at waits
    cases waits
  have covers := there.covers left
  refine ⟨_, cells'', done, ⟨moved.sound, clean, ?_, rfl, by omega, fits, ?_, .inr ⟨index', ?_⟩⟩,
    both.toKeeps.trans (stored.trans moved), ?_⟩
  · exact pos_eq.trans there.pos_eq
  · have split := Nat.div_add_mod length mnt.hwsectorsize
    have below := Nat.mod_lt length mnt.sector_pos
    rw [near, Nat.mul_comm] at split
    rw [Nat.succ_mul] at covers
    omega
  · exact behind.congr rfl rfl rfl
  · have grown := @written_nil mnt file entered cells cells'' size size stays (same'.trans same)
      covered covered
    exact grown.append ⟨written.before, written.stored, written.behind⟩

end Extending

section Truncating

variable {mnt : Mount} {file : Opened} {cells : List Nat} {pos size length : Nat} {entry : Entry}

theorem Landing.contents_eq (landing : Landing mnt file cells pos size) :
    file.contents mnt = ⟨size, pos, byteAt mnt file cells⟩ := by
  simp only [Opened.contents, Opened.clusters, landing.sound.chain.clustersOf_eq, landing.pos_eq,
    landing.size_eq, Int.toNat_natCast]

/-- The size is set, and nothing else changes but the search position of the volume. -/
theorem Ready.shrunk (ready : Ready mnt file cells pos size) (access : file.ff.wrok = true)
    (shorter : length ≤ size) (known : pos ≤ length ∨ file.ff.currentsector ≠ 0)
    (nextfree : Nat) :
    Truncated mnt file ⟨{ file.fs with fsinextfree := nextfree }, { file.ff with size := length }⟩
      length := by
  have ordered := ready.ordered
  have bounded := ready.bounded
  have covered := ready.covered
  have keeps := @keeps_grown mnt file cells cells { file.fs with fsinextfree := nextfree }
    { file.ff with size := length } ready.sound ready.sound.chain
    (grows_nextfree mnt file.fs cells nextfree) rfl rfl rfl rfl
  have same : (⟨{ file.fs with fsinextfree := nextfree }, { file.ff with size := length }⟩ :
      Opened).settled.disk = file.settled.disk := settled_disk_congr rfl rfl rfl rfl
  have placed : PlacedAt mnt { file.ff with size := length } cells pos := by
    rcases ready.placed with unset | ⟨index, here⟩
    · exact .inl unset
    · exact .inr ⟨index, here.congr rfl rfl rfl⟩
  have landing : Landing mnt
      ⟨{ file.fs with fsinextfree := nextfree }, { file.ff with size := length }⟩ cells pos
      length :=
    ⟨keeps.sound, ready.clean.congr rfl rfl rfl rfl rfl, ready.pos_eq, rfl, by omega, by omega,
      by omega, placed, known⟩
  refine ⟨rfl, rfl, fun position _ _ => ?_, fun position low high => ?_, fun data room => ?_⟩
  · rw [landing.contents_eq, ready.contents_eq]
    exact byteAt_congr same
  · rw [ready.contents_eq] at low
    change size ≤ position at low
    omega
  · rw [ready.contents_eq]
    exact landing.lands access room

theorem Ready.extended {file' : Opened} {cells' : List Nat} (ready : Ready mnt file cells pos size)
    (ready' : Ready mnt file' cells' pos length) (access : file'.ff.wrok = true)
    (written : Written mnt file file' cells cells' size (replicate (length - size) 0) size) :
    Truncated mnt file file' length := by
  refine ⟨ready'.size_eq, ready'.pos_eq.trans ready.pos_eq.symm, fun position _ below => ?_,
    fun position low high => ?_, fun data room => ?_⟩
  · rw [ready.contents_eq] at below
    rw [ready.contents_eq, ready'.contents_eq]
    exact written.before position below
  · rw [ready.contents_eq] at low
    change size ≤ position at low
    rw [ready'.contents_eq]
    have stored := written.stored (position - size) 0
      (by rw [getElem?_replicate, if_pos (by omega)])
    rwa [show size + (position - size) = position by omega] at stored
  · rw [ready.contents_eq]
    exact ready'.landing.lands access room

/-- `fat_truncate` sets a length that fits. -/
theorem fatTruncate_spec (ready : Ready mnt file cells pos size) (access : file.ff.wrok = true)
    (linked : entry.start = 0 ∨ entry.start = file.ff.startcluster) {target : Int}
    (room : file.HasRoom mnt target) (fits : LengthFits mnt file entry target) :
    ∃ ret file' entry', fatTruncate mnt file entry target = some (ret, file', entry') ∧
      (ret = 0 → Truncated mnt file file' target) := by
  obtain ⟨nonneg, kept, known, near⟩ := fits
  obtain ⟨length, rfl⟩ := Int.eq_ofNat_of_zero_le nonneg
  obtain ⟨small, enough⟩ := room
  rw [ready.clusters_eq] at enough
  rw [ready.pos_eq] at known
  have known' : pos ≤ length ∨ file.ff.currentsector ≠ 0 := by omega
  have shrunk := @Ready.shrunk mnt file cells pos size length ready access
  unfold fatTruncate
  rw [if_neg (by rw [access]; decide)]
  by_cases same : file.ff.size = length
  · rw [if_pos same]
    refine ⟨0, file, entry, rfl, fun _ => ?_⟩
    have unchanged := shrunk (by rw [ready.size_eq] at same; omega) known' file.fs.fsinextfree
    rwa [← same] at unchanged ⊢
  rw [if_neg same]
  by_cases shorter : (length : Int) < file.ff.size
  · rw [if_pos shorter]
    have needed := kept access shorter
    have below : length ≤ size := by
      rw [ready.size_eq] at shorter
      omega
    by_cases zero : (length : Int) = 0
    · rw [if_pos zero]
      have chainless : entry.start = 0 := needed.resolve_right fun other => other.1 zero
      obtain ⟨nextfree, done⟩ := @fatDirtruncate_zero mnt file.fs entry chainless
      rw [done]
      exact ⟨0, _, _, rfl, fun _ => shrunk below known' nextfree⟩
    rw [if_neg zero]
    obtain ⟨ret, done⟩ := fatDirshrink_open ready.sound linked (needed.imp_right And.right)
    rw [done, map_some]
    by_cases ok : 0 ≤ ret
    · simp only [if_pos ok]
      exact ⟨0, _, _, rfl, fun _ => shrunk below known' file.fs.fsinextfree⟩
    · simp only [if_neg ok]
      refine ⟨ret, _, _, rfl, fun zero => ?_⟩
      rw [zero] at ok
      exact absurd (Int.le_refl 0) ok
  · rw [if_neg shorter]
    have longer : size < length := by
      rw [ready.size_eq] at same shorter
      omega
    rw [ready.pos_eq] at near
    obtain ⟨last, cells', done, ready', keeps, written⟩ := fatDirextend_spec ready longer
      ((tdiv_eq_iff mnt length pos).mp (near (by omega))) (by omega) enough
    have still :
        ({ last with ff := { last.ff with size := (length : Int) } } : Opened) = last := by
      rw [← ready'.size_eq]
    rw [done, map_some]
    simp only [Int.le_refl, if_true, still]
    exact ⟨0, last, entry, rfl, fun _ =>
      ready.extended ready' (keeps.wrok.trans access) written⟩

end Truncating

section Runs

variable {mnt : Mount} {sys : Sys} {id : Nat} {entry : Entry} {fs : Volume} {before : List Nat}
variable {able : Bool}

theorem access_serves {file next : Opened} {call : Access}
    (serves : ∃ bytes, Serves mnt fs before able file bytes)
    (sensible : Sensible mnt file call) (keeps : KeepsPlace mnt file call)
    (moved : moves (access mnt) file call = some next) :
    ∃ bytes, Serves mnt fs before able next bytes := by
  obtain ⟨bytes, rfl, rdok, wrok, cells, ready, grows⟩ := serves
  have follow : Simulated mnt fs before able file call →
      ∃ bytes, Serves mnt fs before able next bytes := by
    rintro ⟨answer, other, bytes, done, _, serves⟩
    rw [moves, done] at moved
    cases moved
    exact ⟨bytes, serves⟩
  cases call with
  | write data => exact follow (write_simulated ready rdok wrok grows sensible)
  | seek offset whence => exact follow (seek_simulated ready rdok wrok grows sensible keeps)
  | read buflen =>
    cases able with
    | true => exact follow (read_simulated ready rdok wrok grows buflen (keeps rdok))
    | false =>
      have refused : fatRead mnt file buflen = some (-eacces, [], file) :=
        if_pos (by rw [rdok]; decide)
      rw [moves, access, refused] at moved
      cases moved
      exact ⟨_, ready.serves rdok wrok grows⟩

theorem Serves.linked {file : Opened} {bytes : Bytes} (chain : Chain mnt fs entry.start before)
    (serves : Serves mnt fs before able file bytes) :
    entry.start = 0 ∨ entry.start = file.ff.startcluster := by
  obtain ⟨_, _, _, cells, ready, grows⟩ := serves
  by_cases chainless : entry.start = 0
  · exact .inl chainless
  right
  have nonempty := chain.ne_nil chainless
  have head := chain.head nonempty
  obtain ⟨more, rfl⟩ := grows.links.stays
  have head' := ready.sound.chain.head (show before ++ more ≠ [] by simp [nonempty])
  rw [getElem?_append_left (length_pos_iff.mpr nonempty), head] at head'
  exact Option.some.inj head'

/-- In every state of a file that was opened for writing on a consistent volume, `fat_truncate` sets
a length that fits when it succeeds. The directory entry is the one the file was opened with, or
holds the first cluster of the file. -/
theorem truncate_sets_length (consistent : Consistent mnt sys) (closed : sys.handle id = none)
    (stored : sys.entry id = some entry) (sized : entry.Sized mnt sys.fs) (calls : List Access)
    (sensible : Admitted (moves (access mnt)) (Sensible mnt)
      ⟨sys.fs, openFile mnt entry able true⟩ calls)
    (keeps : Admitted (moves (access mnt)) (KeepsPlace mnt)
      ⟨sys.fs, openFile mnt entry able true⟩ calls) {file : Opened}
    (reached : run (moves (access mnt)) ⟨sys.fs, openFile mnt entry able true⟩ calls = some file)
    {current : Entry}
    (linked : current.start = entry.start ∨ current.start = file.ff.startcluster) {length : Int}
    (room : file.HasRoom mnt length) (fits : LengthFits mnt file current length) :
    ∃ ret file' entry', fatTruncate mnt file current length = some (ret, file', entry') ∧
      (ret = 0 → Truncated mnt file file' length) := by
  obtain ⟨cells, separate⟩ := consistent
  have chain := chain_closed separate closed stored
  have initial : ∃ bytes, Serves mnt sys.fs (cells (some id)) able
      ⟨sys.fs, openFile mnt entry able true⟩ bytes :=
    ⟨_, (openFile_ready chain sized able true).serves rfl rfl (Grows.refl mnt sys.fs _)⟩
  obtain ⟨bytes, serves⟩ := run_keeps_admitted
    (fun _ _ _ serves allowed moved => access_serves serves allowed.1 allowed.2 moved) initial
    (admitted_and sensible keeps) reached
  have linked' : current.start = 0 ∨ current.start = file.ff.startcluster := by
    rcases linked with same | same
    · rw [same]
      exact serves.linked chain
    · exact .inr same
  obtain ⟨_, _, wrok, cells', ready, _⟩ := serves
  exact fatTruncate_spec ready wrok linked' room fits

/-- A file of two bytes is extended to three. -/
theorem truncate_sets_length_threeBytes :
    ∃ file file' entry', run (moves (access tinyMount)) emptyFile [.write [1, 2]] = some file ∧
      fatTruncate tinyMount file ⟨0, 0, false, false⟩ 3 = some (0, file', entry') ∧
      Truncated tinyMount file file' 3 := by
  have values : ((run (moves (access tinyMount)) emptyFile [.write [1, 2]]).bind
      fun file => (fatTruncate tinyMount file ⟨0, 0, false, false⟩ 3).map fun result =>
        (decide (file.HasRoom tinyMount 3 ∧ LengthFits tinyMount file ⟨0, 0, false, false⟩ 3),
          result.1)) = some (true, 0) := by
    decide +kernel
  obtain ⟨file, reached, rest⟩ := bind_eq_some_iff.mp values
  obtain ⟨⟨ret, file', entry'⟩, done, both⟩ := map_eq_some_iff.mp rest
  obtain ⟨fits, rfl⟩ := Prod.mk.inj both
  obtain ⟨room, fits⟩ := of_decide_eq_true fits
  obtain ⟨ret', last, entry'', same, truncated⟩ :=
    @truncate_sets_length tinyMount emptyFileSys 0 ⟨0, 0, false, false⟩ true
      emptyFileSys_consistent rfl rfl (by decide +kernel) [.write [1, 2]] (by decide +kernel)
      (by decide +kernel) file reached ⟨0, 0, false, false⟩ (.inl rfl) 3 room fits
  rw [done] at same
  cases same
  exact ⟨file, file', entry', reached, done, truncated rfl⟩

/-- A file of five bytes at position zero is extended to six: a byte of the first sector is cleared
instead of one behind the end. -/
theorem truncate_clears_wrong :
    Admitted (moves (access tinyMount)) (Sensible tinyMount) emptyFile
        [.write [1, 2, 3, 4, 5], .seek 0 .set] ∧
      ∃ file file' entry', run (moves (access tinyMount)) emptyFile
          [.write [1, 2, 3, 4, 5], .seek 0 .set] = some file ∧ file.HasRoom tinyMount 6 ∧
        fatTruncate tinyMount file ⟨0, 0, false, false⟩ 6 = some (0, file', entry') ∧
        ¬ Truncated tinyMount file file' 6 := by
  refine ⟨by decide +kernel, ?_⟩
  have values : ((run (moves (access tinyMount)) emptyFile [.write [1, 2, 3, 4, 5], .seek 0 .set]).bind
      fun file => (fatTruncate tinyMount file ⟨0, 0, false, false⟩ 6).map fun result =>
        (decide (file.HasRoom tinyMount 6 ∧ 1 < (file.contents tinyMount).size ∧
          (result.2.1.contents tinyMount).byte 1 ≠ (file.contents tinyMount).byte 1),
          result.1)) = some (true, 0) := by
    decide +kernel
  obtain ⟨file, reached, rest⟩ := bind_eq_some_iff.mp values
  obtain ⟨⟨ret, file', entry'⟩, done, both⟩ := map_eq_some_iff.mp rest
  obtain ⟨facts, rfl⟩ := Prod.mk.inj both
  obtain ⟨room, below, differ⟩ := of_decide_eq_true facts
  exact ⟨file, file', entry', reached, room, done,
    fun truncated => differ (truncated.kept 1 (by decide) below)⟩

end Runs

end Chewie.Fs.Fat
