import Chewie.Lib.Trace
import Chewie.Fs.Fat.Bytes
import Chewie.Fs.Fat.Owner

/-!
# An open file is a byte array

A file that was opened for reading and writing answers `fat_write`, `fat_read` and `fat_seek` like
an array of bytes with a position, and leaves the sectors of everything else alone. A seek behind
the end must not stay in the current sector, and must not leave it when the current sector is set;
and a file without clusters must not be read: `fat_seek` then keeps the old size or the old sector,
and `fat_read` sets a current sector that does not exist.
-/

namespace Chewie.Fs.Fat

open Chains Run Trace List Option

section Statement

/-- The calls on an open file that work on its bytes. -/
inductive Access where
  | write (data : List UInt8)
  | read (buflen : Nat)
  | seek (offset : Int) (whence : Whence)

inductive Answer where
  | wrote (ret : Int)
  | got (ret : Int) (bytes : List UInt8)
  | sought (ret : Int)
  deriving DecidableEq

/-- A call on an open file. -/
def access (mnt : Mount) (file : Opened) : Access → Option (Answer × Opened)
  | .write data => (fatWrite mnt file data).map fun result => (.wrote result.1, result.2)
  | .read buflen =>
    (fatRead mnt file buflen).map fun result => (.got result.1 result.2.1, result.2.2)
  | .seek offset whence =>
    (fatSeek mnt file offset whence).map fun result => (.sought result.1, result.2)

/-- An array of bytes with a position. -/
structure Bytes where
  size : Nat
  pos : Nat
  byte : Nat → UInt8

/-- What an offset of a seek counts from. -/
def Bytes.base (bytes : Bytes) : Whence → Int
  | .cur => bytes.pos
  | .fromEnd => bytes.size
  | .set | .other => 0

/-- The bytes of two arrays agree up to the size of the first one. -/
def Bytes.Same (before after : Bytes) : Prop :=
  ∀ position < before.size, after.byte position = before.byte position

/-- What the calls do to an array of bytes. A seek behind the end leaves open which bytes are in the
gap. -/
def Bytes.Does (before : Bytes) : Access → Answer → Bytes → Prop
  | .write data, answer, after =>
    answer = .wrote data.length ∧ after.pos = before.pos + data.length ∧
      after.size = max before.size (before.pos + data.length) ∧
      (∀ offset byte, data[offset]? = some byte → after.byte (before.pos + offset) = byte) ∧
      ∀ position < before.size, (position < before.pos ∨ before.pos + data.length ≤ position) →
        after.byte position = before.byte position
  | .read buflen, answer, after =>
    answer = .got (min buflen (before.size - before.pos) : Nat)
        ((List.range (min buflen (before.size - before.pos))).map fun offset =>
          before.byte (before.pos + offset)) ∧
      after.pos = before.pos + min buflen (before.size - before.pos) ∧
      after.size = before.size ∧ before.Same after
  | .seek offset whence, answer, after =>
    answer = .sought 0 ∧ (after.pos : Int) = before.base whence + offset ∧
      after.size = max before.size after.pos ∧ before.Same after

variable (mnt : Mount)

/-- The clusters of an open file. -/
def Opened.clusters (file : Opened) : List Nat := clustersOf mnt file.fs file.ff.startcluster

/-- The array of bytes that an open file stands for. -/
def Opened.contents (file : Opened) : Bytes where
  size := file.ff.size.toNat
  pos := file.ff.pos.toNat
  byte := byteAt mnt file (file.clusters mnt)

/-- The clusters of the file and the free ones reach behind the position. -/
def Opened.HasRoom (file : Opened) (position : Int) : Prop :=
  position < 2 ^ 31 ∧ position.toNat / mnt.clustersize <
    (file.clusters mnt).length + (freeClusters mnt file.fs).length

/-- The calls are made with free clusters on the volume, and seek to positions that are not
negative. -/
def Sensible (file : Opened) : Access → Prop
  | .write data => file.HasRoom mnt (file.ff.pos + data.length)
  | .read _ => True
  | .seek offset whence =>
    whence ≠ .other ∧ 0 ≤ (file.contents mnt).base whence + offset ∧
      file.HasRoom mnt ((file.contents mnt).base whence + offset)

instance decidableHasRoom (file : Opened) (position : Int) :
    Decidable (file.HasRoom mnt position) :=
  inferInstanceAs (Decidable (_ ∧ _))

instance decidableSensible (file : Opened) : ∀ call, Decidable (Sensible mnt file call)
  | .write .. | .seek .. => by dsimp only [Sensible]; infer_instance
  | .read .. => isTrue trivial

/-- A seek to this position stays in the file, or leaves the current sector before one was set. -/
def SeekInside (ff : File) (position : Int) : Prop :=
  position ≤ ff.size ∨ ff.currentsector = 0 ∧
    position.tdiv mnt.hwsectorsize ≠ ff.pos.tdiv mnt.hwsectorsize

/-- The calls that keep the place of the file. -/
def KeepsPlace (file : Opened) : Access → Prop
  | .write _ => True
  | .read _ => file.ff.rdok = true → file.ff.startcluster ≠ 0
  | .seek offset whence => SeekInside mnt file.ff ((file.contents mnt).base whence + offset)

instance decidableSeekInside (ff : File) (position : Int) :
    Decidable (SeekInside mnt ff position) :=
  inferInstanceAs (Decidable (_ ∨ _ ∧ _))

instance decidableKeepsPlace (file : Opened) : ∀ call, Decidable (KeepsPlace mnt file call)
  | .read .. | .seek .. => by dsimp only [KeepsPlace]; infer_instance
  | .write .. => isTrue trivial

/-- The entry describes a file whose clusters hold its bytes. -/
def Entry.Sized (fs : Volume) (entry : Entry) : Prop :=
  0 ≤ entry.size ∧ entry.size < 2 ^ 31 ∧
    entry.size ≤ (clustersOf mnt fs entry.start).length * mnt.clustersize

instance decidableSized (fs : Volume) (entry : Entry) : Decidable (entry.Sized mnt fs) :=
  inferInstanceAs (Decidable (_ ∧ _ ∧ _))

end Statement

section Steps

variable {mnt : Mount} {file file' : Opened} {cells cells' : List Nat} {pos size : Nat}

theorem Ready.clusters_eq (ready : Ready mnt file cells pos size) : file.clusters mnt = cells :=
  ready.sound.chain.clustersOf_eq

theorem Ready.contents_eq (ready : Ready mnt file cells pos size) :
    file.contents mnt = ⟨size, pos, byteAt mnt file cells⟩ := by
  simp [Opened.contents, ready.clusters_eq, ready.pos_eq, ready.size_eq]

/-- An open file that can be written, and read when it is `able` to, whose volume has grown from
`fs`. -/
def Serves (mnt : Mount) (fs : Volume) (before : List Nat) (able : Bool) (file : Opened)
    (bytes : Bytes) : Prop :=
  bytes = file.contents mnt ∧ file.ff.rdok = able ∧ file.ff.wrok = true ∧
    ∃ cells, Ready mnt file cells bytes.pos bytes.size ∧ Grows mnt fs file.fs before cells

variable {fs : Volume} {before : List Nat} {able : Bool}

theorem Ready.serves (ready : Ready mnt file cells pos size) (rdok : file.ff.rdok = able)
    (wrok : file.ff.wrok = true) (grows : Grows mnt fs file.fs before cells) :
    Serves mnt fs before able file (file.contents mnt) := by
  refine ⟨rfl, rdok, wrok, cells, ?_, grows⟩
  rw [ready.contents_eq]
  exact ready

/-- The step of the simulation for one call. -/
def Simulated (mnt : Mount) (fs : Volume) (before : List Nat) (able : Bool) (file : Opened)
    (call : Access) : Prop :=
  ∃ answer next bytes, access mnt file call = some (answer, next) ∧
    (file.contents mnt).Does call answer bytes ∧ Serves mnt fs before able next bytes

section

variable (ready : Ready mnt file cells pos size)

include ready

theorem write_simulated (rdok : file.ff.rdok = able) (wrok : file.ff.wrok = true)
    (grows : Grows mnt fs file.fs before cells) {data : List UInt8}
    (sensible : Sensible mnt file (.write data)) :
    Simulated mnt fs before able file (.write data) := by
  obtain ⟨fits, room⟩ := sensible
  rw [ready.pos_eq, ready.clusters_eq] at room
  rw [ready.pos_eq] at fits
  rw [show ((pos : Int) + data.length).toNat = pos + data.length by omega] at room
  obtain ⟨first, cells', index, result, standing, kept, same⟩ :=
    firstSector_spec ready (Nat.zero_lt_of_lt room) ready.ordered rfl
  obtain ⟨next, cells', done, ready', keeps, same, written⟩ := fatWrite_from wrok ready.pos_eq
    ready.size_eq ready.bounded ready.covered (Nat.le_trans ready.ordered ready.covered) result
    standing kept same (by omega) room
  refine ⟨.wrote data.length, next, next.contents mnt, ?_, ?_,
    ready'.serves (same.trans rdok) (keeps.wrok.trans wrok) (grows.trans keeps.grows)⟩
  · rw [access, done, map_some]
  · rw [ready.contents_eq, ready'.contents_eq]
    refine ⟨rfl, rfl, rfl, written.stored, fun position below outside => ?_⟩
    rcases outside with lower | upper
    · exact written.before position lower
    · exact written.behind position below upper

theorem read_simulated (rdok : file.ff.rdok = true) (wrok : file.ff.wrok = true)
    (grows : Grows mnt fs file.fs before cells) (buflen : Nat) (chained : file.ff.startcluster ≠ 0) :
    Simulated mnt fs before true file (.read buflen) := by
  obtain ⟨next, done, ready', kept, same⟩ := @fatRead_spec mnt file cells pos size ready rdok
    (ready.sound.chain.ne_nil chained) buflen _ rfl
  refine ⟨.got (min buflen (size - pos) : Nat)
      (bytesFrom mnt file cells pos (min buflen (size - pos))), next, next.contents mnt, ?_, ?_,
    ready'.serves (kept.rdok.trans rdok) (kept.wrok.trans wrok) (grows.trans kept.grows)⟩
  · rw [access, done, map_some]
  · rw [ready.contents_eq, ready'.contents_eq]
    exact ⟨rfl, rfl, rfl, fun position _ => byteAt_congr same⟩

theorem Ready.seekPosition {offset : Int} {whence : Whence} (known : whence ≠ .other) {target : Nat}
    (target_eq : (file.contents mnt).base whence + offset = target) (fits : target < 2 ^ 31) :
    Fat.seekPosition file.ff offset whence = some (target : Int) := by
  rw [ready.contents_eq] at target_eq
  have wrapped : toOff target = target := toOff_of_fits (by omega) (by omega)
  cases whence with
  | set =>
    rw [Bytes.base, Int.zero_add] at target_eq
    rw [Fat.seekPosition, target_eq]
  | cur =>
    rw [Fat.seekPosition, ready.pos_eq, Int.add_comm, ← wrapped, ← target_eq]
    rfl
  | fromEnd =>
    rw [Fat.seekPosition, ready.size_eq, Int.add_comm, ← wrapped, ← target_eq]
    rfl
  | other => exact absurd rfl known

theorem seek_simulated (rdok : file.ff.rdok = able) (wrok : file.ff.wrok = true)
    (grows : Grows mnt fs file.fs before cells) {offset : Int} {whence : Whence}
    (sensible : Sensible mnt file (.seek offset whence))
    (keeps : KeepsPlace mnt file (.seek offset whence)) :
    Simulated mnt fs before able file (.seek offset whence) := by
  obtain ⟨known, nonneg, fits, room⟩ := sensible
  obtain ⟨target, target_eq⟩ := Int.eq_ofNat_of_zero_le nonneg
  change SeekInside mnt file.ff ((file.contents mnt).base whence + offset) at keeps
  rw [target_eq] at fits room keeps
  rw [ready.clusters_eq] at room
  have position := ready.seekPosition known target_eq (by omega)
  rw [SeekInside, ready.size_eq, ready.pos_eq] at keeps
  by_cases near : target / mnt.hwsectorsize = pos / mnt.hwsectorsize
  · have inside : target ≤ size := by
      rcases keeps with inside | ⟨_, far⟩
      · omega
      · exact absurd ((tdiv_eq_iff mnt target pos).mpr near) far
    have ready' := ready.near near inside
    refine ⟨.sought 0, _, _, ?_, ?_, ready'.serves rdok wrok grows⟩
    · rw [access, fatSeek, position]
      simp only []
      rw [ready.pos_eq, if_pos ((tdiv_eq_iff mnt target pos).mpr near), map_some]
    · rw [ready'.contents_eq]
      refine ⟨rfl, target_eq.symm, ?_, ?_⟩
      · rw [ready.contents_eq]
        exact (Nat.max_eq_left inside).symm
      · rw [ready.contents_eq]
        exact fun _ _ => rfl
  · have limit : seekLimit file.ff target = target := if_neg fun limited => by simp [wrok] at limited
    have nonempty : cells ≠ [] ∨ 0 < target := by
      refine or_iff_not_imp_left.mpr fun empty => Nat.pos_of_ne_zero fun zero => near ?_
      have covered := ready.covered
      have ordered := ready.ordered
      rw [not_not.mp empty, length_nil] at covered
      rw [zero, show pos = 0 by omega]
    obtain ⟨next, cells', done, ready', kept, _, same, bytes⟩ := seekAway_spec ready limit nonempty
      (keeps.imp Int.ofNat_le.mp fun unset => ⟨wrok, unset.1⟩) (by omega) (.inr ⟨wrok, room⟩)
    have stays := kept.grows.links.stays
    refine ⟨.sought 0, next, _, ?_, ?_,
      ready'.serves (same.trans rdok) (kept.wrok.trans wrok) (grows.trans kept.grows)⟩
    · rw [access, fatSeek, position]
      simp only []
      rw [ready.pos_eq, if_neg fun close => near ((tdiv_eq_iff mnt target pos).mp close), done,
        map_some]
    · rw [ready'.contents_eq]
      refine ⟨rfl, target_eq.symm, ?_, ?_⟩
      · rw [ready.contents_eq]
      · rw [ready.contents_eq]
        intro position below
        exact (byteAt_congr bytes).trans
          (byteAt_mono stays (Nat.lt_of_lt_of_le below ready.covered))

end

end Steps

section Runs

variable {mnt : Mount} {sys : Sys} {id : Nat} {entry : Entry}

theorem cluster_of_sector {one two : Nat} {sector : Int} (valid : mnt.IsCluster one)
    (valid' : mnt.IsCluster two) (low : fatCluster2sector mnt one ≤ sector)
    (high : sector < fatCluster2sector mnt one + mnt.fatsecperclus)
    (low' : fatCluster2sector mnt two ≤ sector)
    (high' : sector < fatCluster2sector mnt two + mnt.fatsecperclus) : one = two := by
  have two_le := valid.1
  have two_le' := valid'.1
  rw [fatCluster2sector, if_pos valid] at low high
  rw [fatCluster2sector, if_pos valid'] at low' high'
  by_contra differ
  rcases Nat.lt_or_gt_of_ne differ with less | more
  · have next : (one - 2 + 1) * mnt.fatsecperclus ≤ (two - 2) * mnt.fatsecperclus :=
      Nat.mul_le_mul_right _ (by omega)
    rw [Nat.succ_mul] at next
    omega
  · have next : (two - 2 + 1) * mnt.fatsecperclus ≤ (one - 2) * mnt.fatsecperclus :=
      Nat.mul_le_mul_right _ (by omega)
    rw [Nat.succ_mul] at next
    omega

theorem openFile_ready {cells : List Nat} {fs : Volume} (chain : Chain mnt fs entry.start cells)
    (sized : entry.Sized mnt fs) (rdok wrok : Bool) :
    Ready mnt ⟨fs, openFile mnt entry rdok wrok⟩ cells 0 entry.size.toNat := by
  obtain ⟨low, high, covered⟩ := sized
  rw [chain.clustersOf_eq] at covered
  refine ⟨⟨chain, fun dirty => (by cases dirty)⟩, fun valid => (by cases valid), rfl, ?_,
    Nat.zero_le _, (by omega), ?_, .inl ⟨rfl, ?_⟩⟩
  · exact (Int.toNat_of_nonneg low).symm
  · have precise := Int.toNat_of_nonneg low
    rw [← precise] at covered
    exact Int.ofNat_le.mp covered
  · by_cases absent : cells = []
    · exact .inl absent
    · right
      rw [Nat.zero_div]
      exact chain.head absent

/-- On a consistent volume a file that is opened for reading and writing answers every run of
sensible calls that keep its place like an array of bytes, and the sectors of other files and
directories and those in front of the clusters are not changed. -/
theorem file_is_byteArray (consistent : Consistent mnt sys) (closed : sys.handle id = none)
    (stored : sys.entry id = some entry) (sized : entry.Sized mnt sys.fs) (calls : List Access)
    (sensible : Admitted (moves (access mnt)) (Sensible mnt)
      ⟨sys.fs, openFile mnt entry true true⟩ calls)
    (keeps : Admitted (moves (access mnt)) (KeepsPlace mnt)
      ⟨sys.fs, openFile mnt entry true true⟩ calls) :
    ∃ replies final, answers (access mnt) ⟨sys.fs, openFile mnt entry true true⟩ calls =
        some (replies, final) ∧
      Explains Bytes.Does (Opened.contents mnt ⟨sys.fs, openFile mnt entry true true⟩) calls
        replies (final.contents mnt) ∧
      ∀ sector : Int, (sector < mnt.database ∨ ∃ owner, owner ≠ some id ∧
          InClusters mnt (clustersOf mnt sys.fs (sys.start mnt owner)) sector) →
        final.fs.disk sector = sys.fs.disk sector ∧
          final.settled.disk sector = sys.fs.disk sector := by
  obtain ⟨cells, separate⟩ := consistent
  have chain := chain_closed separate closed stored
  have initial : Serves mnt sys.fs (cells (some id)) true ⟨sys.fs, openFile mnt entry true true⟩
      (Opened.contents mnt ⟨sys.fs, openFile mnt entry true true⟩) :=
    (openFile_ready chain sized true true).serves rfl rfl (Grows.refl mnt sys.fs _)
  have simulate : ∀ file bytes call, Serves mnt sys.fs (cells (some id)) true file bytes →
      Sensible mnt file call ∧ KeepsPlace mnt file call →
      ∃ answer next bytes', access mnt file call = some (answer, next) ∧
        bytes.Does call answer bytes' ∧ Serves mnt sys.fs (cells (some id)) true next bytes' := by
    rintro file _ call ⟨rfl, rdok, wrok, cells, ready, grows⟩ ⟨sensible, keeps⟩
    cases call with
    | write data => exact write_simulated ready rdok wrok grows sensible
    | read buflen => exact read_simulated ready rdok wrok grows buflen (keeps rdok)
    | seek offset whence => exact seek_simulated ready rdok wrok grows sensible keeps
  obtain ⟨replies, final, bytes, performed, explained, rfl, _, _, after, ready, grows⟩ :=
    simulates simulate initial (admitted_and sensible keeps)
  refine ⟨replies, final, performed, explained, fun sector other => ?_⟩
  have outside : ¬ InClusters mnt after sector := by
    rcases other with front | ⟨owner, differ, inside⟩
    · rintro ⟨cluster, mem, low, _⟩
      rw [fatCluster2sector, if_pos (ready.sound.chain.valid cluster mem)] at low
      omega
    · rw [Chain.clustersOf_eq (separate.owns owner)] at inside
      rintro ⟨two, mem', low', high'⟩
      obtain ⟨one, mem, low, high⟩ := inside
      have same := cluster_of_sector ((separate.owns owner).valid one mem)
        (ready.sound.chain.valid two mem') low high low' high'
      rw [← same] at mem'
      rcases grows.links.fresh one mem' with old | free
      · exact separate.disjoint owner _ differ one mem old
      · exact (separate.owns owner).not_mem_of_free mnt.zero_not_cluster mnt.zero_not_end free mem
  have data := grows.data sector outside
  exact ⟨data, (ready.sound.settled_grows.data sector outside).trans data⟩

/-- A volume with one empty file. -/
def emptyFileSys : Sys where
  fs := tinySys.fs
  entry := Function.update (fun _ => none) 0 (some ⟨0, 0, false, false⟩)
  handle := fun _ => none

theorem emptyFileSys_consistent : Consistent tinyMount emptyFileSys := by
  refine ⟨fun _ => [], fun owner => ?_, fun _ _ _ cell mem => absurd mem not_mem_nil⟩
  have zero : emptyFileSys.start tinyMount owner = 0 := by
    cases owner with
    | none => rfl
    | some id =>
      by_cases first : id = 0
      · rw [first]
        rfl
      · simp [Sys.start, emptyFileSys, Function.update_of_ne first]
  rw [zero]
  exact owns_nil

/-- The file, open for reading and writing. -/
def emptyFile : Opened := ⟨emptyFileSys.fs, openFile tinyMount ⟨0, 0, false, false⟩ true true⟩

/-- Two clusters are written, partly overwritten from another place, and read. -/
def overwriting : List Access :=
  [.write [1, 2, 3, 4, 5, 6, 7, 8, 9], .seek (-6) .cur, .write [0, 0], .seek 0 .set, .read 20]

theorem file_is_byteArray_overwritten :
    ∃ replies final, answers (access tinyMount) emptyFile overwriting = some (replies, final) ∧
      replies = [.wrote 9, .sought 0, .wrote 2, .sought 0, .got 9 [1, 2, 3, 0, 0, 6, 7, 8, 9]] ∧
      Explains Bytes.Does (emptyFile.contents tinyMount) overwriting replies
        (final.contents tinyMount) ∧
      ∀ sector : Int, (sector < tinyMount.database ∨ ∃ owner, owner ≠ some 0 ∧
          InClusters tinyMount (clustersOf tinyMount emptyFileSys.fs
            (emptyFileSys.start tinyMount owner)) sector) →
        final.fs.disk sector = emptyFileSys.fs.disk sector ∧
          final.settled.disk sector = emptyFileSys.fs.disk sector := by
  have values : (answers (access tinyMount) emptyFile overwriting).map Prod.fst =
      some [.wrote 9, .sought 0, .wrote 2, .sought 0, .got 9 [1, 2, 3, 0, 0, 6, 7, 8, 9]] := by
    decide +kernel
  obtain ⟨replies, final, answered, explained⟩ := @file_is_byteArray tinyMount emptyFileSys 0
    ⟨0, 0, false, false⟩ emptyFileSys_consistent rfl rfl (by decide +kernel) overwriting
    (by decide +kernel) (by decide +kernel)
  refine ⟨replies, final, answered, ?_, explained⟩
  rw [show answers (access tinyMount) emptyFile overwriting = _ from answered] at values
  exact Option.some.inj values

/-- A byte is written behind the end of the file, and the first one is read. -/
def skipping : List Access := [.write [7], .seek 4 .set, .write [9], .seek 0 .set, .read 1]

/-- A seek behind the end of the file leaves the old sector: the byte that is written there replaces
the first one. -/
theorem seek_behind_end_overwrites :
    Admitted (moves (access tinyMount)) (Sensible tinyMount) emptyFile skipping ∧
      ∃ replies final, answers (access tinyMount) emptyFile skipping = some (replies, final) ∧
        ∀ bytes, ¬ Explains Bytes.Does (emptyFile.contents tinyMount) skipping replies bytes := by
  refine ⟨by decide +kernel, ?_⟩
  have reached : (answers (access tinyMount) emptyFile skipping).map Prod.fst =
      some [.wrote 1, .sought 0, .wrote 1, .sought 0, .got 1 [9]] := by
    decide +kernel
  obtain ⟨⟨replies, final⟩, performed, rfl⟩ := Option.map_eq_some_iff.mp reached
  refine ⟨_, final, performed, fun bytes explained => ?_⟩
  obtain ⟨_, _, one, same, ⟨_, pos, size, stored, _⟩, explained⟩ := explained
  cases same
  obtain ⟨_, _, two, same, ⟨_, pos', size', kept⟩, explained⟩ := explained
  cases same
  obtain ⟨_, _, three, same, ⟨_, pos'', size'', _, kept'⟩, explained⟩ := explained
  cases same
  obtain ⟨_, _, four, same, ⟨_, pos''', size''', kept''⟩, explained⟩ := explained
  cases same
  obtain ⟨_, _, five, same, ⟨answer, _⟩, _⟩ := explained
  cases same
  have first : one.byte 0 = 7 := stored 0 7 rfl
  have size_one : one.size = 1 := size
  have pos_two : two.pos = 4 := by
    change (two.pos : Int) = 4 at pos'
    omega
  have size_three : 0 < three.size := by omega
  have pos_four : four.pos = 0 := by
    change (four.pos : Int) = 0 at pos'''
    omega
  have byte : four.byte 0 = 7 := by
    rw [kept'' 0 size_three, kept' 0 (by omega) (.inl (by omega)), kept 0 (by omega)]
    exact first
  obtain ⟨_, read⟩ := Answer.got.inj answer
  have count : min 1 (four.size - four.pos) = 1 := by omega
  rw [count, pos_four, List.range_one, List.map_singleton, byte] at read
  cases read

end Runs

end Chewie.Fs.Fat
