import Chewie.Fs.Fat.System
import Chewie.Fs.Fat.Confined
import Chewie.Lib.Run

/-!
# Every cluster has one owner

The chains of the files and directories of a volume stay apart in every run of calls, and each call
writes to sectors of its own file or directory only. `fat_truncate` must not be asked to remove
clusters: it marks the last cluster that is kept as free, and leaves the open file with a chain that
was freed. A seek must not lose the place of its file, and the first cluster of a file must be
found.
-/

namespace Chewie.Fs.Fat

open Chains Run Function List Option Sys

section Statement

variable (mnt : Mount)

/-- The first cluster of the root directory, or of the file or directory of an entry. An open file
knows its first cluster itself. -/
def Sys.start (sys : Sys) : Option Nat → Nat
  | none => mnt.rootcluster
  | some id => ((sys.handle id).map File.startcluster).getD
      (((sys.entry id).map Entry.start).getD 0)

/-- The chains of all files and directories end in a mark and do not share clusters. -/
def Consistent (sys : Sys) : Prop :=
  ∃ cells : Option Nat → List Nat,
    Separate mnt.IsCluster mnt.IsEnd 0 sys.fs.fat (sys.start mnt) cells

/-- The entry is one of a directory, or the directory is the root. -/
def Sys.IsDirectory (sys : Sys) : Option Nat → Prop
  | none => True
  | some dir => (sys.entry dir).any Entry.directory = true

/-- The callers' contract: only files that are not open are opened or removed, the other calls are
made on open files, and the arguments have their types. -/
def Allowed (sys : Sys) : Op → Prop
  | .openFile id _ dir _ _ => sys.handle id = none ∧ sys.IsDirectory dir
  | .write id data => (sys.handle id).isSome ∧ data.length < 2 ^ 32
  | .seek id offset _ => (sys.handle id).isSome ∧ -2 ^ 31 ≤ offset ∧ offset < 2 ^ 31
  | .truncate id length => (sys.handle id).isSome ∧ -2 ^ 31 ≤ length ∧ length < 2 ^ 31
  | .sync id => (sys.handle id).isSome
  | .close id => (sys.handle id).isSome
  | .remove id => sys.handle id = none

/-- The first cluster of the file is there, or a free one can be taken for it. -/
def HasFirst (fs : Volume) (ff : File) : Prop :=
  ff.wrok = true → ff.currentsector = 0 → ff.startcluster = 0 → freeClusters mnt fs ≠ []

/-- A length that `fat_truncate` sets without removing clusters. -/
def TruncateKeeps (fs : Volume) (ff : File) (entry : Entry) (length : Int) : Prop :=
  ff.wrok = true → length < ff.size → entry.start = 0 ∨
    length ≠ 0 ∧ ((clustersOf mnt fs entry.start).length ≤ 1 ∨
      ((clustersOf mnt fs entry.start).length - 1 : Nat) * (mnt.clustersize : Int) < length)

/-- The calls that keep the clusters of the files apart. -/
def Fits (sys : Sys) : Op → Prop
  | .openFile _ _ _ growth _ => growth ≤ (freeClusters mnt sys.fs).length
  | .write id _ => ∀ ff ∈ sys.handle id, HasFirst mnt sys.fs ff
  | .seek id offset whence =>
    ∀ ff ∈ sys.handle id, ∀ position ∈ seekPosition ff offset whence, SeekPlaced mnt ff position
  | .truncate id length =>
    ∀ ff ∈ sys.handle id, HasFirst mnt sys.fs ff ∧
      ∀ entry ∈ sys.entry id, TruncateKeeps mnt sys.fs ff entry length
  | .sync _ | .close _ | .remove _ => True

instance decidableIsDirectory (sys : Sys) : ∀ dir, Decidable (sys.IsDirectory dir)
  | none => isTrue trivial
  | some dir => inferInstanceAs (Decidable ((sys.entry dir).any Entry.directory = true))

instance decidableAllowed (sys : Sys) : ∀ call, Decidable (Allowed sys call)
  | .openFile .. | .write .. | .seek .. | .truncate .. | .sync .. | .close .. | .remove .. => by
    dsimp only [Allowed]; infer_instance

instance decidableHasFirst (fs : Volume) (ff : File) : Decidable (HasFirst mnt fs ff) :=
  inferInstanceAs (Decidable (_ → _ → _ → _))

instance decidableTruncateKeeps (fs : Volume) (ff : File) (entry : Entry) (length : Int) :
    Decidable (TruncateKeeps mnt fs ff entry length) :=
  inferInstanceAs (Decidable (_ → _ → _ ∨ _ ∧ (_ ∨ _)))

instance decidableFits (sys : Sys) : ∀ call, Decidable (Fits mnt sys call)
  | .openFile .. | .write .. | .seek .. | .truncate .. => by dsimp only [Fits]; infer_instance
  | .sync .. | .close .. | .remove .. => isTrue trivial

/-- The files and directories whose sectors a call may write. -/
def Op.owners : Op → List (Option Nat)
  | .openFile id _ dir _ _ => [dir, some id]
  | .write id _ | .seek id _ _ | .truncate id _ | .sync id | .close id | .remove id => [some id]

/-- A step writes to sectors of its files and directories only. -/
def Inside (sys : Sys) (call : Op) (next : Sys) : Prop :=
  ∀ sector, (∀ owner ∈ call.owners,
      ¬ InClusters mnt (clustersOf mnt next.fs (next.start mnt owner)) sector) →
    next.fs.disk sector = sys.fs.disk sector

end Statement

section Invariant

variable {mnt : Mount} {sys : Sys} {cells : Option Nat → List Nat} {id : Nat} {ff : File}

/-- What is known about an open file: its buffer, its place and its entry. -/
structure OpenFile (mnt : Mount) (sys : Sys) (cells : List Nat) (id : Nat) (ff : File) : Prop where
  waiting : ff.dirty = true → ff.valid = true ∧ InClusters mnt cells ff.cachesector
  placed : ff.wrok = true → Placed mnt ff cells
  entry : ∃ entry, sys.entry id = some entry ∧ entry.directory = false ∧
    (entry.start = 0 ∨ entry.start = ff.startcluster)

/-- The invariant of all runs. -/
structure Inv (mnt : Mount) (sys : Sys) (cells : Option Nat → List Nat) : Prop where
  separate : Separate mnt.IsCluster mnt.IsEnd 0 sys.fs.fat (sys.start mnt) cells
  files : ∀ id ff, sys.handle id = some ff → OpenFile mnt sys (cells (some id)) id ff

theorem start_open (opened : sys.handle id = some ff) :
    sys.start mnt (some id) = ff.startcluster := by
  simp [start, opened]

theorem start_closed (closed : sys.handle id = none) :
    sys.start mnt (some id) = ((sys.entry id).map Entry.start).getD 0 := by
  simp [start, closed]

theorem start_other {sys' : Sys} (same : ∀ other, other ≠ id →
      sys'.handle other = sys.handle other ∧ sys'.entry other = sys.entry other)
    (owner : Option Nat) (differ : owner ≠ some id) :
    sys'.start mnt owner = sys.start mnt owner := by
  cases owner with
  | none => rfl
  | some other => simp only [start, same other fun equal => differ (congrArg some equal)]

theorem chain_closed {entry : Entry}
    (separate : Separate mnt.IsCluster mnt.IsEnd 0 sys.fs.fat (sys.start mnt) cells)
    (closed : sys.handle id = none) (stored : sys.entry id = some entry) :
    Chain mnt sys.fs entry.start (cells (some id)) := by
  have owns := separate.owns (some id)
  rwa [start_closed closed, stored, map_some, getD_some] at owns

theorem Inv.sound (inv : Inv mnt sys cells) (opened : sys.handle id = some ff) :
    Sound mnt ⟨sys.fs, ff⟩ (cells (some id)) := by
  refine ⟨?_, (inv.files id ff opened).waiting⟩
  have owns := inv.separate.owns (some id)
  rwa [start_open opened] at owns

theorem Keeps.start_eq {file file' : Opened} {before after : List Nat}
    (keeps : Keeps mnt file file' before after) (sound : Sound mnt file before)
    (stored : file.ff.startcluster ≠ 0) : file'.ff.startcluster = file.ff.startcluster := by
  have nonempty := sound.chain.ne_nil stored
  have head := sound.chain.head nonempty
  obtain ⟨more, rfl⟩ := keeps.grows.links.stays
  have longer : before ++ more ≠ [] := by simp [nonempty]
  have head' := keeps.sound.chain.head longer
  rw [List.getElem?_append_left (length_pos_iff.mpr nonempty), head] at head'
  exact (Option.some.inj head').symm

theorem prefix_update (after : List Nat) (other : Nat) (apart : other ≠ id) :
    cells (some other) <+: update cells (some id) after (some other) := by
  rw [update_of_ne fun equal => apart (Option.some.inj equal)]

/-- The other files are open as before. -/
theorem Inv.files_keep (inv : Inv mnt sys cells) {sys' : Sys} {cells' : Option Nat → List Nat}
    (same : ∀ other, other ≠ id →
      sys'.handle other = sys.handle other ∧ sys'.entry other = sys.entry other)
    (longer : ∀ other, other ≠ id → cells (some other) <+: cells' (some other))
    (own : ∀ ff, sys'.handle id = some ff → OpenFile mnt sys' (cells' (some id)) id ff)
    (other : Nat) (ff : File) (opened : sys'.handle other = some ff) :
    OpenFile mnt sys' (cells' (some other)) other ff := by
  by_cases equal : other = id
  · rw [equal] at opened ⊢
    exact own ff opened
  · obtain ⟨handle, entry⟩ := same other equal
    obtain ⟨waiting, placed, found, stored, rest⟩ := inv.files other ff (handle.symm.trans opened)
    refine ⟨fun dirty => ?_, fun access => (placed access).mono (longer other equal), found,
      entry.trans stored, rest⟩
    exact ⟨(waiting dirty).1, (waiting dirty).2.mono (longer other equal)⟩

/-- An operation on one file keeps the invariant. -/
theorem Inv.put (inv : Inv mnt sys cells) {file : Opened} {after : List Nat} {entry : Entry}
    (grows : Grows mnt sys.fs file.fs (cells (some id)) after) (sound : Sound mnt file after)
    (placed : file.ff.wrok = true → Placed mnt file.ff after) (plain : entry.directory = false)
    (start : entry.start = 0 ∨ entry.start = file.ff.startcluster) :
    Inv mnt (sys.put id file entry) (update cells (some id) after) := by
  have here : (sys.put id file entry).handle id = some file.ff := update_self ..
  have same : ∀ other, other ≠ id → (sys.put id file entry).handle other = sys.handle other ∧
      (sys.put id file entry).entry other = sys.entry other :=
    fun other apart => ⟨update_of_ne apart .., update_of_ne apart ..⟩
  constructor
  · refine inv.separate.grow (some id)
      (fun owner differ => ⟨start_other same owner differ, update_of_ne differ ..⟩)
      mnt.zero_not_cluster mnt.zero_not_end ?_ ?_
    · rw [update_self]
      exact grows.links
    · rw [update_self, start_open here]
      exact sound.chain
  · refine inv.files_keep same (prefix_update _) fun ff opened => ?_
    rw [here] at opened
    cases opened
    rw [update_self]
    exact ⟨sound.waiting, placed, entry, update_self .., plain, start⟩

end Invariant

section Truncation

variable {mnt : Mount} {fs : Volume} {entry : Entry} {start : Nat} {cells : List Nat}

theorem grows_nextfree (mnt : Mount) (fs : Volume) (cells : List Nat) (nextfree : Nat) :
    Grows mnt fs { fs with fsinextfree := nextfree } cells cells :=
  ⟨Grown.refl 0 fs.fat cells, rfl, fun _ _ => rfl⟩

theorem fatDirtruncate_zero (nothing : entry.start = 0) :
    ∃ nextfree, fatDirtruncate mnt fs entry = some (0, { fs with fsinextfree := nextfree },
      { entry with start := 0, size := 0, readonly := false }) := by
  have same : fs.erased [] = fs := by simp [Volume.erased]
  have removed : fatRemovechain mnt fs 0 = some (0, fs.erased []) := fatRemovechain_chain owns_nil
  refine ⟨toUint (entry.start - 1), ?_⟩
  unfold fatDirtruncate
  rw [nothing]
  rfl

theorem shrinkLoop_kept {last lastcluster : Nat} (mark : mnt.IsEnd last)
    (path : Path fs.fat start cells last) (inside : ∀ cell ∈ cells, mnt.IsCluster cell)
    {remaining : Int} (needed : cells ≠ [] → cells.length * (mnt.clustersize : Int) < remaining)
    {fuel : Nat} (enough : cells.length < fuel) :
    shrinkLoop mnt fuel fs lastcluster start remaining = some (0, fs) := by
  induction cells generalizing start lastcluster remaining fuel with
  | nil =>
    obtain ⟨fuel, rfl⟩ := Nat.exists_eq_add_one_of_ne_zero (Nat.ne_of_gt enough)
    have behind := mark.ge
    rw [show start = last from path, shrinkLoop, if_neg (by omega)]
  | cons cell rest ih =>
    obtain ⟨fuel, rfl⟩ := Nat.exists_eq_add_one_of_ne_zero (Nat.ne_of_gt (Nat.zero_lt_of_lt enough))
    have valid := inside cell mem_cons_self
    have low := valid.1
    have high := valid.2
    have more := needed (cons_ne_nil cell rest)
    rw [length_cons, Int.natCast_add, Int.add_mul] at more
    have room : 0 ≤ (rest.length : Int) * mnt.clustersize :=
      Int.mul_nonneg (Int.natCast_nonneg _) (Int.natCast_nonneg _)
    rw [show start = cell from path.1, shrinkLoop, if_pos (by omega), if_neg (by omega),
      Int.toNat_natCast, fatGetcluster_of_cluster valid]
    exact ih path.2 (fun other mem => inside other (mem_cons_of_mem cell mem))
      (fun _ => by omega) (by rw [length_cons] at enough; omega)

/-- `fat_dirshrink` changes the size only when the length needs all clusters. -/
theorem fatDirshrink_kept (chain : Chain mnt fs entry.start cells) {length : Int}
    (needed : entry.start = 0 ∨ cells.length ≤ 1 ∨
      (cells.length - 1 : Nat) * (mnt.clustersize : Int) < length) :
    ∃ ret, fatDirshrink mnt fs entry length =
      some (ret, fs, { entry with size := length, readonly := false }) := by
  unfold fatDirshrink
  by_cases nothing : entry.start = 0
  · have outside : fatGetcluster mnt fs entry.start = -einval := by
      rw [nothing]
      exact if_neg mnt.zero_not_cluster
    refine ⟨-einval, ?_⟩
    simp only [outside]
    rw [if_pos (by decide)]
  have nonempty := chain.ne_nil nothing
  obtain ⟨last, mark, path⟩ := chain.linked nonempty
  have bound := chain.length_le
  cases cells with
  | nil => exact absurd rfl nonempty
  | cons cell rest =>
    have valid := chain.valid cell mem_cons_self
    have kept := @shrinkLoop_kept mnt fs (fs.fat cell) rest last cell mark path.2
      (fun other mem => chain.valid other (mem_cons_of_mem cell mem)) length ?_
      (mnt.nclusters + 1) (by rw [length_cons] at bound; omega)
    · refine ⟨0, ?_⟩
      rw [show entry.start = cell from path.1, fatGetcluster_of_cluster valid]
      rw [if_neg (by omega), kept]
      rfl
    · intro more
      rcases needed with chainless | short | long
      · exact absurd chainless nothing
      · rw [length_cons] at short
        have positive := length_pos_iff.mpr more
        omega
      · rwa [length_cons, Nat.add_sub_cancel] at long

theorem fatDirshrink_open {file : Opened} (sound : Sound mnt file cells)
    (linked : entry.start = 0 ∨ entry.start = file.ff.startcluster) {length : Int}
    (needed : entry.start = 0 ∨ (clustersOf mnt file.fs entry.start).length ≤ 1 ∨
      ((clustersOf mnt file.fs entry.start).length - 1 : Nat) * (mnt.clustersize : Int) < length) :
    ∃ ret, fatDirshrink mnt file.fs entry length =
      some (ret, file.fs, { entry with size := length, readonly := false }) := by
  rcases linked with chainless | linked
  · have chain : Chain mnt file.fs entry.start [] := by
      rw [chainless]
      exact owns_nil
    exact fatDirshrink_kept chain (.inl chainless)
  · have chain := sound.chain
    rw [← linked] at chain
    rw [chain.clustersOf_eq] at needed
    exact fatDirshrink_kept chain needed

theorem HasFirst.room {ff : File} (first : HasFirst mnt fs ff) (access : ff.wrok = true) :
    ff.currentsector = 0 → ff.startcluster = 0 → ¬ Full mnt fs :=
  fun unset chainless full => first access unset chainless full.freeClusters_eq

section

variable {file : Opened} (sound : Sound mnt file cells)
  (placed : file.ff.wrok = true → Placed mnt file.ff cells)
  (linked : entry.start = 0 ∨ entry.start = file.ff.startcluster)

include sound placed linked

/-- `fat_truncate`, when no cluster is removed. -/
theorem fatTruncate_keeps (first : HasFirst mnt file.fs file.ff) {length : Int}
    (kept : TruncateKeeps mnt file.fs file.ff entry length) :
    ∃ ret file' entry' cells', fatTruncate mnt file entry length = some (ret, file', entry') ∧
      Keeps mnt file file' cells cells' ∧ (file'.ff.wrok = true → Placed mnt file'.ff cells') ∧
      (entry'.start = 0 ∨ entry'.start = entry.start) ∧ entry'.directory = entry.directory := by
  unfold fatTruncate
  by_cases denied : (!file.ff.wrok) = true
  · rw [if_pos denied]
    exact ⟨_, file, entry, cells, rfl, Keeps.refl sound, placed, .inr rfl, rfl⟩
  rw [if_neg denied]
  have access : file.ff.wrok = true := by simpa using denied
  by_cases same : file.ff.size = length
  · rw [if_pos same]
    exact ⟨0, file, entry, cells, rfl, Keeps.refl sound, placed, .inr rfl, rfl⟩
  rw [if_neg same]
  by_cases shorter : length < file.ff.size
  · rw [if_pos shorter]
    have needed := kept access shorter
    by_cases zero : length = 0
    · rw [if_pos zero]
      have chainless : entry.start = 0 := needed.resolve_right fun other => other.1 zero
      obtain ⟨nextfree, done⟩ := @fatDirtruncate_zero mnt file.fs entry chainless
      rw [done]
      exact ⟨0, _, _, cells, rfl, keeps_grown _ sound sound.chain
        (grows_nextfree mnt file.fs cells nextfree) rfl rfl rfl rfl,
        fun _ => (placed access).congr rfl rfl rfl rfl, .inl rfl, rfl⟩
    · rw [if_neg zero]
      obtain ⟨ret, done⟩ := fatDirshrink_open sound linked (needed.imp_right And.right)
      rw [done, map_some]
      by_cases ok : 0 ≤ ret
      · simp only [if_pos ok]
        exact ⟨0, _, _, cells, rfl, keeps_fields sound rfl rfl rfl rfl rfl,
          fun _ => (placed access).congr rfl rfl rfl rfl, .inr rfl, rfl⟩
      · simp only [if_neg ok]
        exact ⟨ret, _, _, cells, rfl, Keeps.refl sound, placed, .inr rfl, rfl⟩
  · rw [if_neg shorter]
    obtain ⟨ret, last, cells', done, keeps, place⟩ :=
      fatDirextend_keeps sound (placed access) (first.room access) length
    rw [done, map_some]
    by_cases ok : 0 ≤ ret
    · simp only [if_pos ok]
      exact ⟨0, _, _, cells', rfl,
        keeps.trans (keeps_fields keeps.sound rfl rfl rfl rfl rfl),
        fun _ => place.congr rfl rfl rfl rfl, .inr rfl, rfl⟩
    · simp only [if_neg ok]
      exact ⟨ret, _, _, cells', rfl, keeps, fun _ => place, .inr rfl, rfl⟩

theorem fatSync_keeps :
    Keeps mnt file (fatSync file entry).1 cells cells ∧
      ((fatSync file entry).1.ff.wrok = true → Placed mnt (fatSync file entry).1.ff cells) ∧
      ((fatSync file entry).2.start = 0 ∨
        (fatSync file entry).2.start = (fatSync file entry).1.ff.startcluster) ∧
      (fatSync file entry).2.directory = entry.directory := by
  unfold fatSync
  by_cases modified : file.ff.modified = true
  · have flushed := keeps_flush sound
    rw [if_pos modified]
    rw [fatFfcacheflush_eq sound] at flushed ⊢
    exact ⟨flushed.trans (keeps_fields flushed.sound rfl rfl rfl rfl rfl),
      fun access => (placed access).congr rfl rfl rfl rfl, .inr rfl, rfl⟩
  · rw [if_neg modified]
    exact ⟨Keeps.refl sound, placed, linked, rfl⟩

end

end Truncation

section Directories

variable {mnt : Mount} {fs : Volume} {start : Nat} {cells : List Nat}

theorem lastCluster_path {last cluster : Nat} {front : List Nat} (mark : mnt.IsEnd last)
    (path : Path fs.fat start (front ++ [cluster]) last)
    (inside : ∀ cell ∈ front ++ [cluster], mnt.IsCluster cell) {fuel : Nat}
    (enough : front.length < fuel) : lastCluster mnt fs fuel start = some cluster := by
  induction front generalizing start fuel with
  | nil =>
    obtain ⟨fuel, rfl⟩ := Nat.exists_eq_add_one_of_ne_zero (Nat.ne_of_gt enough)
    have behind := mark.ge
    have link : fs.fat cluster = last := path.2
    rw [show start = cluster from path.1, lastCluster,
      fatGetcluster_of_cluster (inside cluster mem_cons_self)]
    exact if_pos (.inr (by omega))
  | cons cell rest ih =>
    obtain ⟨fuel, rfl⟩ := Nat.exists_eq_add_one_of_ne_zero (Nat.ne_of_gt (Nat.zero_lt_of_lt enough))
    have later : mnt.IsCluster (fs.fat cell) := by
      have onward := path.2
      cases rest with
      | nil =>
        rw [onward.1]
        exact inside cluster (by simp)
      | cons second others =>
        rw [onward.1]
        exact inside second (by simp)
    have low := later.1
    have high := later.2
    rw [show start = cell from path.1, lastCluster,
      fatGetcluster_of_cluster (inside cell mem_cons_self)]
    rw [if_neg (by omega)]
    exact ih path.2 (fun other mem => inside other (mem_cons_of_mem cell mem))
      (by rw [length_cons] at enough; omega)

theorem clearCluster_grows {cluster : Nat} (mem : cluster ∈ cells) :
    Grows mnt fs (clearCluster mnt fs cluster) cells cells := by
  refine ⟨Grown.refl 0 fs.fat cells, rfl, fun sector outside => if_neg fun inside => outside ?_⟩
  exact ⟨cluster, mem, inside⟩

/-- A directory grows. -/
theorem growDirectory_grows {growth : Nat} (chain : Chain mnt fs start cells) (stored : start ≠ 0)
    (enough : growth ≤ (freeClusters mnt fs).length) :
    ∃ fs' cells', growDirectory mnt growth fs start = some fs' ∧ Chain mnt fs' start cells' ∧
      Grows mnt fs fs' cells cells' := by
  induction growth generalizing fs cells with
  | zero => exact ⟨fs, cells, rfl, chain, Grows.refl mnt fs cells⟩
  | succ growth ih =>
    have nonempty := chain.ne_nil stored
    obtain ⟨front, cluster, split⟩ := (eq_nil_or_concat cells).resolve_left nonempty
    rw [concat_eq_append] at split
    subst split
    obtain ⟨last, mark, path⟩ := chain.linked nonempty
    have bound := chain.length_le
    have reached := @lastCluster_path mnt fs start last cluster front mark path chain.valid
      (mnt.nclusters + 1) (by rw [length_append] at bound; omega)
    have found : (front ++ [cluster])[front.length]? = some cluster := List.getElem?_concat_length
    rcases extendchain_grows chain found with
      ⟨full, _⟩ | ⟨next, fs', cells', result, longer, grows, _, behind, short⟩
    · rw [full.freeClusters_eq, length_nil] at enough
      omega
    · have valid := longer.valid next (mem_of_getElem? behind)
      have low := valid.1
      have room := grows.room
      have cleared := @clearCluster_grows mnt fs' cells' next (mem_of_getElem? behind)
      have left : growth ≤ (freeClusters mnt (clearCluster mnt fs' next)).length := by
        change growth ≤ (freeClusters mnt fs').length
        omega
      obtain ⟨fs'', cells'', done, chain'', more⟩ :=
        @ih (clearCluster mnt fs' next) cells' longer left
      refine ⟨fs'', cells'', ?_, chain'', grows.trans (cleared.trans more)⟩
      rw [growDirectory, reached, bind_some, result, bind_some]
      simp only []
      rw [if_neg (by omega)]
      exact done

end Directories

section Steps

variable {mnt : Mount} {sys : Sys} {cells : Option Nat → List Nat} {id : Nat}

/-- A step keeps the invariant and stays in its files. -/
def Good (mnt : Mount) (sys : Sys) (call : Op) : Prop :=
  ∃ next cells', step mnt sys call = some next ∧ Inv mnt next cells' ∧ Inside mnt sys call next

theorem Inv.clustersOf_eq (inv : Inv mnt sys cells) (owner : Option Nat) :
    clustersOf mnt sys.fs (sys.start mnt owner) = cells owner :=
  Chain.clustersOf_eq (inv.separate.owns owner)

/-- What a call on an open file does to the file and its entry. -/
def Served (mnt : Mount) (file : Opened) (cells : List Nat) (entry : Entry)
    (result : Option (Opened × Entry)) : Prop :=
  ∃ file' entry' cells', result = some (file', entry') ∧ Keeps mnt file file' cells cells' ∧
    (file'.ff.wrok = true → Placed mnt file'.ff cells') ∧
    (entry'.start = 0 ∨ entry'.start = file'.ff.startcluster) ∧
    entry'.directory = entry.directory

theorem Keeps.linked {file file' : Opened} {before after : List Nat} {entry : Entry}
    (keeps : Keeps mnt file file' before after) (sound : Sound mnt file before)
    (linked : entry.start = 0 ∨ entry.start = file.ff.startcluster) :
    entry.start = 0 ∨ entry.start = file'.ff.startcluster := by
  by_cases chainless : entry.start = 0
  · exact .inl chainless
  · have same := linked.resolve_left chainless
    right
    rw [keeps.start_eq sound (fun zero => chainless (same.trans zero))]
    exact same

section

variable (inv : Inv mnt sys cells)

include inv

theorem served_good {ff : File} (opened : sys.handle id = some ff) {call : Op}
    (act : Opened → Entry → Option (Opened × Entry)) (acts : step mnt sys call = sys.onFile id act)
    (owners : some id ∈ call.owners)
    (served : ∀ entry, sys.entry id = some entry → Sound mnt ⟨sys.fs, ff⟩ (cells (some id)) →
      (ff.wrok = true → Placed mnt ff (cells (some id))) → (entry.start = 0 ∨ entry.start =
      ff.startcluster) → Served mnt ⟨sys.fs, ff⟩ (cells (some id)) entry (act ⟨sys.fs, ff⟩ entry)) :
    Good mnt sys call := by
  obtain ⟨_, placed, entry, stored, plain, linked⟩ := inv.files id ff opened
  obtain ⟨file, entry', after, result, keeps, place, start, same⟩ :=
    served entry stored (inv.sound opened) placed linked
  have kept := inv.put keeps.grows keeps.sound place (same.trans plain) start
  refine ⟨sys.put id file entry', update cells (some id) after, ?_, kept,
    fun sector outside => keeps.grows.data sector ?_⟩
  · rw [acts]
    simp [onFile, opened, stored, result]
  · have apart := outside (some id) owners
    rwa [kept.clustersOf_eq, update_self] at apart

theorem write_good {data : List UInt8} (allowed : Allowed sys (.write id data))
    (fits : Fits mnt sys (.write id data)) : Good mnt sys (.write id data) := by
  obtain ⟨ff, opened⟩ := isSome_iff_exists.mp allowed.1
  refine served_good inv opened
    (fun file entry => (fatWrite mnt file data).map fun result => (result.2, entry)) rfl
    (mem_singleton_self _) fun entry _ sound placed linked => ?_
  obtain ⟨ret, file, after, done, keeps, place⟩ := @fatWrite_keeps mnt ⟨sys.fs, ff⟩ _ sound placed
    (fits ff opened).room data
  exact ⟨file, entry, after, by rw [done]; rfl, keeps, place, keeps.linked sound linked, rfl⟩

theorem seek_good {offset : Int} {whence : Whence} (allowed : Allowed sys (.seek id offset whence))
    (fits : Fits mnt sys (.seek id offset whence)) : Good mnt sys (.seek id offset whence) := by
  obtain ⟨ff, opened⟩ := isSome_iff_exists.mp allowed.1
  refine served_good inv opened
    (fun file entry => (fatSeek mnt file offset whence).map fun result => (result.2, entry)) rfl
    (mem_singleton_self _) fun entry _ sound placed linked => ?_
  cases target : seekPosition ff offset whence with
  | none =>
    refine ⟨_, entry, _, ?_, Keeps.refl sound, placed, linked, rfl⟩
    rw [fatSeek, target]
    rfl
  | some position =>
    obtain ⟨ret, file, after, done, keeps, kept⟩ := fatSeek_to sound placed target
      (fits ff opened position target)
    exact ⟨file, entry, after, by rw [done]; rfl, keeps,
      fun access => (kept (keeps.wrok ▸ access)).2, keeps.linked sound linked, rfl⟩

theorem truncate_good {length : Int} (allowed : Allowed sys (.truncate id length))
    (fits : Fits mnt sys (.truncate id length)) : Good mnt sys (.truncate id length) := by
  obtain ⟨ff, opened⟩ := isSome_iff_exists.mp allowed.1
  obtain ⟨first, kept⟩ := fits ff opened
  refine served_good inv opened
    (fun file entry => (fatTruncate mnt file entry length).map Prod.snd) rfl
    (mem_singleton_self _) fun entry stored sound placed linked => ?_
  obtain ⟨ret, file, entry', after, done, keeps, place, start, plain⟩ :=
    @fatTruncate_keeps mnt entry _ ⟨sys.fs, ff⟩ sound placed linked first length (kept entry stored)
  refine ⟨file, entry', after, by rw [done]; rfl, keeps, place, ?_, plain⟩
  rcases start with zero | same
  · exact .inl zero
  · rw [same]
    exact keeps.linked sound linked

theorem sync_good (allowed : Allowed sys (.sync id)) : Good mnt sys (.sync id) := by
  obtain ⟨ff, opened⟩ := isSome_iff_exists.mp allowed
  refine served_good inv opened (fun file entry => some (fatSync file entry)) rfl
    (mem_singleton_self _) fun entry _ sound placed linked => ?_
  obtain ⟨keeps, place, start, plain⟩ := fatSync_keeps sound placed linked
  exact ⟨_, _, _, rfl, keeps, place, start, plain⟩

/-- A file is no longer open. Its entry tells its first cluster now. -/
theorem Inv.drop {ff : File} {entry : Entry} (opened : sys.handle id = some ff)
    (stored : sys.entry id = some entry) (linked : entry.start = 0 ∨ entry.start = ff.startcluster) :
    ∃ cells', Inv mnt { sys with handle := update sys.handle id none } cells' ∧
      (entry.start = ff.startcluster → cells' = cells) := by
  have gone : update sys.handle id none id = none := update_self ..
  have same : ∀ other, other ≠ id → update sys.handle id none other = sys.handle other ∧
      sys.entry other = sys.entry other := fun other apart => ⟨update_of_ne apart .., rfl⟩
  have others := @start_other mnt sys id { sys with handle := update sys.handle id none } same
  have here : start mnt { sys with handle := update sys.handle id none } (some id) =
      entry.start := by
    simp [start, stored]
  have closed : ∀ ff, update sys.handle id none id ≠ some ff := by simp
  by_cases first : entry.start = ff.startcluster
  · refine ⟨cells, ⟨?_, inv.files_keep same (fun _ _ => prefix_rfl) fun ff opened =>
      absurd opened (closed ff)⟩, fun _ => rfl⟩
    have unchanged : start mnt { sys with handle := update sys.handle id none } =
        sys.start mnt := by
      funext owner
      by_cases own : owner = some id
      · rw [own, here, first, start_open opened]
      · exact others owner own
    rw [unchanged]
    exact inv.separate
  · refine ⟨update cells (some id) [], ⟨?_, inv.files_keep same (prefix_update _) fun ff opened =>
      absurd opened (closed ff)⟩, fun equal => absurd equal first⟩
    exact inv.separate.release (some id)
      (fun owner differ => ⟨others owner differ, update_of_ne differ ..⟩) (fun _ _ => rfl)
      ⟨here.trans (linked.resolve_right first), update_self ..⟩

theorem close_good (allowed : Allowed sys (.close id)) : Good mnt sys (.close id) := by
  obtain ⟨ff, opened⟩ := isSome_iff_exists.mp allowed
  obtain ⟨_, placed, entry, stored, plain, linked⟩ := inv.files id ff opened
  obtain ⟨keeps, place, start, same⟩ := fatSync_keeps (inv.sound opened) placed linked
  have kept := inv.put keeps.grows keeps.sound place (same.trans plain) start
  obtain ⟨cells', dropped, equal⟩ := kept.drop (update_self ..) (update_self ..) start
  refine ⟨_, cells', ?_, dropped, fun sector outside => ?_⟩
  · simp [step, onFile, opened, stored]
  · change (fatSync ⟨sys.fs, ff⟩ entry).1.fs.disk sector = sys.fs.disk sector
    by_cases modified : ff.modified = true
    · refine keeps.grows.data sector ?_
      have apart := outside (some id) (mem_singleton_self _)
      have first : (fatSync ⟨sys.fs, ff⟩ entry).2.start =
          (fatSync ⟨sys.fs, ff⟩ entry).1.ff.startcluster := by
        unfold fatSync
        rw [if_pos modified]
      rwa [dropped.clustersOf_eq, equal first, update_self] at apart
    · unfold fatSync
      rw [if_neg modified]

end

theorem Inv.erase (inv : Inv mnt sys cells) (closed : sys.handle id = none) {entry : Option Entry}
    (gone : (entry.map Entry.start).getD 0 = 0) (nextfree : Nat) :
    Inv mnt { sys with
        fs := { sys.fs.erased (cells (some id)) with fsinextfree := nextfree }
        entry := update sys.entry id entry }
      (update cells (some id) []) := by
  have same : ∀ other, other ≠ id → sys.handle other = sys.handle other ∧
      update sys.entry id entry other = sys.entry other := fun other apart =>
    ⟨rfl, update_of_ne apart ..⟩
  constructor
  · refine inv.separate.release (some id)
      (fun owner differ => ⟨start_other same owner differ, update_of_ne differ ..⟩)
      (fun cell outside => if_neg outside) ⟨?_, update_self ..⟩
    simp [start, closed, gone]
  · exact inv.files_keep same (prefix_update _) fun ff opened =>
      absurd (closed.symm.trans opened) (by simp)

section

variable (inv : Inv mnt sys cells)

include inv

theorem good_same {call : Op} (same : step mnt sys call = some sys) : Good mnt sys call :=
  ⟨sys, cells, same, inv, fun _ _ => rfl⟩

theorem remove_good (closed : Allowed sys (.remove id)) : Good mnt sys (.remove id) := by
  cases stored : sys.entry id with
  | none => exact good_same inv (by simp [step, fatRemove, stored])
  | some entry =>
    by_cases readonly : entry.readonly = true
    · exact good_same inv (by simp [step, fatRemove, stored, readonly])
    by_cases directory : entry.directory = true
    · refine good_same inv ?_
      simp [step, fatRemove, stored, if_neg readonly, directory]
    have removed := fatRemovechain_chain (chain_closed inv.separate closed stored)
    refine ⟨_, _, ?_, @Inv.erase mnt sys cells id inv closed none rfl sys.fs.fsinextfree,
      fun _ _ => rfl⟩
    simp only [step, fatRemove, stored, if_neg readonly, if_neg directory, removed, map_some]
    rfl

/-- The part of `fat_open` behind the directory entry. -/
theorem openEntry_keeps {entry : Entry} (closed : sys.handle id = none)
    (stored : sys.entry id = some entry) (plain : entry.directory = false) (flags : Oflags)
    (memory : Bool) :
    ∃ ret next after, openEntry mnt sys id entry flags memory = some (ret, next) ∧
      Inv mnt next (update cells (some id) after) ∧
      ∀ sector, ¬ InClusters mnt after sector → next.fs.disk sector = sys.fs.disk sector := by
  unfold openEntry
  cases memory with
  | false =>
    refine ⟨-enomem, sys, cells (some id), rfl, ?_, fun _ _ => rfl⟩
    rw [update_eq_self]
    exact inv
  | true =>
    have owns := chain_closed inv.separate closed stored
    have sound : Sound mnt ⟨sys.fs, openFile mnt entry flags.rdok flags.wrok⟩ (cells (some id)) :=
      ⟨owns, fun dirty => by cases dirty⟩
    have placed : Placed mnt (openFile mnt entry flags.rdok flags.wrok) (cells (some id)) := by
      refine .inl ⟨rfl, ?_⟩
      by_cases chainless : entry.start = 0
      · exact .inl chainless
      · exact .inr ⟨0, owns.head (owns.ne_nil chainless)⟩
    have opens : ∃ file after, (if flags.append = true ∧ flags.wrok = true then
        fatSeek mnt ⟨sys.fs, openFile mnt entry flags.rdok flags.wrok⟩ entry.size .set
        else some (0, ⟨sys.fs, openFile mnt entry flags.rdok flags.wrok⟩)) = some (0, file) ∧
        Keeps mnt ⟨sys.fs, openFile mnt entry flags.rdok flags.wrok⟩ file (cells (some id)) after ∧
        Placed mnt file.ff after := by
      by_cases append : flags.append = true ∧ flags.wrok = true
      · rw [if_pos append]
        obtain ⟨ret, file, after, done, keeps, kept⟩ := @fatSeek_to mnt _ _ entry.size sound
          (fun _ => placed) entry.size .set rfl (.inr (.inr (.inl rfl)))
        obtain ⟨rfl, place⟩ := kept append.2
        exact ⟨file, after, done, keeps, place⟩
      · rw [if_neg append]
        exact ⟨_, _, rfl, Keeps.refl sound, placed⟩
    obtain ⟨file, after, result, keeps, place⟩ := opens
    have linked : entry.start = 0 ∨ entry.start = file.ff.startcluster :=
      keeps.linked sound (.inr rfl)
    have kept := inv.put keeps.grows keeps.sound (fun _ => place) plain linked
    have same : sys.put id file entry =
        { sys with fs := file.fs, handle := update sys.handle id (some file.ff) } := by
      unfold put
      rw [← stored, update_eq_self]
    refine ⟨0, _, after, ?_, same ▸ kept, keeps.grows.data⟩
    simp only []
    rw [result]
    rfl

theorem dirStart_eq {dir : Option Nat} (isdir : sys.IsDirectory dir) :
    sys.dirStart mnt dir = sys.start mnt dir := by
  cases dir with
  | none => rfl
  | some dir =>
    have closed : sys.handle dir = none := by
      by_contra opened
      obtain ⟨ff, opened⟩ := ne_none_iff_exists'.mp opened
      obtain ⟨_, _, entry, stored, plain, _⟩ := inv.files dir ff opened
      simp [IsDirectory, stored, plain] at isdir
    rw [start_closed closed]
    rfl

/-- A file is created in a directory that may have grown. -/
theorem Inv.create {dir : Option Nat} {fs : Volume} {after : List Nat}
    (closed : sys.handle id = none) (absent : sys.entry id = none)
    (chain : Chain mnt fs (sys.start mnt dir) after) (grows : Grows mnt sys.fs fs (cells dir) after) :
    Inv mnt { sys with
        fs := fs
        entry := update sys.entry id (some ⟨0, 0, false, false⟩) }
      (update cells dir after) := by
  have same : start mnt { sys with
      fs := fs
      entry := update sys.entry id (some ⟨0, 0, false, false⟩) } = sys.start mnt := by
    funext owner
    cases owner with
    | none => rfl
    | some other =>
      by_cases own : other = id
      · simp [start, own, absent]
      · simp only [start, update_of_ne own]
  constructor
  · rw [same]
    refine inv.separate.grow dir (fun owner differ => ⟨rfl, update_of_ne differ ..⟩)
      mnt.zero_not_cluster mnt.zero_not_end ?_ ?_
    · rw [update_self]
      exact grows.links
    · rw [update_self]
      exact chain
  · refine inv.files_keep (fun other apart => ⟨rfl, update_of_ne apart ..⟩) (fun other _ => ?_)
      fun ff opened => absurd (closed.symm.trans opened) (by simp)
    by_cases own : some other = dir
    · rw [own, update_self]
      exact grows.links.stays
    · rw [update_of_ne own]

theorem fatDircreate_keeps {dir : Option Nat} {growth : Nat} (closed : sys.handle id = none)
    (absent : sys.entry id = none) (isdir : sys.IsDirectory dir)
    (enough : growth ≤ (freeClusters mnt sys.fs).length) :
    fatDircreate mnt sys id dir growth = some (-enospc, sys) ∨
      ∃ fs after, fatDircreate mnt sys id dir growth = some (0, { sys with
          fs := fs
          entry := update sys.entry id (some ⟨0, 0, false, false⟩) }) ∧
        Inv mnt { sys with
          fs := fs
          entry := update sys.entry id (some ⟨0, 0, false, false⟩) }
          (update cells dir after) ∧
        ∀ sector, ¬ InClusters mnt after sector → fs.disk sector = sys.fs.disk sector := by
  have owns := inv.separate.owns dir
  unfold fatDircreate
  rw [dirStart_eq inv isdir]
  by_cases fixed : 0 < growth ∧ sys.start mnt dir = 0
  · exact .inl (if_pos fixed)
  have grown : ∃ fs after, growDirectory mnt growth sys.fs (sys.start mnt dir) = some fs ∧
      Chain mnt fs (sys.start mnt dir) after ∧ Grows mnt sys.fs fs (cells dir) after := by
    by_cases still : growth = 0
    · rw [still]
      exact ⟨sys.fs, cells dir, rfl, owns, Grows.refl ..⟩
    · exact growDirectory_grows owns (fun zero => fixed ⟨Nat.pos_of_ne_zero still, zero⟩) enough
  obtain ⟨fs, after, done, chain, grows⟩ := grown
  refine .inr ⟨fs, after, ?_, inv.create closed absent chain grows, grows.data⟩
  simp [if_neg fixed, done]

theorem openFile_good {flags : Oflags} {dir : Option Nat} {growth : Nat} {memory : Bool}
    (allowed : Allowed sys (.openFile id flags dir growth memory))
    (fits : Fits mnt sys (.openFile id flags dir growth memory)) :
    Good mnt sys (.openFile id flags dir growth memory) := by
  obtain ⟨closed, isdir⟩ := allowed
  cases stored : sys.entry id with
  | some entry =>
    by_cases directory : entry.directory = true
    · refine good_same inv ?_
      simp [step, fatOpen, stored, directory]
    have plain : entry.directory = false := by simpa using directory
    by_cases existing : flags.creat = true ∧ flags.excl = true
    · refine good_same inv ?_
      simp [step, fatOpen, stored, if_neg directory, if_pos existing]
    by_cases denied : flags.wrok = true ∧ entry.readonly = true
    · refine good_same inv ?_
      simp [step, fatOpen, stored, if_neg directory, if_neg existing, if_pos denied]
    by_cases truncates : flags.trunc = true ∧ flags.wrok = true
    · let empty : Entry := { entry with start := 0, size := 0, readonly := false }
      have truncated : fatDirtruncate mnt sys.fs entry = some (0, { sys.fs.erased
          (cells (some id)) with fsinextfree := toUint (entry.start - 1) }, empty) := by
        unfold fatDirtruncate
        rw [fatRemovechain_chain (chain_closed inv.separate closed stored)]
        rfl
      obtain ⟨ret, next, after, done, kept, data⟩ :=
        openEntry_keeps (inv.erase closed (show ((some empty).map _).getD 0 = 0 from rfl)
          (toUint (entry.start - 1))) closed (update_self ..) plain flags memory
      refine ⟨next, _, ?_, kept, fun sector outside => data sector ?_⟩
      · simp only [step, fatOpen, stored, if_neg directory, if_neg existing, if_neg denied,
          if_pos truncates, truncated, bind_some, lt_self_iff_false, if_false, done, map_some]
      · have apart := outside (some id) (by simp [Op.owners])
        rwa [kept.clustersOf_eq, update_self] at apart
    · obtain ⟨ret, next, after, done, kept, data⟩ :=
        openEntry_keeps inv closed stored plain flags memory
      refine ⟨next, _, ?_, kept, fun sector outside => data sector ?_⟩
      · simp only [step, fatOpen, stored, if_neg directory, if_neg existing, if_neg denied,
          if_neg truncates, done, map_some]
      · have apart := outside (some id) (by simp [Op.owners])
        rwa [kept.clustersOf_eq, update_self] at apart
  | none =>
    by_cases absent : (!flags.creat) = true
    · refine good_same inv ?_
      simp [step, fatOpen, stored, absent]
    have elsewhere : dir ≠ some id := fun same => by
      rw [same] at isdir
      simp [IsDirectory, stored] at isdir
    rcases fatDircreate_keeps inv closed stored isdir fits with
      refused | ⟨fs, after, created, kept, data⟩
    · refine good_same inv ?_
      simp only [step, fatOpen, stored, if_neg absent, refused, bind_some]
      rfl
    · obtain ⟨ret, next, after', done, kept', data'⟩ :=
        openEntry_keeps kept closed (update_self ..) rfl flags memory
      refine ⟨next, _, ?_, kept', fun sector outside => ?_⟩
      · simp only [step, fatOpen, stored, if_neg absent, created, bind_some,
          lt_self_iff_false, if_false, done, map_some]
      · have own := outside (some id) (by simp [Op.owners])
        have parent := outside dir (by simp [Op.owners])
        rw [kept'.clustersOf_eq, update_self] at own
        rw [kept'.clustersOf_eq, update_of_ne elsewhere, update_self] at parent
        exact (data' sector own).trans (data sector parent)

end

end Steps

section Runs

variable {mnt : Mount}

theorem step_good {sys : Sys} {cells : Option Nat → List Nat} (inv : Inv mnt sys cells) {call : Op}
    (allowed : Allowed sys call) (fits : Fits mnt sys call) : Good mnt sys call := by
  cases call with
  | openFile id flags dir growth memory => exact openFile_good inv allowed fits
  | write id data => exact write_good inv allowed fits
  | seek id offset whence => exact seek_good inv allowed fits
  | truncate id length => exact truncate_good inv allowed fits
  | sync id => exact sync_good inv allowed
  | close id => exact close_good inv allowed
  | remove id => exact remove_good inv allowed

/-- On a consistent volume with no open file, in every run of calls that remove no clusters from an
open file, do not lose the place of a file and find first clusters, the volume stays consistent, and
each call writes to sectors of its own file or directory only. -/
theorem clusters_stay_owned (sys : Sys) (closed : ∀ id, sys.handle id = none)
    (consistent : Consistent mnt sys) (calls : List Op)
    (allowed : Admitted (step mnt) Allowed sys calls)
    (fits : Admitted (step mnt) (Fits mnt) sys calls) :
    ∃ final, run (step mnt) sys calls = some final ∧ Consistent mnt final ∧
      ∀ call next, Allowed final call → Fits mnt final call → step mnt final call = some next →
        Inside mnt final call next := by
  obtain ⟨cells, separate⟩ := consistent
  have initial : ∃ cells, Inv mnt sys cells := by
    refine ⟨cells, separate, fun id ff opened => ?_⟩
    rw [closed id] at opened
    cases opened
  have keeps : ∀ state call, (∃ cells, Inv mnt state cells) →
      Allowed state call ∧ Fits mnt state call →
      ∃ next, step mnt state call = some next ∧ ∃ cells, Inv mnt next cells := by
    rintro state call ⟨before, inv⟩ ⟨allowed, fits⟩
    obtain ⟨next, after, done, kept, _⟩ := step_good inv allowed fits
    exact ⟨next, done, after, kept⟩
  obtain ⟨final, reached, cells', inv⟩ := run_invariant keeps initial (admitted_and allowed fits)
  refine ⟨final, reached, ⟨cells', inv.separate⟩, fun call next allowed fits done => ?_⟩
  obtain ⟨other, _, same, _, inside⟩ := step_good inv allowed fits
  rw [done] at same
  cases same
  exact inside

/-- A volume with two sectors of four bytes in each of its six clusters. -/
def tinyMount : Mount where
  type := .fat12
  hwsectorsize := 4
  fatsecperclus := 2
  nclusters := 8
  database := 3
  rootcluster := 0
  indirect := false
  sector_pos := Nat.succ_pos 3
  cluster_pos := by decide
  cluster_lt := by decide
  two_lt_nclusters := by decide
  nclusters_le := by decide
  database_pos := by decide

/-- The volume without files. -/
def tinySys : Sys where
  fs := ⟨fun _ => 0, 0, fun _ _ => 0⟩
  entry := fun _ => none
  handle := fun _ => none

theorem tinySys_consistent : Consistent tinyMount tinySys := by
  refine ⟨fun _ => [], fun owner => ?_, fun _ _ _ cell mem => absurd mem not_mem_nil⟩
  cases owner with
  | none => exact owns_nil
  | some id => exact owns_nil

/-- To create a file, or to open it, for reading and writing. -/
def createFlags : Oflags := ⟨true, true, true, false, false, false⟩

/-- A file of two clusters is written, extended, closed, truncated by `fat_open` and removed. -/
def removing : List Op :=
  [.openFile 0 createFlags none 0 true, .write 0 [1, 2, 3, 4, 5, 6, 7, 8, 9], .seek 0 3 .set,
    .write 0 [0], .truncate 0 12, .truncate 0 11, .close 0,
    .openFile 0 { createFlags with trunc := true } none 0 true, .close 0, .remove 0]

/-- The file is gone and all clusters are free. -/
theorem clusters_stay_owned_twoClusters :
    ∃ final, run (step tinyMount) tinySys removing = some final ∧
      (final.entry 0 = none ∧ freeClusters tinyMount final.fs = freeClusters tinyMount tinySys.fs) ∧
      Consistent tinyMount final ∧
      ∀ call next, Allowed final call → Fits tinyMount final call →
        step tinyMount final call = some next → Inside tinyMount final call next := by
  obtain ⟨final, reached, kept⟩ := clusters_stay_owned tinySys (fun _ => rfl) tinySys_consistent
    removing (by decide +kernel) (by decide +kernel)
  have gone : ∀ final ∈ run (step tinyMount) tinySys removing,
      final.entry 0 = none ∧ freeClusters tinyMount final.fs = freeClusters tinyMount tinySys.fs := by
    decide +kernel
  exact ⟨final, reached, gone final reached, kept⟩

/-- A file of two clusters is truncated to one byte. -/
def shrinking : List Op :=
  [.openFile 0 createFlags none 0 true, .write 0 [1, 2, 3, 4, 5, 6, 7, 8, 9], .sync 0,
    .truncate 0 1]

/-- Its first cluster is free then. -/
theorem truncate_frees_kept :
    Consistent tinyMount tinySys ∧
      Admitted (step tinyMount) Allowed tinySys shrinking ∧
      ∃ final, run (step tinyMount) tinySys shrinking = some final ∧
        ¬ Consistent tinyMount final := by
  refine ⟨tinySys_consistent, by decide +kernel, ?_⟩
  have reached : (run (step tinyMount) tinySys shrinking).map (fun final =>
      (final.start tinyMount (some 0), final.fs.fat (final.start tinyMount (some 0)))) =
      some (2, 0) := by
    decide +kernel
  obtain ⟨final, performed, values⟩ := map_eq_some_iff.mp reached
  obtain ⟨start, free⟩ := Prod.mk.inj values
  refine ⟨final, performed, fun ⟨cells, separate⟩ => ?_⟩
  have owns := separate.owns (some 0)
  have nonempty := owns.ne_nil (by rw [start]; decide)
  exact Chain.fat_ne_zero owns (mem_of_getElem? (owns.head nonempty)) free

end Runs

end Chewie.Fs.Fat
