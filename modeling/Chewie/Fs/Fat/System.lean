import Chewie.Fs.Fat.Model

/-!
# Volumes with open files

The directory entries of a volume and the files that are open, at most one for each entry. The
entries of all directories are kept in one table by a number; where an entry is created, and by how
many clusters its directory has to grow for it, is an argument of the call.
-/

namespace Chewie.Fs.Fat

variable (mnt : Mount)

/-- A volume with its directory entries and its open files. -/
structure Sys where
  fs : Volume
  entry : Nat → Option Entry
  handle : Nat → Option File

/-- The flags of `fat_open`. -/
structure Oflags where
  rdok : Bool
  wrok : Bool
  creat : Bool
  excl : Bool
  trunc : Bool
  append : Bool

/-- The last cluster of a directory, which a search for a free entry ends in. -/
def lastCluster (fs : Volume) : Nat → Nat → Option Nat
  | 0, _ => none
  | fuel + 1, cluster =>
    let next := fatGetcluster mnt fs cluster
    if next < 2 ∨ mnt.nclusters ≤ next then some cluster else lastCluster fs fuel next.toNat

/-- A new cluster of a directory is cleared. -/
def clearCluster (fs : Volume) (cluster : Nat) : Volume :=
  { fs with
    disk := fun sector =>
      if fatCluster2sector mnt cluster ≤ sector ∧
          sector < fatCluster2sector mnt cluster + mnt.fatsecperclus then fun _ => 0
      else fs.disk sector }

/-- The part of `fat_allocatedirentry` that extends a directory. On a full volume the call searches
the directory again and again and does not return. -/
def growDirectory : Nat → Volume → Nat → Option Volume
  | 0, fs, _ => some fs
  | growth + 1, fs, start =>
    (lastCluster mnt fs (mnt.nclusters + 1) start).bind fun last =>
      (fatExtendchain mnt fs last).bind fun (cluster, fs) =>
        if cluster ≤ 0 then none
        else growDirectory growth (clearCluster mnt fs cluster.toNat) start

/-- The first cluster of a directory; the root directory has no entry. -/
def Sys.dirStart (sys : Sys) : Option Nat → Nat
  | none => mnt.rootcluster
  | some dir => ((sys.entry dir).map Entry.start).getD 0

/-- `fat_dircreate`. A directory with a fixed place does not grow. -/
def fatDircreate (sys : Sys) (id : Nat) (dir : Option Nat) (growth : Nat) :
    Option (Int × Sys) :=
  let start := sys.dirStart mnt dir
  if 0 < growth ∧ start = 0 then some (-enospc, sys)
  else
    (growDirectory mnt growth sys.fs start).map fun fs =>
      (0, { sys with
        fs := fs
        entry := Function.update sys.entry id (some ⟨0, 0, false, false⟩) })

/-- The part of `fat_open` behind the directory entry. -/
def openEntry (sys : Sys) (id : Nat) (entry : Entry) (flags : Oflags) (memory : Bool) :
    Option (Int × Sys) :=
  if !memory then some (-enomem, sys)
  else
    let file : Opened := ⟨sys.fs, openFile mnt entry flags.rdok flags.wrok⟩
    let opened :=
      if flags.append ∧ flags.wrok then fatSeek mnt file entry.size .set else some (0, file)
    opened.map fun (ret, file) =>
      if ret < 0 then (ret, { sys with fs := file.fs })
      else (0, { sys with fs := file.fs, handle := Function.update sys.handle id (some file.ff) })

def fatOpen (sys : Sys) (id : Nat) (flags : Oflags) (dir : Option Nat) (growth : Nat)
    (memory : Bool) : Option (Int × Sys) :=
  match sys.entry id with
  | some entry =>
    if entry.directory then some (-eisdir, sys)
    else if flags.creat ∧ flags.excl then some (-eexist, sys)
    else if flags.wrok ∧ entry.readonly then some (-eacces, sys)
    else if flags.trunc ∧ flags.wrok then
      (fatDirtruncate mnt sys.fs entry).bind fun (ret, fs, entry) =>
        let sys := { sys with fs := fs, entry := Function.update sys.entry id (some entry) }
        if ret < 0 then some (ret, sys) else openEntry mnt sys id entry flags memory
    else openEntry mnt sys id entry flags memory
  | none =>
    if !flags.creat then some (-enoent, sys)
    else
      (fatDircreate mnt sys id dir growth).bind fun (ret, sys) =>
        if ret < 0 then some (ret, sys)
        else openEntry mnt sys id ⟨0, 0, false, false⟩ flags memory

/-- `fat_remove` of a file. -/
def fatRemove (sys : Sys) (id : Nat) : Option (Int × Sys) :=
  match sys.entry id with
  | none => some (-enoent, sys)
  | some entry =>
    if entry.readonly then some (-eacces, sys)
    else if entry.directory then some (-eisdir, sys)
    else
      (fatRemovechain mnt sys.fs entry.start).map fun (ret, fs) =>
        (ret, { sys with fs := fs, entry := Function.update sys.entry id none })

/-- What an operation on an open file leaves. -/
def Sys.put (sys : Sys) (id : Nat) (file : Opened) (entry : Entry) : Sys where
  fs := file.fs
  entry := Function.update sys.entry id (some entry)
  handle := Function.update sys.handle id (some file.ff)

/-- The calls. -/
inductive Op where
  | openFile (id : Nat) (flags : Oflags) (dir : Option Nat) (growth : Nat) (memory : Bool)
  | write (id : Nat) (data : List UInt8)
  | seek (id : Nat) (offset : Int) (whence : Whence)
  | truncate (id : Nat) (length : Int)
  | sync (id : Nat)
  | close (id : Nat)
  | remove (id : Nat)

/-- A call on an open file. There is no step for a file that is not open. -/
def Sys.onFile (sys : Sys) (id : Nat) (call : Opened → Entry → Option (Opened × Entry)) :
    Option Sys :=
  match sys.handle id, sys.entry id with
  | some ff, some entry => (call ⟨sys.fs, ff⟩ entry).map fun (file, entry) => sys.put id file entry
  | _, _ => none

def step (sys : Sys) : Op → Option Sys
  | .openFile id flags dir growth memory =>
    (fatOpen mnt sys id flags dir growth memory).map Prod.snd
  | .write id data => sys.onFile id fun file entry =>
      (fatWrite mnt file data).map fun result => (result.2, entry)
  | .seek id offset whence => sys.onFile id fun file entry =>
      (fatSeek mnt file offset whence).map fun result => (result.2, entry)
  | .truncate id length => sys.onFile id fun file entry =>
      (fatTruncate mnt file entry length).map Prod.snd
  | .sync id => sys.onFile id fun file entry => some (fatSync file entry)
  | .close id =>
    (sys.onFile id fun file entry => some (fatSync file entry)).map fun sys =>
      { sys with handle := Function.update sys.handle id none }
  | .remove id => (fatRemove mnt sys id).map Prod.snd

end Chewie.Fs.Fat
