import Chewie.Lib.Signed

/-!
# Files of a FAT volume

The cluster table, the directory entries and the data sectors of a volume, and the file operations
on it. The device never fails and the mount stays healthy. The table is an array here: its packing
and the sector cache that it is read and written through are left out. Sector and cluster sizes are
powers of two, so that the masks of the code are remainders. `off_t` and `size_t` have 32 bits.
Loops run on fuel; there is no result when it runs out.
-/

namespace Chewie.Fs.Fat

def enoent : Int := 2

def enomem : Int := 12

def eacces : Int := 13

def eexist : Int := 17

def eisdir : Int := 21

def einval : Int := 22

def efbig : Int := 27

def enospc : Int := 28

/-- Conversion to `off_t`. -/
def toOff (value : Int) : Int := Signed.wrap 32 value

/-- Conversion to `unsigned int` or `size_t`. -/
def toUint (value : Int) : Nat := (value % 2 ^ 32).toNat

/-- `fs_type`. -/
inductive FsType where
  | fat12
  | fat16
  | fat32
  deriving DecidableEq

/-- The number of bits of an entry of the table that hold a cluster. -/
def FsType.bits : FsType → Nat
  | .fat12 => 12
  | .fat16 => 16
  | .fat32 => 28

/-- What `struct fat_mountpt_s` says about the layout of the volume, and the configuration. -/
structure Mount where
  type : FsType
  hwsectorsize : Nat
  fatsecperclus : Nat
  nclusters : Nat
  database : Nat
  /-- The first cluster of the root directory, or zero when the root has a fixed place. -/
  rootcluster : Nat
  indirect : Bool
  sector_pos : 0 < hwsectorsize
  cluster_pos : 0 < fatsecperclus
  cluster_lt : fatsecperclus * hwsectorsize < 2 ^ 31
  two_lt_nclusters : 2 < nclusters
  /-- The marks of the table are not clusters. -/
  nclusters_le : nclusters ≤ 2 ^ type.bits - 16
  /-- The boot sector and the table are in front of the clusters. -/
  database_pos : 0 < database

/-- The size of a cluster in bytes. -/
def Mount.clustersize (mnt : Mount) : Nat := mnt.fatsecperclus * mnt.hwsectorsize

/-- What the operations change on the volume. -/
structure Volume where
  fat : Nat → Nat
  fsinextfree : Nat
  disk : Int → Nat → UInt8

/-- `struct fat_file_s`, with the position of `struct file`. -/
structure File where
  rdok : Bool
  wrok : Bool
  valid : Bool
  dirty : Bool
  modified : Bool
  sectorsincluster : Nat
  currentcluster : Nat
  startcluster : Nat
  /-- `ff_currentsector`, zero when it is not known. -/
  currentsector : Int
  cachesector : Int
  size : Int
  pos : Int
  buffer : Nat → UInt8

/-- An open file on its volume. -/
structure Opened where
  fs : Volume
  ff : File

structure Entry where
  start : Nat
  size : Int
  directory : Bool
  readonly : Bool
  deriving DecidableEq

section Clusters

variable (mnt : Mount)

/-- The clusters of the volume. -/
def Mount.IsCluster (cluster : Nat) : Prop := 2 ≤ cluster ∧ cluster < mnt.nclusters

instance decidableIsCluster (cluster : Nat) : Decidable (mnt.IsCluster cluster) :=
  inferInstanceAs (Decidable (_ ∧ _))

def fatCluster2sector (cluster : Nat) : Int :=
  if mnt.IsCluster cluster then ((cluster - 2) * mnt.fatsecperclus + mnt.database : Nat)
  else -einval

def fatGetcluster (fs : Volume) (clusterno : Nat) : Int :=
  if mnt.IsCluster clusterno then fs.fat clusterno else -einval

def fatPutcluster (fs : Volume) (clusterno nextcluster : Nat) : Int × Volume :=
  if clusterno = 0 ∨ mnt.IsCluster clusterno then
    (0, { fs with fat := Function.update fs.fat clusterno (nextcluster % 2 ^ mnt.type.bits) })
  else (-einval, fs)

def removechainLoop : Nat → Volume → Nat → Option (Int × Volume)
  | 0, _, _ => none
  | fuel + 1, fs, cluster =>
    if mnt.IsCluster cluster then
      let nextcluster := fatGetcluster mnt fs cluster
      if nextcluster < 0 then some (nextcluster, fs)
      else
        let (ret, fs) := fatPutcluster mnt fs cluster 0
        if ret < 0 then some (ret, fs) else removechainLoop fuel fs nextcluster.toNat
    else some (0, fs)

def fatRemovechain (fs : Volume) (cluster : Nat) : Option (Int × Volume) :=
  removechainLoop mnt (mnt.nclusters + 1) fs cluster

/-- The search of `fat_extendchain`: a free cluster, zero when there is none, or an error. -/
def searchLoop (fs : Volume) (startcluster : Nat) : Nat → Nat → Option Int
  | 0, _ => none
  | fuel + 1, newcluster =>
    let newcluster := newcluster + 1
    if mnt.nclusters ≤ newcluster ∧ startcluster < 2 then some 0
    else
      let newcluster := if mnt.nclusters ≤ newcluster then 2 else newcluster
      let startsector := fatGetcluster mnt fs newcluster
      if startsector = 0 then some newcluster
      else if startsector < 0 then some startsector
      else if newcluster = startcluster then some 0
      else searchLoop fs startcluster fuel newcluster

/-- The end of `fat_extendchain`: the new cluster is marked, and linked to the chain. -/
def linkNew (fs : Volume) (cluster newcluster : Nat) : Int × Volume :=
  let (ret, fs) := fatPutcluster mnt fs newcluster 0x0fffffff
  if ret < 0 then (ret, fs)
  else
    let (ret, fs) := if cluster ≠ 0 then fatPutcluster mnt fs cluster newcluster else (0, fs)
    if ret < 0 then (ret, fs) else (newcluster, { fs with fsinextfree := newcluster })

/-- The cluster that the search of `fat_extendchain` begins behind, or what it returns at once. -/
def searchStart (fs : Volume) (cluster : Nat) : Except Int Nat :=
  if cluster = 0 then
    .ok (if fs.fsinextfree = 0 ∨ mnt.nclusters ≤ fs.fsinextfree then 1 else fs.fsinextfree)
  else
    let startsector := fatGetcluster mnt fs cluster
    if startsector < 0 then .error startsector
    else if startsector < 2 then .error 0
    else if startsector < mnt.nclusters then .error startsector
    else .ok cluster

def fatExtendchain (fs : Volume) (cluster : Nat) : Option (Int × Volume) :=
  match searchStart mnt fs cluster with
  | .error value => some (value, fs)
  | .ok startcluster =>
    (searchLoop mnt fs startcluster (mnt.nclusters + 1) startcluster).map fun found =>
      if found ≤ 0 then (found, fs) else linkNew mnt fs cluster found.toNat

def fatCreatechain (fs : Volume) : Option (Int × Volume) := fatExtendchain mnt fs 0

end Clusters

section Sectors

/-- `fat_hwwrite` of one sector. -/
def hwwrite (fs : Volume) (sector : Int) (buffer : Nat → UInt8) : Volume :=
  { fs with disk := Function.update fs.disk sector buffer }

def fatFfcacheflush (file : Opened) : Opened :=
  if file.ff.cachesector ≠ 0 ∧ file.ff.dirty ∧ file.ff.valid then
    { fs := hwwrite file.fs file.ff.cachesector file.ff.buffer
      ff := { file.ff with dirty := false } }
  else file

def fatFfcacheread (file : Opened) (sector : Int) : Opened :=
  if file.ff.cachesector ≠ sector ∨ !file.ff.valid then
    let file := fatFfcacheflush file
    { file with
      ff := { file.ff with buffer := file.fs.disk sector, cachesector := sector, valid := true } }
  else file

def fatFfcacheinvalidate (file : Opened) : Opened :=
  if file.ff.valid then
    let file := fatFfcacheflush file
    { file with ff := { file.ff with valid := false, cachesector := 0 } }
  else file

variable (mnt : Mount)

/-- `fat_hwread` of several sectors. -/
def Mount.hwread (fs : Volume) (sector : Int) (nsectors : Nat) : List UInt8 :=
  (List.range (nsectors * mnt.hwsectorsize)).map fun (offset : Nat) =>
    fs.disk (sector + (offset / mnt.hwsectorsize : Nat)) (offset % mnt.hwsectorsize)

/-- `fat_hwwrite` of several sectors. -/
def Mount.hwwriteAll (fs : Volume) (sector : Int) (nsectors : Nat) (data : List UInt8) : Volume :=
  { fs with
    disk := fun other offset =>
      if sector ≤ other ∧ other < sector + nsectors ∧ offset < mnt.hwsectorsize then
        data.getD ((other - sector).toNat * mnt.hwsectorsize + offset) 0
      else fs.disk other offset }

/-- `SEC_NDXMASK`: the offset of a position in its sector. -/
def Mount.sectorindex (position : Int) : Nat := (position % mnt.hwsectorsize).toNat

/-- Whole sectors are transferred without the buffer of the file. -/
def Mount.direct (position : Int) (buflen : Nat) : Bool :=
  0 < buflen / mnt.hwsectorsize ∧ mnt.sectorindex position = 0 ∧ !mnt.indirect

def fatCurrentsector (ff : File) (position : Int) : Int × File :=
  if position ≤ ff.size then
    let sectoroffset := (position.tdiv mnt.hwsectorsize % mnt.fatsecperclus).toNat
    (0, { ff with
      currentsector := fatCluster2sector mnt ff.currentcluster + sectoroffset
      sectorsincluster := mnt.fatsecperclus - sectoroffset })
  else (-enospc, ff)

/-- The current sector moves on. -/
def File.advance (ff : File) (nsectors : Nat) : File :=
  { ff with
    sectorsincluster := ff.sectorsincluster - nsectors
    currentsector := ff.currentsector + nsectors }

/-- The position moves on. -/
def File.move (ff : File) (nbytes : Nat) : File := { ff with pos := toOff (ff.pos + nbytes) }

/-- The current sector becomes the first one of a cluster. -/
def File.enter (ff : File) (cluster : Nat) : File :=
  { ff with
    currentcluster := cluster
    currentsector := fatCluster2sector mnt cluster
    sectorsincluster := mnt.fatsecperclus }

end Sectors

section Reads

variable (mnt : Mount)

/-- The check of `fat_read` for the end of the current cluster. -/
def readCluster (file : Opened) : Int × Opened :=
  if file.ff.sectorsincluster < 1 then
    let cluster := fatGetcluster mnt file.fs file.ff.currentcluster
    if cluster < 2 ∨ mnt.nclusters ≤ cluster then (-einval, file)
    else (0, { file with ff := file.ff.enter mnt cluster.toNat })
  else (0, file)

/-- Whole sectors are read to the user's buffer. -/
def readDirect (file : Opened) (buflen : Nat) : List UInt8 × Opened :=
  let nsectors := min (buflen / mnt.hwsectorsize) file.ff.sectorsincluster
  let file := fatFfcacheinvalidate file
  (mnt.hwread file.fs file.ff.currentsector nsectors,
    { file with ff := (file.ff.advance nsectors).move (nsectors * mnt.hwsectorsize) })

/-- A part of a sector is read by way of the buffer of the file. -/
def readCached (file : Opened) (buflen : Nat) : List UInt8 × Opened :=
  let sectorindex := mnt.sectorindex file.ff.pos
  let bytesread := min (mnt.hwsectorsize - sectorindex) buflen
  let file := fatFfcacheread file file.ff.currentsector
  let ff := if buflen < mnt.hwsectorsize - sectorindex then file.ff else file.ff.advance 1
  ((List.range bytesread).map fun offset => file.ff.buffer (sectorindex + offset),
    { file with ff := ff.move bytesread })

/-- The transfer of one turn of `fat_read`. -/
def readTurn (file : Opened) (buflen : Nat) : List UInt8 × Opened :=
  if mnt.direct file.ff.pos buflen then readDirect mnt file buflen
  else readCached mnt file buflen

/-- The loop of `fat_read`: an error or zero, and the bytes that were stored. -/
def readLoop : Nat → Opened → Nat → Option (Int × List UInt8 × Opened)
  | 0, _, _ => none
  | fuel + 1, file, buflen =>
    if buflen = 0 then some (0, [], file)
    else
      let (ret, file) := readCluster mnt file
      if ret < 0 then some (ret, [], file)
      else
        let (bytes, file) := readTurn mnt file buflen
        (readLoop fuel file (buflen - bytes.length)).map fun (ret, rest, file) =>
          (ret, bytes ++ rest, file)

/-- `fat_read`: what it returns, and the bytes that were stored in the buffer. -/
def fatRead (file : Opened) (buflen : Nat) : Option (Int × List UInt8 × Opened) :=
  if !file.ff.rdok then some (-eacces, [], file)
  else
    let bytesleft := toUint (file.ff.size - file.ff.pos)
    let buflen := min buflen bytesleft
    let (ret, ff) :=
      if file.ff.currentsector = 0 then fatCurrentsector mnt file.ff file.ff.pos
      else (0, file.ff)
    if ret < 0 then some (ret, [], file)
    else
      (readLoop mnt (buflen + 1) { file with ff := ff } buflen).map fun (ret, bytes, file) =>
        (if ret < 0 then ret else bytes.length, bytes, file)

end Reads

section Writes

variable (mnt : Mount)

/-- The first cluster of a file that has none. -/
def firstCluster (file : Opened) : Option Opened :=
  if file.ff.startcluster = 0 then
    (fatCreatechain mnt file.fs).map fun (cluster, fs) =>
      { fs := fs
        ff := { file.ff with
          startcluster := cluster.toNat
          currentcluster := cluster.toNat
          sectorsincluster := mnt.fatsecperclus } }
  else some file

/-- The first part of `fat_write` and of `fat_dirextend`: the first sector to write to. -/
def firstSector (file : Opened) (position : Int) : Option (Int × Opened) :=
  if file.ff.currentsector ≠ 0 then some (0, file)
  else
    (firstCluster mnt file).map fun file =>
      let (ret, ff) := fatCurrentsector mnt file.ff position
      (ret, { file with ff := ff })

/-- The check of `fat_write` and of `fat_dirextend` for the end of the current cluster. -/
def writeCluster (file : Opened) : Option (Int × Opened) :=
  if file.ff.sectorsincluster < 1 then
    (fatExtendchain mnt file.fs file.ff.currentcluster).map fun (cluster, fs) =>
      let file := { file with fs := fs }
      if cluster < 0 then (cluster, file)
      else if cluster < 2 ∨ mnt.nclusters ≤ cluster then (-enospc, file)
      else (0, { file with ff := file.ff.enter mnt cluster.toNat })
  else some (0, file)

/-- The current sector is brought into the buffer. Unless it is replaced as far as it matters, it is
read. -/
def Opened.loaded (file : Opened) (replaced : Bool) : Opened :=
  if replaced then
    let file := fatFfcacheflush file
    { file with ff := { file.ff with cachesector := file.ff.currentsector } }
  else fatFfcacheread file file.ff.currentsector

/-- Bytes are put into the buffer. The current sector moves on when they reach its end. -/
def File.store (ff : File) (sectorindex : Nat) (data : List UInt8) : File :=
  { (if sectorindex + data.length < mnt.hwsectorsize then ff else ff.advance 1) with
    buffer := fun offset =>
      if sectorindex ≤ offset ∧ offset < sectorindex + data.length then
        data.getD (offset - sectorindex) 0
      else ff.buffer offset
    dirty := true
    valid := true
    modified := true }

/-- Bytes are put into the current sector, by way of the buffer. -/
def storeSector (file : Opened) (replaced : Bool) (sectorindex : Nat) (data : List UInt8) :
    Opened :=
  let file := file.loaded replaced
  { file with ff := file.ff.store mnt sectorindex data }

/-- Whole sectors are written from the user's buffer. -/
def writeDirect (file : Opened) (data : List UInt8) : Nat × Opened :=
  let nsectors := min (data.length / mnt.hwsectorsize) file.ff.sectorsincluster
  let writesize := nsectors * mnt.hwsectorsize
  let file := fatFfcacheinvalidate file
  (writesize,
    { fs := mnt.hwwriteAll file.fs file.ff.currentsector nsectors data
      ff := { (file.ff.advance nsectors).move writesize with modified := true } })

/-- The sector need not be read before a part of it is written. -/
def Mount.replaced (ff : File) (buflen : Nat) : Bool :=
  mnt.sectorindex ff.pos = 0 ∧
    (mnt.hwsectorsize ≤ buflen ∨ toUint ff.size ≤ toUint (ff.pos + buflen))

/-- A part of a sector is written by way of the buffer of the file. -/
def writeCached (file : Opened) (data : List UInt8) : Nat × Opened :=
  let sectorindex := mnt.sectorindex file.ff.pos
  let writesize := min (mnt.hwsectorsize - sectorindex) data.length
  let file := storeSector mnt file (mnt.replaced file.ff data.length) sectorindex
    (data.take writesize)
  (writesize, { file with ff := file.ff.move writesize })

/-- The transfer of one turn of `fat_write`, with the number of bytes. -/
def writeTurn (file : Opened) (data : List UInt8) : Nat × Opened :=
  if mnt.direct file.ff.pos data.length then writeDirect mnt file data
  else writeCached mnt file data

def writeLoop : Nat → Opened → List UInt8 → Option (Int × Opened)
  | 0, _, _ => none
  | fuel + 1, file, data =>
    if data.length = 0 then some (0, file)
    else
      (writeCluster mnt file).bind fun (ret, file) =>
        if ret < 0 then some (ret, file)
        else
          let (writesize, file) := writeTurn mnt file data
          writeLoop fuel file (data.drop writesize)

def fatWrite (file : Opened) (data : List UInt8) : Option (Int × Opened) :=
  if !file.ff.wrok then some (-eacces, file)
  else if toUint (file.ff.size + data.length) < toUint file.ff.size then some (-efbig, file)
  else
    (firstSector mnt file file.ff.pos).bind fun (ret, file) =>
      if ret < 0 then some (ret, file)
      else
        (writeLoop mnt (data.length + 1) file data).map fun (ret, file) =>
          if ret < 0 then (ret, file)
          else
            (data.length,
              if file.ff.size < file.ff.pos then
                { file with ff := { file.ff with size := file.ff.pos } }
              else file)

end Writes

section Seeks

variable (mnt : Mount)

/-- The `whence` argument of `fat_seek`. -/
inductive Whence where
  | set
  | cur
  | fromEnd
  | other
  deriving DecidableEq

/-- The position that `fat_seek` is asked for. -/
def seekPosition (ff : File) (offset : Int) : Whence → Option Int
  | .set => some offset
  | .cur => some (toOff (offset + ff.pos))
  | .fromEnd => some (toOff (offset + ff.size))
  | .other => none

/-- The cluster behind `cluster`, which is added to the chain when the file can be written. -/
def seekCluster (file : Opened) (cluster : Nat) : Option (Int × Opened) :=
  if file.ff.wrok then
    (fatExtendchain mnt file.fs cluster).map fun (next, fs) => (next, { file with fs := fs })
  else some (fatGetcluster mnt file.fs cluster, file)

/-- The loop of `fat_seek`: an error or zero, and the rest of the position. -/
def seekLoop : Nat → Opened → Int → Nat → Option (Int × Int × Opened)
  | 0, _, _, _ => none
  | fuel + 1, file, position, cluster =>
    let file := { file with ff := { file.ff with currentcluster := cluster } }
    if toUint position < mnt.clustersize then some (0, position, file)
    else
      (seekCluster mnt file cluster).bind fun (next, file) =>
        if next < 0 then some (next, position, file)
        else if next = 0 then some (0, mnt.clustersize, file)
        else if mnt.nclusters ≤ next then some (-enospc, position, file)
        else
          seekLoop fuel { file with ff := file.ff.move mnt.clustersize }
            (toOff (position - mnt.clustersize)) next.toNat

/-- The first cluster of the file, which is created for a position behind the start. -/
def seekStart (file : Opened) (position : Int) : Option Opened :=
  if file.ff.startcluster = 0 ∧ 0 < position then
    (fatCreatechain mnt file.fs).map fun (cluster, fs) =>
      { fs := fs, ff := { file.ff with startcluster := cluster.toNat } }
  else some file

/-- The new position is stored, and its sector looked up in the current cluster. -/
def seekLocate (file : Opened) (position : Int) : Opened :=
  let ff := { file.ff with pos := toOff (file.ff.pos + position) }
  { file with ff := (fatCurrentsector mnt ff ff.pos).2 }

/-- The part of `fat_seek` behind the loop that finds the cluster. -/
def seekSector (file : Opened) (position : Int) : Opened :=
  let file := seekLocate mnt file position
  if mnt.sectorindex position ≠ 0 then fatFfcacheread file file.ff.currentsector else file

/-- The end of `fat_seek`: a position behind the end extends the file. -/
def seekSize (file : Opened) : Opened :=
  if file.ff.wrok ∧ file.ff.size < file.ff.pos then
    { file with ff := { file.ff with size := file.ff.pos, modified := true } }
  else file

/-- The file as `fat_seek` begins to walk its chain, with its buffer written. -/
def seekBegin (file : Opened) : Opened :=
  let file := fatFfcacheflush file
  { file with ff := { file.ff with pos := 0, sectorsincluster := mnt.fatsecperclus } }

/-- Without write access the position is limited to the file. -/
def seekLimit (ff : File) (position : Int) : Int :=
  if ff.size < position ∧ !ff.wrok then ff.size else position

/-- `fat_seek` to a position in another sector. -/
def seekAway (file : Opened) (position : Int) : Option (Int × Opened) :=
  let file := seekBegin mnt file
  let position := seekLimit file.ff position
  (seekStart mnt file position).bind fun file =>
    if file.ff.startcluster = 0 then some (0, seekSize file)
    else
      (seekLoop mnt (toUint position / mnt.clustersize + 1) file position
          file.ff.startcluster).map fun (ret, position, file) =>
        if ret < 0 then (ret, file) else (0, seekSize (seekSector mnt file position))

def fatSeek (file : Opened) (offset : Int) (whence : Whence) : Option (Int × Opened) :=
  match seekPosition file.ff offset whence with
  | none => some (-einval, file)
  | some position =>
    if position.tdiv mnt.hwsectorsize = file.ff.pos.tdiv mnt.hwsectorsize then
      some (0, { file with ff := { file.ff with pos := position } })
    else seekAway mnt file position

end Seeks

section Truncation

variable (mnt : Mount)

def fatDirtruncate (fs : Volume) (entry : Entry) : Option (Int × Volume × Entry) :=
  (fatRemovechain mnt fs entry.start).map fun (ret, fs) =>
    let cleared := { entry with start := 0, size := 0, readonly := false }
    if ret < 0 then (ret, fs, cleared)
    else (0, { fs with fsinextfree := toUint (entry.start - 1) }, cleared)

/-- The loop of `fat_dirshrink`. -/
def shrinkLoop : Nat → Volume → Nat → Int → Int → Option (Int × Volume)
  | 0, _, _, _, _ => none
  | fuel + 1, fs, lastcluster, cluster, remaining =>
    if 2 ≤ cluster ∧ cluster < mnt.nclusters then
      if remaining ≤ mnt.clustersize then
        let (ret, fs) := fatPutcluster mnt fs lastcluster 0
        if ret < 0 then some (ret, fs)
        else
          (fatRemovechain mnt fs cluster.toNat).map fun (ret, fs) =>
            if ret < 0 then (ret, fs)
            else (0, { fs with fsinextfree := toUint (cluster - 1) })
      else
        let next := fatGetcluster mnt fs cluster.toNat
        if next < 0 then some (next, fs)
        else shrinkLoop fuel fs cluster.toNat next (remaining - mnt.clustersize)
    else some (0, fs)

def fatDirshrink (fs : Volume) (entry : Entry) (length : Int) : Option (Int × Volume × Entry) :=
  let shrunk := { entry with size := length, readonly := false }
  let cluster := fatGetcluster mnt fs entry.start
  if cluster < 0 then some (cluster, fs, shrunk)
  else
    (shrinkLoop mnt (mnt.nclusters + 1) fs entry.start cluster length).map fun (ret, fs) =>
      (ret, fs, shrunk)

/-- The loop of `fat_dirextend`. -/
def extendLoop : Nat → Opened → Int → Nat → Option (Int × Opened)
  | 0, _, _, _ => none
  | fuel + 1, file, pos, remaining =>
    if remaining = 0 then some (0, file)
    else
      (writeCluster mnt file).bind fun (ret, file) =>
        if ret < 0 then some (ret, file)
        else
          let sectndx := mnt.sectorindex pos
          let replaced := sectndx = 0 ∧ (mnt.hwsectorsize ≤ remaining ∨
            file.ff.size ≤ pos + remaining)
          let zerosize := min (mnt.hwsectorsize - sectndx) remaining
          let file := storeSector mnt file replaced sectndx (List.replicate zerosize 0)
          extendLoop fuel file (pos + zerosize) (remaining - zerosize)

def fatDirextend (file : Opened) (length : Int) : Option (Int × Opened) :=
  let pos := file.ff.size
  (firstSector mnt file pos).bind fun (ret, file) =>
    if ret < 0 then some (ret, file)
    else
      let remaining := (length - pos).toNat
      (extendLoop mnt (remaining + 1) file pos remaining).map fun (ret, file) =>
        if ret < 0 then (ret, file)
        else (0, { file with ff := { file.ff with size := length } })

/-- `fat_truncate`, with the directory entry of the file. -/
def fatTruncate (file : Opened) (entry : Entry) (length : Int) :
    Option (Int × Opened × Entry) :=
  if !file.ff.wrok then some (-eacces, file, entry)
  else if file.ff.size = length then some (0, file, entry)
  else if length < file.ff.size then
    (if length = 0 then fatDirtruncate mnt file.fs entry
      else fatDirshrink mnt file.fs entry length).map fun (ret, fs, entry) =>
        if 0 ≤ ret then (0, { fs := fs, ff := { file.ff with size := length } }, entry)
        else (ret, { file with fs := fs }, entry)
  else
    (fatDirextend mnt file length).map fun (ret, file) =>
      if 0 ≤ ret then (0, { file with ff := { file.ff with size := length } }, entry)
      else (ret, file, entry)

/-- `fat_sync`, with the directory entry of the file. -/
def fatSync (file : Opened) (entry : Entry) : Opened × Entry :=
  if file.ff.modified then
    let file := fatFfcacheflush file
    ({ file with ff := { file.ff with modified := false } },
      { entry with start := file.ff.startcluster, size := file.ff.size })
  else (file, entry)

/-- The part of `fat_open` that describes the file, from its directory entry. -/
def openFile (mnt : Mount) (entry : Entry) (rdok wrok : Bool) : File where
  rdok := rdok
  wrok := wrok
  valid := false
  dirty := false
  modified := false
  sectorsincluster := mnt.fatsecperclus
  currentcluster := entry.start
  startcluster := entry.start
  currentsector := 0
  cachesector := 0
  size := entry.size
  pos := 0
  buffer := fun _ => 0

end Truncation

end Chewie.Fs.Fat
