import Chewie.Fs.Fat.Access

/-!
# Reading does not leave the file

A file that was opened for reading only answers from its own bytes, whatever else is on the volume.
A seek has to go to a position that is not negative. Within the current sector it must not go behind
the end: `fat_seek` does not limit it there, and `fat_read` then finds a large number of bytes left.
To another sector it must not go to the end of a file that ends with its last cluster: `fat_seek`
fails there, and leaves the file at an old sector.
-/

namespace Chewie.Fs.Fat

open Chains Run Trace Function List Option Opened Bytes

section Statement

/-- The position that a seek in an array of bytes asks for, as a value of `off_t`. -/
def Bytes.target (bytes : Bytes) (offset : Int) : Whence → Option Int
  | .set => some offset
  | .cur => some (toOff (offset + bytes.pos))
  | .fromEnd => some (toOff (offset + bytes.size))
  | .other => none

/-- What a file that can only be read answers. A position is limited to the file. -/
def Bytes.view (bytes : Bytes) : Access → Answer × Bytes
  | .write _ => (.wrote (-eacces), bytes)
  | .read buflen =>
    let count := min buflen (bytes.size - bytes.pos)
    (.got count ((List.range count).map fun offset => bytes.byte (bytes.pos + offset)),
      { bytes with pos := bytes.pos + count })
  | .seek offset whence =>
    match bytes.target offset whence with
    | none => (.sought (-einval), bytes)
    | some position => (.sought 0, { bytes with pos := min position.toNat bytes.size })

variable (mnt : Mount)

/-- A seek to this position does not leave the file: within the current sector it does not go behind
the end, and to another sector it does not go to the end of a file that ends with its last
cluster. -/
def SeekLimited (file : Opened) (position : Int) : Prop :=
  0 ≤ position ∧
    if position.tdiv mnt.hwsectorsize = file.ff.pos.tdiv mnt.hwsectorsize then
      position ≤ file.ff.size
    else position < file.ff.size ∨ file.ff.startcluster = 0 ∨
      file.ff.size.toNat / mnt.clustersize < (file.clusters mnt).length

/-- The calls that do not leave the file. -/
def StaysInside (file : Opened) : Access → Prop
  | .write _ | .read _ => True
  | .seek offset whence =>
    ∀ position ∈ seekPosition file.ff offset whence, SeekLimited mnt file position

instance decidableSeekLimited (file : Opened) (position : Int) :
    Decidable (SeekLimited mnt file position) :=
  inferInstanceAs (Decidable (_ ∧ ite _ _ _))

instance decidableStaysInside (file : Opened) : ∀ call, Decidable (StaysInside mnt file call)
  | .seek .. => by dsimp only [StaysInside]; infer_instance
  | .write .. | .read .. => isTrue trivial

end Statement

section Steps

variable {mnt : Mount} {file : Opened} {cells : List Nat} {pos size : Nat}

/-- A file without clusters, and so without bytes. -/
structure Empty (file : Opened) (pos size : Nat) : Prop where
  chainless : file.ff.startcluster = 0
  clean : file.ff.dirty = false
  pos_eq : file.ff.pos = 0 ∧ pos = 0
  size_eq : file.ff.size = 0 ∧ size = 0

/-- A file that can only be read, between two calls. -/
structure Views (mnt : Mount) (file : Opened) (cells : List Nat) (pos size : Nat) : Prop where
  rdok : file.ff.rdok = true
  wrok : file.ff.wrok = false
  chain : Chain mnt file.fs file.ff.startcluster cells
  state : (cells ≠ [] ∧ Ready mnt file cells pos size) ∨ Empty file pos size

section

variable (views : Views mnt file cells pos size)

include views

theorem Views.pos_eq : file.ff.pos = pos := by
  rcases views.state with ⟨_, ready⟩ | empty
  · exact ready.pos_eq
  · rw [empty.pos_eq.1, empty.pos_eq.2]
    rfl

theorem Views.size_eq : file.ff.size = size := by
  rcases views.state with ⟨_, ready⟩ | empty
  · exact ready.size_eq
  · rw [empty.size_eq.1, empty.size_eq.2]
    rfl

theorem Views.ordered : pos ≤ size := by
  rcases views.state with ⟨_, ready⟩ | empty
  · exact ready.ordered
  · rw [empty.pos_eq.2]
    exact Nat.zero_le size

theorem Views.contents_eq : file.contents mnt = ⟨size, pos, byteAt mnt file cells⟩ := by
  simp [contents, clusters, views.chain.clustersOf_eq, views.pos_eq, views.size_eq]

end

/-- What a call on a file that can only be read does. -/
def Viewed (mnt : Mount) (file : Opened) (cells : List Nat) (size : Nat) (call : Access) : Prop :=
  ∃ next pos, access mnt file call = some (((file.contents mnt).view call).1, next) ∧
    ((file.contents mnt).view call).2 = next.contents mnt ∧ Views mnt next cells pos size

theorem write_viewed (views : Views mnt file cells pos size) (data : List UInt8) :
    Viewed mnt file cells size (.write data) := by
  refine ⟨file, pos, ?_, rfl, views⟩
  have refused : fatWrite mnt file data = some (-eacces, file) :=
    if_pos (by rw [views.wrok]; decide)
  rw [access, refused]
  rfl

theorem Empty.read (empty : Empty file pos size) (rdok : file.ff.rdok = true) (buflen : Nat) :
    ∃ sector left, fatRead mnt file buflen = some (0, [], { file with ff := { file.ff with
      currentsector := sector, sectorsincluster := left } }) := by
  have rest : toUint (file.ff.size - file.ff.pos) = 0 := by
    rw [empty.size_eq.1, empty.pos_eq.1]
    rfl
  have located : ∃ sector left, (if file.ff.currentsector = 0 then
      fatCurrentsector mnt file.ff file.ff.pos else (0, file.ff)) = (0, { file.ff with
        currentsector := sector, sectorsincluster := left }) := by
    by_cases unset : file.ff.currentsector = 0
    · rw [if_pos unset, fatCurrentsector, if_pos (by rw [empty.size_eq.1, empty.pos_eq.1])]
      exact ⟨_, _, rfl⟩
    · rw [if_neg unset]
      exact ⟨_, _, rfl⟩
  obtain ⟨sector, left, located⟩ := located
  refine ⟨sector, left, ?_⟩
  unfold fatRead
  rw [if_neg (by rw [rdok]; decide)]
  simp only [rest, Nat.min_zero, located, lt_self_iff_false, if_false]
  rfl

theorem read_viewed (views : Views mnt file cells pos size) (buflen : Nat) :
    Viewed mnt file cells size (.read buflen) := by
  have contents := views.contents_eq
  rcases views.state with ⟨nonempty, ready⟩ | empty
  · obtain ⟨next, done, ready', kept, same⟩ := @fatRead_spec mnt file cells pos size ready
      views.rdok nonempty buflen _ rfl
    have views' : Views mnt next cells (pos + min buflen (size - pos)) size :=
      ⟨kept.rdok.trans views.rdok, kept.wrok.trans views.wrok, kept.sound.chain,
        .inl ⟨nonempty, ready'⟩⟩
    refine ⟨next, _, ?_, ?_, views'⟩
    · rw [access, done, contents]
      rfl
    · rw [views'.contents_eq, contents]
      simp only [Bytes.view, Bytes.mk.injEq, true_and]
      funext position
      exact (byteAt_congr same).symm
  · obtain ⟨sector, left, done⟩ := @Empty.read mnt file pos size empty views.rdok buflen
    have views' : Views mnt { file with ff := { file.ff with
        currentsector := sector, sectorsincluster := left } } cells pos size :=
      ⟨views.rdok, views.wrok, views.chain,
        .inr ⟨empty.chainless, empty.clean, empty.pos_eq, empty.size_eq⟩⟩
    have count : min buflen (size - pos) = 0 := by
      rw [empty.size_eq.2, Nat.zero_sub, Nat.min_zero]
    refine ⟨_, pos, ?_, ?_, views'⟩
    · rw [access, done, contents]
      simp only [view, count]
      rfl
    · rw [views'.contents_eq, contents]
      simp only [view, count, Nat.add_zero]
      rfl

theorem Views.target_eq (views : Views mnt file cells pos size) (offset : Int) (whence : Whence) :
    (file.contents mnt).target offset whence = seekPosition file.ff offset whence := by
  rw [views.contents_eq]
  cases whence with
  | set => rfl
  | cur => rw [seekPosition, views.pos_eq]; rfl
  | fromEnd => rw [seekPosition, views.size_eq]; rfl
  | other => rfl

theorem Views.limit_eq (views : Views mnt file cells pos size) (target : Nat) :
    seekLimit file.ff target = (min target size : Nat) := by
  unfold seekLimit
  rw [views.size_eq, views.wrok]
  by_cases behind : size < target
  · rw [if_pos ⟨by omega, by decide⟩, Nat.min_eq_right (by omega)]
  · rw [if_neg (by omega), Nat.min_eq_left (by omega)]

theorem Empty.seekAway (empty : Empty file pos size) (wrok : file.ff.wrok = false) {position : Int}
    (limit : seekLimit file.ff position = 0) :
    Fat.seekAway mnt file position = some (0, { file with ff := { file.ff with
      pos := 0, sectorsincluster := mnt.fatsecperclus } }) := by
  have beginning : seekBegin mnt file = { file with ff := { file.ff with
      pos := 0, sectorsincluster := mnt.fatsecperclus } } := by
    have flushed : fatFfcacheflush file = file := if_neg fun waits => by
      rw [empty.clean] at waits
      exact absurd waits.2.1 (by decide)
    rw [seekBegin, flushed]
  rw [← beginning]
  have chainless : (seekBegin mnt file).ff.startcluster = 0 := by
    rw [beginning]
    exact empty.chainless
  have refused : (seekBegin mnt file).ff.wrok = false := by
    rw [beginning]
    exact wrok
  have limit' : seekLimit (seekBegin mnt file).ff position = 0 := by
    rw [beginning]
    exact limit
  have start : seekStart mnt (seekBegin mnt file) 0 = some (seekBegin mnt file) :=
    if_neg fun create => absurd create.2 (by decide)
  have size : seekSize (seekBegin mnt file) = seekBegin mnt file := if_neg fun grows => by
    rw [refused] at grows
    exact absurd grows.1 (by decide)
  unfold Fat.seekAway
  simp only []
  rw [limit', start, bind_some, if_pos chainless, size]

section

variable (views : Views mnt file cells pos size)

include views

theorem Views.near {target : Nat} (near : target / mnt.hwsectorsize = pos / mnt.hwsectorsize)
    (inside : target ≤ size) :
    Views mnt { file with ff := { file.ff with pos := target } } cells target size := by
  refine ⟨views.rdok, views.wrok, views.chain, ?_⟩
  rcases views.state with ⟨nonempty, ready⟩ | empty
  · exact .inl ⟨nonempty, ready.near near inside⟩
  · have zero : target = 0 := by
      have absent := empty.size_eq.2
      omega
    exact .inr ⟨empty.chainless, empty.clean, ⟨congrArg Nat.cast zero, zero⟩, empty.size_eq⟩

/-- `fat_seek` to another sector. -/
theorem Views.away {target : Nat}
    (limited : target < size ∨ file.ff.startcluster = 0 ∨ size / mnt.clustersize < cells.length) :
    ∃ next, seekAway mnt file target = some (0, next) ∧
      Views mnt next cells (min target size) size ∧ next.settled.disk = file.settled.disk := by
  have limit := views.limit_eq target
  rcases views.state with ⟨nonempty, ready⟩ | empty
  · have inside : min target size / mnt.clustersize < cells.length := by
      rcases limited with below | chainless | reaches
      · rw [Nat.min_eq_left (by omega), Nat.div_lt_iff_lt_mul (clustersize_pos mnt)]
        exact Nat.lt_of_lt_of_le below ready.covered
      · exact absurd (Chain.eq_nil (chainless ▸ views.chain)) nonempty
      · exact Nat.lt_of_le_of_lt (Nat.div_le_div_right (Nat.min_le_right ..)) reaches
    have ordered := Nat.min_le_right target size
    have bounded := ready.bounded
    obtain ⟨next, cells', done, ready', kept, fixed, rdok, same⟩ :=
      seekAway_spec ready limit (.inl nonempty) (.inl ordered) (by omega) (.inl inside)
    rw [fixed views.wrok, Nat.max_eq_left ordered] at ready'
    exact ⟨next, done, ⟨rdok.trans views.rdok, kept.wrok.trans views.wrok, ready'.sound.chain,
      .inl ⟨nonempty, ready'⟩⟩, same⟩
  · have zero : min target size = 0 := by
      have absent := empty.size_eq.2
      omega
    rw [zero] at limit ⊢
    exact ⟨_, empty.seekAway views.wrok limit, ⟨views.rdok, views.wrok, views.chain,
      .inr ⟨empty.chainless, empty.clean, ⟨rfl, rfl⟩, empty.size_eq⟩⟩, rfl⟩

theorem seek_viewed {offset : Int} {whence : Whence}
    (inside : StaysInside mnt file (.seek offset whence)) :
    Viewed mnt file cells size (.seek offset whence) := by
  have contents := views.contents_eq
  have target_eq := views.target_eq offset whence
  cases asked : seekPosition file.ff offset whence with
  | none =>
    rw [asked] at target_eq
    refine ⟨file, pos, ?_, ?_, views⟩
    · rw [access, fatSeek, asked, view, target_eq]
      rfl
    · rw [view, target_eq]
  | some position =>
    obtain ⟨nonneg, limited⟩ := inside position asked
    obtain ⟨target, rfl⟩ := Int.eq_ofNat_of_zero_le nonneg
    rw [asked] at target_eq
    have view : (file.contents mnt).view (.seek offset whence) =
        (.sought 0, ⟨size, min target size, byteAt mnt file cells⟩) := by
      rw [view, target_eq, contents]
      rfl
    rw [views.pos_eq, views.size_eq, Int.toNat_natCast] at limited
    simp only [tdiv_eq_iff] at limited
    by_cases near : target / mnt.hwsectorsize = pos / mnt.hwsectorsize
    · rw [if_pos near] at limited
      have below : target ≤ size := by omega
      have views' := views.near near below
      refine ⟨_, target, ?_, ?_, views'⟩
      · rw [access, fatSeek, asked, view]
        simp only []
        rw [views.pos_eq, if_pos ((tdiv_eq_iff mnt target pos).mpr near), map_some]
      · rw [view, views'.contents_eq, Nat.min_eq_left below]
        rfl
    · rw [if_neg near, clusters, views.chain.clustersOf_eq] at limited
      obtain ⟨next, done, views', same⟩ := @Views.away mnt file cells pos size views target
        (by omega)
      refine ⟨next, min target size, ?_, ?_, views'⟩
      · rw [access, fatSeek, asked, view]
        simp only []
        rw [views.pos_eq, if_neg fun close => near ((tdiv_eq_iff mnt target pos).mp close), done,
          map_some]
      · rw [view, views'.contents_eq, Bytes.mk.injEq]
        refine ⟨rfl, rfl, ?_⟩
        funext position
        exact (byteAt_congr same).symm

theorem access_viewed {call : Access} (inside : StaysInside mnt file call) :
    Viewed mnt file cells size call := by
  cases call with
  | write data => exact write_viewed views data
  | read buflen => exact read_viewed views buflen
  | seek offset whence => exact seek_viewed views inside

end

end Steps

section Pairs

variable {mnt : Mount} {file other : Opened} {cells : List Nat} {pos size : Nat}

theorem view_congr {one two : Bytes} (size_eq : two.size = one.size) (pos_eq : two.pos = one.pos)
    (ordered : one.pos ≤ one.size) (same : one.Same two) (call : Access) :
    (two.view call).1 = (one.view call).1 ∧ (two.view call).2.pos = (one.view call).2.pos := by
  cases call with
  | write data => exact ⟨rfl, pos_eq⟩
  | read buflen =>
    simp only [view, size_eq, pos_eq, Answer.got.injEq, true_and, and_true]
    refine map_congr_left fun offset mem => same _ ?_
    have below := mem_range.mp mem
    omega
  | seek offset whence =>
    have target : two.target offset whence = one.target offset whence := by
      cases whence <;> simp only [target, size_eq, pos_eq]
    simp only [view, target]
    cases one.target offset whence with
    | none => exact ⟨rfl, pos_eq⟩
    | some position => exact ⟨rfl, by rw [size_eq]⟩

theorem view_fixed (bytes : Bytes) (call : Access) :
    (bytes.view call).2.byte = bytes.byte ∧ (bytes.view call).2.size = bytes.size := by
  cases call with
  | write data => exact ⟨rfl, rfl⟩
  | read buflen => exact ⟨rfl, rfl⟩
  | seek offset whence =>
    simp only [view]
    cases bytes.target offset whence <;> exact ⟨rfl, rfl⟩

theorem Views.start_eq (views : Views mnt file cells pos size)
    (views' : Views mnt other cells pos size) : other.ff.startcluster = file.ff.startcluster := by
  by_cases absent : cells = []
  · rw [views.chain.empty absent, views'.chain.empty absent]
  · exact some.inj ((views'.chain.head absent).symm.trans (views.chain.head absent))

theorem Views.inside (views : Views mnt file cells pos size)
    (views' : Views mnt other cells pos size) {call : Access}
    (inside : StaysInside mnt file call) : StaysInside mnt other call := by
  cases call with
  | write data => trivial
  | read buflen => trivial
  | seek offset whence =>
    intro position asked
    have target := (views'.target_eq offset whence).symm.trans
      ((show (other.contents mnt).target offset whence = (file.contents mnt).target offset whence by
        rw [views.contents_eq, views'.contents_eq]; cases whence <;> rfl).trans
        (views.target_eq offset whence))
    rw [target] at asked
    have limited := inside position asked
    unfold SeekLimited clusters at limited ⊢
    rw [views.pos_eq, views.size_eq, views.chain.clustersOf_eq] at limited
    rw [views'.pos_eq, views'.size_eq, views'.chain.clustersOf_eq, views.start_eq views']
    exact limited

/-- Two files at the same place with the same bytes. -/
def Alike (mnt : Mount) (cells : List Nat) (size : Nat) (file other : Opened) : Prop :=
  ∃ pos, Views mnt file cells pos size ∧ Views mnt other cells pos size ∧
    (file.contents mnt).Same (other.contents mnt)

theorem access_alike (alike : Alike mnt cells size file other) {call : Access}
    (inside : StaysInside mnt file call) :
    ∃ answer next next', access mnt file call = some (answer, next) ∧
      access mnt other call = some (answer, next') ∧ Alike mnt cells size next next' := by
  obtain ⟨pos, views, views', same⟩ := alike
  obtain ⟨next, pos₁, done, after, kept⟩ := access_viewed views inside
  obtain ⟨next', pos₂, done', after', kept'⟩ := access_viewed views' (views.inside views' inside)
  have sizes : (other.contents mnt).size = (file.contents mnt).size := by
    rw [views.contents_eq, views'.contents_eq]
  have places : (other.contents mnt).pos = (file.contents mnt).pos := by
    rw [views.contents_eq, views'.contents_eq]
  have ordered : (file.contents mnt).pos ≤ (file.contents mnt).size := by
    rw [views.contents_eq]
    exact views.ordered
  obtain ⟨answer, place⟩ := view_congr sizes places ordered same call
  have pos_eq : pos₂ = pos₁ := by
    rw [after, after', kept.contents_eq, kept'.contents_eq] at place
    exact place
  rw [answer] at done'
  refine ⟨_, next, next', done, done', pos₁, kept, pos_eq ▸ kept', ?_⟩
  rw [← after, ← after']
  intro position below
  rw [(view_fixed _ call).2] at below
  rw [(view_fixed _ call).1, (view_fixed _ call).1]
  exact same position below

end Pairs

section Runs

variable {mnt : Mount} {sys : Sys} {id : Nat} {entry : Entry}

theorem openFile_views {cells : List Nat} {fs : Volume} (chain : Chain mnt fs entry.start cells)
    (sized : entry.Sized mnt fs) :
    Views mnt ⟨fs, openFile mnt entry true false⟩ cells 0 entry.size.toNat := by
  refine ⟨rfl, rfl, chain, ?_⟩
  by_cases absent : cells = []
  · have start : entry.start = 0 := chain.empty absent
    obtain ⟨low, _, covered⟩ := sized
    rw [chain.clustersOf_eq, absent] at covered
    have zero : entry.size = 0 := by
      rw [length_nil] at covered
      omega
    exact .inr ⟨start, rfl, ⟨rfl, rfl⟩, ⟨zero, by rw [zero]; rfl⟩⟩
  · exact .inl ⟨absent, openFile_ready chain sized true false⟩

/-- On a consistent volume a file that is opened for reading answers every run of calls that do not
leave it from its own bytes, and its position stays in the file; a volume with the same table and
the same bytes in the file gives the same answers. -/
theorem reads_stay_inside (consistent : Consistent mnt sys) (closed : sys.handle id = none)
    (stored : sys.entry id = some entry) (sized : entry.Sized mnt sys.fs) {other : Volume}
    (table : other.fat = sys.fs.fat) (same : ∀ position < entry.size.toNat,
      (Opened.contents mnt ⟨other, openFile mnt entry true false⟩).byte position =
        (Opened.contents mnt ⟨sys.fs, openFile mnt entry true false⟩).byte position)
    (calls : List Access) (inside : Admitted (moves (access mnt)) (StaysInside mnt)
      ⟨sys.fs, openFile mnt entry true false⟩ calls) :
    ∃ replies final final',
      answers (access mnt) ⟨sys.fs, openFile mnt entry true false⟩ calls = some (replies, final) ∧
      Explains (fun before call answer after => before.view call = (answer, after))
        (Opened.contents mnt ⟨sys.fs, openFile mnt entry true false⟩) calls replies
        (final.contents mnt) ∧
      0 ≤ final.ff.pos ∧ final.ff.pos ≤ final.ff.size ∧ final.ff.size = entry.size ∧
      answers (access mnt) ⟨other, openFile mnt entry true false⟩ calls =
        some (replies, final') := by
  obtain ⟨cells, separate⟩ := consistent
  have chain := chain_closed separate closed stored
  have chain' : Chain mnt other entry.start (cells (some id)) :=
    chain.congr fun cluster _ => by rw [table]
  have sized' : entry.Sized mnt other := by
    obtain ⟨low, high, covered⟩ := sized
    refine ⟨low, high, ?_⟩
    rw [chain.clustersOf_eq] at covered
    rw [chain'.clustersOf_eq]
    exact covered
  have views := openFile_views chain sized
  have views' := openFile_views chain' sized'
  -- The run against the array of bytes, and the run on the other volume.
  have explain : ∀ file bytes call,
      (bytes = Opened.contents mnt file ∧
        ∃ pos, Views mnt file (cells (some id)) pos entry.size.toNat) →
      StaysInside mnt file call → ∃ answer next bytes', access mnt file call = some (answer, next) ∧
        bytes.view call = (answer, bytes') ∧ bytes' = Opened.contents mnt next ∧
          ∃ pos, Views mnt next (cells (some id)) pos entry.size.toNat := by
    rintro file bytes call ⟨rfl, pos, views⟩ inside
    obtain ⟨next, pos', done, after, kept⟩ := access_viewed views inside
    exact ⟨_, next, next.contents mnt, done, Prod.ext rfl after, rfl, pos', kept⟩
  obtain ⟨replies, final, bytes, performed, explained, rfl, pos, seen⟩ :=
    simulates explain ⟨rfl, 0, views⟩ inside
  have together : ∀ file file' call, Alike mnt (cells (some id)) entry.size.toNat file file' →
      StaysInside mnt file call → ∃ answer next next', access mnt file call = some (answer, next) ∧
        access mnt file' call = some (answer, next') ∧
          Alike mnt (cells (some id)) entry.size.toNat next next' :=
    fun _ _ _ alike inside => access_alike alike inside
  obtain ⟨answers', _, final', performed', run', _⟩ :=
    simulates together ⟨0, views, views', by
      intro position below
      exact same position below⟩ inside
  rw [performed] at performed'
  cases performed'
  have low := sized.1
  have ordered := seen.ordered
  have size := seen.size_eq
  refine ⟨replies, final, final', performed, explained, ?_, ?_, ?_, answers_of_explains run'⟩
  · rw [seen.pos_eq]
    exact Int.natCast_nonneg pos
  · rw [seen.pos_eq, size]
    exact Int.ofNat_le.mpr ordered
  · rw [size]
    exact Int.toNat_of_nonneg low

/-- A volume with a file of two bytes, in a sector with this byte behind them. -/
def twoByteSys (behind : UInt8) : Sys where
  fs := ⟨update (fun _ => 0) 2 4095, 0, fun _ offset => if offset < 2 then 1 else behind⟩
  entry := update (fun _ => none) 0 (some ⟨2, 2, false, false⟩)
  handle := fun _ => none

theorem twoByteSys_consistent (behind : UInt8) : Consistent tinyMount (twoByteSys behind) := by
  refine ⟨update (fun _ => []) (some 0) [2], fun owner => ?_, fun one two differ => ?_⟩
  · by_cases first : owner = some 0
    · rw [first]
      exact owns_single (show tinyMount.IsCluster 2 by decide)
        (show tinyMount.IsEnd 4095 by unfold Mount.IsEnd; decide)
    rw [update_of_ne first]
    have zero : (twoByteSys behind).start tinyMount owner = 0 := by
      cases owner with
      | none => rfl
      | some id =>
        have other : id ≠ 0 := fun same => first (congrArg some same)
        simp [Sys.start, twoByteSys, update_of_ne other]
    rw [zero]
    exact owns_nil
  · by_cases first : one = some 0
    · have other : two ≠ some 0 := fun same => differ (first.trans same.symm)
      rw [update_of_ne other]
      exact fun _ _ => not_mem_nil
    · rw [update_of_ne first]
      exact fun _ mem => absurd mem not_mem_nil

/-- The file, open for reading. -/
def twoByteFile (behind : UInt8) : Opened :=
  ⟨(twoByteSys behind).fs, openFile tinyMount ⟨2, 2, false, false⟩ true false⟩

/-- The file is read and sought in, behind its end too. -/
def readings : List Access := [.read 1, .seek 100 .set, .read 5, .seek (-2) .fromEnd, .read 5]

theorem reads_stay_inside_twoBytes :
    ∃ replies final final',
      answers (access tinyMount) (twoByteFile 0) readings = some (replies, final) ∧
      Explains (fun before call answer after => before.view call = (answer, after))
        ((twoByteFile 0).contents tinyMount) readings replies (final.contents tinyMount) ∧
      0 ≤ final.ff.pos ∧ final.ff.pos ≤ final.ff.size ∧ final.ff.size = 2 ∧
      answers (access tinyMount) (twoByteFile 42) readings = some (replies, final') :=
  @reads_stay_inside tinyMount (twoByteSys 0) 0 ⟨2, 2, false, false⟩ (twoByteSys_consistent 0) rfl
    rfl (by decide +kernel) (twoByteSys 42).fs rfl (by decide +kernel) readings
    (by decide +kernel)

/-- A seek behind the end within the current sector, and a read that returns the byte there. Two
volumes that differ only in that byte give different answers. -/
theorem read_leaks_behind :
    Consistent tinyMount (twoByteSys 0) ∧ Consistent tinyMount (twoByteSys 42) ∧
      Entry.Sized tinyMount (twoByteSys 0).fs ⟨2, 2, false, false⟩ ∧
      (twoByteSys 42).fs.fat = (twoByteSys 0).fs.fat ∧
      (∀ position < 2, ((twoByteFile 42).contents tinyMount).byte position =
        ((twoByteFile 0).contents tinyMount).byte position) ∧
      (answers (access tinyMount) (twoByteFile 0) [.read 1, .seek 3 .set, .read 1]).map Prod.fst =
          some [.got 1 [1], .sought 0, .got 1 [0]] ∧
      (answers (access tinyMount) (twoByteFile 42) [.read 1, .seek 3 .set, .read 1]).map Prod.fst =
          some [.got 1 [1], .sought 0, .got 1 [42]] := by
  refine ⟨twoByteSys_consistent 0, twoByteSys_consistent 42, by decide +kernel, rfl,
    by decide +kernel, ?_, ?_⟩
  · decide +kernel
  · decide +kernel

end Runs

end Chewie.Fs.Fat
