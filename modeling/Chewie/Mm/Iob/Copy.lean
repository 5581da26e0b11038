import Chewie.Mm.Iob.Model

/-!
# Copying into and out of a chain

The data of a chain is one byte stream, `stream`, whatever buffers it is spread over. Copying in
overwrites the stream (`copyinLoop_spec`), up to the point where no buffer could be allocated, and
copying out reads a part of it (`iobCopyout_eq`).
-/

namespace Chewie.Mm.Iob

open Chewie Overwrite Word List IobS

variable {bufsize : Nat} {σ : Type}

/-- The data of one buffer. -/
def IobS.bytes (iob : IobS bufsize) : List UInt8 := (iob.ioData.drop iob.ioOffset).take iob.ioLen

/-- The data of a chain. -/
def stream (chain : Chain bufsize) : List UInt8 := chain.flatMap IobS.bytes

/-- The data of the buffer lies in its payload. -/
def IobS.Fits (iob : IobS bufsize) : Prop := iob.ioOffset + iob.ioLen ≤ bufsize

/-- A well-formed chain: the data of each buffer is in its payload, and the packet length in the
first buffer is the sum of the lengths. -/
structure WellFormed (chain : Chain bufsize) : Prop where
  fits : ∀ iob ∈ chain, iob.Fits
  pktlen : ∃ head rest, chain = head :: rest ∧ head.ioPktlen = (chain.map IobS.ioLen).sum

theorem stream_cons (iob : IobS bufsize) (rest : Chain bufsize) :
    stream (iob :: rest) = iob.bytes ++ stream rest := rfl

theorem stream_append (first second : Chain bufsize) :
    stream (first ++ second) = stream first ++ stream second := flatMap_append

theorem IobS.Fits.length {iob : IobS bufsize} (fits : iob.Fits) : iob.bytes.length = iob.ioLen := by
  unfold Fits at fits
  unfold IobS.bytes
  rw [length_take, length_drop, iob.sized]
  omega

theorem stream_length {chain : Chain bufsize} (fits : ∀ iob ∈ chain, iob.Fits) :
    (stream chain).length = (chain.map ioLen).sum := by
  induction chain with
  | nil => rfl
  | cons iob rest ih =>
    rw [stream_cons, length_append, (fits iob mem_cons_self).length,
      ih (forall_mem_cons.mp fits).2, map_cons, sum_cons]

/-- What clipping the copy to one buffer gives: some bytes to copy, and a buffer and a packet length
that count the bytes beyond the old data. -/
structure Clipped (last : Bool) (pktlen : Nat) (iob : IobS bufsize) (len offset : Nat)
    (step : Clip bufsize) : Prop where
  grown : step.iob = { iob with ioLen := max iob.ioLen (offset + step.ncopy) }
  counted : step.pktlen = Word.wrap 16 (pktlen + (max iob.ioLen (offset + step.ncopy) - iob.ioLen))
  few : step.ncopy ≤ len
  room : iob.ioOffset + max iob.ioLen (offset + step.ncopy) ≤ bufsize
  reaches : step.ncopy = len ∨ iob.ioLen ≤ offset + step.ncopy
  keeps : last = false → offset + step.ncopy ≤ iob.ioLen

theorem wrap_lenWidth {newlen : Nat} (fits : newlen ≤ bufsize) (small : newlen < 2 ^ 16) :
    wrap (lenWidth bufsize) newlen = newlen := by
  apply wrap_of_lt
  unfold lenWidth
  split
  · omega
  · exact small

/-- Clipping the copy to a buffer whose data fits. -/
theorem clip_spec {last : Bool} {pktlen len offset : Nat} {iob : IobS bufsize} (fits : iob.Fits)
    (inside : offset ≤ iob.ioLen) (small : offset + len < 2 ^ 16) (counted : pktlen < 2 ^ 16) :
    Clipped last pktlen iob len offset (clip last pktlen iob len offset) := by
  unfold Fits at fits
  have unchanged {ncopy : Nat} (few : ncopy ≤ len) (keeps : offset + ncopy ≤ iob.ioLen)
      (reaches : ncopy = len ∨ iob.ioLen ≤ offset + ncopy) :
      Clipped last pktlen iob len offset ⟨iob, pktlen, ncopy⟩ := by
    have whole : max iob.ioLen (offset + ncopy) = iob.ioLen := by omega
    refine ⟨?_, ?_, few, by dsimp only; omega, reaches, fun _ => keeps⟩
    · rw [whole]
    · rw [whole, Nat.sub_self, Nat.add_zero, wrap_of_lt counted]
  unfold clip
  dsimp only
  by_cases exceeds : iob.ioLen - offset < len
  · rw [if_pos exceeds]
    cases last with
    | false =>
      exact unchanged (by omega) (by omega) (by omega)
    | true =>
      rw [if_pos rfl]
      generalize newlen_eq : (if bufsize - iob.ioOffset < len + offset then bufsize - iob.ioOffset
        else len + offset) = newlen
      have bounds : iob.ioLen ≤ newlen ∧ iob.ioOffset + newlen ≤ bufsize ∧
          newlen ≤ len + offset := by
        rw [← newlen_eq]
        split
        · omega
        · omega
      have whole : max iob.ioLen (offset + (newlen - offset)) = newlen := by omega
      constructor
      · dsimp only
        rw [whole, wrap_lenWidth (by omega) (by omega)]
      · rw [whole, Nat.add_sub_assoc bounds.1]
      · dsimp only
        omega
      · dsimp only
        omega
      · dsimp only
        omega
      · intro impossible
        cases impossible
  · rw [if_neg exceeds]
    exact unchanged (Nat.le_refl len) (by omega) (Or.inl rfl)

section Loop

variable {last : Bool} {pktlen offset : Nat} {iob : IobS bufsize} {src : List UInt8}
variable {step : Clip bufsize}

/-- The buffer after one turn of the loop. -/
def Clip.written (step : Clip bufsize) (iob : IobS bufsize) (src : List UInt8) (offset : Nat) :
    IobS bufsize :=
  step.iob.store (iob.ioOffset + offset) (src.take step.ncopy)

section

variable (clipped : Clipped last pktlen iob src.length offset step)

include clipped

theorem Clipped.take_length : (src.take step.ncopy).length = step.ncopy := by
  rw [length_take, Nat.min_eq_left clipped.few]

theorem Clipped.written_bytes (inside : offset ≤ iob.ioLen) :
    (step.written iob src offset).bytes = overwrite iob.bytes offset (src.take step.ncopy) := by
  have whole := iob.sized
  have room := clipped.room
  have taken := clipped.take_length
  unfold Clip.written
  rw [clipped.grown]
  generalize src.take step.ncopy = bytes at taken ⊢
  rw [← taken] at room ⊢
  have length : (overwrite iob.ioData (iob.ioOffset + offset) bytes).length = bufsize := by
    rw [overwrite_length (by omega)]
    omega
  unfold IobS.bytes IobS.store
  dsimp only
  rw [take_of_length_le (Nat.le_of_eq length), overwrite_drop _ (by omega),
    overwrite_take inside (by rw [length_drop]; omega) (by rw [length_drop]; omega)]

theorem Clipped.written_fits : (step.written iob src offset).Fits := by
  unfold Fits Clip.written store
  rw [clipped.grown]
  exact clipped.room

theorem Clipped.pktlen_eq (fits : iob.Fits) (inside : offset ≤ iob.ioLen) :
    step.pktlen = wrap 16
      (pktlen + ((step.written iob src offset).bytes.length - iob.bytes.length)) := by
  rw [clipped.counted, clipped.written_bytes inside, overwrite_length (by rwa [fits.length]),
    fits.length, clipped.take_length]

end

/-- What the copy loop leaves behind: buffers whose data fits, a stream that is overwritten with a
prefix of the user data, or with all of it, and a packet length that counts the growth. -/
structure Overwritten (old : List UInt8) (offset : Nat) (src : List UInt8) (pktlen : Nat)
    (copied : Copied σ bufsize) : Prop where
  fits : ∀ iob ∈ copied.bufs, iob.Fits
  written : ∃ done, done <+: src ∧ (copied.complete = true → done = src) ∧
    stream copied.bufs = overwrite old offset done
  pktlen : copied.pktlen = Word.wrap 16 (pktlen + ((stream copied.bufs).length - old.length))

theorem wrap_twice (pktlen first second : Nat) :
    wrap 16 (wrap 16 (pktlen + first) + second) = wrap 16 (pktlen + (first + second)) := by
  unfold wrap
  rw [Nat.mod_add_mod, Nat.add_assoc]

theorem Clipped.overwrite_eq (fits : iob.Fits)
    (clipped : Clipped last pktlen iob src.length offset step) {old done : List UInt8}
    (room : old = [] ∨ offset + step.ncopy ≤ iob.ioLen) (taken : done <+: src.drop step.ncopy) :
    overwrite iob.bytes offset (src.take step.ncopy) ++ overwrite old 0 done =
      overwrite (iob.bytes ++ old) offset (src.take step.ncopy ++ done) := by
  have count := clipped.take_length
  have length := fits.length
  cases clipped.reaches with
  | inl all =>
    have none : done = [] := by
      rw [all, drop_length] at taken
      exact prefix_nil.mp taken
    rw [none, overwrite_nil, append_nil]
    cases room with
    | inl empty => rw [empty, append_nil, append_nil]
    | inr within => rw [overwrite_append_left (by omega)]
  | inr reaches =>
    cases room with
    | inl empty => rw [empty, append_nil, overwrite_empty, overwrite_extend (by omega)]
    | inr within => rw [overwrite_append_cross (by omega)]

/-- One turn of the loop, followed by a copy of the remaining bytes to the buffers behind. -/
theorem Overwritten.cons (fits : iob.Fits) (inside : offset ≤ iob.ioLen)
    (clipped : Clipped last pktlen iob src.length offset step) {old : List UInt8}
    (room : old = [] ∨ offset + step.ncopy ≤ iob.ioLen) {later : Copied σ bufsize}
    (rest : Overwritten old 0 (src.drop step.ncopy) step.pktlen later) :
    Overwritten (iob.bytes ++ old) offset src pktlen
      { later with bufs := step.written iob src offset :: later.bufs } := by
  obtain ⟨done, taken, whole, same⟩ := rest.written
  have bytes := clipped.written_bytes inside
  constructor
  · exact forall_mem_cons.mpr ⟨clipped.written_fits, rest.fits⟩
  · refine ⟨src.take step.ncopy ++ done, ?_, ?_, ?_⟩
    · have extended := (prefix_append_right_inj (src.take step.ncopy)).mpr taken
      rwa [take_append_drop] at extended
    · intro complete
      rw [whole complete, take_append_drop]
    · rw [stream_cons, bytes, same]
      exact clipped.overwrite_eq fits room taken
  · have grown : iob.bytes.length ≤ (step.written iob src offset).bytes.length := by
      rw [bytes, overwrite_length (by rwa [fits.length])]
      exact Nat.le_max_left _ _
    have more : old.length ≤ (stream later.bufs).length := by
      rw [same, overwrite_length (Nat.zero_le _)]
      exact Nat.le_max_left _ _
    rw [rest.pktlen, clipped.pktlen_eq fits inside, wrap_twice, stream_cons, length_append,
      length_append]
    congr 1
    omega

theorem Overwritten.none {bufs : Chain bufsize} (fits : ∀ iob ∈ bufs, iob.Fits)
    (counted : pktlen < 2 ^ 16) {complete : Bool} (whole : complete = true → src = []) (pool : σ) :
    Overwritten (stream bufs) offset src pktlen ⟨complete, bufs, pktlen, pool⟩ := by
  constructor
  · exact fits
  · exact ⟨[], nil_prefix, fun done => (whole done).symm, overwrite_nil.symm⟩
  · rw [Nat.sub_self, Nat.add_zero, wrap_of_lt counted]

/-- The copy loop overwrites the stream from its place on. -/
theorem copyinLoop_spec [NeZero bufsize] {source : Source σ bufsize} {throttled canBlock : Bool}
    {pool : σ} {rest : Chain bufsize} (fits : ∀ other ∈ iob :: rest, other.Fits)
    (inside : offset ≤ iob.ioLen) (small : offset + src.length < 2 ^ 16)
    (counted : pktlen < 2 ^ 16) :
    Overwritten (stream (iob :: rest)) offset src pktlen
      (copyinLoop source throttled canBlock pool pktlen iob rest src offset) := by
  fun_induction copyinLoop source throttled canBlock pool pktlen iob rest src offset with
  | case1 pool pktlen iob src offset positive next rest step written later ih =>
    have own := fits iob mem_cons_self
    have clipped := @clip_spec bufsize false pktlen src.length offset iob own inside small counted
    have behind := ih (forall_mem_cons.mp fits).2
      (Nat.zero_le _) (by rw [length_drop]; omega)
      (by rw [clipped.counted]; exact wrap_lt _ _)
    exact behind.cons own inside clipped (Or.inr (clipped.keeps rfl))
  | case2 pool pktlen iob src offset positive step written left more later none =>
    have own := fits iob mem_cons_self
    have clipped := @clip_spec bufsize true pktlen src.length offset iob own inside small counted
    have nothing : Overwritten (stream ([] : Chain bufsize)) 0 left step.pktlen
        ⟨false, [], step.pktlen, later⟩ :=
      Overwritten.none (fun other mem => absurd mem not_mem_nil)
        (by rw [clipped.counted]; exact wrap_lt _ _) (fun done => by cases done) later
    exact nothing.cons own inside clipped (Or.inl rfl)
  | case3 pool pktlen iob src offset positive step written left more next later taken result ih =>
    have own := fits iob mem_cons_self
    have clipped := @clip_spec bufsize true pktlen src.length offset iob own inside small counted
    have fresh := Source.take_known taken
    have empty : stream [next] = [] := by
      rw [stream_cons, IobS.bytes, fresh.1]
      rfl
    have alone : ∀ other ∈ [next], other.Fits := by
      intro other mem
      rw [mem_singleton.mp mem, Fits, fresh.1, fresh.2]
      exact Nat.zero_le _
    have behind := ih alone (Nat.zero_le _) (by rw [length_drop]; omega)
      (by rw [clipped.counted]; exact wrap_lt _ _)
    rw [empty] at behind
    exact behind.cons own inside clipped (Or.inl rfl)
  | case4 pool pktlen iob src offset positive step written left done =>
    have own := fits iob mem_cons_self
    have clipped := @clip_spec bufsize true pktlen src.length offset iob own inside small counted
    have nothing : Overwritten (stream ([] : Chain bufsize)) 0 left step.pktlen
        ⟨true, [], step.pktlen, pool⟩ :=
      Overwritten.none (fun other mem => absurd mem not_mem_nil)
        (by rw [clipped.counted]; exact wrap_lt _ _)
        (fun _ => length_eq_zero_iff.mp (by omega)) pool
    exact nothing.cons own inside clipped (Or.inl rfl)
  | case5 pool pktlen iob rest src offset empty =>
    exact Overwritten.none fits counted (fun _ => length_eq_zero_iff.mp (by omega)) pool

end Loop

theorem copyinSkip_spec {chain : Chain bufsize} (fits : ∀ iob ∈ chain, iob.Fits) {offset : Nat}
    (nonempty : chain ≠ []) (inside : offset ≤ (stream chain).length) :
    ∃ place, copyinSkip chain offset = some place ∧
      chain = place.passed ++ place.iob :: place.rest ∧ place.offset ≤ place.iob.ioLen ∧
      offset = (stream place.passed).length + place.offset := by
  induction chain generalizing offset with
  | nil => exact absurd rfl nonempty
  | cons iob rest ih =>
    have own := (fits iob mem_cons_self).length
    rw [stream_cons, length_append] at inside
    unfold copyinSkip
    by_cases beyond : iob.ioLen < offset
    · have more : rest ≠ [] := by
        intro empty
        rw [empty] at inside
        have none : (stream ([] : Chain bufsize)).length = 0 := rfl
        omega
      obtain ⟨place, found, parts, within, position⟩ :=
        @ih (forall_mem_cons.mp fits).2 (offset - iob.ioLen) more
          (by omega)
      rw [if_pos beyond, found]
      refine ⟨_, rfl, ?_, within, ?_⟩
      · rw [cons_append, ← parts]
      · dsimp only
        rw [stream_cons, length_append]
        omega
    · rw [if_neg beyond]
      exact ⟨_, rfl, rfl, by dsimp only; omega, by simp [stream]⟩

theorem stream_setPktlen (pktlen : Nat) (chain : Chain bufsize) :
    stream (setPktlen pktlen chain) = stream chain := by
  cases chain with
  | nil => rfl
  | cons head rest => rfl

/-- The packet length that the first buffer of a chain holds. -/
def pktlenOf : Chain bufsize → Nat
  | [] => 0
  | head :: _ => head.ioPktlen

theorem WellFormed.pktlen_eq {chain : Chain bufsize} (formed : WellFormed chain) :
    pktlenOf chain = (stream chain).length := by
  obtain ⟨head, rest, parts, counted⟩ := formed.pktlen
  rw [stream_length formed.fits, ← counted, parts]
  rfl

/-- The outcome of copying user data into a chain: a well-formed chain, overwritten with all the
data, or with a prefix of it when no buffer could be allocated. -/
def CopiedIn (chain : Chain bufsize) (src : List UInt8) (offset : Nat) (ret : Except Errno Nat)
    (after : Chain bufsize) : Prop :=
  WellFormed after ∧
    ((ret = .ok src.length ∧ stream after = overwrite (stream chain) offset src) ∨
      (ret = .error .enomem ∧
        ∃ done, done <+: src ∧ stream after = overwrite (stream chain) offset done))

/-- Copying into a well-formed chain. -/
theorem iobCopyinInternal_spec [NeZero bufsize] {source : Source σ bufsize} {pool : σ}
    {chain : Chain bufsize} {src : List UInt8} {offset : Nat} {throttled canBlock : Bool}
    (formed : WellFormed chain) (inside : offset ≤ pktlenOf chain)
    (small : max (pktlenOf chain) (offset + src.length) < 65536) :
    ∃ ret after later,
      iobCopyinInternal source pool chain src offset throttled canBlock =
        some (ret, after, later) ∧ CopiedIn chain src offset ret after := by
  have counted := formed.pktlen_eq
  obtain ⟨head, tail, start, _⟩ := formed.pktlen
  obtain ⟨place, found, parts, within, position⟩ := copyinSkip_spec formed.fits
    (by rw [start]; exact cons_ne_nil _ _) (counted ▸ inside)
  obtain ⟨before, fits⟩ := forall_mem_append.mp (parts ▸ formed.fits)
  have spec := @copyinLoop_spec bufsize σ (pktlenOf chain) place.offset place.iob src _ source
    throttled canBlock pool place.rest fits within (by omega) (by omega)
  generalize result : copyinLoop source throttled canBlock pool (pktlenOf chain) place.iob
    place.rest src place.offset = copied at spec
  have ran : iobCopyinInternal source pool chain src offset throttled canBlock =
      some (if copied.complete then .ok src.length else .error .enomem,
        setPktlen copied.pktlen (place.passed ++ copied.bufs), copied.pool) := by
    rw [start] at found inside result ⊢
    unfold iobCopyinInternal
    dsimp only
    rw [if_neg (show ¬head.ioPktlen < offset from Nat.not_lt.mpr inside), found, ← result]
    rfl
  obtain ⟨done, taken, whole, same⟩ := spec.written
  have written : stream (place.passed ++ copied.bufs) = overwrite (stream chain) offset done := by
    rw [stream_append, same, parts, stream_append, overwrite_append_right (by omega)]
    congr 2
    omega
  have short := taken.length_le
  have length : (stream (place.passed ++ copied.bufs)).length =
      max (pktlenOf chain) (offset + done.length) := by
    rw [written, overwrite_length (by omega), counted]
  have nonempty : place.passed ++ copied.bufs ≠ [] := by
    rw [← result]
    refine append_ne_nil_of_right_ne_nil _ ?_
    fun_cases copyinLoop source throttled canBlock pool (pktlenOf chain) place.iob place.rest src
      place.offset <;> exact cons_ne_nil _ _
  have total : copied.pktlen = (stream (place.passed ++ copied.bufs)).length := by
    have before : pktlenOf chain =
        (stream place.passed).length + (stream (place.iob :: place.rest)).length := by
      rw [counted, parts, stream_append, length_append]
    have after : (stream (place.passed ++ copied.bufs)).length =
        (stream place.passed).length + (stream copied.bufs).length := by
      rw [stream_append, length_append]
    rw [spec.pktlen, wrap_of_lt (by omega)]
    omega
  rw [total] at ran
  have kept := forall_mem_append.mpr ⟨before, spec.fits⟩
  have wellFormed : WellFormed (setPktlen (stream (place.passed ++ copied.bufs)).length
      (place.passed ++ copied.bufs)) := by
    rw [stream_length kept]
    obtain ⟨head, rest, split⟩ := exists_cons_of_ne_nil nonempty
    rw [split] at kept ⊢
    have own := forall_mem_cons.mp kept
    exact ⟨forall_mem_cons.mpr ⟨own.1, own.2⟩, _, _, rfl, rfl⟩
  refine ⟨_, _, _, ran, wellFormed, ?_⟩
  rw [stream_setPktlen, written]
  cases complete : copied.complete with
  | true => exact Or.inl ⟨rfl, by rw [whole complete]⟩
  | false => exact Or.inr ⟨rfl, done, taken, rfl⟩

section

variable {chain : Chain bufsize} (fits : ∀ iob ∈ chain, iob.Fits)

include fits

theorem copyoutSkip_spec (offset : Nat) :
    (∀ iob ∈ (copyoutSkip chain offset).1, iob.Fits) ∧
      (stream (copyoutSkip chain offset).1).drop (copyoutSkip chain offset).2 =
        (stream chain).drop offset ∧
      ∀ iob rest, (copyoutSkip chain offset).1 = iob :: rest →
        (copyoutSkip chain offset).2 ≤ iob.ioLen := by
  induction chain generalizing offset with
  | nil => exact ⟨fits, rfl, fun iob rest none => by cases none⟩
  | cons iob rest ih =>
    have own := (fits iob mem_cons_self).length
    unfold copyoutSkip
    by_cases beyond : iob.ioLen ≤ offset
    · rw [if_pos beyond]
      have later := ih (forall_mem_cons.mp fits).2 (offset - iob.ioLen)
      refine ⟨later.1, ?_, later.2.2⟩
      have passed : iob.bytes.drop offset = [] := drop_of_length_le (by omega)
      rw [later.2.1, stream_cons, drop_append, passed, nil_append, own]
    rw [if_neg beyond]
    refine ⟨fits, rfl, ?_⟩
    intro other more same
    cases same
    omega

/-- The copy loop reads the data from its place on. -/
theorem copyoutLoop_spec (remaining offset : Nat)
    (inside : ∀ iob rest, chain = iob :: rest → offset ≤ iob.ioLen) :
    (copyoutLoop chain remaining offset).1 = ((stream chain).drop offset).take remaining ∧
      (copyoutLoop chain remaining offset).2 =
        remaining - (copyoutLoop chain remaining offset).1.length := by
  induction chain generalizing remaining offset with
  | nil => simp [copyoutLoop, stream]
  | cons iob rest ih =>
    have own := (fits iob mem_cons_self).length
    have within := inside iob rest rfl
    have later := ih (forall_mem_cons.mp fits).2
      (remaining - min (iob.ioLen - offset) remaining) 0 (fun _ _ _ => Nat.zero_le _)
    rw [drop_zero] at later
    unfold copyoutLoop
    by_cases wanted : 0 < remaining
    · rw [if_pos wanted]
      dsimp only
      have chunk : (iob.ioData.drop (iob.ioOffset + offset)).take
          (min (iob.ioLen - offset) remaining) = (iob.bytes.drop offset).take remaining := by
        unfold IobS.bytes
        rw [drop_take, take_take, drop_drop, Nat.min_comm]
      have split : ((stream (iob :: rest)).drop offset).take remaining =
          (iob.bytes.drop offset).take remaining ++
            (stream rest).take (remaining - min (iob.ioLen - offset) remaining) := by
        rw [stream_cons, drop_append_of_le_length (by omega), take_append, length_drop, own]
        congr 2
        omega
      constructor
      · rw [chunk, later.1, split]
      · rw [length_append, chunk, length_take, length_drop]
        omega
    · rw [Nat.eq_zero_of_not_pos wanted]
      simp

theorem iobCopyout_eq (len offset : Nat) :
    iobCopyout chain len offset =
      (((stream chain).drop offset).take len, min len ((stream chain).length - offset)) := by
  have skipped := copyoutSkip_spec fits offset
  have copied := copyoutLoop_spec skipped.1 len (copyoutSkip chain offset).2 skipped.2.2
  rw [skipped.2.1] at copied
  unfold iobCopyout
  dsimp only
  rw [copied.2, copied.1, length_take, length_drop]
  congr 1
  omega

end

/-- What a caller sees of a chain after a copy: copying out returns the bytes of its stream, clipped
to its end, and their number. -/
def ReadsBack (chain : Chain bufsize) : Prop :=
  ∀ len offset, iobCopyout chain len offset =
    (((stream chain).drop offset).take len, (((stream chain).drop offset).take len).length)

/-- Copying user data into a well-formed chain overwrites its stream, with or without waiting for
buffers. The chain stays well formed, also when a buffer could not be allocated, and copying out
returns the new stream. -/
theorem iob_copyin_copyout [NeZero bufsize] (source : Source σ bufsize) (pool : σ)
    {chain : Chain bufsize} {src : List UInt8} {offset : Nat} (throttled : Bool)
    (formed : WellFormed chain) (inside : offset ≤ pktlenOf chain)
    (small : max (pktlenOf chain) (offset + src.length) < 65536) :
    (∃ ret after later, iobCopyin source pool chain src offset throttled =
        some (ret, after, later) ∧ CopiedIn chain src offset ret after ∧ ReadsBack after) ∧
      ∃ ret after later, iobTrycopyin source pool chain src offset throttled =
        some (ret, after, later) ∧ CopiedIn chain src offset ret after ∧ ReadsBack after := by
  have both : ∀ canBlock, ∃ ret after later,
      iobCopyinInternal source pool chain src offset throttled canBlock =
        some (ret, after, later) ∧ CopiedIn chain src offset ret after ∧ ReadsBack after := by
    intro canBlock
    obtain ⟨ret, after, later, ran, copied⟩ :=
      @iobCopyinInternal_spec bufsize σ _ source pool chain src offset throttled canBlock formed
        inside small
    refine ⟨ret, after, later, ran, copied, ?_⟩
    intro len position
    rw [iobCopyout_eq copied.1.fits, length_take, length_drop]
  exact ⟨both true, both false⟩

/-- A buffer of four bytes with `len` bytes of data from `offset` on. -/
def fourBytes (len offset pktlen : Nat) : IobS 4 := ⟨len, offset, pktlen, [1, 2, 3, 4], rfl⟩

/-- A pool with some buffers left. -/
def counting : Source Nat 4 where
  alloc _ pool := (if 0 < pool then some (fourBytes 3 1 9) else none, pool - 1)
  tryalloc _ pool := (if 0 < pool then some (fourBytes 3 1 9) else none, pool - 1)

/-- A packet of five bytes with an empty buffer in the middle of its chain. -/
def packet : Chain 4 := [fourBytes 2 1 5, fourBytes 0 3 7, fourBytes 3 0 0]

/-- Seven bytes at offset three overwrite two bytes, fill the last buffer and get a new one, and the
packet is ten bytes long then. -/
theorem iob_copyin_copyout_packet :
    (∃ ret after later, iobCopyin counting 2 packet [9, 9, 9, 9, 9, 9, 9] 3 false =
        some (ret, after, later) ∧ CopiedIn packet [9, 9, 9, 9, 9, 9, 9] 3 ret after ∧
          ReadsBack after) ∧
      ∃ ret after later, iobTrycopyin counting 2 packet [9, 9, 9, 9, 9, 9, 9] 3 false =
        some (ret, after, later) ∧ CopiedIn packet [9, 9, 9, 9, 9, 9, 9] 3 ret after ∧
          ReadsBack after := by
  have formed : WellFormed packet := by
    constructor
    · unfold packet IobS.Fits
      decide
    · exact ⟨_, _, rfl, by decide⟩
  exact iob_copyin_copyout counting 2 false formed (by decide) (by decide)

end Chewie.Mm.Iob
