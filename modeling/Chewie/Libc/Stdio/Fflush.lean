import Chewie.Lib.Run

/-!
# Buffered output

A stream opened for writing keeps the bytes that `fwrite` stores until `lib_fflush` hands them to
`write()`. What `write()` has accepted and what the stream has taken are logged beside the buffer.
Each call comes with the results of its `write()` calls, an error (`none`) or the number of bytes
accepted. A call that needs more results than it comes with is seen before its end.
-/

namespace Chewie.Libc.Stdio

open Run List

structure Stream where
  /-- The bytes from `fs_bufstart` to `fs_bufpos`. -/
  pending : List UInt8
  accepted : List UInt8
  /-- Of each `fwrite`, as many bytes as it has reported written. -/
  taken : List UInt8
  deriving DecidableEq

inductive Outcome where
  | done
  | failed
  | unfinished
  deriving DecidableEq

/-- The loop of `lib_fflush` over the bytes at `src`. -/
def flushLoop (bforce : Bool) :
    List (Option Nat) → List UInt8 → List UInt8 → Outcome × List UInt8 × List UInt8
  | [], src, accepted => (.unfinished, src, accepted)
  | none :: _, src, accepted => (.failed, src, accepted)
  | some bytesWritten :: results, src, accepted =>
    if bforce ∧ src.drop bytesWritten ≠ [] then
      flushLoop bforce results (src.drop bytesWritten) (accepted ++ src.take bytesWritten)
    else (.done, src.drop bytesWritten, accepted ++ src.take bytesWritten)

def libFflush (bforce : Bool) (results : List (Option Nat)) (stream : Stream) :
    Outcome × Stream :=
  if stream.pending = [] then (.done, stream)
  else
    match flushLoop bforce results stream.pending stream.accepted with
    -- The remainder is moved down after the loop only: an error leaves the buffer as it was.
    | (.done, src, accepted) => (.done, { stream with pending := src, accepted })
    | (outcome, _, accepted) => (outcome, { stream with accepted })

def Stream.store (stream : Stream) (gulp : List UInt8) : Stream :=
  { stream with pending := stream.pending ++ gulp, taken := stream.taken ++ gulp }

/-- The loop of `lib_fwrite`, with a buffer of `size` bytes. -/
def fwriteLoop (size : Nat) (results : List (Option Nat)) (data : List UInt8) (stream : Stream) :
    Outcome × Stream :=
  let gulpSize := size - stream.pending.length
  let stored := stream.store (data.take gulpSize)
  -- The last gulp leaves the buffer short of full, or there was nothing left to store.
  if data = [] ∨ stored.pending.length < size then (.done, stored)
  else
    match results with
    | [] => (.unfinished, stored)
    | result :: results =>
      match libFflush false [result] stored with
      | (.done, flushed) => fwriteLoop size results (data.drop gulpSize) flushed
      | stopped => stopped

inductive Call where
  | fwrite (data : List UInt8) (results : List (Option Nat))
  | fflush (results : List (Option Nat))

def perform (size : Nat) (stream : Stream) : Call → Outcome × Stream
  | .fwrite data results =>
    match fwriteLoop size results data stream with
    -- The call reports zero items, whatever it has stored.
    | (.failed, next) => (.failed, { next with taken := stream.taken })
    | other => other
  | .fflush results => libFflush true results stream

def step (size : Nat) (stream : Stream) (call : Call) : Option Stream :=
  match perform size stream call with
  | (.unfinished, _) => none
  | (_, next) => some next

def opened : Stream := ⟨[], [], []⟩

/-- The bytes that `write()` accepts before its first error. -/
def untilError : List (Option Nat) → Nat
  | some bytesWritten :: results => bytesWritten + untilError results
  | _ => 0

/-- When `write()` fails, it has not accepted a byte in this call: an `fflush` has either written
nothing before the error or everything, and an `fwrite` began with a full buffer. -/
def Careful (size : Nat) (stream : Stream) : Call → Prop
  | .fflush results =>
    none ∈ results → untilError results = 0 ∨ stream.pending.length ≤ untilError results
  | .fwrite _ results =>
    none ∈ results → untilError results = 0 ∧ size ≤ stream.pending.length

instance decidableCareful (size : Nat) (stream : Stream) :
    (call : Call) → Decidable (Careful size stream call)
  | .fflush _ => inferInstanceAs (Decidable (_ → _ ∨ _))
  | .fwrite .. => inferInstanceAs (Decidable (_ → _ ∧ _))

/-- The stream has taken what `write()` has accepted, and then what is in the buffer. -/
def Stream.Settled (stream : Stream) : Prop :=
  stream.taken = stream.accepted ++ stream.pending

variable {results : List (Option Nat)} {outcome : Outcome} {stream : Stream}

theorem flushLoop_spec {bforce : Bool} {src accepted rest log : List UInt8}
    (ended : flushLoop bforce results src accepted = (outcome, rest, log)) :
    accepted ++ src = log ++ rest ∧ (outcome = .done → bforce → rest = []) := by
  fun_induction flushLoop with
  | case1 | case2 =>
    cases ended
    exact ⟨rfl, fun finished => by cases finished⟩
  | case3 src accepted bytesWritten results again ih =>
    obtain ⟨whole, emptied⟩ := ih ended
    rw [← whole, append_assoc, take_append_drop]
    exact ⟨rfl, emptied⟩
  | case4 src accepted bytesWritten results last =>
    cases ended
    rw [append_assoc, take_append_drop]
    exact ⟨rfl, fun _ forced => not_not.mp fun left => last ⟨forced, left⟩⟩

end Chewie.Libc.Stdio
