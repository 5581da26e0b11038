import Chewie.Lib.Ring
import Chewie.Sched.Sem.Model

/-!
# Pipes and FIFOs

Readers and writers share one circular buffer. `d_bfsem` guards it, so that what happens between
taking and posting `d_bfsem` is one step here, and only `d_rdsem` and `d_wrsem` are semaphores of
the model. A reader of an empty pipe waits on `d_rdsem`, a writer to a full one on `d_wrsem`, and
both test the buffer again when they have `d_bfsem` back. The bytes and calls that the code does not
keep are recorded beside its state: what was stored and by which call, and what each call returned.
-/

namespace Chewie.Drivers.Pipes

open Chewie.Sched

/-- The part of `struct pipe_dev_s` that reading, writing, opening and closing use. -/
structure PipeDev where
  wrndx : Nat
  rdndx : Nat
  bufsize : Nat
  refs : Nat
  nwriters : Nat
  nreaders : Nat
  /-- `PIPE_FLAG_POLICY`: keep the bytes when the last user closes the pipe. -/
  policy : Bool
  buffer : Nat → UInt8

/-- The semaphores that readers and writers wait on. -/
inductive PipeSem where
  | rdsem
  | wrsem
deriving DecidableEq

/-- What a task is doing between two steps. `waited` tells that `nxsem_wait` stopped the task, so
that its result is the `pterrno` of the task. -/
inductive Phase where
  | idle
  | opening (wrok rdok waited : Bool)
  | reading (len : Nat) (waited : Bool)
  | writing (data : List UInt8) (nwritten : Nat) (waited : Bool)
deriving DecidableEq

/-- A finished call of `pipecommon_read` or `pipecommon_write`. -/
structure Call where
  data : List UInt8
  ret : Int

/-- A byte in the order of storing. -/
structure Stored where
  task : Nat
  /-- How many writes of the task had finished before the call that wrote it. -/
  call : Nat
  byte : UInt8

/-- The pipe with its users. -/
structure Sys where
  dev : PipeDev
  kernel : Kernel PipeSem
  phase : Nat → Phase
  reads : List Call
  writes : Nat → List Call
  stored : List Stored

def eagain : Int := 11

def epipe : Int := 32

/-- Post a semaphore while its value is negative. Every round makes the value larger by one. -/
def notifyAll (sem : PipeSem) (kernel : Kernel PipeSem) : Kernel PipeSem :=
  (resetLoop sem kernel (-kernel.semcount sem).toNat).1

/-- The loop that takes at most `len` bytes while the buffer is not empty. -/
def readLoop : Nat → PipeDev → PipeDev × List UInt8
  | 0, dev => (dev, [])
  | len + 1, dev =>
    if dev.wrndx ≠ dev.rdndx then
      let rest := readLoop len { dev with rdndx := Ring.next dev.bufsize dev.rdndx }
      (rest.1, dev.buffer dev.rdndx :: rest.2)
    else (dev, [])

/-- The loop that stores bytes while there is room. The result tells how many were stored. -/
def writeLoop : List UInt8 → PipeDev → PipeDev × Nat
  | [], dev => (dev, 0)
  | byte :: data, dev =>
    let nxtwrndx := Ring.next dev.bufsize dev.wrndx
    if nxtwrndx ≠ dev.rdndx then
      let rest := writeLoop data
        { dev with buffer := Function.update dev.buffer dev.wrndx byte, wrndx := nxtwrndx }
      (rest.1, rest.2 + 1)
    else (dev, 0)

/-- Change what a task is doing. -/
def Sys.setPhase (sys : Sys) (task : Nat) (phase : Phase) : Sys :=
  { sys with phase := Function.update sys.phase task phase }

/-- Return from `pipecommon_read`. -/
def Sys.endRead (sys : Sys) (task : Nat) (data : List UInt8) (ret : Int) : Sys :=
  { sys.setPhase task .idle with reads := sys.reads ++ [⟨data, ret⟩] }

/-- Return from `pipecommon_write`. -/
def Sys.endWrite (sys : Sys) (task : Nat) (data : List UInt8) (ret : Int) : Sys :=
  { sys.setPhase task .idle with
    writes := Function.update sys.writes task (sys.writes task ++ [⟨data, ret⟩]) }

/-- Store what fits of the rest of a write. -/
def Sys.store (sys : Sys) (task : Nat) (data : List UInt8) : Sys :=
  let loop := writeLoop data sys.dev
  { sys with
    dev := loop.1
    stored := sys.stored ++
      (data.take loop.2).map fun byte => ⟨task, (sys.writes task).length, byte⟩ }

/-- Wake the tasks that wait on a semaphore. -/
def Sys.notify (sys : Sys) (sem : PipeSem) : Sys :=
  { sys with kernel := notifyAll sem sys.kernel }

/-- `pipecommon_read` from the moment it has `d_bfsem`. -/
def readSection (sys : Sys) (task len : Nat) (nonblock : Bool) : Sys :=
  if sys.dev.wrndx = sys.dev.rdndx then
    if nonblock then sys.endRead task [] (-eagain)
    else if sys.dev.nwriters = 0 then sys.endRead task [] 0
    else
      let wait := nxsemWait sys.kernel task .rdsem
      { sys.setPhase task (.reading len !wait.2) with kernel := wait.1 }
  else
    let loop := readLoop len sys.dev
    let sys := { sys with dev := loop.1 }.notify .wrsem
    sys.endRead task loop.2 loop.2.length

/-- `pipecommon_semtake` for `d_wrsem`, to the point where the task stops or has the count. -/
def semtake (sys : Sys) (task : Nat) (data : List UInt8) (nwritten : Nat) : Sys :=
  let wait := nxsemWait sys.kernel task .wrsem
  { sys.setPhase task (.writing data nwritten !wait.2) with kernel := wait.1 }

/-- `pipecommon_write` from the moment it has `d_bfsem`. `last` is `nwritten` then, so that bytes
were written in this pass when the loop stored some. -/
def writeSection (sys : Sys) (task : Nat) (data : List UInt8) (nwritten : Nat)
    (nonblock : Bool) : Sys :=
  let pass := (writeLoop (data.drop nwritten) sys.dev).2
  let sys := sys.store task (data.drop nwritten)
  if data.length ≤ nwritten + pass then
    (sys.notify .rdsem).endWrite task data data.length
  else
    let sys := if 0 < pass then sys.notify .rdsem else sys
    if nonblock then
      sys.endWrite task data (if nwritten + pass = 0 then -eagain else (nwritten + pass : Nat))
    else semtake sys task data (nwritten + pass)

/-- `pipecommon_read`, up to the first wait. `bfsem` is the result of taking `d_bfsem`. -/
def pipecommonRead (sys : Sys) (task len : Nat) (nonblock : Bool) (bfsem : Errno) : Sys :=
  if len = 0 then sys.endRead task [] 0
  else if bfsem ≠ .ok then sys.endRead task [] (-errnoValue bfsem)
  else readSection sys task len nonblock

/-- `pipecommon_write`, up to the first wait. -/
def pipecommonWrite (sys : Sys) (task : Nat) (data : List UInt8) (nonblock : Bool)
    (bfsem : Errno) : Sys :=
  if data.length = 0 then sys.endWrite task data 0
  else if sys.dev.nreaders = 0 then sys.endWrite task data (-epipe)
  else if bfsem ≠ .ok then sys.endWrite task data (-errnoValue bfsem)
  else writeSection sys task data 0 nonblock

/-- `pipecommon_open` of a pipe whose buffer can be allocated, up to the first wait. The counts are
of type `uint8_t`. -/
def pipecommonOpen (sys : Sys) (task : Nat) (wrok rdok : Bool) (bfsem : Errno) : Sys :=
  if bfsem ≠ .ok then sys
  else
    let nwriters := if wrok then (sys.dev.nwriters + 1) % 2 ^ 8 else sys.dev.nwriters
    let nreaders := if rdok then (sys.dev.nreaders + 1) % 2 ^ 8 else sys.dev.nreaders
    let refs := (sys.dev.refs + 1) % 2 ^ 8
    let dev : PipeDev :=
      { sys.dev with refs := refs, nwriters := nwriters, nreaders := nreaders }
    let sys := { sys with dev := dev }
    let sys := if wrok ∧ nwriters = 1 then sys.notify .rdsem else sys
    if rdok ∧ ¬wrok ∧ nwriters < 1 ∧ dev.wrndx = dev.rdndx then
      let wait := nxsemWait sys.kernel task .rdsem
      { sys.setPhase task (.opening wrok rdok !wait.2) with kernel := wait.1 }
    else sys

/-- `pipecommon_close`. When the last user closes the pipe, the bytes are kept by policy 1 and
otherwise thrown away, which ends the run. -/
def pipecommonClose (sys : Sys) (wrok rdok : Bool) : Option Sys :=
  let refs := (sys.dev.refs + (2 ^ 8 - 1)) % 2 ^ 8
  if 0 < refs then
    let nwriters := if wrok then (sys.dev.nwriters + (2 ^ 8 - 1)) % 2 ^ 8 else sys.dev.nwriters
    let nreaders := if rdok then (sys.dev.nreaders + (2 ^ 8 - 1)) % 2 ^ 8 else sys.dev.nreaders
    let dev : PipeDev :=
      { sys.dev with refs := refs, nwriters := nwriters, nreaders := nreaders }
    let sys := { sys with dev := dev }
    some (if wrok ∧ nwriters = 0 then sys.notify .rdsem else sys)
  else if !sys.dev.policy ∨ sys.dev.wrndx = sys.dev.rdndx then none
  else some { sys with dev := { sys.dev with refs := refs } }

def waitError (sys : Sys) (task : Nat) (waited : Bool) : Errno :=
  if waited then (sys.kernel.tcb task).pterrno else .ok

/-- A task that was waiting goes on. -/
def resume (sys : Sys) (task : Nat) (bfsem : Errno) : Option Sys :=
  match sys.phase task with
  | .idle => none
  | .opening wrok rdok waited =>
    if waitError sys task waited = .ok then some (sys.setPhase task .idle)
    else pipecommonClose (sys.setPhase task .idle) wrok rdok
  | .reading len waited =>
    if waitError sys task waited ≠ .ok then
      some (sys.endRead task [] (-errnoValue (waitError sys task waited)))
    else if bfsem ≠ .ok then some (sys.endRead task [] (-errnoValue bfsem))
    else some (readSection sys task len false)
  | .writing data nwritten waited =>
    if waitError sys task waited = .eintr then some (semtake sys task data nwritten)
    else some (writeSection sys task data nwritten false)

/-- The steps of the pipe and its users. `bfsem` is how taking `d_bfsem` ends. -/
inductive Op where
  | open (task : Nat) (wrok rdok : Bool) (bfsem : Errno)
  | close (task : Nat) (wrok rdok : Bool)
  | read (task len : Nat) (nonblock : Bool) (bfsem : Errno)
  | write (task : Nat) (data : List UInt8) (nonblock : Bool) (bfsem : Errno)
  | resume (task : Nat) (bfsem : Errno)
  | signal (task : Nat) (errcode : Errno)
  | policy (keep : Bool)

/-- One step. A task calls only outside of calls, and runs again only when it does not wait. -/
def step (sys : Sys) : Op → Option Sys
  | .open task wrok rdok bfsem =>
    if sys.phase task = .idle then some (pipecommonOpen sys task wrok rdok bfsem) else none
  | .close task wrok rdok =>
    if sys.phase task = .idle then pipecommonClose sys wrok rdok else none
  | .read task len nonblock bfsem =>
    if sys.phase task = .idle then some (pipecommonRead sys task len nonblock bfsem) else none
  | .write task data nonblock bfsem =>
    if sys.phase task = .idle then some (pipecommonWrite sys task data nonblock bfsem) else none
  | .resume task bfsem =>
    if (sys.kernel.tcb task).taskState = .ready then resume sys task bfsem else none
  | .signal task errcode =>
    (nxsemWaitIrq sys.kernel task errcode).map fun kernel => { sys with kernel := kernel }
  | .policy keep => some { sys with dev := { sys.dev with policy := keep } }

/-- `FIONREAD` and `FIONWRITE`. -/
def fionread (dev : PipeDev) : Nat :=
  if dev.wrndx < dev.rdndx then dev.bufsize - dev.rdndx + dev.wrndx else dev.wrndx - dev.rdndx

def fionspace (dev : PipeDev) : Nat :=
  if dev.wrndx < dev.rdndx then dev.rdndx - dev.wrndx - 1
  else dev.bufsize - dev.wrndx + dev.rdndx - 1

end Chewie.Drivers.Pipes
