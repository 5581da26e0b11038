import Chewie.Pwm.Timer
import Chewie.Lib.Run

/-!
# The PWM character device

The upper half of the PWM driver counts the open files, keeps the characteristics that were set
last, and has a flag for an output that was started. It calls the lower half to set the device up at
the first open, to start and stop the output, and to shut the device down at the last close. What
the calls of the lower half return is given with each call of the driver. The flag agrees with the
lower half as long as the last file is not closed while the output runs, and a running output is
never refused new characteristics.
-/

namespace Chewie.Pwm.Upper

/-- `pwm_upperhalf_s`. -/
structure Upperhalf where
  crefs : Nat
  started : Bool
  info : PwmInfo
deriving DecidableEq

/-- The device: the upper half, and what the lower half was told. -/
structure Device where
  upper : Upperhalf
  /-- The characteristics of the last successful start, unless the lower half was stopped or shut
  down since. -/
  running : Option PwmInfo
deriving DecidableEq

/-- The commands of `pwm_ioctl`. -/
inductive Command where
  | setCharacteristics (info : PwmInfo)
  | getCharacteristics
  | start
  | stop
  | other
deriving DecidableEq

/-- The entry points of the driver. The calls do not depend on the file they come from. -/
inductive Entry where
  | openDevice
  | close
  | ioctl (command : Command)
deriving DecidableEq

/-- A call of the driver with the results of the calls it makes. -/
structure Call where
  entry : Entry
  exclsem : Int
  lower : Int
deriving DecidableEq

/-- `-EMFILE`. -/
def emfile : Int := -24

/-- The start method of the lower half. -/
def lowerStart (device : Device) (info : PwmInfo) (ret : Int) : Device :=
  if ret = 0 then { device with running := some info } else device

/-- The stop method of the lower half. -/
def lowerStop (device : Device) : Device := { device with running := none }

/-- The shutdown method of the lower half, which stops the output first. -/
def lowerShutdown (device : Device) : Device := { device with running := none }

/-- Open the device. -/
def pwmOpen (device : Device) (setup : Int) : Device × Int :=
  let tmp := (device.upper.crefs + 1) % 256
  if tmp = 0 then (device, emfile)
  else if tmp = 1 ∧ setup < 0 then (device, setup)
  else ({ device with upper := { device.upper with crefs := tmp } }, 0)

/-- Close the device. The flag is kept. -/
def pwmClose (device : Device) : Device × Int :=
  if device.upper.crefs > 1 then
    ({ device with upper := { device.upper with crefs := device.upper.crefs - 1 } }, 0)
  else (lowerShutdown { device with upper := { device.upper with crefs := 0 } }, 0)

/-- Start the output unless it was started. -/
def pwmStart (device : Device) (start : Int) : Device × Int :=
  if device.upper.started then (device, 0)
  else
    let next := lowerStart device device.upper.info start
    if start = 0 then ({ next with upper := { next.upper with started := true } }, start)
    else (next, start)

/-- Perform a command. -/
def pwmIoctl (device : Device) (exclsem : Int) (command : Command) (lower : Int) :
    Device × Int :=
  match command with
  | .setCharacteristics info =>
    let device := { device with upper := { device.upper with info := info } }
    if device.upper.started then (lowerStart device info lower, lower) else (device, exclsem)
  | .getCharacteristics => (device, exclsem)
  | .start => pwmStart device lower
  | .stop =>
    if device.upper.started then
      let next := lowerStop device
      ({ next with upper := { next.upper with started := false } }, lower)
    else (device, exclsem)
  | .other => (device, lower)

/-- Perform a call with exclusive access to the device. -/
def perform (device : Device) (call : Call) : Device × Int :=
  if call.exclsem < 0 then (device, call.exclsem)
  else match call.entry with
    | .openDevice => pwmOpen device call.lower
    | .close => pwmClose device
    | .ioctl command => pwmIoctl device call.exclsem command call.lower

/-- The device after a call. -/
def next (device : Device) (call : Call) : Device := (perform device call).1

/-- The device that `pwm_register` makes for a number of channels. -/
def registered (nchannels : Nat) : Device where
  upper := ⟨0, false, ⟨0, List.replicate nchannels ⟨0, 0⟩⟩⟩
  running := none

/-- The characteristics that a call sets, or those set before it. -/
def lastSet (info : PwmInfo) (call : Call) : PwmInfo :=
  match call.entry with
  | .ioctl (.setCharacteristics new) => if call.exclsem < 0 then info else new
  | _ => info

/-- The last file is not closed while the flag is set, and a started output takes the new
characteristics. -/
def Careful (device : Device) (call : Call) : Prop :=
  match call.entry with
  | .close => device.upper.started = true → 1 < device.upper.crefs
  | .ioctl (.setCharacteristics _) => device.upper.started = true → call.lower = 0
  | _ => True

instance decidableCareful (device : Device) : ∀ call, Decidable (Careful device call)
  | ⟨.close, _, _⟩ => inferInstanceAs (Decidable (_ → _))
  | ⟨.ioctl (.setCharacteristics _), _, _⟩ => inferInstanceAs (Decidable (_ → _))
  | ⟨.openDevice, _, _⟩ | ⟨.ioctl .getCharacteristics, _, _⟩ | ⟨.ioctl .start, _, _⟩
  | ⟨.ioctl .stop, _, _⟩ | ⟨.ioctl .other, _, _⟩ => isTrue trivial

/-- The flag means that the lower half runs with the characteristics that were set last. -/
def Agrees (device : Device) : Prop :=
  device.upper.started = true → device.running = some device.upper.info

section

variable {device : Device} (agrees : Agrees device)

include agrees

theorem pwmStart_running {start : Int} (succeeds : (pwmStart device start).2 = 0) :
    (pwmStart device start).1.running = some device.upper.info := by
  unfold pwmStart at *
  cases flag : device.upper.started with
  | true => exact agrees flag
  | false =>
    simp only [flag, Bool.false_eq_true, if_false] at *
    by_cases started : start = 0
    · simp [started, lowerStart]
    · simp [started] at succeeds

theorem Agrees.pwmStart (start : Int) : Agrees (pwmStart device start).1 := by
  unfold Upper.pwmStart
  cases flag : device.upper.started with
  | true => exact agrees
  | false =>
    by_cases started : start = 0
    · simp [started, lowerStart, Agrees]
    · simpa [started, lowerStart] using agrees

theorem Agrees.pwmIoctl {exclsem lower : Int} {command : Command}
    (careful : Careful device ⟨.ioctl command, exclsem, lower⟩) :
    Agrees (pwmIoctl device exclsem command lower).1 := by
  cases command with
  | setCharacteristics info =>
    cases flag : device.upper.started with
    | true =>
      have taken : lower = 0 := careful flag
      simp [Upper.pwmIoctl, flag, taken, lowerStart, Agrees]
    | false => simp [Upper.pwmIoctl, flag, Agrees]
  | getCharacteristics => exact agrees
  | start => exact agrees.pwmStart lower
  | stop =>
    cases flag : device.upper.started with
    | true => simp [Upper.pwmIoctl, flag, Agrees]
    | false => simpa [Upper.pwmIoctl, flag] using agrees
  | other => exact agrees

theorem Agrees.next {call : Call} (careful : Careful device call) : Agrees (next device call) := by
  obtain ⟨entry, exclsem, lower⟩ := call
  unfold Upper.next perform
  split_ifs
  · exact agrees
  · cases entry with
    | openDevice =>
      dsimp only [pwmOpen]
      split_ifs <;> exact agrees
    | close =>
      dsimp only [pwmClose]
      split_ifs with more
      · exact agrees
      · intro flag
        exact absurd (careful flag) more
    | ioctl command => exact agrees.pwmIoctl careful

end

theorem next_info (device : Device) (call : Call) :
    (next device call).upper.info = lastSet device.upper.info call := by
  obtain ⟨entry, exclsem, lower⟩ := call
  unfold next perform
  split_ifs with failed
  · cases entry with
    | ioctl command => cases command <;> simp [lastSet, failed]
    | _ => rfl
  · cases entry with
    | openDevice =>
      dsimp only [pwmOpen]
      split_ifs <;> rfl
    | close =>
      dsimp only [pwmClose]
      split_ifs <;> rfl
    | ioctl command =>
      cases command with
      | setCharacteristics info =>
        dsimp only [pwmIoctl, lowerStart, lastSet]
        split_ifs <;> rfl
      | start =>
        dsimp only [pwmIoctl, Upper.pwmStart, lowerStart]
        split_ifs <;> rfl
      | stop =>
        dsimp only [pwmIoctl]
        split_ifs <;> rfl
      | _ => rfl

theorem foldl_info (device : Device) (calls : List Call) :
    (calls.foldl next device).upper.info = calls.foldl lastSet device.upper.info := by
  induction calls generalizing device with
  | nil => rfl
  | cons call rest ih =>
    rw [List.foldl_cons, List.foldl_cons, ih, next_info]

/-- In every sequence of careful calls on a registered device, the flag is set only while the lower
half runs, and a start that succeeds leaves it running with the characteristics that were set
last. -/
theorem pwm_started_running (nchannels : Nat) (calls : List Call)
    (careful : Run.Admitted (fun device call => some (next device call)) Careful
      (registered nchannels) calls) :
    let device := calls.foldl next (registered nchannels)
    (device.upper.started = true → device.running.isSome) ∧
      ∀ exclsem lower,
        (perform device ⟨.ioctl .start, exclsem, lower⟩).2 = 0 →
        (perform device ⟨.ioctl .start, exclsem, lower⟩).1.running =
          some (calls.foldl lastSet (registered nchannels).upper.info) := by
  have initial : Agrees (registered nchannels) := fun started => Bool.noConfusion started
  have keeps : ∀ device call, Agrees device → Careful device call →
      ∃ after, some (next device call) = some after ∧ Agrees after :=
    fun device call agrees careful => ⟨next device call, rfl, agrees.next careful⟩
  obtain ⟨final, reached, agrees⟩ := Run.run_invariant keeps initial careful
  rw [Run.run_total] at reached
  cases reached
  refine ⟨?_, ?_⟩
  · intro started
    rw [agrees started]
    rfl
  · intro exclsem lower succeeds
    rw [← foldl_info]
    by_cases failed : exclsem < 0
    · rw [perform, if_pos failed] at succeeds
      exact absurd succeeds (Int.ne_of_lt failed)
    · rw [perform, if_neg failed] at *
      exact pwmStart_running agrees succeeds

/-- A device that is opened, set and started runs with what was set. -/
theorem pwm_started_running_sample :
    ([⟨.openDevice, 0, 0⟩, ⟨.ioctl (.setCharacteristics ⟨400, [⟨23592, 1⟩]⟩), 0, 0⟩,
      ⟨.ioctl .start, 0, 0⟩].foldl next (registered 1)).running = some ⟨400, [⟨23592, 1⟩]⟩ := by
  have result := pwm_started_running 1
    [⟨.openDevice, 0, 0⟩, ⟨.ioctl (.setCharacteristics ⟨400, [⟨23592, 1⟩]⟩), 0, 0⟩]
    (by decide)
  exact result.2 0 0 (by decide)

/-- Closing the last file while the output runs leaves the flag set, and the next start succeeds
without an output. A start also succeeds after new characteristics were refused, with the old ones
in use. -/
theorem pwm_started_stale :
    let info : PwmInfo := ⟨400, [⟨23592, 1⟩]⟩
    let other : PwmInfo := ⟨50, [⟨23592, 1⟩]⟩
    let started := [⟨.openDevice, 0, 0⟩, ⟨.ioctl (.setCharacteristics info), 0, 0⟩,
      ⟨.ioctl .start, 0, 0⟩].foldl next (registered 1)
    let closed := next started ⟨.close, 0, 0⟩
    let reopened := next closed ⟨.openDevice, 0, 0⟩
    let restarted := perform reopened ⟨.ioctl .start, 0, 0⟩
    let refused := next started ⟨.ioctl (.setCharacteristics other), 0, einval⟩
    let again := perform refused ⟨.ioctl .start, 0, 0⟩
    (closed.upper.started = true ∧ closed.running = none) ∧
      (restarted.2 = 0 ∧ restarted.1.running = none) ∧
      (again.2 = 0 ∧ again.1.upper.info = other ∧ again.1.running = some info) := by
  decide

end Chewie.Pwm.Upper
