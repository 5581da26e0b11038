import Chewie.Lib.Handles
import Chewie.Pwm.Upper
import Mathlib.Data.List.FinRange

/-!
# The motor driver of the chewie application

Each motor is one channel of a PWM device. The driver keeps the characteristics and the descriptor
of each device, and writes the duties of all motors to the devices. Arrays are functions on their
index type. An access outside an array leaves the driver without a next state. The results of `open`
and `ioctl` are given from outside, and every call of the operating system is logged.
-/

namespace Chewie.Motor

open Chewie.Pwm (PwmChan PwmInfo)
open Chewie.Pwm.Upper (Command)
open Chewie.Handles

/-- The configuration of the driver. -/
structure Config where
  /-- `CONFIG_CHEWIE_NUM_OF_CHANNELS`, the number of motors. -/
  numOfChannels : Nat
  /-- `CONFIG_PWM_NCHANNELS`, the channels of a PWM device. -/
  nchannels : Nat
  /-- `CHEWIE_DRV_MOTOR_ARMED_THROTTLE_DUTY`. -/
  armed : Nat
  /-- `CHEWIE_DRV_MOTOR_MIN_THROTTLE_DUTY`. -/
  minimum : Nat
  /-- `CHEWIE_DRV_MOTOR_MAX_THROTTLE_DUTY`. -/
  maximum : Nat
  frequency : Nat
  /-- `CONFIG_CHEWIE_MOTOR_PWM_OUT_DEVICE_PATH_PREFIX`. -/
  devicePath : String
  motors_pos : 1 ≤ numOfChannels
  motors_le : numOfChannels ≤ 255
  channels_pos : 1 ≤ nchannels
  armed_le : armed ≤ maximum

variable {config : Config}

/-- `CHEWIE_NUM_OF_MOTOR_PWM_DEV`. -/
def Config.numOfMotorPwmDev (config : Config) : Nat :=
  config.numOfChannels / 4 + if config.numOfChannels % 4 = 0 then 0 else 1

/-- The characteristics of one device. -/
structure DeviceInfo (config : Config) where
  frequency : Nat
  channels : Fin config.nchannels → PwmChan

/-- The characteristics as the device gets them. -/
def DeviceInfo.pwmInfo (info : DeviceInfo config) : PwmInfo :=
  ⟨info.frequency, List.ofFn info.channels⟩

/-- `_g_motors_state` and `g_motor_state`. -/
structure Motors (config : Config) where
  pwmsInfo : Fin config.numOfMotorPwmDev → DeviceInfo config
  pwmDevsFd : Fin config.numOfMotorPwmDev → Int
  freq : Nat
  dutys : Fin config.numOfChannels → Nat

/-- The static data before the first call. -/
def Motors.zero (config : Config) : Motors config where
  pwmsInfo := fun _ => ⟨0, fun _ => ⟨0, 0⟩⟩
  pwmDevsFd := fun _ => 0
  freq := 0
  dutys := fun _ => 0

/-- The operating system as the driver sees it. -/
structure World where
  /-- What the calls will return, by their number in the log. -/
  answers : Nat → Int
  log : List (Event String Command)

/-- Open a device. A descriptor that is open is not returned again. -/
def World.openPath (world : World) (path : String) : World × Int :=
  let answer := world.answers world.log.length
  let fd := if 0 ≤ answer ∧ answer ∉ openFds world.log then answer else -1
  ({ world with log := .opened path fd :: world.log }, fd)

/-- Perform a command on a descriptor, which fails when the descriptor is not open. -/
def World.ioctl (world : World) (fd : Int) (command : Command) : World × Int :=
  let ret := if fd ∈ openFds world.log then world.answers world.log.length else -1
  ({ world with log := .used fd command ret :: world.log }, ret)

/-- Close a descriptor. -/
def World.close (world : World) (fd : Int) : World :=
  { world with log := .closed fd :: world.log }

/-- Whether a device outputs pulses: it was started and not stopped, and the last close of a device
shuts it down. -/
def outputting (path : String) : List (Event String Command) → Bool
  | [] => false
  | .opened _ _ :: rest => outputting path rest
  | .used fd command ret :: rest =>
    if 0 ≤ ret ∧ (fd, path) ∈ openFiles rest then
      match command with
      | .start => true
      | .stop => false
      | _ => outputting path rest
    else outputting path rest
  | .closed fd :: rest =>
    if ∃ file ∈ openFiles (.closed fd :: rest), file.2 = path then outputting path rest else false

/-- Open a PWM device. -/
def drvPwmInit (world : World) (devpath : String) : World × Int :=
  let opened := world.openPath devpath
  if opened.2 < 0 then (opened.1, -1) else opened

/-- A command with its result reduced to zero or minus one. -/
def drvPwmCommand (world : World) (fd : Int) (command : Command) : World × Int :=
  let done := world.ioctl fd command
  (done.1, if done.2 < 0 then -1 else 0)

/-- Start the output of a PWM device. -/
def drvPwmStart (world : World) (fd : Int) : World × Int := drvPwmCommand world fd .start

/-- Stop the output of a PWM device. -/
def drvPwmStop (world : World) (fd : Int) : World × Int := drvPwmCommand world fd .stop

/-- Set the characteristics of a PWM device. -/
def drvPwmUpdateInfo (world : World) (fd : Int) (info : PwmInfo) : World × Int :=
  drvPwmCommand world fd (.setCharacteristics info)

/-- Close a PWM device. -/
def drvPwmDeinit (world : World) (fd : Int) : World := world.close fd

/-- The path of a device. -/
def devpath (config : Config) (i : Fin config.numOfMotorPwmDev) : String :=
  config.devicePath ++ toString i.val

/-- Change the characteristics of a device. -/
def Motors.setInfo (motors : Motors config) (i : Fin config.numOfMotorPwmDev)
    (info : DeviceInfo config) : Motors config :=
  { motors with pwmsInfo := Function.update motors.pwmsInfo i info }

/-- Change the descriptor of a device. -/
def Motors.setFd (motors : Motors config) (i : Fin config.numOfMotorPwmDev) (fd : Int) :
    Motors config :=
  { motors with pwmDevsFd := Function.update motors.pwmDevsFd i fd }

/-- The inner loop of `drv_motor_init`, which gives the channels of a device to motors. -/
def initChannels (config : Config) (i : Nat) :
    List (Fin config.nchannels) → (Fin config.nchannels → PwmChan) →
      Fin config.nchannels → PwmChan
  | [], channels => channels
  | j :: rest, channels =>
    if i * config.nchannels + j < config.numOfChannels then
      initChannels config i rest
        (Function.update channels j ⟨config.armed, Word.wrap 8 (j + 1)⟩)
    else channels

/-- The first loop of `drv_motor_init`. -/
def initInfo : List (Fin config.numOfMotorPwmDev) → Motors config → Motors config
  | [], motors => motors
  | i :: rest, motors =>
    let motors := motors.setFd i (-1)
    initInfo rest (motors.setInfo i ⟨config.frequency,
      initChannels config i (List.finRange _) (motors.pwmsInfo i).channels⟩)

/-- The last loop of `drv_motor_init`, which opens, sets and starts the devices. The flag tells
whether all of it succeeded. -/
def initDevices : List (Fin config.numOfMotorPwmDev) → Motors config → World →
    Motors config × World × Bool
  | [], motors, world => (motors, world, true)
  | i :: rest, motors, world =>
    let opened := drvPwmInit world (devpath config i)
    let motors := motors.setFd i opened.2
    if opened.2 < 0 then (motors, opened.1, false)
    else
      let updated := drvPwmUpdateInfo opened.1 opened.2 (motors.pwmsInfo i).pwmInfo
      if updated.2 < 0 then (motors, updated.1, false)
      else
        let started := drvPwmStart updated.1 opened.2
        if started.2 < 0 then (motors, started.1, false)
        else initDevices rest motors started.1

/-- The error exit of `drv_motor_init`, which closes the descriptors and keeps their numbers. -/
def closeDevices (motors : Motors config) : List (Fin config.numOfMotorPwmDev) → World → World
  | [], world => world
  | i :: rest, world =>
    closeDevices motors rest
      (if 0 ≤ motors.pwmDevsFd i then world.close (motors.pwmDevsFd i) else world)

/-- The data of `drv_motor_init` before it opens devices. -/
def initMotors (motors : Motors config) : Motors config :=
  let motors := initInfo (List.finRange _) { motors with freq := config.frequency }
  { motors with dutys := fun _ => config.armed }

/-- Set up the motor devices. -/
def drvMotorInit (motors : Motors config) (world : World) : Motors config × World × Int :=
  let done := initDevices (List.finRange _) (initMotors motors) world
  if done.2.2 then (done.1, done.2.1, 0)
  else (done.1, closeDevices done.1 (List.finRange _) done.2.1, -1)

/-- Write the duty of a channel. -/
def Motors.setDuty (motors : Motors config) (j k duty : Nat) : Option (Motors config) :=
  if inside : j < config.numOfMotorPwmDev ∧ k < config.nchannels then
    let info := motors.pwmsInfo ⟨j, inside.1⟩
    let chan := { info.channels ⟨k, inside.2⟩ with duty := duty }
    some (motors.setInfo ⟨j, inside.1⟩
      ⟨info.frequency, Function.update info.channels ⟨k, inside.2⟩ chan⟩)
  else none

/-- The body of the loop of `drv_motor_update` that writes and limits one duty. -/
def writeDuty (motors : Motors config) (i : Fin config.numOfChannels) (j k : Nat) :
    Option (Motors config) :=
  (motors.setDuty j k (motors.dutys i)).bind fun motors =>
    (if motors.dutys i > config.maximum then motors.setDuty j k config.maximum
      else some motors).bind fun motors =>
      if motors.dutys i < config.armed then motors.setDuty j k config.armed else some motors

/-- The loop of `drv_motor_update` over three counters of eight bits. -/
def updateLoop : Nat → Motors config → World → Nat → Nat → Nat → Option (Motors config × World)
  | 0, _, _, _, _, _ => none
  | fuel + 1, motors, world, i, j, k =>
    if inside : i < config.numOfChannels then
      match writeDuty motors ⟨i, inside⟩ j k with
      | none => none
      | some motors =>
        if k ≥ config.nchannels - 1 then
          if device : j < config.numOfMotorPwmDev then
            let updated := drvPwmUpdateInfo world (motors.pwmDevsFd ⟨j, device⟩)
              (motors.pwmsInfo ⟨j, device⟩).pwmInfo
            -- `k` becomes minus one, which is 255, before it is incremented.
            updateLoop fuel motors updated.1 (Word.add 8 i 1) (Word.add 8 j 1) (Word.add 8 255 1)
          else none
        else updateLoop fuel motors world (Word.add 8 i 1) j (Word.add 8 k 1)
    else some (motors, world)

/-- Write the duties to the devices. The results of the devices are dropped. -/
def drvMotorUpdate (motors : Motors config) (world : World) :
    Option (Motors config × World × Int) :=
  (updateLoop (config.numOfChannels + 1) motors world 0 0 0).map fun done => (done.1, done.2, 0)

/-- One throttle position of the calibration. -/
def escThrottle (motors : Motors config) (world : World) (duty : Nat) :
    Option (Motors config × World × Int) :=
  drvMotorUpdate { motors with dutys := fun _ => duty } world

/-- Calibrate the speed controllers with the largest and the smallest throttle. -/
def drvMotorEscInit (motors : Motors config) (world : World) :
    Option (Motors config × World × Int) :=
  match escThrottle motors world config.maximum with
  | none => none
  | some (motors, world, ret) =>
    if ret < 0 then some (motors, world, -1)
    else match escThrottle motors world config.minimum with
      | none => none
      | some (motors, world, ret) => some (motors, world, if ret < 0 then -1 else 0)

/-- The loop of `drv_motor_deinit`. -/
def deinitDevices : List (Fin config.numOfMotorPwmDev) → Motors config → World →
    Motors config × World
  | [], motors, world => (motors, world)
  | i :: rest, motors, world =>
    let stopped := drvPwmStop world (motors.pwmDevsFd i)
    deinitDevices rest (motors.setFd i (-1)) (drvPwmDeinit stopped.1 (motors.pwmDevsFd i))

/-- Stop and close the motor devices. -/
def drvMotorDeinit (motors : Motors config) (world : World) : Motors config × World :=
  deinitDevices (List.finRange _) motors world

end Chewie.Motor
