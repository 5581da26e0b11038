import Chewie.Motor.Model
import Mathlib.Data.List.Perm.Subperm
import Mathlib.Tactic.Ring

/-!
# Motors and channels

Motor `i` belongs to channel `i % c` of device `i / c`, where a device has `c` channels. The loop of
`drv_motor_update` writes the duties in this order and sends the characteristics of a device when
its last channel is written. A device whose channels are not all used is never sent, and the number
of devices is computed for four channels per device. The update does what it should exactly when the
number of channels divides the number of motors and the devices suffice.
-/

namespace Chewie.Motor

open Function Word List Option Motors
open Chewie.Pwm (PwmChan PwmInfo)
open Chewie.Pwm.Upper (Command)
open Chewie.Handles

variable {config : Config} {motors : Motors config}

/-- The device and channel are those of a motor. -/
def Drives (config : Config) (i j k : Nat) : Prop :=
  j = i / config.nchannels ∧ k = i % config.nchannels

/-- The device carries a motor. -/
def Carries (j : Fin config.numOfMotorPwmDev) : Prop :=
  ∃ i : Fin config.numOfChannels, j.val = i.val / config.nchannels

/-- A duty limited to the throttle range. -/
def Config.clamp (config : Config) (duty : Nat) : Nat := max config.armed (min config.maximum duty)

/-- The event of sending characteristics to a device. -/
def sending (motors : Motors config) (call : Fin config.numOfMotorPwmDev × Int) :
    Event String Command :=
  .used (motors.pwmDevsFd call.1) (.setCharacteristics (motors.pwmsInfo call.1).pwmInfo) call.2

/-- The log grew by one call for each of some devices, with the characteristics that the driver has
at the end. -/
def Sent (motors : Motors config) (devices : Fin config.numOfMotorPwmDev → Prop)
    (world after : World) : Prop :=
  ∃ calls : List (Fin config.numOfMotorPwmDev × Int),
    after.log = calls.map (sending motors) ++ world.log ∧ (calls.map Prod.fst).Nodup ∧
      ∀ j, j ∈ calls.map Prod.fst ↔ devices j

/-- What an update of the motors should do. -/
structure Maps (motors : Motors config) (world : World) (next : Motors config) (after : World) :
    Prop where
  /-- The duty of each motor is written to its channel, inside the arrays. -/
  assigned : ∀ i : Fin config.numOfChannels, ∃ j k, Drives config i.val j.val k.val ∧
    ((next.pwmsInfo j).channels k).duty = config.clamp (motors.dutys i)
  untouched : ∀ j k, (∀ i : Fin config.numOfChannels, ¬Drives config i.val j.val k.val) →
    (next.pwmsInfo j).channels k = (motors.pwmsInfo j).channels k
  remaining : (∀ j k, ((next.pwmsInfo j).channels k).channel =
      ((motors.pwmsInfo j).channels k).channel) ∧
    (∀ j, (next.pwmsInfo j).frequency = (motors.pwmsInfo j).frequency) ∧
    next.pwmDevsFd = motors.pwmDevsFd ∧ next.freq = motors.freq ∧ next.dutys = motors.dutys
  /-- Each device with a motor is sent its characteristics once, when its channels are written. -/
  sent : Sent next Carries world after
  configured : ∀ j k, ((initMotors (Motors.zero config)).pwmsInfo j).channels k =
    if ∃ i : Fin config.numOfChannels, j.val = i.val / config.nchannels ∧
        k.val = i.val % config.nchannels then ⟨config.armed, k.val + 1⟩ else ⟨0, 0⟩

/-- There are devices for all motors. -/
def Config.Room (config : Config) : Prop :=
  ∀ i < config.numOfChannels, i / config.nchannels < config.numOfMotorPwmDev

instance decidableRoom (config : Config) : Decidable config.Room :=
  inferInstanceAs (Decidable (∀ i < config.numOfChannels,
    i / config.nchannels < config.numOfMotorPwmDev))

theorem drives_iff {i j k : Nat} (inside : k < config.nchannels) :
    Drives config i j k ↔ j * config.nchannels + k = i := by
  unfold Drives
  constructor
  · rintro ⟨rfl, rfl⟩
    exact Nat.div_add_mod' i config.nchannels
  · rintro rfl
    rw [Nat.add_comm, Nat.add_mul_div_right _ _ config.channels_pos, Nat.div_eq_of_lt inside,
      Nat.add_mul_mod_self_right, Nat.mod_eq_of_lt inside, Nat.zero_add]
    exact ⟨rfl, rfl⟩

theorem channel_lt (config : Config) (i : Nat) : i % config.nchannels < config.nchannels :=
  Nat.mod_lt _ config.channels_pos

theorem counters_last {count : Nat} (last : count % config.nchannels ≥ config.nchannels - 1) :
    count + 1 = (count / config.nchannels + 1) * config.nchannels ∧
      (count + 1) / config.nchannels = count / config.nchannels + 1 ∧
      (count + 1) % config.nchannels = 0 := by
  have positive := config.channels_pos
  have channel := channel_lt config count
  have place := Nat.div_add_mod' count config.nchannels
  have full : count + 1 = (count / config.nchannels + 1) * config.nchannels := by
    rw [Nat.succ_mul]
    omega
  refine ⟨full, ?_, ?_⟩
  · rw [full, Nat.mul_div_cancel _ positive]
  · rw [full, Nat.mul_mod_left]

/-- A channel when the loop has come to motor `count`. -/
def writtenChan (motors : Motors config) (count : Nat) (j : Fin config.numOfMotorPwmDev)
    (k : Fin config.nchannels) : PwmChan :=
  if inside : j.val * config.nchannels + k.val < config.numOfChannels then
    if j.val * config.nchannels + k.val < count then
      { (motors.pwmsInfo j).channels k with
        duty := config.clamp (motors.dutys ⟨j.val * config.nchannels + k.val, inside⟩) }
    else (motors.pwmsInfo j).channels k
  else (motors.pwmsInfo j).channels k

/-- The motors whose duties are written when the loop has come to motor `count`. -/
def written (motors : Motors config) (count : Nat) : Motors config :=
  { motors with
    pwmsInfo := fun j => ⟨(motors.pwmsInfo j).frequency, writtenChan motors count j⟩ }

theorem written_zero (motors : Motors config) : written motors 0 = motors := by
  unfold written writtenChan
  simp

theorem setDuty_setDuty {next : Motors config} {j k first second : Nat}
    (done : motors.setDuty j k first = some next) :
    next.setDuty j k second = motors.setDuty j k second := by
  unfold setDuty at *
  split_ifs at * with inside
  cases done
  simp [setInfo]

theorem setDuty_dutys {next : Motors config} {j k duty : Nat}
    (done : motors.setDuty j k duty = some next) : next.dutys = motors.dutys := by
  unfold setDuty at done
  split_ifs at done
  cases done
  rfl

/-- The loop body writes the limited duty. -/
theorem writeDuty_eq (motors : Motors config) (i : Fin config.numOfChannels) (j k : Nat) :
    writeDuty motors i j k = motors.setDuty j k (config.clamp (motors.dutys i)) := by
  have range := config.armed_le
  unfold writeDuty Config.clamp
  by_cases inside : j < config.numOfMotorPwmDev ∧ k < config.nchannels
  · have writes : ∀ duty, ∃ next, motors.setDuty j k duty = some next :=
      fun duty => ⟨_, dif_pos inside⟩
    obtain ⟨next, done⟩ := writes (motors.dutys i)
    have kept := setDuty_dutys done
    rw [done, bind_some, kept]
    by_cases large : motors.dutys i > config.maximum
    · obtain ⟨last, limited⟩ := writes config.maximum
      rw [if_pos large, setDuty_setDuty done, limited, bind_some, setDuty_dutys limited,
        if_neg (by omega), Nat.min_eq_left (Nat.le_of_lt large), Nat.max_eq_right range, limited]
    · rw [if_neg large, bind_some, kept, Nat.min_eq_right (Nat.not_lt.1 large)]
      by_cases small : motors.dutys i < config.armed
      · rw [if_pos small, setDuty_setDuty done, Nat.max_eq_left (Nat.le_of_lt small)]
      · rw [if_neg small, Nat.max_eq_right (Nat.not_lt.1 small), done]
  · rw [setDuty, dif_neg inside, setDuty, dif_neg inside, bind_none]

theorem writtenChan_succ {count : Nat} {j : Fin config.numOfMotorPwmDev}
    {k : Fin config.nchannels} (other : j.val * config.nchannels + k.val ≠ count) :
    writtenChan motors (count + 1) j k = writtenChan motors count j k := by
  unfold writtenChan
  split_ifs <;> first | rfl | omega

/-- Writing the duty of motor `count` makes the next stage of the loop. -/
theorem setDuty_written {count : Nat} (inside : count < config.numOfChannels)
    (device : count / config.nchannels < config.numOfMotorPwmDev) :
    (written motors count).setDuty (count / config.nchannels) (count % config.nchannels)
      (config.clamp (motors.dutys ⟨count, inside⟩)) = some (written motors (count + 1)) := by
  have channel := channel_lt config count
  have place : count / config.nchannels * config.nchannels + count % config.nchannels = count :=
    Nat.div_add_mod' count config.nchannels
  have here : { writtenChan motors count ⟨_, device⟩ ⟨_, channel⟩ with
      duty := config.clamp (motors.dutys ⟨count, inside⟩) } =
      writtenChan motors (count + 1) ⟨_, device⟩ ⟨_, channel⟩ := by
    simp [writtenChan, place, inside]
  have channels : update (writtenChan motors count ⟨_, device⟩) ⟨_, channel⟩
      (writtenChan motors (count + 1) ⟨_, device⟩ ⟨_, channel⟩) =
      writtenChan motors (count + 1) ⟨_, device⟩ := by
    funext k
    by_cases same : k = ⟨count % config.nchannels, channel⟩
    · rw [same, update_self]
    · rw [update_of_ne same, writtenChan_succ]
      intro equal
      exact same (Fin.ext ((drives_iff k.isLt).2 equal).2)
  have infos : update (written motors count).pwmsInfo ⟨_, device⟩
      ⟨(motors.pwmsInfo ⟨_, device⟩).frequency, writtenChan motors (count + 1) ⟨_, device⟩⟩ =
      (written motors (count + 1)).pwmsInfo := by
    funext j
    by_cases same : j = ⟨count / config.nchannels, device⟩
    · rw [same, update_self]
      rfl
    have unchanged : writtenChan motors (count + 1) j = writtenChan motors count j := by
      funext k
      apply writtenChan_succ
      intro equal
      exact same (Fin.ext ((drives_iff k.isLt).2 equal).1)
    rw [update_of_ne same]
    simp only [written, unchanged]
  have final : some ((written motors count).setInfo ⟨_, device⟩
      ⟨(motors.pwmsInfo ⟨_, device⟩).frequency, update
        (writtenChan motors count ⟨_, device⟩) ⟨_, channel⟩
        { writtenChan motors count ⟨_, device⟩ ⟨_, channel⟩ with
          duty := config.clamp (motors.dutys ⟨count, inside⟩) }⟩) =
      some (written motors (count + 1)) := by
    rw [here, channels]
    exact congrArg (fun infos => some { written motors count with pwmsInfo := infos }) infos
  rw [setDuty, dif_pos ⟨device, channel⟩]
  exact final

theorem written_info {j : Fin config.numOfMotorPwmDev} {count total : Nat}
    (complete : (j.val + 1) * config.nchannels ≤ count) (later : count ≤ total) :
    (written motors count).pwmsInfo j = (written motors total).pwmsInfo j := by
  have same : writtenChan motors count j = writtenChan motors total j := by
    funext k
    have inside : j.val * config.nchannels + k.val < (j.val + 1) * config.nchannels := by
      rw [Nat.succ_mul]
      exact Nat.add_lt_add_left k.isLt _
    unfold writtenChan
    split_ifs <;> first | rfl | omega
  simp only [written, same]

theorem Sent.push {world after : World} {count : Nat}
    (sent : Sent motors (fun j => j.val < count) world after)
    (device : count < config.numOfMotorPwmDev) :
    Sent motors (fun j => j.val < count + 1) world
      (drvPwmUpdateInfo after (motors.pwmDevsFd ⟨count, device⟩)
        (motors.pwmsInfo ⟨count, device⟩).pwmInfo).1 := by
  obtain ⟨calls, logged, distinct, listed⟩ := sent
  have fresh : (⟨count, device⟩ : Fin config.numOfMotorPwmDev) ∉ calls.map Prod.fst :=
    fun found => Nat.lt_irrefl _ ((listed _).1 found)
  refine ⟨(⟨count, device⟩, (after.ioctl (motors.pwmDevsFd ⟨count, device⟩)
    (.setCharacteristics (motors.pwmsInfo ⟨count, device⟩).pwmInfo)).2) :: calls, ?_, ?_, ?_⟩
  · rw [map_cons, cons_append, ← logged]
    rfl
  · exact nodup_cons.2 ⟨fresh, distinct⟩
  · intro j
    rw [map_cons, mem_cons, listed j, Fin.ext_iff]
    dsimp only
    omega

/-- A round of the loop sends the device when its last channel is written. -/
theorem updateLoop_step {count : Nat} (fuel : Nat) (more : count < config.numOfChannels)
    (device : count / config.nchannels < config.numOfMotorPwmDev) (world : World)
    {next : Motors config} (wrote : writeDuty motors ⟨count, more⟩ (count / config.nchannels)
      (count % config.nchannels) = some next) :
    ∃ after, updateLoop (fuel + 1) motors world count (count / config.nchannels)
          (count % config.nchannels) =
        updateLoop fuel next after (count + 1) ((count + 1) / config.nchannels)
          ((count + 1) % config.nchannels) ∧
      (count + 1 = (count / config.nchannels + 1) * config.nchannels ∧
        (count + 1) / config.nchannels = count / config.nchannels + 1 ∧
        after = (drvPwmUpdateInfo world (next.pwmDevsFd ⟨_, device⟩)
          (next.pwmsInfo ⟨_, device⟩).pwmInfo).1 ∨
        (count + 1) / config.nchannels = count / config.nchannels ∧ after = world) := by
  have small := config.motors_le
  have below : count / config.nchannels ≤ count := Nat.div_le_self _ _
  have counter : add 8 count 1 = count + 1 := add_of_lt (by omega)
  rw [updateLoop, dif_pos more, wrote]
  dsimp only
  by_cases last : count % config.nchannels ≥ config.nchannels - 1
  · obtain ⟨full, quotient, remainder⟩ := counters_last last
    have step : add 8 (count / config.nchannels) 1 = count / config.nchannels + 1 :=
      add_of_lt (by omega)
    rw [if_pos last, dif_pos device, counter, step, quotient, remainder]
    exact ⟨_, rfl, .inl ⟨full, rfl, rfl⟩⟩
  have place := Nat.div_add_mod' count config.nchannels
  have within : Drives config (count + 1) (count / config.nchannels)
      (count % config.nchannels + 1) := (drives_iff (by omega)).2 (by omega)
  have remainder : count % config.nchannels ≤ count := Nat.mod_le _ _
  have step : add 8 (count % config.nchannels) 1 = count % config.nchannels + 1 :=
    add_of_lt (by omega)
  rw [if_neg last, counter, step, ← within.1, ← within.2]
  exact ⟨_, rfl, .inr ⟨rfl, rfl⟩⟩

/-- The first devices are sent their characteristics in order. -/
def sendDevices (motors : Motors config) (world : World) : Nat → World
  | 0 => world
  | count + 1 =>
    if device : count < config.numOfMotorPwmDev then
      (drvPwmUpdateInfo (sendDevices motors world count) (motors.pwmDevsFd ⟨count, device⟩)
        (motors.pwmsInfo ⟨count, device⟩).pwmInfo).1
    else sendDevices motors world count

theorem sendDevices_sent (motors : Motors config) (world : World) {count : Nat}
    (fits : count ≤ config.numOfMotorPwmDev) :
    Sent motors (fun j => j.val < count) world (sendDevices motors world count) := by
  induction count with
  | zero => exact ⟨[], rfl, nodup_nil, by simp⟩
  | succ count ih =>
    rw [sendDevices, dif_pos (Nat.lt_of_succ_le fits)]
    exact (ih (Nat.le_of_succ_le fits)).push fits

/-- The loop writes every duty and sends every device that is full, when the devices suffice. -/
theorem updateLoop_spec (motors : Motors config) (world : World)
    (room : config.Room) {fuel count : Nat} (inside : count ≤ config.numOfChannels)
    (enough : config.numOfChannels - count < fuel) :
    updateLoop fuel (written motors count)
        (sendDevices (written motors config.numOfChannels) world (count / config.nchannels)) count
        (count / config.nchannels) (count % config.nchannels) =
      some (written motors config.numOfChannels, sendDevices (written motors config.numOfChannels)
        world (config.numOfChannels / config.nchannels)) := by
  induction fuel generalizing count with
  | zero => omega
  | succ fuel ih =>
    by_cases more : count < config.numOfChannels
    · have device := room count more
      have body : writeDuty (written motors count) ⟨count, more⟩ (count / config.nchannels)
          (count % config.nchannels) = some (written motors (count + 1)) := by
        rw [writeDuty_eq]
        exact setDuty_written more device
      obtain ⟨after, step, ⟨full, quotient, rfl⟩ | ⟨quotient, rfl⟩⟩ :=
        updateLoop_step fuel more device _ body
      · have complete : (written motors (count + 1)).pwmsInfo ⟨_, device⟩ =
            (written motors config.numOfChannels).pwmsInfo ⟨_, device⟩ :=
          written_info (Nat.le_of_eq full.symm) (by omega)
        have next := @ih (count + 1) more (by omega)
        rw [quotient, sendDevices, dif_pos device] at next
        rw [step, complete, quotient]
        exact next
      · have next := @ih (count + 1) more (by omega)
        rw [quotient] at next
        rw [step, quotient]
        exact next
    · have done : count = config.numOfChannels := by omega
      subst done
      rw [updateLoop, dif_neg more]

/-- The loop leaves the arrays when the devices do not suffice. -/
theorem updateLoop_none {motor : Nat} (inside : motor < config.numOfChannels)
    (outside : config.numOfMotorPwmDev ≤ motor / config.nchannels) {fuel count : Nat}
    (motors : Motors config) (world : World) (before : count ≤ motor) :
    updateLoop fuel motors world count (count / config.nchannels) (count % config.nchannels) =
      none := by
  induction fuel generalizing count motors world with
  | zero => rfl
  | succ fuel ih =>
    have more := Nat.lt_of_le_of_lt before inside
    cases wrote : writeDuty motors ⟨count, more⟩ (count / config.nchannels)
        (count % config.nchannels) with
    | none => rw [updateLoop, dif_pos more, wrote]
    | some next =>
      have device : count / config.nchannels < config.numOfMotorPwmDev := by
        by_contra beyond
        rw [writeDuty_eq, setDuty, dif_neg (fun both => beyond both.1)] at wrote
        cases wrote
      have later : count + 1 ≤ motor := by
        by_contra beyond
        have same : count = motor := by omega
        rw [same] at device
        omega
      obtain ⟨after, step, _⟩ := updateLoop_step fuel more device world wrote
      rw [step]
      exact ih next after later

theorem initChannels_eq (i : Nat) {order : List (Fin config.nchannels)}
    (sorted : order.Pairwise (· < ·)) (channels : Fin config.nchannels → PwmChan)
    (k : Fin config.nchannels) :
    initChannels config i order channels k =
      if k ∈ order ∧ i * config.nchannels + k < config.numOfChannels then
        ⟨config.armed, wrap 8 (k + 1)⟩ else channels k := by
  induction order generalizing channels with
  | nil => simp [initChannels]
  | cons j rest ih =>
    have tail := pairwise_cons.1 sorted
    unfold initChannels
    by_cases given : i * config.nchannels + j < config.numOfChannels
    · rw [if_pos given, ih tail.2]
      by_cases same : k = j
      · simp [same, given]
      · simp [same]
    rw [if_neg given, if_neg]
    rintro ⟨listed, below⟩
    rcases mem_cons.1 listed with rfl | later
    · exact given below
    · have order := tail.1 k later
      omega

/-- The first loop of the setup. -/
theorem initInfo_eq {order : List (Fin config.numOfMotorPwmDev)} (distinct : order.Nodup)
    (motors : Motors config) (j : Fin config.numOfMotorPwmDev) :
    (initInfo order motors).pwmsInfo j =
        (if j ∈ order then ⟨config.frequency,
          initChannels config j (finRange _) (motors.pwmsInfo j).channels⟩
        else motors.pwmsInfo j) ∧
      (initInfo order motors).pwmDevsFd j = if j ∈ order then -1 else motors.pwmDevsFd j := by
  induction order generalizing motors with
  | nil => exact ⟨rfl, rfl⟩
  | cons i rest ih =>
    have fresh := (nodup_cons.1 distinct).1
    obtain ⟨infos, fds⟩ := ih (nodup_cons.1 distinct).2 ((motors.setFd i (-1)).setInfo i
      ⟨config.frequency, initChannels config i (finRange _) (motors.pwmsInfo i).channels⟩)
    by_cases same : j = i
    · subst same
      rw [if_neg fresh] at infos fds
      rw [if_pos mem_cons_self, if_pos mem_cons_self]
      exact ⟨infos.trans (update_self _ _ _), fds.trans (update_self _ _ _)⟩
    · simp only [setInfo, setFd, update_of_ne same] at infos fds
      simp only [mem_cons, same, false_or]
      exact ⟨infos, fds⟩

theorem initMotors_channels (j : Fin config.numOfMotorPwmDev) (k : Fin config.nchannels) :
    ((initMotors (zero config)).pwmsInfo j).channels k =
      if ∃ i : Fin config.numOfChannels, j.val = i.val / config.nchannels ∧
          k.val = i.val % config.nchannels then ⟨config.armed, k.val + 1⟩ else ⟨0, 0⟩ := by
  have small := config.motors_le
  have infos := (@initInfo_eq config (finRange _) (nodup_finRange _)
    { zero config with freq := config.frequency } j).1
  rw [if_pos (mem_finRange j)] at infos
  change ((initInfo (finRange _) { zero config with
    freq := config.frequency }).pwmsInfo j).channels k = _
  rw [infos]
  dsimp only
  rw [initChannels_eq _ (pairwise_lt_finRange _)]
  by_cases given : j.val * config.nchannels + k.val < config.numOfChannels
  · have number : wrap 8 (k.val + 1) = k.val + 1 := wrap_of_lt (by omega)
    rw [if_pos ⟨mem_finRange k, given⟩, if_pos ⟨⟨_, given⟩, (drives_iff k.isLt).2 rfl⟩, number]
  · rw [if_neg (fun both => given both.2), if_neg]
    · rfl
    · rintro ⟨i, drives⟩
      exact given (((drives_iff k.isLt).1 drives).symm ▸ i.isLt)

theorem drvMotorUpdate_room (motors : Motors config) (world : World) (room : config.Room) :
    drvMotorUpdate motors world = some (written motors config.numOfChannels,
      sendDevices (written motors config.numOfChannels) world
        (config.numOfChannels / config.nchannels), 0) := by
  have done := updateLoop_spec motors world room (Nat.zero_le _) (Nat.lt_succ_self _)
  rw [written_zero, Nat.zero_div] at done
  exact congrArg (Option.map _) done

theorem Config.Room.fits (room : config.Room) :
    config.numOfChannels / config.nchannels ≤ config.numOfMotorPwmDev := by
  by_contra short
  have inside := Nat.lt_of_lt_of_le
    (Nat.mul_lt_mul_of_pos_right (Nat.not_le.1 short) config.channels_pos)
    (Nat.div_mul_le_self _ _)
  have device := room _ inside
  rw [Nat.mul_div_cancel _ config.channels_pos] at device
  exact Nat.lt_irrefl _ device

theorem carries_of_lt {j : Fin config.numOfMotorPwmDev}
    (below : j.val * config.nchannels < config.numOfChannels) : Carries j :=
  ⟨⟨_, below⟩, (Nat.mul_div_cancel _ config.channels_pos).symm⟩

theorem carries_iff (divides : config.nchannels ∣ config.numOfChannels)
    (j : Fin config.numOfMotorPwmDev) :
    Carries j ↔ j.val < config.numOfChannels / config.nchannels := by
  rw [Nat.lt_div_iff_mul_lt_of_dvd (Nat.ne_of_gt config.channels_pos) divides]
  refine ⟨?_, carries_of_lt⟩
  rintro ⟨i, same⟩
  rw [same]
  exact Nat.lt_of_le_of_lt (Nat.div_mul_le_self _ _) i.isLt

theorem Sent.complete {next : Motors config} {first second : Fin config.numOfMotorPwmDev → Prop}
    {world after : World} (sent : Sent motors first world after)
    (again : Sent next second world after) (all : ∀ j, first j → second j) :
    ∀ j, second j → first j := by
  obtain ⟨calls, logged, distinct, listed⟩ := sent
  obtain ⟨others, recorded, -, contained⟩ := again
  have length : calls.length = others.length := by
    have lengths := congrArg length (logged.symm.trans recorded)
    simpa using lengths
  intro j wanted
  by_contra missing
  have nodup : (j :: calls.map Prod.fst).Nodup :=
    nodup_cons.2 ⟨fun found => missing ((listed j).1 found), distinct⟩
  have subset : (j :: calls.map Prod.fst) ⊆ others.map Prod.fst := by
    intro device found
    rcases mem_cons.1 found with rfl | found
    · exact (contained device).2 wanted
    · exact (contained device).2 (all device ((listed device).1 found))
  have bound := (nodup.subperm subset).length_le
  rw [length_cons, length_map, length_map] at bound
  omega

theorem Config.room_iff (divides : config.nchannels ∣ config.numOfChannels) :
    config.Room ↔ config.numOfChannels / config.nchannels ≤ config.numOfMotorPwmDev := by
  refine ⟨Config.Room.fits, ?_⟩
  intro suffice i inside
  exact Nat.lt_of_lt_of_le (Nat.div_lt_div_of_lt_of_dvd divides inside) suffice

theorem drvMotorUpdate_none (motors : Motors config) (world : World) (short : ¬config.Room) :
    drvMotorUpdate motors world = none := by
  unfold Config.Room at short
  push Not at short
  obtain ⟨i, inside, outside⟩ := short
  have stuck := @updateLoop_none config i inside outside (config.numOfChannels + 1) 0 motors world
    (Nat.zero_le _)
  rw [Nat.zero_div, Nat.zero_mod] at stuck
  rw [drvMotorUpdate, stuck]
  rfl

/-- An update of the motors does what it should exactly when the channels of a device divide the
number of motors and the devices suffice. -/
theorem motor_update_maps (motors : Motors config) (world : World) :
    (∃ next after, drvMotorUpdate motors world = some (next, after, 0) ∧
        Maps motors world next after) ↔
      config.nchannels ∣ config.numOfChannels ∧
        config.numOfChannels / config.nchannels ≤ config.numOfMotorPwmDev := by
  have positive := config.channels_pos
  constructor
  · rintro ⟨next, after, done, maps⟩
    have room : config.Room := by
      by_contra short
      rw [drvMotorUpdate_none motors world short] at done
      cases done
    rw [drvMotorUpdate_room motors world room] at done
    cases done
    have sent := sendDevices_sent (written motors config.numOfChannels) world room.fits
    have full := sent.complete maps.sent (fun j below => carries_of_lt
      (Nat.lt_of_lt_of_le (Nat.mul_lt_mul_of_pos_right below positive) (Nat.div_mul_le_self _ _)))
    have divides : config.nchannels ∣ config.numOfChannels := by
      by_contra notWhole
      have start : config.numOfChannels / config.nchannels * config.nchannels <
          config.numOfChannels := by
        refine Nat.lt_of_le_of_ne (Nat.div_mul_le_self _ _) ?_
        intro equal
        exact notWhole ⟨_, equal.symm.trans (Nat.mul_comm _ _)⟩
      have device := room _ start
      rw [Nat.mul_div_cancel _ positive] at device
      exact Nat.lt_irrefl _ (full ⟨_, device⟩ (carries_of_lt start))
    exact ⟨divides, (Config.room_iff divides).1 room⟩
  · rintro ⟨divides, suffice⟩
    have room : config.Room := (Config.room_iff divides).2 suffice
    obtain ⟨calls, logged, distinct, listed⟩ :=
      sendDevices_sent (written motors config.numOfChannels) world room.fits
    refine ⟨_, _, drvMotorUpdate_room motors world room, fun i => ?_, fun j k free => ?_,
      ⟨fun j k => ?_, fun _ => rfl, rfl, rfl, rfl⟩, ?_, initMotors_channels⟩
    · have place := Nat.div_add_mod' i.val config.nchannels
      refine ⟨⟨_, room i i.isLt⟩, ⟨_, channel_lt config i⟩, ⟨rfl, rfl⟩, ?_⟩
      simp [written, writtenChan, place]
    · have outside : ¬j.val * config.nchannels + k.val < config.numOfChannels :=
        fun inside => free ⟨_, inside⟩ ((drives_iff k.isLt).2 rfl)
      simp [written, writtenChan, outside]
    · simp only [written, writtenChan]
      split_ifs <;> rfl
    · exact ⟨calls, logged, distinct, fun j => (listed j).trans (carries_iff divides j).symm⟩

/-- Motors on devices, with the throttle range of the default configuration. -/
def sampleConfig (numOfChannels nchannels : Nat) (nonempty : 1 ≤ numOfChannels)
    (few : numOfChannels ≤ 255) (used : 1 ≤ nchannels) : Config where
  numOfChannels := numOfChannels
  nchannels := nchannels
  armed := 23592
  minimum := 26214
  maximum := 52428
  frequency := 400
  devicePath := "/dev/pwm_out_motor_"
  motors_pos := nonempty
  motors_le := few
  channels_pos := used
  armed_le := by decide

/-- Five motors on devices with four channels: the second device carries the fifth motor, and only
the first device is sent its characteristics. With four motors on devices with two channels the
update leaves the array of one device. -/
theorem motor_update_misses :
    let config := sampleConfig 5 4 (by decide) (by decide) (by decide)
    let motors : Motors config := { Motors.zero config with pwmDevsFd := fun j => 3 + j.val }
    let narrow := sampleConfig 4 2 (by decide) (by decide) (by decide)
    (∃ j : Fin config.numOfMotorPwmDev, j.val = 1 ∧ Carries j) ∧
      ((drvMotorUpdate motors ⟨fun _ => 0, []⟩).map fun done =>
        done.2.1.log.map fun
          | .used fd _ _ => fd
          | _ => -1) = some [3] ∧
      (drvMotorUpdate (Motors.zero narrow) ⟨fun _ => 0, []⟩).isNone := by
  refine ⟨⟨⟨1, by decide⟩, rfl, ⟨4, by decide⟩, by decide⟩, by decide, by decide⟩

/-- The result of a command when so many commands come before it. -/
def World.answer (world : World) (fd : Int) (number : Nat) : Int :=
  if fd ∈ openFds world.log then world.answers (world.log.length + number) else -1

/-- A command after the first world fails. -/
def Failed (world after : World) : Prop :=
  ∃ number fd command ret,
    after.log.reverse[world.log.length + number]? = some (.used fd command ret) ∧ ret < 0

/-- The device accepts characteristics with this duty on all channels. -/
def Accepted (motors : Motors config) (world after : World) (duty : Nat)
    (j : Fin config.numOfMotorPwmDev) : Prop :=
  ∃ info ret, after.log.reverse[world.log.length + j.val]? =
      some (.used (motors.pwmDevsFd j) (.setCharacteristics info) ret) ∧
    0 ≤ ret ∧ ∀ chan ∈ info.channels, chan.duty = duty

section Results

variable {world after : World} {count : Nat} (fits : count ≤ config.numOfMotorPwmDev)
  (sent : sendDevices motors world count = after)

include fits sent

/-- The commands for the first devices and their results. -/
theorem sendDevices_log :
    after.answers = world.answers ∧ openFds after.log = openFds world.log ∧
      after.log.length = world.log.length + count ∧
      ∀ j : Fin config.numOfMotorPwmDev, j.val < count →
        after.log.reverse[world.log.length + j.val]? =
          some (sending motors (j, world.answer (motors.pwmDevsFd j) j.val)) := by
  subst sent
  induction count with
  | zero => exact ⟨rfl, rfl, rfl, fun j below => absurd below (Nat.not_lt_zero _)⟩
  | succ count ih =>
    obtain ⟨answers, held, length, entries⟩ := ih (Nat.le_of_succ_le fits)
    rw [sendDevices, dif_pos (Nat.lt_of_succ_le fits)]
    refine ⟨answers, held, congrArg (· + 1) length, fun j below => ?_⟩
    simp only [drvPwmUpdateInfo, drvPwmCommand, World.ioctl, reverse_cons]
    by_cases earlier : j.val < count
    · rw [getElem?_append_left (by rw [length_reverse]; omega)]
      exact entries j earlier
    · have last : j = ⟨count, fits⟩ := Fin.ext (by dsimp only; omega)
      rw [last, ← length, getElem?_append_right (by simp), length_reverse, Nat.sub_self, answers,
        held, length]
      rfl

theorem sendDevices_entry {number : Nat} {event : Event String Command}
    (found : after.log.reverse[world.log.length + number]? = some event) :
    ∃ j : Fin config.numOfMotorPwmDev, j.val = number ∧ j.val < count ∧
      event = sending motors (j, world.answer (motors.pwmDevsFd j) j.val) := by
  obtain ⟨_, _, length, entries⟩ := sendDevices_log fits sent
  have below := (List.getElem?_eq_some_iff.mp found).1
  rw [length_reverse] at below
  have early : number < count := by omega
  rw [entries ⟨number, by omega⟩ early] at found
  exact ⟨⟨number, by omega⟩, rfl, early, (some.inj found).symm⟩

end Results

/-- The two ends of the throttle range are not limited. -/
theorem Config.clamp_maximum (config : Config) : config.clamp config.maximum = config.maximum := by
  have ordered := config.armed_le
  unfold clamp
  omega

theorem Config.clamp_minimum_iff (config : Config) :
    config.clamp config.minimum = config.minimum ↔
      config.armed ≤ config.minimum ∧ config.minimum ≤ config.maximum := by
  have ordered := config.armed_le
  unfold clamp
  omega

/-- The motors behind one throttle position. -/
def throttled (motors : Motors config) (duty : Nat) : Motors config :=
  written { motors with dutys := fun _ => duty } config.numOfChannels

theorem escThrottle_room (motors : Motors config) (world : World) (room : config.Room)
    (duty : Nat) : escThrottle motors world duty = some (throttled motors duty,
      sendDevices (throttled motors duty) world (config.numOfChannels / config.nchannels), 0) :=
  drvMotorUpdate_room _ world room

/-- A device that is sent has the limited duty on all its channels. -/
theorem written_duty {duty : Nat} {j : Fin config.numOfMotorPwmDev}
    (full : j.val < config.numOfChannels / config.nchannels) {chan : PwmChan}
    (found : chan ∈ ((throttled motors duty).pwmsInfo j).pwmInfo.channels) :
    chan.duty = config.clamp duty := by
  obtain ⟨k, rfl⟩ := mem_ofFn.mp found
  have last := Nat.mul_le_mul_right config.nchannels (Nat.succ_le_of_lt full)
  have whole := Nat.div_mul_le_self config.numOfChannels config.nchannels
  have below := k.isLt
  rw [Nat.succ_mul] at last
  have inside : j.val * config.nchannels + k.val < config.numOfChannels := by omega
  simp [throttled, written, writtenChan, inside]

/-- A device accepts a throttle position exactly when it is sent, does not fail and the position is
not limited. -/
theorem accepted_iff {world after : World} {duty : Nat} (room : config.Room)
    (sent : sendDevices (throttled motors duty) world
      (config.numOfChannels / config.nchannels) = after) (j : Fin config.numOfMotorPwmDev) :
    Accepted motors world after duty j ↔ j.val < config.numOfChannels / config.nchannels ∧
      0 ≤ world.answer (motors.pwmDevsFd j) j.val ∧ config.clamp duty = duty := by
  constructor
  · rintro ⟨info, ret, found, accepts, duties⟩
    obtain ⟨other, same, early, equal⟩ := sendDevices_entry room.fits sent found
    cases Fin.ext same
    cases equal
    have first := @written_duty config motors duty j early _
      (mem_ofFn.mpr ⟨⟨0, config.channels_pos⟩, rfl⟩)
    exact ⟨early, accepts, first.symm.trans (duties _ (mem_ofFn.mpr ⟨_, rfl⟩))⟩
  · rintro ⟨early, accepts, exact⟩
    refine ⟨_, _, (sendDevices_log room.fits sent).2.2.2 j early, accepts, ?_⟩
    intro chan found
    exact (written_duty early found).trans exact

/-- `drv_motor_update` returns minus one exactly when a device fails, and `drv_motor_esc_init` zero
only when every device accepts the largest and the smallest throttle, exactly when there are devices
for the motors, all their channels are used, the smallest throttle is in the range that the update
keeps, and every device accepts both. -/
theorem motor_failures_reported (motors : Motors config) (world : World) :
    (∃ next after ret, drvMotorUpdate motors world = some (next, after, ret) ∧
        (ret = -1 ↔ Failed world after)) ∧
      (∃ high between code next after ret,
        escThrottle motors world config.maximum = some (high, between, code) ∧
        drvMotorEscInit motors world = some (next, after, ret) ∧
        (ret = 0 → ∀ j, Accepted motors world between config.maximum j ∧
          Accepted motors between after config.minimum j)) ↔
    config.Room ∧ config.numOfMotorPwmDev ≤ config.numOfChannels / config.nchannels ∧
      (config.armed ≤ config.minimum ∧ config.minimum ≤ config.maximum) ∧
      ∀ j, 0 ≤ world.answer (motors.pwmDevsFd j) j.val ∧
        0 ≤ world.answer (motors.pwmDevsFd j) (config.numOfChannels / config.nchannels + j.val) := by
  by_cases short : ¬config.Room
  · simp [drvMotorUpdate_none motors world short, short]
  have room := not_not.1 short
  have first := escThrottle_room motors world room config.maximum
  generalize sent : sendDevices (throttled motors config.maximum) world _ = between at first
  have second := escThrottle_room (throttled motors config.maximum) between room config.minimum
  have both : drvMotorEscInit motors world =
      escThrottle (throttled motors config.maximum) between config.minimum := by
    rw [drvMotorEscInit, first]
    dsimp only
    rw [second]
    rfl
  rw [second] at both
  have fds : (throttled motors config.maximum).pwmDevsFd = motors.pwmDevsFd := rfl
  have one := @accepted_iff config motors world between _ room sent
  have two := @accepted_iff config (throttled motors config.maximum) between _ config.minimum room
    rfl
  obtain ⟨answers, held, length, _⟩ := sendDevices_log room.fits sent
  simp only [World.answer, fds, answers, held, length, Nat.add_assoc,
    config.clamp_maximum, config.clamp_minimum_iff, and_true] at one two
  have device : 0 < config.numOfMotorPwmDev := Nat.lt_of_le_of_lt (Nat.zero_le _)
    (room 0 config.motors_pos)
  constructor
  · rintro ⟨-, _, _, _, _, _, _, begun, ended, accepted⟩
    rw [first] at begun
    cases begun
    rw [both] at ended
    cases ended
    have accepts := accepted rfl
    refine ⟨room, ?_, ((two ⟨0, device⟩).1 (accepts _).2).2.2,
      fun j => ⟨((one j).1 (accepts j).1).2, ((two j).1 (accepts j).2).2.1⟩⟩
    by_contra fewer
    have early := ((one _).1 (accepts ⟨_, Nat.not_le.1 fewer⟩).1).1
    exact Nat.lt_irrefl _ early
  · rintro ⟨_, full, range, devices⟩
    refine ⟨⟨_, _, _, drvMotorUpdate_room motors world room, ?_⟩, _, _, _, _, _, _, first, both,
      fun _ j => ⟨(one j).2 ⟨Nat.lt_of_lt_of_le j.isLt full, (devices j).1⟩,
        (two j).2 ⟨Nat.lt_of_lt_of_le j.isLt full, (devices j).2, range⟩⟩⟩
    refine ⟨fun never => absurd never (by decide), fun ⟨number, _, _, ret, found, failed⟩ => ?_⟩
    obtain ⟨j, _, _, equal⟩ := sendDevices_entry room.fits rfl found
    cases equal
    exact absurd failed (Int.not_lt.2 (devices j).1)

/-- A device refuses every setting, and the update and the calibration return zero. -/
theorem motor_failures_dropped :
    let motors := Motors.zero (sampleConfig 4 4 (by decide) (by decide) (by decide))
    let world : World := ⟨fun _ => -1, [.opened "/dev/pwm_out_motor_0" 0]⟩
    (∃ done ∈ drvMotorUpdate motors world, done.2.2 = 0 ∧ Failed world done.2.1) ∧
      ∃ done ∈ drvMotorEscInit motors world, done.2.2 = 0 ∧ Failed world done.2.1 :=
  ⟨⟨_, rfl, rfl, 0, _, _, _, rfl, by decide⟩, ⟨_, rfl, rfl, 0, _, _, _, rfl, by decide⟩⟩

end Chewie.Motor
