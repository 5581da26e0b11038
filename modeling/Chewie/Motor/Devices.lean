import Chewie.Motor.Mapping

/-!
# Descriptors of the motor devices

The setup opens one descriptor for each device, and its error exit closes them again but keeps their
numbers. A later call would use and close them a second time. As long as no call finds such a
number, and the setup is not repeated while descriptors are open, every descriptor is used only
while it is open and closed once, and a failed setup leaves no output.
-/

namespace Chewie.Motor

open Function List
open Chewie.Pwm.Upper (Command)
open Chewie.Handles

variable {config : Config} {log : List (Event String Command)}

theorem outputting_open {path : String} (active : outputting path log = true) :
    ∃ file ∈ openFiles log, file.2 = path := by
  induction log with
  | nil => cases active
  | cons event rest ih =>
    cases event with
    | opened name fd =>
      obtain ⟨file, present, same⟩ := ih active
      by_cases success : 0 ≤ fd
      · refine ⟨file, ?_, same⟩
        rw [openFiles, if_pos success]
        exact mem_cons_of_mem _ present
      · refine ⟨file, ?_, same⟩
        rw [openFiles, if_neg success]
        exact present
    | used fd command ret =>
      unfold outputting at active
      split_ifs at active with performed
      · exact ⟨_, performed.2, rfl⟩
      · exact ih active
    | closed fd =>
      unfold outputting at active
      split_ifs at active with remains
      exact remains

/-- The descriptors of some devices are open, and no others. -/
structure Holding (fds : Fin config.numOfMotorPwmDev → Int)
    (devices : Fin config.numOfMotorPwmDev → Prop) (log : List (Event String Command)) : Prop where
  clean : Clean log
  held : ∀ fd ∈ openFds log, ∃ i, devices i ∧ fds i = fd
  live : ∀ i, devices i → 0 ≤ fds i → fds i ∈ openFds log
  distinct : ∀ i j, devices i → devices j → 0 ≤ fds i → fds i = fds j → i = j

variable {fds : Fin config.numOfMotorPwmDev → Int}
  {devices : Fin config.numOfMotorPwmDev → Prop}

section

variable {i : Fin config.numOfMotorPwmDev} (holding : Holding fds devices log)

include holding

theorem Holding.used (known : devices i) (command : Command) (ret : Int) :
    Holding fds devices (.used (fds i) command ret :: log) :=
  ⟨⟨holding.live i known, holding.clean⟩, holding.held, holding.live, holding.distinct⟩

theorem Holding.closed (known : devices i) :
    Holding fds (fun j => devices j ∧ j ≠ i) (.closed (fds i) :: log) where
  clean := ⟨holding.live i known, holding.clean⟩
  held := by
    intro fd present
    obtain ⟨before, different⟩ := (mem_openFds_closed fd (fds i) log).1 present
    obtain ⟨j, other, same⟩ := holding.held fd before
    refine ⟨j, ⟨other, ?_⟩, same⟩
    rintro rfl
    exact different same.symm
  live := by
    intro j other valid
    refine (mem_openFds_closed _ _ log).2 ⟨holding.live j other.1 valid, ?_⟩
    intro same
    exact other.2 (holding.distinct j i other.1 known valid same)
  distinct := fun j k first second => holding.distinct j k first.1 second.1

theorem Holding.skip (invalid : ¬0 ≤ fds i) :
    Holding fds (fun j => devices j ∧ j ≠ i) log where
  clean := holding.clean
  held := by
    intro fd present
    obtain ⟨j, other, same⟩ := holding.held fd present
    refine ⟨j, ⟨other, ?_⟩, same⟩
    rintro rfl
    exact invalid (same ▸ openFds_nonneg present)
  live := fun j other => holding.live j other.1
  distinct := fun j k first second => holding.distinct j k first.1 second.1

theorem Holding.congr {others : Fin config.numOfMotorPwmDev → Prop}
    (same : ∀ i, devices i ↔ others i) : Holding fds others log := by
  have equal : devices = others := funext fun i => propext (same i)
  exact equal ▸ holding

theorem Holding.replace {other : Fin config.numOfMotorPwmDev → Int}
    (same : ∀ i, devices i → other i = fds i) : Holding other devices log where
  clean := holding.clean
  held := by
    intro fd present
    obtain ⟨i, known, equal⟩ := holding.held fd present
    exact ⟨i, known, (same i known).trans equal⟩
  live := by
    intro i known valid
    rw [same i known] at *
    exact holding.live i known valid
  distinct := by
    intro i j first second valid equal
    rw [same i first] at valid equal
    rw [same j second] at equal
    exact holding.distinct i j first second valid equal

theorem Holding.none_open (empty : ∀ i, ¬devices i) : openFds log = [] := by
  apply eq_nil_iff_forall_not_mem.2
  intro fd present
  obtain ⟨i, known, -⟩ := holding.held fd present
  exact empty i known

/-- Opening a device that had no descriptor. -/
theorem Holding.opened (unknown : ¬devices i) (path : String) {fd : Int}
    (fresh : 0 ≤ fd → fd ∉ openFds log) :
    Holding (update fds i fd) (fun j => devices j ∨ j = i)
      (.opened path fd :: log) where
  clean := ⟨fresh, holding.clean⟩
  held := by
    intro other present
    have valid := openFds_nonneg present
    rcases (mem_openFds_opened path fd log valid).1 present with rfl | before
    · exact ⟨i, Or.inr rfl, update_self _ _ _⟩
    · obtain ⟨j, known, same⟩ := holding.held other before
      have different : j ≠ i := fun equal => unknown (equal ▸ known)
      exact ⟨j, Or.inl known, (update_of_ne different _ _).trans same⟩
  live := by
    intro j known valid
    apply (mem_openFds_opened path fd log valid).2
    by_cases same : j = i
    · rw [same, update_self]
      exact Or.inl rfl
    · rw [update_of_ne same] at *
      exact Or.inr (holding.live j (known.resolve_right same) valid)
  distinct := by
    intro j k first second valid equal
    by_cases here : j = i
    · by_cases there : k = i
      · rw [here, there]
      · rw [here, update_self] at valid
        rw [here, update_self, update_of_ne there] at equal
        have present := holding.live k (second.resolve_right there) (equal ▸ valid)
        exact absurd (equal ▸ present) (fresh valid)
    rw [update_of_ne here] at valid equal
    by_cases there : k = i
    · rw [there, update_self] at equal
      have present := holding.live j (first.resolve_right here) valid
      exact absurd (equal ▸ present) (fresh (equal ▸ valid))
    · rw [update_of_ne there] at equal
      exact holding.distinct j k (first.resolve_right here) (second.resolve_right there) valid equal

end

theorem drvPwmInit_eq (world : World) (path : String) :
    ∃ fd : Int, drvPwmInit world path = ({ world with log := .opened path fd :: world.log }, fd) ∧
      (0 ≤ fd → fd ∉ openFds world.log) := by
  unfold drvPwmInit World.openPath
  dsimp only
  split_ifs with free failed failed
  · exact absurd failed (Int.not_lt.2 free.1)
  · exact ⟨_, rfl, fun _ => free.2⟩
  · exact ⟨-1, rfl, fun valid => absurd valid (by decide)⟩
  · exact absurd (by decide : (-1 : Int) < 0) failed

/-- All devices hold their descriptors. -/
abbrev HoldingAll (fds : Fin config.numOfMotorPwmDev → Int) (log : List (Event String Command)) :
    Prop := Holding fds (fun _ => True) log

/-- No device holds a descriptor. -/
abbrev HoldingNone (fds : Fin config.numOfMotorPwmDev → Int) (log : List (Event String Command)) :
    Prop := Holding fds (fun _ => False) log

theorem Holding.reopened (holding : HoldingAll fds log) {i : Fin config.numOfMotorPwmDev}
    (invalid : ¬0 ≤ fds i) (path : String) {fd : Int} (fresh : 0 ≤ fd → fd ∉ openFds log) :
    HoldingAll (update fds i fd) (.opened path fd :: log) := by
  have skipped := (holding.skip invalid).opened (fun both => both.2 rfl) path fresh
  refine skipped.congr ?_
  intro j
  by_cases same : j = i
  · simp [same]
  · simp [same]

/-- Opening devices gives each of them a descriptor of its own, wherever the loop stops. -/
theorem initDevices_holding {order : List (Fin config.numOfMotorPwmDev)} (once : order.Nodup)
    {motors : Motors config} {world : World} (invalid : ∀ i ∈ order, ¬0 ≤ motors.pwmDevsFd i)
    (holding : HoldingAll motors.pwmDevsFd world.log) :
    HoldingAll (initDevices order motors world).1.pwmDevsFd
      (initDevices order motors world).2.1.log := by
  induction order generalizing motors world with
  | nil => exact holding
  | cons i rest ih =>
    obtain ⟨fd, opened, fresh⟩ := drvPwmInit_eq world (devpath config i)
    have known : HoldingAll (motors.setFd i fd).pwmDevsFd
        (.opened (devpath config i) fd :: world.log) :=
      holding.reopened (invalid i mem_cons_self) _ fresh
    have value : (motors.setFd i fd).pwmDevsFd i = fd := update_self _ _ _
    have later : ∀ j ∈ rest, ¬0 ≤ (motors.setFd i fd).pwmDevsFd j := by
      intro j found
      have different : j ≠ i := fun same => (nodup_cons.1 once).1 (same ▸ found)
      have unchanged : (motors.setFd i fd).pwmDevsFd j = motors.pwmDevsFd j :=
        update_of_ne different _ _
      rw [unchanged]
      exact invalid j (mem_cons_of_mem _ found)
    have used {log : List (Event String Command)} (command : Command) (ret : Int)
        (held : HoldingAll (motors.setFd i fd).pwmDevsFd log) :
        HoldingAll (motors.setFd i fd).pwmDevsFd (.used fd command ret :: log) := by
      have performed := held.used (i := i) trivial command ret
      rw [value] at performed
      exact performed
    unfold initDevices
    rw [opened]
    dsimp only
    split_ifs
    · exact known
    · exact used _ _ known
    · exact used _ _ (used _ _ known)
    · exact ih (nodup_cons.1 once).2 later (used _ _ (used _ _ known))

theorem mem_rest_iff {i : Fin config.numOfMotorPwmDev} {rest : List (Fin config.numOfMotorPwmDev)}
    (once : (i :: rest).Nodup) (j : Fin config.numOfMotorPwmDev) :
    j ∈ i :: rest ∧ j ≠ i ↔ j ∈ rest := by
  constructor
  · rintro ⟨found, different⟩
    exact (mem_cons.1 found).resolve_left different
  · intro found
    refine ⟨mem_cons_of_mem _ found, ?_⟩
    rintro rfl
    exact (nodup_cons.1 once).1 found

section

variable {order : List (Fin config.numOfMotorPwmDev)} {motors : Motors config} {world : World}
  (once : order.Nodup) (holding : Holding motors.pwmDevsFd (fun i => i ∈ order) world.log)

include once holding

theorem closeDevices_holding :
    HoldingNone motors.pwmDevsFd (closeDevices motors order world).log := by
  induction order generalizing world with
  | nil => exact holding.congr fun i => by simp
  | cons i rest ih =>
    apply ih (nodup_cons.1 once).2
    split_ifs with valid
    · exact (holding.closed mem_cons_self).congr (mem_rest_iff once)
    · exact (holding.skip valid).congr (mem_rest_iff once)

theorem deinitDevices_holding :
    HoldingNone (deinitDevices order motors world).1.pwmDevsFd
      (deinitDevices order motors world).2.log := by
  induction order generalizing motors world with
  | nil => exact holding.congr fun i => by simp
  | cons i rest ih =>
    have stopped := fun ret => holding.used mem_cons_self .stop ret
    have closed := fun ret => ((stopped ret).closed mem_cons_self).congr (mem_rest_iff once)
    apply ih (nodup_cons.1 once).2
    refine (closed _).replace ?_
    intro j found
    have different : j ≠ i := fun same => (nodup_cons.1 once).1 (same ▸ found)
    exact update_of_ne different _ _

end

theorem Holding.sent {motors : Motors config} (holding : HoldingAll motors.pwmDevsFd log)
    (calls : List (Fin config.numOfMotorPwmDev × Int)) :
    HoldingAll motors.pwmDevsFd (calls.map (sending motors) ++ log) := by
  induction calls with
  | nil => exact holding
  | cons call rest ih => exact ih.used trivial _ _

section

variable {motors : Motors config} {world : World} (room : config.Room)
  (holding : HoldingAll motors.pwmDevsFd world.log)

include room holding

theorem drvMotorUpdate_holding :
    ∃ next after, drvMotorUpdate motors world = some (next, after, 0) ∧
      HoldingAll next.pwmDevsFd after.log := by
  obtain ⟨calls, logged, -, -⟩ :=
    sendDevices_sent (written motors config.numOfChannels) world room.fits
  refine ⟨_, _, drvMotorUpdate_room motors world room, ?_⟩
  have sent := @Holding.sent config world.log (written motors config.numOfChannels) holding calls
  rw [logged]
  exact sent

theorem drvMotorEscInit_holding :
    ∃ next after, drvMotorEscInit motors world = some (next, after, 0) ∧
      HoldingAll next.pwmDevsFd after.log := by
  obtain ⟨middle, between, high, kept⟩ := @drvMotorUpdate_holding config
    { motors with dutys := fun _ => config.maximum } world room holding
  obtain ⟨next, after, low, last⟩ := @drvMotorUpdate_holding config
    { middle with dutys := fun _ => config.minimum } between room kept
  refine ⟨next, after, ?_, last⟩
  unfold drvMotorEscInit escThrottle
  rw [high]
  dsimp only
  rw [low]
  rfl

end

theorem initMotors_fd (motors : Motors config) (i : Fin config.numOfMotorPwmDev) :
    (initMotors motors).pwmDevsFd i = -1 := by
  have fds := (@initInfo_eq config (List.finRange _) (nodup_finRange _)
    { motors with freq := config.frequency } i).2
  rw [if_pos (mem_finRange i)] at fds
  exact fds

/-- A setup while no descriptor is open opens all devices or none. -/
theorem drvMotorInit_holding (motors : Motors config) {world : World} (clean : Clean world.log)
    (closed : openFds world.log = []) :
    (¬(drvMotorInit motors world).2.2 < 0 → HoldingAll (drvMotorInit motors world).1.pwmDevsFd
        (drvMotorInit motors world).2.1.log) ∧
      ((drvMotorInit motors world).2.2 < 0 → HoldingNone
        (drvMotorInit motors world).1.pwmDevsFd (drvMotorInit motors world).2.1.log) := by
  have invalid (i : Fin config.numOfMotorPwmDev) : ¬0 ≤ (initMotors motors).pwmDevsFd i := by
    rw [initMotors_fd]
    decide
  have initial : HoldingAll (initMotors motors).pwmDevsFd world.log := by
    refine ⟨clean, ?_, fun i _ valid => absurd valid (invalid i),
      fun i _ _ _ valid _ => absurd valid (invalid i)⟩
    rw [closed]
    exact fun fd present => absurd present not_mem_nil
  have opened := initDevices_holding (nodup_finRange _) (fun i _ => invalid i) initial
  unfold drvMotorInit
  dsimp only
  split_ifs with success
  · exact ⟨fun _ => opened, fun failed => absurd failed (Int.lt_irrefl 0)⟩
  · refine ⟨fun passed => absurd (by decide : (-1 : Int) < 0) passed, fun _ => ?_⟩
    exact closeDevices_holding (nodup_finRange _) (opened.congr fun i => by simp [mem_finRange])

/-- The driver and the operating system. -/
structure MotorSys (config : Config) where
  motors : Motors config
  world : World

open MotorSys

/-- Calls of the driver, and the writes of an application to the requested duties. -/
inductive MotorOp (config : Config) where
  | init
  | escInit
  | update
  | deinit
  | request (dutys : Fin config.numOfChannels → Nat)

def MotorSys.step (sys : MotorSys config) : MotorOp config → Option (MotorSys config)
  | .init =>
    let done := drvMotorInit sys.motors sys.world
    some ⟨done.1, done.2.1⟩
  | .escInit => (drvMotorEscInit sys.motors sys.world).map fun done => ⟨done.1, done.2.1⟩
  | .update => (drvMotorUpdate sys.motors sys.world).map fun done => ⟨done.1, done.2.1⟩
  | .deinit =>
    let done := drvMotorDeinit sys.motors sys.world
    some ⟨done.1, done.2⟩
  | .request dutys => some ⟨{ sys.motors with dutys := dutys }, sys.world⟩

/-- The driver before its first call. -/
def MotorSys.start (config : Config) (answers : Nat → Int) : MotorSys config :=
  ⟨Motors.zero config, ⟨answers, []⟩⟩

/-- No descriptor of the driver has been closed, or was never opened. -/
def MotorSys.Fresh (sys : MotorSys config) : Prop :=
  ∀ i, 0 ≤ sys.motors.pwmDevsFd i → sys.motors.pwmDevsFd i ∈ openFds sys.world.log

/-- The setup is called while no descriptor is open, the other calls while the driver has no
descriptor that is not open, and an update stays in its arrays. -/
def MotorSys.Careful (sys : MotorSys config) : MotorOp config → Prop
  | .init => openFds sys.world.log = []
  | .escInit => config.Room ∧ sys.Fresh
  | .update => config.Room ∧ sys.Fresh
  | .deinit => sys.Fresh
  | .request _ => True

instance decidableFresh (sys : MotorSys config) : Decidable sys.Fresh :=
  inferInstanceAs (Decidable (∀ i, 0 ≤ sys.motors.pwmDevsFd i →
    sys.motors.pwmDevsFd i ∈ openFds sys.world.log))

instance decidableCareful (sys : MotorSys config) : ∀ op, Decidable (sys.Careful op)
  | .init | .escInit | .update | .deinit => by dsimp only [MotorSys.Careful]; infer_instance
  | .request .. => isTrue trivial

/-- Every open descriptor belongs to one device, and the log is clean. -/
structure MotorSys.Sound (sys : MotorSys config) : Prop where
  clean : Clean sys.world.log
  held : ∀ fd ∈ openFds sys.world.log, ∃ i, sys.motors.pwmDevsFd i = fd
  distinct : ∀ i j, sys.motors.pwmDevsFd i ∈ openFds sys.world.log →
    sys.motors.pwmDevsFd i = sys.motors.pwmDevsFd j → i = j

variable {sys : MotorSys config}

theorem MotorSys.Sound.holding (sound : sys.Sound) (fresh : sys.Fresh) :
    HoldingAll sys.motors.pwmDevsFd sys.world.log where
  clean := sound.clean
  held := fun fd present => (sound.held fd present).imp fun _ same => ⟨trivial, same⟩
  live := fun i _ => fresh i
  distinct := fun i j _ _ valid => sound.distinct i j (fresh i valid)

theorem MotorSys.Sound.of_all {motors : Motors config} {world : World}
    (holding : HoldingAll motors.pwmDevsFd world.log) : Sound ⟨motors, world⟩ where
  clean := holding.clean
  held := fun fd present => (holding.held fd present).imp fun _ both => both.2
  distinct := fun i j present => holding.distinct i j trivial trivial (openFds_nonneg present)

theorem MotorSys.Sound.of_none {motors : Motors config} {world : World}
    (holding : HoldingNone motors.pwmDevsFd world.log) : Sound ⟨motors, world⟩ := by
  have empty := holding.none_open fun _ => id
  refine ⟨holding.clean, ?_, ?_⟩
  · intro fd present
    exact absurd (empty ▸ present) not_mem_nil
  · intro i j present
    exact absurd (empty ▸ present) not_mem_nil

theorem drvMotorDeinit_holding (sound : sys.Sound) (fresh : sys.Fresh) :
    HoldingNone (drvMotorDeinit sys.motors sys.world).1.pwmDevsFd
      (drvMotorDeinit sys.motors sys.world).2.log :=
  deinitDevices_holding (nodup_finRange _)
    ((sound.holding fresh).congr fun i => by simp [mem_finRange])

theorem MotorSys.Sound.step (sound : sys.Sound) {op : MotorOp config} (careful : sys.Careful op) :
    ∃ next, sys.step op = some next ∧ next.Sound := by
  cases op with
  | init =>
    have done := drvMotorInit_holding sys.motors sound.clean careful
    refine ⟨_, rfl, ?_⟩
    by_cases failed : (drvMotorInit sys.motors sys.world).2.2 < 0
    · exact Sound.of_none (done.2 failed)
    · exact Sound.of_all (done.1 failed)
  | escInit =>
    obtain ⟨motors, world, done, kept⟩ := drvMotorEscInit_holding careful.1
      (sound.holding careful.2)
    refine ⟨⟨motors, world⟩, ?_, MotorSys.Sound.of_all kept⟩
    rw [MotorSys.step, done]
    rfl
  | update =>
    obtain ⟨motors, world, done, kept⟩ := drvMotorUpdate_holding careful.1 (sound.holding careful.2)
    refine ⟨⟨motors, world⟩, ?_, MotorSys.Sound.of_all kept⟩
    rw [MotorSys.step, done]
    rfl
  | deinit => exact ⟨_, rfl, MotorSys.Sound.of_none (drvMotorDeinit_holding sound careful)⟩
  | request dutys => exact ⟨_, rfl, sound.clean, sound.held, sound.distinct⟩

/-- In every careful sequence of calls, whatever the operating system answers, no descriptor is used
or closed unless it is open, every open is matched by one close or the descriptor is still open and
the driver has it, stopping the driver closes all of them, and so does a failed setup, which leaves
no output. -/
theorem motor_handles (answers : Nat → Int) (ops : List (MotorOp config))
    (careful : Run.Admitted MotorSys.step MotorSys.Careful (MotorSys.start config answers) ops) :
    ∃ sys, Run.run MotorSys.step (MotorSys.start config answers) ops = some sys ∧
      Clean sys.world.log ∧
      (∀ fd, 0 ≤ fd → opens fd sys.world.log = closes fd sys.world.log +
        if fd ∈ openFds sys.world.log then 1 else 0) ∧
      (∀ fd ∈ openFds sys.world.log, ∃ i, sys.motors.pwmDevsFd i = fd) ∧
      (sys.Careful .deinit → openFds (drvMotorDeinit sys.motors sys.world).2.log = []) ∧
      (sys.Careful .init → (drvMotorInit sys.motors sys.world).2.2 < 0 →
        openFds (drvMotorInit sys.motors sys.world).2.1.log = [] ∧
        ∀ path, outputting path (drvMotorInit sys.motors sys.world).2.1.log = false) := by
  have initial : (MotorSys.start config answers).Sound :=
    ⟨trivial, fun fd present => absurd present not_mem_nil,
      fun i j present => absurd present not_mem_nil⟩
  have keeps : ∀ (sys : MotorSys config) op, sys.Sound → sys.Careful op →
      ∃ next, sys.step op = some next ∧ next.Sound := fun sys op sound allowed => sound.step allowed
  obtain ⟨sys, reached, sound⟩ := Run.run_invariant keeps initial careful
  refine ⟨sys, reached, sound.clean, fun fd => opens_eq_closes sound.clean, sound.held, ?_, ?_⟩
  · intro fresh
    exact (drvMotorDeinit_holding sound fresh).none_open fun _ => id
  · intro closed failed
    have empty := ((drvMotorInit_holding sys.motors sound.clean closed).2 failed).none_open
      fun _ => id
    refine ⟨empty, ?_⟩
    intro path
    by_contra active
    obtain ⟨file, present, -⟩ := outputting_open (Bool.eq_true_of_not_eq_false active)
    have found : file.1 ∈ openFds (drvMotorInit sys.motors sys.world).2.1.log :=
      mem_map.2 ⟨file, present, rfl⟩
    rw [empty] at found
    exact not_mem_nil found

/-- Two devices that are set up, calibrated, updated and closed. -/
theorem motor_handles_sample :
    ∃ sys : MotorSys (sampleConfig 8 4 (by decide) (by decide) (by decide)), Run.run MotorSys.step
        (MotorSys.start _ fun call => call + 3)
        [.init, .escInit, .update, .deinit] = some sys ∧ Clean sys.world.log := by
  have result := @motor_handles (sampleConfig 8 4 (by decide) (by decide) (by decide))
    (fun call => call + 3) [.init, .escInit, .update, .deinit] (by decide)
  obtain ⟨sys, reached, clean, -⟩ := result
  exact ⟨sys, reached, clean⟩

/-- When the second device cannot be opened, the setup closes the first one and keeps its number.
Stopping the driver then uses and closes the descriptor again. -/
theorem motor_double_close :
    let config := sampleConfig 8 4 (by decide) (by decide) (by decide)
    let answers : Nat → Int := fun call => if call = 3 then -1 else 3
    let failed := drvMotorInit (Motors.zero config) ⟨answers, []⟩
    let stopped := drvMotorDeinit failed.1 failed.2.1
    failed.2.2 = -1 ∧ openFds failed.2.1.log = [] ∧ Clean failed.2.1.log ∧
      closes 3 stopped.2.log = 2 ∧ ¬Clean stopped.2.log := by
  decide

end Chewie.Motor
