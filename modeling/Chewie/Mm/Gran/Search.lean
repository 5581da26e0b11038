import Chewie.Mm.Gran.Model

/-!
# What the search of the granule allocator finds

`firstFit` is what the search is for: the first place with enough free granules in a row. The
search does find that place (`granSearch_spec`), but the address it returns is `aim`, which counts
`leave` granules for every table entry that the search went through. An entry is left at its end,
so that the two agree, unless the granules in use at its end and at the start of the next entry make
the loop stop early or jump beyond the end.
-/

namespace Chewie.Mm.Gran

open Chewie BitVec Bitmap GranS Word

/-- The table marks this granule as in use. -/
def GranS.inUse (priv : GranS) (index : Nat) : Bool := Bitmap.bit priv.gat index

/-- The heap has `n` free granules at this place. -/
def GranS.fits (priv : GranS) (n index : Nat) : Bool :=
  decide (index + n ≤ priv.ngranules) && decide (∀ j < n, priv.inUse (index + j) = false)

/-- The first place with `n` free granules. -/
def GranS.firstFit (priv : GranS) (n : Nat) : Option Nat :=
  (List.range priv.ngranules).find? (priv.fits n)

/-- The length of the next shift over a run of granules in use. -/
def hop (run : Nat) : Nat :=
  if 16 ≤ run then 16 else if 8 ≤ run then 8 else if 4 ≤ run then 4 else if 2 ≤ run then 2 else 1

/-- How far shifts over `run` granules in use go before they have covered `tail` of them. The shifts
have lengths 16, 8, 4, 2 and 1, the longest first. -/
def hops (run tail : Nat) : Nat :=
  if tail = 0 then 0
  else if tail ≤ run / 16 * 16 then run / 16 * 16
  else if tail ≤ run / 8 * 8 then run / 8 * 8
  else if tail ≤ run / 4 * 4 then run / 4 * 4
  else if tail ≤ run / 2 * 2 then run / 2 * 2
  else run

/-- The number of granules in use at the end of a table entry. -/
def GranS.tail (priv : GranS) (word : Nat) : Nat :=
  setRun (fun j => priv.inUse (32 * word + 31 - j)) 0 32

/-- The number of granules in use from a place on, up to the width of the window. -/
def GranS.run (priv : GranS) (index : Nat) : Nat := setRun priv.inUse index 32

/-- The number of granules by which the address moves while the search goes through a table
entry. -/
def GranS.leave (priv : GranS) (word : Nat) : Nat :=
  let tail := priv.tail word
  let run := priv.run (32 * word + 32 - tail)
  if tail = 32 then 32
  else if run = 32 then 32 - tail
  else 32 - tail + hops run tail

/-- The number of granules by which the address moves before the search reaches a table entry. -/
def GranS.advance (priv : GranS) : Nat → Nat
  | 0 => 0
  | word + 1 => priv.advance word + priv.leave word

/-- The granule that the address names when the search finds a place. -/
def GranS.aim (priv : GranS) (index : Nat) : Nat := priv.advance (index / 32) + index % 32

/-- The address moves by thirty-two granules for every table entry before the first place with `n`
free granules: no entry is left early, and no shift goes beyond the end of one. -/
def GranS.InStep (priv : GranS) (n : Nat) : Prop :=
  ∀ index ∈ priv.firstFit n, ∀ word < index / 32, priv.leave word = 32

instance decidableInStep (priv : GranS) (n : Nat) : Decidable (priv.InStep n) :=
  inferInstanceAs (Decidable (∀ index ∈ priv.firstFit n, ∀ word < index / 32, _))

/-- The address of a granule. -/
def GranS.address (priv : GranS) (index : Nat) : Nat :=
  Word.wrap 32 (priv.heapstart + index <<< priv.log2gran)

variable {priv : GranS} {n : Nat}

theorem GranS.fits_iff {index : Nat} :
    priv.fits n index = true ↔
      index + n ≤ priv.ngranules ∧ ∀ j < n, priv.inUse (index + j) = false := by
  unfold fits
  rw [Bool.and_eq_true, decide_eq_true_iff, decide_eq_true_iff]

theorem GranS.firstFit_some {index : Nat} (found : priv.firstFit n = some index) :
    priv.fits n index = true ∧ ∀ j < index, priv.fits n j = false := by
  have parts := List.find?_range_eq_some.mp found
  exact ⟨parts.1, fun j before => by simpa using parts.2.2 j before⟩

theorem GranS.firstFit_none (positive : 0 < n) (none : priv.firstFit n = none) (index : Nat) :
    priv.fits n index = false := by
  apply Bool.eq_false_iff.mpr
  intro fit
  have inside := (fits_iff.mp fit).1
  have refused := List.find?_range_eq_none.mp none index (by omega)
  rw [fit] at refused
  exact absurd refused (by decide)

/-- Entries that are left in step move the address by their own granules. -/
theorem GranS.advance_eq {count : Nat} (inStep : ∀ word < count, priv.leave word = 32) :
    priv.advance count = 32 * count := by
  induction count with
  | zero => rfl
  | succ count ih =>
    have before := ih fun word earlier => inStep word (by omega)
    rw [advance, before, inStep count (by omega)]
    rfl

/-- A search in step returns the place that it found. -/
theorem GranS.InStep.aim_eq (inStep : priv.InStep n) {index : Nat}
    (found : priv.firstFit n = some index) : priv.aim index = index := by
  rw [aim, advance_eq (inStep index found), Nat.div_add_mod]

theorem GranS.address_add (index shift : Nat) :
    add 32 (priv.address index) (shift <<< priv.log2gran) = priv.address (index + shift) := by
  unfold address add wrap
  rw [Nat.mod_add_mod, Nat.shiftLeft_eq, Nat.shiftLeft_eq, Nat.shiftLeft_eq, Nat.add_mul,
    Nat.add_assoc]

section Hops

variable {run tail : Nat}

theorem hop_le (run : Nat) : hop run ≤ run ∨ hop run = 1 := by
  unfold hop
  grind

theorem hop_bounds (run : Nat) : 0 < hop run ∧ hop run ≤ 16 := by
  unfold hop
  grind

theorem hops_last (short : run < 32) (positive : 0 < tail) (inside : tail ≤ run)
    (covered : tail ≤ hop run) : hops run tail = hop run := by
  unfold hop at covered ⊢
  unfold hops
  grind

theorem hops_more (short : run < 32) (positive : 0 < tail) (inside : tail ≤ run)
    (opened : hop run < tail) : hops run tail = hop run + hops (run - hop run) (tail - hop run) := by
  have all : ∀ run < 32, ∀ tail < 32, 0 < tail → tail ≤ run → hop run < tail →
      hops run tail = hop run + hops (run - hop run) (tail - hop run) := by decide +kernel
  exact all run short tail (by omega) positive inside opened

end Hops

/-- The two words of the window show the table from a place on: the low word all thirty-two
granules from there, the high word those of the next entry that are not in the low word. -/
structure Window (row : Nat → Bool) (granidx bitidx : Nat) (curr next : BitVec 32) : Prop where
  curr : ∀ j < 32, bitidx + j < 64 → curr.getLsbD j = row (granidx + bitidx + j)
  next : ∀ j, bitidx + j < 32 → next.getLsbD j = row (granidx + 32 + bitidx + j)

open Window

section Windows

variable {row : Nat → Bool} {granidx bitidx : Nat} {curr next : BitVec 32}

theorem Window.start (priv : GranS) (word : Nat) :
    Window priv.inUse (32 * word) 0 (priv.gat word) (priv.gat (word + 1)) := by
  constructor
  · intro j inside _
    unfold inUse Bitmap.bit
    rw [show (32 * word + 0 + j) / 32 = word by omega, show (32 * word + 0 + j) % 32 = j by omega]
  · intro j inside
    unfold inUse Bitmap.bit
    rw [show (32 * word + 32 + 0 + j) / 32 = word + 1 by omega,
      show (32 * word + 32 + 0 + j) % 32 = j by omega]

theorem Window.shift (window : Window row granidx bitidx curr next) {shift : Nat}
    (positive : 0 < shift) (small : shift ≤ 32) (inside : bitidx < 32) :
    Window row granidx (bitidx + shift) ((curr >>> shift) ||| (next <<< (32 - shift)))
      (next >>> shift) := by
  constructor
  · intro j low bounded
    rw [getLsbD_or, getLsbD_ushiftRight, getLsbD_shiftLeft]
    by_cases first : shift + j < 32
    · rw [window.curr (shift + j) first (by omega), decide_eq_true (by omega : j < 32 - shift)]
      simp only [Bool.not_true, Bool.and_false, Bool.false_and, Bool.or_false]
      congr 1
      omega
    rw [getLsbD_of_ge curr (shift + j) (by omega), decide_eq_false (by omega : ¬j < 32 - shift),
      decide_eq_true low, window.next (j - (32 - shift)) (by omega)]
    simp only [Bool.false_or, Bool.not_false, Bool.true_and]
    congr 1
    omega
  · intro j bounded
    rw [getLsbD_ushiftRight, window.next (shift + j) (by omega)]
    congr 1
    omega

section

variable (window : Window row granidx bitidx curr next) (inside : bitidx < 32)

include window inside

theorem Window.masked {count : Nat} (small : count ≤ 32) :
    curr &&& ones 32 count = ones 32 count ↔ count ≤ setRun row (granidx + bitidx) 32 := by
  rw [and_ones_eq small, le_setRun_iff small]
  apply forall_congr'
  intro j
  apply imp_congr_right
  intro below
  rw [window.curr j (by omega) (by omega)]

theorem Window.full_iff : curr = full ↔ setRun row (granidx + bitidx) 32 = 32 := by
  have most := @setRun_le row (granidx + bitidx) 32
  have all := window.masked inside (Nat.le_refl 32)
  rw [show ones 32 32 = BitVec.allOnes 32 from by decide, and_allOnes] at all
  rw [show full = BitVec.allOnes 32 from by decide, all]
  omega

/-- The shift, told from the granules at the window's position. -/
theorem Window.granShift_eq {n : Nat} (positive : 0 < n) (small : n ≤ 32) :
    granShift curr (ones 32 n) =
      if ∀ j < n, row (granidx + bitidx + j) = false then none
      else some (hop (setRun row (granidx + bitidx) 32)) := by
  have clear : curr &&& ones 32 n = 0 ↔ ∀ j < n, row (granidx + bitidx + j) = false := by
    rw [and_ones_zero small]
    apply forall_congr'
    intro j
    apply imp_congr_right
    intro below
    rw [window.curr j (by omega) (by omega)]
  have empty : (∀ j < n, row (granidx + bitidx + j) = false) →
      ¬2 ≤ setRun row (granidx + bitidx) 32 := by
    intro free long
    have set := (le_setRun_iff (by decide)).mp long 0 (by decide)
    rw [free 0 positive] at set
    exact absurd set (by decide)
  unfold granShift hop
  rw [show (0x0000ffff : BitVec 32) = ones 32 16 from by decide,
    show (0x000000ff : BitVec 32) = ones 32 8 from by decide,
    show (0x0000000f : BitVec 32) = ones 32 4 from by decide,
    show (0x00000003 : BitVec 32) = ones 32 2 from by decide]
  simp only [window.masked inside (show 16 ≤ 32 by decide),
    window.masked inside (show 8 ≤ 32 by decide), window.masked inside (show 4 ≤ 32 by decide),
    window.masked inside (show 2 ≤ 32 by decide), clear]
  by_cases free : ∀ j < n, row (granidx + bitidx + j) = false
  · have short := empty free
    rw [if_pos free, if_neg (by omega), if_neg (by omega), if_neg (by omega), if_neg short,
      if_pos free]
  · grind

end

end Windows

section Scanning

variable {granidx bitidx address place : Nat} {curr next : BitVec 32}

theorem GranS.not_fits {index : Nat} (room : index + n ≤ priv.ngranules)
    (none : priv.fits n index = false) : ¬∀ j < n, priv.inUse (index + j) = false := by
  intro free
  rw [fits_iff.mpr ⟨room, free⟩] at none
  exact absurd none (by decide)

theorem GranS.run_set {index ahead : Nat} (inside : ahead < priv.run index) :
    priv.inUse (index + ahead) = true :=
  (le_setRun_iff setRun_le).mp (Nat.le_refl _) ahead inside

theorem GranS.run_le {index ahead : Nat}
    (free : priv.inUse (index + ahead) = false) : priv.run index ≤ ahead := by
  by_contra longer
  have set := @run_set priv index ahead (by omega)
  rw [free] at set
  exact absurd set (by decide)

section

variable (window : Window priv.inUse granidx bitidx curr next)

include window

theorem Window.open_of_free (inside : bitidx < 32) {ahead : Nat} (near : ahead < 32)
    (free : priv.inUse (granidx + bitidx + ahead) = false) : curr ≠ full := by
  intro closed
  have long := (window.full_iff inside).mp closed
  have short := run_le free
  unfold run at short
  omega

section

variable (positive : 0 < n) (small : n ≤ 32)

include positive small

theorem granScan_fits (inside : bitidx < 32) (fit : priv.fits n (granidx + bitidx) = true) :
    granScan priv granidx n (ones 32 n) address curr next bitidx = .found address := by
  have parts := fits_iff.mp fit
  have opened := window.open_of_free inside (by decide) (parts.2 0 positive)
  have moved : granShift curr (ones 32 n) = none := by
    rw [window.granShift_eq inside positive small, if_pos parts.2]
  rw [granScan, if_pos ⟨inside, parts.1⟩, if_neg opened]
  split
  · rfl
  · rename_i found
    rw [moved] at found
    cases found

theorem granScan_step (inside : bitidx < 32) (room : granidx + bitidx + n ≤ priv.ngranules)
    (short : priv.run (granidx + bitidx) < 32)
    (none : priv.fits n (granidx + bitidx) = false) :
    let shift := hop (priv.run (granidx + bitidx))
    granScan priv granidx n (ones 32 n) (priv.address place) curr next bitidx =
      granScan priv granidx n (ones 32 n) (priv.address (place + shift))
        ((curr >>> shift) ||| (next <<< (32 - shift))) (next >>> shift) (bitidx + shift) := by
  intro shift
  have opened : curr ≠ full := by
    intro closed
    have long := (window.full_iff inside).mp closed
    unfold run at short
    omega
  have moved : granShift curr (ones 32 n) = some (hop (priv.run (granidx + bitidx))) := by
    rw [window.granShift_eq inside positive small, if_neg (not_fits room none)]
    rfl
  conv_lhs => rw [granScan]
  rw [if_pos ⟨inside, room⟩, if_neg opened]
  split
  · rename_i found
    rw [moved] at found
    cases found
  · rename_i other found
    rw [moved] at found
    cases found
    rw [address_add]

end

theorem granScan_stop (stop : 32 ≤ bitidx ∨ priv.run (granidx + bitidx) = 32) :
    granScan priv granidx n (ones 32 n) address curr next bitidx = .passed address := by
  rw [granScan]
  by_cases inside : bitidx < 32 ∧ granidx + bitidx + n ≤ priv.ngranules
  · have closed : priv.run (granidx + bitidx) = 32 := by omega
    rw [if_pos inside, if_pos ((window.full_iff inside.1).mpr closed)]
  · rw [if_neg inside]

theorem Window.hop (inside : bitidx < 32) :
    let shift := hop (priv.run (granidx + bitidx))
    Window priv.inUse granidx (bitidx + shift)
      ((curr >>> shift) ||| (next <<< (32 - shift))) (next >>> shift) := by
  have bounds := hop_bounds (priv.run (granidx + bitidx))
  exact window.shift bounds.1 (by omega) inside

end

theorem GranS.run_drop {index shift : Nat} (ends : priv.run index < 32)
    (inside : shift ≤ priv.run index) : priv.run (index + shift) = priv.run index - shift := by
  have stop : priv.inUse (index + priv.run index) = false := setRun_stop ends
  apply Nat.le_antisymm
  · apply run_le
    rwa [Nat.add_assoc, Nat.add_sub_cancel' inside]
  · apply (le_setRun_iff (by omega)).mpr
    intro j before
    have set := @run_set priv index (shift + j) (by omega)
    rwa [← Nat.add_assoc] at set

theorem GranS.full_iff (word : Nat) : priv.gat word = full ↔ priv.tail word = 32 := by
  rw [(start priv word).full_iff (by decide), tail, setRun_full, setRun_full]
  constructor
  all_goals
    intro closed j before
    rw [← closed (31 - j) (by omega)]
    congr 1
    omega

theorem gatidx_eq (word : Nat) : (32 * word) >>> 5 = word := by
  omega

section

variable (positive : 0 < n) (small : n ≤ 32)

include positive small

/-- The loop does not jump over a free granule: it comes to it, with the address in step. -/
theorem granScan_reach {free : Nat} (near : free < 32) (clear : priv.inUse (granidx + free) = false)
    (room : granidx + free + n ≤ priv.ngranules) (before : bitidx ≤ free)
    (window : Window priv.inUse granidx bitidx curr next)
    (none : ∀ j, bitidx ≤ j → j < free → priv.fits n (granidx + j) = false) :
    ∃ curr' next', Window priv.inUse granidx free curr' next' ∧
      granScan priv granidx n (ones 32 n) (priv.address place) curr next bitidx =
        granScan priv granidx n (ones 32 n) (priv.address (place + (free - bitidx)))
          curr' next' free := by
  induction distance : free - bitidx using Nat.strong_induction_on
    generalizing bitidx curr next place with
  | _ distance ih =>
    by_cases arrived : bitidx = free
    · subst arrived
      exact ⟨curr, next, window, by rw [← distance, Nat.sub_self, Nat.add_zero]⟩
    have short : priv.run (granidx + bitidx) ≤ free - bitidx := by
      apply run_le
      rwa [Nat.add_assoc, Nat.add_sub_cancel' before]
    have bounds := hop_bounds (priv.run (granidx + bitidx))
    have step := @granScan_step priv n granidx bitidx place curr next window positive small
      (by omega) (by omega) (by omega) (none bitidx (Nat.le_refl _) (by omega))
    have within : bitidx + hop (priv.run (granidx + bitidx)) ≤ free := by
      cases hop_le (priv.run (granidx + bitidx)) with
      | inl across => omega
      | inr single => omega
    obtain ⟨curr', next', there, same⟩ := ih _ (by omega) within (window.hop (by omega))
      (fun j later => none j (by omega)) rfl
    refine ⟨curr', next', there, ?_⟩
    rw [step, same]
    congr 2
    omega

/-- The loop over the granules in use at the end of a table entry. -/
theorem granScan_tail {tail : Nat} (rest : bitidx + tail = 32)
    (room : granidx + 32 + n ≤ priv.ngranules)
    (inside : tail ≤ priv.run (granidx + bitidx)) (ends : priv.run (granidx + bitidx) < 32)
    (window : Window priv.inUse granidx bitidx curr next) :
    granScan priv granidx n (ones 32 n) (priv.address place) curr next bitidx =
      .passed (priv.address (place + hops (priv.run (granidx + bitidx)) tail)) := by
  induction tail using Nat.strong_induction_on generalizing bitidx curr next place with
  | _ tail ih =>
    by_cases done : tail = 0
    · subst done
      rw [granScan, if_neg (by omega)]
      rfl
    have set : priv.inUse (granidx + bitidx) = true := @run_set priv (granidx + bitidx) 0 (by omega)
    have none : priv.fits n (granidx + bitidx) = false := by
      apply Bool.eq_false_iff.mpr
      intro fit
      have clear := (fits_iff.mp fit).2 0 positive
      rw [Nat.add_zero, set] at clear
      exact absurd clear (by decide)
    rw [granScan_step window positive small (by omega) (by omega) ends none]
    have bounds := hop_bounds (priv.run (granidx + bitidx))
    by_cases covered : tail ≤ hop (priv.run (granidx + bitidx))
    · rw [granScan, if_neg (by omega), hops_last ends (by omega) inside covered]
    have across := hop_le (priv.run (granidx + bitidx))
    have shorter := @run_drop priv (granidx + bitidx)
      (hop (priv.run (granidx + bitidx))) ends (by omega)
    rw [Nat.add_assoc] at shorter
    rw [ih (tail - hop (priv.run (granidx + bitidx))) (by omega) (by omega) (by omega)
      (by omega) (window.hop (by omega)), shorter,
      hops_more ends (by omega) inside (by omega), Nat.add_assoc]

/-- The loop over a table entry without a fit moves the address by `leave` granules. -/
theorem granScan_passed {word : Nat}
    (opened : priv.tail word ≠ 32) (room : 32 * word + 32 + n ≤ priv.ngranules)
    (none : ∀ j < 32, priv.fits n (32 * word + j) = false)
    (window : Window priv.inUse (32 * word) 0 curr next) :
    granScan priv (32 * word) n (ones 32 n) (priv.address place) curr next 0 =
      .passed (priv.address (place + priv.leave word)) := by
  have most : priv.tail word ≤ 32 := setRun_le
  have last : priv.inUse (32 * word + (31 - priv.tail word)) = false := by
    have stop := @setRun_stop (fun j => priv.inUse (32 * word + 31 - j)) 0 32
      (by unfold tail at opened most; omega)
    rwa [Nat.zero_add, ← tail, Nat.add_sub_assoc (by omega)] at stop
  have run_zero : priv.run (32 * word + (31 - priv.tail word)) = 0 :=
    Nat.le_zero.mp (@run_le priv _ 0 last)
  have tail_le : priv.tail word ≤ priv.run (32 * word + (32 - priv.tail word)) := by
    apply (le_setRun_iff most).mpr
    intro j before
    have set := (le_setRun_iff most).mp (Nat.le_refl _) (priv.tail word - 1 - j) (by omega)
    rw [← set]
    congr 1
    omega
  obtain ⟨curr', next', there, same⟩ := @granScan_reach priv n (32 * word) 0 place curr next
    positive small (31 - priv.tail word) (by omega) last (by omega) (Nat.zero_le _) window
    (fun j _ before => none j (by omega))
  have moved := @shift _ _ _ _ _ there (hop 0) (by decide) (by decide) (by omega)
  rw [same, granScan_step there positive small (by omega) (by omega) (by omega) (none _ (by omega))]
  rw [run_zero]
  have edge : 31 - priv.tail word + hop 0 = 32 - priv.tail word := by
    rw [show hop 0 = 1 from rfl]
    omega
  have position : place + (31 - priv.tail word - 0) + hop 0 = place + (32 - priv.tail word) := by
    omega
  rw [edge] at moved ⊢
  rw [position]
  unfold leave
  rw [if_neg opened, Nat.add_sub_assoc most (32 * word)]
  by_cases closed : priv.run (32 * word + (32 - priv.tail word)) = 32
  · rw [if_pos closed]
    exact granScan_stop moved (Or.inr closed)
  · rw [if_neg closed, ← Nat.add_assoc]
    have limit : priv.run (32 * word + (32 - priv.tail word)) ≤ 32 := setRun_le
    exact granScan_tail positive small (by omega) (by omega) tail_le (by omega) moved

theorem granScan_none (none : ∀ index, priv.fits n index = false)
    (window : Window priv.inUse granidx bitidx curr next) :
    ∃ later, granScan priv granidx n (ones 32 n) (priv.address place) curr next bitidx =
      .passed (priv.address later) := by
  induction rest : 32 - bitidx using Nat.strong_induction_on
    generalizing bitidx curr next place with
  | _ rest ih =>
    by_cases room : bitidx < 32 ∧ granidx + bitidx + n ≤ priv.ngranules
    · by_cases closed : priv.run (granidx + bitidx) = 32
      · exact ⟨_, granScan_stop window (Or.inr closed)⟩
      · have limit : priv.run (granidx + bitidx) ≤ 32 := setRun_le
        have bounds := hop_bounds (priv.run (granidx + bitidx))
        rw [granScan_step window positive small room.1 room.2 (by omega) (none _)]
        exact ih _ (by omega) (window.hop room.1) rfl
    · rw [granScan, if_neg room]
      exact ⟨_, rfl⟩

/-- The search from a table entry on returns the address that the first fit is given. -/
theorem granSearch_found {index : Nat}
    (fit : priv.fits n index = true) (none : ∀ j < index, priv.fits n j = false) {word : Nat}
    (before : word ≤ index / 32) :
    granSearch priv n (ones 32 n) (32 * word) (priv.address (priv.advance word)) =
      some (priv.address (priv.aim index)) := by
  have parts := fits_iff.mp fit
  induction distance : index / 32 - word generalizing word with
  | zero =>
    have here : word = index / 32 := by omega
    have clear : priv.inUse (32 * word + index % 32) = false := by
      rw [here, Nat.div_add_mod]
      exact parts.2 0 positive
    have opened := (start priv word).open_of_free (by decide) (Nat.mod_lt index (by decide)) clear
    have near := Nat.mod_lt index (show 0 < 32 by decide)
    obtain ⟨curr', next', there, same⟩ := @granScan_reach priv n (32 * word) 0 (priv.advance word)
      (priv.gat word) (priv.gat (word + 1)) positive small (index % 32) near clear
      (by rw [here, Nat.div_add_mod]; exact parts.1) (Nat.zero_le _) (start priv word)
      (fun j _ early => none _ (by omega))
    rw [granScan_fits there positive small near (by rwa [here, Nat.div_add_mod]),
      Nat.sub_zero] at same
    rw [granSearch]
    simp only [gatidx_eq, if_neg opened, if_pos (show 32 * word < priv.ngranules by omega), same]
    rw [aim, here]
  | succ distance ih =>
    have rest := @ih (word + 1) (by omega) (by omega)
    rw [granSearch, if_pos (by omega)]
    by_cases closed : priv.gat word = full
    · have leave : priv.leave word = 32 := by
        unfold leave
        rw [if_pos ((full_iff word).mp closed)]
      rw [advance, leave] at rest
      simp only [gatidx_eq, if_pos closed]
      rw [address_add]
      exact rest
    · have passed := @granScan_passed priv n (priv.advance word) (priv.gat word)
        (priv.gat (word + 1)) positive small word
        (fun tail => closed ((full_iff word).mpr tail))
        (by omega) (fun j early => none _ (by omega)) (start priv word)
      simp only [gatidx_eq, if_neg closed, if_pos (show 32 * word < priv.ngranules by omega),
        passed]
      exact rest

theorem granSearch_none (none : ∀ index, priv.fits n index = false) (word place : Nat) :
    granSearch priv n (ones 32 n) (32 * word) (priv.address place) = Option.none := by
  induction rest : priv.ngranules - 32 * word using Nat.strong_induction_on
    generalizing word place with
  | _ rest ih =>
    rw [granSearch]
    by_cases inside : 32 * word < priv.ngranules
    · rw [if_pos inside]
      have later := fun place => ih _ (by omega) (word + 1) place rfl
      by_cases closed : priv.gat word = full
      · simp only [gatidx_eq, if_pos closed]
        rw [address_add]
        exact later _
      · obtain ⟨next, passed⟩ := @granScan_none priv n (32 * word) 0 place _ _ positive small none
          (start priv word)
        simp only [gatidx_eq, if_neg closed, if_pos inside, passed]
        exact later next
    · rw [if_neg inside]

theorem granSearch_spec (start : priv.heapstart < 2 ^ 32) :
    granSearch priv n (ones 32 n) 0 priv.heapstart =
      (priv.firstFit n).map fun index => priv.address (priv.aim index) := by
  have origin : priv.address 0 = priv.heapstart := by
    unfold address
    rw [Nat.zero_shiftLeft, Nat.add_zero, wrap_of_lt start]
  cases found : priv.firstFit n with
  | none =>
    have nothing := granSearch_none positive small (firstFit_none positive found) 0 0
    rwa [Nat.mul_zero, origin] at nothing
  | some index =>
    have first := firstFit_some found
    have reached := granSearch_found positive small first.1 first.2 (Nat.zero_le _)
    rwa [Nat.mul_zero, advance, origin] at reached

end

end Scanning

end Chewie.Mm.Gran
