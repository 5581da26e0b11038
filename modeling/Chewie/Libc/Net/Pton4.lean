import Chewie.Lib.Fields
import Chewie.Libc.Net.Model
import Mathlib.Tactic.IntervalCases

/-!
# Parsing IPv4 addresses

`inet_ipv4_pton` accepts four decimal fields. The number of dots is checked only at a dot, so a
fifth field that ends the text is stored behind the result before the text is refused.
-/

namespace Chewie.Libc.Net

open List Fields

/-- One to three decimal digits with a value that fits a byte. -/
@[mk_iff]
structure Octet (field : List Char) : Prop where
  decimal : ∀ ch ∈ field, isDecimal ch = true
  nonempty : field ≠ []
  short : field.length ≤ 3
  fits : valueOf 10 field ≤ 255

instance decidableOctet (field : List Char) : Decidable (Octet field) :=
  decidable_of_iff (field.all isDecimal = true ∧ field ≠ [] ∧ field.length ≤ 3 ∧
    valueOf 10 field ≤ 255) (by rw [octet_iff, all_eq_true])

variable {field : List Char} {mem : Memory}

theorem isDigits_of_decimal (decimal : ∀ ch ∈ field, isDecimal ch = true) : IsDigits 10 field := by
  intro ch member
  have code := decimal ch member
  simp only [isDecimal, Bool.and_eq_true, decide_eq_true_eq] at code
  exact ⟨ch.toNat - 0x30, by omega, if_pos code⟩

theorem atoi_decimal (decimal : ∀ ch ∈ field, isDecimal ch = true)
    (short : field.length ≤ 3) : atoi field = valueOf 10 field := by
  have digits := isDigits_of_decimal decimal
  have bound := valueOf_lt (by decide) digits
  have power : 10 ^ field.length ≤ 10 ^ 3 := Nat.pow_le_pow_right (by decide) short
  have result := strtol_digits (by decide) (by decide) digits (by omega)
  exact congrArg Prod.fst result

theorem scan4_field (absent : '.' ∉ field) (src : List Char) (scan : Scan4) :
    scan4 (field ++ src) [] scan =
      if field.all isDecimal = true ∧ field.length < 4 then scan4 src field scan
      else ⟨0, scan.mem⟩ := by
  apply @loop_collect _ _ _ '.' scan4 (fun scan => ⟨0, scan.mem⟩) isDecimal 4 _ field
    absent src [] scan (by decide)
  intro ch rest done state other
  simp only [scan4, if_neg other]

/-- What a field that a dot ends does. -/
def step4 (scan : Scan4) (field : List Char) : Except Pton Scan4 :=
  if Octet field ∧ scan.ndots < 4 then
    .ok ⟨scan.ndots + 1, scan.mem.store .dest scan.ndots (valueOf 10 field)⟩
  else .error ⟨0, scan.mem⟩

/-- What the last field does. -/
def finish4 (scan : Scan4) (field : List Char) : Pton :=
  if Octet field then
    ⟨if scan.ndots = 3 then 1 else 0, scan.mem.store .dest scan.ndots (valueOf 10 field)⟩
  else ⟨0, scan.mem⟩

theorem storeField4_eq (decimal : ∀ ch ∈ field, isDecimal ch = true)
    (short : field.length ≤ 3) (scan : Scan4) :
    scan.storeField field =
      if Octet field then some (scan.mem.store .dest scan.ndots (valueOf 10 field)) else none := by
  unfold Scan4.storeField
  rw [atoi_decimal decimal short]
  by_cases octet : Octet field
  · have long : ¬field.length < 1 := by
      rw [Nat.not_lt]
      exact length_pos_iff.2 octet.nonempty
    have fits := octet.fits
    rw [if_neg long, if_neg (by omega), if_pos octet, Int.toNat_natCast,
      Nat.mod_eq_of_lt (by omega)]
  rw [if_neg octet]
  by_cases empty : field.length < 1
  · rw [if_pos empty]
  · have large : ¬valueOf 10 field ≤ 255 := by
      intro fits
      exact octet ⟨decimal, fun nothing => empty (by simp [nothing]), short, fits⟩
    rw [if_neg empty, if_pos (by omega)]

/-- The loop reads the text field by field. -/
theorem scan4_eq (src : List Char) (scan : Scan4) :
    scan4 src [] scan = readFields step4 finish4 (src.splitOn '.') scan := by
  apply @loop_eq_readFields _ _ _ _ '.' step4 finish4 (fun src scan => scan4 src [] scan)
  · intro field scan absent
    have read := scan4_field absent [] scan
    rw [append_nil] at read
    rw [read]
    by_cases digits : field.all isDecimal = true ∧ field.length < 4
    · rw [if_pos digits]
      simp only [scan4, storeField4_eq (all_eq_true.1 digits.1)
        (Nat.le_of_lt_succ digits.2), finish4]
      by_cases octet : Octet field
      · simp [octet]
      · simp [octet]
    · have notOctet : ¬Octet field := fun octet =>
        digits ⟨all_eq_true.2 octet.decimal, Nat.lt_succ_of_le octet.short⟩
      rw [if_neg digits, finish4, if_neg notOctet]
  · intro field rest scan absent
    rw [scan4_field absent]
    by_cases digits : field.all isDecimal = true ∧ field.length < 4
    · rw [if_pos digits]
      simp only [scan4, ↓reduceIte, storeField4_eq (all_eq_true.1 digits.1)
        (Nat.le_of_lt_succ digits.2), step4]
      by_cases full : 4 ≤ scan.ndots
      · simp [full, Nat.not_lt.2 full]
      · by_cases octet : Octet field
        · simp [octet, full, Nat.not_le.1 full]
        · simp [octet, full]
    · have notOctet : ¬Octet field := fun octet =>
        digits ⟨all_eq_true.2 octet.decimal, Nat.lt_succ_of_le octet.short⟩
      rw [if_neg digits, step4, if_neg (fun both => notOctet both.1)]

/-- Every index in use is below the bound. -/
def Memory.Within (bound : Nat) (mem : Memory) : Prop := ∀ place ∈ mem.touched, place.2 < bound

@[simp]
theorem within_store {bound : Nat} {buffer : Buffer} {index value : Nat} :
    (mem.store buffer index value).Within bound ↔ index < bound ∧ mem.Within bound := by
  simp [Memory.Within, Memory.store]

/-- The return value of a scan from a number of dots, and whether it stays within the result. -/
theorem readFields4_spec (fields : List (List Char)) (nonempty : fields ≠ []) (scan : Scan4)
    (few : scan.ndots ≤ 4) (within : scan.mem.Within 4) :
    ((readFields step4 finish4 fields scan).ret = 1 ↔
      scan.ndots + fields.length = 4 ∧ ∀ field ∈ fields, Octet field) ∧
    ((readFields step4 finish4 fields scan).mem.Within 4 ↔
      ¬(scan.ndots + fields.length = 5 ∧ ∀ field ∈ fields, Octet field)) := by
  induction fields generalizing scan with
  | nil => exact absurd rfl nonempty
  | cons field rest ih =>
    cases rest with
    | nil =>
      simp only [readFields, finish4]
      by_cases octet : Octet field
      · simp only [octet, ↓reduceIte, within_store, within, length_singleton,
          mem_singleton, forall_eq, and_true]
        split_ifs <;> simp <;> omega
      · simp [octet, within]
    | cons next others =>
      simp only [readFields, step4]
      by_cases good : Octet field ∧ scan.ndots < 4
      · have later := ih (by simp) ⟨scan.ndots + 1, scan.mem.store .dest scan.ndots
          (valueOf 10 field)⟩ good.2 (within_store.2 ⟨good.2, within⟩)
        rw [if_pos good]
        simp only [length_cons, forall_mem_cons, good.1, true_and] at later ⊢
        have count : scan.ndots + 1 + (others.length + 1) =
            scan.ndots + (others.length + 1 + 1) := by omega
        rwa [count] at later
      · rw [if_neg good]
        simp only [length_cons, forall_mem_cons, within, true_iff]
        constructor
        · simp only [Nat.zero_ne_one, false_iff]
          rintro ⟨count, octet, _⟩
          exact good ⟨octet, by omega⟩
        · rintro ⟨count, octet, _⟩
          exact good ⟨octet, by omega⟩

theorem within_clear (fresh : mem.touched = []) (count : Nat) :
    (mem.clear .dest count).Within count := by
  have all : ∀ bound ≤ count, (mem.clear .dest bound).Within count := by
    intro bound below
    induction bound with
    | zero => simp [Memory.clear, Memory.Within, fresh]
    | succ bound ih =>
      simp only [Memory.clear, within_store]
      exact ⟨below, ih (by omega)⟩
  exact all count (le_refl _)

/-- A dotted quad of octets. -/
def Dotted (src : List Char) : Prop :=
  ∃ first second third fourth, Octet first ∧ Octet second ∧ Octet third ∧ Octet fourth ∧
    src = first ++ '.' :: (second ++ '.' :: (third ++ '.' :: fourth))

theorem Octet.absent (octet : Octet field) : '.' ∉ field := by
  intro member
  exact absurd (octet.decimal '.' member) (by decide)

theorem dotted_iff (src : List Char) :
    Dotted src ↔ (src.splitOn '.').length = 4 ∧ ∀ field ∈ src.splitOn '.', Octet field := by
  constructor
  · rintro ⟨first, second, third, fourth, one, two, three, four, rfl⟩
    rw [splitOn_append_cons_self, splitOn_append_cons_self, splitOn_append_cons_self,
      splitOn_eq_singleton one.absent, splitOn_eq_singleton two.absent,
      splitOn_eq_singleton three.absent, splitOn_eq_singleton four.absent]
    simp [one, two, three, four]
  · rintro ⟨count, octets⟩
    obtain ⟨first, second, third, fourth, shape⟩ := length_eq_four.1 count
    have joined := @List.intercalate_splitOn Char src _ _ '.'
    rw [shape] at octets joined
    refine ⟨first, second, third, fourth, octets _ (by simp), octets _ (by simp),
      octets _ (by simp), octets _ (by simp), ?_⟩
    rw [← joined]
    simp [List.intercalate, List.intersperse]

/-- The parser stores only to the four bytes of the result, and it accepts the dotted quads. -/
structure Ipv4Right (src : List Char) (mem : Memory) : Prop where
  within : (inetIpv4Pton src mem).mem.Within 4
  accepts : (inetIpv4Pton src mem).ret = 1 ↔ Dotted src

theorem ipv4Right_iff (src : List Char) (fresh : mem.touched = []) :
    Ipv4Right src mem ↔
      ¬((src.splitOn '.').length = 5 ∧ ∀ field ∈ src.splitOn '.', Octet field) := by
  have spec := readFields4_spec (src.splitOn '.') (splitOn_ne_nil '.' src)
    ⟨0, mem.clear .dest 4⟩ (Nat.zero_le 4) (within_clear fresh 4)
  rw [← scan4_eq] at spec
  simp only [Nat.zero_add] at spec
  constructor
  · intro right
    exact spec.2.1 right.within
  · intro notFive
    exact ⟨spec.2.2 notFive, by rw [dotted_iff]; exact spec.1⟩

end Chewie.Libc.Net
