import Chewie.Lib.Word
import Mathlib.Data.Nat.Digits.Defs

/-!
# Text to unsigned numbers

`strtoul` and `strtoull` are one algorithm over two widths: skip spaces, take a sign, check the
base, and accumulate digits in a word that wraps around. An overflow is noticed when the accumulator
is smaller than before. The last part says for which digit strings that is enough.
-/

namespace Chewie.Libc

open List Word

/-- The error numbers that the conversions set. -/
inductive Errno where
  | einval
  | erange
deriving DecidableEq

def isspace (ch : Char) : Bool :=
  ch == ' ' || ch == '\t' || ch == '\n' || ch == '\r' || ch == '\x0c' || ch == '\x0b'

def libSkipspace : List Char → List Char
  | [] => []
  | ch :: rest => if isspace ch then libSkipspace rest else ch :: rest

/-- `lib_isbasedigit`, the value of the digit; `0x30`, `0x61` and `0x41` are the codes of `'0'`,
`'a'` and `'A'`. -/
def libIsbasedigit (ch : Char) (base : Int) : Option Nat :=
  if base ≤ 10 then
    if 0x30 ≤ ch.toNat ∧ (ch.toNat : Int) ≤ base + 0x30 - 1 then some (ch.toNat - 0x30) else none
  else if base ≤ 36 then
    if 0x30 ≤ ch.toNat ∧ ch.toNat ≤ 0x39 then some (ch.toNat - 0x30)
    else if 0x61 ≤ ch.toNat ∧ (ch.toNat : Int) ≤ 0x61 + base - 11 then some (ch.toNat - 0x61 + 10)
    else if 0x41 ≤ ch.toNat ∧ (ch.toNat : Int) ≤ 0x41 + base - 11 then some (ch.toNat - 0x41 + 10)
    else none
  else none

/-- `lib_checkbase`: the base and the pointer behind a prefix, or `none` for an incorrect base. -/
def libCheckbase (base : Int) (ptr : List Char) : Option (Int × List Char) :=
  if base = 0 then
    match ptr with
    | '0' :: mark :: digit :: rest =>
      if (mark = 'X' ∨ mark = 'x') ∧ (libIsbasedigit digit 16).isSome then some (16, digit :: rest)
      else some (8, mark :: digit :: rest)
    | '0' :: rest => some (8, rest)
    | _ => some (10, ptr)
  else if base = 16 then
    match ptr with
    | '0' :: mark :: rest => some (16, if mark = 'X' ∨ mark = 'x' then rest else ptr)
    | _ => some (16, ptr)
  else if base < 2 ∨ 26 < base then none
  else some (base, ptr)

/-- A sign and the text behind it. -/
def takeSign : List Char → Option Char × List Char
  | ch :: rest => if ch = '-' ∨ ch = '+' then (some ch, rest) else (none, ch :: rest)
  | [] => (none, [])

/-- The loop over the digits: the accumulator, the error and the pointer where it stopped. -/
def accumulate (width : Nat) (base : Int) : List Char → Nat → Nat × Option Errno × List Char
  | [], accum => (accum, none, [])
  | ch :: rest, accum =>
    match libIsbasedigit ch base with
    | none => (accum, none, ch :: rest)
    | some value =>
      let next := Word.wrap width (accum * base.toNat + value)
      if next < accum then (2 ^ width - 1, some .erange, rest)
      else accumulate width base rest next

structure Conversion where
  value : Nat
  errno : Option Errno
  /-- The offset of `*endptr` from the start of the text. -/
  endptr : Nat
deriving DecidableEq

/-- The offset of `*endptr`: a sign that no digit follows is given back. -/
def endOffset (nptr : List Char) (sign : Option Char) (offset : Nat) : Nat :=
  if sign.isSome ∧ sign = nptr[offset - 1]? then offset - 1 else offset

/-- The body of `strtoul` and `strtoull` for a word of `width` bits and a text that is not
`NULL`. -/
def strtou (width : Nat) (nptr : List Char) (base : Int) : Conversion :=
  let start := takeSign (libSkipspace nptr)
  match libCheckbase base start.2 with
  | none => ⟨0, some .einval, endOffset nptr start.1 (nptr.length - start.2.length)⟩
  | some (base, ptr) =>
    let digits := accumulate width base ptr 0
    ⟨if start.1 = some '-' then Word.add width (2 ^ width - 1 - digits.1) 1 else digits.1,
      digits.2.1, endOffset nptr start.1 (nptr.length - digits.2.2.length)⟩

/-- `strtoul`, where `unsigned long` has 32 bits. -/
def strtoul (nptr : List Char) (base : Int) : Conversion := strtou 32 nptr base

/-- `strtoull`, where `unsigned long long` has 64 bits. -/
def strtoull (nptr : List Char) (base : Int) : Conversion := strtou 64 nptr base

/-- `strtol` with `endptr` `NULL`, where `long` has 32 bits. -/
def strtol (nptr : List Char) (base : Int) : Int × Option Errno :=
  let start := takeSign (libSkipspace nptr)
  let accum := strtoul start.2 base
  if start.1 = some '-' then
    if 2 ^ 31 < accum.value then (-2 ^ 31, some .erange) else (-accum.value, accum.errno)
  else if 2 ^ 31 - 1 < accum.value then (2 ^ 31 - 1, some .erange)
  else (accum.value, accum.errno)

def atoi (nptr : List Char) : Int := (strtol nptr 10).1

/-- The value of a digit or letter as a digit. -/
def digitValue (ch : Char) : Option Nat :=
  if 0x30 ≤ ch.toNat ∧ ch.toNat ≤ 0x39 then some (ch.toNat - 0x30)
  else if 0x61 ≤ ch.toNat ∧ ch.toNat ≤ 0x7a then some (ch.toNat - 0x61 + 10)
  else if 0x41 ≤ ch.toNat ∧ ch.toNat ≤ 0x5a then some (ch.toNat - 0x41 + 10)
  else none

/-- Every character is a digit of the base. -/
def IsDigits (base : Nat) (text : List Char) : Prop :=
  ∀ ch ∈ text, ∃ value < base, digitValue ch = some value

instance decidableIsDigits (base : Nat) (text : List Char) : Decidable (IsDigits base text) :=
  List.decidableBAll (fun ch => ∃ value < base, digitValue ch = some value) text

/-- The number that a digit string stands for. -/
def valueOf (base : Nat) (text : List Char) : Nat :=
  Nat.ofDigits base (text.filterMap digitValue).reverse

section Digits

variable {base : Nat} {text : List Char} {ch : Char} {value : Nat}

theorem libIsbasedigit_digit (upper : base ≤ 36) (digit : digitValue ch = some value)
    (small : value < base) : libIsbasedigit ch base = some value := by
  unfold digitValue at digit
  unfold libIsbasedigit
  split at digit
  · cases digit
    split_ifs <;> first | rfl | omega
  · split at digit
    · cases digit
      split_ifs <;> first | rfl | omega
    · split at digit
      · cases digit
        split_ifs <;> first | rfl | omega
      · cases digit

theorem digit_plain (digit : digitValue ch = some value) :
    isspace ch = false ∧ ch ≠ '-' ∧ ch ≠ '+' := by
  have outside : ∀ other : Char, digitValue other = none → ch ≠ other := by
    intro other empty same
    rw [same, empty] at digit
    cases digit
  refine ⟨?_, outside '-' (by decide), outside '+' (by decide)⟩
  simp only [isspace, Bool.or_eq_false_iff, beq_eq_false_iff_ne, ne_eq]
  exact ⟨⟨⟨⟨⟨outside ' ' (by decide), outside '\t' (by decide)⟩, outside '\n' (by decide)⟩,
    outside '\r' (by decide)⟩, outside '\x0c' (by decide)⟩, outside '\x0b' (by decide)⟩

theorem valueOf_snoc (base : Nat) (text : List Char) (digit : digitValue ch = some value) :
    valueOf base (text ++ [ch]) = valueOf base text * base + value := by
  unfold valueOf
  simp [filterMap_append, digit, Nat.ofDigits_cons, Nat.mul_comm, Nat.add_comm]

theorem valueOf_lt (large : 1 < base) (digits : IsDigits base text) :
    valueOf base text < base ^ text.length := by
  have bound : ∀ digit ∈ (text.filterMap digitValue).reverse, digit < base := by
    intro digit member
    obtain ⟨ch, inside, valued⟩ := mem_filterMap.1 (mem_reverse.1 member)
    obtain ⟨value, small, same⟩ := digits ch inside
    rw [same] at valued
    cases valued
    exact small
  have shorter : (text.filterMap digitValue).reverse.length ≤ text.length := by
    rw [length_reverse]
    exact length_filterMap_le _ _
  exact lt_of_lt_of_le (Nat.ofDigits_lt_base_pow_length large bound)
    (Nat.pow_le_pow_right (by omega) shorter)

end Digits

/-- The accumulator after a digit string. -/
def accumOf (width base : Nat) (text : List Char) : Nat := valueOf base text % 2 ^ width

/-- The accumulator is smaller behind the digit at this index than before it. -/
def Drops (width base : Nat) (text : List Char) (index : Nat) : Prop :=
  accumOf width base (text.take (index + 1)) < accumOf width base (text.take index)

instance decidableDrops (width base : Nat) (text : List Char) (index : Nat) :
    Decidable (Drops width base text index) :=
  inferInstanceAs (Decidable (_ < _))

section Loop

variable {width base : Nat} {text : List Char} (upper : base ≤ 36) (digits : IsDigits base text)

include upper digits

/-- One round of the loop, behind the first digits of the text. -/
theorem accumulate_next {count : Nat} (inside : count < text.length) :
    accumulate width base (text.drop count) (accumOf width base (text.take count)) =
      if Drops width base text count then (2 ^ width - 1, some .erange, text.drop (count + 1))
      else accumulate width base (text.drop (count + 1))
        (accumOf width base (text.take (count + 1))) := by
  obtain ⟨value, small, valued⟩ := digits text[count] (getElem_mem inside)
  have next : wrap width (accumOf width base (text.take count) * base + value) =
      accumOf width base (text.take (count + 1)) := by
    unfold accumOf wrap
    rw [take_succ_eq_append_getElem inside, valueOf_snoc base _ valued, Nat.add_mod,
      Nat.mod_mul_mod, ← Nat.add_mod]
  rw [drop_eq_getElem_cons inside]
  simp only [accumulate, libIsbasedigit_digit upper valued small, Int.toNat_natCast, next]
  rfl

/-- The loop goes on while the accumulator does not drop. -/
theorem accumulate_smooth {count : Nat} (short : count ≤ text.length)
    (smooth : ∀ index < count, ¬Drops width base text index) :
    accumulate width base text 0 =
      accumulate width base (text.drop count) (accumOf width base (text.take count)) := by
  induction count with
  | zero => simp [accumOf, valueOf]
  | succ count ih =>
    rw [ih (by omega) fun index before => smooth index (by omega),
      accumulate_next upper digits short, if_neg (smooth count (Nat.lt_succ_self count))]

end Loop

section Conversion

variable {width base : Nat} {text : List Char}

theorem libCheckbase_digits (lower : 2 ≤ base) (upper : base ≤ 26) (digits : IsDigits base text) :
    libCheckbase base text = some ((base : Int), text) := by
  have notZero : (base : Int) ≠ 0 := by omega
  have inRange : ¬((base : Int) < 2 ∨ 26 < (base : Int)) := by omega
  unfold libCheckbase
  rw [if_neg notZero]
  by_cases hexadecimal : (base : Int) = 16
  · rw [if_pos hexadecimal, hexadecimal]
    split
    · rename_i mark rest
      obtain ⟨value, small, valued⟩ := digits mark (by simp)
      have plain : ¬(mark = 'X' ∨ mark = 'x') := by
        rintro (rfl | rfl)
        · have code : digitValue 'X' = some 33 := by decide
          rw [code] at valued
          cases valued
          omega
        · have code : digitValue 'x' = some 33 := by decide
          rw [code] at valued
          cases valued
          omega
      rw [if_neg plain]
    · rfl
  · rw [if_neg hexadecimal, if_neg inRange]

theorem libCheckbase_large (large : 26 < base) (text : List Char) :
    libCheckbase base text = none := by
  unfold libCheckbase
  rw [if_neg (by omega), if_neg (by omega), if_pos (by omega)]

theorem takeSign_digits (digits : IsDigits base text) :
    takeSign (libSkipspace text) = (none, text) := by
  cases text with
  | nil => rfl
  | cons ch rest =>
    obtain ⟨value, _, valued⟩ := digits ch (by simp)
    have plain := digit_plain valued
    simp [libSkipspace, takeSign, plain.1, plain.2.1, plain.2.2]

theorem strtou_digits (lower : 2 ≤ base) (upper : base ≤ 26) (digits : IsDigits base text) :
    strtou width text base =
      ⟨(accumulate width base text 0).1, (accumulate width base text 0).2.1,
        text.length - (accumulate width base text 0).2.2.length⟩ := by
  simp [strtou, takeSign_digits digits, libCheckbase_digits lower upper digits, endOffset]

theorem strtou_large (large : 26 < base) (digits : IsDigits base text) :
    strtou width text base = ⟨0, some .einval, 0⟩ := by
  simp [strtou, takeSign_digits digits, libCheckbase_large large, endOffset]

theorem strtou_smooth (lower : 2 ≤ base) (upper : base ≤ 26) (digits : IsDigits base text)
    (smooth : ∀ index < text.length, ¬Drops width base text index) :
    strtou width text base = ⟨accumOf width base text, none, text.length⟩ := by
  rw [strtou_digits lower upper digits, accumulate_smooth (by omega) digits (Nat.le_refl _) smooth]
  simp [accumulate]

theorem valueOf_le_append (positive : 0 < base) (done : List Char) {rest : List Char}
    (digits : IsDigits base rest) : valueOf base done ≤ valueOf base (done ++ rest) := by
  induction rest generalizing done with
  | nil => simp
  | cons ch rest ih =>
    obtain ⟨value, _, valued⟩ := digits ch (by simp)
    have later := ih (done ++ [ch]) (fun other member => digits other (by simp [member]))
    have scaled : valueOf base done ≤ valueOf base done * base := Nat.le_mul_of_pos_right _ positive
    rw [valueOf_snoc base done valued, append_assoc] at later
    exact le_trans (by omega) later

theorem not_drops_of_fits (positive : 0 < base) (digits : IsDigits base text)
    (fits : valueOf base text < 2 ^ width) (index : Nat) : ¬Drops width base text index := by
  have parts : ∀ count, valueOf base (text.take count) < 2 ^ width := by
    intro count
    have grows := @valueOf_le_append base positive (text.take count) (text.drop count)
      (fun ch member => digits ch (mem_of_mem_drop member))
    rw [take_append_drop] at grows
    omega
  have grows := @valueOf_le_append base positive (text.take index) ((text.drop index).take 1)
    (fun ch member => digits ch (mem_of_mem_drop (mem_of_mem_take member)))
  rw [← take_add] at grows
  unfold Drops accumOf
  rw [Nat.mod_eq_of_lt (parts _), Nat.mod_eq_of_lt (parts _)]
  omega

theorem strtol_digits (lower : 2 ≤ base) (upper : base ≤ 26) (digits : IsDigits base text)
    (small : valueOf base text < 2 ^ 31) : strtol text base = ((valueOf base text : Int), none) := by
  have result := @strtou_smooth 32 base text lower upper digits
    (fun index _ => not_drops_of_fits (by omega) digits (by omega) index)
  have kept : accumOf 32 base text = valueOf base text := Nat.mod_eq_of_lt (by omega)
  rw [kept] at result
  have fits : valueOf base text ≤ 2147483647 := by omega
  simp [strtol, takeSign_digits digits, strtoul, result, fits]

end Conversion

/-- The conversion returns the number that the text stands for, or the largest number and `ERANGE`
when that is too large, and stops behind the last digit. -/
structure OverflowSeen (width : Nat) (convert : List Char → Int → Conversion) (base : Nat)
    (text : List Char) : Prop where
  fits : valueOf base text ≤ 2 ^ width - 1 →
    (convert text base).value = valueOf base text ∧ (convert text base).errno = none
  range : ¬valueOf base text ≤ 2 ^ width - 1 →
    (convert text base).value = 2 ^ width - 1 ∧ (convert text base).errno = some .erange
  consumed : (convert text base).endptr = text.length

/-- The base is one that `lib_checkbase` accepts, and the number fits or the accumulator drops at
the last digit and at no digit before. -/
def Noticed (width base : Nat) (text : List Char) : Prop :=
  base ≤ 26 ∧ (valueOf base text ≤ 2 ^ width - 1 ∨
    Drops width base text (text.length - 1) ∧
      ∀ index < text.length - 1, ¬Drops width base text index)

/-- For a word of any width the overflow is seen exactly when the accumulator gives it away. -/
theorem strtou_overflow {width base : Nat} {text : List Char} (lower : 2 ≤ base)
    (nonempty : text ≠ []) (digits : IsDigits base text) :
    OverflowSeen width (strtou width) base text ↔ Noticed width base text := by
  have long : 0 < text.length := length_pos_iff.2 nonempty
  have full : 0 < 2 ^ width := Nat.two_pow_pos width
  by_cases large : 26 < base
  · have result := @strtou_large width base text large digits
    constructor
    · intro seen
      have stopped := seen.consumed
      rw [result] at stopped
      exact absurd stopped (by dsimp only; omega)
    · exact fun noticed => absurd noticed.1 (by omega)
  have upper : base ≤ 26 := by omega
  by_cases fits : valueOf base text ≤ 2 ^ width - 1
  · have result := @strtou_smooth width base text lower upper digits
      (fun index _ => not_drops_of_fits (by omega) digits (by omega) index)
    have kept : accumOf width base text = valueOf base text := Nat.mod_eq_of_lt (by omega)
    rw [kept] at result
    constructor
    · exact fun _ => ⟨upper, .inl fits⟩
    · intro _
      exact ⟨fun _ => by rw [result]; exact ⟨rfl, rfl⟩, fun range => absurd fits range,
        by rw [result]⟩
  by_cases dropped : ∃ stop, stop < text.length ∧ Drops width base text stop
  · have first := Nat.find_spec dropped
    have smooth : ∀ index < Nat.find dropped, ¬Drops width base text index := by
      intro index before drops
      exact Nat.find_min dropped before ⟨by omega, drops⟩
    have result : strtou width text base = ⟨2 ^ width - 1, some .erange, Nat.find dropped + 1⟩ := by
      rw [strtou_digits lower upper digits, accumulate_smooth (by omega) digits first.1.le smooth,
        accumulate_next (by omega) digits first.1, if_pos first.2]
      simp
      omega
    constructor
    · intro seen
      have last : Nat.find dropped + 1 = text.length := by
        have stopped := seen.consumed
        rwa [result] at stopped
      have place : text.length - 1 = Nat.find dropped := by omega
      refine ⟨upper, .inr ?_⟩
      rw [place]
      exact ⟨first.2, smooth⟩
    · rintro ⟨_, small | ⟨drops, early⟩⟩
      · exact absurd small fits
      · have last : Nat.find dropped + 1 = text.length := by
          have notBefore : ¬Nat.find dropped < text.length - 1 :=
            fun before => early (Nat.find dropped) before first.2
          omega
        exact ⟨fun small => absurd small fits, fun _ => by rw [result]; exact ⟨rfl, rfl⟩,
          by rw [result]; exact last⟩
  · have result := @strtou_smooth width base text lower upper digits
      (fun index inside drops => dropped ⟨index, inside, drops⟩)
    constructor
    · intro seen
      have silent := (seen.range fits).2
      rw [result] at silent
      cases silent
    · rintro ⟨_, small | ⟨drops, _⟩⟩
      · exact absurd small fits
      · exact absurd ⟨text.length - 1, by omega, drops⟩ dropped

/-- `strtoul` and `strtoull` see an overflow exactly when the accumulator gives it away. -/
theorem strtoul_strtoull_overflow (base : Nat) (text : List Char) (lower : 2 ≤ base)
    (nonempty : text ≠ []) (digits : IsDigits base text) :
    (OverflowSeen 32 strtoul base text ↔ Noticed 32 base text) ∧
      (OverflowSeen 64 strtoull base text ↔ Noticed 64 base text) :=
  ⟨strtou_overflow lower nonempty digits, strtou_overflow lower nonempty digits⟩

/-- `"4294967295"` is the largest number of `strtoul`, and the overflow of `"4294967296"` is
seen. -/
theorem strtoul_largest :
    OverflowSeen 32 strtoul 10 ['4', '2', '9', '4', '9', '6', '7', '2', '9', '5'] ∧
      OverflowSeen 32 strtoul 10 ['4', '2', '9', '4', '9', '6', '7', '2', '9', '6'] := by
  have seen := @strtoul_strtoull_overflow 10
  exact ⟨(seen _ (by decide) (by decide) (by decide)).1.2 ⟨by decide, .inl (by decide)⟩,
    (seen _ (by decide) (by decide) (by decide)).1.2 ⟨by decide, .inr (by decide)⟩⟩

/-- `"5000000000"` comes back as 705032704 without an error, the conversion of `"429496729500"`
stops before the last digit, and in base 36 `"1"` is an error. -/
theorem strtoul_overflow_missed :
    strtoul ['5', '0', '0', '0', '0', '0', '0', '0', '0', '0'] (10 : Nat) =
        ⟨705032704, none, 10⟩ ∧
      ¬OverflowSeen 32 strtoul 10 ['5', '0', '0', '0', '0', '0', '0', '0', '0', '0'] ∧
      strtoul ['4', '2', '9', '4', '9', '6', '7', '2', '9', '5', '0', '0'] (10 : Nat) =
        ⟨4294967295, some .erange, 11⟩ ∧ strtoul ['1'] (36 : Nat) = ⟨0, some .einval, 0⟩ := by
  have silent : strtoul ['5', '0', '0', '0', '0', '0', '0', '0', '0', '0'] (10 : Nat) =
      ⟨705032704, none, 10⟩ := by decide
  refine ⟨silent, ?_, by decide, by decide⟩
  intro seen
  have error := (seen.range (by decide)).2
  cases error

end Chewie.Libc
