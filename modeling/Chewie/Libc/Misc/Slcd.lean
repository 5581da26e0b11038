import Chewie.Lib.Pushback

/-!
# The codec of segment displays

An action is an escape sequence of three bytes, or of five bytes with a count in two hexadecimal
digits. The encoder and the decoder each convert digits on their own: both count the letters from
`a` but forget the ten, and the letters of the encoder are none that the decoder takes for a digit.
When the second digit of a count is refused, the decoder has not stored it.
-/

namespace Chewie.Libc.Slcd

open List Pushback

def asciiEsc : BitVec 8 := 0x1b

/-- What `slcd_decode` returns. -/
inductive Item where
  | char (ch : BitVec 8)
  | spec (code count : BitVec 8)
deriving DecidableEq

/-- The codes from `FIRST_SLCDCODE` to `LAST_SLCDCODE`. -/
def IsCode (code : BitVec 8) : Prop := 1 ≤ code ∧ code ≤ 16

instance decidableIsCode (code : BitVec 8) : Decidable (IsCode code) :=
  inferInstanceAs (Decidable (_ ∧ _))

/-- The codes without an argument: `SLCDCODE_ERASEEOL`, `SLCDCODE_CLEAR`, `SLCDCODE_HOME`,
`SLCDCODE_END`, `SLCDCODE_BLINKSTART`, `SLCDCODE_BLINKEND` and `SLCDCODE_BLINKOFF`. -/
def plainCodes : List (BitVec 8) := [4, 5, 6, 7, 14, 15, 16]

/-- `slcd_nibble` of the encoder. -/
def encodeNibble (binary : BitVec 8) : BitVec 8 :=
  let binary := binary &&& 0x0f
  if binary ≤ 9 then 0x30 + binary else 0x61 + binary

/-- `slcd_nibble` of the decoder. -/
def decodeNibble (ascii : BitVec 8) : BitVec 8 :=
  if 0x30 ≤ ascii ∧ ascii ≤ 0x39 then ascii - 0x30 else ascii - 0x61

def IsHex (ch : BitVec 8) : Prop := 0x30 ≤ ch ∧ ch ≤ 0x39 ∨ 0x61 ≤ ch ∧ ch ≤ 0x66

instance decidableIsHex (ch : BitVec 8) : Decidable (IsHex ch) :=
  inferInstanceAs (Decidable (_ ∨ _))

/-- `slcd_encode`: three bytes for the codes without an argument, five for the others, and nothing
for a number that is no code. -/
def slcdEncode (code count : BitVec 8) : List (BitVec 8) :=
  if code ∈ plainCodes then [asciiEsc, 0x5b, 0x41 + code]
  else if IsCode code then
    [asciiEsc, 0x5b, encodeNibble (count >>> 4), encodeNibble count, 0x41 + code]
  else []

/-- What is put into the stream for an item. -/
def put : Item → List (BitVec 8)
  | .char ch => [ch]
  | .spec code count => slcdEncode code count

/-- `slcd_decode`, with the bytes of `buf` that are not returned yet and the stream. The result is
`none` for `SLCDRET_EOF`. -/
def slcdDecode : List (BitVec 8) → List (BitVec 8) →
    Option (Item × List (BitVec 8) × List (BitVec 8))
  | ch :: buf, stream => some (.char ch, buf, stream)
  | [], [] => none
  | [], esc :: stream =>
    if esc ≠ asciiEsc then some (.char esc, [], stream)
    else match stream with
    | [] => some (.char esc, [], [])
    | bracket :: stream =>
      if bracket ≠ 0x5b then some (.char esc, [bracket], stream)
      else match stream with
      | [] => some (.char esc, [bracket], [])
      | high :: stream =>
        if ¬IsHex high then
          if IsCode (high - 0x41) then some (.spec (high - 0x41) 0, [], stream)
          else some (.char esc, [bracket, high], stream)
        else match stream with
        | [] => some (.char esc, [bracket, high], [])
        | low :: stream =>
          -- A byte that is no digit is read and not stored.
          if ¬IsHex low then some (.char esc, [bracket, high], stream)
          else match stream with
          | [] => some (.char esc, [bracket, high, low], [])
          | code :: stream =>
            if IsCode (code - 0x41) then
              some (.spec (code - 0x41) (decodeNibble high <<< 4 ||| decodeNibble low), [], stream)
            else some (.char esc, [bracket, high, low, code], stream)

/-- The items that the codec is for: a character is not the escape character, and an action has a
code. -/
def Encodable : Item → Prop
  | .char ch => ch ≠ asciiEsc
  | .spec code _ => IsCode code

/-- The item with its count, if its code carries one. -/
def counted : Item → Item
  | .char ch => .char ch
  | .spec code count => .spec code (if code ∈ plainCodes then 0 else count)

/-- Both hexadecimal digits of a count that the code carries are decimal digits. -/
def Decimal : Item → Prop
  | .char _ => True
  | .spec code count => code ∈ plainCodes ∨ count &&& 0x0f ≤ 9 ∧ count >>> 4 ≤ 9

theorem code_spec : ∀ code : BitVec 8, IsCode code →
    ¬IsHex (0x41 + code) ∧ 0x41 + code - 0x41 = code := by
  decide +kernel

theorem digits_read : ∀ count : BitVec 8, count &&& 0x0f ≤ 9 ∧ count >>> 4 ≤ 9 →
    IsHex (encodeNibble (count >>> 4)) ∧ IsHex (encodeNibble count) ∧
      decodeNibble (encodeNibble (count >>> 4)) <<< 4 ||| decodeNibble (encodeNibble count) =
        count := by
  decide +kernel

theorem digits_refused : ∀ count : BitVec 8, ¬(count &&& 0x0f ≤ 9 ∧ count >>> 4 ≤ 9) →
    ¬IsHex (encodeNibble (count >>> 4)) ∧ ¬IsCode (encodeNibble (count >>> 4) - 0x41) ∨
      IsHex (encodeNibble (count >>> 4)) ∧ ¬IsHex (encodeNibble count) := by
  decide +kernel

theorem slcdDecode_put {item : Item} (valid : Encodable item) (decimal : Decimal item)
    (suffix : List (BitVec 8)) :
    slcdDecode [] (put item ++ suffix) = some (counted item, [], suffix) := by
  cases item with
  | char ch =>
    have plain : ch ≠ asciiEsc := valid
    simp [put, slcdDecode, plain, counted]
  | spec code count =>
    have isCode : IsCode code := valid
    have letter := code_spec code isCode
    by_cases plain : code ∈ plainCodes
    · simp only [put, slcdEncode, if_pos plain, slcdDecode, cons_append, nil_append, letter, isCode,
        counted, ne_eq, not_true_eq_false, if_false, not_false_eq_true, if_true]
    · have digits := digits_read count (decimal.resolve_left plain)
      simp only [put, slcdEncode, if_neg plain, slcdDecode, cons_append, nil_append, letter, isCode,
        digits, counted, ne_eq, not_true_eq_false, if_false, if_true]

theorem slcdDecode_refused {item : Item} (valid : Encodable item) (other : ¬Decimal item)
    (suffix : List (BitVec 8)) : ∃ found kept rest, found ≠ counted item ∧
      slcdDecode [] (put item ++ suffix) = some (found, kept, rest) := by
  cases item with
  | char ch => exact absurd trivial other
  | spec code count =>
    have isCode : IsCode code := valid
    obtain ⟨carries, digits⟩ := not_or.mp other
    rcases digits_refused count digits with high | low
    · exact ⟨.char asciiEsc, _, _, nofun, by
        simp only [put, slcdEncode, if_neg carries, if_pos isCode, slcdDecode, cons_append, high,
          ne_eq, not_true_eq_false, if_false, not_false_eq_true, if_true]; rfl⟩
    · exact ⟨.char asciiEsc, _, _, nofun, by
        simp only [put, slcdEncode, if_neg carries, if_pos isCode, slcdDecode, cons_append, low,
          ne_eq, not_true_eq_false, if_false, not_false_eq_true, if_true]; rfl⟩

/-- What was encoded comes back exactly when the counts have only decimal digits. -/
theorem slcd_round_trip (items : List Item) (valid : ∀ item ∈ items, Encodable item) :
    (∃ calls, decodeAll slcdDecode calls [] (items.flatMap put) = some (items.map counted)) ↔
      ∀ item ∈ items, Decimal item :=
  decodeAll_encode rfl items
    (fun item mem decimal suffix => slcdDecode_put (valid item mem) decimal suffix)
    fun item mem other suffix => slcdDecode_refused (valid item mem) other suffix

/-- A character, a cursor movement by 42 and an erased line. -/
theorem slcd_round_trip_actions : ∃ calls, decodeAll slcdDecode calls []
    ([.char 0x41, .spec 8 0x42, .spec 4 7].flatMap put) =
      some [.char 0x41, .spec 8 0x42, .spec 4 0] := by
  apply (slcd_round_trip [.char 0x41, .spec 8 0x42, .spec 4 7] _).mpr
  · simp [Decimal, plainCodes]
  · simp [Encodable, asciiEsc, IsCode]

/-- A movement of ten columns comes back as characters, and one of them is lost. -/
theorem slcd_count_ten : Encodable (.spec 8 10) ∧
    slcdEncode 8 10 = [asciiEsc, 0x5b, 0x30, 0x6b, 0x49] ∧
    decodeAll slcdDecode 5 [] (put (.spec 8 10)) =
      some [.char asciiEsc, .char 0x5b, .char 0x30, .char 0x49] :=
  ⟨show IsCode 8 by decide, by decide, by decide⟩

end Chewie.Libc.Slcd
