import Chewie.Lib.Pushback

/-!
# The keyboard codec

A key press is its byte. The other events are an escape sequence of four bytes with the key and a
letter for the kind of the event. `kbd_decode` accepts a sequence only when its key is a special
keycode, also for the release of a normal key, and gives the bytes of any other sequence back as key
presses.
-/

namespace Chewie.Libc.Kbd

open List Pushback

/-- What happened to a key, in the order of the return values of `kbd_decode`. -/
inductive Kind where
  | press
  | release
  | specpress
  | specrel
deriving DecidableEq

/-- A key event: the return value and the byte that `kbd_decode` stores. -/
structure Event where
  kind : Kind
  key : BitVec 8
deriving DecidableEq

def asciiEsc : BitVec 8 := 0x1b

/-- `FIRST_KEYCODE`, which is `KEYCODE_FWDDEL`. -/
def firstKeycode : BitVec 8 := 1

/-- `LAST_KEYCODE`, which is `KEYCODE_F24`. -/
def lastKeycode : BitVec 8 := 87

def kbdEncode (keycode terminator : BitVec 8) : List (BitVec 8) :=
  [asciiEsc, 0x5b, keycode, terminator]

/-- What is put into the stream for an event: the byte itself for a press of a normal key, and
`kbd_release`, `kbd_specpress` or `kbd_specrel`. -/
def put : Event → List (BitVec 8)
  | ⟨.press, key⟩ => [key]
  | ⟨.release, key⟩ => kbdEncode key (0x61 + 1)
  | ⟨.specpress, key⟩ => kbdEncode key (0x61 + 2)
  | ⟨.specrel, key⟩ => kbdEncode key (0x61 + 3)

def termReturn (terminator : BitVec 8) : Kind :=
  if terminator = 0x62 then .release else if terminator = 0x63 then .specpress else .specrel

/-- `kbd_decode`, with the bytes of `buf` that are not returned yet and the stream. The result is
`none` for `KBD_ERROR`. -/
def kbdDecode : List (BitVec 8) → List (BitVec 8) →
    Option (Event × List (BitVec 8) × List (BitVec 8))
  | ch :: buf, stream => some (⟨.press, ch⟩, buf, stream)
  | [], [] => none
  | [], esc :: stream =>
    if esc ≠ asciiEsc then some (⟨.press, esc⟩, [], stream)
    else match stream with
    | [] => some (⟨.press, esc⟩, [], [])
    | bracket :: stream =>
      if bracket ≠ 0x5b then some (⟨.press, esc⟩, [bracket], stream)
      else match stream with
      | [] => some (⟨.press, esc⟩, [bracket], [])
      | code :: stream =>
        if code < firstKeycode ∨ lastKeycode < code then
          some (⟨.press, esc⟩, [bracket, code], stream)
        else match stream with
        | [] => some (⟨.press, esc⟩, [bracket, code], [])
        | terminator :: stream =>
          if terminator < 0x62 ∨ 0x64 < terminator then
            some (⟨.press, esc⟩, [bracket, code, terminator], stream)
          else some (⟨termReturn terminator, code⟩, [], stream)

/-- The events that the codec is for: a normal key that is pressed is not the escape key, and a
special key has a keycode. -/
def Encodable (event : Event) : Prop :=
  match event.kind with
  | .press => event.key ≠ asciiEsc
  | .release => True
  | .specpress | .specrel => firstKeycode ≤ event.key ∧ event.key ≤ lastKeycode

/-- A key that is released is in the range of the special keycodes. -/
def InRange (event : Event) : Prop :=
  event.kind = .release → firstKeycode ≤ event.key ∧ event.key ≤ lastKeycode

theorem kbdDecode_put {event : Event} (valid : Encodable event) (inRange : InRange event)
    (suffix : List (BitVec 8)) : kbdDecode [] (put event ++ suffix) = some (event, [], suffix) := by
  obtain ⟨kind, key⟩ := event
  cases kind with
  | press =>
    have plain : key ≠ asciiEsc := valid
    simp [put, kbdDecode, plain]
  | release =>
    have range := inRange rfl
    simp [put, kbdEncode, kbdDecode, BitVec.not_lt.mpr range.1, BitVec.not_lt.mpr range.2,
      termReturn]
  | specpress | specrel =>
    have range : firstKeycode ≤ key ∧ key ≤ lastKeycode := valid
    simp [put, kbdEncode, kbdDecode, BitVec.not_lt.mpr range.1, BitVec.not_lt.mpr range.2,
      termReturn]

theorem kbdDecode_refused {event : Event} (outside : ¬InRange event) (suffix : List (BitVec 8)) :
    ∃ other kept rest, other ≠ event ∧
      kbdDecode [] (put event ++ suffix) = some (other, kept, rest) := by
  obtain ⟨kind, key⟩ := event
  obtain ⟨rfl, range⟩ := Classical.not_imp.mp outside
  have refused : key < firstKeycode ∨ lastKeycode < key := by
    rw [← BitVec.not_le, ← BitVec.not_le]
    exact Classical.not_and_iff_not_or_not.mp range
  exact ⟨⟨.press, asciiEsc⟩, [0x5b, key], 0x62 :: suffix, by simp,
    by simp [put, kbdEncode, kbdDecode, refused]⟩

/-- Events come back from the stream exactly when the normal keys that were released are in the
range of the special keycodes. -/
theorem kbd_round_trip (events : List Event) (valid : ∀ event ∈ events, Encodable event) :
    (∃ calls, decodeAll kbdDecode calls [] (events.flatMap put) = some events) ↔
      ∀ event ∈ events, InRange event := by
  have rule := @decodeAll_encode _ _ _ kbdDecode put id InRange rfl events
    (fun event mem inRange suffix => kbdDecode_put (valid event mem) inRange suffix)
    fun event _ outside suffix => kbdDecode_refused outside suffix
  rwa [map_id] at rule

/-- A press and a release of `A` and the press of a function key. -/
theorem kbd_round_trip_keys : ∃ calls, decodeAll kbdDecode calls []
    ([⟨.press, 0x41⟩, ⟨.release, 0x41⟩, ⟨.specpress, 87⟩].flatMap put) =
      some [⟨.press, 0x41⟩, ⟨.release, 0x41⟩, ⟨.specpress, 87⟩] := by
  apply (kbd_round_trip _ _).mpr
  · simp [InRange, firstKeycode, lastKeycode]
  · simp [Encodable, asciiEsc, firstKeycode, lastKeycode]

/-- The release of `a` comes back as the presses of four keys. -/
theorem kbd_release_typed : Encodable ⟨.release, 0x61⟩ ∧
    decodeAll kbdDecode 5 [] (put ⟨.release, 0x61⟩) =
      some [⟨.press, asciiEsc⟩, ⟨.press, 0x5b⟩, ⟨.press, 0x61⟩, ⟨.press, 0x62⟩] :=
  ⟨trivial, by decide⟩

end Chewie.Libc.Kbd
