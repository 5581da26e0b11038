import Mathlib.Data.List.FinRange
import Chewie.Lib.Parity

/-!
# The Hamming code of a flash page

A block of 256 bytes has a code of 22 bits: for each bit of a byte's index and each bit of a bit's
index the parity of the bits of the block for which that index bit is one (odd), and of those for
which it is zero (even). The parities are interleaved into three bytes and inverted.
`hamming_verify256` compares the code of the data with the code that was stored. One wrong data bit
changes one of each pair of parities, so that the odd ones spell its index.
-/

namespace Chewie.Drivers.Hamming

open Chewie.Parity BitVec List Function

abbrev Block : Type := Fin 256 → BitVec 8

structure Code where
  /-- The parities of the upper half of the byte's index. -/
  code0 : BitVec 8
  /-- The parities of the lower half of the byte's index. -/
  code1 : BitVec 8
  /-- The parities of the bit's index, and two pad bits. -/
  code2 : BitVec 8
deriving DecidableEq

/-- The loop of `hamming_bitsinbyte`. A byte is empty after eight rounds. -/
def bitsLoop : Nat → BitVec 8 → Nat → Nat
  | 0, _, count => count
  | rounds + 1, byte, count =>
    if byte ≠ 0 then
      bitsLoop rounds (byte >>> 1) (if byte &&& 1 ≠ 0 then count + 1 else count)
    else count

def hammingBitsinbyte (byte : BitVec 8) : Nat := bitsLoop 8 byte 0

def hammingBitsincode256 (code : Code) : Nat :=
  hammingBitsinbyte code.code0 + hammingBitsinbyte code.code1 + hammingBitsinbyte code.code2

/-- The sums of the first loop of `hamming_compute256`. -/
structure Lines where
  colsum : BitVec 8
  evenline : BitVec 8
  oddline : BitVec 8

/-- One round of the first loop. -/
def lineStep (data : Block) (lines : Lines) (index : Fin 256) : Lines :=
  let lines := { lines with colsum := lines.colsum ^^^ data index }
  if hammingBitsinbyte (data index) &&& 1 = 1 then
    { lines with
      evenline := lines.evenline ^^^ BitVec.ofNat 8 (255 - index)
      oddline := lines.oddline ^^^ BitVec.ofNat 8 index }
  else lines

/-- The sums of the second loop. -/
structure Columns where
  colsum : BitVec 8
  evencol : BitVec 8
  oddcol : BitVec 8
deriving DecidableEq

/-- One round of the second loop. -/
def columnStep (columns : Columns) (index : Nat) : Columns :=
  let columns :=
    if columns.colsum &&& 1 ≠ 0 then
      { columns with
        evencol := columns.evencol ^^^ BitVec.ofNat 8 (7 - index)
        oddcol := columns.oddcol ^^^ BitVec.ofNat 8 index }
    else columns
  { columns with colsum := columns.colsum >>> 1 }

/-- One round of the third loop for one byte of the code: two more parities, selected by a mask. -/
def laneStep (mask odd even code : BitVec 8) : BitVec 8 :=
  let code := code <<< 2
  let code := if odd &&& mask ≠ 0 then code ||| 2 else code
  if even &&& mask ≠ 0 then code ||| 1 else code

/-- The state of the third loop. -/
structure Interleaving where
  evenline : BitVec 8
  oddline : BitVec 8
  evencol : BitVec 8
  oddcol : BitVec 8
  code : Code

/-- One round of the third loop. -/
def interleaveStep (state : Interleaving) : Interleaving where
  code := ⟨laneStep 0x80 state.oddline state.evenline state.code.code0,
    laneStep 0x08 state.oddline state.evenline state.code.code1,
    laneStep 0x04 state.oddcol state.evencol state.code.code2⟩
  oddline := state.oddline <<< 1
  evenline := state.evenline <<< 1
  oddcol := state.oddcol <<< 1
  evencol := state.evencol <<< 1

/-- The third loop. -/
def interleave (evenline oddline evencol oddcol : BitVec 8) : Code :=
  ((List.range 4).foldl (fun state _ => interleaveStep state)
    ⟨evenline, oddline, evencol, oddcol, ⟨0, 0, 0⟩⟩).code

/-- The code before it is inverted. -/
def parities (data : Block) : Code :=
  let lines := (List.finRange 256).foldl (lineStep data) ⟨0, 0, 0⟩
  let columns := (List.range 8).foldl columnStep ⟨lines.colsum, 0, 0⟩
  interleave lines.evenline lines.oddline columns.evencol columns.oddcol

def hammingCompute256 (data : Block) : Code :=
  let code := parities data
  ⟨~~~code.code0, ~~~code.code1, ~~~code.code2⟩

/-- The exclusive or of two codes. -/
def Code.xor (first second : Code) : Code :=
  ⟨first.code0 ^^^ second.code0, first.code1 ^^^ second.code1, first.code2 ^^^ second.code2⟩

/-- `data[byte] ^= (1 << bit)`. -/
def flipBit (data : Block) (byte : Fin 256) (bit : Nat) : Block :=
  Function.update data byte (data byte ^^^ 1#8 <<< bit)

/-- The byte index that `hamming_verify256` reads from the correction. -/
def byteIndex (correction : Code) : BitVec 8 :=
  (correction.code0 &&& 0x80) ||| ((correction.code0 <<< 1) &&& 0x40) |||
    ((correction.code0 <<< 2) &&& 0x20) ||| ((correction.code0 <<< 3) &&& 0x10) |||
    ((correction.code1 >>> 4) &&& 0x08) ||| ((correction.code1 >>> 3) &&& 0x04) |||
    ((correction.code1 >>> 2) &&& 0x02) ||| ((correction.code1 >>> 1) &&& 0x01)

/-- The bit index that `hamming_verify256` reads from the correction. -/
def bitIndex (correction : Code) : BitVec 8 :=
  ((correction.code2 >>> 5) &&& 0x04) ||| ((correction.code2 >>> 4) &&& 0x02) |||
    ((correction.code2 >>> 3) &&& 0x01)

/-- What `hamming_verify256` returns. -/
inductive Verdict where
  | success
  | singlebit
  | ecc
  | multiplebits
deriving DecidableEq

/-- `hamming_verify256`: the data, and what it returns. -/
def hammingVerify256 (data : Block) (original : Code) : Block × Verdict :=
  let correction := (hammingCompute256 data).xor original
  if correction.code0 = 0 ∧ correction.code1 = 0 ∧ correction.code2 = 0 then (data, .success)
  else if hammingBitsincode256 correction = 11 then
    (flipBit data (byteIndex correction).toFin (bitIndex correction).toNat, .singlebit)
  else if hammingBitsincode256 correction = 1 then (data, .ecc)
  else (data, .multiplebits)

/-- A bit of the code that is not a pad bit. -/
structure CodeBit where
  byte : Fin 3
  bit : Fin 8
  used : byte = 2 → 2 ≤ bit
deriving DecidableEq

/-- A code in which only one bit is set. -/
def CodeBit.code (position : CodeBit) : Code :=
  let byte := fun (index : Fin 3) => if position.byte = index then 1#8 <<< position.bit.val else 0
  ⟨byte 0, byte 1, byte 2⟩

/-- A bit of the block or of the code. -/
inductive Place where
  | data (byte : Fin 256) (bit : Fin 8)
  | code (position : CodeBit)

open Place

/-- The block and the code with one bit wrong. -/
def Place.flip : Place → Block × Code → Block × Code
  | .data byte bit, received => (flipBit received.1 byte bit, received.2)
  | .code position, received => (received.1, received.2.xor position.code)

section Bytes

theorem hammingBitsinbyte_eq : ∀ byte, hammingBitsinbyte byte = weight byte := by
  decide +kernel

/-- Whether a byte has an odd number of bits. -/
def odd (byte : BitVec 8) : Bool := hammingBitsinbyte byte &&& 1 = 1

theorem odd_xor (left right : BitVec 8) : odd (left ^^^ right) = (odd left ^^ odd right) := by
  have sum := weight_xor left right
  simp only [odd, hammingBitsinbyte_eq, Nat.and_one_is_mod]
  obtain even_left | odd_left := Nat.mod_two_eq_zero_or_one (weight left) <;>
  obtain even_right | odd_right := Nat.mod_two_eq_zero_or_one (weight right) <;>
  simp only [*] <;> simp <;> omega

end Bytes

section Lanes

/-- A round puts two bits behind those of the code. -/
def pairStep (odd even : Bool) (code : BitVec 8) : BitVec 8 :=
  code <<< 2 ^^^ (if odd = true then 2 else 0) ^^^ (if even = true then 1 else 0)

theorem pairStep_xor (odd odd' even even' : Bool) (code code' : BitVec 8) :
    pairStep (odd ^^ odd') (even ^^ even') (code ^^^ code') =
      pairStep odd even code ^^^ pairStep odd' even' code' := by
  simp only [pairStep, ite_xor, shiftLeft_xor_distrib]
  ac_rfl

theorem laneStep_eq {mask : BitVec 8} {place : Nat}
    (selects : ∀ byte : BitVec 8, byte &&& mask ≠ 0 ↔ byte.getLsbD place = true)
    (odd even code : BitVec 8) :
    laneStep mask odd even code = pairStep (odd.getLsbD place) (even.getLsbD place) code := by
  simp only [laneStep, selects]
  generalize odd.getLsbD place = odd
  generalize even.getLsbD place = even
  revert odd even code
  decide +kernel

/-- A byte of the code after the four rounds. -/
def lane (mask odd even : BitVec 8) : BitVec 8 :=
  laneStep mask (odd <<< 3) (even <<< 3)
    (laneStep mask (odd <<< 2) (even <<< 2)
      (laneStep mask (odd <<< 1) (even <<< 1) (laneStep mask odd even 0)))

theorem interleave_eq (evenline oddline evencol oddcol : BitVec 8) :
    interleave evenline oddline evencol oddcol =
      ⟨lane 0x80 oddline evenline, lane 0x08 oddline evenline, lane 0x04 oddcol evencol⟩ := by
  have twice : ∀ byte : BitVec 8, byte <<< 1 <<< 1 = byte <<< 2 :=
    fun byte => (shiftLeft_add byte 1 1).symm
  have thrice : ∀ byte : BitVec 8, byte <<< 2 <<< 1 = byte <<< 3 :=
    fun byte => (shiftLeft_add byte 2 1).symm
  simp only [lane, ← thrice, ← twice]
  rfl

theorem lane_xor {mask : BitVec 8} {place : Nat}
    (selects : ∀ byte : BitVec 8, byte &&& mask ≠ 0 ↔ byte.getLsbD place = true)
    (odd odd' even even' : BitVec 8) :
    lane mask (odd ^^^ odd') (even ^^^ even') = lane mask odd even ^^^ lane mask odd' even' := by
  simp only [lane, laneStep_eq selects, shiftLeft_xor_distrib, getLsbD_xor, ← pairStep_xor]
  rfl

theorem selects (place : Nat) (inside : place < 8) (byte : BitVec 8) :
    byte &&& twoPow 8 place ≠ 0 ↔ byte.getLsbD place = true := by
  rw [and_twoPow]
  by_cases set : byte.getLsbD place = true
  · rw [if_pos set]
    exact iff_of_true (fun zero => by simpa [inside] using congrArg (getLsbD · place) zero) set
  · simp [set]

theorem selects_high (byte : BitVec 8) : byte &&& 0x80 ≠ 0 ↔ byte.getLsbD 7 = true :=
  selects 7 (by decide) byte

theorem selects_low (byte : BitVec 8) : byte &&& 0x08 ≠ 0 ↔ byte.getLsbD 3 = true :=
  selects 3 (by decide) byte

theorem selects_column (byte : BitVec 8) : byte &&& 0x04 ≠ 0 ↔ byte.getLsbD 2 = true :=
  selects 2 (by decide) byte

theorem interleave_xor (evenline evenline' oddline oddline' evencol evencol' oddcol oddcol' :
    BitVec 8) :
    interleave (evenline ^^^ evenline') (oddline ^^^ oddline') (evencol ^^^ evencol')
        (oddcol ^^^ oddcol') =
      (interleave evenline oddline evencol oddcol).xor
        (interleave evenline' oddline' evencol' oddcol') := by
  rw [interleave_eq, interleave_eq, interleave_eq, lane_xor selects_high, lane_xor selects_low,
    lane_xor selects_column]
  rfl

/-- A byte of the code, from the bits that were selected. -/
def pack (odd3 even3 odd2 even2 odd1 even1 odd0 even0 : Bool) : BitVec 8 :=
  pairStep odd0 even0 (pairStep odd1 even1 (pairStep odd2 even2 (pairStep odd3 even3 0)))

theorem pack_odd : ∀ odd3 even3 odd2 even2 odd1 even1 odd0 even0,
    (pack odd3 even3 odd2 even2 odd1 even1 odd0 even0)[1] = odd0 ∧
      (pack odd3 even3 odd2 even2 odd1 even1 odd0 even0)[3] = odd1 ∧
      (pack odd3 even3 odd2 even2 odd1 even1 odd0 even0)[5] = odd2 ∧
      (pack odd3 even3 odd2 even2 odd1 even1 odd0 even0)[7] = odd3 := by
  decide +kernel

theorem weight_pack : ∀ odd3 even3 odd2 even2 odd1 even1 odd0 even0,
    weight (pack odd3 even3 odd2 even2 odd1 even1 odd0 even0) =
      odd0.toNat + odd1.toNat + odd2.toNat + odd3.toNat +
        (even0.toNat + even1.toNat + even2.toNat + even3.toNat) := by
  decide +kernel

theorem lane_high (odd even : BitVec 8) :
    lane 0x80 odd even = pack (odd.getLsbD 7) (even.getLsbD 7) (odd.getLsbD 6) (even.getLsbD 6)
      (odd.getLsbD 5) (even.getLsbD 5) (odd.getLsbD 4) (even.getLsbD 4) := by
  simp only [lane, laneStep_eq selects_high, pack]
  simp

theorem lane_low (odd even : BitVec 8) :
    lane 0x08 odd even = pack (odd.getLsbD 3) (even.getLsbD 3) (odd.getLsbD 2) (even.getLsbD 2)
      (odd.getLsbD 1) (even.getLsbD 1) (odd.getLsbD 0) (even.getLsbD 0) := by
  simp only [lane, laneStep_eq selects_low, pack]
  simp

theorem lane_column (odd even : BitVec 8) :
    lane 0x04 odd even = pack (odd.getLsbD 2) (even.getLsbD 2) (odd.getLsbD 1) (even.getLsbD 1)
      (odd.getLsbD 0) (even.getLsbD 0) false false := by
  simp only [lane, laneStep_eq selects_column, pack]
  simp

theorem weight_byte (byte : BitVec 8) :
    weight byte = (byte.getLsbD 0).toNat + ((byte.getLsbD 1).toNat + ((byte.getLsbD 2).toNat +
      ((byte.getLsbD 3).toNat + ((byte.getLsbD 4).toNat + ((byte.getLsbD 5).toNat +
      ((byte.getLsbD 6).toNat + ((byte.getLsbD 7).toNat + 0))))))) := rfl

theorem hammingBitsincode256_eq (code : Code) :
    hammingBitsincode256 code = weight code.code0 + weight code.code1 + weight code.code2 := by
  rw [hammingBitsincode256, hammingBitsinbyte_eq, hammingBitsinbyte_eq, hammingBitsinbyte_eq]

theorem weight_column (column : BitVec 8) :
    weight (column.setWidth 3) = (column.getLsbD 0).toNat + ((column.getLsbD 1).toNat +
      ((column.getLsbD 2).toNat + 0)) := by
  simp [weight, range_succ]

/-- The number of bits in interleaved parities. -/
theorem bits_interleave (evenline oddline evencol oddcol : BitVec 8) :
    hammingBitsincode256 (interleave evenline oddline evencol oddcol) =
      weight oddline + weight evenline +
        (weight (oddcol.setWidth 3) + weight (evencol.setWidth 3)) := by
  rw [hammingBitsincode256_eq, interleave_eq, lane_high, lane_low, lane_column]
  rw [weight_pack, weight_pack, weight_pack, weight_byte oddline, weight_byte evenline,
    weight_column, weight_column, Bool.toNat_false]
  omega

theorem byteIndex_interleave (evenline oddline evencol oddcol : BitVec 8) :
    byteIndex (interleave evenline oddline evencol oddcol) = oddline := by
  rw [interleave_eq, lane_high, lane_low, byteIndex]
  refine eq_of_getLsbD_eq fun index below => ?_
  obtain rfl | rfl | rfl | rfl | rfl | rfl | rfl | rfl : index = 0 ∨ index = 1 ∨ index = 2 ∨
    index = 3 ∨ index = 4 ∨ index = 5 ∨ index = 6 ∨ index = 7 := by omega
  all_goals simp [pack_odd]

theorem bitIndex_interleave (evenline oddline evencol : BitVec 8) {oddcol : BitVec 8}
    (small : ∀ index, 3 ≤ index → oddcol.getLsbD index = false) :
    bitIndex (interleave evenline oddline evencol oddcol) = oddcol := by
  rw [interleave_eq, lane_column, bitIndex]
  refine eq_of_getLsbD_eq fun index below => ?_
  by_cases large : 3 ≤ index
  · have clear : ∀ place < 8, 3 ≤ place → (4#8).getLsbD place = false ∧
        (2#8).getLsbD place = false ∧ (1#8).getLsbD place = false := by decide
    simp [small index large, clear index below large]
  · obtain rfl | rfl | rfl : index = 0 ∨ index = 1 ∨ index = 2 := by omega
    all_goals simp [pack_odd]

end Lanes

section Sums

theorem foldl_lineStep (data : Block) (lines : Lines) (indices : List (Fin 256)) :
    indices.foldl (lineStep data) lines =
      ⟨lines.colsum ^^^ xorSum data indices,
        lines.evenline ^^^ xorSum (fun index =>
          if odd (data index) = true then BitVec.ofNat 8 (255 - index) else 0) indices,
        lines.oddline ^^^ xorSum (fun index =>
          if odd (data index) = true then BitVec.ofNat 8 index else 0) indices⟩ := by
  induction indices generalizing lines with
  | nil => simp [xorSum]
  | cons index rest ih =>
    have step : lineStep data lines index =
        ⟨lines.colsum ^^^ data index,
          lines.evenline ^^^ (if odd (data index) = true then BitVec.ofNat 8 (255 - index) else 0),
          lines.oddline ^^^ (if odd (data index) = true then BitVec.ofNat 8 index else 0)⟩ := by
      rw [lineStep]
      by_cases counts : hammingBitsinbyte (data index) &&& 1 = 1
      · rw [if_pos counts, odd, decide_eq_true counts, if_pos rfl, if_pos rfl]
      · rw [if_neg counts, odd, decide_eq_false counts, if_neg Bool.false_ne_true,
          if_neg Bool.false_ne_true]
        simp
    rw [foldl_cons, ih, step]
    simp only [xorSum, xor_assoc]

theorem foldl_columnStep : ∀ colsum : BitVec 8,
    (range 8).foldl columnStep ⟨colsum, 0, 0⟩ =
      ⟨0, xorSum (fun index =>
          if colsum.getLsbD index = true then BitVec.ofNat 8 (7 - index) else 0) (range 8),
        xorSum (fun index =>
          if colsum.getLsbD index = true then BitVec.ofNat 8 index else 0) (range 8)⟩ := by
  decide +kernel

theorem parities_eq (data : Block) :
    parities data = interleave
      (xorSum (fun index => if odd (data index) = true then BitVec.ofNat 8 (255 - index) else 0)
        (finRange 256))
      (xorSum (fun index => if odd (data index) = true then BitVec.ofNat 8 index else 0)
        (finRange 256))
      (xorSum (fun index => if (xorSum data (finRange 256)).getLsbD index = true then
        BitVec.ofNat 8 (7 - index) else 0) (range 8))
      (xorSum (fun index => if (xorSum data (finRange 256)).getLsbD index = true then
        BitVec.ofNat 8 index else 0) (range 8)) := by
  rw [parities, foldl_lineStep]
  rw [foldl_columnStep]
  simp

theorem parities_xor (first second : Block) :
    parities (fun index => first index ^^^ second index) =
      (parities first).xor (parities second) := by
  rw [parities_eq, parities_eq, parities_eq, ← interleave_xor]
  simp only [odd_xor, ite_xor, xorSum_xor, getLsbD_xor]

/-- A block in which only one bit is set. -/
def singleBit (byte : Fin 256) (bit : Nat) : Block :=
  fun index => if index = byte then 1#8 <<< bit else 0

theorem flipBit_eq (data : Block) (byte : Fin 256) (bit : Nat) :
    flipBit data byte bit = fun index => data index ^^^ singleBit byte bit index := by
  funext index
  rw [flipBit, singleBit]
  by_cases here : index = byte
  · rw [here, update_self, if_pos rfl]
  · rw [update_of_ne here, if_neg here]
    exact xor_zero.symm

/-- The code of a block in which only one bit is set: the odd parities are the index of the bit, the
even ones the complement. -/
theorem parities_singleBit (byte : Fin 256) (bit : Fin 8) :
    parities (singleBit byte bit) =
      interleave (BitVec.ofNat 8 (255 - byte)) (BitVec.ofNat 8 byte) (BitVec.ofNat 8 (7 - bit))
        (BitVec.ofNat 8 bit) := by
  have here : singleBit byte bit byte = 1#8 <<< bit.val := if_pos rfl
  have elsewhere : ∀ index ≠ byte, singleBit byte bit index = 0 := fun index other => if_neg other
  have counts : ∀ bit : Fin 8, odd (1#8 <<< bit.val) = true := by decide
  have absent : odd 0 = false := by decide
  have bits : ∀ bit : Fin 8, ∀ index ∈ range 8,
      (1#8 <<< bit.val).getLsbD index = decide (index = bit.val) := by decide
  have colsum : xorSum (singleBit byte bit) (finRange 256) = 1#8 <<< bit.val := by
    rw [xorSum_single (nodup_finRange 256) (mem_finRange byte)
      fun index _ other => elsewhere index other]
    exact here
  have line : ∀ label : Fin 256 → BitVec 8,
      xorSum (fun index => if odd (singleBit byte bit index) = true then label index else 0)
        (finRange 256) = label byte := by
    intro label
    rw [xorSum_single (nodup_finRange 256) (mem_finRange byte)]
    · rw [here, counts, if_pos rfl]
    · intro index _ other
      rw [elsewhere index other, absent, if_neg Bool.false_ne_true]
  have column : ∀ label : Nat → BitVec 8,
      xorSum (fun index => if (1#8 <<< bit.val).getLsbD index = true then label index
        else 0) (range 8) = label bit := by
    intro label
    rw [xorSum_single nodup_range (mem_range.mpr bit.isLt)]
    · rw [bits bit bit.val (mem_range.mpr bit.isLt), decide_eq_true rfl, if_pos rfl]
    · intro index mem other
      rw [bits bit index mem, decide_eq_false other, if_neg Bool.false_ne_true]
  rw [parities_eq, colsum, line, line, column, column]

theorem parities_flipBit (data : Block) (byte : Fin 256) (bit : Fin 8) :
    parities (flipBit data byte bit) = (parities data).xor (parities (singleBit byte bit)) := by
  rw [flipBit_eq, parities_xor]

end Sums

section Syndromes

/-- The code without bits. -/
def Code.zero : Code := ⟨0, 0, 0⟩

theorem bits_xor (first second : Code) :
    hammingBitsincode256 (first.xor second) +
      2 * (weight (first.code0 &&& second.code0) + weight (first.code1 &&& second.code1) +
        weight (first.code2 &&& second.code2)) =
      hammingBitsincode256 first + hammingBitsincode256 second := by
  have high := weight_xor first.code0 second.code0
  have low := weight_xor first.code1 second.code1
  have column := weight_xor first.code2 second.code2
  simp only [hammingBitsincode256_eq, Code.xor]
  omega

theorem ofNat_complement (byte : Fin 256) :
    BitVec.ofNat 8 (255 - byte) = ~~~BitVec.ofNat 8 byte := by
  apply eq_of_toNat_eq
  rw [toNat_not, toNat_ofNat, toNat_ofNat]
  omega

theorem weight_complement (byte : BitVec 8) : weight byte + weight (~~~byte) = 8 := by
  have sum := weight_xor byte (~~~byte)
  have whole : byte ^^^ ~~~byte = BitVec.allOnes 8 := by
    rw [← not_xor_right, BitVec.xor_self]
    rfl
  have apart : byte &&& ~~~byte = 0#8 := by simp
  rw [whole, apart] at sum
  have ones : weight (BitVec.allOnes 8) = 8 := by decide
  have zero : weight 0#8 = 0 := by decide
  omega

theorem bits_singleBit (byte : Fin 256) (bit : Fin 8) :
    hammingBitsincode256 (parities (singleBit byte bit)) = 11 := by
  have columns : ∀ bit : Fin 8,
      weight ((BitVec.ofNat 8 bit).setWidth 3) + weight ((BitVec.ofNat 8 (7 - bit)).setWidth 3) =
        3 := by decide
  rw [parities_singleBit, bits_interleave, columns, ofNat_complement, weight_complement]

/-- Two wrong data bits change both parities of a pair or none. -/
theorem bits_twoBits {byte byte' : Fin 256} {bit bit' : Fin 8}
    (distinct : ¬ (byte = byte' ∧ bit = bit')) :
    ∃ pairs, hammingBitsincode256
        ((parities (singleBit byte bit)).xor (parities (singleBit byte' bit'))) = 2 * pairs ∧
      pairs ≠ 0 := by
  have columns : ∀ bit bit' : Fin 8, BitVec.ofNat 8 (7 - bit) ^^^ BitVec.ofNat 8 (7 - bit') =
      BitVec.ofNat 8 bit ^^^ BitVec.ofNat 8 bit' := by decide
  have lines : BitVec.ofNat 8 (255 - byte) ^^^ BitVec.ofNat 8 (255 - byte') =
      BitVec.ofNat 8 byte ^^^ BitVec.ofNat 8 byte' := by
    rw [ofNat_complement, ofNat_complement, ← not_xor_left, ← not_xor_right, BitVec.not_not]
  rw [parities_singleBit, parities_singleBit, ← interleave_xor, columns, lines, bits_interleave]
  refine ⟨weight (BitVec.ofNat 8 byte ^^^ BitVec.ofNat 8 byte') +
    weight ((BitVec.ofNat 8 bit ^^^ BitVec.ofNat 8 bit').setWidth 3), by omega, fun absent => ?_⟩
  have same_bit : ∀ bit bit' : Fin 8,
      weight ((BitVec.ofNat 8 bit ^^^ BitVec.ofNat 8 bit').setWidth 3) = 0 → bit = bit' := by decide
  have same_byte : BitVec.ofNat 8 byte.val = BitVec.ofNat 8 byte'.val :=
    BitVec.xor_eq_zero_iff.mp (eq_zero_of_weight (by omega))
  refine distinct ⟨?_, same_bit bit bit' (by omega)⟩
  have values := congrArg BitVec.toNat same_byte
  rw [toNat_ofNat, toNat_ofNat] at values
  exact Fin.ext (by omega)

theorem bits_code (position : CodeBit) : hammingBitsincode256 position.code = 1 := by
  have one : ∀ bit : Fin 8, weight (1#8 <<< bit.val) = 1 := by decide
  have zero : weight 0#8 = 0 := by decide
  obtain ⟨byte, bit, used⟩ := position
  rw [hammingBitsincode256_eq]
  dsimp only [CodeBit.code]
  obtain rfl | rfl | rfl : byte = 0 ∨ byte = 1 ∨ byte = 2 := by omega
  · simp [one, zero]
  · simp [one, zero]
  · simp [one, zero]

theorem bits_twoCodes {position position' : CodeBit} (distinct : position ≠ position') :
    hammingBitsincode256 (position.code.xor position'.code) = 2 := by
  have sum := bits_xor position.code position'.code
  rw [bits_code, bits_code] at sum
  have apart : ∀ bit bit' : Fin 8, bit ≠ bit' →
      weight (1#8 <<< bit.val &&& 1#8 <<< bit'.val) = 0 := by decide
  have zero : weight 0#8 = 0 := by decide
  have disjoint : ∀ index : Fin 3,
      weight ((if position.byte = index then 1#8 <<< position.bit.val else 0) &&&
        (if position'.byte = index then 1#8 <<< position'.bit.val else 0)) = 0 := by
    intro index
    by_cases here : position.byte = index
    · by_cases here' : position'.byte = index
      · rw [if_pos here, if_pos here']
        refine apart _ _ fun same => distinct ?_
        obtain ⟨byte, bit, used⟩ := position
        obtain ⟨byte', bit', used'⟩ := position'
        dsimp only at here here' same
        subst here here' same
        rfl
      · rw [if_neg here', ofNat_eq_ofNat, and_zero, zero]
    · rw [if_neg here, ofNat_eq_ofNat, zero_and, zero]
  have first := disjoint 0
  have second := disjoint 1
  have third := disjoint 2
  simp only [CodeBit.code] at sum first second third ⊢
  omega

theorem bits_mixed (byte : Fin 256) (bit : Fin 8) (position : CodeBit) :
    hammingBitsincode256 ((parities (singleBit byte bit)).xor position.code) = 10 ∨
      hammingBitsincode256 ((parities (singleBit byte bit)).xor position.code) = 12 := by
  have sum := bits_xor (parities (singleBit byte bit)) position.code
  have one := bits_code position
  rw [bits_singleBit, one] at sum
  rw [hammingBitsincode256_eq] at one
  have first := weight_and_le (parities (singleBit byte bit)).code0 position.code.code0
  have second := weight_and_le (parities (singleBit byte bit)).code1 position.code.code1
  have third := weight_and_le (parities (singleBit byte bit)).code2 position.code.code2
  omega

end Syndromes

section Verification

/-- The difference between the code of the data and the code that was stored. -/
def correction (received : Block × Code) : Code :=
  (hammingCompute256 received.1).xor received.2

/-- What a wrong bit adds to the correction. -/
def Place.syndrome : Place → Code
  | .data byte bit => parities (singleBit byte bit)
  | .code position => position.code

theorem Code.xor_assoc (first second third : Code) :
    (first.xor second).xor third = first.xor (second.xor third) := by
  simp only [Code.xor, BitVec.xor_assoc]

theorem correction_none (data : Block) : correction (data, hammingCompute256 data) = Code.zero := by
  simp only [correction, Code.xor, BitVec.xor_self]
  rfl

theorem correction_flip (place : Place) (received : Block × Code) :
    correction (place.flip received) = (correction received).xor place.syndrome := by
  cases place with
  | data byte bit =>
    simp only [correction, Place.flip, Place.syndrome, hammingCompute256, parities_flipBit,
      Code.xor]
    have moved : ∀ left right stored : BitVec 8,
        ~~~(left ^^^ right) ^^^ stored = ~~~left ^^^ stored ^^^ right := by
      intro left right stored
      rw [not_xor_left]
      ac_rfl
    rw [moved, moved, moved]
  | code position => exact (Code.xor_assoc _ _ _).symm

theorem Code.zero_xor (code : Code) : Code.zero.xor code = code := by
  simp [Code.xor, Code.zero]

theorem not_zero_of_bits {code : Code} (nonempty : hammingBitsincode256 code ≠ 0) :
    ¬ (code.code0 = 0 ∧ code.code1 = 0 ∧ code.code2 = 0) := by
  rintro ⟨first, second, third⟩
  rw [hammingBitsincode256, first, second, third] at nonempty
  exact nonempty rfl

theorem flipBit_flipBit (data : Block) (byte : Fin 256) (bit : Nat) :
    flipBit (flipBit data byte bit) byte bit = data := by
  simp [flipBit, xor_assoc]

theorem verify_data (data : Block) (byte : Fin 256) (bit : Fin 8) :
    hammingVerify256 (flipBit data byte bit) (hammingCompute256 data) = (data, .singlebit) := by
  have found := correction_flip (.data byte bit) (data, hammingCompute256 data)
  rw [correction_none, Code.zero_xor] at found
  dsimp only [correction, Place.flip, Place.syndrome] at found
  have eleven := bits_singleBit byte bit
  have small : ∀ bit : Fin 8, ∀ index < 8, 3 ≤ index →
      (BitVec.ofNat 8 bit).getLsbD index = false := by decide
  have index : byteIndex (parities (singleBit byte bit)) = BitVec.ofNat 8 byte := by
    rw [parities_singleBit, byteIndex_interleave]
  have place : bitIndex (parities (singleBit byte bit)) = BitVec.ofNat 8 bit := by
    rw [parities_singleBit]
    refine bitIndex_interleave _ _ _ fun index large => ?_
    by_cases below : index < 8
    · exact small bit index below large
    · exact getLsbD_of_ge _ _ (Nat.le_of_not_lt below)
  rw [hammingVerify256, found, if_neg (not_zero_of_bits (by omega)), if_pos eleven, index, place]
  have same_byte : (BitVec.ofNat 8 byte.val).toFin = byte := Fin.ext (Nat.mod_eq_of_lt byte.isLt)
  have same_bit : (BitVec.ofNat 8 bit.val).toNat = bit.val :=
    Nat.mod_eq_of_lt (Nat.lt_of_lt_of_le bit.isLt (by decide))
  rw [same_byte, same_bit, flipBit_flipBit]

theorem verify_code (data : Block) (position : CodeBit) :
    hammingVerify256 data ((hammingCompute256 data).xor position.code) = (data, .ecc) := by
  have found := correction_flip (.code position) (data, hammingCompute256 data)
  rw [correction_none, Code.zero_xor] at found
  dsimp only [correction, Place.flip, Place.syndrome] at found
  have one := bits_code position
  rw [hammingVerify256, found, if_neg (not_zero_of_bits (by omega)), if_neg (by omega), if_pos one]

theorem bits_two {first second : Place} (distinct : first ≠ second) :
    hammingBitsincode256 (first.syndrome.xor second.syndrome) ≠ 0 ∧
      hammingBitsincode256 (first.syndrome.xor second.syndrome) ≠ 1 ∧
      hammingBitsincode256 (first.syndrome.xor second.syndrome) ≠ 11 := by
  have comm : ∀ left right : Code, left.xor right = right.xor left := by
    intro left right
    simp only [Code.xor, BitVec.xor_comm]
  cases first with
  | data byte bit =>
    cases second with
    | data byte' bit' =>
      obtain ⟨pairs, two, nonempty⟩ := @bits_twoBits byte byte' bit bit' fun same =>
        distinct (by rw [same.1, same.2])
      dsimp only [syndrome]
      omega
    | code position =>
      have mixed := bits_mixed byte bit position
      dsimp only [syndrome]
      omega
  | code position =>
    cases second with
    | data byte bit =>
      have mixed := bits_mixed byte bit position
      dsimp only [syndrome]
      rw [comm]
      omega
    | code position' =>
      have two := @bits_twoCodes position position' fun same => distinct (by rw [same])
      dsimp only [syndrome]
      omega

/-- `hamming_verify256` finds no error in a block with its own code, corrects one wrong bit of the
data, leaves the data alone when one bit of the code is wrong, and reports two wrong bits of the
data or the code without changing anything. -/
theorem hammingVerify256_correct (data : Block) :
    hammingVerify256 data (hammingCompute256 data) = (data, .success) ∧
    (∀ (byte : Fin 256) (bit : Fin 8),
      hammingVerify256 (flipBit data byte bit) (hammingCompute256 data) = (data, .singlebit)) ∧
    (∀ position : CodeBit,
      hammingVerify256 data ((hammingCompute256 data).xor position.code) = (data, .ecc)) ∧
    ∀ first second : Place, first ≠ second →
      hammingVerify256 (second.flip (first.flip (data, hammingCompute256 data))).1
          (second.flip (first.flip (data, hammingCompute256 data))).2 =
        ((second.flip (first.flip (data, hammingCompute256 data))).1, .multiplebits) := by
  refine ⟨?_, verify_data data, verify_code data, fun first second distinct => ?_⟩
  · have absent := correction_none data
    rw [correction] at absent
    rw [hammingVerify256, absent]
    exact if_pos ⟨rfl, rfl, rfl⟩
  · have found := correction_flip second (first.flip (data, hammingCompute256 data))
    rw [correction_flip first, correction_none, Code.zero_xor, correction] at found
    obtain ⟨absent, one, eleven⟩ := bits_two distinct
    rw [hammingVerify256, found, if_neg (not_zero_of_bits absent), if_neg eleven, if_neg one]

/-- A bit of the data and a bit of the code of a block of zeros. -/
theorem hammingVerify256_correct_zeros :
    Place.data 3 5 ≠ Place.code ⟨1, 2, by decide⟩ ∧
    hammingVerify256 (flipBit (fun _ => 0) 3 5)
        ((hammingCompute256 fun _ => 0).xor (CodeBit.code ⟨1, 2, by decide⟩)) =
      (flipBit (fun _ => 0) 3 5, .multiplebits) :=
  ⟨fun same => (by cases same), (hammingVerify256_correct fun _ => 0).2.2.2 (.data 3 5)
    (.code ⟨1, 2, by decide⟩) fun same => (by cases same)⟩

end Verification

section Blocks

/-- The number of a verdict. -/
def Verdict.value : Verdict → Int
  | .success => 0
  | .singlebit => 1
  | .ecc => 2
  | .multiplebits => 3

/-- `hamming_verify256x` on the blocks and their codes. The local variable `ret` has no value before
a block was corrected. -/
def hammingVerify256x (ret : Int) : List (Block × Code) → List Block × Int
  | [] => ([], ret)
  | (bytes, stored) :: rest =>
    match hammingVerify256 bytes stored with
    | (bytes, .success) => (hammingVerify256x ret rest).map (bytes :: ·) id
    | (bytes, .singlebit) => (hammingVerify256x Verdict.singlebit.value rest).map (bytes :: ·) id
    | (bytes, result) => (bytes :: rest.map Prod.fst, result.value)

/-- The error of the first block with one that was not corrected. Without one, a corrected block is
reported, and otherwise the default. -/
def report (default : Int) (verdicts : List Verdict) : Int :=
  match verdicts.find? fun verdict => verdict = .ecc ∨ verdict = .multiplebits with
  | some worst => worst.value
  | none => if .singlebit ∈ verdicts then Verdict.singlebit.value else default

def verdicts (blocks : List (Block × Code)) : List Verdict :=
  blocks.map fun block => (hammingVerify256 block.1 block.2).2

theorem hammingVerify256x_report (ret : Int) (blocks : List (Block × Code)) :
    (hammingVerify256x ret blocks).2 = report ret (verdicts blocks) := by
  induction blocks generalizing ret with
  | nil => rfl
  | cons block rest ih =>
    obtain ⟨bytes, stored⟩ := block
    rw [hammingVerify256x, verdicts, map_cons, ← verdicts]
    obtain ⟨bytes, verdict⟩ := hammingVerify256 bytes stored
    cases verdict with
    | success => simp [ih, report]
    | singlebit => simp [ih, report]
    | ecc | multiplebits => simp [report]

theorem verify_success_iff (bytes : Block) (code : Code) :
    (hammingVerify256 bytes code).2 = .success ↔ code = hammingCompute256 bytes := by
  unfold hammingVerify256
  generalize hammingCompute256 bytes = computed
  obtain ⟨code0, code1, code2⟩ := code
  obtain ⟨computed0, computed1, computed2⟩ := computed
  have equal (left right : BitVec 8) : left ^^^ right = 0 ↔ right = left :=
    BitVec.xor_eq_zero_iff.trans eq_comm
  simp only [Code.xor, equal, Code.mk.injEq]
  split
  next same => exact iff_of_true rfl same
  next differs => grind

theorem report_const {verdicts : List Verdict} {verdict : Verdict} (mem : verdict ∈ verdicts)
    (error : verdict ≠ .success) (default other : Int) :
    report default verdicts = report other verdicts := by
  unfold report
  cases found : verdicts.find? fun verdict => verdict = .ecc ∨ verdict = .multiplebits with
  | some worst => rfl
  | none =>
    have mild := find?_eq_none.mp found verdict mem
    have corrected : .singlebit ∈ verdicts := by
      cases verdict <;> simp_all
    rw [if_pos corrected, if_pos corrected]

theorem report_clean {verdicts : List Verdict} (clean : ∀ verdict ∈ verdicts, verdict = .success)
    (default : Int) : report default verdicts = default := by
  rw [eq_replicate_of_mem clean]
  simp [report]

/-- The result does not depend on what is in `ret` exactly when a stored code is not the code of its
block. -/
theorem hamming_verify_blocks (blocks : List (Block × Code)) :
    (∀ ret, (hammingVerify256x ret blocks).2 = report 0 (verdicts blocks)) ↔
      ∃ block ∈ blocks, block.2 ≠ hammingCompute256 block.1 := by
  simp only [hammingVerify256x_report]
  constructor
  · intro determined
    by_contra matching
    have clean : ∀ verdict ∈ verdicts blocks, verdict = .success := by
      intro verdict mem
      obtain ⟨block, there, rfl⟩ := mem_map.mp mem
      by_contra error
      exact matching ⟨block, there, mt (verify_success_iff block.1 block.2).mpr error⟩
    have same := determined 1
    rw [report_clean clean, report_clean clean] at same
    cases same
  · rintro ⟨block, mem, differs⟩ ret
    have error := mt (verify_success_iff block.1 block.2).mp differs
    exact report_const (mem_map_of_mem mem) error ret 0

/-- Two values of `ret` give two results for a block of zeros with its own code. -/
theorem hamming_verify_clean :
    (hammingVerify256x 0 [(fun _ => 0, hammingCompute256 fun _ => 0)]).2 ≠
      (hammingVerify256x 1 [(fun _ => 0, hammingCompute256 fun _ => 0)]).2 := by
  have clean : verdicts [(fun _ => 0, hammingCompute256 fun _ => 0)] = [.success] :=
    congrArg ([·]) ((verify_success_iff _ _).mpr rfl)
  rw [hammingVerify256x_report, hammingVerify256x_report, clean]
  decide

end Blocks

end Chewie.Drivers.Hamming
