import Chewie.Libc.Net.Grammar

/-!
# Printing IPv6 addresses

`inet_ipv6_ntop` prints the groups in hexadecimal with colons between them, and the longest run of
zero groups as a gap. The text always fits the buffer and is one that `inet_ipv6_pton` reads back.
-/

namespace Chewie.Libc.Net

open List

theorem digitChar_spec {digit : Nat} (small : digit < 16) :
    digitValue (Nat.digitChar digit) = some digit ∧ isHexadecimal (Nat.digitChar digit) = true := by
  have all : ∀ digit < 16, digitValue (Nat.digitChar digit) = some digit ∧
      isHexadecimal (Nat.digitChar digit) = true := by decide
  exact all digit small

theorem toDigits_spec (value : Nat) :
    valueOf 16 (Nat.toDigits 16 value) = value ∧
      ∀ ch ∈ Nat.toDigits 16 value, isHexadecimal ch = true := by
  induction value using Nat.strongRecOn with
  | _ value ih =>
    rw [Nat.toDigits_eq_if (by decide)]
    split_ifs with small
    · have digit := digitChar_spec small
      constructor
      · have last := valueOf_snoc 16 [] digit.1
        simpa [valueOf] using last
      · simpa using digit.2
    · have shorter := ih (value / 16) (by omega)
      have digit := digitChar_spec (Nat.mod_lt value (by decide : 0 < 16))
      constructor
      · rw [valueOf_snoc 16 _ digit.1]
        omega
      · intro ch member
        rw [mem_append, mem_singleton] at member
        rcases member with before | last
        · exact shorter.2 ch before
        · rw [last]
          exact digit.2

theorem toDigits_group {value : Nat} (small : value < 65536) : Group (Nat.toDigits 16 value) := by
  refine ⟨⟨(toDigits_spec value).2, ?_⟩, ?_⟩
  · rw [Nat.length_toDigits_le_iff (by decide) (by decide)]
    omega
  · rw [Nat.toDigits_eq_if (by decide)]
    split <;> simp

theorem zeroCount_spec (words : List Nat) :
    zeroCount words ≤ words.length ∧ ∀ index < zeroCount words, words.getD index 0 = 0 := by
  induction words with
  | nil => simp [zeroCount]
  | cons word words ih =>
    unfold zeroCount
    split_ifs with zero
    · refine ⟨by simpa using ih.1, ?_⟩
      intro index inside
      cases index with
      | zero => simpa using zero
      | succ index => simpa using ih.2 index (by omega)
    · simp

/-- A run of zero groups. -/
def ZeroRun (words : List Nat) (gap : Gap) : Prop :=
  gap.entry + gap.count ≤ 8 ∧
    ∀ index, gap.entry ≤ index → index < gap.entry + gap.count → words.getD index 0 = 0

theorem findGap_zero (words : List Nat) (eight : words.length = 8) (offset : Nat)
    (best : Option Gap) (known : ∀ gap ∈ best, ZeroRun words gap) :
    ∀ gap ∈ findGap words offset best, ZeroRun words gap := by
  fun_induction findGap words offset best with
  | case1 offset best inside zero count ih =>
    apply ih
    intro gap member
    split at member
    · have counted := zeroCount_spec (words.drop (offset + 1))
      rw [length_drop] at counted
      cases member
      refine ⟨by dsimp only [count]; omega, ?_⟩
      intro index lower upper
      dsimp only [count] at lower upper
      by_cases first : index = offset
      · rw [first]
        exact zero
      · have later := counted.2 (index - (offset + 1)) (by omega)
        rw [getD_eq_getElem?_getD, getElem?_drop,
          show offset + 1 + (index - (offset + 1)) = index by omega] at later
        rwa [getD_eq_getElem?_getD]
    · exact known gap member
  | case2 offset best inside other ih => exact ih known
  | case3 offset best done => exact known

theorem printAt_fits {dest text : List Char} {size : Nat} (fits : text.length < size)
    (range : size < 2 ^ 32) : printAt dest size text = (dest ++ text, size - text.length) := by
  unfold printAt
  rw [take_of_length_le (by omega), Word.sub_of_le (by omega) range]

/-- The groups from a place on, each with a colon before it that is not the first of the address. -/
def plainText (words : List Nat) (start : Nat) : Nat → List Char
  | 0 => []
  | count + 1 =>
    (if 0 < start then [':'] else []) ++ Nat.toDigits 16 (words.getD start 0) ++
      plainText words (start + 1) count

section Print

variable {words : List Nat} {best : Option Gap}

section

variable (small : ∀ index, words.getD index 0 < 65536)

include small

theorem plainText_length (start count : Nat) :
    (plainText words start count).length ≤ 5 * count := by
  induction count generalizing start with
  | zero => simp [plainText]
  | succ count ih =>
    have later := ih (start + 1)
    have short := (toDigits_group (small start)).plain.short
    simp only [plainText, length_append]
    split_ifs
    · simp only [length_singleton]
      omega
    · simp only [length_nil]
      omega

/-- Groups outside of the gap are printed in hexadecimal. -/
theorem printGroups_plain (count : Nat) {offset size : Nat} {dest : List Char}
    (inside : offset + count ≤ 8)
    (outside : ∀ index, offset ≤ index → index < offset + count → gapAt best index = none)
    (fits : 5 * count < size) (range : size < 2 ^ 32) :
    printGroups words best offset dest size =
      printGroups words best (offset + count) (dest ++ plainText words offset count)
        (size - (plainText words offset count).length) := by
  induction count generalizing offset size dest with
  | zero => simp [plainText]
  | succ count ih =>
    have short := (toDigits_group (small offset)).plain.short
    rw [printGroups, if_pos (by omega), outside offset (by omega) (by omega)]
    have colon : (if 0 < offset then printAt dest size [':'] else (dest, size)) =
        (dest ++ (if 0 < offset then [':'] else []),
          size - (if 0 < offset then [':'] else []).length) := by
      split_ifs
      · exact printAt_fits (by simp only [length_singleton]; omega) range
      · simp
    have few : (if 0 < offset then [':'] else []).length ≤ 1 := by split_ifs <;> simp
    rw [colon]
    dsimp only
    rw [printAt_fits (by omega) (by omega)]
    rw [ih (by omega) (fun index lower upper => outside index (by omega) (by omega)) (by omega)
      (by omega)]
    have next : offset + 1 + count = offset + (count + 1) := by omega
    simp [plainText, Nat.sub_sub, next, Nat.add_assoc]

/-- The text of an address with a gap. -/
theorem printGroups_gap {gap : Gap} (inside : gap.entry + gap.count ≤ 8) {size : Nat}
    (fits : inet6Addrstrlen ≤ size) (range : size < 2 ^ 32) :
    printGroups words (some gap) 0 [] size = plainText words 0 gap.entry ++ ':' ::
      if 8 ≤ gap.entry + gap.count then [':']
      else plainText words (gap.entry + gap.count) (8 - (gap.entry + gap.count)) := by
  have positive := gap.positive
  have length := plainText_length small 0 gap.entry
  unfold inet6Addrstrlen at fits
  have outside : ∀ index, index ≠ gap.entry → gapAt (some gap) index = none := by
    intro index other
    simp [gapAt, Option.filter, Ne.symm other]
  have start := @printGroups_plain words (some gap) small gap.entry 0 size [] (by omega)
    (fun index _ upper => outside index (by omega)) (by omega) range
  have found : gapAt (some gap) gap.entry = some gap := by simp [gapAt, Option.filter]
  have colon : printAt (plainText words 0 gap.entry)
      (size - (plainText words 0 gap.entry).length) [':'] =
      (plainText words 0 gap.entry ++ [':'], size - (plainText words 0 gap.entry).length - 1) :=
    printAt_fits (by rw [length_singleton]; omega) (by omega)
  rw [start, Nat.zero_add, nil_append, printGroups, if_pos (by omega), found]
  rw [colon]
  dsimp only
  split_ifs with last
  · rw [printAt_fits (by rw [length_singleton]; omega) (by omega)]
    simp
  · rw [printGroups_plain small (8 - (gap.entry + gap.count)) (by omega)
      (fun index lower _ => outside index (by omega)) (by omega) (by omega), printGroups,
      if_neg (by omega)]
    simp

theorem printGroups_full {size : Nat} (fits : inet6Addrstrlen ≤ size) (range : size < 2 ^ 32) :
    printGroups words none 0 [] size = plainText words 0 8 := by
  unfold inet6Addrstrlen at fits
  rw [printGroups_plain small 8 (by omega) (fun _ _ _ => rfl) (by omega) range, printGroups,
    if_neg (by omega), nil_append]

end

/-- The texts of groups from a place on. -/
def groupTexts (words : List Nat) (start count : Nat) : List (List Char) :=
  (List.range' start count).map (fun index => Nat.toDigits 16 (words.getD index 0))

theorem digits_plainText (words : List Nat) (start count : Nat) :
    Nat.toDigits 16 (words.getD start 0) ++ plainText words (start + 1) count =
      [':'].intercalate (groupTexts words start (count + 1)) := by
  induction count generalizing start with
  | zero => simp [plainText, groupTexts, intercalate]
  | succ count ih =>
    have later := ih (start + 1)
    have positive : 0 < start + 1 := Nat.succ_pos start
    simp only [plainText, if_pos positive, append_assoc, later]
    simp [groupTexts, intercalate, range'_succ]

theorem plainText_zero (words : List Nat) (count : Nat) :
    plainText words 0 count = [':'].intercalate (groupTexts words 0 count) := by
  cases count with
  | zero => simp [plainText, groupTexts, intercalate]
  | succ count => simpa [plainText] using digits_plainText words 0 count

theorem groupTexts_groups (small : ∀ index, words.getD index 0 < 65536) (start count : Nat) :
    ∀ group ∈ groupTexts words start count, Group group := by
  intro group member
  obtain ⟨index, _, rfl⟩ := mem_map.1 member
  exact toDigits_group (small index)

theorem groupTexts_values (words : List Nat) (start count : Nat) :
    (groupTexts words start count).map (valueOf 16) =
      (range' start count).map (fun index => words.getD index 0) := by
  simp [groupTexts, (toDigits_spec _).1]

end Print

section Bytes

theorem bytesOf_getD (groups : List Nat) (group : Nat) :
    (bytesOf groups).getD (2 * group) 0 = groups.getD group 0 / 256 % 256 ∧
      (bytesOf groups).getD (2 * group + 1) 0 = groups.getD group 0 % 256 := by
  induction groups generalizing group with
  | nil => simp [bytesOf]
  | cons first groups ih =>
    cases group with
    | zero => simp [bytesOf]
    | succ group =>
      have later := ih group
      exact later

/-- The groups of an address with these groups on the left and on the right. -/
def groupOf (left right : List Nat) (group : Nat) : Nat :=
  if group < left.length then left.getD group 0
  else if 8 - right.length ≤ group then right.getD (group - (8 - right.length)) 0
  else 0

theorem addressOf_groupOf {left right : List Nat} (few : right.length ≤ 8) (group : Nat) :
    addressOf left right (2 * group) = groupOf left right group / 256 % 256 ∧
      addressOf left right (2 * group + 1) = groupOf left right group % 256 := by
  have firstLow : 2 * group < 2 * left.length ↔ group < left.length := by omega
  have secondLow : 2 * group + 1 < 2 * left.length ↔ group < left.length := by omega
  have firstHigh : 16 - 2 * right.length ≤ 2 * group ↔ 8 - right.length ≤ group := by omega
  have secondHigh : 16 - 2 * right.length ≤ 2 * group + 1 ↔ 8 - right.length ≤ group := by omega
  simp only [addressOf, groupOf, firstLow, secondLow, firstHigh, secondHigh]
  split_ifs with low high
  · exact bytesOf_getD left group
  · rw [show 2 * group - (16 - 2 * right.length) = 2 * (group - (8 - right.length)) by omega,
      show 2 * group + 1 - (16 - 2 * right.length) = 2 * (group - (8 - right.length)) + 1 by omega]
    exact bytesOf_getD right (group - (8 - right.length))
  · exact ⟨rfl, rfl⟩

theorem addressOf_groups {address : Nat → Nat} (bytes : ∀ index < 16, address index < 256)
    {left right : List Nat} (few : right.length ≤ 8)
    (same : ∀ group < 8, groupOf left right group = groupAt address group) {index : Nat}
    (inside : index < 16) : addressOf left right index = address index := by
  have group := @addressOf_groupOf left right few (index / 2)
  have high := bytes (2 * (index / 2)) (by omega)
  have low := bytes (2 * (index / 2) + 1) (by omega)
  rw [same (index / 2) (by omega), groupAt] at group
  by_cases even : index % 2 = 0
  · have place : 2 * (index / 2) = index := by omega
    rw [place] at group high low
    omega
  · have place : 2 * (index / 2) + 1 = index := by omega
    rw [place] at group low
    omega

end Bytes

theorem with_compressed {left right : List (List Char)} (eachLeft : ∀ group ∈ left, Group group)
    (eachRight : ∀ group ∈ right, Group group) :
    let src := [':'].intercalate left ++ ':' :: ':' :: [':'].intercalate right
    leftWith (innerOf src) (lastOf src) = left ∧
      rightWith (innerOf src) (lastOf src) = padded right := by
  have fields := fields_compressed eachLeft eachRight
  have eachInner : ∀ group ∈ right.dropLast, Group group :=
    fun group member => eachRight group (dropLast_subset _ member)
  dsimp only at fields ⊢
  rw [fields.1, fields.2]
  unfold leftWith rightWith
  rw [if_pos (by simp), if_pos (by simp), leftOf_padded eachLeft, rightOf_padded eachLeft eachInner,
    padded_eq right]
  exact ⟨rfl, rfl⟩

theorem with_full {groups : List (List Char)} (each : ∀ group ∈ groups, Group group)
    (nonempty : groups ≠ []) :
    let src := [':'].intercalate groups
    leftWith (innerOf src) (lastOf src) = groups ∧ rightWith (innerOf src) (lastOf src) = [] := by
  have fields := fields_full each nonempty
  have absent := not_mem_groups (fun group member => each group (dropLast_subset _ member))
  dsimp only
  rw [fields.1, fields.2]
  unfold leftWith rightWith
  rw [if_neg absent, if_neg absent, dropLast_concat_getLast nonempty]
  exact ⟨rfl, rfl⟩

theorem groupOf_full (words : List Nat) {group : Nat} (inside : group < 8) :
    groupOf ((groupTexts words 0 8).map (valueOf 16)) [] group = words.getD group 0 := by
  rw [groupTexts_values]
  simp [groupOf, getD_eq_getElem?_getD, inside]

/-- The groups of an address that is printed with a gap. -/
theorem groupOf_gap {words : List Nat} {gap : Gap} (zero : ZeroRun words gap) {group : Nat}
    (inside : group < 8) :
    groupOf ((groupTexts words 0 gap.entry).map (valueOf 16))
      ((padded (groupTexts words (gap.entry + gap.count)
        (8 - (gap.entry + gap.count)))).map (valueOf 16)) group = words.getD group 0 := by
  have fits := zero.1
  have right : (padded (groupTexts words (gap.entry + gap.count)
        (8 - (gap.entry + gap.count)))).map (valueOf 16) =
      if gap.entry + gap.count = 8 then [0]
      else (range' (gap.entry + gap.count) (8 - (gap.entry + gap.count))).map
        (fun index => words.getD index 0) := by
    unfold padded
    by_cases whole : gap.entry + gap.count = 8
    · simp [whole, groupTexts, valueOf]
    · have more : groupTexts words (gap.entry + gap.count) (8 - (gap.entry + gap.count)) ≠ [] := by
        rw [← length_pos_iff, groupTexts, length_map, length_range']
        omega
      rw [if_neg more, if_neg whole, groupTexts_values]
  rw [right, groupTexts_values]
  unfold groupOf
  by_cases left : group < gap.entry
  · simp [getD_eq_getElem?_getD, left]
  rw [if_neg (by simpa using left)]
  by_cases whole : gap.entry + gap.count = 8
  · have empty := zero.2 group (by omega) (by omega)
    rw [empty]
    split_ifs with last
    · have only : group - (8 - [0].length) = 0 := by
        simp only [length_singleton] at last ⊢
        omega
      rw [only]
      rfl
    · rfl
  · rw [if_neg whole, length_map, length_range']
    by_cases behind : gap.entry + gap.count ≤ group
    · rw [if_pos (by omega)]
      have place : group - (8 - (8 - (gap.entry + gap.count))) =
          group - (gap.entry + gap.count) := by omega
      have count : group - (gap.entry + gap.count) < 8 - (gap.entry + gap.count) := by omega
      rw [place]
      simp [getD_eq_getElem?_getD, count,
        show gap.entry + gap.count + (group - (gap.entry + gap.count)) = group by omega]
    · rw [if_neg (by omega)]
      exact (zero.2 group (by omega) (by omega)).symm

section RoundTrip

variable {address : Nat → Nat} {mem : Memory} {words : List Nat}

/-- The parser returns the address. -/
def Returns (address : Nat → Nat) (mem : Memory) (text : List Char) : Prop :=
  (inetIpv6Pton text mem).ret = 1 ∧
    ∀ index < 16, (inetIpv6Pton text mem).mem.bytes .dest index = address index

theorem Loose.returns {text : List Char} (loose : Loose text) (fresh : mem.touched = [])
    (bytes : ∀ index < 16, address index < 256)
    (few : (rightWith (innerOf text) (lastOf text)).length ≤ 8)
    (same : ∀ group < 8, groupOf ((leftWith (innerOf text) (lastOf text)).map (valueOf 16))
      ((rightWith (innerOf text) (lastOf text)).map (valueOf 16)) group = groupAt address group) :
    Returns address mem text := by
  have accepted := (inetIpv6Pton_ret fresh).2 loose
  refine ⟨accepted, ?_⟩
  intro index inside
  obtain ⟨ending, reads, result⟩ := inetIpv6Pton_fine fresh loose.fine loose.plain
  rw [result] at accepted ⊢
  rw [finish_dest (reads.push (lastOf _)) accepted inside]
  exact addressOf_groups bytes (by rwa [length_map]) same inside

theorem returns_full (fresh : mem.touched = []) (bytes : ∀ index < 16, address index < 256)
    (small : ∀ index, words.getD index 0 < 65536)
    (group : ∀ index < 8, words.getD index 0 = groupAt address index) :
    Returns address mem (printGroups words none 0 [] inet6Addrstrlen) := by
  have each := groupTexts_groups small 0 8
  have parts := with_full each (by simp [groupTexts])
  rw [printGroups_full small (le_refl _) (by decide), plainText_zero]
  apply (Address6.full _ each (by simp [groupTexts])).loose.returns fresh bytes
  · rw [parts.2]
    decide
  · intro place below
    rw [parts.1, parts.2, ← group place below]
    exact groupOf_full words below

theorem printGroups_compressed (small : ∀ index, words.getD index 0 < 65536) {gap : Gap}
    (fits : gap.entry + gap.count ≤ 8) :
    printGroups words (some gap) 0 [] inet6Addrstrlen =
      [':'].intercalate (groupTexts words 0 gap.entry) ++ ':' :: ':' ::
        [':'].intercalate (groupTexts words (gap.entry + gap.count)
          (8 - (gap.entry + gap.count))) := by
  have positive := gap.positive
  rw [printGroups_gap small fits (le_refl _) (by decide), plainText_zero]
  split_ifs with last
  · have empty : 8 - (gap.entry + gap.count) = 0 := by omega
    simp [empty, groupTexts, intercalate]
  · obtain ⟨count, more⟩ : ∃ count, 8 - (gap.entry + gap.count) = count + 1 :=
      ⟨8 - (gap.entry + gap.count) - 1, by omega⟩
    have positive : 0 < gap.entry + gap.count := by omega
    rw [more, ← digits_plainText]
    simp [plainText, positive]

theorem returns_gap (fresh : mem.touched = []) (bytes : ∀ index < 16, address index < 256)
    (small : ∀ index, words.getD index 0 < 65536)
    (group : ∀ index < 8, words.getD index 0 = groupAt address index) {gap : Gap}
    (run : ZeroRun words gap) :
    Returns address mem (printGroups words (some gap) 0 [] inet6Addrstrlen) := by
  have positive := gap.positive
  have fits := run.1
  have eachLeft := groupTexts_groups small 0 gap.entry
  have eachRight := groupTexts_groups small (gap.entry + gap.count) (8 - (gap.entry + gap.count))
  have few : (groupTexts words 0 gap.entry).length + (groupTexts words (gap.entry + gap.count)
      (8 - (gap.entry + gap.count))).length ≤ 7 := by
    simp only [groupTexts, length_map, length_range']
    omega
  have parts := with_compressed eachLeft eachRight
  rw [printGroups_compressed small fits]
  apply (Address6.compressed _ _ eachLeft eachRight few).loose.returns fresh bytes
  · rw [parts.2, padded]
    split_ifs
    · decide
    · omega
  · intro place below
    rw [parts.1, parts.2, ← group place below]
    exact groupOf_gap run below

end RoundTrip

/-- Every address is printed into a buffer of `INET6_ADDRSTRLEN` bytes as a text that the parser
turns back into the address. -/
theorem ntop_pton (address : Nat → Nat) (mem : Memory)
    (bytes : ∀ index < 16, address index < 256) (fresh : mem.touched = []) :
    ∃ text, inetIpv6Ntop address inet6Addrstrlen = some text ∧
      (inetIpv6Pton text mem).ret = 1 ∧
      ∀ index < 16, (inetIpv6Pton text mem).mem.bytes .dest index = address index := by
  obtain ⟨words, array⟩ : ∃ words, words = (List.range 8).map (groupAt address) := ⟨_, rfl⟩
  have group : ∀ index < 8, words.getD index 0 = groupAt address index := by
    intro index inside
    simp [array, getD_eq_getElem?_getD, inside]
  have small : ∀ index, words.getD index 0 < 65536 := by
    intro index
    by_cases inside : index < 8
    · have high := bytes (2 * index) (by omega)
      have low := bytes (2 * index + 1) (by omega)
      rw [group index inside, groupAt]
      omega
    · rw [getD_eq_default _ _ (by simpa [array] using inside)]
      decide
  have zero := findGap_zero words (by simp [array]) 0 none (by simp)
  have printed : inetIpv6Ntop address inet6Addrstrlen =
      some (printGroups words (findGap words 0 none) 0 [] inet6Addrstrlen) := by
    simp [inetIpv6Ntop, array]
  refine ⟨_, printed, ?_⟩
  cases found : findGap words 0 none with
  | none => exact returns_full fresh bytes small group
  | some gap => exact returns_gap fresh bytes small group (zero gap (by simp [found]))

/-- The address `2001:db8::1` goes through its text. -/
theorem ntop_pton_sample :
    ∃ text, inetIpv6Ntop (fun index => [0x20, 1, 0x0d, 0xb8].getD index (index / 15))
        inet6Addrstrlen = some text ∧
      (inetIpv6Pton text blank).ret = 1 ∧
      ∀ index < 16, (inetIpv6Pton text blank).mem.bytes .dest index =
        [0x20, 1, 0x0d, 0xb8].getD index (index / 15) :=
  ntop_pton (fun index => [0x20, 1, 0x0d, 0xb8].getD index (index / 15)) blank (by decide) rfl

end Chewie.Libc.Net
