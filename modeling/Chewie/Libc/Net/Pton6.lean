import Chewie.Libc.Net.Pton4
import Mathlib.Data.List.TakeWhile

/-!
# Parsing IPv6 addresses

`inet_ipv6_pton` reads fields between colons. The fields before the first empty field are groups of
the left part, the fields behind it are groups of the right part, and the last field is a group even
when it is empty. This module says which texts that accepts, which indices it uses, and what it
stores.
-/

namespace Chewie.Libc.Net

open List Function Memory Fields Scan6

/-- At most four hexadecimal digits. -/
@[mk_iff]
structure Plain (field : List Char) : Prop where
  hexadecimal : ∀ ch ∈ field, isHexadecimal ch = true
  short : field.length ≤ 4

instance decidablePlain (field : List Char) : Decidable (Plain field) :=
  decidable_of_iff (field.all isHexadecimal = true ∧ field.length ≤ 4)
    (by rw [plain_iff, all_eq_true])

theorem isDigits_of_hexadecimal {field : List Char}
    (hexadecimal : ∀ ch ∈ field, isHexadecimal ch = true) : IsDigits 16 field := by
  intro ch member
  have code := hexadecimal ch member
  simp only [isHexadecimal, Bool.or_eq_true, Bool.and_eq_true, decide_eq_true_eq] at code
  unfold digitValue
  rcases code with (decimal | lower) | upper
  · exact ⟨_, by omega, if_pos decimal⟩
  · exact ⟨ch.toNat - 0x61 + 10, by omega, by rw [if_neg (by omega), if_pos (by omega)]⟩
  · exact ⟨ch.toNat - 0x41 + 10, by omega, by
      rw [if_neg (by omega), if_neg (by omega), if_pos (by omega)]⟩

theorem Plain.value_lt {field : List Char} (plain : Plain field) : valueOf 16 field < 65536 := by
  have bound := valueOf_lt (by decide) (isDigits_of_hexadecimal plain.hexadecimal)
  have power : 16 ^ field.length ≤ 16 ^ 4 := Nat.pow_le_pow_right (by decide) plain.short
  omega

theorem Plain.strtol_eq {field : List Char} (plain : Plain field) :
    (strtol field 16).1 = valueOf 16 field := by
  have small := plain.value_lt
  have result := strtol_digits (by decide) (by decide)
    (isDigits_of_hexadecimal plain.hexadecimal) (by omega)
  exact congrArg Prod.fst result

/-- Store a number as the next group. -/
def Scan6.push (scan : Scan6) (value : Nat) : Scan6 :=
  if scan.rtime then
    { scan with nrsep := scan.nrsep + 1, mem := scan.mem.storeGroup .rip scan.nrsep value }
  else { scan with nsep := scan.nsep + 1, mem := scan.mem.storeGroup .ip scan.nsep value }

theorem Plain.storeField_eq {field : List Char} (plain : Plain field) (scan : Scan6) :
    scan.storeField field = some (scan.push (valueOf 16 field)) := by
  have small := plain.value_lt
  unfold storeField push
  rw [plain.strtol_eq]
  rw [if_neg (by omega)]
  split <;> rfl

theorem scan6_field {field : List Char} (absent : ':' ∉ field) (src : List Char) (scan : Scan6) :
    scan6 (field ++ src) [] scan = if Plain field then scan6 src field scan else ⟨0, scan.mem⟩ := by
  have each : ∀ ch rest done (scan : Scan6), ch ≠ ':' → scan6 (ch :: rest) done scan =
      if isHexadecimal ch then
        if 5 ≤ (done ++ [ch]).length then ⟨0, scan.mem⟩ else scan6 rest (done ++ [ch]) scan
      else ⟨0, scan.mem⟩ := by
    intro ch rest done scan other
    simp only [scan6, if_neg other]
  rw [loop_collect each absent src [] scan (by decide)]
  by_cases plain : Plain field
  · rw [if_pos ⟨all_eq_true.2 plain.hexadecimal, Nat.lt_succ_of_le plain.short⟩, if_pos plain]
    rfl
  · rw [if_neg (fun both => plain ⟨all_eq_true.1 both.1, Nat.le_of_lt_succ both.2⟩), if_neg plain]

/-- What a field that a colon ends does. -/
def step6 (scan : Scan6) (field : List Char) : Except Pton Scan6 :=
  if Plain field ∧ scan.nsep + scan.nrsep < 8 ∧ ¬(field = [] ∧ scan.rtime ∧ 1 < scan.nrsep) then
    .ok (if field = [] then { scan with rtime := true } else scan.push (valueOf 16 field))
  else .error ⟨0, scan.mem⟩

/-- What the last field does. -/
def finish6 (scan : Scan6) (field : List Char) : Pton :=
  if Plain field then (scan.push (valueOf 16 field)).finish else ⟨0, scan.mem⟩

theorem scan6_eq (src : List Char) (scan : Scan6) :
    scan6 src [] scan = readFields step6 finish6 (src.splitOn ':') scan := by
  apply @loop_eq_readFields _ _ _ _ ':' step6 finish6 (fun src scan => scan6 src [] scan)
  · intro field scan absent
    have read := scan6_field absent [] scan
    rw [append_nil] at read
    rw [read, finish6]
    by_cases plain : Plain field
    · simp [scan6, plain.storeField_eq]
    · simp [plain]
  · intro field rest scan absent
    rw [scan6_field absent, step6]
    by_cases plain : Plain field
    · by_cases full : 8 ≤ scan.nsep + scan.nrsep
      · simp [plain, scan6, full, Nat.not_lt.2 full]
      by_cases empty : field = []
      · subst empty
        by_cases again : scan.rtime = true ∧ 1 < scan.nrsep
        · simp [plain, scan6, full, again]
        · simp [plain, scan6, full, again, Nat.not_le.1 full]
      · simp [plain, scan6, full, empty, Nat.not_le.1 full, plain.storeField_eq]
    · simp [plain]

/-- The groups before the first empty field. -/
def leftOf (fields : List (List Char)) : List (List Char) := fields.takeWhile (· ≠ [])

/-- The groups behind the first empty field. -/
def rightOf (fields : List (List Char)) : List (List Char) :=
  (fields.dropWhile (· ≠ [])).filter (· ≠ [])

section Groups

variable {fields : List (List Char)} {field : List Char}

theorem leftOf_of_not_mem (absent : [] ∉ fields) : leftOf fields = fields := by
  apply takeWhile_eq_self_iff.2
  intro field member
  simp only [ne_eq, decide_not, Bool.not_eq_eq_eq_not, Bool.not_true, decide_eq_false_iff_not]
  exact fun empty => absent (empty ▸ member)

theorem rightOf_of_not_mem (absent : [] ∉ fields) : rightOf fields = [] := by
  unfold rightOf
  rw [dropWhile_eq_nil_iff.2, filter_nil]
  intro field member
  simp only [ne_eq, decide_not, Bool.not_eq_eq_eq_not, Bool.not_true, decide_eq_false_iff_not]
  exact fun empty => absent (empty ▸ member)

theorem leftOf_append (present : [] ∈ fields) (more : List (List Char)) :
    leftOf (fields ++ more) = leftOf fields := by
  unfold leftOf
  rw [takeWhile_append]
  split
  · rename_i whole
    have all := takeWhile_eq_self_iff.1 (IsPrefix.eq_of_length
      ( takeWhile_prefix _) whole) [] present
    simp at all
  · rfl

theorem rightOf_append (present : [] ∈ fields) (more : List (List Char)) :
    rightOf (fields ++ more) = rightOf fields ++ more.filter (· ≠ []) := by
  unfold rightOf
  rw [dropWhile_append]
  split
  · rename_i nothing
    have all := dropWhile_eq_nil_iff.1 (isEmpty_iff.1 nothing) [] present
    simp at all
  · rw [filter_append]

end Groups

/-- The bytes of groups, the high byte first. -/
def bytesOf (groups : List Nat) : List Nat :=
  groups.flatMap (fun group => [group / 256 % 256, group % 256])

theorem bytesOf_length (groups : List Nat) : (bytesOf groups).length = 2 * groups.length := by
  induction groups with
  | nil => rfl
  | cons group groups ih =>
    simp only [bytesOf, flatMap_cons, length_append, length_cons, length_nil] at ih ⊢
    omega

/-- An array starts with these bytes. -/
def Memory.Starts (mem : Memory) (buffer : Buffer) (bytes : List Nat) : Prop :=
  ∀ index < bytes.length, mem.bytes buffer index = bytes.getD index 0

section Starts

variable {mem : Memory} {buffer other : Buffer} {bytes : List Nat} {value : Nat}

theorem Memory.Starts.store (starts : mem.Starts buffer bytes) :
    (mem.store buffer bytes.length value).Starts buffer (bytes ++ [value]) := by
  intro index inside
  rw [length_append, length_singleton] at inside
  by_cases last : index = bytes.length
  · subst last
    simp [Memory.store]
  · have before : index < bytes.length := by omega
    simp only [Memory.store, update_self, update_of_ne last, starts index before]
    simp [getD_eq_getElem?_getD, getElem?_append_left before]

theorem Memory.Starts.store_other (starts : mem.Starts buffer bytes) (different : buffer ≠ other)
    (index : Nat) : (mem.store other index value).Starts buffer bytes := by
  intro place inside
  simp only [Memory.store, update_of_ne different, starts place inside]

theorem Memory.Starts.storeGroup {groups : List Nat} (starts : mem.Starts buffer (bytesOf groups)) :
    (mem.storeGroup buffer groups.length value).Starts buffer (bytesOf (groups ++ [value])) := by
  have first := @Starts.store mem buffer (bytesOf groups) (value / 256 % 256) starts
  have second := @Starts.store _ buffer _ (value % 256) first
  simp only [length_append, length_singleton, bytesOf_length] at second
  have joined : bytesOf (groups ++ [value]) =
      bytesOf groups ++ [value / 256 % 256] ++ [value % 256] := by
    simp [bytesOf, flatMap_append]
  rw [joined]
  exact second

theorem Memory.Starts.storeGroup_other (starts : mem.Starts buffer bytes)
    (different : buffer ≠ other) (group : Nat) :
    (mem.storeGroup other group value).Starts buffer bytes :=
  (starts.store_other different _).store_other different _

theorem within_storeGroup {group half : Nat} :
    (mem.storeGroup buffer group value).Within (2 * half) ↔
      group < half ∧ mem.Within (2 * half) := by
  simp only [storeGroup, within_store]
  constructor
  · rintro ⟨high, _, within⟩
    exact ⟨by omega, within⟩
  · rintro ⟨below, within⟩
    exact ⟨by omega, by omega, within⟩

end Starts

section Copy

variable {mem : Memory} {source : Buffer} {offset count : Nat}

theorem memcpy_bytes (different : source ≠ .dest) (buffer : Buffer) (index : Nat) :
    (mem.memcpy offset source count).bytes buffer index =
      if buffer = .dest ∧ offset ≤ index ∧ index < offset + count then
        mem.bytes source (index - offset)
      else mem.bytes buffer index := by
  induction count generalizing buffer index with
  | zero => simp [memcpy]
  | succ count ih =>
    simp only [memcpy, store, load]
    by_cases result : buffer = .dest
    · subst result
      by_cases last : index = offset + count
      · subst last
        have kept := ih source count
        rw [if_neg (fun both => different both.1)] at kept
        simp [kept]
      · rw [update_self, update_of_ne last, ih .dest index]
        by_cases inside : offset ≤ index ∧ index < offset + count
        · rw [if_pos ⟨rfl, inside⟩, if_pos ⟨rfl, by omega⟩]
        · rw [if_neg (fun both => inside both.2), if_neg (fun both => inside ⟨both.2.1, by omega⟩)]
    · rw [update_of_ne result, ih buffer index, if_neg (fun both => result both.1),
        if_neg (fun both => result both.1)]

theorem within_memcpy {bound : Nat} (fits : offset + count ≤ bound) :
    (mem.memcpy offset source count).Within bound ↔ mem.Within bound := by
  induction count with
  | zero => rfl
  | succ count ih =>
    have before := ih (by omega)
    simp only [memcpy, within_store]
    rw [← before]
    simp only [load, Within, forall_mem_cons]
    exact ⟨fun all => all.2.2, fun all => ⟨by omega, by omega, all⟩⟩

end Copy

/-- The groups that are stored so far, with a result that is still clear. -/
structure Holds (scan : Scan6) (left right : List (List Char)) : Prop where
  nsep : scan.nsep = left.length
  nrsep : scan.nrsep = right.length
  ip : scan.mem.Starts .ip (bytesOf (left.map (valueOf 16)))
  rip : scan.mem.Starts .rip (bytesOf (right.map (valueOf 16)))
  dest : ∀ index < 16, scan.mem.bytes .dest index = 0

section Push

variable {scan : Scan6} {left right : List (List Char)}

theorem Holds.push_left (holds : Holds scan left right) (field : List Char)
    (before : scan.rtime = false) : Holds (scan.push (valueOf 16 field)) (left ++ [field]) right := by
  have index : scan.nsep = (left.map (valueOf 16)).length := by rw [length_map, holds.nsep]
  simp only [push, before, Bool.false_eq_true, ↓reduceIte]
  refine ⟨by simp [holds.nsep], holds.nrsep, ?_, holds.rip.storeGroup_other (by decide) _, ?_⟩
  · rw [map_append, index]
    exact holds.ip.storeGroup
  · intro place inside
    exact holds.dest place inside

theorem Holds.push_right (holds : Holds scan left right) (field : List Char)
    (behind : scan.rtime = true) : Holds (scan.push (valueOf 16 field)) left (right ++ [field]) := by
  have index : scan.nrsep = (right.map (valueOf 16)).length := by rw [length_map, holds.nrsep]
  simp only [push, behind, ↓reduceIte]
  refine ⟨holds.nsep, by simp [holds.nrsep], holds.ip.storeGroup_other (by decide) _, ?_, ?_⟩
  · rw [map_append, index]
    exact holds.rip.storeGroup
  · intro place inside
    exact holds.dest place inside

theorem finish_ret (holds : Holds scan left right) :
    scan.finish.ret = 1 ↔
      ¬(left.length ≤ 1 ∧ right.length = 0) ∧ left.length + right.length ≤ 8 := by
  unfold finish
  rw [holds.nsep, holds.nrsep]
  split_ifs with problem
  · simp only [false_iff]
    omega
  · simp only [true_iff]
    omega

theorem within_finish (scan : Scan6) : scan.finish.mem.Within 16 ↔ scan.mem.Within 16 := by
  unfold finish
  split_ifs with problem
  · rfl
  · rw [within_memcpy (by omega), within_memcpy (by omega)]

/-- The bytes of an address with these groups on the left and on the right. -/
def addressOf (left right : List Nat) (index : Nat) : Nat :=
  if index < 2 * left.length then (bytesOf left).getD index 0
  else if 16 - 2 * right.length ≤ index then
    (bytesOf right).getD (index - (16 - 2 * right.length)) 0
  else 0

theorem finish_dest (holds : Holds scan left right) (accepted : scan.finish.ret = 1) {index : Nat}
    (inside : index < 16) :
    scan.finish.mem.bytes .dest index =
      addressOf (left.map (valueOf 16)) (right.map (valueOf 16)) index := by
  have few := ((finish_ret holds).1 accepted).2
  have copied : scan.finish.mem =
      (scan.mem.memcpy 0 .ip (2 * scan.nsep)).memcpy (16 - 2 * scan.nrsep) .rip
        (2 * scan.nrsep) := by
    unfold finish at accepted ⊢
    split_ifs at accepted ⊢ with problem
    rfl
  have ip := holds.ip
  have rip := holds.rip
  unfold Starts at ip rip
  rw [bytesOf_length, length_map] at ip rip
  rw [copied, memcpy_bytes (by decide), memcpy_bytes (by decide), memcpy_bytes (by decide),
    holds.nsep, holds.nrsep]
  simp only [addressOf, length_map, reduceCtorEq, false_and, ↓reduceIte, true_and,
    Nat.zero_le, Nat.zero_add, Nat.sub_zero]
  by_cases low : index < 2 * left.length
  · have notHigh : ¬(16 - 2 * right.length ≤ index ∧
        index < 16 - 2 * right.length + 2 * right.length) := by omega
    rw [if_neg notHigh, if_pos low, if_pos low, ip index low]
  · by_cases high : 16 - 2 * right.length ≤ index
    · rw [if_pos ⟨high, by omega⟩, if_neg low, if_pos high, rip _ (by omega)]
    · rw [if_neg (fun both => high both.1), if_neg low, if_neg low, if_neg high,
        holds.dest index inside]

end Push

/-- The groups on the left when this field is the last group. -/
def leftWith (fields : List (List Char)) (last : List Char) : List (List Char) :=
  if [] ∈ fields then leftOf fields else fields ++ [last]

/-- The groups on the right when this field is the last group. -/
def rightWith (fields : List (List Char)) (last : List Char) : List (List Char) :=
  if [] ∈ fields then rightOf fields ++ [last] else []

/-- The scan has read these fields. -/
structure Reads (scan : Scan6) (fields : List (List Char)) : Prop where
  holds : Holds scan (leftOf fields) (rightOf fields)
  rtime : scan.rtime = true ↔ [] ∈ fields
  within : scan.mem.Within 16

/-- The field can follow these fields, with a colon behind it. -/
def Admissible (fields : List (List Char)) (field : List Char) : Prop :=
  Plain field ∧ (leftOf fields).length + (rightOf fields).length < 8 ∧
    ¬(field = [] ∧ 1 < (rightOf fields).length)

section Read

variable {scan : Scan6} {fields : List (List Char)} {field : List Char}

theorem leftOf_snoc (nonempty : field ≠ []) : leftOf (fields ++ [field]) = leftWith fields field := by
  unfold leftWith
  split_ifs with present
  · exact leftOf_append present [field]
  · apply leftOf_of_not_mem
    simp [present, nonempty.symm]

theorem rightOf_snoc (nonempty : field ≠ []) :
    rightOf (fields ++ [field]) = rightWith fields field := by
  unfold rightWith
  split_ifs with present
  · simp [rightOf_append present, nonempty]
  · apply rightOf_of_not_mem
    simp [present, nonempty.symm]

theorem leftOf_snoc_empty (fields : List (List Char)) : leftOf (fields ++ [[]]) = leftOf fields := by
  by_cases present : [] ∈ fields
  · exact leftOf_append present [[]]
  · have all := leftOf_of_not_mem present
    unfold leftOf at all ⊢
    rw [takeWhile_append, all]
    simp

theorem rightOf_snoc_empty (fields : List (List Char)) :
    rightOf (fields ++ [[]]) = rightOf fields := by
  by_cases present : [] ∈ fields
  · simp [rightOf_append present]
  rw [rightOf_of_not_mem present]
  unfold rightOf
  rw [dropWhile_append]
  split
  · simp
  · rename_i nonempty
    refine absurd ?_ nonempty
    rw [List.isEmpty_iff, List.dropWhile_eq_nil_iff]
    intro field member
    simp only [ne_eq, decide_not, Bool.not_eq_eq_eq_not, Bool.not_true, decide_eq_false_iff_not]
    exact fun empty => present (empty ▸ member)

theorem Reads.push (reads : Reads scan fields) (field : List Char) :
    Holds (scan.push (valueOf 16 field)) (leftWith fields field) (rightWith fields field) := by
  unfold leftWith rightWith
  by_cases present : [] ∈ fields
  · rw [if_pos present, if_pos present]
    exact reads.holds.push_right field (reads.rtime.2 present)
  have before : scan.rtime = false := by
    rw [Bool.eq_false_iff]
    exact fun behind => present (reads.rtime.1 behind)
  have holds := reads.holds.push_left field before
  rw [leftOf_of_not_mem present, rightOf_of_not_mem present] at holds
  rwa [if_neg present, if_neg present]

theorem Reads.within_push (reads : Reads scan fields) (value : Nat) :
    (scan.push value).mem.Within 16 ↔
      if [] ∈ fields then (rightOf fields).length < 8 else fields.length < 8 := by
  unfold Scan6.push
  by_cases present : [] ∈ fields
  · rw [if_pos (reads.rtime.2 present), if_pos present, ← reads.holds.nrsep]
    have bound := @within_storeGroup scan.mem .rip value scan.nrsep 8
    simp only [reads.within, and_true] at bound
    exact bound
  have count := reads.holds.nsep
  rw [leftOf_of_not_mem present] at count
  rw [if_neg (fun behind => present (reads.rtime.1 behind)), if_neg present, ← count]
  have bound := @within_storeGroup scan.mem .ip value scan.nsep 8
  simp only [reads.within, and_true] at bound
  exact bound

theorem Reads.step (reads : Reads scan fields) (admissible : Admissible fields field) :
    ∃ next, step6 scan field = .ok next ∧ Reads next (fields ++ [field]) := by
  obtain ⟨plain, few, fresh⟩ := admissible
  have taken : Plain field ∧ scan.nsep + scan.nrsep < 8 ∧
      ¬(field = [] ∧ scan.rtime = true ∧ 1 < scan.nrsep) := by
    rw [reads.holds.nsep, reads.holds.nrsep]
    exact ⟨plain, few, fun both => fresh ⟨both.1, both.2.2⟩⟩
  refine ⟨_, if_pos taken, ?_⟩
  by_cases empty : field = []
  · subst empty
    refine ⟨?_, by simp, reads.within⟩
    rw [leftOf_snoc_empty, rightOf_snoc_empty]
    exact ⟨reads.holds.nsep, reads.holds.nrsep, reads.holds.ip, reads.holds.rip, reads.holds.dest⟩
  rw [if_neg empty]
  refine ⟨?_, ?_, ?_⟩
  · rw [leftOf_snoc empty, rightOf_snoc empty]
    exact reads.push field
  · have same : (scan.push (valueOf 16 field)).rtime = scan.rtime := by
      unfold Scan6.push
      split <;> rfl
    rw [same, reads.rtime]
    simp [Ne.symm empty]
  · rw [reads.within_push]
    split_ifs with present
    · omega
    · rw [leftOf_of_not_mem present] at few
      omega

theorem Reads.step_error (reads : Reads scan fields) (refused : ¬Admissible fields field) :
    step6 scan field = .error ⟨0, scan.mem⟩ := by
  apply if_neg
  rw [reads.holds.nsep, reads.holds.nrsep]
  rintro ⟨plain, few, fresh⟩
  refine refused ⟨plain, few, ?_⟩
  rintro ⟨empty, many⟩
  refine fresh ⟨empty, ?_, many⟩
  rw [reads.rtime]
  by_contra absent
  rw [rightOf_of_not_mem absent] at many
  simp at many

end Read

/-- Every field can follow the fields before it. -/
def Fine (done inner : List (List Char)) : Prop :=
  ∀ before field after, inner = before ++ field :: after → Admissible (done ++ before) field

theorem fine_cons {done inner : List (List Char)} {field : List Char} :
    Fine done (field :: inner) ↔ Admissible done field ∧ Fine (done ++ [field]) inner := by
  constructor
  · intro fine
    refine ⟨by simpa using fine [] field inner rfl, ?_⟩
    intro before next after shape
    have later := fine (field :: before) next after (by rw [shape]; rfl)
    simpa using later
  · rintro ⟨first, fine⟩ before next after shape
    cases before with
    | nil =>
      simp only [nil_append, cons.injEq] at shape
      rw [append_nil, ← shape.1]
      exact first
    | cons head before =>
      simp only [cons_append, cons.injEq] at shape
      have later := fine before next after shape.2
      rw [shape.1] at later
      simpa using later

theorem readFields6_fine {scan : Scan6} {done : List (List Char)} (reads : Reads scan done)
    {inner : List (List Char)} {last : List Char} (fine : Fine done inner) (plain : Plain last) :
    ∃ ending, Reads ending (done ++ inner) ∧
      readFields step6 finish6 (inner ++ [last]) scan = (ending.push (valueOf 16 last)).finish := by
  induction inner generalizing scan done with
  | nil =>
    refine ⟨scan, by simpa using reads, ?_⟩
    simp [readFields, finish6, plain]
  | cons field inner ih =>
    obtain ⟨first, others⟩ := fine_cons.1 fine
    obtain ⟨next, stepped, readsNext⟩ := reads.step first
    obtain ⟨ending, readsEnd, result⟩ := ih readsNext others
    refine ⟨ending, by simpa using readsEnd, ?_⟩
    rw [← result, readFields_cons, stepped]

theorem readFields6_refused {scan : Scan6} {done : List (List Char)} (reads : Reads scan done)
    {inner : List (List Char)} {last : List Char} (refused : ¬(Fine done inner ∧ Plain last)) :
    (readFields step6 finish6 (inner ++ [last]) scan).ret = 0 ∧
      (readFields step6 finish6 (inner ++ [last]) scan).mem.Within 16 := by
  induction inner generalizing scan done with
  | nil =>
    have notPlain : ¬Plain last := by
      intro plain
      refine refused ⟨?_, plain⟩
      intro before field after shape
      simp at shape
    simp [readFields, finish6, notPlain, reads.within]
  | cons field inner ih =>
    rw [readFields_cons]
    by_cases first : Admissible done field
    · obtain ⟨next, stepped, readsNext⟩ := reads.step first
      rw [stepped]
      exact ih readsNext (fun both => refused ⟨fine_cons.2 ⟨first, both.1⟩, both.2⟩)
    · rw [reads.step_error first]
      exact ⟨rfl, reads.within⟩

end Chewie.Libc.Net
