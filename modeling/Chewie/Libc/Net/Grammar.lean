import Chewie.Libc.Net.Pton6

/-!
# The texts that the address parsers accept

The documented form of an IPv6 address has eight groups, or fewer groups and one `::`. The parser
accepts all of these, and more: the separators are counted loosely, and the last field may be empty.
It also stores a ninth group behind its arrays before it refuses the text.
-/

namespace Chewie.Libc.Net

open List Fields

/-- One to four hexadecimal digits. -/
structure Group (field : List Char) : Prop where
  plain : Plain field
  nonempty : field ≠ []

/-- The documented texts of IPv6 addresses. -/
inductive Address6 : List Char → Prop where
  | full (groups : List (List Char)) (each : ∀ group ∈ groups, Group group)
      (eight : groups.length = 8) : Address6 ([':'].intercalate groups)
  | compressed (left right : List (List Char)) (eachLeft : ∀ group ∈ left, Group group)
      (eachRight : ∀ group ∈ right, Group group) (few : left.length + right.length ≤ 7) :
      Address6 ([':'].intercalate left ++ ':' :: ':' :: [':'].intercalate right)

/-- The fields that a colon ends. -/
def innerOf (src : List Char) : List (List Char) := (src.splitOn ':').dropLast

/-- The field that the NUL ends. -/
def lastOf (src : List Char) : List Char := (src.splitOn ':').getLastD []

/-- The texts that the parser accepts: two or more plain fields, with at most seven groups before
the last field and no second gap behind two groups. -/
structure Loose (src : List Char) : Prop where
  fine : Fine [] (innerOf src)
  plain : Plain (lastOf src)
  colon : innerOf src ≠ []
  few : (leftOf (innerOf src)).length + (rightOf (innerOf src)).length ≤ 7

/-- The texts for which the last field is a ninth group of one of the arrays. -/
structure Overrun (src : List Char) : Prop where
  fine : Fine [] (innerOf src)
  plain : Plain (lastOf src)
  full : ¬if [] ∈ innerOf src then (rightOf (innerOf src)).length < 8
    else (innerOf src).length < 8

theorem splitOn_eq_inner_last (src : List Char) : src.splitOn ':' = innerOf src ++ [lastOf src] := by
  have nonempty := splitOn_ne_nil ':' src
  rw [innerOf, lastOf, getLastD_eq_getLast?, getLast?_eq_some_getLast nonempty,
    Option.getD_some, dropLast_concat_getLast nonempty]

theorem clear_bytes (mem : Memory) (count : Nat) {index : Nat} (inside : index < count) :
    (mem.clear .dest count).bytes .dest index = 0 := by
  induction count with
  | zero => omega
  | succ count ih =>
    simp only [Memory.clear, Memory.store, Function.update_self]
    by_cases last : index = count
    · rw [last, Function.update_self]
    · rw [Function.update_of_ne last]
      exact ih (by omega)

section Parser

variable {mem : Memory} {src : List Char}

theorem reads_start (fresh : mem.touched = []) : Reads ⟨0, 0, false, mem.clear .dest 16⟩ [] := by
  refine ⟨⟨rfl, rfl, ?_, ?_, fun index inside => clear_bytes mem 16 inside⟩, by simp,
    within_clear fresh 16⟩
  · intro index inside
    simp [leftOf, bytesOf] at inside
  · intro index inside
    simp [rightOf, bytesOf] at inside

theorem inetIpv6Pton_eq (src : List Char) (mem : Memory) :
    inetIpv6Pton src mem = readFields step6 finish6 (innerOf src ++ [lastOf src])
      ⟨0, 0, false, mem.clear .dest 16⟩ := by
  rw [inetIpv6Pton, scan6_eq, splitOn_eq_inner_last]

theorem inetIpv6Pton_fine (fresh : mem.touched = []) (fine : Fine [] (innerOf src))
    (plain : Plain (lastOf src)) :
    ∃ ending, Reads ending (innerOf src) ∧
      inetIpv6Pton src mem = (ending.push (valueOf 16 (lastOf src))).finish := by
  obtain ⟨ending, reads, result⟩ := readFields6_fine (reads_start fresh) fine plain
  rw [← inetIpv6Pton_eq] at result
  exact ⟨ending, reads, result⟩

/-- The parser accepts the loose texts. -/
theorem inetIpv6Pton_ret (fresh : mem.touched = []) : (inetIpv6Pton src mem).ret = 1 ↔ Loose src := by
  by_cases read : Fine [] (innerOf src) ∧ Plain (lastOf src)
  · obtain ⟨ending, reads, result⟩ := inetIpv6Pton_fine fresh read.1 read.2
    rw [result, finish_ret (reads.push (lastOf src))]
    have counts : ¬((leftWith (innerOf src) (lastOf src)).length ≤ 1 ∧
          (rightWith (innerOf src) (lastOf src)).length = 0) ∧
        (leftWith (innerOf src) (lastOf src)).length +
          (rightWith (innerOf src) (lastOf src)).length ≤ 8 ↔
        innerOf src ≠ [] ∧
          (leftOf (innerOf src)).length + (rightOf (innerOf src)).length ≤ 7 := by
      unfold leftWith rightWith
      by_cases present : [] ∈ innerOf src
      · have nonempty := length_pos_of_mem present
        rw [← length_pos_iff]
        simp only [present, ↓reduceIte, length_append, length_singleton]
        omega
      · rw [leftOf_of_not_mem present, rightOf_of_not_mem present, ← length_pos_iff]
        simp only [present, ↓reduceIte, length_append, length_singleton, length_nil, and_true]
        omega
    rw [counts]
    exact ⟨fun both => ⟨read.1, read.2, both.1, both.2⟩, fun loose => ⟨loose.colon, loose.few⟩⟩
  · have refused := readFields6_refused (reads_start fresh) read
    rw [← inetIpv6Pton_eq] at refused
    rw [refused.1]
    exact ⟨fun impossible => absurd impossible (by decide),
      fun loose => absurd ⟨loose.fine, loose.plain⟩ read⟩

theorem inetIpv6Pton_within (fresh : mem.touched = []) :
    (inetIpv6Pton src mem).mem.Within 16 ↔ ¬Overrun src := by
  by_cases read : Fine [] (innerOf src) ∧ Plain (lastOf src)
  · obtain ⟨ending, reads, result⟩ := inetIpv6Pton_fine fresh read.1 read.2
    rw [result, within_finish, reads.within_push]
    exact ⟨fun fits full => full.full fits,
      fun fits => Classical.not_not.1 (fun full => fits ⟨read.1, read.2, full⟩)⟩
  · have refused := readFields6_refused (reads_start fresh) read
    rw [← inetIpv6Pton_eq] at refused
    exact ⟨fun _ overrun => read ⟨overrun.fine, overrun.plain⟩, fun _ => refused.2⟩

end Parser

/-- The fields of groups: one empty field when there is no group. -/
def padded (groups : List (List Char)) : List (List Char) := if groups = [] then [[]] else groups

section Complete

variable {left right groups done : List (List Char)}

theorem Group.absent {group : List Char} (each : Group group) : ':' ∉ group := by
  intro member
  exact absurd (each.plain.hexadecimal ':' member) (by decide)

section

variable (each : ∀ group ∈ groups, Group group)

include each

theorem not_mem_groups : [] ∉ groups :=
  fun member => (each [] member).nonempty rfl

theorem splitOn_groups : ([':'].intercalate groups).splitOn ':' = padded groups := by
  unfold padded
  split_ifs with vacant
  · subst vacant
    rfl
  · exact splitOn_intercalate ':' (fun group member => (each group member).absent) vacant

theorem fine_groups (few : (leftOf done).length + (rightOf done).length + groups.length ≤ 8) :
    Fine done groups := by
  induction groups generalizing done with
  | nil =>
    intro before field after shape
    simp at shape
  | cons group groups ih =>
    have first := each group (by simp)
    rw [length_cons] at few
    apply fine_cons.2
    refine ⟨⟨first.plain, by omega, fun both => first.nonempty both.1⟩, ?_⟩
    apply ih (fun other member => each other (by simp [member]))
    rw [leftOf_snoc first.nonempty, rightOf_snoc first.nonempty]
    unfold leftWith rightWith
    split_ifs with present
    · rw [length_append, length_singleton]
      omega
    · rw [leftOf_of_not_mem present] at few
      rw [length_append, length_singleton, length_nil]
      omega

end

theorem Fine.append {first second : List (List Char)} (fine : Fine done first)
    (more : Fine (done ++ first) second) : Fine done (first ++ second) := by
  induction first generalizing done with
  | nil => simpa using more
  | cons field first ih =>
    obtain ⟨start, others⟩ := fine_cons.1 fine
    exact fine_cons.2 ⟨start, ih others (by simpa using more)⟩

theorem leftOf_padded (each : ∀ group ∈ left, Group group) (rest : List (List Char)) :
    leftOf (padded left ++ [] :: rest) = left := by
  unfold padded leftOf
  split_ifs with vacant
  · simp [vacant]
  · have all := leftOf_of_not_mem (not_mem_groups each)
    unfold leftOf at all
    rw [takeWhile_append, all]
    simp

theorem rightOf_padded (each : ∀ group ∈ left, Group group)
    (eachRest : ∀ group ∈ groups, Group group) :
    rightOf (padded left ++ [] :: groups) = groups := by
  have kept : groups.filter (· ≠ []) = groups := by
    apply filter_eq_self.2
    intro group member
    simpa using (eachRest group member).nonempty
  have gap : rightOf (padded left ++ [[]]) = [] := by
    rw [rightOf_snoc_empty]
    unfold padded
    split_ifs with vacant
    · rfl
    · exact rightOf_of_not_mem (not_mem_groups each)
  have shape : padded left ++ [] :: groups = (padded left ++ [[]]) ++ groups := by simp
  rw [shape, rightOf_append (by simp), gap, kept, nil_append]

theorem fields_full (each : ∀ group ∈ groups, Group group) (nonempty : groups ≠ []) :
    innerOf ([':'].intercalate groups) = groups.dropLast ∧
      lastOf ([':'].intercalate groups) = groups.getLast nonempty := by
  unfold innerOf lastOf
  rw [splitOn_groups each, padded, if_neg nonempty, getLastD_eq_getLast?,
    getLast?_eq_some_getLast nonempty]
  exact ⟨rfl, rfl⟩

theorem padded_eq (groups : List (List Char)) :
    padded groups = groups.dropLast ++ [groups.getLastD []] := by
  unfold padded
  split_ifs with vacant
  · simp [vacant]
  · rw [getLastD_eq_getLast?, getLast?_eq_some_getLast vacant, Option.getD_some,
      dropLast_concat_getLast vacant]

theorem fields_compressed (eachLeft : ∀ group ∈ left, Group group)
    (eachRight : ∀ group ∈ right, Group group) :
    let src := [':'].intercalate left ++ ':' :: ':' :: [':'].intercalate right
    innerOf src = padded left ++ [] :: right.dropLast ∧ lastOf src = right.getLastD [] := by
  have second := @splitOn_append_cons_self _ _ _ ':' [] ([':'].intercalate right)
  rw [nil_append, splitOn_groups eachRight, splitOn_nil, singleton_append] at second
  have shape : padded left ++ [] :: padded right =
      (padded left ++ [] :: right.dropLast) ++ [right.getLastD []] := by
    rw [padded_eq right]
    simp
  unfold innerOf lastOf
  dsimp only
  rw [splitOn_append_cons_self, splitOn_groups eachLeft, second, shape, dropLast_concat, getLastD_concat]
  exact ⟨rfl, rfl⟩

/-- The documented texts are accepted. -/
theorem Address6.loose {src : List Char} (address : Address6 src) : Loose src := by
  cases address with
  | full groups each eight =>
    have nonempty : groups ≠ [] := by
      intro vacant
      simp [vacant] at eight
    have fields := fields_full each nonempty
    have eachInner : ∀ group ∈ groups.dropLast, Group group :=
      fun group member => each group (dropLast_subset _ member)
    have absent := not_mem_groups eachInner
    constructor
    · rw [fields.1]
      apply fine_groups eachInner
      simp [leftOf, rightOf, eight]
    · rw [fields.2]
      exact (each _ (getLast_mem nonempty)).plain
    · rw [fields.1, ← length_pos_iff]
      simp [eight]
    · rw [fields.1, leftOf_of_not_mem absent, rightOf_of_not_mem absent]
      simp [eight]
  | compressed left right eachLeft eachRight few =>
    have fields := fields_compressed eachLeft eachRight
    have eachInner : ∀ group ∈ right.dropLast, Group group :=
      fun group member => eachRight group (dropLast_subset _ member)
    dsimp only at fields
    have start : Fine [] (padded left) := by
      unfold padded
      split_ifs with vacant
      · apply fine_cons.2
        refine ⟨⟨⟨by simp, by simp⟩, by simp [leftOf, rightOf], by simp [rightOf]⟩, ?_⟩
        intro before field after shape
        simp at shape
      · apply fine_groups eachLeft
        simp only [leftOf, rightOf, takeWhile_nil, dropWhile_nil, filter_nil, length_nil]
        omega
    have gapLeft := leftOf_padded eachLeft []
    have gapRight := @rightOf_padded left [] eachLeft (by simp)
    constructor
    · rw [fields.1]
      apply start.append
      rw [nil_append]
      apply fine_cons.2
      rw [leftOf_snoc_empty] at gapLeft
      rw [rightOf_snoc_empty] at gapRight
      refine ⟨⟨⟨by simp, by simp⟩, ?_, ?_⟩, ?_⟩
      · rw [gapLeft, gapRight, length_nil]
        omega
      · rw [gapRight]
        simp
      · apply fine_groups eachInner
        rw [leftOf_snoc_empty, rightOf_snoc_empty, gapLeft, gapRight, length_nil, length_dropLast]
        omega
    · rw [fields.2]
      rcases eq_nil_or_concat right with rfl | ⟨start, last, rfl⟩
      · exact ⟨by simp, by simp⟩
      · rw [concat_eq_append, getLastD_concat]
        exact (eachRight last (by simp)).plain
    · rw [fields.1]
      simp
    · rw [fields.1, leftOf_padded eachLeft, rightOf_padded eachLeft eachInner, length_dropLast]
      omega

theorem Address6.shape {src : List Char} (address : Address6 src) :
    (src.splitOn ':').length = 8 ∨ [] ∈ innerOf src := by
  cases address with
  | full groups each eight =>
    left
    have nonempty : groups ≠ [] := by
      intro vacant
      simp [vacant] at eight
    rw [splitOn_groups each, padded, if_neg nonempty, eight]
  | compressed left right eachLeft eachRight few =>
    right
    rw [(fields_compressed eachLeft eachRight).1]
    simp

end Complete

/-- The parser indexes only the sixteen bytes of its arrays and of the result, and it accepts the
documented texts. -/
structure Ipv6Right (src : List Char) (mem : Memory) : Prop where
  within : (inetIpv6Pton src mem).mem.Within 16
  accepts : (inetIpv6Pton src mem).ret = 1 ↔ Address6 src

/-- Five octets with dots between them. -/
def FiveOctets (src : List Char) : Prop :=
  (src.splitOn '.').length = 5 ∧ ∀ field ∈ src.splitOn '.', Octet field

/-- Both parsers are right exactly for the texts that are not five octets, that the IPv6 parser does
not accept too freely, and that do not fill its arrays before the last field. -/
theorem pton_right_iff (src : List Char) (mem : Memory) (fresh : mem.touched = []) :
    Ipv4Right src mem ∧ Ipv6Right src mem ↔
      ¬FiveOctets src ∧ (Loose src → Address6 src) ∧ ¬Overrun src := by
  have accepts := @inetIpv6Pton_ret mem src fresh
  have within := @inetIpv6Pton_within mem src fresh
  constructor
  · rintro ⟨four, six⟩
    exact ⟨(ipv4Right_iff src fresh).1 four, fun loose => six.accepts.1 (accepts.2 loose),
      within.1 six.within⟩
  · rintro ⟨notFive, documented, fits⟩
    exact ⟨(ipv4Right_iff src fresh).2 notFive, within.2 fits,
      fun accepted => documented (accepts.1 accepted), fun address => accepts.2 address.loose⟩

/-- Arrays with nothing in them. -/
def blank : Memory := ⟨fun _ _ => 0, []⟩

/-- Both parsers are right for `"::1"`. -/
theorem pton_right_loopback :
    Ipv4Right [':', ':', '1'] blank ∧ Ipv6Right [':', ':', '1'] blank := by
  apply (pton_right_iff [':', ':', '1'] blank rfl).2
  refine ⟨fun five => absurd five.1 (by decide), fun _ => ?_, fun overrun => ?_⟩
  · have group : ∀ group ∈ [['1']], Group group := by
      intro group member
      rw [mem_singleton.1 member]
      exact ⟨by decide, by decide⟩
    exact Address6.compressed [] [['1']] (by simp) group (by decide)
  · exact overrun.full (by decide)

/-- `"1.2.3.4.5"` is stored to the fifth byte of a result of four bytes, `"1:2:3"` is accepted, and
the ninth group of `"1:2:3:4:5:6:7:8:9"` is stored behind `ip`. -/
theorem pton_wrong :
    (Buffer.dest, 4) ∈
        (inetIpv4Pton ['1', '.', '2', '.', '3', '.', '4', '.', '5'] blank).mem.touched ∧
      (inetIpv6Pton ['1', ':', '2', ':', '3'] blank).ret = 1 ∧
      ¬Ipv6Right ['1', ':', '2', ':', '3'] blank ∧
      (Buffer.ip, 16) ∈ (inetIpv6Pton ['1', ':', '2', ':', '3', ':', '4', ':', '5', ':', '6', ':',
        '7', ':', '8', ':', '9'] blank).mem.touched := by
  have accepted : (inetIpv6Pton ['1', ':', '2', ':', '3'] blank).ret = 1 := by decide
  refine ⟨by decide, accepted, ?_, by decide⟩
  intro right
  have shape := (right.accepts.1 accepted).shape
  exact absurd shape (by decide)

end Chewie.Libc.Net
