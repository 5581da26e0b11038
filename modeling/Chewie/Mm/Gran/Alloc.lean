import Chewie.Lib.Run
import Chewie.Mm.Gran.Search
import Mathlib.Data.List.Pairwise

/-!
# Allocations of a granule heap

A client allocates and frees memory of one granule heap while other code writes the memory behind
the allocation table, which the search reads too. `granAlloc_spec` says what one allocation does
when the address that the search returns names free granules, and `perform_sound` carries the
disjointness of the client's blocks through a run.
-/

namespace Chewie.Mm.Gran

open Chewie Word List GranS

/-- The number of granules that cover `size` bytes. -/
def covering (log2gran size : Nat) : Nat := (size + (2 ^ log2gran - 1)) / 2 ^ log2gran

/-- A request for at most thirty-two granules. -/
def Request (priv : GranS) (size : Nat) : Prop := 0 < size ∧ size ≤ 32 * 2 ^ priv.log2gran

/-- Rounding the size up to granules stays in range, and the address that the search returns names
granules that are free. -/
def OnTarget (priv : GranS) (size : Nat) : Prop :=
  size + (2 ^ priv.log2gran - 1) < 2 ^ 32 ∧
    ∀ index ∈ priv.firstFit (covering priv.log2gran size),
      priv.fits (covering priv.log2gran size) (priv.aim index) = true

instance decidableRequest (priv : GranS) (size : Nat) : Decidable (Request priv size) :=
  inferInstanceAs (Decidable (_ ∧ _))

/-- The heap lies in the address space. -/
structure GranS.Valid (priv : GranS) : Prop where
  start : 0 < priv.heapstart
  word : priv.heapstart < 2 ^ 32
  inside : priv.heapstart + priv.ngranules * 2 ^ priv.log2gran ≤ 2 ^ 32

variable {priv : GranS} {size index n : Nat}

theorem granules_eq {log2gran : Nat} (precise : size + (2 ^ log2gran - 1) < 2 ^ 32) :
    granules log2gran size = covering log2gran size := by
  unfold granules covering
  rw [add_of_lt precise, Nat.shiftRight_eq_div_pow]

theorem Request.covering_bounds (request : Request priv size) :
    0 < covering priv.log2gran size ∧ covering priv.log2gran size ≤ 32 := by
  have positive := Nat.two_pow_pos priv.log2gran
  unfold covering
  constructor
  · apply Nat.div_pos _ positive
    have := request.1
    omega
  · apply Nat.le_of_lt_succ
    rw [Nat.div_lt_iff_lt_mul positive]
    have := request.2
    omega

section

variable (valid : priv.Valid) (inside : index < priv.ngranules)

include valid inside

theorem GranS.Valid.address_eq :
    priv.address index = priv.heapstart + index * 2 ^ priv.log2gran := by
  have positive := Nat.two_pow_pos priv.log2gran
  have below := Nat.mul_lt_mul_of_pos_right inside positive
  have bound := valid.inside
  unfold address
  rw [Nat.shiftLeft_eq, wrap_of_lt (by omega)]

theorem GranS.Valid.granno_eq :
    priv.granno (priv.heapstart + index * 2 ^ priv.log2gran) = index := by
  have positive := Nat.two_pow_pos priv.log2gran
  have below := Nat.mul_lt_mul_of_pos_right inside positive
  have bound := valid.inside
  unfold granno
  rw [sub_of_le (by omega) (by omega), Nat.add_sub_cancel_left,
    Nat.shiftRight_eq_div_pow, Nat.mul_div_cancel _ positive]

theorem GranS.Valid.mark_inUse (small : n ≤ 32) (k : Nat) :
    (granMarkAllocated priv (priv.heapstart + index * 2 ^ priv.log2gran) n).inUse k =
      (priv.inUse k || decide (index ≤ k ∧ k < index + n)) := by
  unfold granMarkAllocated inUse
  rw [valid.granno_eq inside, @Bitmap.bit_editRange 32 _ (· || ·) _ _ _
    (fun word mask j _ => BitVec.getLsbD_or) Bool.or_false (by decide) small]
  by_cases covered : index ≤ k ∧ k < index + n
  · rw [if_pos covered, decide_eq_true covered]
  · rw [if_neg covered, decide_eq_false covered, Bool.or_false]

theorem GranS.Valid.free_inUse (request : Request priv size)
    (precise : size + (2 ^ priv.log2gran - 1) < 2 ^ 32) (k : Nat) :
    (granFree priv (priv.heapstart + index * 2 ^ priv.log2gran) size).inUse k =
      (priv.inUse k && !decide (index ≤ k ∧ k < index + covering priv.log2gran size)) := by
  unfold granFree inUse
  rw [valid.granno_eq inside, granules_eq precise, @Bitmap.bit_editRange 32 _ (· && !·) _ _ _
    (fun word mask j below => by rw [BitVec.getLsbD_and, BitVec.getLsbD_not]; simp [below])
    (fun b => by simp) (by decide) request.covering_bounds.2]
  by_cases covered : index ≤ k ∧ k < index + covering priv.log2gran size
  · rw [if_pos covered, decide_eq_true covered]
  · rw [if_neg covered, decide_eq_false covered, Bool.not_false, Bool.and_true]

end

theorem granAlloc_spec (valid : priv.Valid) (request : Request priv size)
    (target : OnTarget priv size) :
    granAlloc priv size = (priv, 0) ∨
    ∃ index, priv.fits (covering priv.log2gran size) index = true ∧
      granAlloc priv size =
        (granMarkAllocated priv (priv.heapstart + index * 2 ^ priv.log2gran)
          (covering priv.log2gran size), priv.heapstart + index * 2 ^ priv.log2gran) := by
  have bounds := request.covering_bounds
  unfold granAlloc
  simp only [if_pos request.1, granules_eq target.1, granSearch_spec bounds.1 bounds.2 valid.word]
  cases found : priv.firstFit (covering priv.log2gran size) with
  | none => exact Or.inl rfl
  | some first =>
    have fit := target.2 first found
    have room := (fits_iff.mp fit).1
    right
    refine ⟨priv.aim first, fit, ?_⟩
    simp [valid.address_eq (show priv.aim first < priv.ngranules by omega)]

/-- A block of memory that the client got: its address and the size it asked for. -/
abbrev Block := Nat × Nat

/-- A granule heap and the blocks that its client holds. -/
structure Client where
  gran : GranS
  live : List Block

/-- What can happen to a granule heap. -/
inductive Call where
  | alloc (size : Nat)
  | free (memory size : Nat)
  /-- Another owner writes a word behind the allocation table. -/
  | outside (distance : Nat) (value : BitVec 32)

/-- The heap and the client after a call. -/
def perform (client : Client) : Call → Option Client
  | .alloc size =>
    let result := granAlloc client.gran size
    some { gran := result.1
           live := if result.2 = 0 then client.live else (result.2, size) :: client.live }
  | .free memory size =>
    some { gran := granFree client.gran memory size
           live := client.live.erase (memory, size) }
  | .outside distance value =>
    some { client with
           gran := { client.gran with
             gat := Function.update client.gran.gat
               (sizeofGat client.gran.ngranules + distance) value } }

/-- The client asks for one to thirty-two granules and frees blocks it holds, with their size. -/
def Allowed (client : Client) : Call → Prop
  | .alloc size => Request client.gran size
  | .free memory size => (memory, size) ∈ client.live
  | .outside _ _ => True

/-- Every allocation is on target. -/
def Careful (client : Client) : Call → Prop
  | .alloc size => OnTarget client.gran size
  | .free _ _ => True
  | .outside _ _ => True

/-- The call is allowed and careful. -/
def Guarded (client : Client) (call : Call) : Prop := Allowed client call ∧ Careful client call

instance decidableAllowed (client : Client) : (call : Call) → Decidable (Allowed client call)
  | .alloc .. | .free .. => by dsimp only [Allowed]; infer_instance
  | .outside .. => isTrue trivial

/-- The call is allowed, rounding the size of a request up to granules stays in range, and the
search for it stays in step with the address. -/
def Steady (client : Client) : Call → Prop
  | .alloc size =>
    Request client.gran size ∧ size + (2 ^ client.gran.log2gran - 1) < 2 ^ 32 ∧
      client.gran.InStep (covering client.gran.log2gran size)
  | call => Allowed client call

instance decidableSteady (client : Client) : (call : Call) → Decidable (Steady client call)
  | .alloc .. => inferInstanceAs (Decidable (_ ∧ _ ∧ _))
  | .free memory size => decidableAllowed client (.free memory size)
  | .outside .. => isTrue trivial

/-- A search in step is on target. -/
theorem Steady.guarded {client : Client} {call : Call} (steady : Steady client call) :
    Guarded client call := by
  cases call with
  | alloc size =>
    obtain ⟨request, rounds, inStep⟩ := steady
    refine ⟨request, rounds, ?_⟩
    intro index found
    rw [inStep.aim_eq found]
    exact (firstFit_some found).1
  | free memory size => exact ⟨steady, trivial⟩
  | outside distance value => exact ⟨trivial, trivial⟩

/-- Two blocks have no granule in common. -/
def Apart (log2gran : Nat) (first second : Block) : Prop :=
  first.1 + covering log2gran first.2 * 2 ^ log2gran ≤ second.1 ∨
    second.1 + covering log2gran second.2 * 2 ^ log2gran ≤ first.1

instance decidableApart (log2gran : Nat) (first second : Block) :
    Decidable (Apart log2gran first second) :=
  inferInstanceAs (Decidable (_ ∨ _))

/-- The block consists of granules of the heap, which the table marks as in use. -/
def Held (priv : GranS) (block : Block) : Prop :=
  Request priv block.2 ∧ block.2 + (2 ^ priv.log2gran - 1) < 2 ^ 32 ∧
    ∃ index, block.1 = priv.heapstart + index * 2 ^ priv.log2gran ∧
      index + covering priv.log2gran block.2 ≤ priv.ngranules ∧
      ∀ k, index ≤ k → k < index + covering priv.log2gran block.2 → priv.inUse k = true

/-- The blocks of the client are granules in use, and no two of them overlap. -/
structure Sound (client : Client) : Prop where
  valid : client.gran.Valid
  held : ∀ block ∈ client.live, Held client.gran block
  apart : client.live.Pairwise (Apart client.gran.log2gran)

/-- A call changes no parameter of the heap. -/
structure SameHeap (before after : GranS) : Prop where
  log2gran : after.log2gran = before.log2gran
  ngranules : after.ngranules = before.ngranules
  heapstart : after.heapstart = before.heapstart

section Steps

variable {client : Client} {after : GranS}

theorem SameHeap.valid (same : SameHeap priv after) (valid : priv.Valid) : after.Valid := by
  constructor
  · rw [same.heapstart]
    exact valid.start
  · rw [same.heapstart]
    exact valid.word
  · rw [same.heapstart, same.ngranules, same.log2gran]
    exact valid.inside

theorem Held.keep (same : SameHeap priv after) {block : Block} (held : Held priv block)
    (keeps : ∀ index, block.1 = priv.heapstart + index * 2 ^ priv.log2gran →
      ∀ k, index ≤ k → k < index + covering priv.log2gran block.2 → k < priv.ngranules →
        priv.inUse k = true → after.inUse k = true) : Held after block := by
  obtain ⟨request, precise, index, start, room, used⟩ := held
  unfold Held Request
  rw [same.log2gran, same.heapstart, same.ngranules]
  refine ⟨request, precise, index, start, room, ?_⟩
  intro k since within
  exact keeps index start k since within (by omega) (used k since within)

theorem apart_iff {log2gran heapstart first second size other : Nat} :
    Apart log2gran (heapstart + first * 2 ^ log2gran, size)
        (heapstart + second * 2 ^ log2gran, other) ↔
      first + covering log2gran size ≤ second ∨ second + covering log2gran other ≤ first := by
  have positive := Nat.two_pow_pos log2gran
  unfold Apart
  rw [Nat.add_assoc, Nat.add_assoc, ← Nat.add_mul, ← Nat.add_mul, Nat.add_le_add_iff_left,
    Nat.add_le_add_iff_left, Nat.mul_le_mul_right_iff positive, Nat.mul_le_mul_right_iff positive]

theorem Held.apart_fit {block : Block} (held : Held priv block)
    (positive : 0 < covering priv.log2gran size)
    (fit : priv.fits (covering priv.log2gran size) index = true) :
    Apart priv.log2gran (priv.heapstart + index * 2 ^ priv.log2gran, size) block := by
  have parts := fits_iff.mp fit
  obtain ⟨request, _, other, place, room, used⟩ := held
  have bounds := request.covering_bounds
  rw [show block = (priv.heapstart + other * 2 ^ priv.log2gran, block.2) from Prod.ext place rfl]
  apply apart_iff.mpr
  by_contra overlap
  have set := used (max index other) (by omega) (by omega)
  have clear := parts.2 (max index other - index) (by omega)
  rw [Nat.add_sub_cancel' (by omega), set] at clear
  exact absurd clear (by decide)

/-- An allocation on target keeps the blocks apart. -/
theorem Sound.alloc (sound : Sound client) (request : Request client.gran size)
    (target : OnTarget client.gran size) :
    ∃ next, perform client (.alloc size) = some next ∧ Sound next := by
  cases granAlloc_spec sound.valid request target with
  | inl failed =>
    refine ⟨client, ?_, sound⟩
    rw [perform, failed, if_pos rfl]
  | inr served =>
    obtain ⟨index, fit, result⟩ := served
    have parts := fits_iff.mp fit
    have bounds := request.covering_bounds
    have start := sound.valid.start
    have marked := fun k => sound.valid.mark_inUse (show index < client.gran.ngranules by omega)
      bounds.2 k
    have same : SameHeap client.gran (granMarkAllocated client.gran
        (client.gran.heapstart + index * 2 ^ client.gran.log2gran)
        (covering client.gran.log2gran size)) := ⟨rfl, rfl, rfl⟩
    refine ⟨_, rfl, ?_, ?_, ?_⟩
    · rw [result]
      exact same.valid sound.valid
    · rw [result]
      rw [if_neg (by omega)]
      intro block mem
      cases mem_cons.mp mem with
      | inl new =>
        rw [new]
        refine ⟨request, target.1, index, rfl, parts.1, ?_⟩
        intro k since within
        rw [marked k, decide_eq_true ⟨since, within⟩, Bool.or_true]
      | inr old =>
        apply (sound.held block old).keep same
        intro _ _ k _ _ _ used
        rw [marked k, used, Bool.true_or]
    · rw [result]
      rw [if_neg (by omega)]
      apply pairwise_cons.mpr
      refine ⟨?_, sound.apart⟩
      intro block old
      exact (sound.held block old).apart_fit bounds.1 fit

theorem Sound.free (sound : Sound client) {memory : Nat} (live : (memory, size) ∈ client.live) :
    ∃ next, perform client (.free memory size) = some next ∧ Sound next := by
  obtain ⟨request, precise, index, place, room, used⟩ := sound.held _ live
  dsimp only at request precise place room
  have bounds := request.covering_bounds
  have cleared := fun k => sound.valid.free_inUse (show index < client.gran.ngranules by omega)
    request precise k
  have same : SameHeap client.gran (granFree client.gran memory size) := ⟨rfl, rfl, rfl⟩
  have others : ∀ block ∈ client.live.erase (memory, size),
      Apart client.gran.log2gran (memory, size) block := by
    have split := (perm_cons_erase live).pairwise sound.apart (fun apart => Or.symm apart)
    exact (pairwise_cons.mp split).1
  refine ⟨_, rfl, same.valid sound.valid, ?_, sound.apart.sublist erase_sublist⟩
  intro block mem
  apply (sound.held block (mem_of_mem_erase mem)).keep same
  intro other start k since within _ set
  have apart := others block mem
  rw [show block = (client.gran.heapstart + other * 2 ^ client.gran.log2gran, block.2) from
    Prod.ext start rfl, show (memory, size) = (client.gran.heapstart +
    index * 2 ^ client.gran.log2gran, size) from Prod.ext place rfl] at apart
  have distinct := apart_iff.mp apart
  rw [place, cleared k, set, decide_eq_false (by omega)]
  rfl

theorem GranS.word_lt {k : Nat} (inside : k < priv.ngranules) :
    k / 32 < sizeofGat priv.ngranules := by
  unfold sizeofGat
  omega

theorem Sound.outside (sound : Sound client) (distance : Nat) (value : BitVec 32) :
    ∃ next, perform client (.outside distance value) = some next ∧ Sound next := by
  refine ⟨_, rfl, ⟨sound.valid.start, sound.valid.word, sound.valid.inside⟩, ?_, sound.apart⟩
  intro block mem
  have same : SameHeap client.gran { client.gran with
      gat := Function.update client.gran.gat (sizeofGat client.gran.ngranules + distance) value } :=
    ⟨rfl, rfl, rfl⟩
  apply (sound.held block mem).keep same
  intro _ _ k _ _ inside set
  have before := word_lt inside
  unfold inUse Bitmap.bit at set ⊢
  dsimp only
  rw [Function.update_of_ne (by omega)]
  exact set

theorem perform_sound (client : Client) (call : Call) (sound : Sound client)
    (guarded : Guarded client call) : ∃ next, perform client call = some next ∧ Sound next := by
  cases call with
  | alloc size => exact sound.alloc guarded.1 guarded.2
  | free memory size => exact sound.free guarded.1
  | outside distance value => exact sound.outside distance value

end Steps

/-- The heap start, rounded up to the alignment. -/
def alignedStart (heapstart log2align : Nat) : Nat :=
  (heapstart + (2 ^ log2align - 1)) / 2 ^ log2align * 2 ^ log2align

/-- Memory that can be made a granule heap: it does not start at `NULL`, its aligned start and its
end are addresses in this order, and it has fewer than 65536 granules. -/
structure Region (heapstart heapsize log2gran log2align : Nat) : Prop where
  start : 0 < heapstart
  gran : log2gran < 32
  align : log2align ≤ log2gran
  word : heapstart + heapsize < 2 ^ 32
  ordered : alignedStart heapstart log2align ≤ heapstart + heapsize
  count : (heapstart + heapsize - alignedStart heapstart log2align) / 2 ^ log2gran < 2 ^ 16

section Init

variable {heapstart heapsize log2gran log2align : Nat} {zalloc : Option (Nat → BitVec 32)}

theorem alignedStart_ge : heapstart ≤ alignedStart heapstart log2align := by
  have whole := Nat.div_add_mod' (heapstart + (2 ^ log2align - 1)) (2 ^ log2align)
  unfold alignedStart
  omega

section

variable (region : Region heapstart heapsize log2gran log2align)

include region

theorem Region.round_lt : heapstart + (2 ^ log2align - 1) < 2 ^ 32 := by
  have positive := Nat.two_pow_pos log2align
  have split : 2 ^ 32 = 2 ^ (32 - log2align) * 2 ^ log2align := by
    rw [← Nat.pow_add, Nat.sub_add_cancel (by have := region.gran; have := region.align; omega)]
  have below : alignedStart heapstart log2align < 2 ^ 32 :=
    Nat.lt_of_le_of_lt region.ordered region.word
  rw [split] at below ⊢
  exact (Nat.div_lt_iff_lt_mul positive).mp (Nat.lt_of_mul_lt_mul_right below)

variable (created : granInitialize zalloc heapstart heapsize log2gran log2align = some priv)

include created

theorem granInitialize_spec :
    priv.log2gran = log2gran ∧ priv.heapstart = alignedStart heapstart log2align ∧
      priv.ngranules =
        (heapstart + heapsize - alignedStart heapstart log2align) / 2 ^ log2gran := by
  have gran := region.gran
  have align := region.align
  have word := region.word
  have positive := Nat.two_pow_pos log2gran
  have aligned : andNot 32 (add 32 heapstart (2 ^ log2align - 1)) (2 ^ log2align - 1) =
      alignedStart heapstart log2align := by
    rw [add_of_lt region.round_lt, andNot_low log2align (by omega) region.round_lt]
    rfl
  have room : andNot 32 (sub 32 (add 32 heapstart heapsize)
      (alignedStart heapstart log2align)) (2 ^ log2gran - 1) >>> log2gran =
      (heapstart + heapsize - alignedStart heapstart log2align) / 2 ^ log2gran := by
    rw [add_of_lt word, sub_of_le region.ordered word, andNot_low log2gran (by omega) (by omega),
      Nat.shiftRight_eq_div_pow, Nat.mul_div_cancel _ positive]
  unfold granInitialize at created
  simp only [aligned, room] at created
  cases zalloc with
  | none => cases created
  | some memory =>
    cases created
    exact ⟨rfl, rfl, wrap_of_lt region.count⟩

theorem granInitialize_inside :
    priv.heapstart + priv.ngranules * 2 ^ priv.log2gran ≤ heapstart + heapsize := by
  have spec := granInitialize_spec region created
  have ordered := region.ordered
  have whole := Nat.div_mul_le_self (heapstart + heapsize - alignedStart heapstart log2align)
    (2 ^ log2gran)
  rw [spec.1, spec.2.2]
  omega

theorem granInitialize_sound : Sound ⟨priv, []⟩ := by
  have spec := granInitialize_spec region created
  have inside := granInitialize_inside region created
  have later := @alignedStart_ge heapstart log2align
  have start := region.start
  have word := region.word
  refine ⟨⟨?_, ?_, Nat.le_of_lt (Nat.lt_of_le_of_lt inside word)⟩,
    fun block mem => absurd mem not_mem_nil, List.Pairwise.nil⟩
  · rw [spec.2.1]
    omega
  · rw [spec.2.1]
    omega

end

end Init

/-- What an allocation returns: `NULL`, or the address of covering granules inside the memory of the
heap, which were free before the call and are the ones it marked. -/
def Serves (heapstart heapsize : Nat) (priv : GranS) (size : Nat) : Prop :=
  let result := granAlloc priv size
  let count := covering priv.log2gran size
  result.2 ≠ 0 →
    ∃ index, result.2 = priv.heapstart + index * 2 ^ priv.log2gran ∧
      index + count ≤ priv.ngranules ∧
      heapstart ≤ result.2 ∧ result.2 + count * 2 ^ priv.log2gran ≤ heapstart + heapsize ∧
      (∀ k, index ≤ k → k < index + count → priv.inUse k = false) ∧
      ∀ k, result.1.inUse k = (priv.inUse k || decide (index ≤ k ∧ k < index + count))

/-- The heap lies in the memory that it was set up with. -/
structure Placed (heapstart heapsize : Nat) (priv : GranS) : Prop where
  start : heapstart ≤ priv.heapstart
  inside : priv.heapstart + priv.ngranules * 2 ^ priv.log2gran ≤ heapstart + heapsize

theorem perform_sameHeap {client next : Client} {call : Call}
    (performed : perform client call = some next) : SameHeap client.gran next.gran := by
  cases call with
  | alloc size =>
    cases performed
    unfold granAlloc
    split
    · dsimp only
      split
      · exact ⟨rfl, rfl, rfl⟩
      · exact ⟨rfl, rfl, rfl⟩
    · exact ⟨rfl, rfl, rfl⟩
  | free memory size =>
    cases performed
    exact ⟨rfl, rfl, rfl⟩
  | outside distance value =>
    cases performed
    exact ⟨rfl, rfl, rfl⟩

theorem SameHeap.placed {heapstart heapsize : Nat} {before after : GranS}
    (same : SameHeap before after) (placed : Placed heapstart heapsize before) :
    Placed heapstart heapsize after := by
  constructor
  · rw [same.heapstart]
    exact placed.start
  · rw [same.heapstart, same.ngranules, same.log2gran]
    exact placed.inside

theorem GranS.Valid.serves {heapstart heapsize : Nat} (valid : priv.Valid)
    (placed : Placed heapstart heapsize priv) (request : Request priv size)
    (target : OnTarget priv size) : Serves heapstart heapsize priv size := by
  intro returned
  have bounds := request.covering_bounds
  cases granAlloc_spec valid request target with
  | inl failed => exact absurd (congrArg Prod.snd failed) returned
  | inr served =>
    obtain ⟨index, fit, same⟩ := served
    have parts := fits_iff.mp fit
    have start := placed.start
    have inside := placed.inside
    have last := Nat.mul_le_mul_right (2 ^ priv.log2gran) parts.1
    rw [Nat.add_mul] at last
    have address : (granAlloc priv size).2 = priv.heapstart + index * 2 ^ priv.log2gran :=
      congrArg Prod.snd same
    refine ⟨index, address, parts.1, by omega, ?_, ?_, ?_⟩
    · rw [address, Nat.add_assoc]
      exact Nat.le_trans (Nat.add_le_add_left last _) inside
    · intro k since within
      have clear := parts.2 (k - index) (by omega)
      rwa [Nat.add_sub_cancel' since] at clear
    · intro k
      rw [same]
      exact valid.mark_inUse (by omega) bounds.2 k

/-- In every run of a granule heap whose searches stay in step, the blocks of the client are apart,
and a further allocation in step gets free granules of the heap. -/
theorem gran_blocks_apart {zalloc : Option (Nat → BitVec 32)}
    {heapstart heapsize log2gran log2align : Nat} {priv : GranS} {calls : List Call}
    (region : Region heapstart heapsize log2gran log2align)
    (created : granInitialize zalloc heapstart heapsize log2gran log2align = some priv)
    (admitted : Run.Admitted perform Steady ⟨priv, []⟩ calls) :
    ∃ client, Run.run perform ⟨priv, []⟩ calls = some client ∧
      client.live.Pairwise (Apart client.gran.log2gran) ∧
      ∀ size, Steady client (.alloc size) → Serves heapstart heapsize client.gran size := by
  have spec := granInitialize_spec region created
  have later := @alignedStart_ge heapstart log2align
  have placed : Placed heapstart heapsize priv :=
    ⟨by rw [spec.2.1]; exact later, granInitialize_inside region created⟩
  have keeps : ∀ client call, Sound client ∧ Placed heapstart heapsize client.gran →
      Steady client call → ∃ next, perform client call = some next ∧
        Sound next ∧ Placed heapstart heapsize next.gran := by
    intro client call holds steady
    obtain ⟨next, performed, sound⟩ := perform_sound client call holds.1 steady.guarded
    exact ⟨next, performed, sound, (perform_sameHeap performed).placed holds.2⟩
  obtain ⟨client, reached, sound, still⟩ :=
    Run.run_invariant keeps ⟨granInitialize_sound region created, placed⟩ admitted
  exact ⟨client, reached, sound.apart,
    fun size steady => sound.valid.serves still steady.guarded.1 steady.guarded.2⟩

/-- A heap of 128 granules of sixteen bytes, with some memory behind its table. -/
def sample : Option GranS := granInitialize (some fun _ => 0xa5a5a5a5) 4096 2048 4 4

/-- Allocations around the first entry of the table, and a free. -/
def sampleCalls : List Call :=
  [.alloc 256, .alloc 256, .alloc 50, .outside 0 7, .free 4096 256, .alloc 257]

theorem sample_steady : ∀ priv ∈ sample, Run.Admitted perform Steady ⟨priv, []⟩ sampleCalls := by
  decide +kernel

/-- The run theorem applies when the last request does not fit the granules that were freed and goes
to the next table entry. -/
theorem gran_blocks_apart_sample :
    ∃ priv ∈ sample, Region 4096 2048 4 4 ∧ Run.Admitted perform Steady ⟨priv, []⟩ sampleCalls ∧
      ∃ client, Run.run perform ⟨priv, []⟩ sampleCalls = some client ∧
        client.live.Pairwise (Apart client.gran.log2gran) ∧
        ∀ size, Steady client (.alloc size) → Serves 4096 2048 client.gran size := by
  have region : Region 4096 2048 4 4 :=
    ⟨by decide, by decide, by decide, by decide, by decide, by decide⟩
  cases created : sample with
  | none => exact absurd created (by decide +kernel)
  | some priv =>
    have run := sample_steady priv created
    exact ⟨priv, rfl, region, run, gran_blocks_apart region created run⟩

section Marks

variable {k : Nat}

/-- The granule is one of the block. -/
def Covers (priv : GranS) (block : Block) (k : Nat) : Prop :=
  block.1 ≤ priv.heapstart + k * 2 ^ priv.log2gran ∧
    priv.heapstart + k * 2 ^ priv.log2gran <
      block.1 + covering priv.log2gran block.2 * 2 ^ priv.log2gran

theorem covers_iff : Covers priv (priv.heapstart + index * 2 ^ priv.log2gran, size) k ↔
    index ≤ k ∧ k < index + covering priv.log2gran size := by
  have positive := Nat.two_pow_pos priv.log2gran
  unfold Covers
  rw [Nat.add_assoc, ← Nat.add_mul, Nat.add_le_add_iff_left, Nat.add_lt_add_iff_left,
    Nat.mul_le_mul_right_iff positive, Nat.mul_lt_mul_right positive]

/-- Every granule in use is one of a block that the client holds. -/
def Accounted (client : Client) : Prop :=
  ∀ k < client.gran.ngranules, client.gran.inUse k = true →
    ∃ block ∈ client.live, Covers client.gran block k

theorem Sound.accounted {client next : Client} {call : Call} (sound : Sound client)
    (accounted : Accounted client) (guarded : Guarded client call)
    (performed : perform client call = some next) : Accounted next := by
  cases call with
  | alloc size =>
    have start := sound.valid.start
    rcases granAlloc_spec sound.valid guarded.1 guarded.2 with failed | ⟨index, fit, result⟩
    · rw [perform, failed, if_pos rfl] at performed
      cases performed
      exact accounted
    · rw [perform, result, if_neg (by omega)] at performed
      cases performed
      intro k inside used
      have room := (fits_iff.mp fit).1
      have bounds := Request.covering_bounds guarded.1
      rw [sound.valid.mark_inUse (by omega) bounds.2 k, Bool.or_eq_true, decide_eq_true_iff] at used
      rcases used with old | new
      · obtain ⟨block, live, covers⟩ := accounted k inside old
        exact ⟨block, mem_cons_of_mem _ live, covers⟩
      · exact ⟨_, mem_cons_self, covers_iff.mpr new⟩
  | free memory size =>
    cases performed
    obtain ⟨request, precise, index, place, room, _⟩ := sound.held _ guarded.1
    dsimp only at request precise place room
    have bounds := request.covering_bounds
    subst place
    intro k inside used
    rw [sound.valid.free_inUse (by omega) request precise k, Bool.and_eq_true] at used
    obtain ⟨block, live, covers⟩ := accounted k inside used.1
    refine ⟨block, (mem_erase_of_ne ?_).mpr live, covers⟩
    rintro rfl
    simpa [covers_iff.mp covers] using used.2
  | outside distance value =>
    cases performed
    intro k inside used
    refine accounted k inside ?_
    have before : k / 32 < sizeofGat client.gran.ngranules := word_lt inside
    unfold inUse Bitmap.bit at used ⊢
    dsimp only at used
    rwa [Function.update_of_ne (by omega)] at used

/-- In every run of a granule heap whose allocations are on target, the table marks exactly the
granules of the blocks that the client holds. -/
theorem gran_marks_live {zalloc : Option (Nat → BitVec 32)}
    {heapstart heapsize log2gran log2align : Nat} {calls : List Call}
    (region : Region heapstart heapsize log2gran log2align)
    (created : granInitialize zalloc heapstart heapsize log2gran log2align = some priv)
    (admitted : Run.Admitted perform Guarded ⟨priv, []⟩ calls) :
    ∃ client, Run.run perform ⟨priv, []⟩ calls = some client ∧
      ∀ k < client.gran.ngranules, client.gran.inUse k = true ↔
        ∃ block ∈ client.live, Covers client.gran block k := by
  have clear : Accounted ⟨priv, []⟩ := by
    intro k inside used
    unfold granInitialize at created
    cases zalloc with
    | none => cases created
    | some memory =>
      cases created
      have below := Nat.lt_of_lt_of_le inside (Nat.mod_le _ _)
      unfold inUse Bitmap.bit at used
      dsimp only at used
      rw [if_pos (by unfold sizeofGat; omega)] at used
      simp at used
  have keeps : ∀ client call, Sound client ∧ Accounted client → Guarded client call →
      ∃ next, perform client call = some next ∧ Sound next ∧ Accounted next := by
    intro client call holds guarded
    obtain ⟨next, performed, sound⟩ := perform_sound client call holds.1 guarded
    exact ⟨next, performed, sound, holds.1.accounted holds.2 guarded performed⟩
  obtain ⟨client, reached, sound, accounted⟩ :=
    Run.run_invariant keeps ⟨granInitialize_sound region created, clear⟩ admitted
  refine ⟨client, reached, fun k inside => ⟨accounted k inside, ?_⟩⟩
  rintro ⟨⟨_, size⟩, live, covers⟩
  obtain ⟨_, _, index, rfl, _, used⟩ := sound.held _ live
  obtain ⟨lower, upper⟩ := covers_iff.mp covers
  exact used k lower upper

/-- The table after the allocations and the free of the sample. -/
theorem gran_marks_live_sample :
    ∃ priv ∈ sample, ∃ client, Run.run perform ⟨priv, []⟩ sampleCalls = some client ∧
      ∀ k < client.gran.ngranules, client.gran.inUse k = true ↔
        ∃ block ∈ client.live, Covers client.gran block k := by
  cases created : sample with
  | none => exact absurd created (by decide +kernel)
  | some priv =>
    exact ⟨priv, rfl, gran_marks_live ⟨by decide, by decide, by decide, by decide, by decide,
      by decide⟩ created (Run.admitted_mono (fun _ _ => Steady.guarded) (sample_steady priv created))⟩

end Marks

/-- Fill the first two table entries, free the first granule and ask for two. -/
def overlapCalls : List Call := [.alloc 16, .alloc 496, .alloc 512, .free 4096 16, .alloc 32]

/-- The last of these allocations returns granules that another live block holds. -/
theorem gran_blocks_overlap :
    ∃ priv ∈ sample, Run.Admitted perform Allowed ⟨priv, []⟩ overlapCalls ∧
      ∃ client ∈ Run.run perform ⟨priv, []⟩ overlapCalls,
        client.live = [(4624, 32), (4608, 512), (4112, 496)] ∧ ¬Apart 4 (4624, 32) (4608, 512) := by
  decide +kernel

section

variable (start : priv.heapstart < 2 ^ 32) (least : 1 ≤ granules priv.log2gran size)
  (most : granules priv.log2gran size ≤ 32)

include start least most

theorem granAlloc_address : (granAlloc priv size).2 =
    ((priv.firstFit (granules priv.log2gran size)).map fun index =>
      priv.address (priv.aim index)).getD 0 := by
  have positive : 0 < size := by
    by_contra empty
    have none : granules priv.log2gran size = 0 := by
      have gran := Nat.two_pow_pos priv.log2gran
      rw [granules, add, wrap, Nat.shiftRight_eq_div_pow]
      exact Nat.div_eq_of_lt (by omega)
    omega
  unfold granAlloc
  simp only [if_pos positive, granSearch_spec least most start]
  cases priv.firstFit (granules priv.log2gran size) with
  | none => rfl
  | some index => rfl

end

/-- `gran_alloc` returns `NULL` exactly when there is no place with enough free granules, provided
that the search stays in step with the address. -/
theorem gran_alloc_complete (valid : priv.Valid) (least : 1 ≤ granules priv.log2gran size)
    (most : granules priv.log2gran size ≤ 32)
    (inStep : priv.InStep (granules priv.log2gran size)) :
    (granAlloc priv size).2 = 0 ↔
      ∀ index, priv.fits (granules priv.log2gran size) index = false := by
  rw [granAlloc_address valid.word least most]
  cases found : priv.firstFit (granules priv.log2gran size) with
  | none => simp [GranS.firstFit_none least found]
  | some index =>
    have fit := (GranS.firstFit_some found).1
    have room := (fits_iff.mp fit).1
    have start := valid.start
    constructor
    · intro null
      rw [Option.map_some, Option.getD_some, inStep.aim_eq found,
        valid.address_eq (show index < priv.ngranules by omega)] at null
      omega
    · intro nowhere
      rw [nowhere index] at fit
      cases fit

/-- The first table entry of this heap ends with a free granule, and two granules are free in the
second entry. -/
def lowHeap : GranS where
  log2gran := 4
  ngranules := 60
  heapstart := 4096
  gat := fun index => if index = 0 then 0x7fffffff else 0xfffe7fff

/-- The search passes the first entry in step and returns the two granules of the second. -/
theorem gran_alloc_complete_two : lowHeap.InStep 2 ∧
    ((granAlloc lowHeap 32).2 = 0 ↔ ∀ index, lowHeap.fits 2 index = false) ∧
    (granAlloc lowHeap 32).2 = lowHeap.address 47 := by
  have inStep : lowHeap.InStep 2 := by decide +kernel
  have complete := gran_alloc_complete ⟨by decide, by decide, by decide⟩
    (show 1 ≤ granules lowHeap.log2gran 32 by decide) (by decide) inStep
  exact ⟨inStep, complete, by decide +kernel⟩

/-- A heap near the end of the address space. The granules 30, 47 and 48 are free, and the search
moves the address by 62 granules before it comes to granule 47. -/
def highHeap : GranS where
  log2gran := 4
  ngranules := 60
  heapstart := 2 ^ 32 - 62 * 16
  gat := fun index => if index = 0 then 0xbfffffff else 0xfffe7fff

/-- Two granules are free in a row and `gran_alloc` returns `NULL`. -/
theorem gran_alloc_incomplete : highHeap.fits 2 47 = true ∧ (granAlloc highHeap 32).2 = 0 := by
  decide +kernel

end Chewie.Mm.Gran
