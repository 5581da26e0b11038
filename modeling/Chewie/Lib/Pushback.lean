import Mathlib.Data.List.Basic

/-!
# Decoders that give bytes back

A decoder is called again and again. It takes bytes from a stream and keeps those that it has read
in vain, to return them one by one. `decodeAll` collects the items until the decoder reports the
end, and `decodeAll_encode` is the rule for round trips: the items that were encoded come back
exactly when each of them is read back, provided that an item that is not read back is taken for
another one.
-/

namespace Chewie.Pushback

open List

variable {β ι κ : Type} {decode : List β → List β → Option (ι × List β × List β)}

/-- The items of at most so many calls, with the bytes given back and the stream. There is no result
when the end is not reached. -/
def decodeAll (decode : List β → List β → Option (ι × List β × List β)) :
    Nat → List β → List β → Option (List ι)
  | 0, _, _ => none
  | calls + 1, kept, stream =>
    match decode kept stream with
    | none => some []
    | some (item, kept, stream) => (decodeAll decode calls kept stream).map (item :: ·)

theorem decodeAll_end {kept stream : List β} {items : List ι} (ends : decode kept stream = none) :
    (∃ calls, decodeAll decode calls kept stream = some items) ↔ items = [] := by
  constructor
  · rintro ⟨calls, decoded⟩
    cases calls with
    | zero => cases decoded
    | succ calls =>
      simp only [decodeAll, ends] at decoded
      exact (Option.some.inj decoded).symm
  · rintro rfl
    exact ⟨1, by simp only [decodeAll, ends]⟩

theorem decodeAll_cons {kept stream later rest : List β} {item : ι} {items : List ι}
    (read : decode kept stream = some (item, later, rest)) :
    (∃ calls, decodeAll decode calls kept stream = some items) ↔
      ∃ more, items = item :: more ∧ ∃ calls, decodeAll decode calls later rest = some more := by
  constructor
  · rintro ⟨calls, decoded⟩
    cases calls with
    | zero => cases decoded
    | succ calls =>
      simp only [decodeAll, read] at decoded
      obtain ⟨more, found, rfl⟩ := Option.map_eq_some_iff.mp decoded
      exact ⟨more, rfl, calls, found⟩
  · rintro ⟨more, rfl, calls, found⟩
    exact ⟨calls + 1, by simp [decodeAll, read, found]⟩

/-- What was encoded is decoded exactly when every item is read back. -/
theorem decodeAll_encode {encode : κ → List β} {shown : κ → ι} {good : κ → Prop}
    (ends : decode [] [] = none) (items : List κ) (reads : ∀ item ∈ items, good item → ∀ suffix,
      decode [] (encode item ++ suffix) = some (shown item, [], suffix))
    (fails : ∀ item ∈ items, ¬good item → ∀ suffix, ∃ other kept rest, other ≠ shown item ∧
      decode [] (encode item ++ suffix) = some (other, kept, rest)) :
    (∃ calls, decodeAll decode calls [] (items.flatMap encode) = some (items.map shown)) ↔
      ∀ item ∈ items, good item := by
  induction items with
  | nil => exact iff_of_true ((decodeAll_end ends).mpr rfl) nofun
  | cons item items ih =>
    rw [flatMap_cons, map_cons, forall_mem_cons]
    by_cases fine : good item
    · rw [decodeAll_cons (reads item mem_cons_self fine _),
        ← ih (fun other mem => reads other (mem_cons_of_mem item mem))
          fun other mem => fails other (mem_cons_of_mem item mem)]
      simp [fine]
    · obtain ⟨other, kept, rest, differs, read⟩ := fails item mem_cons_self fine
        (items.flatMap encode)
      rw [decodeAll_cons read]
      simp [fine, Ne.symm differs]

end Chewie.Pushback
