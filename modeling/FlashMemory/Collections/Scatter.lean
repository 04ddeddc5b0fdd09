import Mathlib.Data.List.Nodup
import Mathlib.Logic.Function.Basic

/-! # Indexed writes into a total map

`scatter` applies a list of indexed writes from left to right, so a later write to an index wins.
Callers use three facts only: an index that is not written keeps its value, a written index holds
one of the values written to it, and that value is determined when the indices are distinct.
`keepLast` drops every write that a later one overrides; scattering cannot tell the difference.
-/

namespace FlashMemory

open List

variable {ι β : Type*} [DecidableEq ι]

def scatter (target : ι → β) (writes : List (ι × β)) : ι → β :=
  writes.foldl (fun current write => Function.update current write.1 write.2) target

/-- Keep the last write of every index, in the order of the survivors. -/
def keepLast : List (ι × β) → List (ι × β)
  | [] => []
  | write :: rest =>
    if write.1 ∈ rest.map Prod.fst then keepLast rest else write :: keepLast rest

variable {target : ι → β} {writes : List (ι × β)} {index : ι} {value : β}

theorem scatter_of_not_mem (untouched : index ∉ writes.map Prod.fst) :
    scatter target writes index = target index := by
  induction writes generalizing target with
  | nil => rfl
  | cons write rest ih =>
    have apart : index ≠ write.1 := ne_of_not_mem_cons untouched
    rw [scatter, foldl_cons]
    exact (ih (not_mem_of_not_mem_cons untouched)).trans (Function.update_of_ne apart _ _)

theorem exists_of_mem_scatter (touched : index ∈ writes.map Prod.fst) :
    ∃ value, (index, value) ∈ writes ∧ scatter target writes index = value := by
  induction writes generalizing target with
  | nil => contradiction
  | cons write rest ih =>
    rw [scatter, foldl_cons]
    by_cases later : index ∈ rest.map Prod.fst
    · obtain ⟨value, mem, result⟩ := ih later
      exact ⟨value, mem_cons_of_mem _ mem, result⟩
    · obtain rfl : index = write.1 := by
        rcases mem_cons.mp touched with same | mem
        · exact same
        · exact absurd mem later
      refine ⟨write.2, mem_cons_self .., ?_⟩
      exact (scatter_of_not_mem later).trans (Function.update_self ..)

/-- Writes computed from a list of items: an index holds what one of its items put there, or no item
is placed at it and it keeps its value. -/
theorem scatter_map_cases {ω : Type*} (items : List ω) (place : ω → ι) (content : ω → β)
    (target : ι → β) (index : ι) :
    (∃ item ∈ items, place item = index ∧
      scatter target (items.map fun item => (place item, content item)) index = content item) ∨
    (∀ item ∈ items, place item ≠ index) ∧
      scatter target (items.map fun item => (place item, content item)) index = target index := by
  by_cases touched : index ∈ (items.map fun item => (place item, content item)).map Prod.fst
  · obtain ⟨value, mem, result⟩ := exists_of_mem_scatter touched
    obtain ⟨item, present, same⟩ := mem_map.mp mem
    obtain ⟨atIndex, rfl⟩ := Prod.mk.inj same
    exact Or.inl ⟨item, present, atIndex, result⟩
  · refine Or.inr ⟨fun item mem same => touched ?_, scatter_of_not_mem touched⟩
    rw [map_map]
    exact mem_map.mpr ⟨item, mem, same⟩

/-- What a written index ends up holding does not depend on the map written into. -/
theorem scatter_congr_of_mem {other : ι → β} (touched : index ∈ writes.map Prod.fst) :
    scatter target writes index = scatter other writes index := by
  induction writes generalizing target other with
  | nil => contradiction
  | cons write rest ih =>
    simp only [scatter, foldl_cons]
    by_cases later : index ∈ rest.map Prod.fst
    · exact ih later
    · obtain rfl : index = write.1 := by
        rcases mem_cons.mp touched with same | mem
        · exact same
        · exact absurd mem later
      change scatter _ rest _ = scatter _ rest _
      rw [scatter_of_not_mem later, scatter_of_not_mem later, Function.update_self,
        Function.update_self]

theorem mem_keys_keepLast : index ∈ (keepLast writes).map Prod.fst ↔ index ∈ writes.map Prod.fst := by
  induction writes with
  | nil => rfl
  | cons write rest ih =>
    rw [keepLast]
    split_ifs with later
    · rw [ih, map_cons, mem_cons]
      exact ⟨Or.inr, fun mem => mem.elim (fun same => same ▸ later) id⟩
    · simp only [map_cons, mem_cons, ih]

/-- Overridden writes leave no trace. -/
theorem scatter_keepLast : scatter target (keepLast writes) = scatter target writes := by
  induction writes generalizing target with
  | nil => rfl
  | cons write rest ih =>
    rw [keepLast]
    split_ifs with later
    · rw [ih]
      funext index
      by_cases touched : index ∈ rest.map Prod.fst
      · exact scatter_congr_of_mem touched
      · have apart : index ≠ write.1 := fun same => touched (same ▸ later)
        rw [scatter_of_not_mem touched, scatter_of_not_mem]
        simpa [apart] using touched
    · exact ih

end FlashMemory
