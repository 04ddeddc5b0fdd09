import Mathlib.Data.List.Nodup
import Mathlib.Data.List.Dedup
import Mathlib.Data.List.TakeDrop
import Mathlib.Algebra.Order.Ring.Nat

/-! # Lists of whole pages

A pool is cut into pages of one size. Lists that consist of whole pages stay such when they are cut at page boundaries
and put together, and one that holds an item holds the whole page of it.
-/

namespace FlashMemory

open List

variable {size : ℕ} {pages items items' : List ℕ} {item other len : ℕ}

/-- The items of some pages, page by page. -/
def ofPages (size : ℕ) (pages : List ℕ) : List ℕ := pages.flatMap fun page => (List.range size).map (page * size + ·)

/-- Does the list consist of whole pages? -/
def InPages (size : ℕ) (items : List ℕ) : Prop := ∃ pages, items = ofPages size pages

theorem ofPages_append (pages more : List ℕ) : ofPages size (pages ++ more) = ofPages size pages ++ ofPages size more :=
  flatMap_append

theorem length_ofPages : (ofPages size pages).length = pages.length * size := by
  induction pages with
  | nil => simp [ofPages]
  | cons page rest ih =>
    rw [ofPages, flatMap_cons, length_append, ← ofPages, ih, length_cons, Nat.succ_mul, Nat.add_comm]
    simp

theorem mem_ofPages (positive : 0 < size) : item ∈ ofPages size pages ↔ item / size ∈ pages := by
  rw [ofPages, mem_flatMap]
  constructor
  · rintro ⟨page, mem, inside⟩
    obtain ⟨offset, small, rfl⟩ := mem_map.mp inside
    rwa [Nat.mul_comm, Nat.mul_add_div positive, Nat.div_eq_of_lt (mem_range.mp small), Nat.add_zero]
  · intro mem
    refine ⟨item / size, mem, mem_map.mpr ⟨item % size, mem_range.mpr (Nat.mod_lt _ positive), ?_⟩⟩
    exact Nat.div_add_mod' item size

theorem nodup_ofPages (positive : 0 < size) (distinct : (ofPages size pages).Nodup) : pages.Nodup := by
  induction pages with
  | nil => exact nodup_nil
  | cons page rest ih =>
    rw [ofPages, flatMap_cons, ← ofPages, nodup_append] at distinct
    obtain ⟨_, distinct, apart⟩ := distinct
    refine nodup_cons.mpr ⟨fun mem => ?_, ih distinct⟩
    have first : page * size ∈ ofPages size rest := (mem_ofPages positive).mpr (by rwa [Nat.mul_div_cancel _ positive])
    exact apart (page * size) (mem_map.mpr ⟨0, mem_range.mpr positive, rfl⟩) _ first rfl

theorem take_ofPages (count : ℕ) : (ofPages size pages).take (count * size) = ofPages size (pages.take count) := by
  have whole : ofPages size (pages.take count ++ pages.drop count) = _ := ofPages_append ..
  rw [take_append_drop] at whole
  by_cases short : count ≤ pages.length
  · rw [whole, take_left']
    rw [length_ofPages, length_take, Nat.min_eq_left short]
  · have all := Nat.le_of_not_le short
    rw [take_of_length_le all, take_of_length_le]
    rw [length_ofPages]
    exact Nat.mul_le_mul_right size all

private theorem drop_ofPages (count : ℕ) :
    (ofPages size pages).drop (count * size) = ofPages size (pages.drop count) := by
  have whole : ofPages size (pages.take count ++ pages.drop count) = _ := ofPages_append ..
  rw [take_append_drop, ← take_ofPages] at whole
  exact append_cancel_left ((take_append_drop _ _).trans whole)

namespace InPages

theorem nil : InPages size [] := ⟨[], rfl⟩

theorem append (first : InPages size items) (second : InPages size items') : InPages size (items ++ items') := by
  obtain ⟨pages, rfl⟩ := first
  obtain ⟨more, rfl⟩ := second
  exact ⟨pages ++ more, (ofPages_append ..).symm⟩

theorem take (whole : InPages size items) (aligned : size ∣ len) : InPages size (items.take len) := by
  obtain ⟨pages, rfl⟩ := whole
  obtain ⟨count, rfl⟩ := aligned
  exact ⟨pages.take count, by rw [Nat.mul_comm, take_ofPages]⟩

theorem drop (whole : InPages size items) (aligned : size ∣ len) : InPages size (items.drop len) := by
  obtain ⟨pages, rfl⟩ := whole
  obtain ⟨count, rfl⟩ := aligned
  exact ⟨pages.drop count, by rw [Nat.mul_comm, drop_ofPages]⟩

section

variable (whole : InPages size (items ++ items')) (aligned : size ∣ items.length)
include whole aligned

theorem left : InPages size items := by
  simpa using whole.take aligned

theorem right : InPages size items' := by
  simpa using whole.drop aligned

end

/-- All of a page, or nothing. -/
theorem mem_of_page (whole : InPages size items) (positive : 0 < size) (mem : item ∈ items)
    (same : other / size = item / size) : other ∈ items := by
  obtain ⟨pages, rfl⟩ := whole
  rw [mem_ofPages positive] at mem ⊢
  exact same ▸ mem

/-- As many pages as fit. -/
theorem length_dedup (whole : InPages size items) (positive : 0 < size) (distinct : items.Nodup) :
    (items.map (· / size)).dedup.length * size = items.length := by
  obtain ⟨pages, rfl⟩ := whole
  have perm : ((ofPages size pages).map (· / size)).dedup.Perm pages := by
    refine (perm_ext_iff_of_nodup (nodup_dedup _) (nodup_ofPages positive distinct)).mpr fun page => ?_
    rw [mem_dedup, mem_map]
    constructor
    · rintro ⟨item, mem, rfl⟩
      exact (mem_ofPages positive).mp mem
    · intro mem
      have is : page * size / size = page := Nat.mul_div_cancel _ positive
      exact ⟨page * size, (mem_ofPages positive).mpr (by rwa [is]), is⟩
  rw [perm.length_eq, length_ofPages]

end InPages

/-- Two labellings that tell the same items apart have equally many labels. -/
theorem length_dedup_map_eq {α : Type} {first second : α → ℕ} {items : List α}
    (same : ∀ item ∈ items, ∀ other ∈ items, first item = first other ↔ second item = second other) :
    (items.map first).dedup.length = (items.map second).dedup.length := by
  induction items with
  | nil => rfl
  | cons item rest ih =>
    have shorter := ih fun item mem other isOther =>
      same item (mem_cons_of_mem _ mem) other (mem_cons_of_mem _ isOther)
    have repeated : first item ∈ rest.map first ↔ second item ∈ rest.map second := by
      simp only [mem_map]
      refine exists_congr fun other => and_congr_right fun mem => ?_
      exact same other (mem_cons_of_mem _ mem) item (mem_cons_self ..)
    rw [map_cons, map_cons]
    by_cases seen : first item ∈ rest.map first
    · rw [dedup_cons_of_mem seen, dedup_cons_of_mem (repeated.mp seen), shorter]
    · rw [dedup_cons_of_notMem seen, dedup_cons_of_notMem (fun again => seen (repeated.mpr again)),
        length_cons, length_cons, shorter]

end FlashMemory
