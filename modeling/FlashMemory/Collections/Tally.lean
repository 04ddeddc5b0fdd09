import Mathlib.Data.List.Nodup
import Mathlib.Data.List.Perm.Basic
import Mathlib.Algebra.Group.Int.Defs

/-! # Tallies

The sum of a weight over a list of distinct items, and how it changes with the list and with the weight of one item.
-/

namespace FlashMemory

open List

variable {ι : Type} {weight weight' : ι → ℤ} {items items' : List ι} {item : ι}

/-- The sum of the weights. -/
def tally (weight : ι → ℤ) (items : List ι) : ℤ := items.foldr (fun item total => weight item + total) 0

@[simp] theorem tally_cons : tally weight (item :: items) = weight item + tally weight items := rfl

theorem tally_congr (same : ∀ item ∈ items, weight' item = weight item) : tally weight' items = tally weight items := by
  induction items with
  | nil => rfl
  | cons first rest ih =>
    rw [tally_cons, tally_cons, same first (mem_cons_self ..),
      ih (forall_mem_cons.mp same).2]

theorem tally_perm (perm : items'.Perm items) : tally weight items' = tally weight items := by
  induction perm with
  | nil => rfl
  | cons _ _ ih => rw [tally_cons, tally_cons, ih]
  | swap first second rest =>
    simp only [tally_cons]
    omega
  | trans _ _ first second => exact first.trans second

theorem tally_eq_zero (none : ∀ item ∈ items, weight item = 0) : tally weight items = 0 := by
  induction items with
  | nil => rfl
  | cons first rest ih =>
    rw [tally_cons, none first (mem_cons_self ..), ih (forall_mem_cons.mp none).2,
      Int.zero_add]

/-- Only some of the items. -/
theorem tally_filter {keep : ι → Bool} :
    tally weight (items.filter keep) = tally (fun item => if keep item then weight item else 0) items := by
  induction items with
  | nil => rfl
  | cons first rest ih =>
    rw [tally_cons, ← ih]
    cases kept : keep first with
    | true => rw [filter_cons_of_pos kept, tally_cons, if_pos rfl]
    | false => rw [filter_cons_of_neg (by simp [kept]), if_neg Bool.false_ne_true, Int.zero_add]

section

variable [DecidableEq ι] (nodup : items.Nodup) (mem : item ∈ items)
include nodup mem

/-- One item is put in front. -/
theorem perm_cons_filter_ne : (item :: items.filter (· ≠ item)).Perm items := by
  refine (perm_ext_iff_of_nodup ?_ nodup).mpr fun other => ?_
  · exact nodup_cons.mpr ⟨by simp, nodup.filter _⟩
  · by_cases same : other = item <;> simp [same, mem]

/-- Without one item. -/
theorem tally_filter_ne : tally weight (items.filter (· ≠ item)) = tally weight items - weight item := by
  rw [← tally_perm (perm_cons_filter_ne nodup mem), tally_cons]
  omega

/-- One weight has changed. -/
theorem tally_change (same : ∀ other ∈ items, other ≠ item → weight' other = weight other) :
    tally weight' items = tally weight items - weight item + weight' item := by
  have others : tally weight' (items.filter (· ≠ item)) = tally weight (items.filter (· ≠ item)) := by
    refine tally_congr fun other kept => ?_
    obtain ⟨inside, apart⟩ := mem_filter.mp kept
    exact same other inside (by simpa using apart)
  rw [tally_filter_ne nodup mem, tally_filter_ne nodup mem] at others
  omega

end

/-- Occurrences in lists that are put together. -/
theorem count_flatMap_eq_tally {α : Type} [DecidableEq α] {lists : ι → List α} {entry : α} :
    ((items.flatMap lists).count entry : ℤ) = tally (fun item => ((lists item).count entry : ℤ)) items := by
  induction items with
  | nil => rfl
  | cons first rest ih => rw [flatMap_cons, count_append, tally_cons, ← ih, Int.natCast_add]

/-- A predicate that implies another one counts the same only if it is the same. -/
theorem countP_eq_iff {β : Type*} {first second : β → Bool} {entries : List β}
    (implies : ∀ entry ∈ entries, first entry = true → second entry = true) :
    entries.countP first = entries.countP second ↔ ∀ entry ∈ entries, second entry = true → first entry = true := by
  induction entries with
  | nil => simp
  | cons entry entries ih =>
    obtain ⟨here, rest⟩ := forall_mem_cons.mp implies
    have fewer : entries.countP first ≤ entries.countP second := countP_mono_left rest
    rw [forall_mem_cons, ← ih rest, countP_cons, countP_cons]
    split_ifs with isFirst isSecond isSecond
    · simp [isFirst]
    · exact absurd (here isFirst) isSecond
    · have more : entries.countP first + 0 ≠ entries.countP second + 1 := by omega
      exact iff_of_false more fun both => isFirst (both.1 isSecond)
    · simp [isSecond]

end FlashMemory
