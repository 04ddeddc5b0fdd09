import Mathlib.Data.List.Nodup
import Mathlib.Data.List.Perm.Basic

/-! # Insertion-ordered dictionaries

An `OrderedDict` keeps its bindings oldest first. Assigning a present key updates it in place,
assigning an absent key appends it, and `moveToEnd` makes a key the newest one. Mathlib's `AList`
prepends on insertion and therefore loses the age order that eviction reads. Distinct keys are
part of the type, so a binding is determined by membership in the entry list.
-/

namespace FlashMemory

open List

/-- Bindings in insertion order, with one binding per key. -/
structure OrderedDict (κ ν : Type*) where
  entries : List (κ × ν)
  distinct : (entries.map Prod.fst).Nodup

namespace OrderedDict

variable {κ ν : Type*} {dict : OrderedDict κ ν} {key : κ} {value : ν}

def empty : OrderedDict κ ν := ⟨[], nodup_nil⟩

/-- The keys, oldest first. -/
def keys (dict : OrderedDict κ ν) : List κ := dict.entries.map Prod.fst

/-- The values, in the order of their keys. -/
def values (dict : OrderedDict κ ν) : List ν := dict.entries.map Prod.snd

@[simp] theorem keys_empty : (empty : OrderedDict κ ν).keys = [] := rfl

theorem keys_nodup (dict : OrderedDict κ ν) : dict.keys.Nodup := dict.distinct

@[simp] theorem keys_length (dict : OrderedDict κ ν) : dict.keys.length = dict.entries.length :=
  length_map ..

@[simp] theorem values_length (dict : OrderedDict κ ν) : dict.values.length = dict.entries.length :=
  length_map ..

@[ext] theorem ext {first second : OrderedDict κ ν} (same : first.entries = second.entries) :
    first = second := by
  cases first
  cases second
  cases same
  rfl

variable [DecidableEq κ]

/-- The value bound to a key. -/
def get? (dict : OrderedDict κ ν) (key : κ) : Option ν :=
  (dict.entries.find? (fun entry => entry.1 = key)).map Prod.snd

/-- Remove a key; the ages of the others are kept. -/
def pop (dict : OrderedDict κ ν) (key : κ) : OrderedDict κ ν where
  entries := dict.entries.filter (fun entry => entry.1 ≠ key)
  distinct := dict.distinct.sublist (filter_sublist.map _)

theorem not_mem_keys_pop (dict : OrderedDict κ ν) (key : κ) : key ∉ (dict.pop key).keys := by
  intro mem
  obtain ⟨entry, kept, same⟩ := mem_map.mp mem
  exact (of_decide_eq_true (mem_filter.mp kept).2) same

/-- Append a binding for a key that has none. -/
def push (dict : OrderedDict κ ν) (key : κ) (value : ν) (absent : key ∉ dict.keys) :
    OrderedDict κ ν where
  entries := dict.entries ++ [(key, value)]
  distinct := by
    rw [map_append]
    exact dict.distinct.append (nodup_singleton _)
      (disjoint_singleton.mpr absent)

private theorem map_fst_update (entries : List (κ × ν)) (key : κ) (value : ν) :
    (entries.map fun entry => if entry.1 = key then (key, value) else entry).map Prod.fst =
      entries.map Prod.fst := by
  rw [map_map]
  apply map_congr_left
  intro entry _
  by_cases same : entry.1 = key <;> simp [same]

/-- Python's `dict[key] = value`: in place when the key is present, at the end when it is not. -/
def set (dict : OrderedDict κ ν) (key : κ) (value : ν) : OrderedDict κ ν :=
  if present : key ∈ dict.keys then
    { entries := dict.entries.map fun entry => if entry.1 = key then (key, value) else entry
      distinct := by rw [map_fst_update]; exact dict.distinct }
  else dict.push key value present

/-- Make a bound key the newest one. -/
def moveToEnd (dict : OrderedDict κ ν) (key : κ) : OrderedDict κ ν :=
  match dict.get? key with
  | some value => (dict.pop key).push key value (dict.not_mem_keys_pop key)
  | none => dict

/-- A lookup reads exactly the entry list, because keys are distinct. -/
theorem get?_eq_some_iff (dict : OrderedDict κ ν) (key : κ) (value : ν) :
    dict.get? key = some value ↔ (key, value) ∈ dict.entries := by
  constructor
  · intro found
    obtain ⟨⟨other, bound⟩, first, rfl⟩ := Option.map_eq_some_iff.mp found
    obtain rfl : other = key := by simpa using find?_some first
    exact mem_of_find?_eq_some first
  · intro mem
    cases first : dict.entries.find? (fun entry => entry.1 = key) with
    | none =>
      exact absurd (decide_eq_true rfl) (find?_eq_none.mp first (key, value) mem)
    | some entry =>
      have present := mem_of_find?_eq_some first
      have same : entry.1 = key := by simpa using find?_some first
      have equal : entry = (key, value) :=
        inj_on_of_nodup_map dict.distinct present mem same
      simp only [get?, first, equal, Option.map_some]

theorem get?_eq_none_iff (dict : OrderedDict κ ν) (key : κ) :
    dict.get? key = none ↔ key ∉ dict.keys := by
  simp only [get?, Option.map_eq_none_iff, find?_eq_none, keys, mem_map,
    decide_eq_true_eq, not_exists, not_and]

theorem mem_keys_iff (dict : OrderedDict κ ν) (key : κ) :
    key ∈ dict.keys ↔ ∃ value, dict.get? key = some value := by
  rw [← not_iff_not, ← get?_eq_none_iff, not_exists]
  cases dict.get? key <;> simp

theorem mem_keys_of_get? (found : dict.get? key = some value) : key ∈ dict.keys :=
  (dict.mem_keys_iff key).mpr ⟨value, found⟩

theorem mem_values_of_get? (found : dict.get? key = some value) : value ∈ dict.values :=
  mem_map.mpr ⟨(key, value), (dict.get?_eq_some_iff key value).mp found, rfl⟩

@[simp] theorem get?_empty (key : κ) : (empty : OrderedDict κ ν).get? key = none := rfl

/-- Removing a bound key removes one occurrence of its value. -/
theorem values_pop_perm (found : dict.get? key = some value) : (value :: (dict.pop key).values).Perm dict.values := by
  have mem := (dict.get?_eq_some_iff key value).mp found
  obtain ⟨before, after, shape⟩ := append_of_mem mem
  have distinct := dict.distinct
  rw [shape, map_append, map_cons, nodup_append] at distinct
  obtain ⟨_, tail, apart⟩ := distinct
  have keepBefore : before.filter (fun entry => entry.1 ≠ key) = before := by
    apply filter_eq_self.mpr
    intro entry present
    exact decide_eq_true (apart _ (mem_map_of_mem present) _ (mem_cons_self ..))
  have keepAfter : after.filter (fun entry => entry.1 ≠ key) = after := by
    apply filter_eq_self.mpr
    intro entry present
    apply decide_eq_true
    intro same
    have listed : entry.1 ∈ after.map Prod.fst := mem_map_of_mem present
    rw [same] at listed
    exact (nodup_cons.mp tail).1 listed
  have remaining : (dict.pop key).entries = before ++ after := by
    simp only [pop, shape, filter_append, keepBefore, filter_cons, ne_eq,
      not_true_eq_false, decide_false, Bool.false_eq_true, ↓reduceIte, keepAfter]
  simp only [values, remaining, shape, map_append, map_cons]
  exact perm_middle.symm

theorem keys_moveToEnd_of_get? (found : dict.get? key = some value) :
    (dict.moveToEnd key).keys = (dict.pop key).keys ++ [key] := by
  simp only [moveToEnd, found, push, keys, map_append, map_cons, map_nil]

section

variable (dict : OrderedDict κ ν)

theorem get?_pop (key query : κ) : (dict.pop key).get? query = if query = key then none else dict.get? query := by
  split
  · next same =>
    subst same
    exact (get?_eq_none_iff _ _).mpr (dict.not_mem_keys_pop _)
  · next other =>
    apply Option.ext
    intro value
    simp only [get?_eq_some_iff, pop, mem_filter, ne_eq, decide_not, Bool.not_eq_eq_eq_not,
      Bool.not_true, decide_eq_false_iff_not, other, not_false_eq_true, and_true]

@[simp] theorem keys_pop (key : κ) : (dict.pop key).keys = dict.keys.filter (· ≠ key) := by
  simp only [keys, pop, filter_map, Function.comp_def]

theorem get?_push (key query : κ) (value : ν) (absent : key ∉ dict.keys) :
    (dict.push key value absent).get? query = if query = key then some value else dict.get? query := by
  apply Option.ext
  intro bound
  rw [get?_eq_some_iff]
  simp only [push, mem_append, mem_singleton, Prod.mk.injEq, ← get?_eq_some_iff]
  split
  · next same =>
    subst same
    simp only [(get?_eq_none_iff _ _).mpr absent, reduceCtorEq, false_or, true_and,
      Option.some.injEq]
    exact eq_comm
  · next other => simp only [other, false_and, or_false]

theorem set_of_absent (key : κ) (value : ν) (absent : key ∉ dict.keys) :
    dict.set key value = dict.push key value absent := dif_neg absent

theorem get?_set (key query : κ) (value : ν) :
    (dict.set key value).get? query = if query = key then some value else dict.get? query := by
  by_cases present : key ∈ dict.keys
  · apply Option.ext
    intro bound
    rw [get?_eq_some_iff, set, dif_pos present]
    simp only [mem_map, Prod.exists]
    constructor
    · rintro ⟨other, old, mem, shape⟩
      split at shape
      · next same =>
        obtain ⟨rfl, rfl⟩ := Prod.mk.inj shape
        simp
      · next apart =>
        obtain ⟨rfl, rfl⟩ := Prod.mk.inj shape
        rw [if_neg apart]
        exact (get?_eq_some_iff _ _ _).mpr mem
    · intro found
      split at found
      · next same =>
        obtain ⟨old, bound'⟩ := (dict.mem_keys_iff key).mp present
        refine ⟨key, old, (get?_eq_some_iff _ _ _).mp bound', ?_⟩
        simp only [↓reduceIte, same, Option.some.inj found]
      · next apart =>
        exact ⟨query, bound, (get?_eq_some_iff _ _ _).mp found, if_neg apart⟩
  · rw [set_of_absent _ _ _ present, get?_push]

theorem keys_set_of_absent (value : ν) (absent : key ∉ dict.keys) : (dict.set key value).keys = dict.keys ++ [key] := by
  rw [set_of_absent _ _ _ absent]
  simp only [keys, push, map_append, map_cons, map_nil]

theorem values_set_of_absent (value : ν) (absent : key ∉ dict.keys) :
    (dict.set key value).values = dict.values ++ [value] := by
  rw [set_of_absent _ _ _ absent]
  simp only [values, push, map_append, map_cons, map_nil]

/-- Removing other keys commutes with appending an absent one. -/
theorem foldl_pop_set (victims : List (κ × ν)) (absent : key ∉ dict.keys) (spared : key ∉ victims.map Prod.fst) :
    victims.foldl (fun dict victim => dict.pop victim.1) (dict.set key value) =
      (victims.foldl (fun dict victim => dict.pop victim.1) dict).set key value := by
  induction victims generalizing dict with
  | nil => rfl
  | cons victim rest ih =>
    have apart : key ≠ victim.1 := ne_of_not_mem_cons spared
    have absent' : key ∉ (dict.pop victim.1).keys := by
      rw [keys_pop]
      exact fun mem => absent (mem_filter.mp mem).1
    have step : (dict.set key value).pop victim.1 = (dict.pop victim.1).set key value := by
      rw [set_of_absent _ _ _ absent, set_of_absent _ _ _ absent']
      apply ext
      simp only [pop, push, filter_append, filter_cons, ne_eq, apart, not_false_eq_true,
        decide_true, ↓reduceIte, filter_nil]
    rw [foldl_cons, foldl_cons, step]
    exact ih _ absent' (not_mem_of_not_mem_cons spared)

@[simp] theorem get?_moveToEnd (key query : κ) : (dict.moveToEnd key).get? query = dict.get? query := by
  unfold moveToEnd
  split
  · next value found =>
    rw [get?_push, get?_pop]
    split
    · next same => rw [same, found]
    · rfl
  · rfl

theorem mem_keys_moveToEnd (key query : κ) : query ∈ (dict.moveToEnd key).keys ↔ query ∈ dict.keys := by
  simp only [mem_keys_iff, get?_moveToEnd]

/-- Touching a key permutes the bindings. -/
theorem values_moveToEnd_perm (key : κ) : (dict.moveToEnd key).values.Perm dict.values := by
  unfold moveToEnd
  split
  · next value found =>
    simp only [values, push, map_append, map_cons, map_nil]
    exact (perm_append_singleton _ _).trans (values_pop_perm found)
  · exact List.Perm.refl _

/-- A touched key leaves the age order of all keys that a filter separates from it. -/
theorem filter_keys_moveToEnd (key : κ) (keep : κ → Bool) (dropped : keep key = false) :
    (dict.moveToEnd key).keys.filter keep = dict.keys.filter keep := by
  unfold moveToEnd
  split
  · next value found =>
    have shape : ((dict.pop key).push key value (dict.not_mem_keys_pop key)).keys =
        (dict.pop key).keys ++ [key] := by
      simp only [keys, push, map_append, map_cons, map_nil]
    rw [shape, filter_append, keys_pop, filter_filter]
    simp only [filter_cons, dropped, Bool.false_eq_true, ↓reduceIte, filter_nil,
      append_nil]
    apply filter_congr
    intro other _
    by_cases same : other = key
    · simp [same, dropped]
    · simp [same]
  · rfl

end

end OrderedDict

end FlashMemory
