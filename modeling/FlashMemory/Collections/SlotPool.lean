import FlashMemory.Collections.OrderedDict
import Mathlib.Data.List.Range
import Mathlib.Data.List.Dedup

/-! # Slot pools with a high-water mark, a free stack and age-ordered eviction

A pool hands numbered slots to keys. A key is served from the free stack, then from the high-water
mark, and only at capacity from the oldest unprotected key. `serve` is that loop. The eviction
variant `serveBatch` collects all its victims at the first shortage, and `bumpAll` is the contiguous
shortcut; both compute the same serving wherever a caller may use them.

`WellFormed` says that the assigned slots and the free stack partition the slots below the
high-water mark. Everything a client needs about one serving is a lemma about lookups, the evicted
keys and exhaustion; none of them mentions what a slot is used for.
-/

namespace FlashMemory

open List OrderedDict

/-- `slots` is oldest first and `free` has its top first. -/
structure SlotPool (κ : Type*) where
  slots : OrderedDict κ ℕ
  next : ℕ
  free : List ℕ

/-- One served key. A hit kept the slot it had, any other key was given one. -/
structure Served (κ : Type*) where
  key : κ
  slot : ℕ
  hit : Bool

/-- The outcome of serving a list of keys, with the evicted keys in eviction order. -/
structure Serving (κ : Type*) where
  pool : SlotPool κ
  served : List (Served κ)
  evicted : List κ
  exhausted : Bool

namespace Serving

variable {κ : Type*}

def keys (serving : Serving κ) : List κ := serving.served.map Served.key

/-- Record one more served key in front, together with the victims it cost. -/
def record (serving : Serving κ) (item : Served κ) (victims : List κ) : Serving κ :=
  { serving with served := item :: serving.served, evicted := victims ++ serving.evicted }

end Serving

namespace SlotPool

variable {κ : Type*} {pool next : SlotPool κ} {cap : ℕ}
variable {slot : ℕ} {guarded : List κ}

def fresh : SlotPool κ := ⟨.empty, 0, []⟩

/-- Assigned and free slots are exactly the slots below the high-water mark, once each. -/
structure WellFormed (cap : ℕ) (pool : SlotPool κ) : Prop where
  partition : (pool.slots.values ++ pool.free).Perm (List.range pool.next)
  bound : pool.next ≤ cap

theorem fresh_wellFormed (cap : ℕ) : (fresh : SlotPool κ).WellFormed cap :=
  ⟨List.Perm.refl _, Nat.zero_le _⟩

namespace WellFormed

variable {cap : ℕ} {pool : SlotPool κ}

section

variable (valid : pool.WellFormed cap)

include valid

theorem nodup : (pool.slots.values ++ pool.free).Nodup :=
  valid.partition.nodup_iff.mpr nodup_range

theorem length_keys : pool.slots.keys.length + pool.free.length = pool.next := by
  have count := valid.partition.length_eq
  rwa [length_append, length_range, values_length, ← keys_length] at count

theorem slot_lt_next (used : slot ∈ pool.slots.values ++ pool.free) : slot < pool.next :=
  mem_range.mp (valid.partition.mem_iff.mp used)

theorem slot_lt [DecidableEq κ] {key : κ} (found : pool.slots.get? key = some slot) : slot < cap :=
  Nat.lt_of_lt_of_le
    (valid.slot_lt_next (mem_append_left _ (mem_values_of_get? found))) valid.bound

/-- Distinct keys hold distinct slots. -/
theorem injective [DecidableEq κ] {first second : κ} (left : pool.slots.get? first = some slot)
    (right : pool.slots.get? second = some slot) : first = second := by
  have distinct : (pool.slots.entries.map Prod.snd).Nodup := valid.nodup.of_append_left
  have same := inj_on_of_nodup_map distinct ((pool.slots.get?_eq_some_iff _ _).mp left)
    ((pool.slots.get?_eq_some_iff _ _).mp right) rfl
  exact congrArg Prod.fst same

end

end WellFormed

/-- A slot that costs no eviction: the top of the free stack, or the high-water mark. -/
def acquire? (cap : ℕ) (pool : SlotPool κ) : Option (ℕ × SlotPool κ) :=
  match pool.free with
  | slot :: rest => some (slot, { pool with free := rest })
  | [] => if pool.next < cap then some (pool.next, { pool with next := pool.next + 1 }) else none

theorem acquire?_slots (acquired : pool.acquire? cap = some (slot, next)) : next.slots = pool.slots := by
  unfold acquire? at acquired
  split at acquired
  · cases acquired
    rfl
  · split_ifs at acquired
    cases acquired
    rfl

/-- Acquiring consumes exactly one unit of the slack in the free stack and under the capacity. -/
theorem acquire?_slack (acquired : pool.acquire? cap = some (slot, next)) :
    pool.free.length + (cap - pool.next) = next.free.length + (cap - next.next) + 1 := by
  unfold acquire? at acquired
  split at acquired
  · next shape =>
    cases acquired
    simp only [shape, length_cons]
    omega
  · next shape =>
    split_ifs at acquired with room
    cases acquired
    simp only [shape, length_nil]
    omega

theorem acquire?_eq_none_iff {pool : SlotPool κ} : pool.acquire? cap = none ↔ pool.free = [] ∧ cap ≤ pool.next := by
  unfold acquire?
  split
  · next shape => simp [shape]
  · next shape => simp [shape]

variable [DecidableEq κ]

def assign (pool : SlotPool κ) (key : κ) (slot : ℕ) : SlotPool κ :=
  { pool with slots := pool.slots.set key slot }

def touch (pool : SlotPool κ) (key : κ) : SlotPool κ :=
  { pool with slots := pool.slots.moveToEnd key }

/-- The entries that may be evicted, oldest first. -/
def evictable (pool : SlotPool κ) (guarded : List κ) : List (κ × ℕ) :=
  pool.slots.entries.filter (fun entry => entry.1 ∉ guarded)

/-- Evict the oldest unguarded key. -/
def evict? (pool : SlotPool κ) (guarded : List κ) : Option ((κ × ℕ) × SlotPool κ) :=
  match pool.slots.entries.find? (fun entry => entry.1 ∉ guarded) with
  | some victim => some (victim, { pool with slots := pool.slots.pop victim.1 })
  | none => none

/-- Serve the keys in order, stopping at the first key that finds no slot. -/
def serve (cap : ℕ) (guarded : List κ) : List κ → SlotPool κ → Serving κ
  | [], pool => ⟨pool, [], [], false⟩
  | key :: rest, pool =>
    match pool.slots.get? key with
    | some slot => (serve cap guarded rest (pool.touch key)).record ⟨key, slot, true⟩ []
    | none =>
      match pool.acquire? cap with
      | some (slot, next) =>
        (serve cap guarded rest (next.assign key slot)).record ⟨key, slot, false⟩ []
      | none =>
        match pool.evict? guarded with
        | some (victim, next) =>
          (serve cap guarded rest (next.assign key victim.2)).record ⟨key, victim.2, false⟩ [victim.1]
        | none => ⟨pool, [], [], true⟩

/-- The keys that own a slot, each with the slot it owns. -/
def hits (pool : SlotPool κ) (keys : List κ) : List (Served κ) :=
  keys.filterMap fun key => (pool.slots.get? key).map fun slot => ⟨key, slot, true⟩

/-- Give a contiguous run of slots at the high-water mark to the keys. -/
def bumpAll (pool : SlotPool κ) (keys : List κ) : Serving κ :=
  let given := keys.zip (List.range' pool.next keys.length)
  { pool :=
      { pool with
        slots := given.foldl (fun slots entry => slots.set entry.1 entry.2) pool.slots
        next := pool.next + keys.length }
    served := given.map fun entry => ⟨entry.1, entry.2, false⟩
    evicted := []
    exhausted := false }

/-- The pool once a batch of victims is taken out of it. -/
def without (pool : SlotPool κ) (victims : List (κ × ℕ)) : SlotPool κ :=
  { pool with slots := victims.foldl (fun slots victim => slots.pop victim.1) pool.slots }

/-- Evict up to `needed` of the oldest unguarded keys in one pass. -/
def evictBatch (pool : SlotPool κ) (guarded : List κ) (needed : ℕ) : List (κ × ℕ) × SlotPool κ :=
  let victims := (pool.evictable guarded).take (max needed 1)
  (victims, pool.without victims)

/-- Serve absent keys; the first shortage evicts for all the keys still unserved, and `handed` is
what remains of that batch. -/
def serveBatch (cap : ℕ) (guarded : List κ) : List κ → Option (List ℕ) → SlotPool κ → Serving κ
  | [], _, pool => ⟨pool, [], [], false⟩
  | key :: rest, handed, pool =>
    match pool.acquire? cap with
    | some (slot, next) =>
      (serveBatch cap guarded rest handed (next.assign key slot)).record ⟨key, slot, false⟩ []
    | none =>
      let batch := match handed with
        | some slots => (([], slots), pool)
        | none =>
          let (victims, next) := pool.evictBatch guarded (rest.length + 1)
          ((victims.map Prod.fst, victims.map Prod.snd), next)
      match batch.1.2 with
      | slot :: more =>
        (serveBatch cap guarded rest (some more) (batch.2.assign key slot)).record
          ⟨key, slot, false⟩ batch.1.1
      | [] => ⟨batch.2, [], batch.1.1, true⟩

/-- Return the slots of the bound keys to the free stack. -/
def release (pool : SlotPool κ) (keys : List κ) : SlotPool κ :=
  keys.foldl (fun pool key =>
    match pool.slots.get? key with
    | some slot => { pool with slots := pool.slots.pop key, free := slot :: pool.free }
    | none => pool) pool

/-! ## Single operations -/

theorem get?_assign (pool : SlotPool κ) (key query : κ) (slot : ℕ) :
    (pool.assign key slot).slots.get? query =
      if query = key then some slot else pool.slots.get? query :=
  pool.slots.get?_set key query slot

theorem get?_touch (pool : SlotPool κ) (key query : κ) :
    (pool.touch key).slots.get? query = pool.slots.get? query :=
  pool.slots.get?_moveToEnd key query

theorem touch_wellFormed {pool : SlotPool κ} (valid : pool.WellFormed cap) (key : κ) :
    (pool.touch key).WellFormed cap :=
  ⟨((pool.slots.values_moveToEnd_perm key).append_right _).trans valid.partition, valid.bound⟩

theorem acquire?_assign_wellFormed {key : κ} (valid : pool.WellFormed cap) (absent : key ∉ pool.slots.keys)
    (acquired : pool.acquire? cap = some (slot, next)) : (next.assign key slot).WellFormed cap := by
  have same := acquire?_slots acquired
  have values : (next.assign key slot).slots.values = pool.slots.values ++ [slot] := by
    simp only [assign, same]
    exact pool.slots.values_set_of_absent slot absent
  unfold acquire? at acquired
  split at acquired
  · next shape =>
    cases acquired
    refine ⟨?_, valid.bound⟩
    have partition := valid.partition
    rw [shape] at partition
    rw [values, append_assoc]
    exact partition
  · next shape =>
    split_ifs at acquired with room
    cases acquired
    refine ⟨?_, room⟩
    rw [values]
    have partition := valid.partition
    simp only [shape, append_nil] at partition
    simp only [assign, shape, append_nil, range_succ]
    exact partition.append_right _

theorem evict?_eq_some {victim : κ × ℕ} (evicted : pool.evict? guarded = some (victim, next)) :
    pool.slots.get? victim.1 = some victim.2 ∧ victim.1 ∉ guarded ∧
      next = { pool with slots := pool.slots.pop victim.1 } := by
  unfold evict? at evicted
  split at evicted
  · next found =>
    cases evicted
    refine ⟨?_, ?_, rfl⟩
    · exact (pool.slots.get?_eq_some_iff _ _).mpr (mem_of_find?_eq_some found)
    · simpa using find?_some found
  · contradiction

theorem evict?_eq_none {pool : SlotPool κ} (stuck : pool.evict? guarded = none) :
    ∀ key ∈ pool.slots.keys, key ∈ guarded := by
  unfold evict? at stuck
  split at stuck
  · contradiction
  · next absent =>
    intro key mem
    obtain ⟨entry, present, rfl⟩ := mem_map.mp mem
    simpa using find?_eq_none.mp absent entry present

theorem evict?_assign_wellFormed {victim : κ × ℕ} {key : κ} (valid : pool.WellFormed cap)
    (absent : key ∉ pool.slots.keys) (evicted : pool.evict? guarded = some (victim, next)) :
    (next.assign key victim.2).WellFormed cap := by
  obtain ⟨found, _, rfl⟩ := evict?_eq_some evicted
  have absent' : key ∉ (pool.slots.pop victim.1).keys := by
    rw [keys_pop]
    exact fun mem => absent (mem_filter.mp mem).1
  refine ⟨?_, valid.bound⟩
  simp only [assign, values_set_of_absent _ _ absent']
  exact (((perm_append_singleton _ _).trans
    (values_pop_perm found)).append_right _).trans valid.partition

theorem mem_hits {pool : SlotPool κ} {keys : List κ} {item : Served κ} :
    item ∈ pool.hits keys ↔
      item.key ∈ keys ∧ pool.slots.get? item.key = some item.slot ∧ item.hit = true := by
  simp only [hits, mem_filterMap, Option.map_eq_some_iff]
  constructor
  · rintro ⟨key, mem, slot, found, rfl⟩
    exact ⟨mem, found, rfl⟩
  · rintro ⟨mem, found, isHit⟩
    exact ⟨item.key, mem, item.slot, found, by rw [← isHit]⟩

/-! ## Releasing keys -/

theorem get?_release (pool : SlotPool κ) (keys : List κ) (query : κ) :
    (pool.release keys).slots.get? query =
      if query ∈ keys then none else pool.slots.get? query := by
  induction keys generalizing pool with
  | nil => simp [release]
  | cons key rest ih =>
    simp only [release, foldl_cons] at ih ⊢
    cases found : pool.slots.get? key with
    | none =>
      simp only [ih, mem_cons]
      by_cases same : query = key
      · simp [same, found]
      · simp [same]
    | some slot =>
      simp only [ih, get?_pop, mem_cons]
      by_cases same : query = key <;> simp [same]

theorem keys_release_subset (pool : SlotPool κ) (keys : List κ) : (pool.release keys).slots.keys ⊆ pool.slots.keys := by
  intro key mem
  obtain ⟨slot, found⟩ := (mem_keys_iff _ key).mp mem
  rw [get?_release] at found
  split_ifs at found
  exact mem_keys_of_get? found

theorem release_next (pool : SlotPool κ) (keys : List κ) : (pool.release keys).next = pool.next := by
  induction keys generalizing pool with
  | nil => rfl
  | cons key rest ih =>
    simp only [release, foldl_cons] at ih ⊢
    rw [ih]
    split <;> rfl

theorem release_wellFormed {pool : SlotPool κ} (valid : pool.WellFormed cap) (keys : List κ) :
    (pool.release keys).WellFormed cap := by
  induction keys generalizing pool with
  | nil => exact valid
  | cons key rest ih =>
    simp only [release, foldl_cons] at ih ⊢
    apply ih
    split
    · next slot found =>
      refine ⟨?_, valid.bound⟩
      have moved := (values_pop_perm found).append_right pool.free
      exact (perm_middle.trans moved).trans valid.partition
    · exact valid

end SlotPool

end FlashMemory
