import FlashMemory.Collections.SlotServing

/-! # The shortcuts of a slot pool compute the same serving

Callers that know more than `serve` does use cheaper loops. Keys that own no slot and fit above the
high-water mark take a contiguous run, keys that may need eviction take their victims in one batch,
and keys that all own a slot only change their age. Each of these is `serve` on the same keys, so
what is proved about `serve` carries over.
-/

namespace FlashMemory.SlotPool

open List OrderedDict

variable {κ : Type*} [DecidableEq κ] {cap : ℕ} {guarded keys : List κ} {pool : SlotPool κ}

theorem mem_keys_foldl_touch {aged : List κ} {query : κ} :
    query ∈ (aged.foldl touch pool).slots.keys ↔ query ∈ pool.slots.keys := by
  induction aged generalizing pool with
  | nil => rfl
  | cons key rest ih =>
    rw [foldl_cons, ih]
    exact pool.slots.mem_keys_moveToEnd key query

/-- Serving keys that own a slot reports it, and ages those keys before the rest is served. -/
theorem serve_owned_append {owned new : List κ} (bound : ∀ key ∈ owned, key ∈ pool.slots.keys) :
    serve cap guarded (owned ++ new) pool =
      let rest := serve cap guarded new (owned.foldl touch pool)
      { rest with served := pool.hits owned ++ rest.served } := by
  induction owned generalizing pool with
  | nil => rfl
  | cons key rest ih =>
    obtain ⟨slot, found⟩ := (pool.slots.mem_keys_iff key).mp (bound key (mem_cons_self ..))
    have bound' : ∀ other ∈ rest, other ∈ (pool.touch key).slots.keys := fun other mem =>
      (pool.slots.mem_keys_moveToEnd key other).mpr (bound other (mem_cons_of_mem _ mem))
    have sameHits : (pool.touch key).hits rest = pool.hits rest := by
      simp only [hits, get?_touch]
    have first : pool.hits (key :: rest) = ⟨key, slot, true⟩ :: pool.hits rest := by
      simp only [hits, filterMap_cons, found, Option.map_some]
    simp only [cons_append, serve, found, ih bound', sameHits, Serving.record, first,
      nil_append, foldl_cons]

private theorem absent_assign {key : κ} {rest : List κ} (slot : ℕ)
    (absent : ∀ other ∈ key :: rest, other ∉ pool.slots.keys) (distinct : (key :: rest).Nodup) :
    ∀ other ∈ rest, other ∉ (pool.assign key slot).slots.keys := by
  intro other mem
  have apart : other ≠ key := fun same => (nodup_cons.mp distinct).1 (same ▸ mem)
  rw [assign, keys_set_of_absent _ _ (absent key (mem_cons_self ..))]
  simpa [apart] using absent other (mem_cons_of_mem _ mem)

theorem evict?_of_evictable {victim : κ × ℕ} {tail : List (κ × ℕ)}
    (shape : pool.evictable guarded = victim :: tail) :
    pool.evict? guarded = some (victim, { pool with slots := pool.slots.pop victim.1 }) := by
  have first : pool.slots.entries.find? (fun entry => entry.1 ∉ guarded) = some victim := by
    rw [← head?_filter]
    exact congrArg List.head? shape
  unfold evict?
  rw [first]

theorem evict?_of_evictable_nil (shape : pool.evictable guarded = []) :
    pool.evict? guarded = none := by
  have first : pool.slots.entries.find? (fun entry => entry.1 ∉ guarded) = none := by
    rw [← head?_filter]
    exact congrArg List.head? shape
  unfold evict?
  rw [first]

section

variable (absent : ∀ key ∈ keys, key ∉ pool.slots.keys) (distinct : keys.Nodup)

include absent distinct

theorem bumpAll_eq_serve (noFree : pool.free = []) (fits : pool.next + keys.length ≤ cap) :
    pool.bumpAll keys = serve cap guarded keys pool := by
  induction keys generalizing pool with
  | nil => rfl
  | cons key rest ih =>
    have unbound := absent key (mem_cons_self ..)
    have room : pool.next < cap := by simp only [length_cons] at fits; omega
    have acquired : pool.acquire? cap = some (pool.next, { pool with next := pool.next + 1 }) := by
      simp only [acquire?, noFree, room, ↓reduceIte]
    have absent' := @absent_assign κ _ { pool with next := pool.next + 1 } key rest pool.next absent distinct
    have step := ih absent' (nodup_cons.mp distinct).2 noFree
      (by simp only [assign]; simp only [length_cons] at fits; omega)
    rw [serve, (pool.slots.get?_eq_none_iff key).mpr unbound, acquired]
    simp only
    rw [← step]
    simp only [bumpAll, Serving.record, assign, length_cons, range'_succ,
      zip_cons_cons, foldl_cons, map_cons, append_nil, Serving.mk.injEq,
      SlotPool.mk.injEq, true_and, and_true]
    omega

/-- At capacity, handing out a batch removed beforehand serves what evicting one at a time does. -/
private theorem serveBatch_handed (full : pool.acquire? cap = none) (inGuard : ∀ key ∈ keys, key ∈ guarded) :
    let victims := (pool.evictable guarded).take keys.length
    serveBatch cap guarded keys (some (victims.map Prod.snd)) (pool.without victims) =
      { serve cap guarded keys pool with evicted := [] } := by
  induction keys generalizing pool with
  | nil => rfl
  | cons key rest ih =>
    have unbound := absent key (mem_cons_self ..)
    have lookup := (pool.slots.get?_eq_none_iff key).mpr unbound
    cases shape : pool.evictable guarded with
    | nil =>
      simp only [take_nil, map_nil, serveBatch, without, foldl_nil, full, serve,
        lookup, evict?_of_evictable_nil shape]
    | cons victim tail =>
      have chosen := evict?_of_evictable shape
      obtain ⟨noFree, top⟩ := acquire?_eq_none_iff.mp full
      have keyGuarded := inGuard key (mem_cons_self ..)
      let next : SlotPool κ := { pool with slots := pool.slots.pop victim.1 }
      have absent' : ∀ other ∈ key :: rest, other ∉ next.slots.keys := by
        intro other mem
        rw [keys_pop]
        exact fun present => absent other mem (mem_filter.mp present).1
      have unbound' := absent' key (mem_cons_self ..)
      have order : (next.assign key victim.2).evictable guarded = tail := by
        have remaining := (evict?_evictable chosen).symm.trans shape
        rw [← (List.cons.inj remaining).2, evictable, assign, set_of_absent _ _ _ unbound']
        simp only [push, filter_append, filter_cons, keyGuarded,
          not_true_eq_false, decide_false, Bool.false_eq_true, ↓reduceIte, filter_nil,
          append_nil]
        rfl
      have stillFull : (next.assign key victim.2).acquire? cap = none :=
        acquire?_eq_none_iff.mpr ⟨noFree, top⟩
      have step := ih (absent_assign victim.2 absent' distinct) (nodup_cons.mp distinct).2 stillFull
        (forall_mem_cons.mp inGuard).2
      have sparedTail : key ∉ (tail.take rest.length).map Prod.fst := by
        intro mem
        obtain ⟨entry, present, rfl⟩ := mem_map.mp mem
        have listed : entry ∈ pool.evictable guarded := by
          rw [shape]
          exact mem_cons_of_mem _ (mem_of_mem_take present)
        exact (of_decide_eq_true (mem_filter.mp listed).2) keyGuarded
      have moved : (next.assign key victim.2).without (tail.take rest.length) =
          (pool.without (victim :: tail.take rest.length)).assign key victim.2 := by
        simp only [without, assign, foldl_cons, SlotPool.mk.injEq]
        exact ⟨foldl_pop_set _ _ unbound' sparedTail, rfl, rfl⟩
      have full' : (pool.without (victim :: tail.take rest.length)).acquire? cap = none :=
        acquire?_eq_none_iff.mpr ⟨noFree, top⟩
      simp only [order] at step
      simp only [length_cons, take_succ_cons, map_cons, serveBatch, full']
      rw [← moved, step]
      simp only [serve, lookup, full, chosen, Serving.record, append_nil]
      rfl

/-- Evicting in one batch is the same serving as evicting key by key. -/
theorem serveBatch_eq_serve (inGuard : ∀ key ∈ keys, key ∈ guarded) :
    serveBatch cap guarded keys none pool = serve cap guarded keys pool := by
  induction keys generalizing pool with
  | nil => rfl
  | cons key rest ih =>
    have unbound := absent key (mem_cons_self ..)
    have lookup := (pool.slots.get?_eq_none_iff key).mpr unbound
    cases acquired : pool.acquire? cap with
    | some given =>
      obtain ⟨slot, next⟩ := given
      have absent' : ∀ other ∈ key :: rest, other ∉ next.slots.keys := by
        rw [acquire?_slots acquired]
        exact absent
      simp only [serveBatch, serve, lookup, acquired]
      rw [ih (absent_assign slot absent' distinct) (nodup_cons.mp distinct).2 (forall_mem_cons.mp inGuard).2]
    | none =>
      have handed := serveBatch_handed absent distinct acquired inGuard
      have evicted : (serve cap guarded (key :: rest) pool).evicted = _ :=
        serve_evicted_eq inGuard distinct
      obtain ⟨noFree, top⟩ := acquire?_eq_none_iff.mp acquired
      have count : pool.missing (key :: rest) = rest.length + 1 := by
        rw [missing, filter_eq_self.mpr (fun other mem =>
          decide_eq_true (absent other mem)), length_cons]
      rw [victims, count, noFree, length_nil, Nat.zero_add, Nat.sub_eq_zero_of_le top, Nat.sub_zero,
        ← evictable_keys, ← map_take] at evicted
      have full' : (pool.without ((pool.evictable guarded).take (rest.length + 1))).acquire? cap = none :=
        acquire?_eq_none_iff.mpr ⟨noFree, top⟩
      have cut : max (rest.length + 1) 1 = rest.length + 1 := by omega
      simp only [length_cons, serveBatch, full'] at handed
      simp only [serveBatch, acquired, evictBatch, cut]
      cases shape : ((pool.evictable guarded).take (rest.length + 1)).map Prod.snd with
      | cons slot more =>
        simp only [shape, Serving.record, Serving.mk.injEq, nil_append] at handed
        obtain ⟨samePool, sameServed, noneLeft, sameFlag⟩ := handed
        simp only [Serving.record]
        rw [samePool, sameServed, noneLeft, sameFlag, append_nil, ← evicted]
      | nil =>
        simp only [shape, Serving.mk.injEq] at handed
        obtain ⟨samePool, sameServed, -, sameFlag⟩ := handed
        dsimp only
        rw [samePool, sameServed, sameFlag, ← evicted]

end

end FlashMemory.SlotPool
