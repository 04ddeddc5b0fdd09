import FlashMemory.Collections.SlotPool

/-! # What one serving does to a slot pool

The lemmas cover every outcome of `serve`: it keeps the partition, binds each served key, leaves
the other lookups alone except for the evicted keys, and evicts exactly the oldest unguarded keys
that the free stack and the capacity leave wanting. A guarded set no larger than the capacity can
never exhaust the pool. `serveBatch` and `bumpAll` are then reduced to `serve`.
-/

namespace FlashMemory.SlotPool

open List OrderedDict

variable {κ : Type*} [DecidableEq κ] {cap : ℕ} {guarded keys : List κ} {pool : SlotPool κ}

/-! ## One round -/

/-- A round of `serve`: the item it serves, the victims it takes out and the pool it leaves. -/
inductive Round (cap : ℕ) (guarded : List κ) (pool : SlotPool κ) : Served κ → List κ → SlotPool κ → Prop
  | hit {key : κ} {slot : ℕ} (found : pool.slots.get? key = some slot) :
    Round cap guarded pool ⟨key, slot, true⟩ [] (pool.touch key)
  | acquire {key : κ} {slot : ℕ} {next : SlotPool κ} (absent : key ∉ pool.slots.keys)
    (acquired : pool.acquire? cap = some (slot, next)) :
    Round cap guarded pool ⟨key, slot, false⟩ [] (next.assign key slot)
  | evict {key : κ} {victim : κ × ℕ} {next : SlotPool κ} (absent : key ∉ pool.slots.keys)
    (full : pool.acquire? cap = none) (evicted : pool.evict? guarded = some (victim, next)) :
    Round cap guarded pool ⟨key, victim.2, false⟩ [victim.1] (next.assign key victim.2)

/-- Induction on the rounds of `serve`. -/
@[elab_as_elim]
theorem serve_rounds (cap : ℕ) (guarded : List κ) {motive : List κ → SlotPool κ → Serving κ → Prop}
    (done : ∀ pool, motive [] pool ⟨pool, [], [], false⟩)
    (round : ∀ item rest pool victims next, Round cap guarded pool item victims next →
      motive rest next (serve cap guarded rest next) →
      motive (item.key :: rest) pool ((serve cap guarded rest next).record item victims))
    (stuck : ∀ key rest pool, key ∉ pool.slots.keys → pool.acquire? cap = none → pool.evict? guarded = none →
      motive (key :: rest) pool ⟨pool, [], [], true⟩)
    (keys : List κ) (pool : SlotPool κ) : motive keys pool (serve cap guarded keys pool) := by
  fun_induction serve cap guarded keys pool with
  | case1 pool => exact done pool
  | case2 key rest pool slot found ih => exact round _ rest pool _ _ (.hit found) ih
  | case3 key rest pool absent slot next acquired ih =>
    exact round _ rest pool _ _ (.acquire ((pool.slots.get?_eq_none_iff key).mp absent) acquired) ih
  | case4 key rest pool absent full victim next evicted ih =>
    exact round _ rest pool _ _ (.evict ((pool.slots.get?_eq_none_iff key).mp absent) full evicted) ih
  | case5 key rest pool absent full none =>
    exact stuck key rest pool ((pool.slots.get?_eq_none_iff key).mp absent) full none

namespace Round

variable {item : Served κ} {victims : List κ} {next : SlotPool κ} (round : Round cap guarded pool item victims next)

include round

theorem wellFormed (valid : pool.WellFormed cap) : next.WellFormed cap := by
  cases round with
  | hit found => exact touch_wellFormed valid _
  | acquire absent acquired => exact acquire?_assign_wellFormed valid absent acquired
  | evict absent full evicted => exact evict?_assign_wellFormed valid absent evicted

theorem unguarded : ∀ victim ∈ victims, victim ∉ guarded := by
  cases round with
  | hit found => exact fun _ none => absurd none not_mem_nil
  | acquire absent acquired => exact fun _ none => absurd none not_mem_nil
  | evict absent full evicted => exact fun _ only => mem_singleton.mp only ▸ (evict?_eq_some evicted).2.1

theorem hit_iff : item.hit = true ↔ item.key ∈ pool.slots.keys := by
  cases round with
  | hit found => exact iff_of_true rfl (mem_keys_of_get? found)
  | acquire absent acquired => exact iff_of_false Bool.false_ne_true absent
  | evict absent full evicted => exact iff_of_false Bool.false_ne_true absent

theorem get? (query : κ) : next.slots.get? query =
    if query = item.key then some item.slot else if query ∈ victims then none else pool.slots.get? query := by
  cases round with
  | hit found =>
    rw [get?_touch, if_neg not_mem_nil]
    split_ifs with same
    · exact same ▸ found
    · rfl
  | acquire absent acquired => rw [get?_assign, acquire?_slots acquired, if_neg not_mem_nil]
  | evict absent full evicted =>
    obtain ⟨_, _, rfl⟩ := evict?_eq_some evicted
    simp only [get?_assign, get?_pop, mem_singleton]

private theorem slot_of_bound {slot : ℕ} (bound : pool.slots.get? item.key = some slot) : item.slot = slot := by
  have present := mem_keys_of_get? bound
  cases round with
  | hit found => exact Option.some.inj (found.symm.trans bound)
  | acquire absent acquired => exact absurd present absent
  | evict absent full evicted => exact absurd present absent

/-- The served key becomes the newest. -/
theorem keys_eq : next.slots.keys = pool.slots.keys.filter (· ∉ item.key :: victims) ++ [item.key] := by
  cases round with
  | hit found =>
    rw [touch, keys_moveToEnd_of_get? found, keys_pop]
    simp only [mem_singleton, ne_eq]
  | @acquire key _ _ absent acquired =>
    rw [assign, acquire?_slots acquired, keys_set_of_absent _ _ absent]
    have kept : pool.slots.keys.filter (· ∉ [key]) = pool.slots.keys :=
      filter_eq_self.mpr fun other mem => decide_eq_true
        fun same => absent (mem_singleton.mp same ▸ mem)
    rw [kept]
  | @evict key victim _ absent full evicted =>
    obtain ⟨_, _, rfl⟩ := evict?_eq_some evicted
    have kept : (pool.slots.pop victim.1).keys = pool.slots.keys.filter (· ∉ key :: [victim.1]) := by
      rw [keys_pop]
      apply filter_congr
      intro other mem
      have apart : other ≠ key := fun same => absent (same ▸ mem)
      simp [apart]
    have unbound : key ∉ (pool.slots.pop victim.1).keys := by simp [kept]
    rw [assign, keys_set_of_absent _ _ unbound, kept]

theorem mem_keys {other : κ} (apart : other ≠ item.key) (spared : other ∉ victims) :
    other ∈ next.slots.keys ↔ other ∈ pool.slots.keys := by
  simp [round.keys_eq, apart, spared]

end Round

theorem serve_wellFormed (valid : pool.WellFormed cap) :
    (serve cap guarded keys pool).pool.WellFormed cap := by
  induction keys, pool using serve_rounds cap guarded with
  | done pool => exact valid
  | round item rest pool victims next round ih => exact ih (round.wellFormed valid)
  | stuck key rest pool absent full none => exact valid

/-- Served keys form a prefix of the requested ones. -/
theorem serve_keys_initial : (serve cap guarded keys pool).keys <+: keys := by
  induction keys, pool using serve_rounds cap guarded with
  | done pool => exact prefix_refl _
  | round item rest pool victims next round ih => exact cons_prefix_cons.mpr ⟨rfl, ih⟩
  | stuck key rest pool absent full none => exact nil_prefix

/-- A relation that holds of every older key and a guarded newer one is kept between older and newer keys. -/
theorem serve_pairwise {related : κ → κ → Prop} (inGuard : ∀ key ∈ keys, key ∈ guarded)
    (newest : ∀ older, ∀ newer ∈ guarded, related older newer) (ordered : pool.slots.keys.Pairwise related) :
    (serve cap guarded keys pool).pool.slots.keys.Pairwise related := by
  induction keys, pool using serve_rounds cap guarded with
  | done pool => exact ordered
  | round item rest pool victims next round ih =>
    obtain ⟨head, tail⟩ := forall_mem_cons.mp inGuard
    apply ih tail
    rw [round.keys_eq, pairwise_append]
    refine ⟨ordered.sublist filter_sublist, pairwise_singleton _ _, fun other _ key only => ?_⟩
    rw [mem_singleton.mp only]
    exact newest other _ head
  | stuck key rest pool absent full none => exact ordered

/-- Without exhaustion every requested key is served. -/
theorem serve_keys_eq (enough : (serve cap guarded keys pool).exhausted = false) :
    (serve cap guarded keys pool).keys = keys := by
  induction keys, pool using serve_rounds cap guarded with
  | done pool => rfl
  | round item rest pool victims next round ih => exact congrArg (item.key :: ·) (ih enough)
  | stuck key rest pool absent full none => contradiction

/-! ## Lookups after a serving -/

/-- A guarded key that owns a slot keeps it. -/
theorem serve_get?_of_guarded {query : κ} {slot : ℕ} (inGuard : query ∈ guarded)
    (bound : pool.slots.get? query = some slot) :
    (serve cap guarded keys pool).pool.slots.get? query = some slot := by
  induction keys, pool using serve_rounds cap guarded with
  | done pool => exact bound
  | round item rest pool victims next round ih =>
    apply ih
    have spared : query ∉ victims := fun victim => round.unguarded query victim inGuard
    rw [round.get?, if_neg spared, bound]
    split_ifs with same
    · exact congrArg some (round.slot_of_bound (same ▸ bound))
    · rfl
  | stuck key rest pool absent full none => exact bound

/-- A key that is neither requested nor bound stays unbound. -/
theorem serve_get?_of_absent {query : κ} (unrequested : query ∉ keys)
    (unbound : pool.slots.get? query = none) :
    (serve cap guarded keys pool).pool.slots.get? query = none := by
  induction keys, pool using serve_rounds cap guarded with
  | done pool => exact unbound
  | round item rest pool victims next round ih =>
    apply ih (not_mem_of_not_mem_cons unrequested)
    rw [round.get?, if_neg (ne_of_not_mem_cons unrequested), unbound, ite_self]
  | stuck key rest pool absent full none => exact unbound

/-- What holds of the bound keys and of the requested ones holds of the bound keys afterwards. -/
theorem forall_mem_keys_serve {holds : κ → Prop} (bound : ∀ key ∈ pool.slots.keys, holds key)
    (requested : ∀ key ∈ keys, holds key) : ∀ key ∈ (serve cap guarded keys pool).pool.slots.keys, holds key := by
  intro key mem
  by_contra fails
  refine (get?_eq_none_iff _ key).mp (serve_get?_of_absent (mt (requested key) fails) ?_) mem
  exact (get?_eq_none_iff _ key).mpr (mt (bound key) fails)

/-- Lookups that the serving does not mention are unchanged. -/
theorem serve_get?_of_untouched {query : κ}
    (unserved : query ∉ (serve cap guarded keys pool).keys)
    (spared : query ∉ (serve cap guarded keys pool).evicted) :
    (serve cap guarded keys pool).pool.slots.get? query = pool.slots.get? query := by
  induction keys, pool using serve_rounds cap guarded with
  | done pool => rfl
  | round item rest pool victims next round ih =>
    obtain ⟨first, later⟩ := not_or.mp (mt mem_append.mpr spared)
    refine (ih (not_mem_of_not_mem_cons unserved) later).trans ?_
    rw [round.get?, if_neg (ne_of_not_mem_cons unserved), if_neg first]
  | stuck key rest pool absent full none => rfl

section Guarded

variable (inGuard : ∀ key ∈ keys, key ∈ guarded)

include inGuard

/-- Every served key ends with the slot it was served. -/
theorem serve_get?_of_served {item : Served κ}
    (served : item ∈ (serve cap guarded keys pool).served) :
    (serve cap guarded keys pool).pool.slots.get? item.key = some item.slot := by
  induction keys, pool using serve_rounds cap guarded with
  | done pool => cases served
  | round first rest pool victims next round ih =>
    obtain ⟨head, tail⟩ := forall_mem_cons.mp inGuard
    rcases mem_cons.mp served with rfl | later
    · exact serve_get?_of_guarded head (by rw [round.get?, if_pos rfl])
    · exact ih tail later
  | stuck key rest pool absent full none => cases served

/-- Evicted keys are unguarded and end without a slot. -/
theorem serve_get?_of_evicted {victim : κ}
    (evicted : victim ∈ (serve cap guarded keys pool).evicted) :
    victim ∉ guarded ∧ (serve cap guarded keys pool).pool.slots.get? victim = none := by
  induction keys, pool using serve_rounds cap guarded with
  | done pool => cases evicted
  | round item rest pool victims next round ih =>
    obtain ⟨head, tail⟩ := forall_mem_cons.mp inGuard
    rcases mem_append.mp evicted with first | later
    · have out := round.unguarded victim first
      refine ⟨out, serve_get?_of_absent (fun mem => out (tail _ mem)) ?_⟩
      rw [round.get?, if_neg fun same : victim = item.key => out (same ▸ head), if_pos first]
    · exact ih tail later
  | stuck key rest pool absent full none => cases evicted

/-- A pool whose capacity covers the guarded keys always finds a slot. -/
theorem serve_not_exhausted (valid : pool.WellFormed cap) (fits : guarded.length ≤ cap) :
    (serve cap guarded keys pool).exhausted = false := by
  induction keys, pool using serve_rounds cap guarded with
  | done pool => rfl
  | round item rest pool victims next round ih =>
    exact ih (forall_mem_cons.mp inGuard).2 (round.wellFormed valid)
  | stuck key rest pool unbound full none =>
    -- All slots are in use by guarded keys, and the requested key is one more guarded key.
    exfalso
    obtain ⟨noFree, top⟩ := acquire?_eq_none_iff.mp full
    have occupied := valid.length_keys
    rw [noFree, length_nil] at occupied
    have larger : (key :: pool.slots.keys).Nodup :=
      nodup_cons.mpr ⟨unbound, pool.slots.keys_nodup⟩
    have included : key :: pool.slots.keys ⊆ guarded :=
      cons_subset.mpr ⟨inGuard key mem_cons_self, evict?_eq_none none⟩
    have count := (subperm_of_subset larger included).length_le
    simp only [length_cons] at count
    omega

/-- Among distinct requested keys, the hits are those that already own a slot. -/
theorem serve_hit_iff (distinct : keys.Nodup) {item : Served κ}
    (served : item ∈ (serve cap guarded keys pool).served) :
    item.hit = true ↔ item.key ∈ pool.slots.keys := by
  induction keys, pool using serve_rounds cap guarded with
  | done pool => cases served
  | round first rest pool victims next round ih =>
    have tail := (forall_mem_cons.mp inGuard).2
    rcases mem_cons.mp served with rfl | later
    · exact round.hit_iff
    · have listed : item.key ∈ rest := serve_keys_initial.subset (mem_map_of_mem later)
      have other : item.key ≠ first.key := fun same => (nodup_cons.mp distinct).1 (same ▸ listed)
      have spared : item.key ∉ victims := fun victim => round.unguarded _ victim (tail _ listed)
      rw [ih tail (nodup_cons.mp distinct).2 later, round.mem_keys other spared]
  | stuck key rest pool absent full none => cases served

/-- A bound key that is not evicted keeps its slot. -/
theorem serve_get?_of_spared {query : κ} {slot : ℕ} (bound : pool.slots.get? query = some slot)
    (spared : query ∉ (serve cap guarded keys pool).evicted) :
    (serve cap guarded keys pool).pool.slots.get? query = some slot := by
  by_cases protectedKey : query ∈ guarded
  · exact serve_get?_of_guarded protectedKey bound
  · refine (serve_get?_of_untouched (fun served => protectedKey ?_) spared).trans bound
    exact inGuard query (serve_keys_initial.subset served)

end Guarded

/-! ## The victims, in closed form -/

/-- How many of the requested keys own no slot yet. -/
def missing (pool : SlotPool κ) (keys : List κ) : ℕ :=
  (keys.filter (· ∉ pool.slots.keys)).length

/-- The unguarded keys, oldest first. -/
def unguarded (pool : SlotPool κ) (guarded : List κ) : List κ :=
  pool.slots.keys.filter (· ∉ guarded)

/-- The oldest unguarded keys, as many as the free stack and the remaining capacity leave wanting. -/
def victims (cap : ℕ) (guarded keys : List κ) (pool : SlotPool κ) : List κ :=
  (pool.unguarded guarded).take (pool.missing keys - (pool.free.length + (cap - pool.next)))

private theorem missing_cons {key : κ} {rest : List κ} (absent : key ∉ pool.slots.keys) :
    pool.missing (key :: rest) = pool.missing rest + 1 := by
  simp [missing, absent]

theorem evictable_keys (pool : SlotPool κ) (guarded : List κ) :
    (pool.evictable guarded).map Prod.fst = pool.unguarded guarded := by
  simp only [evictable, unguarded, OrderedDict.keys, filter_map, Function.comp_def]

/-- The victim is the head of the evictable entries, and eviction leaves the rest of them. -/
theorem evict?_evictable {next : SlotPool κ} {victim : κ × ℕ}
    (evicted : pool.evict? guarded = some (victim, next)) :
    pool.evictable guarded = victim :: next.evictable guarded := by
  have chosen := evicted
  obtain ⟨_, _, rfl⟩ := evict?_eq_some evicted
  unfold evict? at chosen
  split at chosen
  · next entry first =>
    cases chosen
    have head : (pool.evictable guarded).head? = some victim := by
      rw [evictable, head?_filter]
      exact first
    obtain ⟨tail, shape⟩ := head?_eq_some_iff.mp head
    have distinct : ((pool.evictable guarded).map Prod.fst).Nodup :=
      pool.slots.distinct.sublist (filter_sublist.map _)
    rw [shape, map_cons, nodup_cons] at distinct
    have others : tail.filter (fun entry => entry.1 ≠ victim.1) = tail := by
      apply filter_eq_self.mpr
      intro entry mem
      apply decide_eq_true
      intro same
      exact distinct.1 (same ▸ mem_map_of_mem mem)
    have swap : (pool.slots.pop victim.1).entries.filter (fun entry => entry.1 ∉ guarded) =
        (pool.evictable guarded).filter (fun entry => entry.1 ≠ victim.1) := by
      simp only [pop, evictable, filter_filter]
      apply filter_congr
      intro entry _
      exact Bool.and_comm _ _
    rw [shape]
    congr 1
    rw [evictable, swap, shape, filter_cons_of_neg (by simp), others]
  · contradiction

namespace Round

variable {item : Served κ} {victims : List κ} {next : SlotPool κ} (round : Round cap guarded pool item victims next)

include round

/-- The victims of a round are the oldest unguarded keys. -/
private theorem unguarded_eq (inGuard : item.key ∈ guarded) :
    pool.unguarded guarded = victims ++ next.unguarded guarded := by
  cases round with
  | hit found => exact (pool.slots.filter_keys_moveToEnd _ _ (by simp [inGuard])).symm
  | acquire absent acquired =>
    simp [SlotPool.unguarded, assign, acquire?_slots acquired, keys_set_of_absent _ _ absent, inGuard]
  | @evict key victim next absent full evicted =>
    have head := congrArg (List.map Prod.fst) (evict?_evictable evicted)
    rw [evictable_keys, map_cons, evictable_keys] at head
    rw [head]
    obtain ⟨_, _, rfl⟩ := evict?_eq_some evicted
    have unbound : key ∉ (pool.slots.pop victim.1).keys := by simp [absent]
    simp [SlotPool.unguarded, assign, keys_set_of_absent _ _ unbound, inGuard]

/-- A round evicts where a missing key finds no slack. -/
private theorem missing_eq {rest : List κ} (fresh : item.key ∉ rest) (spared : ∀ victim ∈ victims, victim ∉ rest) :
    pool.missing (item.key :: rest) - (pool.free.length + (cap - pool.next)) =
      victims.length + (next.missing rest - (next.free.length + (cap - next.next))) := by
  have same : next.missing rest = pool.missing rest := by
    refine congrArg List.length (filter_congr fun other mem => decide_eq_decide.mpr (not_congr ?_))
    exact round.mem_keys (fun same => fresh (same ▸ mem)) fun victim => spared other victim mem
  rw [same]
  cases round with
  | hit found => simp [missing, mem_keys_of_get? found, touch]
  | acquire absent acquired =>
    have slack := acquire?_slack acquired
    simp only [missing_cons absent, assign, length_nil]
    omega
  | evict absent full evicted =>
    obtain ⟨noFree, top⟩ := acquire?_eq_none_iff.mp full
    obtain ⟨_, _, rfl⟩ := evict?_eq_some evicted
    simp only [missing_cons absent, assign, length_singleton, noFree, length_nil]
    omega

end Round

section

variable (inGuard : ∀ key ∈ keys, key ∈ guarded)
include inGuard

theorem serve_evicted_eq (distinct : keys.Nodup) :
    (serve cap guarded keys pool).evicted = pool.victims cap guarded keys := by
  simp only [victims]
  induction keys, pool using serve_rounds cap guarded with
  | done pool => simp [missing]
  | round item rest pool victims next round ih =>
    obtain ⟨head, tail⟩ := forall_mem_cons.mp inGuard
    obtain ⟨fresh, distinct⟩ := nodup_cons.mp distinct
    rw [round.missing_eq fresh fun victim out mem => round.unguarded victim out (tail _ mem),
      round.unguarded_eq head, take_length_add_append, ← ih tail distinct]
    rfl
  | stuck key rest pool absent full stuck =>
    have none : pool.unguarded guarded = [] := by
      apply filter_eq_nil_iff.mpr
      intro other mem
      simpa using evict?_eq_none stuck other mem
    rw [none, take_nil]

theorem serve_evicted_subset (distinct : keys.Nodup) :
    (serve cap guarded keys pool).evicted ⊆ pool.slots.keys := by
  rw [serve_evicted_eq inGuard distinct]
  exact fun key mem => (mem_filter.mp (mem_of_mem_take mem)).1

/-- A key that is not served keeps its slot or is evicted. -/
theorem serve_get?_of_unserved {query : κ} (unserved : query ∉ (serve cap guarded keys pool).keys) :
    (serve cap guarded keys pool).pool.slots.get? query =
      if query ∈ (serve cap guarded keys pool).evicted then none else pool.slots.get? query := by
  split_ifs with evicted
  · exact (serve_get?_of_evicted inGuard evicted).2
  · exact serve_get?_of_untouched unserved evicted

end

/-! ## Exhaustion -/

/-- An exhausted pool has all its slots with guarded keys. -/
private theorem serve_exhausted (stuck : (serve cap guarded keys pool).exhausted = true) :
    (serve cap guarded keys pool).pool.acquire? cap = none ∧
      ∀ key ∈ (serve cap guarded keys pool).pool.slots.keys, key ∈ guarded := by
  induction keys, pool using serve_rounds cap guarded with
  | done pool => cases stuck
  | round item rest pool victims next round ih => exact ih stuck
  | stuck key rest pool absent full unevictable => exact ⟨full, evict?_eq_none unevictable⟩

/-- If all guarded keys are requested or bound, as many of them end without a slot as exceed the capacity. -/
theorem serve_excess (valid : pool.WellFormed cap) (inGuard : ∀ key ∈ keys, key ∈ guarded) (distinct : guarded.Nodup)
    (requested : ∀ key ∈ guarded, key ∈ pool.slots.keys ∨ key ∈ keys) :
    (guarded.filter (· ∉ (serve cap guarded keys pool).pool.slots.keys)).length = guarded.length - cap := by
  have valid' : (serve cap guarded keys pool).pool.WellFormed cap := serve_wellFormed valid
  have total := valid'.length_keys
  have bound := valid'.bound
  cases stuck : (serve cap guarded keys pool).exhausted with
  | false =>
    have served : guarded ⊆ (serve cap guarded keys pool).pool.slots.keys := by
      intro key mem
      rcases requested key mem with present | wanted
      · obtain ⟨slot, found⟩ := (pool.slots.mem_keys_iff key).mp present
        exact mem_keys_of_get? (serve_get?_of_guarded mem found)
      · rw [← serve_keys_eq stuck] at wanted
        obtain ⟨item, isServed, rfl⟩ := mem_map.mp wanted
        exact mem_keys_of_get? (serve_get?_of_served inGuard isServed)
    have none : guarded.filter (· ∉ (serve cap guarded keys pool).pool.slots.keys) = [] :=
      filter_eq_nil_iff.mpr fun key mem => by simpa using served mem
    have count := (subperm_of_subset distinct served).length_le
    rw [none, length_nil]
    omega
  | true =>
    obtain ⟨full, inside⟩ := serve_exhausted stuck
    obtain ⟨noFree, top⟩ := acquire?_eq_none_iff.mp full
    rw [noFree, length_nil] at total
    have kept : (guarded.filter (· ∈ (serve cap guarded keys pool).pool.slots.keys)).Perm
        (serve cap guarded keys pool).pool.slots.keys := by
      apply (perm_ext_iff_of_nodup (distinct.filter _) (keys_nodup _)).mpr
      intro key
      rw [mem_filter, decide_eq_true_eq]
      exact and_iff_right_of_imp (inside key)
    have split := length_eq_length_filter_add (l := guarded)
      (fun key => decide (key ∈ (serve cap guarded keys pool).pool.slots.keys))
    have count := kept.length_eq
    simp only [decide_not]
    omega

end FlashMemory.SlotPool
