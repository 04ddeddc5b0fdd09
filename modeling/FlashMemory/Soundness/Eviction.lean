import FlashMemory.Soundness.Swap
import FlashMemory.Collections.Run

/-! # Victims of the global allocators

The batched eviction takes the victims that evicting one by one takes. Which chunks or pages these are is decided by
the order of the allocation map. A recall appends what it allocates and never looks up what is resident, so the order
is that of the last selections as long as the selected residents are the newest ones.
-/

namespace FlashMemory

open List SlotPool

namespace Engine

variable {α : Type*} {cfg : Config} {engine : Engine α} {locs : List ℤ} {guarded : List ℕ}

/-- What a call selects: pages under page recall, else chunks. -/
def selection (cfg : Config) (locs : List ℤ) : List ℕ := if cfg.pageRecall then uniquePages locs else uniqueChunks locs

/-! ## Batched and iterated eviction -/

/-- `_evict_one_global` until there are so many cells or it returns none. -/
def evictUpTo (guarded : List ℕ) : ℕ → Engine α → Engine α × List ℕ
  | 0, engine => (engine, [])
  | count + 1, engine =>
    match engine.evictOneGlobal guarded with
    | (engine, none) => (engine, [])
    | (engine, some cell) =>
      let rest := evictUpTo guarded count engine
      (rest.1, cell :: rest.2)

private theorem evictUpTo_eq (engine : Engine α) (count : ℕ) :
    evictUpTo guarded count engine =
      let victims := (engine.gCells.evictable guarded).take count
      ({ engine with
          gCells := engine.gCells.without victims
          nEvictions := engine.nEvictions + victims.length }.clearCols (victims.map Prod.fst),
            victims.map Prod.snd) := by
  induction count generalizing engine with
  | zero => simp [evictUpTo, without]
  | succ count ih =>
    cases order : engine.gCells.evictable guarded with
    | nil => simp [evictUpTo, evictOneGlobal, evict?_of_evictable_nil order, without]
    | cons victim rest =>
      have evicted := evict?_of_evictable order
      have remaining := (evict?_evictable evicted).symm.trans order
      have rest' := (List.cons.inj remaining).2
      simp only [evictUpTo, evictOneGlobal, evicted, ih, clearCols_gCells, rest', take_succ_cons, map_cons,
        Prod.mk.injEq, and_true]
      -- what is left is the cleared table and the counter
      simp only [clearCols, without, foldl_cons, length_cons, Engine.mk.injEq, true_and, and_true]
      refine ⟨funext fun layer => funext fun col => ?_, by omega⟩
      by_cases first : col = victim.1 <;> simp [first]

/-- One scan with one scatter leaves the same state and returns the same cells as evicting one by one. -/
theorem evictBatchGlobal_eq_evictUpTo (cfg : Config) (engine : Engine α)
    (inRange : ∀ chunk ∈ engine.gCells.slots.keys, chunk < cfg.lutCols) (guarded : List ℕ) {needed : ℕ}
    (positive : 1 ≤ needed) : engine.evictBatchGlobal cfg guarded needed = evictUpTo guarded needed engine := by
  have mapped : ∀ chunk ∈ ((engine.gCells.evictable guarded).take needed).map Prod.fst, chunk < cfg.lutCols := by
    intro chunk member
    obtain ⟨entry, taken, rfl⟩ := mem_map.mp member
    exact inRange _ (mem_map_of_mem (mem_filter.mp (mem_of_mem_take taken)).1)
  rw [evictUpTo_eq]
  simp only [evictBatchGlobal, evictBatch, Nat.max_eq_left positive,
    filter_eq_self.mpr fun chunk member => decide_eq_true (mapped chunk member)]

/-- Three mapped chunks of which the second is protected, so that only two of three wanted cells are freed. -/
def threeMapped : Engine ℕ :=
  { Engine.init 0 with
    chunkCellLut := fun _ col => if col = 9 then 1 else if col = 4 then 0 else if col = 7 then 2 else -1
    gCells := ⟨⟨[(9, 1), (4, 0), (7, 2)], by decide⟩, 3, []⟩ }

theorem evictBatchGlobal_on_threeMapped :
    (threeMapped.evictBatchGlobal Config.smallPaged [4] 3).2 = [1, 2] ∧
      threeMapped.evictBatchGlobal Config.smallPaged [4] 3 = evictUpTo [4] 3 threeMapped :=
  ⟨by decide, evictBatchGlobal_eq_evictUpTo Config.smallPaged threeMapped (by decide) [4] (by decide)⟩

end Engine

/-! ## Victims and the last selections -/

/-- An engine with the last call that selected each chunk or page. -/
structure RecallLog (α : Type*) where
  engine : Engine α
  calls : ℕ
  lastSelected : ℕ → ℕ

namespace RecallLog

open Engine (selection)

variable {α : Type*} (cfg : Config)

/-- The resident chunks or pages in the order of the allocation map. -/
def residents (log : RecallLog α) : List ℕ :=
  if cfg.pageRecall then log.engine.gPages.slots.keys else log.engine.gCells.slots.keys

/-- What `recall_resident_global` evicts, in the order of eviction. -/
def victims (log : RecallLog α) (locs : List ℤ) : List ℕ :=
  if cfg.pageRecall then
    (log.engine.gPages.serve cfg.maxBlocks (uniquePages locs) (log.engine.pageMisses cfg (uniquePages locs))).evicted
  else
    (log.engine.placeChunks cfg (uniqueChunks locs) (log.engine.layerMisses cfg 0 (uniqueChunks locs))).evicted

def init (zero : α) (gFull : Option Bool) : RecallLog α := ⟨{ Engine.init zero with gFull := gFull }, 0, fun _ => 0⟩

section

variable (log : RecallLog α) (locs : List ℤ)

def step : RecallLog α where
  engine := (log.engine.recallResidentGlobal cfg locs).1
  calls := log.calls + 1
  lastSelected key := if key ∈ selection cfg locs then log.calls + 1 else log.lastSelected key

/-- Victims are unselected residents, and they come in the order of their last selection, before all other ones. -/
def LeastRecent : Prop :=
  (∀ victim ∈ log.victims cfg locs, victim ∈ log.residents cfg ∧ victim ∉ selection cfg locs) ∧
    (log.victims cfg locs).Pairwise (fun first second => log.lastSelected first ≤ log.lastSelected second) ∧
    ∀ victim ∈ log.victims cfg locs, ∀ other ∈ log.residents cfg, other ∉ selection cfg locs →
      other ∉ log.victims cfg locs → log.lastSelected victim ≤ log.lastSelected other

/-- The selected residents are the newest ones. -/
def HitsNewest : Prop :=
  (log.residents cfg).Pairwise fun older newer => older ∈ selection cfg locs → newer ∈ selection cfg locs

end

instance (log : RecallLog α) (locs : List ℤ) : Decidable (log.LeastRecent cfg locs) :=
  inferInstanceAs (Decidable ((∀ victim ∈ _, _) ∧ _ ∧ ∀ victim ∈ _, ∀ other ∈ _, _ → _ → _))

instance (log : RecallLog α) (locs : List ℤ) : Decidable (log.HitsNewest cfg locs) :=
  inferInstanceAs (Decidable (List.Pairwise _ _))

/-- The order of the allocation map is that of the last selections. -/
structure Ordered (log : RecallLog α) : Prop where
  sorted : (log.residents cfg).Pairwise fun older newer => log.lastSelected older ≤ log.lastSelected newer
  bounded : ∀ key, log.lastSelected key ≤ log.calls

variable {cfg} {log : RecallLog α} {locs : List ℤ}

private theorem ordered_init (zero : α) (gFull : Option Bool) : Ordered cfg (init zero gFull) := by
  constructor
  · simp [residents, init, Engine.init, fresh]
  · exact fun _ => Nat.le_refl _

private theorem victims_eq (log : RecallLog α) (locs : List ℤ) :
    ∃ count, log.victims cfg locs = ((log.residents cfg).filter (· ∉ selection cfg locs)).take count := by
  rw [victims, residents, selection]
  split_ifs
  · exact ⟨_, Engine.pageServing_evicted_eq⟩
  · rw [Engine.placeChunks_eq_serve]
    exact ⟨_, serve_evicted_eq Engine.chunkOrder_selected Engine.chunkOrder_nodup⟩

theorem Ordered.leastRecent (ordered : Ordered cfg log) (locs : List ℤ) : log.LeastRecent cfg locs := by
  obtain ⟨count, is⟩ := log.victims_eq locs
  have sorted := ordered.sorted.sublist (filter_sublist (p := fun key => key ∉ selection cfg locs))
  rw [← take_append_drop count (List.filter _ _), pairwise_append] at sorted
  rw [LeastRecent, is]
  refine ⟨fun victim taken => ?_, sorted.1, fun victim taken other resident unselected spared => ?_⟩
  · obtain ⟨resident, unselected⟩ := mem_filter.mp (mem_of_mem_take taken)
    exact ⟨resident, of_decide_eq_true unselected⟩
  · have candidate : other ∈ (log.residents cfg).filter (· ∉ selection cfg locs) :=
      mem_filter.mpr ⟨resident, decide_eq_true unselected⟩
    rw [← take_append_drop count (List.filter _ _)] at candidate
    exact sorted.2.2 victim taken other ((mem_append.mp candidate).resolve_left spared)

/-- The allocation map after a call is that of one serving of keys that are selected. -/
private theorem residents_step (log : RecallLog α) (locs : List ℤ) :
    ∃ (cap : ℕ) (pool : SlotPool ℕ) (keys : List ℕ), log.residents cfg = pool.slots.keys ∧
      (∀ key ∈ keys, key ∈ selection cfg locs) ∧
      (log.step cfg locs).residents cfg = (pool.serve cap (selection cfg locs) keys).pool.slots.keys := by
  simp only [residents, selection, step, Engine.recallResidentGlobal]
  split_ifs
  · exact ⟨cfg.maxBlocks, log.engine.gPages, _, rfl, Engine.pageMisses_selected,
      congrArg (·.slots.keys) Engine.recallGlobalPages_gPages⟩
  · exact ⟨cfg.recallCellCapacity, log.engine.gCells, _, rfl, Engine.chunkOrder_selected,
      congrArg (·.slots.keys) Engine.recallGlobal_gCells⟩

theorem Ordered.step (ordered : Ordered cfg log) (newest : log.HitsNewest cfg locs) :
    Ordered cfg (log.step cfg locs) := by
  obtain ⟨cap, pool, keys, before, selected, after⟩ := @residents_step _ cfg log locs
  have bounded : ∀ key, (log.step cfg locs).lastSelected key ≤ log.calls + 1 := by
    intro key
    simp only [RecallLog.step]
    split_ifs
    · exact Nat.le_refl _
    · exact (ordered.bounded key).trans (Nat.le_succ _)
  have now : ∀ key ∈ selection cfg locs, (log.step cfg locs).lastSelected key = log.calls + 1 :=
    fun key mem => if_pos mem
  have later : ∀ key, log.lastSelected key ≤ (log.step cfg locs).lastSelected key := by
    intro key
    simp only [RecallLog.step]
    split_ifs
    · exact (ordered.bounded key).trans (Nat.le_succ _)
    · exact Nat.le_refl _
  refine ⟨?_, bounded⟩
  rw [after]
  apply serve_pairwise selected
  · intro older newer mem
    rw [now newer mem]
    exact bounded older
  · rw [← before]
    refine (ordered.sorted.and newest).imp fun {older newer} both => ?_
    rcases em (older ∈ selection cfg locs) with hit | unselected
    · rw [now newer (both.2 hit)]
      exact bounded older
    · calc
        (log.step cfg locs).lastSelected older = log.lastSelected older := if_neg unselected
        _ ≤ log.lastSelected newer := both.1
        _ ≤ (log.step cfg locs).lastSelected newer := later newer

/-- In every history of calls that select newest residents only, all victims are the least recently selected ones. -/
theorem victims_least_recent (cfg : Config) (zero : α) (gFull : Option Bool) (calls : List (List ℤ))
    (newest : Along (step cfg) (HitsNewest cfg) (init zero gFull) calls) :
    Along (step cfg) (LeastRecent cfg) (init zero gFull) calls :=
  newest.imp_of_invariant (ordered_init zero gFull) (fun _ _ ordered newest => ordered.step newest)
    fun _ locs ordered _ => ordered.leastRecent locs

/-- Two cells, or two blocks under page recall. -/
def twoSlots (paged : Bool) :
    Config := { Config.small (if paged then 3 else 1) 61 1 with globalMode := true, pageRecall := paged }

/-- Chunks of three pages, so that the third call evicts, and the fourth one selects a resident chunk and no other. -/
def newestCalls : List (List ℤ) := [[64], [129], [3], [3], [64, 67]]

theorem victims_least_recent_on_newestCalls :
    (∀ paged, Along (step (twoSlots paged)) (HitsNewest (twoSlots paged)) (init 0 none) newestCalls) ∧
      ∀ paged, Along (step (twoSlots paged)) (LeastRecent (twoSlots paged)) (init 0 none) newestCalls := by
  have newest : ∀ paged, Along (step (twoSlots paged)) (HitsNewest (twoSlots paged)) (init 0 none) newestCalls := by
    decide +kernel
  exact ⟨newest, fun paged => victims_least_recent (twoSlots paged) 0 none newestCalls (newest paged)⟩

/-- The third call selects the oldest resident again, which does not make it newer. -/
theorem reselected_is_evicted :
    let log := fun paged => run (step (twoSlots paged)) (init 0 none) [[3], [64], [3]]
    ¬(log false).LeastRecent (twoSlots false) [129] ∧ ¬(log true).LeastRecent (twoSlots true) [129] := by
  decide +kernel

end RecallLog

end FlashMemory
