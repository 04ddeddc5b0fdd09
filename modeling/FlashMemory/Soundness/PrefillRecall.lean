import FlashMemory.Soundness.ChunkCache
import FlashMemory.Collections.Run

/-! # Prefill forwards in global mode

A prefill forward runs the layers in order; each layer stores its rows to the mirror, which drops the
stored chunks from its own table, and then recalls its selection for all layers at once. The recall
looks at layer 0 only. So a chunk that some layer recalls and a later layer of the same forward
stores again is mapped in layer 0 and not in the later layer, and no recall repairs it.

That is the only way to go wrong: when no layer but the last selects a chunk of the running forward,
every selection is readable with the right bytes and layer 0 tells the truth about all layers. Until
its last layer, a forward leaves its own chunks unmapped in the layers it has stored.
-/

namespace FlashMemory

open List Engine

variable {α : Type*}

/-- One prefill forward: the stored locations with each layer's bytes, and each layer's selection. -/
structure PrefillForward (α : Type*) where
  rows : List (ℕ × (ℕ → α))
  sel : ℕ → List ℤ

inductive PrefillCall (α : Type*) where
  | store (layer : ℕ) (rows : List (ℕ × α))
  | recallChunks (layer : ℕ) (sel : List ℤ)

namespace PrefillForward

variable (forward : PrefillForward α) (cfg : Config)

/-- The stored chunks, the same in every layer. -/
def locs : List ℕ := forward.rows.map Prod.fst

def rowsAt (layer : ℕ) : List (ℕ × α) :=
  forward.rows.map fun row => (row.1, row.2 layer)

/-- The two calls of one layer. -/
def layerCalls (layer : ℕ) : List (PrefillCall α) :=
  [.store layer (forward.rowsAt layer), .recallChunks layer (forward.sel layer)]

def calls (forward : PrefillForward α) : List (PrefillCall α) :=
  (List.range cfg.c4LayerNum).flatMap forward.layerCalls

/-- Locations are in the mirror and every selection fits in the recall region. -/
structure Fits (forward : PrefillForward α) : Prop where
  stored : ∀ loc ∈ forward.locs, loc < cfg.mirrorChunks
  selected : ∀ layer < cfg.c4LayerNum, Engine.LocsInRange cfg (forward.sel layer)
  capacity : ∀ layer < cfg.c4LayerNum,
    (uniqueChunks (forward.sel layer)).length ≤ cfg.recallCellCapacity

/-- No layer but the last selects a chunk that this forward stores. -/
def SelectsOwnOnlyLast (forward : PrefillForward α) : Prop :=
  ∀ layer < cfg.c4LayerNum - 1, ∀ loc ∈ forward.locs, (loc : ℤ) ∉ forward.sel layer

instance decidableSelectsOwnOnlyLast (forward : PrefillForward α) :
    Decidable (forward.SelectsOwnOnlyLast cfg) := by
  delta SelectsOwnOnlyLast
  infer_instance

theorem rowsAt_keys (layer : ℕ) :
    (forward.rowsAt layer).map Prod.fst = forward.locs := by
  simp only [rowsAt, locs, map_map]
  rfl

end PrefillForward

section

variable (cfg : Config) (engine : Engine α)

def prefillStep : PrefillCall α → Engine α
  | .store layer rows => engine.storePrefillToMirror cfg layer rows
  | .recallChunks layer sel => (engine.recallChunks cfg layer sel).1

/-- A chunk is mapped in layer 0 exactly when it is mapped in every layer. -/
def LayerZeroTells : Prop :=
  ∀ chunk < cfg.mirrorChunks, 0 ≤ engine.chunkCellLut 0 chunk ↔
    ∀ layer < cfg.c4LayerNum, 0 ≤ engine.chunkCellLut layer chunk

/-- Every selected chunk is remapped to a cell that holds the layer's mirror bytes. -/
def Readable (layer : ℕ) (sel : List ℤ) : Prop :=
  ∀ loc ∈ sel, 0 ≤ loc → ∃ cell : ℕ, engine.remapCompressedLoc cfg layer loc = cell ∧
    engine.reserveBuf layer cell = engine.hostMirror layer loc.toNat

/-- What a call must establish. -/
def CallCorrect (call : PrefillCall α) : Prop :=
  LayerZeroTells cfg (prefillStep cfg engine call) ∧
    match call with
    | .store _ _ => True
    | .recallChunks layer sel => Readable cfg (prefillStep cfg engine call) layer sel

end

/-- Every call of every forward establishes what it must. -/
def PrefillCorrect (cfg : Config) (zero : α) (forwards : List (PrefillForward α)) : Prop :=
  Along (prefillStep cfg) (CallCorrect cfg) (Engine.init zero)
    (forwards.flatMap (PrefillForward.calls cfg))

namespace Engine

variable {cfg : Config} {engine after : Engine α} {locs : List ℤ} {rows : List (ℕ × α)}

/-- The shared cache of a prefill-only server: all entries are below `decode_base`. -/
structure PrefillCache (cfg : Config) (engine : Engine α) : Prop where
  cache : engine.ChunkCache cfg fun _ => False
  below : ∀ layer chunk, engine.chunkCellLut layer chunk < cfg.decodeBase

theorem PrefillCache.afterRecall (prefill : PrefillCache cfg engine) (ranged : LocsInRange cfg locs) :
    PrefillCache cfg (engine.recallGlobal cfg locs).1 := by
  refine ⟨prefill.cache.afterRecall ranged, fun layer chunk => ?_⟩
  obtain ⟨pairs, spec⟩ := recallGlobal_spec prefill.cache.pool ranged
  rcases spec.swap.lut_cases layer chunk with ⟨cell, mem, value⟩ | ⟨_, value⟩
  · rcases spec.copied with rfl | ⟨rfl, _⟩
    · have bound := (SlotPool.serve_wellFormed prefill.cache.pool).slot_lt (mem_chunkPairs mem).2
      rw [value]
      exact Int.ofNat_lt.mpr bound
    · contradiction
  · have := prefill.below layer chunk
    rw [value]
    split_ifs <;> omega

/-- A recall that fits leaves every selected chunk mapped in layer 0, and every missed one in all
layers. -/
theorem recallGlobal_mapped (valid : engine.gCells.WellFormed cfg.recallCellCapacity)
    (ranged : LocsInRange cfg locs) (fits : (uniqueChunks locs).length ≤ cfg.recallCellCapacity)
    {chunk : ℕ} (selected : (chunk : ℤ) ∈ locs) (layer : ℕ)
    (agree : 0 ≤ engine.chunkCellLut 0 chunk → 0 ≤ engine.chunkCellLut layer chunk) :
    0 ≤ (engine.recallGlobal cfg locs).1.chunkCellLut layer chunk := by
  have chosen := mem_uniqueChunks.mpr selected
  have enough : (engine.chunkServing cfg locs).exhausted = false :=
    SlotPool.serve_not_exhausted chunkOrder_selected valid fits
  obtain ⟨pairs, spec⟩ := recallGlobal_spec valid ranged
  have all : pairs = engine.chunkPairs cfg locs :=
    spec.copied.resolve_right fun ⟨_, _, stuck⟩ => by simp [enough] at stuck
  rcases spec.swap.lut_cases layer chunk with ⟨cell, _, value⟩ | ⟨unwritten, value⟩
  · rw [value]
    exact Int.natCast_nonneg _
  have spared : chunk ∉ (engine.chunkServing cfg locs).evicted.filter (· < cfg.lutCols) := fun gone =>
    (SlotPool.serve_get?_of_evicted chunkOrder_selected (mem_filter.mp gone).1).1 chosen
  rw [value, if_neg spared]
  refine agree ?_
  by_contra negative
  have missed : chunk ∈ engine.layerMisses cfg 0 (uniqueChunks locs) := by
    refine mem_filter.mpr ⟨chosen, ?_⟩
    rw [clampCol_of_lt (lt_of_mem_uniqueChunks ranged chosen)]
    exact decide_eq_true (not_le.mp negative)
  have served : chunk ∈ (engine.chunkServing cfg locs).keys := by
    rw [chunkServing, SlotPool.serve_keys_eq enough]
    exact mem_chunkOrder.mpr missed
  obtain ⟨item, present, rfl⟩ := mem_map.mp served
  exact unwritten item.slot (all ▸ mem_map.mpr ⟨item, present, rfl⟩)

theorem PrefillCache.store (prefill : PrefillCache cfg engine) (layer : ℕ)
    (ranged : ∀ row ∈ rows, row.1 < cfg.mirrorChunks) :
    PrefillCache cfg (engine.storePrefillToMirror cfg layer rows) := by
  refine ⟨prefill.cache.storePrefill layer ranged, fun other chunk => ?_⟩
  have := prefill.below other chunk
  by_cases same : other = layer
  · subst same
    simp only [storePrefillToMirror, Function.update_self]
    split_ifs <;> omega
  · simpa only [storePrefillToMirror, Function.update_of_ne same] using this

/-- A mapped chunk of a prefill-only server is readable. -/
theorem PrefillCache.readable (prefill : PrefillCache cfg engine) {layer chunk : ℕ}
    (bound : chunk < cfg.mirrorChunks) (mapped : 0 ≤ engine.chunkCellLut layer chunk) :
    ∃ cell : ℕ, engine.remapCompressedLoc cfg layer chunk = cell ∧
      engine.reserveBuf layer cell = engine.hostMirror layer chunk := by
  obtain ⟨cell, points⟩ := Int.eq_ofNat_of_zero_le mapped
  have inside := prefill.below layer chunk
  refine ⟨cell, ?_, (prefill.cache.coherent layer).fresh chunk cell points (by omega) id⟩
  simp only [remapCompressedLoc, Int.natCast_nonneg, ↓reduceIte, Int.toNat_natCast,
    clampCol_of_lt bound, true_and]
  rw [if_pos mapped]
  exact points

theorem storePrefillToMirror_own (ranged : ∀ row ∈ rows, row.1 < cfg.mirrorChunks) (layer : ℕ) {chunk : ℕ}
    (stored : chunk ∈ rows.map Prod.fst) :
    (engine.storePrefillToMirror cfg layer rows).chunkCellLut layer chunk = -1 := by
  simp only [storePrefillToMirror, Function.update_self, mem_touched ranged, stored, ↓reduceIte]

theorem storePrefillToMirror_other {layer other chunk : ℕ} (apart : other ≠ layer ∨ chunk ∉ rows.map Prod.fst) :
    (engine.storePrefillToMirror cfg layer rows).chunkCellLut other chunk =
      engine.chunkCellLut other chunk := by
  by_cases same : other = layer
  · subst same
    have unstored := apart.resolve_left fun differs => differs rfl
    simp only [storePrefillToMirror, Function.update_self]
    exact if_neg fun touched => unstored (mem_keys_keepLast.mp (mem_filter.mp touched).1)
  · simp only [storePrefillToMirror, Function.update_of_ne same]

end Engine

/-! ## One forward -/

namespace PrefillForward

variable {cfg : Config} {forward : PrefillForward α} {engine : Engine α} {layer stored : ℕ}

/-- Between two calls of a forward, with `stored` layers stored: foreign chunks look the same in all
layers, and the forward's own chunks are unmapped in the stored ones. -/
structure Midway (cfg : Config) (forward : PrefillForward α) (stored : ℕ) (engine : Engine α) : Prop where
  prefill : engine.PrefillCache cfg
  foreign : ∀ chunk ∉ forward.locs, ∀ layer < cfg.c4LayerNum,
    engine.chunkCellLut layer chunk = engine.chunkCellLut 0 chunk
  own : ∀ chunk ∈ forward.locs, ∀ layer < stored, engine.chunkCellLut layer chunk = -1

theorem rowsAt_ranged (fits : forward.Fits cfg) (layer : ℕ) :
    ∀ row ∈ forward.rowsAt layer, row.1 < cfg.mirrorChunks := by
  intro row mem
  refine fits.stored row.1 ?_
  rw [← forward.rowsAt_keys layer]
  exact mem_map_of_mem mem

theorem Midway.layerZeroTells (midway : forward.Midway cfg stored engine) (some : 0 < stored)
    (layers : 0 < cfg.c4LayerNum) : LayerZeroTells cfg engine := by
  intro chunk _
  constructor
  · intro mapped layer below
    by_cases isOwn : chunk ∈ forward.locs
    · rw [midway.own chunk isOwn 0 some] at mapped
      omega
    · rwa [midway.foreign chunk isOwn layer below]
  · exact fun all => all 0 layers

theorem Midway.store (midway : forward.Midway cfg layer engine) (fits : forward.Fits cfg) :
    forward.Midway cfg (layer + 1) (prefillStep cfg engine (.store layer (forward.rowsAt layer))) := by
  have ranged := rowsAt_ranged fits layer
  have keys := forward.rowsAt_keys layer
  refine ⟨midway.prefill.store layer ranged, ?_, ?_⟩
  · intro chunk foreign other below
    simp only [prefillStep]
    rw [storePrefillToMirror_other (Or.inr (keys ▸ foreign)),
      storePrefillToMirror_other (Or.inr (keys ▸ foreign))]
    exact midway.foreign chunk foreign other below
  · intro chunk isOwn other below
    by_cases same : other = layer
    · subst same
      exact storePrefillToMirror_own ranged other (keys.symm ▸ isOwn)
    · rw [prefillStep, storePrefillToMirror_other (Or.inl same)]
      exact midway.own chunk isOwn other (by omega)

/-- Between forwards all layers look the same. -/
structure Settled (cfg : Config) (engine : Engine α) : Prop where
  prefill : engine.PrefillCache cfg
  uniform : ∀ layer < cfg.c4LayerNum, ∀ chunk,
    engine.chunkCellLut layer chunk = engine.chunkCellLut 0 chunk

theorem Settled.init (cfg : Config) (zero : α) : Settled cfg (Engine.init zero) where
  prefill := by
    refine ⟨ChunkCache.init cfg _ zero none, fun _ _ => ?_⟩
    simp only [Engine.init]
    omega
  uniform _ _ _ := rfl

theorem Settled.layerZeroTells (settled : Settled cfg engine) (layers : 0 < cfg.c4LayerNum) :
    LayerZeroTells cfg engine := fun chunk _ =>
  ⟨fun mapped layer below => by rwa [settled.uniform layer below chunk], fun all => all 0 layers⟩

section

variable (global : cfg.globalMode = true) (fits : forward.Fits cfg)

include global fits

/-- The recall of a layer is readable: layer 0 speaks for foreign chunks, and the forward's own chunks
are missed once layer 0 is stored. -/
theorem Midway.readable (midway : forward.Midway cfg stored engine) (some : 0 < stored)
    (below : layer < cfg.c4LayerNum) :
    Readable cfg (prefillStep cfg engine (.recallChunks layer (forward.sel layer))) layer
      (forward.sel layer) := by
  intro loc mem nonneg
  obtain ⟨chunk, rfl⟩ := Int.eq_ofNat_of_zero_le nonneg
  have ranged := fits.selected layer below
  have bound := Int.ofNat_lt.mp (ranged _ mem)
  simp only [prefillStep, recallChunks, global, ↓reduceIte]
  refine (midway.prefill.afterRecall ranged).readable bound ?_
  refine recallGlobal_mapped midway.prefill.cache.pool ranged (fits.capacity layer below) mem
    layer fun mapped => ?_
  by_cases isOwn : chunk ∈ forward.locs
  · rw [midway.own chunk isOwn 0 some] at mapped
    omega
  · rwa [midway.foreign chunk isOwn layer below]

/-- A recall that selects none of the forward's own chunks leaves them unmapped. -/
theorem Midway.afterRecall (midway : forward.Midway cfg stored engine) (below : layer < cfg.c4LayerNum)
    (foreignOnly : ∀ loc ∈ forward.locs, (loc : ℤ) ∉ forward.sel layer) :
    forward.Midway cfg stored (prefillStep cfg engine (.recallChunks layer (forward.sel layer))) := by
  have ranged := fits.selected layer below
  simp only [prefillStep, recallChunks, global, ↓reduceIte]
  obtain ⟨pairs, spec⟩ := recallGlobal_spec midway.prefill.cache.pool ranged
  refine ⟨midway.prefill.afterRecall ranged, ?_, ?_⟩
  · intro chunk foreign other otherBelow
    exact spec.swap.uniform (midway.foreign chunk foreign other otherBelow)
  · intro chunk isOwn other otherBelow
    rcases spec.swap.lut_cases other chunk with ⟨cell, mem, _⟩ | ⟨_, value⟩
    · refine absurd ?_ (foreignOnly chunk isOwn)
      exact mem_uniqueChunks.mp (mem_filter.mp (spec.missed mem)).1
    · rw [value, midway.own chunk isOwn other otherBelow, ite_self]

/-- Once every layer is stored, any recall settles the forward. -/
theorem Midway.recall_last (midway : forward.Midway cfg cfg.c4LayerNum engine) (below : layer < cfg.c4LayerNum) :
    Settled cfg (prefillStep cfg engine (.recallChunks layer (forward.sel layer))) := by
  have ranged := fits.selected layer below
  simp only [prefillStep, recallChunks, global, ↓reduceIte]
  obtain ⟨pairs, spec⟩ := recallGlobal_spec midway.prefill.cache.pool ranged
  refine ⟨midway.prefill.afterRecall ranged, fun other otherBelow chunk => spec.swap.uniform ?_⟩
  by_cases isOwn : chunk ∈ forward.locs
  · rw [midway.own chunk isOwn other otherBelow, midway.own chunk isOwn 0 (by omega)]
  · exact midway.foreign chunk isOwn other otherBelow

variable (settled : Settled cfg engine) (lastOnly : forward.SelectsOwnOnlyLast cfg)
include settled lastOnly

/-- The layers of a forward before its last one. -/
theorem Settled.layers {count : ℕ}
    (notLast : count < cfg.c4LayerNum) :
    Along (prefillStep cfg) (CallCorrect cfg) engine ((List.range count).flatMap forward.layerCalls) ∧
      forward.Midway cfg count
        (run (prefillStep cfg) engine ((List.range count).flatMap forward.layerCalls)) := by
  induction count with
  | zero =>
    exact ⟨trivial, settled.prefill, fun chunk _ layer below => settled.uniform layer below chunk,
      fun _ _ layer none => by omega⟩
  | succ layer ih =>
    obtain ⟨correct, midway⟩ := ih (by omega)
    have stored := midway.store fits
    have recalled := stored.afterRecall global fits (by omega) (lastOnly layer (by omega))
    rw [range_succ, flatMap_append, along_append, run_append, flatMap_singleton]
    refine ⟨⟨correct, ⟨stored.layerZeroTells (by omega) (by omega), trivial⟩,
      ⟨recalled.layerZeroTells (by omega) (by omega), ?_⟩, trivial⟩, recalled⟩
    exact stored.readable global fits (by omega) (by omega)

theorem Settled.wholeForward :
    Along (prefillStep cfg) (CallCorrect cfg) engine (forward.calls cfg) ∧
      Settled cfg (run (prefillStep cfg) engine (forward.calls cfg)) := by
  unfold calls
  cases layers : cfg.c4LayerNum with
  | zero => exact ⟨trivial, settled⟩
  | succ last =>
    obtain ⟨correct, midway⟩ := settled.layers global fits lastOnly (by omega : last < cfg.c4LayerNum)
    have stored := midway.store fits
    have final := (layers ▸ stored).recall_last global fits
      (by omega : last < cfg.c4LayerNum)
    rw [range_succ, flatMap_append, along_append, run_append, flatMap_singleton]
    refine ⟨⟨correct, ⟨stored.layerZeroTells (by omega) (by omega), trivial⟩,
      ⟨final.layerZeroTells (by omega), ?_⟩, trivial⟩, final⟩
    exact stored.readable global fits (by omega) (by omega)

end

/-! ## Any sequence of forwards -/

theorem Settled.forwards (global : cfg.globalMode = true) (settled : Settled cfg engine)
    {forwards : List (PrefillForward α)} (fits : ∀ forward ∈ forwards, forward.Fits cfg)
    (lastOnly : ∀ forward ∈ forwards, forward.SelectsOwnOnlyLast cfg) :
    Along (prefillStep cfg) (CallCorrect cfg) engine (forwards.flatMap (calls cfg)) := by
  induction forwards generalizing engine with
  | nil => trivial
  | cons forward rest ih =>
    obtain ⟨correct, final⟩ := settled.wholeForward global
      (fits forward (mem_cons_self ..)) (lastOnly forward (mem_cons_self ..))
    rw [flatMap_cons, along_append]
    exact ⟨correct, ih final (forall_mem_cons.mp fits).2
      (forall_mem_cons.mp lastOnly).2⟩

section

variable (global : cfg.globalMode = true) (prefill : engine.PrefillCache cfg)

include global prefill

theorem prefillCache_calls (fits : forward.Fits cfg) {layers : List ℕ}
    (below : ∀ layer ∈ layers, layer < cfg.c4LayerNum) :
    (run (prefillStep cfg) engine (layers.flatMap forward.layerCalls)).PrefillCache cfg := by
  induction layers generalizing engine with
  | nil => exact prefill
  | cons layer rest ih =>
    rw [flatMap_cons, run_append]
    refine ih ?_ (forall_mem_cons.mp below).2
    have stored := prefill.store layer (rowsAt_ranged fits layer)
    have recalled := stored.afterRecall (fits.selected layer (below layer (mem_cons_self ..)))
    simpa only [layerCalls, run, foldl_cons, foldl_nil, prefillStep, recallChunks,
      global, ↓reduceIte] using recalled

/-- A layer that recalls a chunk which the next layer stores breaks the agreement of the layers. -/
private theorem selectsOwnOnlyLast_of_correct (fits : forward.Fits cfg)
    (correct : Along (prefillStep cfg) (CallCorrect cfg) engine (forward.calls cfg)) :
    forward.SelectsOwnOnlyLast cfg := by
  intro layer early loc isOwn selected
  obtain ⟨more, layers⟩ := Nat.exists_eq_add_of_le (show layer + 2 ≤ cfg.c4LayerNum by omega)
  have split : List.range cfg.c4LayerNum = List.range layer ++ ([layer, layer + 1] ++
      (List.range more).map (layer + 2 + ·)) := by
    rw [layers, range_add, range_succ, range_succ, append_assoc, append_assoc]
    rfl
  rw [calls, split, flatMap_append, flatMap_append, along_append, along_append] at correct
  obtain ⟨_, pair, _⟩ := correct
  have earlier : ∀ other ∈ List.range layer, other < cfg.c4LayerNum := fun other mem => by
    have := mem_range.mp mem
    omega
  have before := prefillCache_calls global prefill fits earlier
  generalize run (prefillStep cfg) engine ((List.range layer).flatMap forward.layerCalls) = start
    at pair before
  have stored := before.store layer (rowsAt_ranged fits layer)
  have mapped := recallGlobal_mapped stored.cache.pool (fits.selected layer (by omega))
    (fits.capacity layer (by omega)) selected 0 id
  obtain ⟨_, _, ⟨tells, _⟩, _⟩ := pair
  simp only [prefillStep, recallChunks, global, ↓reduceIte] at tells
  have agreed := (tells loc (fits.stored loc isOwn)).mp (by
    rw [storePrefillToMirror_other (Or.inl (by omega))]
    exact mapped) (layer + 1) (by omega)
  rw [storePrefillToMirror_own (rowsAt_ranged fits (layer + 1)) (layer + 1)
    ((forward.rowsAt_keys (layer + 1)).symm ▸ isOwn)] at agreed
  omega

private theorem lastOnly_of_correct {forwards : List (PrefillForward α)} (fits : ∀ forward ∈ forwards, forward.Fits cfg)
    (correct : Along (prefillStep cfg) (CallCorrect cfg) engine (forwards.flatMap (calls cfg))) :
    ∀ forward ∈ forwards, forward.SelectsOwnOnlyLast cfg := by
  induction forwards generalizing engine with
  | nil => simp
  | cons forward rest ih =>
    have fitsHere := fits forward (mem_cons_self ..)
    rw [flatMap_cons, along_append] at correct
    have later := ih (prefillCache_calls global prefill fitsHere fun _ => mem_range.mp)
      (forall_mem_cons.mp fits).2 correct.2
    exact forall_mem_cons.mpr
      ⟨selectsOwnOnlyLast_of_correct global prefill fitsHere correct.1, later⟩

end

end PrefillForward

/-- Prefill recall is complete, layer-correct and uniform exactly when no forward selects, before its
last layer, a chunk that the same forward stores. -/
theorem prefill_correct_iff_selects_own_only_last {cfg : Config} (global : cfg.globalMode = true)
    (zero : α) (forwards : List (PrefillForward α)) (fits : ∀ forward ∈ forwards, forward.Fits cfg) :
    PrefillCorrect cfg zero forwards ↔ ∀ forward ∈ forwards, forward.SelectsOwnOnlyLast cfg :=
  have settled := PrefillForward.Settled.init cfg zero
  ⟨PrefillForward.lastOnly_of_correct global settled.prefill fits, settled.forwards global fits⟩

def globalConfig : Config := { Config.small 2 10 1 with globalMode := true }

/-- Two forwards: the first leaves its chunk 1 to the last layer, the second selects it again. -/
def orderlyForwards : List (PrefillForward ℕ) :=
  [⟨[(1, fun layer => 10 + layer)], fun layer => if layer = 0 then [] else [1]⟩,
    ⟨[(2, fun layer => 20 + layer)], fun layer => if layer = 0 then [1] else [1, 2]⟩]

theorem prefill_correct_on_orderly_forwards :
    PrefillCorrect globalConfig 0 orderlyForwards :=
  (prefill_correct_iff_selects_own_only_last rfl 0 orderlyForwards
    (forall_mem_cons.mpr ⟨⟨by decide, by decide, by decide⟩,
      forall_mem_singleton.mpr ⟨by decide, by decide, by decide⟩⟩)).mpr (by decide)

/-- Two layers that store chunk 1 and select it right away: layer 1 remaps its selection to nothing. -/
theorem second_layer_loses_own_chunk :
    let forward : PrefillForward ℕ := ⟨[(1, fun layer => 10 + layer)], fun _ => [1]⟩
    ¬ PrefillCorrect globalConfig 0 [forward] ∧
      (run (prefillStep globalConfig) (Engine.init 0) (forward.calls globalConfig)).remapCompressedLocs
        globalConfig 1 (forward.sel 1) = [-1] := by
  refine ⟨fun correct => ?_, by decide⟩
  obtain ⟨_, _, _, ⟨_, readable⟩, _⟩ := correct
  obtain ⟨cell, mapped, _⟩ := readable 1 (mem_singleton_self 1) (by decide)
  exact absurd ((show (-1 : ℤ) = _ by decide).trans mapped) (by omega)

end FlashMemory
