import FlashMemory.Soundness.Swap
import FlashMemory.Collections.CellCache
import FlashMemory.Soundness.DecodeStep
import FlashMemory.Model.Release

/-! # The recall region as one cache shared by all layers

In global mode the cells below `decode_base` form a cache of the mirror whose owner map is common to
all layers: a chunk owns a cell, or an offset in the block of its page. Each operation is one move of
that cache. Recalls install copies, releases and discards drop entries, mirror stores rewrite the
backing store behind entries they drop, and decode stores write only at or above `decode_base`.
-/

namespace FlashMemory.Engine

variable {α : Type*} {cfg : Config} {engine after : Engine α} {owner owner' : ℕ → Option ℕ}
  {stale stale' : ℕ → Prop}

/-- Every layer's table is coherent below `decode_base`. -/
def GlobalCoherent (cfg : Config) (owner : ℕ → Option ℕ) (stale : ℕ → Prop) (engine : Engine α) : Prop :=
  ∀ layer, Coherent (· < cfg.decodeBase) owner stale (engine.chunkCellLut layer)
    (engine.reserveBuf layer) (engine.hostMirror layer)

theorem GlobalCoherent.init (owner : ℕ → Option ℕ) (stale : ℕ → Prop) (zero : α) :
    GlobalCoherent cfg owner stale (Engine.init zero) := fun _ =>
  ⟨fun _ _ points => by simp [Engine.init] at points,
    fun _ _ points => by simp [Engine.init] at points⟩

section

variable (coherent : GlobalCoherent cfg owner stale engine)

include coherent

theorem GlobalCoherent.swap {dropped : List ℕ} {pairs : List (ℕ × ℕ)} (swap : Swap engine after dropped pairs)
    (exclusive : Exclusive owner') (assigned : ∀ pair ∈ pairs, owner' pair.1 = some pair.2)
    (carried : ∀ (layer chunk cell : ℕ), engine.chunkCellLut layer chunk = cell →
      cell < cfg.decodeBase → chunk ∉ dropped → (∀ cell, (chunk, cell) ∉ pairs) →
      owner chunk = some cell → owner' chunk = some cell) : GlobalCoherent cfg owner' stale after := by
  intro layer
  rw [swap.mirror]
  refine (coherent layer).install exclusive assigned ?_ (swap.reserve_cases layer)
  intro chunk cell points inside
  rcases swap.lut_cases layer chunk with ⟨slot, mem, value⟩ | ⟨unwritten, value⟩
  · obtain rfl : slot = cell := Int.ofNat_inj.mp (value.symm.trans points)
    exact Or.inl mem
  · have points := value.symm.trans points
    split_ifs at points with gone
    exact Or.inr ⟨points, carried layer chunk cell points inside gone unwritten⟩

/-- Drop some entries, and change the mirror only behind dropped entries or stale chunks. -/
theorem GlobalCoherent.drop {cols : List ℕ} (cleared : after.chunkCellLut = (engine.clearCols cols).chunkCellLut)
    (reserve : after.reserveBuf = engine.reserveBuf)
    (mirror : ∀ layer chunk, chunk ∉ cols → ¬ stale' chunk →
      ¬ stale chunk ∧ after.hostMirror layer chunk = engine.hostMirror layer chunk)
    (carried : ∀ (chunk cell : ℕ), chunk ∉ cols → owner chunk = some cell → owner' chunk = some cell) :
    GlobalCoherent cfg owner' stale' after := by
  intro layer
  have spared : ∀ (chunk cell : ℕ), after.chunkCellLut layer chunk = cell →
      chunk ∉ cols ∧ engine.chunkCellLut layer chunk = cell := by
    intro chunk cell points
    rw [cleared, clearCols_lut] at points
    split_ifs at points with gone
    exact ⟨gone, points⟩
  refine (coherent layer).frame (fun chunk cell points _ => (spared chunk cell points).2)
    (fun chunk cell points _ => carried chunk cell (spared chunk cell points).1)
    (fun chunk cell points _ => mirror layer chunk (spared chunk cell points).1)
    (fun cell _ => congrFun (congrFun reserve layer) cell)

/-- Dropping the entries of pages makes rewriting those pages of the mirror harmless. -/
theorem GlobalCoherent.clearPages {pages : List ℕ}
    (cleared : after.chunkCellLut = (engine.clearCols (pageCols cfg pages)).chunkCellLut)
    (reserve : after.reserveBuf = engine.reserveBuf) (inMirror : ∀ page ∈ pages, page < cfg.nLogicalPages)
    (mirror : ∀ layer chunk, chunk / c4PageSize ∉ pages → ¬ stale' chunk →
      ¬ stale chunk ∧ after.hostMirror layer chunk = engine.hostMirror layer chunk) :
    GlobalCoherent cfg owner stale' after := by
  refine coherent.drop cleared reserve (fun layer chunk kept => mirror layer chunk ?_) fun _ _ _ owned => owned
  exact fun mem => kept ((mem_pageCols (chunk_lt_of_page (inMirror _ mem) rfl)).mpr mem)

/-- A transfer is harmless if the chunks that it writes become stale. -/
theorem GlobalCoherent.transfer (content : ℕ → ℕ → α) {pages : List ℕ}
    (written : ∀ chunk, ¬ stale' chunk → ¬ stale chunk ∧ chunk / c4PageSize ∉ pages) :
    GlobalCoherent cfg owner stale' (engine.transferPages content pages) := by
  refine @drop _ _ _ _ _ _ _ _ coherent [] ?_ rfl (fun _ chunk _ current => ?_) fun _ _ _ owned => owned
  · rw [clearCols_nil]
    rfl
  · exact ⟨(written chunk current).1, if_neg (written chunk current).2⟩

end

/-! ## Stores -/

theorem mem_touched {rows : List (ℕ × α)} (ranged : ∀ row ∈ rows, row.1 < cfg.mirrorChunks)
    {chunk : ℕ} : chunk ∈ ((keepLast rows).map Prod.fst).filter (· < cfg.lutCols) ↔
      chunk ∈ rows.map Prod.fst := by
  rw [List.mem_filter, mem_keys_keepLast]
  refine and_iff_left_of_imp fun mem => ?_
  obtain ⟨row, present, rfl⟩ := List.mem_map.mp mem
  exact decide_eq_true (lt_lutCols (ranged row present))

theorem GlobalCoherent.storePrefill (coherent : GlobalCoherent cfg owner stale engine) {target : ℕ}
    {rows : List (ℕ × α)} (ranged : ∀ row ∈ rows, row.1 < cfg.mirrorChunks) :
    GlobalCoherent cfg owner stale (engine.storePrefillToMirror cfg target rows) := by
  intro layer
  by_cases same : layer = target
  · subst same
    have spared : ∀ (chunk cell : ℕ),
        (engine.storePrefillToMirror cfg layer rows).chunkCellLut layer chunk = cell →
        chunk ∉ rows.map Prod.fst ∧ engine.chunkCellLut layer chunk = cell := by
      intro chunk cell points
      simp only [storePrefillToMirror, Function.update_self, mem_touched ranged] at points
      split_ifs at points with gone
      exact ⟨gone, points⟩
    refine (coherent layer).frame (fun chunk cell points _ => (spared chunk cell points).2)
      (fun _ _ _ _ => id) (fun chunk cell points _ current => ⟨current, ?_⟩) (fun _ _ => rfl)
    simp only [storePrefillToMirror, Function.update_self, scatter_keepLast]
    exact scatter_of_not_mem (spared chunk cell points).1
  · have frame := coherent layer
    simpa only [storePrefillToMirror, Function.update_of_ne same] using frame

theorem GlobalCoherent.storeDecode (coherent : GlobalCoherent cfg owner stale engine) (target : ℕ)
    (rows : List (DecodeRow α)) :
    GlobalCoherent cfg owner stale (engine.storeDecodeToReserve cfg target rows) := by
  intro layer
  refine (coherent layer).frame ?_ (fun _ _ _ _ => id) (fun _ _ _ _ current => ⟨current, rfl⟩) ?_
  · intro chunk cell points inside
    rcases storeDecodeToReserve_lut cfg engine rows target layer chunk with ⟨_, row, _, _, value⟩ | ⟨_, value⟩
    · have outside := decodeBase_le_decodeCell cfg engine row
      omega
    · exact value.symm.trans points
  · intro cell inside
    rcases storeDecodeToReserve_reserve cfg engine rows target layer cell with ⟨_, row, _, rfl, _⟩ | ⟨_, value⟩
    · exact absurd inside (not_lt.mpr (decodeBase_le_decodeCell cfg engine row))
    · exact value

end FlashMemory.Engine
