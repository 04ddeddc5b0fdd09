import FlashMemory.Model.ReserveSizing

/-! # The size of the reserve

`_auto_tok` counts four tokens for each chunk, `_reserve_pages` divides it by the chunks of a page, and the engine
takes 64 cells for a page. These agree when a page has 256 chunks. With the 64 chunks that a page of 256 tokens has, the
reserve gets four times as many cells as it needs.
-/

namespace FlashMemory.ReserveEnv

variable {env : ReserveEnv} {pageSize : ℕ} (landing : Config)

/-- The recall region has its pages, and the decode region is not clamped. -/
structure Sufficient (env : ReserveEnv) (pageSize : ℕ) (engine : Config) : Prop where
  «recall» : env.resolvePageKmax pageSize * env.tgtConc ≤ engine.recallCellCapacity / pageSize
  decode : engine.decodeRegion + 1 ≤ engine.cellCapacity

/-- What is left over, with one cell for the sink, is at most three pages. -/
abbrev Tight (env : ReserveEnv) (pageSize : ℕ) (engine : Config) : Prop :=
  engine.cellCapacity ≤ env.recallChunks pageSize + env.decodeChunks + 1 + 3 * pageSize

private theorem reservePages_of_autoSized (positive : 0 < pageSize) (auto : env.AutoSized pageSize) :
    env.reservePages pageSize = (env.autoTok pageSize + pageSize - 1) / pageSize ∧ 0 < env.reservePages pageSize := by
  have tokens : env.reserveTok pageSize = env.autoTok pageSize := if_pos auto
  have some : pageSize ≤ env.autoTok pageSize := by
    rw [autoTok]
    omega
  rw [reservePages, tokens, if_pos (positive.trans_le some)]
  exact ⟨rfl, Nat.div_pos (by omega) positive⟩

/-- The cells of the engine, for any size of a page. -/
private theorem cellCapacity_of_autoSized (positive : 0 < pageSize) (auto : env.AutoSized pageSize) :
    (env.swapEngineP pageSize landing).cellCapacity = (env.autoTok pageSize + pageSize - 1) / pageSize * 64 := by
  obtain ⟨pages, some⟩ := reservePages_of_autoSized positive auto
  rw [← pages]
  exact congrArg (· * 64) (if_pos some)

private theorem sufficient_iff (positive : 0 < pageSize) : Sufficient env pageSize (env.swapEngineP pageSize landing) ↔
    env.recallChunks pageSize + env.decodeChunks + 1 ≤ (env.swapEngineP pageSize landing).cellCapacity := by
  have base : (env.swapEngineP pageSize landing).recallCellCapacity =
      (env.swapEngineP pageSize landing).cellCapacity - env.decodeChunks - 1 := rfl
  have region : (env.swapEngineP pageSize landing).decodeRegion = env.decodeChunks := rfl
  have chunks : env.recallChunks pageSize = env.resolvePageKmax pageSize * env.tgtConc * pageSize :=
    Nat.mul_right_comm ..
  have pages := Nat.le_div_iff_mul_le positive (x := env.resolvePageKmax pageSize * env.tgtConc)
    (y := (env.swapEngineP pageSize landing).recallCellCapacity)
  rw [base, ← chunks] at pages
  constructor
  · rintro ⟨fits, decode⟩
    rw [base, pages] at fits
    omega
  · intro enough
    refine ⟨?_, by omega⟩
    rw [base, pages]
    omega

/-- The reserve is sufficient and tight exactly if 64 cells for each page of four tokens per chunk lie within the
bounds. A page of at most 256 chunks is enough, 256 chunks make the conversions agree, and with 64 chunks the reserve is
never tight. -/
theorem auto_size_meets_spec (env : ReserveEnv) (pageSize : ℕ) (landing : Config) (positive : 0 < pageSize)
    (auto : env.AutoSized pageSize) :
    let required := env.recallChunks pageSize + env.decodeChunks + 1
    let cells := ((env.recallChunks pageSize + env.decodeChunks + 2 * pageSize) * 4 + pageSize - 1) / pageSize * 64
    (Sufficient env pageSize (env.swapEngineP pageSize landing) ∧
        Tight env pageSize (env.swapEngineP pageSize landing) ↔ required ≤ cells ∧ cells ≤ required + 3 * pageSize) ∧
      (pageSize ≤ 256 → Sufficient env pageSize (env.swapEngineP pageSize landing)) ∧
      (pageSize = 256 → Tight env pageSize (env.swapEngineP pageSize landing)) ∧
      (pageSize = 64 → ¬Tight env pageSize (env.swapEngineP pageSize landing)) := by
  intro required cells
  rw [sufficient_iff landing positive, Tight, cellCapacity_of_autoSized landing positive auto]
  refine ⟨Iff.rfl, fun short => ?_, ?_, ?_⟩
  · have covered := Nat.lt_mul_div_succ (env.autoTok pageSize + pageSize - 1) positive
    have widened := Nat.mul_le_mul_right ((env.autoTok pageSize + pageSize - 1) / pageSize) short
    rw [Nat.mul_succ] at covered
    rw [autoTok] at covered widened ⊢
    omega
  · rintro rfl
    rw [autoTok]
    omega
  · rintro rfl
    rw [autoTok]
    omega

/-- A context of 262144 tokens of which a tenth is kept, for 64 requests, in exact arithmetic. -/
def defaultEnv : ReserveEnv := ⟨262144, 1 / 10, 96, 0, 2048, 64, 0, id⟩

theorem auto_size_meets_spec_on_defaultEnv :
    defaultEnv.AutoSized 256 ∧ Sufficient defaultEnv 256 (defaultEnv.swapEngineP 256 (.small 2 10 1)) ∧
      Tight defaultEnv 256 (defaultEnv.swapEngineP 256 (.small 2 10 1)) :=
  have auto : defaultEnv.AutoSized 256 := by decide +kernel
  have met := (auto_size_meets_spec defaultEnv 256 (.small 2 10 1) (by decide) auto).2
  ⟨auto, met.1 le_rfl, met.2.1 rfl⟩

/-- With 64 chunks in a page there are more than twice the cells that are needed. -/
theorem auto_size_wastes_reserve :
    defaultEnv.AutoSized 64 ∧ ¬Tight defaultEnv 64 (defaultEnv.swapEngineP 64 (.small 2 10 1)) ∧
      2 * (defaultEnv.recallChunks 64 + defaultEnv.decodeChunks + 1 + 3 * 64) <
        (defaultEnv.swapEngineP 64 (.small 2 10 1)).cellCapacity := by
  decide +kernel

end FlashMemory.ReserveEnv
