import FlashMemory.Model.Engine
import Mathlib.Data.Rat.Floor

/-! # How large the reserve is made

The model runner reads the sizes of the recall region and of the decode region from the environment and turns them into
pages for `SwapEngineP`. The engine cuts its own cells into the two regions again.
-/

namespace FlashMemory

/-- The variables that decide the size. -/
structure ReserveEnv where
  /-- `SGLANG_DSV4_TARGET_CONTEXT`, in tokens. -/
  targetContext : ℕ
  /-- `SGLANG_PATHP_PAGE_KMAX_RATIO`. -/
  kmaxRatio : ℚ
  /-- `SGLANG_PATHP_PAGE_KMAX`. -/
  pageKmax : ℕ
  /-- `SGLANG_DSV4_TARGET_CONCURRENCY`. -/
  targetConcurrency : ℕ
  /-- `SGLANG_PATHP_DECODE_RESIDENT_CHUNKS`. -/
  decodeResidentChunks : ℕ
  /-- `SGLANG_PATHP_DECODE_MAX_CONC`. -/
  decodeMaxConc : ℕ
  /-- `SGLANG_PD_RESERVE_TOKENS`. -/
  pdReserveTokens : ℕ
  /-- What a float operation makes of its exact result. -/
  round : ℚ → ℚ

namespace ReserveEnv

variable (env : ReserveEnv) (pageSize : ℕ)

/-- `_target_context_pages`. -/
def targetContextPages : ℕ :=
  let tgtChunks := (env.targetContext + 3) / 4
  (tgtChunks + pageSize - 1) / pageSize

def resolvePageKmax : ℕ :=
  if 0 < env.kmaxRatio then
    max 1 ⌊env.round (env.round (env.targetContextPages pageSize * env.kmaxRatio) + 9999 / 10000)⌋.toNat
  else env.pageKmax

def tgtConc : ℕ := if env.targetConcurrency = 0 then env.decodeMaxConc else env.targetConcurrency

def recallChunks : ℕ := env.resolvePageKmax pageSize * pageSize * env.tgtConc

def decodeChunks : ℕ := env.decodeResidentChunks * env.decodeMaxConc

def autoTok : ℕ := (env.recallChunks pageSize + env.decodeChunks + 2 * pageSize) * 4

/-- The auto-size branch decides the reserve. -/
def AutoSized : Prop := 0 < env.kmaxRatio ∧ env.pdReserveTokens < env.autoTok pageSize

instance : Decidable (env.AutoSized pageSize) := inferInstanceAs (Decidable (_ ∧ _))

def reserveTok : ℕ := if env.AutoSized pageSize then env.autoTok pageSize else env.pdReserveTokens

def reservePages : ℕ :=
  if 0 < env.reserveTok pageSize then (env.reserveTok pageSize + pageSize - 1) / pageSize else 0

/-- The engine built from it. Without a reserve of its own it keeps the rows of the landing pool. -/
def swapEngineP (landing : Config) : Config :=
  { landing with
    reservePages := if 0 < env.reservePages pageSize then env.reservePages pageSize else landing.reservePages
    ownReserve := decide (0 < env.reservePages pageSize)
    ownReserve_pos := fun own => by rw [if_pos (of_decide_eq_true own)]; exact of_decide_eq_true own
    decodeResidentChunks := env.decodeResidentChunks
    decodeMaxConc := env.decodeMaxConc }

end ReserveEnv

end FlashMemory
