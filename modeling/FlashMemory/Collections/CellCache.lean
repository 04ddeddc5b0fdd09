import FlashMemory.Collections.Scatter
import Mathlib.Data.Int.Order.Basic

/-! # Coherence of a lookup table over owned cells

A cache keeps copies of a backing store in numbered cells. A table sends each key to its cell, or to
a negative number, and an allocator says which cell each key owns. The cache is coherent when every
table entry that points into the cached region names the cell its key owns, and that cell holds the
key's backing value unless the key is marked stale.

The rules below are the moves of such a cache: dropping entries, rewriting the backing store behind
dropped entries, writing cells outside the region, and installing a batch of copies after the owner
map changed. Ownership being injective is what keeps one copy from overwriting another.
-/

namespace FlashMemory

variable {κ α : Type*}

/-- Distinct keys own distinct cells. -/
def Exclusive (owner : κ → Option ℕ) : Prop :=
  ∀ (first second : κ) (cell : ℕ), owner first = some cell → owner second = some cell → first = second

structure Coherent (region : ℕ → Prop) (owner : κ → Option ℕ) (stale : κ → Prop)
    (table : κ → ℤ) (cells : ℕ → α) (backing : κ → α) : Prop where
  owned : ∀ (key : κ) (cell : ℕ), table key = (cell : ℤ) → region cell → owner key = some cell
  fresh : ∀ (key : κ) (cell : ℕ), table key = (cell : ℤ) → region cell → ¬ stale key → cells cell = backing key

namespace Coherent

variable {region : ℕ → Prop} {owner owner' : κ → Option ℕ} {stale stale' : κ → Prop}
  {table table' : κ → ℤ} {cells cells' : ℕ → α} {backing backing' : κ → α}

/-- Every entry that survives into the region keeps its owner, its cell and its backing value. -/
theorem frame (coherent : Coherent region owner stale table cells backing)
    (entry : ∀ (key : κ) (cell : ℕ), table' key = (cell : ℤ) → region cell → table key = (cell : ℤ))
    (owners : ∀ (key : κ) (cell : ℕ), table' key = (cell : ℤ) → region cell → owner key = some cell →
      owner' key = some cell)
    (marked : ∀ (key : κ) (cell : ℕ), table' key = (cell : ℤ) → region cell → ¬ stale' key →
      ¬ stale key ∧ backing' key = backing key)
    (contents : ∀ cell, region cell → cells' cell = cells cell) :
    Coherent region owner' stale' table' cells' backing' where
  owned key cell points inside :=
    owners key cell points inside (coherent.owned key cell (entry key cell points inside) inside)
  fresh key cell points inside current := by
    obtain ⟨wasCurrent, same⟩ := marked key cell points inside current
    rw [contents cell inside, same]
    exact coherent.fresh key cell (entry key cell points inside) inside wasCurrent

/-- Copy a batch of keys into the cells they own now: a table entry comes from the batch or was there
before, and a cell holds what the batch put there or what it held before. -/
theorem install {pairs : List (κ × ℕ)} (coherent : Coherent region owner stale table cells backing)
    (exclusive : Exclusive owner') (assigned : ∀ pair ∈ pairs, owner' pair.1 = some pair.2)
    (entries : ∀ (key : κ) (cell : ℕ), table' key = (cell : ℤ) → region cell →
      (key, cell) ∈ pairs ∨ table key = (cell : ℤ) ∧ (owner key = some cell → owner' key = some cell))
    (contents : ∀ cell, (∃ pair ∈ pairs, pair.2 = cell ∧ cells' cell = backing pair.1) ∨
      (∀ pair ∈ pairs, pair.2 ≠ cell) ∧ cells' cell = cells cell) :
    Coherent region owner' stale table' cells' backing := by
  have owned : ∀ (key : κ) (cell : ℕ), table' key = (cell : ℤ) → region cell →
      owner' key = some cell := by
    intro key cell points inside
    rcases entries key cell points inside with mem | ⟨old, carried⟩
    · exact assigned _ mem
    · exact carried (coherent.owned key cell old inside)
  refine ⟨owned, ?_⟩
  intro key cell points inside current
  rcases contents cell with ⟨pair, mem, rfl, result⟩ | ⟨unwritten, result⟩
  · rw [result, exclusive _ _ _ (assigned _ mem) (owned key pair.2 points inside)]
  · rcases entries key cell points inside with mem | ⟨old, _⟩
    · exact absurd rfl (unwritten _ mem)
    · exact result.trans (coherent.fresh key cell old inside current)

end Coherent

end FlashMemory
