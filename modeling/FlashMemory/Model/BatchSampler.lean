import Mathlib.Data.List.Sort
import Mathlib.Data.List.Perm.Lattice

/-! # Batches of samples of similar length

`LengthBucketedBatchSampler` sorts the samples by the length of their document, cuts the order into batches, and deals
the batches out to the ranks. The instances of the ranks differ only in `rank`, so it is an argument of `iter`.
-/

namespace FlashMemory

open List

/-- `xs[start::step]`. -/
def strided {α : Type} (start step : ℕ) (xs : List α) : List α :=
  (xs.zipIdx.filter fun entry => start ≤ entry.2 ∧ (entry.2 - start) % step = 0).map Prod.fst

structure LengthBucketedBatchSampler where
  sampleNBlocks : List ℕ
  batchSize : ℕ
  batchSize_pos : 0 < batchSize
  shuffle : Bool
  seed : ℤ
  epoch : ℤ
  dropLast : Bool
  worldSize : ℕ
  worldSize_pos : 0 < worldSize
  /-- `random.Random(seed).shuffle`. -/
  rngShuffle : ℤ → List (List ℕ) → List (List ℕ)
  rngShuffle_perm : ∀ state batches, rngShuffle state batches ~ batches

namespace LengthBucketedBatchSampler

variable (sampler : LengthBucketedBatchSampler)

abbrev nTotal : ℕ := sampler.sampleNBlocks.length

def indices : List ℕ :=
  (List.range sampler.nTotal).insertionSort fun left right =>
    sampler.sampleNBlocks.getD left 0 ≤ sampler.sampleNBlocks.getD right 0

/-- The slices that start at the multiples of the size, the last of them perhaps shorter. -/
def slices : List (List ℕ) :=
  (List.range ((sampler.indices.length + sampler.batchSize - 1) / sampler.batchSize)).map fun batch =>
    (sampler.indices.drop (batch * sampler.batchSize)).take sampler.batchSize

def allBatches : List (List ℕ) :=
  let batches := sampler.slices.filter fun batch => batch.length = sampler.batchSize ∨ sampler.dropLast = false
  if sampler.shuffle then sampler.rngShuffle (sampler.seed + sampler.epoch) batches else batches

def iter (rank : ℕ) : List (List ℕ) :=
  let nFull := sampler.allBatches.length / sampler.worldSize * sampler.worldSize
  strided rank sampler.worldSize (sampler.allBatches.take nFull)

def len : ℕ :=
  if sampler.nTotal = 0 then 0 else max 1 (sampler.nTotal / sampler.batchSize / sampler.worldSize)

end LengthBucketedBatchSampler

end FlashMemory
