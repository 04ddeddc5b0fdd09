import FlashMemory.Model.BatchSampler
import Mathlib.Data.Int.CardIntervalMod

/-! # The ranks get equal shares of the batches

What the ranks get together is a permutation of the batches that are kept, so no sample is dealt twice, and each rank
gets as many as the others. `__len__` counts full batches only and never answers 0 for a nonempty dataset. It is wrong
when the ranks outnumber the batches and when the short batch completes a round after the first.
-/

namespace FlashMemory

open List

section Strided
variable {α : Type} {start step : ℕ}

theorem strided_eq_filter (small : start < step) (xs : List α) :
    strided start step xs = (xs.zipIdx.filter fun entry => entry.2 % step = start).map Prod.fst := by
  rw [strided]
  congr 1
  apply filter_congr
  intro entry _
  rw [decide_eq_decide]
  constructor
  · rintro ⟨le, aligned⟩
    obtain ⟨rounds, split⟩ := Nat.dvd_of_mod_eq_zero aligned
    rw [← Nat.sub_add_cancel le, split, Nat.mul_add_mod, Nat.mod_eq_of_lt small]
  · rintro rfl
    exact ⟨Nat.mod_le .., Nat.sub_mod_eq_zero_of_mod_eq (Nat.mod_mod ..).symm⟩

/-- The residues split a list, whatever is read from its elements. -/
private theorem flatMap_filter_perm (of : α → ℕ) (xs : List α) (bound : ℕ) :
    (List.range bound).flatMap (fun value => xs.filter fun x => of x = value) ~ xs.filter fun x => of x < bound := by
  induction bound with
  | zero => simp
  | succ bound ih =>
    rw [range_succ, flatMap_append, flatMap_singleton]
    apply (ih.append_right _).trans
    have split := filter_append_perm (fun x => of x < bound) (xs.filter fun x => of x < bound + 1)
    rw [filter_filter, filter_filter] at split
    convert split using 3 <;> · funext x; grind

theorem flatMap_strided_perm (positive : 0 < step) (xs : List α) :
    (List.range step).flatMap (fun start => strided start step xs) ~ xs := by
  have dealt := (flatMap_filter_perm (fun entry : α × ℕ => entry.2 % step) xs.zipIdx step).map Prod.fst
  rw [map_flatMap, filter_eq_self.mpr (by simpa using fun _ _ _ => Nat.mod_lt _ positive), zipIdx_map_fst] at dealt
  convert dealt using 1
  exact flatMap_congr fun start mem => strided_eq_filter (mem_range.mp mem) xs

theorem length_strided (small : start < step) {rounds : ℕ} {xs : List α} (whole : xs.length = rounds * step) :
    (strided start step xs).length = rounds := by
  have indices : xs.zipIdx.map Prod.snd = List.range xs.length := by
    rw [zipIdx_map_snd, range_eq_range']
  have counted := Nat.count_modEq_card (rounds * step) (Nat.zero_lt_of_lt small) start
  rw [Nat.mul_div_cancel _ (by omega), Nat.mul_mod_left, if_neg (Nat.not_lt_zero _), Nat.add_zero, Nat.count, ← whole,
    ← indices, countP_map, countP_eq_length_filter] at counted
  rw [strided_eq_filter small, length_map, ← counted]
  congr 3
  funext entry
  simp [Nat.ModEq, Nat.mod_eq_of_lt small]

end Strided

namespace LengthBucketedBatchSampler

variable (sampler : LengthBucketedBatchSampler)

theorem indices_perm : sampler.indices ~ List.range sampler.nTotal :=
  perm_insertionSort ..

private theorem length_indices : sampler.indices.length = sampler.nTotal := by
  rw [sampler.indices_perm.length_eq, length_range]

private theorem flatten_slices (xs : List ℕ) (size count : ℕ) :
    ((List.range count).map fun batch => (xs.drop (batch * size)).take size).flatten = xs.take (count * size) := by
  induction count with
  | zero => simp
  | succ count ih => simp [range_succ, ih, Nat.succ_mul, take_add]

private theorem nodup_slices : sampler.slices.flatten.Nodup := by
  rw [slices, flatten_slices]
  exact (take_sublist ..).nodup (sampler.indices_perm.nodup_iff.mpr nodup_range)

/-- How many batches there are to deal out. -/
def numBatches : ℕ :=
  if sampler.dropLast then sampler.nTotal / sampler.batchSize
  else (sampler.nTotal + sampler.batchSize - 1) / sampler.batchSize

theorem allBatches_perm : sampler.allBatches ~
    sampler.slices.filter fun batch => batch.length = sampler.batchSize ∨ sampler.dropLast = false := by
  rw [allBatches]
  split
  · exact sampler.rngShuffle_perm _ _
  · exact Perm.refl _

private theorem length_allBatches : sampler.allBatches.length = sampler.numBatches := by
  rw [sampler.allBatches_perm.length_eq, numBatches]
  cases drops : sampler.dropLast with
  | false => simp [slices, length_indices]
  | true =>
    -- The slice is full exactly when it ends within the list.
    simp only [Bool.true_eq_false, or_false, if_true, slices, length_indices, ← countP_eq_length_filter, countP_map]
    have positive := sampler.batchSize_pos
    have full : ∀ batch, ((sampler.indices.drop (batch * sampler.batchSize)).take sampler.batchSize).length =
        sampler.batchSize ↔ batch < sampler.nTotal / sampler.batchSize := by
      intro batch
      rw [length_take, length_drop, length_indices, ← Nat.succ_le_iff, Nat.le_div_iff_mul_le positive, Nat.succ_mul]
      omega
    simp only [Function.comp_def, full]
    have le : sampler.nTotal ≤ sampler.nTotal + sampler.batchSize - 1 := by omega
    obtain ⟨more, split⟩ := Nat.exists_eq_add_of_le (Nat.div_le_div_right (c := sampler.batchSize) le)
    rw [split, range_add, countP_append, countP_eq_length.mpr (by simp), length_range, countP_eq_zero.mpr (by simp)]
    rfl

private theorem length_iter {rank : ℕ} (small : rank < sampler.worldSize) :
    (sampler.iter rank).length = sampler.numBatches / sampler.worldSize := by
  apply length_strided small
  rw [length_take, length_allBatches, Nat.min_eq_left (Nat.div_mul_le_self ..)]

private theorem nodup_allBatches : sampler.allBatches.flatten.Nodup := by
  have slices := nodup_flatten.mp sampler.nodup_slices
  rw [sampler.allBatches_perm.flatten.nodup_iff, nodup_flatten]
  exact ⟨fun batch mem => slices.1 batch (mem_of_mem_filter mem), slices.2.filter _⟩

/-- What all ranks get is what was truncated to whole rounds, in another order. -/
theorem flatMap_iter_perm : (List.range sampler.worldSize).flatMap sampler.iter ~
    sampler.allBatches.take (sampler.allBatches.length / sampler.worldSize * sampler.worldSize) :=
  flatMap_strided_perm sampler.worldSize_pos _

private theorem nodup_iter : ((List.range sampler.worldSize).flatMap sampler.iter).flatten.Nodup := by
  rw [sampler.flatMap_iter_perm.flatten.nodup_iff]
  have batches := nodup_flatten.mp sampler.nodup_allBatches
  exact nodup_flatten.mpr
    ⟨fun batch mem => batches.1 batch (mem_of_mem_take mem), batches.2.sublist (take_sublist ..)⟩

private theorem length_of_mem_iter (drops : sampler.dropLast = true) {rank : ℕ} (small : rank < sampler.worldSize)
    {batch : List ℕ} (mem : batch ∈ sampler.iter rank) : batch.length = sampler.batchSize := by
  have dealt := sampler.flatMap_iter_perm.subset (mem_flatMap.mpr ⟨rank, mem_range.mpr small, mem⟩)
  have kept := sampler.allBatches_perm.subset (mem_of_mem_take dealt)
  simpa [drops] using (mem_filter.mp kept).2

/-- Only a short batch adds to the full ones. -/
private theorem numBatches_eq : sampler.numBatches = sampler.nTotal / sampler.batchSize +
    if sampler.dropLast = true ∨ sampler.nTotal % sampler.batchSize = 0 then 0 else 1 := by
  rw [numBatches]
  cases sampler.dropLast with
  | true => simp
  | false =>
    have positive := sampler.batchSize_pos
    have lt := Nat.mod_lt sampler.nTotal positive
    conv_lhs => rw [← Nat.div_add_mod sampler.nTotal sampler.batchSize]
    simp only [Bool.false_eq_true, false_or, if_false]
    rw [Nat.add_assoc, Nat.add_sub_assoc (by omega), Nat.mul_add_div positive]
    congr 1
    split
    next whole => exact Nat.div_eq_of_lt (by omega)
    next short => exact Nat.div_eq_of_lt_le (by omega) (by omega)

/-- There is a full batch for every rank and the short batch, if it is kept, completes no round, or completes the first
one. -/
def RoundsCounted : Prop :=
  sampler.nTotal = 0 ∨
    if sampler.dropLast = true ∨ sampler.nTotal % sampler.batchSize = 0 then
      sampler.worldSize ≤ sampler.nTotal / sampler.batchSize
    else sampler.nTotal / sampler.batchSize + 1 = sampler.worldSize ∨
      sampler.worldSize ≤ sampler.nTotal / sampler.batchSize ∧
        ¬sampler.worldSize ∣ sampler.nTotal / sampler.batchSize + 1

private theorem succ_div_eq_max_iff {count size : ℕ} (positive : 0 < size) :
    (count + 1) / size = max 1 (count / size) ↔ count + 1 = size ∨ size ≤ count ∧ ¬size ∣ count + 1 := by
  rw [Nat.succ_div]
  rcases lt_or_ge count size with few | enough
  · have first : size ∣ count + 1 ↔ count + 1 = size :=
      ⟨fun divides => Nat.le_antisymm few (Nat.le_of_dvd count.succ_pos divides), fun same => same ▸ dvd_rfl⟩
    simp [Nat.div_eq_of_lt few, first, few.not_ge]
  · rw [max_eq_right (Nat.div_pos enough positive)]
    have later : count + 1 ≠ size := by omega
    simp [enough, later]

private theorem numBatches_div_eq_len_iff :
    sampler.numBatches / sampler.worldSize = sampler.len ↔ sampler.RoundsCounted := by
  have ranks := sampler.worldSize_pos
  rw [numBatches_eq, len, RoundsCounted]
  by_cases empty : sampler.nTotal = 0
  · simp [empty]
  · rw [if_neg empty, or_iff_right empty]
    split_ifs
    · rw [Nat.add_zero, eq_comm, max_eq_right_iff, Nat.one_le_div_iff ranks]
    · exact succ_div_eq_max_iff ranks

/-- `__len__` is right exactly when `RoundsCounted` holds. The other parts hold for every dataset. -/
theorem sampler_balanced (sampler : LengthBucketedBatchSampler) :
    ((∀ rank < sampler.worldSize, (sampler.iter rank).length = sampler.len) ↔ sampler.RoundsCounted) ∧
    (∀ rank < sampler.worldSize, ∀ other < sampler.worldSize,
      (sampler.iter rank).length = (sampler.iter other).length) ∧
    (sampler.dropLast = true → ∀ rank < sampler.worldSize, ∀ batch ∈ sampler.iter rank,
      batch.length = sampler.batchSize) ∧
    ((List.range sampler.worldSize).flatMap sampler.iter).flatten.Nodup := by
  have shares := fun rank (small : rank < sampler.worldSize) => sampler.length_iter small
  refine ⟨?_, fun rank small other below => (shares rank small).trans (shares other below).symm,
    fun drops rank small batch => sampler.length_of_mem_iter drops small, sampler.nodup_iter⟩
  rw [← numBatches_div_eq_len_iff]
  constructor
  · intro counted
    rw [← shares 0 sampler.worldSize_pos, counted 0 sampler.worldSize_pos]
  · intro counted rank small
    rw [shares rank small, counted]

/-- Batches of two over the given lengths, not shuffled. -/
def small (lengths : List ℕ) (dropLast : Bool) (worldSize : ℕ) (positive : 0 < worldSize) :
    LengthBucketedBatchSampler where
  sampleNBlocks := lengths
  batchSize := 2
  batchSize_pos := by decide
  shuffle := false
  seed := 42
  epoch := 0
  dropLast := dropLast
  worldSize := worldSize
  worldSize_pos := positive
  rngShuffle _ batches := batches
  rngShuffle_perm _ _ := Perm.refl _

theorem sampler_balanced_on_five_samples :
    let sampler := small [9, 3, 7, 1, 5] true 2 (by decide)
    (sampler.iter 0).length = sampler.len ∧ (sampler.iter 1).length = sampler.len :=
  have balanced := (sampler_balanced (small [9, 3, 7, 1, 5] true 2 (by decide))).1.mpr (.inr (by decide))
  ⟨balanced 0 (by decide), balanced 1 (by decide)⟩

/-- Fewer full batches than ranks yield nothing, and a short batch that completes a round is not counted. -/
theorem len_ne_batches :
    let few := small [9, 3] true 2 (by decide)
    let short := small [9, 3, 7, 1, 5, 2, 8] false 2 (by decide)
    ((few.iter 0).length = 0 ∧ few.len = 1) ∧ (short.iter 0).length = 2 ∧ short.len = 1 := by
  decide

end LengthBucketedBatchSampler

end FlashMemory
