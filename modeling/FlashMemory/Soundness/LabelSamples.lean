import FlashMemory.Model.LabelSamples
import Mathlib.Data.List.Induction
import Mathlib.Data.List.GetD
import Mathlib.Data.Finset.Card

/-! # The labels of a sample are those that were recorded

The pointers count the labels of the tokens before a token, so the slice of a window is the labels of its tokens.
-/

namespace FlashMemory

open List

variable {η ρ : Type}

theorem encodeLabels_eq (labels : List (List (ℕ × ℕ))) : encodeLabels labels =
    ⟨labels.flatten.map Prod.fst, labels.flatten.map Prod.snd,
      (List.range (labels.length + 1)).map fun t => (labels.take t).flatten.length⟩ := by
  induction labels using List.reverseRecOn with
  | nil => rfl
  | append_singleton labels token ih =>
    rw [encodeLabels, foldl_append, ← encodeLabels, ih]
    simp only [foldl_cons, foldl_nil, flatten_append, flatten_singleton, map_append, length_append, length_singleton,
      range_succ (n := labels.length + 1), map_singleton]
    congr 2
    · apply map_congr_left
      intro t mem
      rw [take_append_of_le_length (by simpa [Nat.lt_succ_iff] using mem)]
    · rw [take_of_length_le (by simp), length_map, length_map, flatten_append, length_append, flatten_singleton]

namespace JointDoc

variable (doc : JointDoc η ρ)

@[simp] theorem nDecode_eq : doc.nDecode = doc.labels.length := by simp [nDecode, csr, encodeLabels_eq]

/-- The blocks that are labels of the tokens from `t` up to `tEnd`. -/
def labelled (t tEnd : ℕ) : List ℕ := (((doc.labels.take tEnd).drop t).flatten).map Prod.fst

private theorem slice_labelIndices {t tEnd : ℕ} (ordered : t ≤ tEnd) (inside : tEnd ≤ doc.labels.length) :
    doc.slice doc.csr.labelIndices t tEnd = doc.labelled t tEnd := by
  have first : doc.labels.take tEnd = doc.labels.take t ++ (doc.labels.take tEnd).drop t := by
    rw [← take_append_drop t (doc.labels.take tEnd), take_take, min_eq_left ordered, drop_left' (by simp; omega)]
  have whole : doc.labels.flatten =
      (doc.labels.take t).flatten ++ (((doc.labels.take tEnd).drop t).flatten ++ (doc.labels.drop tEnd).flatten) := by
    rw [← append_assoc, ← flatten_append, ← first, ← flatten_append, take_append_drop]
  have count : (doc.labels.take tEnd).flatten.length =
      (doc.labels.take t).flatten.length + ((doc.labels.take tEnd).drop t).flatten.length := by
    rw [← length_append, ← flatten_append, ← first]
  have pointer : ∀ t ≤ doc.labels.length, doc.csr.labelPointers.getD t 0 = (doc.labels.take t).flatten.length := by
    intro t bound
    rw [csr, encodeLabels_eq, getD_eq_getElem _ _ (by simpa using Nat.lt_succ_of_le bound), getElem_map, getElem_range]
  rw [slice, pointer t (ordered.trans inside), pointer tEnd inside, count, Nat.add_sub_cancel_left, csr,
    encodeLabels_eq]
  dsimp only
  rw [whole, map_append, map_append, drop_left' (length_map _), take_left' (length_map _), labelled]

end JointDoc

namespace JointDataset

variable (data : JointDataset η ρ) (doc : JointDoc η ρ)

/-- The union of the label sets of the window at `t`. -/
def windowLabels (t : ℕ) : Finset ℕ := (doc.labelled t (min (t + data.labelInterval) doc.labels.length)).toFinset

theorem slice_window {t : ℕ} (inside : t < doc.labels.length) :
    doc.slice doc.csr.labelIndices t (data.tEnd doc t) =
      doc.labelled t (min (t + data.labelInterval) doc.labels.length) := by
  rw [tEnd, doc.nDecode_eq]
  exact doc.slice_labelIndices (by omega) (min_le_right _ _)

theorem mem_docSamples {t : ℕ} : t ∈ data.docSamples doc ↔
    t < doc.labels.length ∧ data.sampleInterval ∣ t ∧ (data.windowLabels doc t).Nonempty := by
  rw [docSamples, mem_filter, mem_range, doc.nDecode_eq]
  apply and_congr_right
  intro inside
  rw [data.slice_window doc inside, windowLabels, toFinset_nonempty_iff, decide_eq_true_iff, length_pos_iff,
    Nat.dvd_iff_mod_eq_zero]

theorem mem_samples {docId t : ℕ} :
    (docId, t) ∈ data.samples ↔ ∃ doc, data.docs[docId]? = some doc ∧ t ∈ data.docSamples doc := by
  simp only [samples, mem_flatMap, mem_map, Prod.mk.injEq, Prod.exists, mk_mem_zipIdx_iff_getElem?]
  constructor
  · rintro ⟨doc, index, found, token, mem, rfl, rfl⟩
    exact ⟨doc, found, mem⟩
  · rintro ⟨doc, found, mem⟩
    exact ⟨doc, docId, found, t, mem, rfl, rfl⟩

/-- The blocks with a label in the window. -/
def hits (t : ℕ) : Finset ℕ := (Finset.range doc.nBlocks).filter (· ∈ data.windowLabels doc t)

def misses (t : ℕ) : Finset ℕ := (Finset.range doc.nBlocks).filter (· ∉ data.windowLabels doc t)

theorem nodup_of_subperm {drawn pool : List ℕ} (sub : drawn <+~ pool) (nodup : pool.Nodup) : drawn.Nodup := by
  obtain ⟨other, perm, sublist⟩ := sub
  exact perm.nodup_iff.1 (nodup.sublist sublist)

theorem length_eq_card {blocks : List ℕ} (nodup : blocks.Nodup) {set : Finset ℕ}
    (mem : ∀ block, block ∈ blocks ↔ block ∈ set) : blocks.length = set.card := by
  rw [← toFinset_card_of_nodup nodup]
  congr 1
  ext block
  rw [mem_toFinset, mem block]

theorem posIdx_drawn (t draw : ℕ) : data.posIdx doc t draw <+~ data.posAll doc t draw ∧
    (data.posIdx doc t draw).length = min data.maxPos (data.posAll doc t draw).length := by
  rw [posIdx]
  split_ifs with many
  · exact ⟨data.rng.choice_subperm _ _ _ many.le, by rw [data.rng.length_choice _ _ _ many.le, min_eq_left many.le]⟩
  · exact ⟨Subperm.refl _, (min_eq_right (not_lt.1 many)).symm⟩

private theorem negIdx_drawn (t draw : ℕ) : data.negIdx doc t draw <+~ data.negPool doc t draw ∧
    (data.negIdx doc t draw).length = data.nNeg doc t draw :=
  ⟨data.rng.choice_subperm _ _ _ (min_le_right _ _), data.rng.length_choice _ _ _ (min_le_right _ _)⟩

/-- The blocks of a sample: the positives and the negatives, in the order of its rows. -/
structure Item (t : ℕ) (item : JointSample η ρ) (pos neg : List ℕ) : Prop where
  nodup_pos : pos.Nodup
  mem_hits : ∀ block ∈ pos, block ∈ data.hits doc t
  all_hits : (data.hits doc t).card ≤ data.maxPos → ∀ block ∈ data.hits doc t, block ∈ pos
  length_pos : pos.length = min data.maxPos (data.hits doc t).card
  nodup_neg : neg.Nodup
  mem_misses : ∀ block ∈ neg, block ∈ data.misses doc t
  length_neg : neg.length = min (data.negRatio * pos.length) (data.misses doc t).card
  labels : item.labels = (pos ++ neg).map fun block => if block ∈ data.hits doc t then 1 else 0
  weights : item.weights =
    (pos ++ neg).map fun block => if block ∈ data.hits doc t then data.posWeight doc t block else 1
  compk : ∀ layer, item.compk layer = (pos ++ neg).map (doc.compk layer)

section Drawn

variable {data doc} {t : ℕ} (inside : t < doc.labels.length) (inRange : (data.hits doc t).Nonempty) (draw : ℕ)
include inside inRange

theorem posAll_eq : data.posAll doc t draw =
    (doc.labelled t (min (t + data.labelInterval) doc.labels.length)).dedup.mergeSort.filter (· < doc.nBlocks) := by
  rw [posAll, data.slice_window doc inside]
  apply if_neg
  obtain ⟨block, mem⟩ := inRange
  exact ne_nil_of_mem (a := block) (by simpa [hits, windowLabels, and_comm] using mem)

theorem mem_posAll (block : ℕ) : block ∈ data.posAll doc t draw ↔ block ∈ data.hits doc t := by
  simp [posAll_eq inside inRange, hits, windowLabels, and_comm]

private theorem nodup_posAll : (data.posAll doc t draw).Nodup := by
  rw [posAll_eq inside inRange]
  exact ((mergeSort_perm _ _).nodup_iff.2 (nodup_dedup _)).filter _

private theorem mem_negPool (block : ℕ) : block ∈ data.negPool doc t draw ↔ block ∈ data.misses doc t := by
  simp only [negPool, misses, mem_filter, mem_range, decide_eq_true_iff, mem_posAll inside inRange, hits,
    Finset.mem_filter, Finset.mem_range]
  tauto

private theorem getItem_item :
    data.Item doc t (data.getItem doc t draw) (data.posIdx doc t draw) (data.negIdx doc t draw) := by
  have nodup := nodup_posAll inside inRange draw
  have mem := mem_posAll inside inRange draw
  have outside := mem_negPool inside inRange draw
  have nodupPool : (data.negPool doc t draw).Nodup := nodup_range.filter _
  obtain ⟨fromAll, count⟩ := data.posIdx_drawn doc t draw
  obtain ⟨fromPool, countNeg⟩ := data.negIdx_drawn doc t draw
  have hit := fun block drawn => (mem block).1 (fromAll.subset drawn)
  have miss := fun block drawn => (outside block).1 (fromPool.subset drawn)
  -- the labels and the weights are given for the two parts
  have parts : ∀ (f : ℕ → ℚ) (other : ℚ), (data.posIdx doc t draw).map f ++
      replicate (data.negIdx doc t draw).length other = (data.posIdx doc t draw ++ data.negIdx doc t draw).map
        fun block => if block ∈ data.hits doc t then f block else other := by
    intro f other
    rw [map_append, ← map_const']
    apply congrArg₂ _ (map_congr_left fun block drawn => (if_pos (hit block drawn)).symm)
    apply map_congr_left
    intro block drawn
    have missed := miss block drawn
    simp only [hits, misses, Finset.mem_filter] at missed ⊢
    rw [if_neg (by tauto)]
  exact {
    nodup_pos := nodup_of_subperm fromAll nodup
    mem_hits := hit
    all_hits := fun few block isHit => by
      rw [← length_eq_card nodup mem] at few
      exact (fromAll.perm_of_length_le (by rw [count, min_eq_right few])).symm.subset ((mem block).2 isHit)
    length_pos := by rw [count, length_eq_card nodup mem]
    nodup_neg := nodup_of_subperm fromPool nodupPool
    mem_misses := miss
    length_neg := by rw [countNeg, nNeg, length_eq_card nodupPool outside, Nat.mul_comm]
    labels := by
      rw [← parts, map_const']
      rfl
    weights := parts _ _
    compk := fun _ => rfl }

end Drawn

/-- The index holds the sampled tokens whose window has a label. The blocks of a sample with a label in range are
blocks with a label, then blocks without one, and its labels, weights and rows are given in their order. -/
theorem label_round_trip :
    (∀ docId t, (docId, t) ∈ data.samples ↔ ∃ doc, data.docs[docId]? = some doc ∧ t < doc.labels.length ∧
      data.sampleInterval ∣ t ∧ (data.windowLabels doc t).Nonempty) ∧
    ∀ docId t doc draw, (docId, t) ∈ data.samples → data.docs[docId]? = some doc → (data.hits doc t).Nonempty →
      ∃ pos neg, data.Item doc t (data.getItem doc t draw) pos neg := by
  constructor
  · intro docId t
    rw [mem_samples]
    simp only [mem_docSamples]
  · intro docId t doc draw sampled found inRange
    obtain ⟨other, same, mem⟩ := data.mem_samples.1 sampled
    obtain rfl : doc = other := Option.some_inj.1 (found.symm.trans same)
    exact ⟨_, _, getItem_item ((data.mem_docSamples doc).1 mem).1 inRange draw⟩

/-- A generator that draws the first items. -/
def firstItems : Generator where
  integers _ _ := 0
  choice _ pool size := pool.take size
  choice_subperm _ pool size _ := (take_sublist size pool).subperm
  length_choice _ _ _ fits := by rw [length_take, min_eq_left fits]

/-- One document of four blocks and three tokens, the second of which has no label. -/
def threeTokens : JointDataset ℕ ℕ where
  docs := [⟨[[(1, 5)], [], [(2, 7), (3, 4)]], 4, id, fun _ t => t, fun _ block => block⟩]
  sampleInterval := 1
  sampleInterval_pos := Nat.one_pos
  labelInterval := 1
  maxPos := 1
  negRatio := 1
  weightedLoss := false
  rng := firstItems

/-- One of two labels is drawn, and one of two blocks without a label. -/
theorem label_round_trip_on_threeTokens :
    (0, 2) ∈ threeTokens.samples ∧ (0, 1) ∉ threeTokens.samples ∧ ∃ doc pos neg, threeTokens.docs[0]? = some doc ∧
      threeTokens.Item doc 2 (threeTokens.getItem doc 2 0) pos neg := by
  have sampled : (0, 2) ∈ threeTokens.samples := by decide
  obtain ⟨pos, neg, item⟩ := threeTokens.label_round_trip.2 0 2 _ 0 sampled rfl (by decide)
  exact ⟨sampled, by decide, _, pos, neg, rfl, item⟩

end JointDataset

end FlashMemory
