import Mathlib.Data.List.Sort
import Mathlib.Data.Rat.Defs

/-! # From recorded labels to training samples

The server writes the labels of all tokens of a document as one list with pointers. The training set cuts a window out
of it for every sampled token: its labels are the positives, and blocks without a label are drawn as negatives, the
same for every layer.
-/

namespace FlashMemory

open List

/-- The tensors with the labels. -/
structure CsrLabels where
  labelIndices : List ℕ
  labelScores : List ℕ
  labelPointers : List ℕ

/-- The part of `_flush_one_training_state` that encodes the labels, pairs of a block and its score. -/
def encodeLabels (labels : List (List (ℕ × ℕ))) : CsrLabels :=
  labels.foldl (fun csr tokenLabels =>
    let indices := csr.labelIndices ++ tokenLabels.map Prod.fst
    ⟨indices, csr.labelScores ++ tokenLabels.map Prod.snd, csr.labelPointers ++ [indices.length]⟩) ⟨[], [], [0]⟩

/-- `np.random.Generator`, with the number of the draw. -/
structure Generator where
  integers : ℕ → ℕ → ℕ
  /-- Without replacement. -/
  choice : ℕ → List ℕ → ℕ → List ℕ
  choice_subperm : ∀ draw pool size, size ≤ pool.length → choice draw pool size <+~ pool
  length_choice : ∀ draw pool size, size ≤ pool.length → (choice draw pool size).length = size

/-- A document of the dump. All layers have `nBlocks` rows of compressed K. -/
structure JointDoc (η ρ : Type) where
  labels : List (List (ℕ × ℕ))
  nBlocks : ℕ
  positions : ℕ → ℕ
  hidden : ℕ → ℕ → η
  compk : ℕ → ℕ → ρ

structure JointSample (η ρ : Type) where
  hidden : ℕ → η
  compk : ℕ → List ρ
  position : ℕ
  labels : List ℚ
  weights : List ℚ

structure JointDataset (η ρ : Type) where
  docs : List (JointDoc η ρ)
  sampleInterval : ℕ
  sampleInterval_pos : 0 < sampleInterval
  labelInterval : ℕ
  maxPos : ℕ
  negRatio : ℕ
  weightedLoss : Bool
  rng : Generator

namespace JointDoc

variable {η ρ : Type} (doc : JointDoc η ρ)

/-- What the file holds of the labels. -/
def csr : CsrLabels := encodeLabels doc.labels

def nDecode : ℕ := doc.csr.labelPointers.length - 1

/-- `xs[ptrs[t]:ptrs[t_end]]`. -/
def slice (xs : List ℕ) (t tEnd : ℕ) : List ℕ :=
  (xs.drop (doc.csr.labelPointers.getD t 0)).take
    (doc.csr.labelPointers.getD tEnd 0 - doc.csr.labelPointers.getD t 0)

/-- `_block_freq`. -/
def blockFreq (block : ℕ) : ℚ :=
  ((List.range doc.nDecode).flatMap fun t => doc.slice doc.csr.labelIndices t (t + 1)).count block / doc.nDecode

end JointDoc

namespace JointDataset

variable {η ρ : Type} (data : JointDataset η ρ) (doc : JointDoc η ρ) (t : ℕ)

def tEnd : ℕ := min (t + data.labelInterval) doc.nDecode

/-- The entries of the index for a document. -/
def docSamples : List ℕ :=
  (List.range doc.nDecode).filter fun t =>
    t % data.sampleInterval = 0 ∧ 0 < (doc.slice doc.csr.labelIndices t (data.tEnd doc t)).length

def samples : List (ℕ × ℕ) := data.docs.zipIdx.flatMap fun entry => (data.docSamples entry.1).map (entry.2, ·)

/-- The weight of a positive block, by its largest score and its frequency. -/
def posWeight (block : ℕ) : ℚ :=
  let scored := (List.range' t (data.tEnd doc t - t)).flatMap fun t =>
    (doc.slice doc.csr.labelIndices t (t + 1)).zip (doc.slice doc.csr.labelScores t (t + 1))
  let raw := scored.foldl (fun raw entry => if entry.1 = block ∧ raw < entry.2 then entry.2 else raw) 0
  if 4 / 5 < doc.blockFreq block then 1 / 2
  else if data.weightedLoss then 1 / 2 + 3 / 2 * (raw - 3) / 18
  else 1

variable (draw : ℕ)

def posAll : List ℕ :=
  let labelled := (doc.slice doc.csr.labelIndices t (data.tEnd doc t)).dedup.mergeSort.filter (· < doc.nBlocks)
  if labelled = [] then [data.rng.integers draw doc.nBlocks] else labelled

def posIdx : List ℕ :=
  let posAll := data.posAll doc t draw
  if data.maxPos < posAll.length then data.rng.choice (draw + 1) posAll data.maxPos else posAll

def negPool : List ℕ := (List.range doc.nBlocks).filter (· ∉ data.posAll doc t draw)

def nNeg : ℕ := min ((data.posIdx doc t draw).length * data.negRatio) (data.negPool doc t draw).length

def negIdx : List ℕ := data.rng.choice (draw + 2) (data.negPool doc t draw) (data.nNeg doc t draw)

/-- `__getitem__`, which starts at the given draw. -/
def getItem : JointSample η ρ :=
  let posIdx := data.posIdx doc t draw
  let negIdx := data.negIdx doc t draw
  { hidden := fun layer => doc.hidden layer t
    compk := fun layer => (posIdx ++ negIdx).map (doc.compk layer)
    position := doc.positions t
    labels := replicate posIdx.length 1 ++ replicate negIdx.length 0
    weights := posIdx.map (data.posWeight doc t) ++ replicate negIdx.length 1 }

end JointDataset

end FlashMemory
