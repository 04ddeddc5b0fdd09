import FlashMemory.Model.BlockTransfer
import Mathlib.Data.List.SplitBy
import Mathlib.Data.List.Nodup

/-! # Every page is copied once

The groups are runs of consecutive pages on both sides, and together they are all pages. So the bytes of the blocks of
a layer are those of its pages, in the same order, and the two transfers share the layers between them.
-/

namespace FlashMemory

open List

/-- A byte that is copied: where it is read and where it is written. -/
def BlockCopy.bytes (copy : BlockCopy) : List (ℕ × ℕ) :=
  (List.range copy.length).map fun i => (copy.srcAddr + i, copy.dstAddr + i)

namespace LayerParams

variable (layer : LayerParams)

/-- The copy of one page. -/
def pageCopy (page : ℕ × ℕ) : BlockCopy :=
  ⟨layer.srcPtr + page.1 * layer.itemLen, layer.dstPtr + page.2 * layer.itemLen, layer.itemLen⟩

/-- A run of pages as one block. -/
private theorem bytes_run {page : ℕ × ℕ} {rest : List (ℕ × ℕ)}
    (chain : (page :: rest).IsChain fun page next => next.1 = page.1 + 1 ∧ next.2 = page.2 + 1) :
    BlockCopy.bytes { layer.pageCopy page with length := layer.itemLen * (page :: rest).length } =
      (page :: rest).flatMap fun page => (layer.pageCopy page).bytes := by
  induction rest generalizing page with
  | nil => simp [BlockCopy.bytes, pageCopy]
  | cons next rest ih =>
    obtain ⟨⟨src, dst⟩, chain⟩ := isChain_cons_cons.mp chain
    rw [flatMap_cons, ← ih chain, length_cons, Nat.mul_succ, Nat.add_comm, BlockCopy.bytes, range_add,
      map_append, map_map]
    congr 1
    apply map_congr_left
    intro i _
    simp only [pageCopy, Function.comp_apply, src, dst, Nat.succ_mul, Nat.add_assoc]

private theorem bytes_blockCopies (src dst : List ℕ) :
    (layer.blockCopies (groupConcurrentContiguous src dst).1 (groupConcurrentContiguous src dst).2).flatMap
      BlockCopy.bytes = (src.zip dst).flatMap fun page => (layer.pageCopy page).bytes := by
  rw [← flatten_splitBy (fun (page next : ℕ × ℕ) => next.1 = page.1 + 1 ∧ next.2 = page.2 + 1) (src.zip dst),
    flatten_eq_flatMap, flatMap_assoc, blockCopies, groupConcurrentContiguous, zip_map', map_map, flatMap_map]
  apply flatMap_congr
  intro group mem
  obtain ⟨page, rest, rfl⟩ := exists_cons_of_ne_nil (ne_nil_of_mem_splitBy mem)
  have chain := (isChain_of_mem_splitBy mem).imp fun _ _ => of_decide_eq_true
  have count : (map Prod.fst (page :: rest)).length = (page :: rest).length := length_map _
  rw [id, ← layer.bytes_run chain, ← count]
  rfl

end LayerParams

/-! ## Both transfers -/

variable {src dst : List ℕ} {kind : LayerParams × ℕ → Bool}

/-- Is the destination of a layer in host memory? -/
def DramArgs.isDram (args : DramArgs) (layersParams : List LayerParams) (entry : LayerParams × ℕ) : Bool :=
  args.isC4Dram layersParams.length entry.2

/-- The bytes that are copied, with the kind of memory they are written to. -/
def KvXfers.bytes (xfers : KvXfers) : List (Bool × ℕ × ℕ) :=
  (xfers.vram.flatMap BlockCopy.bytes).map (false, ·) ++ (xfers.dram.flatMap BlockCopy.bytes).map (true, ·)

/-- The bytes of the pages of a layer. -/
def layerBytes (kind : LayerParams × ℕ → Bool) (src dst : List ℕ) (entry : LayerParams × ℕ) : List (Bool × ℕ × ℕ) :=
  ((src.zip dst).flatMap fun page => (entry.1.pageCopy page).bytes).map (kind entry, ·)

private theorem bytes_sendKvcache (args : DramArgs) (layersParams : List LayerParams) (src dst : List ℕ) :
    (sendKvcache args layersParams src dst).bytes ~
      layersParams.zipIdx.flatMap (layerBytes (args.isDram layersParams) src dst) := by
  let blocks := groupConcurrentContiguous src dst
  let share dram := layersParams.zipIdx.filter fun entry => args.isDram layersParams entry = dram
  have tagged : ∀ dram, (((share dram).flatMap fun entry => entry.1.blockCopies blocks.1 blocks.2).flatMap
      BlockCopy.bytes).map (dram, ·) = (share dram).flatMap (layerBytes (args.isDram layersParams) src dst) := by
    intro dram
    rw [flatMap_assoc, map_flatMap]
    apply flatMap_congr
    intro entry mem
    rw [LayerParams.bytes_blockCopies, layerBytes, of_decide_eq_true (mem_filter.mp mem).2]
  have others : share true = layersParams.zipIdx.filter fun entry => !decide (args.isDram layersParams entry = false) :=
    filter_congr fun entry _ => by simp
  have both :=
    (filter_append_perm (fun entry => args.isDram layersParams entry = false) layersParams.zipIdx).flatMap_right
      (layerBytes (args.isDram layersParams) src dst)
  rw [flatMap_append, ← others, ← tagged, ← tagged] at both
  exact both

/-! ## What is written -/

/-- The place that a byte is written to. -/
def dstOf (byte : Bool × ℕ × ℕ) : Bool × ℕ := (byte.1, byte.2.2)

/-- The destination pages of a layer, byte by byte. -/
def dstPlaces (kind : LayerParams × ℕ → Bool) (dst : List ℕ) (entry : LayerParams × ℕ) : List (Bool × ℕ) :=
  dst.flatMap fun page => (List.range entry.1.itemLen).map fun i =>
    (kind entry, entry.1.dstPtr + page * entry.1.itemLen + i)

private theorem dstOf_layerBytes (same : src.length = dst.length) (entry : LayerParams × ℕ) :
    (layerBytes kind src dst entry).map dstOf = dstPlaces kind dst entry := by
  rw [dstPlaces]
  conv_rhs => rw [← map_snd_zip (Nat.le_of_eq same.symm), flatMap_map]
  simp only [layerBytes, BlockCopy.bytes, LayerParams.pageCopy, map_flatMap, map_map]
  rfl

/-- A layer writes no byte twice. -/
private theorem nodup_dstPlaces (distinct : dst.Nodup) (entry : LayerParams × ℕ) :
    (dstPlaces kind dst entry).Nodup := by
  rw [dstPlaces, nodup_flatMap]
  refine ⟨fun page _ => nodup_range.map fun i j => ?_, distinct.imp fun {page other} different => ?_⟩
  · simp
  · intro place first second
    obtain ⟨i, inside, rfl⟩ := mem_map.mp first
    obtain ⟨j, within, equal⟩ := mem_map.mp second
    rw [mem_range] at inside within
    have offsets : other * entry.1.itemLen + j = page * entry.1.itemLen + i := by
      have := (Prod.mk.inj equal).2
      omega
    have quotient := congrArg (· / entry.1.itemLen) offsets
    simp only [Nat.mul_comm _ entry.1.itemLen, Nat.mul_add_div (Nat.zero_lt_of_lt inside), Nat.div_eq_of_lt inside,
      Nat.div_eq_of_lt within] at quotient
    exact different quotient.symm

/-- The blocks copy the bytes of every page in every layer and no others. A layer writes no byte twice, and all of them
together write none twice exactly if no two layers share a destination. -/
theorem pages_copied_once (args : DramArgs) (layersParams : List LayerParams) (src dst : List ℕ)
    (same : src.length = dst.length) (distinct : dst.Nodup) :
    let bytes := (sendKvcache args layersParams src dst).bytes
    let kind := args.isDram layersParams
    bytes ~ layersParams.zipIdx.flatMap (layerBytes kind src dst) ∧
      (∀ entry, ((layerBytes kind src dst entry).map dstOf).Nodup) ∧
      ((bytes.map dstOf).Nodup ↔ layersParams.zipIdx.Pairwise (Function.onFun List.Disjoint (dstPlaces kind dst))) := by
  have once := bytes_sendKvcache args layersParams src dst
  refine ⟨once, fun entry => ?_, ?_⟩
  · rw [dstOf_layerBytes same]
    exact nodup_dstPlaces distinct entry
  · rw [(once.map dstOf).nodup_iff, map_flatMap, funext (dstOf_layerBytes same), nodup_flatMap]
    exact and_iff_right fun entry _ => nodup_dstPlaces distinct entry

/-- Two layers, of which the first goes to host memory. -/
def twoLayers : List LayerParams := [⟨0, 1000, 3⟩, ⟨100, 2000, 2⟩]

/-- Five pages are copied in three runs. -/
theorem pages_copied_once_on_twoLayers :
    let args : DramArgs := ⟨1, 0, []⟩
    (groupConcurrentContiguous [4, 5, 6, 1, 2] [0, 1, 5, 6, 7]).1 = [[4, 5], [6], [1, 2]] ∧
      (sendKvcache args twoLayers [4, 5, 6, 1, 2] [0, 1, 5, 6, 7]).bytes ~
        twoLayers.zipIdx.flatMap (layerBytes (args.isDram twoLayers) [4, 5, 6, 1, 2] [0, 1, 5, 6, 7]) :=
  ⟨by decide, (pages_copied_once ⟨1, 0, []⟩ twoLayers [4, 5, 6, 1, 2] [0, 1, 5, 6, 7] rfl (by decide)).1⟩

/-- The base pointers are arguments: two layers that have the same one write to one byte. -/
theorem shared_pointer_written_twice :
    [0].Nodup ∧ ¬((sendKvcache ⟨0, 0, []⟩ [⟨0, 1000, 1⟩, ⟨100, 1000, 1⟩] [4] [0]).bytes.map dstOf).Nodup := by
  decide

end FlashMemory
