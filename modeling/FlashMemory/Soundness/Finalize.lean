import FlashMemory.Model.Retriever
import Mathlib.Data.Finset.Lattice.Basic

/-! # The capacity of the resident set

`_finalize_resident` keeps the recent and the sink chunks in any case, and fills the rest of the capacity with the best
chunks above the threshold.
-/

namespace FlashMemory.RetrieverHook

open List

variable {hook : RetrieverHook} {sigs : ℕ → ℕ → ℚ} {nBlk : ℕ} {kernel : TopkKernel ℚ}

/-- The chunks of a mask. -/
def chunksOf (nBlk : ℕ) (mask : ℕ → Bool) : Finset ℕ := (Finset.range nBlk).filter (mask · = true)

theorem mem_chunksOf {mask : ℕ → Bool} {chunk : ℕ} : chunk ∈ chunksOf nBlk mask ↔ chunk < nBlk ∧ mask chunk = true := by
  rw [chunksOf, Finset.mem_filter, Finset.mem_range]

private theorem card_chunksOf (nBlk : ℕ) (mask : ℕ → Bool) : (chunksOf nBlk mask).card = countMask nBlk mask := by
  rw [countMask, ← toFinset_card_of_nodup (nodup_range.filter _)]
  congr 1
  ext chunk
  rw [mem_chunksOf, mem_toFinset, mem_filter, mem_range]

/-- The chunks that compete for the rest of the capacity. -/
def candidates (hook : RetrieverHook) (sigs : ℕ → ℕ → ℚ) (nBlk : ℕ) : List ℕ :=
  (List.range nBlk).filter fun chunk => hook.thr sigs chunk && !hook.forced nBlk chunk

theorem mem_candidates {chunk : ℕ} :
    chunk ∈ hook.candidates sigs nBlk ↔ chunk < nBlk ∧ hook.thr sigs chunk = true ∧ hook.forced nBlk chunk = false := by
  rw [candidates, mem_filter, mem_range, Bool.and_eq_true, Bool.not_eq_true']

theorem nodup_candidates : (hook.candidates sigs nBlk).Nodup := nodup_range.filter _

theorem uncapped_iff {chunk : ℕ} :
    hook.uncapped sigs nBlk chunk = true ↔ hook.forced nBlk chunk = true ∨ hook.thr sigs chunk = true := by
  simp only [uncapped, forced, Bool.or_eq_true]
  tauto

/-- The chunks before the cut are the forced ones and the candidates. -/
private theorem chunksOf_uncapped :
    chunksOf nBlk (hook.uncapped sigs nBlk) = chunksOf nBlk (hook.forced nBlk) ∪
      (hook.candidates sigs nBlk).toFinset := by
  ext chunk
  rw [Finset.mem_union, mem_chunksOf, mem_chunksOf, mem_toFinset, mem_candidates, uncapped_iff]
  cases hook.forced nBlk chunk <;> simp

private theorem disjoint_of_candidates {picked : List ℕ} (subset : picked ⊆ hook.candidates sigs nBlk) :
    Disjoint (chunksOf nBlk (hook.forced nBlk)) picked.toFinset := by
  rw [Finset.disjoint_left]
  intro chunk isForced isPicked
  have unforced := (mem_candidates.mp (subset (mem_toFinset.mp isPicked))).2.2
  exact Bool.false_ne_true (unforced.symm.trans (mem_chunksOf.mp isForced).2)

/-- Either nothing is cut, or the forced chunks and the best candidates are left. -/
private theorem finalizeResident_cases (hook : RetrieverHook) (sigs : ℕ → ℕ → ℚ) (nBlk : ℕ) (kernel : TopkKernel ℚ)
    (limited : 0 < hook.maxResident) :
    let forced := (chunksOf nBlk (hook.forced nBlk)).card
    hook.finalizeResident sigs nBlk kernel = hook.uncapped sigs nBlk ∧
        (hook.maxResident < (chunksOf nBlk (hook.uncapped sigs nBlk)).card →
          (hook.candidates sigs nBlk).length ≤ hook.maxResident - forced) ∨
      hook.maxResident < (chunksOf nBlk (hook.uncapped sigs nBlk)).card ∧
        ∃ picked : List ℕ, picked.Nodup ∧ picked ⊆ hook.candidates sigs nBlk ∧
        picked.length = hook.maxResident - forced ∧
          (∀ best ∈ picked, ∀ other ∈ hook.candidates sigs nBlk, other ∉ picked →
            hook.ensemble sigs other ≤ hook.ensemble sigs best) ∧
          hook.finalizeResident sigs nBlk kernel = fun chunk => hook.forced nBlk chunk || decide (chunk ∈ picked) := by
  intro forced
  have isForced : forced = countMask nBlk (hook.forced nBlk) := card_chunksOf _ _
  rw [card_chunksOf, isForced]
  simp only [finalizeResident]
  split_ifs with exceeds few positive
  · obtain ⟨distinct, subset, size, best⟩ := IsTopk.items nodup_candidates
      (kernel.spec (fun i => hook.ensemble sigs ((hook.candidates sigs nBlk).getD i 0)) _ _ few.le)
    exact .inr ⟨exceeds.2, _, distinct, subset, size, best, rfl⟩
  · refine .inr ⟨exceeds.2, [], nodup_nil, nil_subset _, ?_, by simp, rfl⟩
    rw [length_nil]
    omega
  · exact .inl ⟨rfl, fun _ => not_lt.mp few⟩
  · exact .inl ⟨rfl, fun more => absurd ⟨limited, more⟩ exceeds⟩

/-- All forced chunks are kept, and others only above the threshold. If the chunks fit, nothing is cut. If not, exactly
the capacity is used, or what the forced chunks need, and no candidate is left out for one with a lower score. -/
theorem finalizeResident_capped (hook : RetrieverHook) (sigs : ℕ → ℕ → ℚ) (nBlk : ℕ) (kernel : TopkKernel ℚ)
    (limited : 0 < hook.maxResident) :
    let kept := chunksOf nBlk (hook.finalizeResident sigs nBlk kernel)
    let forced := chunksOf nBlk (hook.forced nBlk)
    let above := chunksOf nBlk (hook.thr sigs)
    forced ⊆ kept ∧ kept ⊆ forced ∪ above ∧ kept.card ≤ max hook.maxResident forced.card ∧
      ((forced ∪ above).card ≤ hook.maxResident → kept = forced ∪ above) ∧
      (hook.maxResident < (forced ∪ above).card → kept.card = max hook.maxResident forced.card ∧
        ∀ dropped ∈ above \ forced, dropped ∉ kept → ∀ chunk ∈ kept \ forced,
          hook.ensemble sigs dropped ≤ hook.ensemble sigs chunk) := by
  intro kept forced above
  have all : chunksOf nBlk (hook.uncapped sigs nBlk) = forced ∪ above := by
    ext chunk
    rw [Finset.mem_union, mem_chunksOf, mem_chunksOf, mem_chunksOf, uncapped_iff, and_or_left]
  have total : (forced ∪ above).card = forced.card + (hook.candidates sigs nBlk).length := by
    rw [← all, chunksOf_uncapped, Finset.card_union_of_disjoint (disjoint_of_candidates (List.Subset.refl _)),
      toFinset_card_of_nodup nodup_candidates]
  rcases hook.finalizeResident_cases sigs nBlk kernel limited with ⟨same, fits⟩ |
    ⟨exceeds, picked, distinct, subset, size, best, is⟩
  · -- nothing is cut, so either everything fits or there are forced chunks only
    have keptAll : kept = forced ∪ above := by rw [← all, ← same]
    rw [all] at fits
    rw [keptAll]
    have count : hook.maxResident < (forced ∪ above).card →
        (forced ∪ above).card = max hook.maxResident forced.card := by
      intro more
      have := fits more
      change _ ≤ hook.maxResident - forced.card at this
      omega
    refine ⟨Finset.subset_union_left, Finset.Subset.refl _, ?_, fun _ => rfl, fun more => ⟨count more, ?_⟩⟩
    · rcases le_or_gt (forced ∪ above).card hook.maxResident with less | more
      · exact less.trans (le_max_left _ _)
      · exact (count more).le
    · intro dropped candidate unkept
      exact absurd (Finset.mem_union_right _ (Finset.mem_sdiff.mp candidate).1) unkept
  · have keptIs : kept = forced ∪ picked.toFinset := by
      ext chunk
      rw [Finset.mem_union, mem_chunksOf, mem_chunksOf, mem_toFinset, is, Bool.or_eq_true, decide_eq_true_eq,
        and_or_left]
      refine or_congr_right (and_iff_right_of_imp fun member => ?_)
      exact (mem_candidates.mp (subset member)).1
    have count : kept.card = max hook.maxResident forced.card := by
      rw [keptIs, Finset.card_union_of_disjoint (disjoint_of_candidates subset), toFinset_card_of_nodup distinct, size]
      change forced.card + (hook.maxResident - forced.card) = _
      omega
    rw [all] at exceeds
    refine ⟨keptIs ▸ Finset.subset_union_left, ?_, count.le, fun less => absurd less (not_le.mpr exceeds),
      fun _ => ⟨count, ?_⟩⟩
    · rw [keptIs]
      refine Finset.union_subset_union_right fun chunk member => ?_
      obtain ⟨inside, isAbove, _⟩ := mem_candidates.mp (subset (mem_toFinset.mp member))
      exact mem_chunksOf.mpr ⟨inside, isAbove⟩
    · intro dropped candidate unkept chunk member
      obtain ⟨isAbove, unforced⟩ := Finset.mem_sdiff.mp candidate
      obtain ⟨isKept, chunkUnforced⟩ := Finset.mem_sdiff.mp member
      rw [keptIs, Finset.mem_union, not_or, mem_toFinset] at unkept
      rw [keptIs, Finset.mem_union, mem_toFinset] at isKept
      obtain ⟨inside, score⟩ := mem_chunksOf.mp isAbove
      refine best chunk (isKept.resolve_left chunkUnforced) dropped (mem_candidates.mpr ⟨inside, score, ?_⟩) unkept.2
      exact Bool.eq_false_iff.mpr fun isForced => unforced (mem_chunksOf.mpr ⟨inside, isForced⟩)

/-- One layer, the first and the last chunk forced, and room for one more. -/
def threeResident : RetrieverHook := ⟨[0], true, 0, ⟨1, 1⟩, 3⟩

/-- Of six chunks above the threshold, three are kept. -/
theorem finalizeResident_capped_at_three :
    0 < threeResident.maxResident ∧
      (chunksOf 6 (threeResident.finalizeResident (fun _ chunk => chunk + 1) 6 (.preferring fun _ => false))).card =
        3 :=
  ⟨by decide, ((threeResident.finalizeResident_capped (fun _ chunk => chunk + 1) 6 (.preferring fun _ => false)
    (by decide)).2.2.2.2 (by decide +kernel)).1⟩

end FlashMemory.RetrieverHook
