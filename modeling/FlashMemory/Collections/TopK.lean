import Mathlib.Data.Finset.Card
import Mathlib.Data.Finset.Range
import Mathlib.Data.List.GetD
import Mathlib.Order.Basic

/-! # The k largest scores

A kernel that returns the positions of the `k` largest of `width` scores may break ties as it likes and
return the positions in any order. The positions that are wanted are the best of the wanted ones, and as
many as there can be, when the kernel returns all of them or nothing else. Whatever the kernel does with
ties, it returns nothing else exactly when every other position is outscored by `k` wanted ones.
-/

namespace FlashMemory

open List

variable {S : Type*} [LinearOrder S]

/-- The positions of `k` largest scores. -/
structure IsTopk (score : ℕ → S) (width k : ℕ) (chosen : List ℕ) : Prop where
  distinct : chosen.Nodup
  inRange : ∀ i ∈ chosen, i < width
  size : chosen.length = k
  top : ∀ i ∈ chosen, ∀ j < width, j ∉ chosen → score j ≤ score i

/-- A function that returns the positions of the largest scores. -/
structure TopkKernel (S : Type*) [LinearOrder S] where
  pick : (ℕ → S) → ℕ → ℕ → List ℕ
  spec : ∀ score width k, k ≤ width → IsTopk score width k (pick score width k)

/-! ## A kernel -/

/-- Better scores first, and among equal scores the preferred positions. -/
def rankedBefore (score : ℕ → S) (preferred : ℕ → Bool) (i j : ℕ) : Bool :=
  score j < score i || (score j = score i && (preferred i || !preferred j))

theorem rankedBefore_iff {score : ℕ → S} {preferred : ℕ → Bool} {i j : ℕ} :
    rankedBefore score preferred i j = true ↔
      score j < score i ∨ score j = score i ∧ (preferred j = true → preferred i = true) := by
  simp only [rankedBefore, Bool.or_eq_true, Bool.and_eq_true, decide_eq_true_eq, Bool.not_eq_true']
  cases preferred i <;> cases preferred j <;> simp

private theorem rankedBefore_trans (score : ℕ → S) (preferred : ℕ → Bool) (i j l : ℕ)
    (first : rankedBefore score preferred i j = true) (second : rankedBefore score preferred j l = true) :
    rankedBefore score preferred i l = true := by
  rw [rankedBefore_iff] at *
  rcases first with better | ⟨equal, tie⟩ <;> rcases second with better' | ⟨equal', tie'⟩
  · exact Or.inl (better'.trans better)
  · exact Or.inl (equal' ▸ better)
  · exact Or.inl (equal ▸ better')
  · exact Or.inr ⟨equal'.trans equal, fun last => tie (tie' last)⟩

private theorem rankedBefore_total (score : ℕ → S) (preferred : ℕ → Bool) (i j : ℕ) :
    (rankedBefore score preferred i j || rankedBefore score preferred j i) = true := by
  rw [Bool.or_eq_true, rankedBefore_iff, rankedBefore_iff]
  rcases lt_trichotomy (score i) (score j) with less | equal | more
  · exact Or.inr (Or.inl less)
  · cases preferredI : preferred i
    · exact Or.inr (Or.inr ⟨equal, by simp⟩)
    · exact Or.inl (Or.inr ⟨equal.symm, by simp⟩)
  · exact Or.inl (Or.inl more)

/-- The first `k` positions by rank. -/
def pickPreferred (preferred : ℕ → Bool) (score : ℕ → S) (width k : ℕ) : List ℕ :=
  ((List.range width).mergeSort (rankedBefore score preferred)).take k

theorem pickPreferred_before {preferred : ℕ → Bool} {score : ℕ → S} {width k i j : ℕ}
    (mem : i ∈ pickPreferred preferred score width k) (inRange : j < width)
    (left : j ∉ pickPreferred preferred score width k) : rankedBefore score preferred i j = true := by
  have sorted := pairwise_mergeSort (rankedBefore_trans score preferred) (rankedBefore_total score preferred)
    (List.range width)
  rw [← take_append_drop k ((List.range width).mergeSort _)] at sorted
  refine (pairwise_append.mp sorted).2.2 i mem j ?_
  have present : j ∈ (List.range width).mergeSort (rankedBefore score preferred) :=
    mem_mergeSort.mpr (mem_range.mpr inRange)
  rw [← take_append_drop k ((List.range width).mergeSort _)] at present
  exact (mem_append.mp present).resolve_left left

/-- The kernel that prefers some positions among equal scores. -/
def TopkKernel.preferring (preferred : ℕ → Bool) : TopkKernel S where
  pick := pickPreferred preferred
  spec score width k fits := by
    have sublist : (pickPreferred preferred score width k).Sublist _ := take_sublist k _
    refine ⟨?_, ?_, ?_, ?_⟩
    · exact ((mergeSort_perm _ _).nodup_iff.mpr nodup_range).sublist sublist
    · intro i member
      exact mem_range.mp (mem_mergeSort.mp (sublist.subset member))
    · rw [pickPreferred, length_take, length_mergeSort, length_range, Nat.min_eq_left fits]
    · intro i member j inRange left
      rcases rankedBefore_iff.mp (pickPreferred_before member inRange left) with better | ⟨equal, -⟩
      · exact better.le
      · exact equal.le

/-- Among the best positions the preferred one is chosen. -/
theorem mem_pick_preferring {score : ℕ → S} {width k i : ℕ} (some : 0 < k) (fits : k ≤ width) (inRange : i < width)
    (best : ∀ j < width, score j ≤ score i) : i ∈ (TopkKernel.preferring (· = i)).pick score width k := by
  by_contra left
  have topk := (TopkKernel.preferring (· = i)).spec score width k fits
  obtain ⟨j, picked⟩ := exists_mem_of_length_pos (topk.size.symm ▸ some)
  rcases rankedBefore_iff.mp (pickPreferred_before picked inRange left) with above | ⟨_, tie⟩
  · exact above.not_ge (best j (topk.inRange j picked))
  · exact left (of_decide_eq_true (tie (decide_eq_true rfl)) ▸ picked)

/-! ## Wanted positions -/

variable {score : ℕ → S} {width k : ℕ} {chosen : List ℕ} {wanted : Finset ℕ}

/-- A list with all positions of a small set has as many of them as possible. -/
theorem length_filter_all (distinct : chosen.Nodup) (all : ∀ i ∈ wanted, i ∈ chosen) (few : wanted.card ≤ k) :
    (chosen.filter (· ∈ wanted)).length = min k wanted.card := by
  rw [Nat.min_eq_right few, ← toFinset_card_of_nodup (distinct.filter _)]
  congr 1
  ext i
  rw [mem_toFinset, mem_filter, decide_eq_true_eq]
  exact ⟨fun both => both.2, fun want => ⟨all i want, want⟩⟩

namespace IsTopk

theorem card_toFinset (topk : IsTopk score width k chosen) : chosen.toFinset.card = k :=
  (toFinset_card_of_nodup topk.distinct).trans topk.size

private theorem length_filter (topk : IsTopk score width k chosen) :
    (chosen.filter (· ∈ wanted)).length = (chosen.toFinset ∩ wanted).card := by
  rw [← toFinset_card_of_nodup (topk.distinct.filter _), toFinset_filter]
  congr 1
  ext i
  simp

/-- A kernel asked for as many positions as there are returns all of them. -/
theorem mem_of_full (topk : IsTopk score width width chosen) {i : ℕ} (inRange : i < width) : i ∈ chosen := by
  have subset : chosen.toFinset ⊆ Finset.range width :=
    fun j mem => Finset.mem_range.mpr (topk.inRange j (mem_toFinset.mp mem))
  have equal := Finset.eq_of_subset_of_card_le subset (by rw [topk.card_toFinset, Finset.card_range])
  exact mem_toFinset.mp (equal ▸ Finset.mem_range.mpr inRange)

section

variable (topk : IsTopk score width k chosen)
include topk

/-- A position with fewer rivals than positions to choose is chosen. -/
theorem mem_of_few {i : ℕ} (inRange : i < width) {rivals : Finset ℕ}
    (all : ∀ j ∈ chosen, j ≠ i → score i ≤ score j → j ∈ rivals) (few : rivals.card < k) : i ∈ chosen := by
  by_contra left
  have subset : chosen.toFinset ⊆ rivals := fun j mem => by
    rw [mem_toFinset] at mem
    exact all j mem (fun same => left (same ▸ mem)) (topk.top j mem i inRange left)
  exact few.not_ge (topk.card_toFinset ▸ Finset.card_le_card subset)

/-- There are as many wanted positions among the chosen ones as there can be when all of them are chosen
or nothing else is. -/
theorem length_wanted_iff : (chosen.filter (· ∈ wanted)).length = min k wanted.card ↔
      (∀ i ∈ wanted, i ∈ chosen) ∨ ∀ i ∈ chosen, i ∈ wanted := by
  have all : (∀ i ∈ wanted, i ∈ chosen) ↔ chosen.toFinset ∩ wanted = wanted := by
    rw [Finset.inter_eq_right]
    exact ⟨fun each i mem => mem_toFinset.mpr (each i mem),
      fun subset i mem => mem_toFinset.mp (subset mem)⟩
  have only : (∀ i ∈ chosen, i ∈ wanted) ↔ chosen.toFinset ∩ wanted = chosen.toFinset := by
    rw [Finset.inter_eq_left]
    exact ⟨fun each i mem => each i (mem_toFinset.mp mem),
      fun subset i mem => subset (mem_toFinset.mpr mem)⟩
  have size := topk.card_toFinset
  have below : (chosen.toFinset ∩ wanted).card ≤ k := size ▸ Finset.card_le_card Finset.inter_subset_left
  have below' : (chosen.toFinset ∩ wanted).card ≤ wanted.card := Finset.card_le_card Finset.inter_subset_right
  rw [topk.length_filter, all, only]
  constructor
  · intro full
    rcases le_total k wanted.card with fewer | more
    · exact Or.inr (Finset.eq_of_subset_of_card_le Finset.inter_subset_left (by omega))
    · exact Or.inl (Finset.eq_of_subset_of_card_le Finset.inter_subset_right (by omega))
  · rintro (equal | equal)
    · rw [equal] at below ⊢
      omega
    · rw [equal] at below' ⊢
      omega

/-- A position that `k` wanted ones outscore is not chosen. -/
theorem not_mem_of_outscored (inRange : ∀ j ∈ wanted, j < width) {i : ℕ}
    (outscored : k ≤ (wanted.filter (score i < score ·)).card) : i ∉ chosen := by
  intro mem
  have better : wanted.filter (score i < score ·) ⊆ chosen.toFinset.erase i := by
    intro j above
    obtain ⟨want, above⟩ := Finset.mem_filter.mp above
    refine Finset.mem_erase.mpr ⟨fun same => absurd above (same ▸ lt_irrefl _), mem_toFinset.mpr ?_⟩
    by_contra left
    exact absurd above (topk.top i mem j (inRange j want) left).not_gt
  have fewer := Finset.card_le_card better
  rw [Finset.card_erase_of_mem (mem_toFinset.mpr mem), topk.card_toFinset] at fewer
  have positive : 0 < k := topk.size ▸ length_pos_of_mem mem
  omega

/-- There are as many wanted positions among the chosen ones as there can be when they are better than all others. -/
theorem length_wanted_of_better (inRange : ∀ j ∈ wanted, j < width)
    (better : ∀ i < width, i ∉ wanted → ∀ j ∈ wanted, score i < score j) :
    (chosen.filter (· ∈ wanted)).length = min k wanted.card := by
  rw [topk.length_wanted_iff]
  by_contra neither
  push Not at neither
  obtain ⟨⟨j, want, left⟩, i, mem, unwanted⟩ := neither
  exact absurd (better i (topk.inRange i mem) unwanted j want) (topk.top i mem j (inRange j want) left).not_gt

end

/-- The items at the chosen positions of a list are its best ones. -/
theorem items {ι : Type*} {items : List ι} {rate : ι → S} {fallback : ι} (different : items.Nodup)
    (topk : IsTopk (fun i => rate (items.getD i fallback)) items.length k chosen) :
    (chosen.map (items.getD · fallback)).Nodup ∧ chosen.map (items.getD · fallback) ⊆ items ∧
      (chosen.map (items.getD · fallback)).length = k ∧
      ∀ best ∈ chosen.map (items.getD · fallback), ∀ other ∈ items, other ∉ chosen.map (items.getD · fallback) →
        rate other ≤ rate best := by
  have at? : ∀ i ∈ chosen, ∃ inside : i < items.length, items.getD i fallback = items[i] := fun i mem =>
    ⟨topk.inRange i mem, getD_eq_getElem _ _ (topk.inRange i mem)⟩
  refine ⟨?_, ?_, by rw [length_map, topk.size], ?_⟩
  · refine topk.distinct.map_on fun i first j second same => ?_
    obtain ⟨insideI, isI⟩ := at? i first
    obtain ⟨insideJ, isJ⟩ := at? j second
    exact different.getElem_inj_iff.mp (isI.symm.trans (same.trans isJ))
  · intro item mem
    obtain ⟨i, chosenI, rfl⟩ := mem_map.mp mem
    obtain ⟨inside, is⟩ := at? i chosenI
    rw [is]
    exact getElem_mem inside
  · intro best mem other present left
    obtain ⟨i, chosenI, rfl⟩ := mem_map.mp mem
    obtain ⟨j, inside, rfl⟩ := getElem_of_mem present
    have is : items.getD j fallback = items[j] := getD_eq_getElem _ _ inside
    rw [← is]
    refine topk.top i chosenI j inside fun chosenJ => left ?_
    exact mem_map.mpr ⟨j, chosenJ, is⟩

end IsTopk

/-- No kernel ever chooses anything that is not wanted exactly when `k` wanted positions outscore it. -/
theorem pick_subset_iff (fits : k ≤ width) (inRange : ∀ j ∈ wanted, j < width) :
    (∀ kernel : TopkKernel S, ∀ i ∈ kernel.pick score width k, i ∈ wanted) ↔
      ∀ i < width, i ∉ wanted → k ≤ (wanted.filter (score i < score ·)).card := by
  constructor
  · intro only i inRow unwanted
    -- The kernel that prefers the unwanted positions leaves this one out, so all it chooses is better.
    let kernel : TopkKernel S := .preferring fun j => decide (j ∉ wanted)
    have topk := kernel.spec score width k fits
    have left : i ∉ kernel.pick score width k := fun mem => unwanted (only kernel i mem)
    have better : (kernel.pick score width k).toFinset ⊆ wanted.filter (score i < score ·) := by
      intro j mem
      rw [mem_toFinset] at mem
      have want := only kernel j mem
      refine Finset.mem_filter.mpr ⟨want, ?_⟩
      rcases rankedBefore_iff.mp (pickPreferred_before mem inRow left) with above | ⟨-, tie⟩
      · exact above
      · exact absurd (tie (decide_eq_true unwanted)) (by simp [want])
    exact topk.card_toFinset ▸ Finset.card_le_card better
  · intro outscored kernel i mem
    have topk := kernel.spec score width k fits
    by_contra unwanted
    exact topk.not_mem_of_outscored inRange (outscored i (topk.inRange i mem) unwanted) mem

end FlashMemory
