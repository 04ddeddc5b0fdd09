import FlashMemory.Model.StateRing
import FlashMemory.Collections.Scatter
import Mathlib.Data.Int.ModEq

/-! # The states that a decode step reads are in the ring

A page of the sliding window belongs to one page of one request, so two positions share a row only if they are on one
page and a multiple of the ring size apart. A step reads at most a ring of positions back.
-/

namespace FlashMemory.StatePool

open List

variable {pool : StatePool} {compressRatio : ℕ} {isSpeculative : Bool} {seqLens : ℕ → ℕ} {req other position later : ℕ}

/-- The row of a position. -/
def stateRow (pool : StatePool) (req position : ℕ) : ℤ := pool.translateFromSwaLocToStateLoc (pool.swaLoc req position)

/-- Positions are mapped to locations with the same offset in their pages, and pages to different pages. -/
structure Mapped (pool : StatePool) (seqLens : ℕ → ℕ) : Prop where
  valid : ∀ req, ∀ position < seqLens req, 0 ≤ pool.swaLoc req position
  congruent : ∀ req, ∀ position < seqLens req, pool.swaLoc req position % pool.swaPageSize = position % pool.swaPageSize
  paged : ∀ req, ∀ position < seqLens req, ∀ other < seqLens req, position / pool.swaPageSize =
    other / pool.swaPageSize → pool.swaLoc req position / pool.swaPageSize = pool.swaLoc req other / pool.swaPageSize
  apart : ∀ req, ∀ position < seqLens req, ∀ other, ∀ later < seqLens other,
    pool.swaLoc req position / pool.swaPageSize = pool.swaLoc other later / pool.swaPageSize →
      req = other ∧ position / pool.swaPageSize = later / pool.swaPageSize

/-- How many positions before its group a step reads. -/
def overlap (compressRatio : ℕ) : ℕ := if isOverlapCompress compressRatio then compressRatio else 0

theorem ringSize_cases {ringSize : ℕ}
    (size : getCompressStateRingSize false compressRatio isSpeculative = some ringSize) :
    0 < compressRatio ∧ compressRatio ∣ ringSize ∧ overlap compressRatio + compressRatio ≤ ringSize := by
  have known : compressRatio = 4 ∨ compressRatio = 128 := by
    by_contra unknown
    rw [getCompressStateRingSize, if_pos (not_or.mp unknown)] at size
    contradiction
  rcases known with rfl | rfl <;> cases isSpeculative <;> obtain rfl := Option.some.inj size <;> decide

section Rows

variable (divides : pool.ringSize ∣ pool.swaPageSize) (mapped : Mapped pool seqLens)

include divides mapped

theorem stateRow_eq (live : position < seqLens req) :
    pool.stateRow req position = pool.swaLoc req position / pool.swaPageSize * pool.ringSize +
      (position % pool.ringSize : ℕ) := by
  have offset := congrArg (· % (pool.ringSize : ℤ)) (mapped.congruent req position live)
  simp only [Int.emod_emod_of_dvd _ (Int.natCast_dvd_natCast.mpr divides)] at offset
  rw [stateRow, translateFromSwaLocToStateLoc, if_neg (mapped.valid req position live).not_gt, offset,
    Int.natCast_mod]

private theorem stateRow_split (positive : 0 < pool.ringSize) (live : position < seqLens req) :
    pool.stateRow req position / pool.ringSize = pool.swaLoc req position / pool.swaPageSize ∧
      pool.stateRow req position % pool.ringSize = (position % pool.ringSize : ℕ) := by
  rw [stateRow_eq divides mapped live, Int.ediv_emod_unique (Int.natCast_pos.mpr positive), Int.mul_comm, Int.add_comm]
  exact ⟨rfl, Int.natCast_nonneg _, Int.ofNat_lt.mpr (Nat.mod_lt position positive)⟩

/-- Positions that share a row are on one page, a multiple of the ring size apart. -/
theorem stateRow_inj (positive : 0 < pool.ringSize) (live : position < seqLens req) (live' : later < seqLens other)
    (same : pool.stateRow req position = pool.stateRow other later) :
    req = other ∧ position % pool.ringSize = later % pool.ringSize := by
  obtain ⟨page, offset⟩ := stateRow_split divides mapped positive live
  obtain ⟨page', offset'⟩ := stateRow_split divides mapped positive live'
  rw [same] at page offset
  exact ⟨(mapped.apart req position live other later live' (page.symm.trans page')).1,
    Int.ofNat_inj.mp (offset.symm.trans offset')⟩

private theorem stateRow_ne_of_close (positive : 0 < pool.ringSize) (before : position < later)
    (close : later < position + pool.ringSize) (live : later < seqLens req) :
    pool.stateRow req position ≠ pool.stateRow req later := by
  intro same
  have aligned := (stateRow_inj divides mapped positive (before.trans live) live same).2
  have apart := (Nat.modEq_iff_dvd' before.le).mp aligned
  have := Nat.le_of_dvd (by omega) apart
  omega

/-- The rows of a group are consecutive, and `get_raw_loc` gives their group. -/
private theorem stateRow_group (ratio : compressRatio ∣ pool.ringSize) (positive : 0 < compressRatio) {group i : ℕ}
    (inside : i < compressRatio) (live : group * compressRatio + i < seqLens req) :
    pool.stateRow req (group * compressRatio + i) =
      pool.getRawLoc compressRatio req (group * compressRatio : ℕ) * compressRatio + i := by
  have start : group * compressRatio < seqLens req := by omega
  have quotient : (group * compressRatio + i) / compressRatio = group := by
    rw [Nat.mul_comm, Nat.mul_add_div positive, Nat.div_eq_of_lt inside, Nat.add_zero]
  obtain ⟨pages, isPage⟩ := ratio.trans divides
  have page := mapped.paged req _ live _ start (by
    rw [isPage, ← Nat.div_div_eq_div_mul, ← Nat.div_div_eq_div_mul, quotient, Nat.mul_div_cancel _ positive])
  obtain ⟨groups, isRing⟩ := ratio
  have offset : (group * compressRatio + i) % pool.ringSize = group * compressRatio % pool.ringSize + i := by
    rw [isRing, Nat.mod_mul, quotient, Nat.mul_comm group, Nat.mul_mod_mul_left, Nat.mul_add_mod,
      Nat.mod_eq_of_lt inside, Nat.add_comm]
  have whole : (compressRatio : ℤ) ∣ pool.stateRow req (group * compressRatio) := by
    rw [stateRow_eq divides mapped start, isRing, Nat.mul_comm group, Nat.mul_mod_mul_left, Int.natCast_mul,
      Int.natCast_mul]
    exact Int.dvd_add ((Int.dvd_mul_right ..).mul_left _) (Int.dvd_mul_right ..)
  have raw : pool.getRawLoc compressRatio req (group * compressRatio : ℕ) =
      pool.stateRow req (group * compressRatio) / compressRatio := by
    rw [stateRow, translateFromSwaLocToStateLoc, if_neg (mapped.valid req _ start).not_gt, getRawLoc,
      if_neg (Int.natCast_nonneg _).not_gt]
    rfl
  rw [raw, Int.ediv_mul_cancel whole, stateRow_eq divides mapped live, stateRow_eq divides mapped start, page,
    offset, Int.natCast_add, Int.add_assoc]

end Rows

/-- A decode step of a request reads these positions. -/
def Read (compressRatio seqLen position : ℕ) : Prop :=
  (seqLen - 1) / compressRatio * compressRatio ≤ position + overlap compressRatio ∧ position < seqLen

/-- The rows that a decode step reads are the rows of its positions, and after any stores in which every request goes
forward they hold the states of these positions. -/
theorem ring_keeps_states {σ : Type} (pool : StatePool) (compressRatio : ℕ) (isSpeculative : Bool)
    (size : getCompressStateRingSize false compressRatio isSpeculative = some pool.ringSize)
    (divides : pool.ringSize ∣ pool.swaPageSize) (seqLens : ℕ → ℕ) (mapped : Mapped pool seqLens) :
    (∀ req other, req ≠ other → ∀ position < seqLens req, ∀ later < seqLens other,
      pool.stateRow req position ≠ pool.stateRow other later) ∧
    (∀ req position later, position < later → later < position + pool.ringSize → later < seqLens req →
      pool.stateRow req position ≠ pool.stateRow req later) ∧
    (∀ req, compressRatio < seqLens req →
      let first := (seqLens req - 1) / compressRatio * compressRatio
      let (write, extra) := pool.compressorData compressRatio req (seqLens req)
      (∀ i < compressRatio, first + i < seqLens req → pool.stateRow req (first + i) = write * compressRatio + i) ∧
      (compressRatio = 4 → ∃ before, extra = some before ∧
        ∀ i < compressRatio, pool.stateRow req (first - compressRatio + i) = before * compressRatio + i)) ∧
    ∀ (stores : List (ℕ × ℕ)) (state : ℕ × ℕ → σ) (buffer : ℤ → σ), (∀ store ∈ stores, store.2 < seqLens store.1) →
      stores.Pairwise (fun store later => store.1 = later.1 → store.2 < later.2) →
      ∀ store ∈ stores, Read compressRatio (seqLens store.1) store.2 →
        scatter buffer (stores.map fun store => (pool.stateRow store.1 store.2, state store))
          (pool.stateRow store.1 store.2) = state store := by
  obtain ⟨positive, ratio, covers⟩ := ringSize_cases size
  have ring : 0 < pool.ringSize := by omega
  refine ⟨fun req other different position live later live' same => ?_, fun req position later => ?_,
    fun req long => ?_, ?_⟩
  · exact different (stateRow_inj divides mapped ring live live' same).1
  · exact stateRow_ne_of_close divides mapped ring
  · have first : 1 ≤ (seqLens req - 1) / compressRatio := Nat.div_pos (by omega) positive
    have start : (((seqLens req : ℤ) - 1) / compressRatio * compressRatio : ℤ) =
        ((seqLens req - 1) / compressRatio * compressRatio : ℕ) := by
      push_cast [Nat.cast_sub (by omega : 1 ≤ seqLens req)]
      rfl
    constructor
    · intro i inside live
      rw [stateRow_group divides mapped ratio positive inside live, start]
    · rintro rfl
      refine ⟨_, rfl, fun i inside => ?_⟩
      have shifted : (seqLens req - 1) / 4 * 4 - 4 = ((seqLens req - 1) / 4 - 1) * 4 := by omega
      have previous : ((seqLens req : ℤ) - 1) / (4 : ℕ) * (4 : ℕ) - (4 : ℕ) =
          (((seqLens req - 1) / 4 - 1) * 4 : ℕ) := by
        rw [start]
        omega
      rw [shifted, stateRow_group divides mapped ratio positive inside (by omega), previous]
  · intro stores state buffer live forward store member read
    obtain ⟨earlier, rest, rfl⟩ := append_of_mem member
    rw [map_append, map_cons, scatter, foldl_append, foldl_cons]
    refine (scatter_of_not_mem fun touched => ?_).trans (Function.update_self ..)
    rw [map_map] at touched
    obtain ⟨later, isLater, shared⟩ := mem_map.mp touched
    have same : pool.stateRow later.1 later.2 = pool.stateRow store.1 store.2 := shared
    have after := rel_of_pairwise_cons (pairwise_append.mp forward).2.1 isLater
    have alive := live later (mem_append_right _ (mem_cons_of_mem _ isLater))
    by_cases mine : store.1 = later.1
    · have width := Nat.lt_div_mul_add (a := seqLens store.1 - 1) positive
      obtain ⟨reach, _⟩ := read
      rw [← mine] at alive same
      exact stateRow_ne_of_close divides mapped ring (after mine) (by omega) alive same.symm
    · exact mine (stateRow_inj divides mapped ring read.2 alive same.symm).1

/-- Two requests with window pages of 16 locations. -/
def twoRequests : StatePool := ⟨16, 8, fun req position => req * 32 + position, fun loc => loc + 16⟩

def twoLengths (req : ℕ) : ℕ := if req = 0 then 20 else if req = 1 then 9 else 0

private theorem mapped_twoRequests : Mapped twoRequests twoLengths := by
  have bound : ∀ req, twoLengths req ≤ 20 := fun req => by rw [twoLengths]; split_ifs <;> omega
  constructor
  · intro req position _
    simp only [twoRequests, swaLoc]
    omega
  · intro req position _
    simp only [twoRequests, swaLoc]
    omega
  · intro req position _ other _ same
    simp only [twoRequests, swaLoc] at same ⊢
    omega
  · intro req position live other later live' same
    have := bound req
    have := bound other
    simp only [twoRequests, swaLoc] at same ⊢
    omega

/-- At length 20 the first request reads the group of its position 16, and the one before it on another page. -/
theorem ring_keeps_states_on_twoRequests :
    twoRequests.compressorData 4 0 20 = (4, some 3) ∧ twoRequests.stateRow 0 17 ≠ twoRequests.stateRow 1 5 :=
  ⟨by decide, (@ring_keeps_states ℕ twoRequests 4 false rfl (by decide) twoLengths mapped_twoRequests).1 0 1
    (by decide) 17 (by decide) 5 (by decide)⟩

end FlashMemory.StatePool
