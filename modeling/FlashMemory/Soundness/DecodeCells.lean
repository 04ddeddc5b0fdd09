import FlashMemory.Model.RequestPool
import FlashMemory.Collections.Run

/-! # The decode cells of live requests

A slot is the rank of the index's first registration modulo the concurrency bound. Slots are never
returned, so the bound on live requests does not keep two of them from having congruent ranks: they
then share all their cells. The other way to share is a decode region larger than the reserve, whose
cells are clamped to the sink.

With the clamped layout accounted for, live requests with incongruent ranks are all it takes, and a
pool with no more indices than the bound always has them.
-/

namespace FlashMemory.DecodeServer

open List Function Engine

variable {α : Type*} {cfg : Config} {server : DecodeServer α} {size preAllocSize : ℕ}

/-- Different decode chunks of live requests have different cells, all of them in the decode region
and below the sink. -/
def CellsDisjoint (cfg : Config) (server : DecodeServer α) : Prop :=
  ∀ first ∈ server.live, ∀ number < first.formed, ∀ loc > 0, ∀ pack,
    let cell := server.engine.decodeCell cfg (formingRow first number loc pack)
    cfg.decodeBase ≤ cell ∧ cell < cfg.sinkCell ∧
      ∀ second ∈ server.live, ∀ other < second.formed, ∀ loc' > 0, ∀ pack',
        (first.reqPoolIdx, number) ≠ (second.reqPoolIdx, other) →
          cell ≠ server.engine.decodeCell cfg (formingRow second other loc' pack')

/-- The slot of an index: the rank of its first registration, modulo the concurrency bound. -/
def slot (cfg : Config) (server : DecodeServer α) (idx : ℕ) : ℕ :=
  server.registered.idxOf idx % cfg.decodeMaxConc

/-- The spans of the live requests are apart and end before the sink. -/
structure SpansApart (cfg : Config) (server : DecodeServer α) : Prop where
  apart : ∀ first ∈ server.live, ∀ second ∈ server.live, 0 < first.formed → 0 < second.formed →
    server.slot cfg first.reqPoolIdx = server.slot cfg second.reqPoolIdx →
      first.reqPoolIdx = second.reqPoolIdx
  fits : ∀ req ∈ server.live, 0 < req.formed →
    cfg.decodeBase + server.slot cfg req.reqPoolIdx * cfg.decodeResidentChunks + req.formed <
      cfg.cellCapacity

/-- Every index is free, pending or live, exactly once; the engine's tables follow the history. -/
structure Consistent (cfg : Config) (total : ℕ) (server : DecodeServer α) : Prop where
  indices : (server.pool.freeSlots ++ server.pending ++ server.live.map LiveReq.reqPoolIdx).Perm
    (List.range total)
  counted : server.engine.nextDecodeSlot = server.registered.length
  slots : ∀ idx, server.engine.decodeSlotT idx =
    if idx ∈ server.registered then (server.slot cfg idx : ℤ) else -1
  once : server.registered.Nodup
  drawn : ∀ idx ∈ server.registered, idx < total
  known : ∀ req ∈ server.live, req.reqPoolIdx ∈ server.registered
  prefill : ∀ req ∈ server.live, server.engine.prefillChunksT req.reqPoolIdx = req.prefillChunks

namespace Consistent

theorem init (cfg : Config) (zero : α) (size preAllocSize : ℕ) :
    Consistent cfg (size + preAllocSize) (DecodeServer.init zero size preAllocSize) where
  indices := by simp [DecodeServer.init, DecodeReqToTokenPool.init]
  counted := rfl
  slots _ := rfl
  once := nodup_nil
  drawn _ mem := by simp [DecodeServer.init] at mem
  known _ mem := by simp [DecodeServer.init] at mem
  prefill _ mem := by simp [DecodeServer.init] at mem

variable {total : ℕ}

section

variable (inv : Consistent cfg total server)

include inv

theorem lt_total {idx : ℕ} (mem : idx ∈ server.pending ∨ idx ∈ server.live.map LiveReq.reqPoolIdx) : idx < total := by
  apply mem_range.mp
  apply inv.indices.subset
  simp only [mem_append]
  tauto

theorem alloc (needSize : ℕ) : Consistent cfg total (server.step cfg (.alloc needSize)) := by
  simp only [step, DecodeReqToTokenPool.alloc]
  split_ifs
  · exact inv
  · refine ⟨?_, inv.counted, inv.slots, inv.once, inv.drawn, inv.known, inv.prefill⟩
    refine List.Perm.trans (List.Perm.append_right _ ?_) inv.indices
    conv_rhs => rw [← take_append_drop needSize server.pool.freeSlots]
    rw [append_assoc, ← append_assoc]
    exact perm_append_comm.trans (by rw [← append_assoc])

theorem abort (idx : ℕ) : Consistent cfg total (server.step cfg (.abort idx)) := by
  simp only [step, DecodeReqToTokenPool.free]
  split_ifs with mem
  · refine ⟨?_, inv.counted, inv.slots, inv.once, inv.drawn, inv.known, inv.prefill⟩
    refine List.Perm.trans (List.Perm.append_right _ ?_) inv.indices
    rw [append_assoc]
    exact (perm_cons_erase mem).symm.append_left _
  · exact inv

theorem finish (idx : ℕ) : Consistent cfg total (server.step cfg (.finish idx)) := by
  simp only [step, DecodeReqToTokenPool.free]
  split_ifs with mem
  · have erased : (server.live.eraseP (·.reqPoolIdx = idx)).map LiveReq.reqPoolIdx =
        (server.live.map LiveReq.reqPoolIdx).erase idx := by
      rw [erase_eq_eraseP', eraseP_map]
      congr 1
    have kept := fun req (present : req ∈ server.live.eraseP (·.reqPoolIdx = idx)) =>
      mem_of_mem_eraseP present
    refine ⟨?_, inv.counted, inv.slots, inv.once, inv.drawn,
      fun req present => inv.known req (kept req present), fun req present => inv.prefill req (kept req present)⟩
    refine List.Perm.trans ?_ inv.indices
    simp only [erased, append_assoc]
    exact (perm_middle.symm.trans ((perm_cons_erase mem).symm.append_left _)).append_left _
  · exact inv

theorem form (idx : ℕ) : Consistent cfg total (server.step cfg (.form idx)) := by
  have same : (server.step cfg (.form idx)).live.map LiveReq.reqPoolIdx =
      server.live.map LiveReq.reqPoolIdx := by
    simp only [step, map_map]
    exact map_congr_left fun req _ => by
      simp only [comp_apply]
      split_ifs <;> rfl
  have kept : ∀ req ∈ (server.step cfg (.form idx)).live, ∃ old ∈ server.live,
      req.reqPoolIdx = old.reqPoolIdx ∧ req.prefillChunks = old.prefillChunks := by
    intro req mem
    obtain ⟨old, present, rfl⟩ := mem_map.mp mem
    refine ⟨old, present, ?_⟩
    split_ifs <;> exact ⟨rfl, rfl⟩
  refine ⟨same ▸ inv.indices, inv.counted, inv.slots, inv.once, inv.drawn, ?_, ?_⟩
  · intro req mem
    obtain ⟨old, present, idxEq, _⟩ := kept req mem
    exact idxEq ▸ inv.known old present
  · intro req mem
    obtain ⟨old, present, idxEq, countEq⟩ := kept req mem
    rw [idxEq, countEq]
    exact inv.prefill old present

section

variable (conc : cfg.decodeMaxConc ≠ 0) {idx : ℕ} (bound : idx < maxReqPool)
include conc bound

/-- What a registration does to the engine's tables. -/
theorem register_tables (prefillChunks : ℕ) : let engine := server.engine.registerDecodeReq cfg idx prefillChunks
    engine.prefillChunksT = update server.engine.prefillChunksT idx prefillChunks ∧
    if idx ∈ server.registered then
      engine.decodeSlotT = server.engine.decodeSlotT ∧
        engine.nextDecodeSlot = server.engine.nextDecodeSlot
    else
      engine.decodeSlotT = update server.engine.decodeSlotT idx
          ((server.registered.length % cfg.decodeMaxConc : ℕ) : ℤ) ∧
        engine.nextDecodeSlot = server.engine.nextDecodeSlot + 1 := by
  have inRange : ¬ ((idx : ℤ) < 0 ∨ (maxReqPool : ℤ) ≤ idx) := by omega
  have slotOf := inv.slots idx
  simp only [registerDecodeReq, inRange, ↓reduceIte, Int.toNat_natCast, ne_eq, conc,
    not_false_eq_true, and_true, slotOf, inv.counted]
  by_cases seen : idx ∈ server.registered
  · have nonneg : ¬ ((server.slot cfg idx : ℕ) : ℤ) < 0 := by omega
    simp only [seen, ↓reduceIte, nonneg, and_self]
  · simp [seen]

private theorem slots_register (pending : idx ∈ server.pending) (prefillChunks other : ℕ) :
    (server.step cfg (.register idx prefillChunks)).engine.decodeSlotT other =
      if other ∈ (server.step cfg (.register idx prefillChunks)).registered then
        ((server.step cfg (.register idx prefillChunks)).slot cfg other : ℤ) else -1 := by
  obtain ⟨_, tables⟩ := inv.register_tables conc bound prefillChunks
  simp only [step, pending, ↓reduceIte, slot]
  by_cases seen : idx ∈ server.registered
  · simp only [seen, ↓reduceIte] at tables ⊢
    rw [tables.1]
    exact inv.slots other
  simp only [seen, ↓reduceIte] at tables ⊢
  rw [tables.1]
  rcases eq_or_ne other idx with rfl | apart
  · rw [update_self, idxOf_append_of_notMem seen, idxOf_cons_self]
    simp
  · rw [update_of_ne apart, inv.slots other]
    by_cases known : other ∈ server.registered
    · simp only [known, mem_append, true_or, ↓reduceIte, slot, idxOf_append_of_mem known]
    · simp [known, apart]

end

theorem register (conc : cfg.decodeMaxConc ≠ 0) (bounded : total ≤ maxReqPool) (idx prefillChunks : ℕ) :
    Consistent cfg total (server.step cfg (.register idx prefillChunks)) := by
  by_cases pending : idx ∈ server.pending
  · have inPool := Nat.lt_of_lt_of_le (inv.lt_total (Or.inl pending)) bounded
    have slots := inv.slots_register conc inPool pending prefillChunks
    obtain ⟨counts, tables⟩ := inv.register_tables conc inPool prefillChunks
    have fresh : ∀ req ∈ server.live, req.reqPoolIdx ≠ idx := by
      rintro req mem rfl
      have distinct := inv.indices.nodup_iff.mpr nodup_range
      exact (disjoint_of_nodup_append distinct) (mem_append_right _ pending)
        (mem_map_of_mem mem)
    simp only [step, pending, ↓reduceIte] at slots ⊢
    refine ⟨?_, ?_, slots, ?_, ?_, ?_, ?_⟩
    · refine List.Perm.trans ?_ inv.indices
      simp only [map_cons, append_assoc]
      refine List.Perm.append_left _ ?_
      exact perm_middle.trans ((perm_cons_erase pending).symm.append_right _)
    · split_ifs at tables ⊢
      · rw [tables.2, inv.counted]
      · rw [tables.2, inv.counted, length_append, length_singleton]
    · split_ifs with seen
      · exact inv.once
      · exact inv.once.append (nodup_singleton idx) (disjoint_singleton.mpr seen)
    · split_ifs with seen
      · exact inv.drawn
      · exact forall_mem_append.mpr
          ⟨inv.drawn, forall_mem_singleton.mpr (inv.lt_total (Or.inl pending))⟩
    · simp only [forall_mem_cons]
      split_ifs with seen
      · exact ⟨seen, inv.known⟩
      · exact ⟨mem_append_right _ (mem_singleton_self idx), fun req mem =>
          mem_append_left _ (inv.known req mem)⟩
    · simp only [forall_mem_cons, counts]
      refine ⟨update_self .., fun req mem => ?_⟩
      rw [update_of_ne (fresh req mem)]
      exact inv.prefill req mem
  · simpa only [step, pending, ↓reduceIte] using inv

theorem next (bounded : total ≤ maxReqPool) {event : RequestEvent} (within : Bounded cfg (server.step cfg event)) :
    Consistent cfg total (server.step cfg event) := by
  cases event with
  | alloc needSize => exact inv.alloc needSize
  | abort idx => exact inv.abort idx
  | register idx prefillChunks =>
    by_cases pending : idx ∈ server.pending
    · -- The request just registered is live, so the bound is not zero.
      refine inv.register ?_ bounded idx prefillChunks
      have := within.1
      simp only [step, pending, ↓reduceIte, length_cons] at this
      omega
    · simpa only [step, pending, ↓reduceIte] using inv
  | form idx => exact inv.form idx
  | finish idx => exact inv.finish idx

/-- The cell of a live request's decode chunk, before the reserve's end clamps it. -/
theorem decodeCell_eq (bounded : total ≤ maxReqPool) (localfix : cfg.localfix = true) {req : LiveReq}
    (mem : req ∈ server.live) {number loc : ℕ} (inSpan : number < cfg.decodeResidentChunks) (formed : 0 < loc)
    (pack : α) :
    server.engine.decodeCell cfg (formingRow req number loc pack) =
      min ((cfg.decodeBase + server.slot cfg req.reqPoolIdx * cfg.decodeResidentChunks + number : ℕ) : ℤ)
        ((cfg.cellCapacity : ℤ) - 1) := by
  have bound := Nat.lt_of_lt_of_le (inv.lt_total (Or.inr (mem_map_of_mem mem))) bounded
  have index : rowIndex (formingRow req number loc pack) = req.reqPoolIdx := by
    simp only [rowIndex, formingRow]
    omega
  have count : server.engine.prefillChunksT (rowIndex (formingRow req number loc pack)) =
      req.prefillChunks := by rw [index, inv.prefill req mem]
  have step : server.engine.decodeLocal cfg (formingRow req number loc pack) = number := by
    have length : (formingRow req number loc pack).seqLen =
      some ((4 * (req.prefillChunks + number + 1) : ℕ) : ℤ) := rfl
    simp only [decodeLocal, localfix, count, length]
    omega
  have slotOf := inv.slots req.reqPoolIdx
  rw [if_pos (inv.known req mem)] at slotOf
  have valid : server.engine.DecodeValid cfg (formingRow req number loc pack) := by
    rw [DecodeValid, count, index, step, slotOf]
    exact ⟨Int.natCast_pos.mpr formed, by omega, by omega, by omega, by omega⟩
  simp only [decodeCell, valid, ↓reduceIte, index, step, slotOf]
  push_cast
  have span : (0 : ℤ) ≤ server.slot cfg req.reqPoolIdx * cfg.decodeResidentChunks :=
    Int.mul_nonneg (Int.natCast_nonneg _) (Int.natCast_nonneg _)
  omega

end

end Consistent

variable {total : ℕ}

section

variable (inv : Consistent cfg total server) (within : Bounded cfg server)

include inv within

theorem SpansApart.cellsDisjoint (spans : SpansApart cfg server) (bounded : total ≤ maxReqPool)
    (localfix : cfg.localfix = true) : CellsDisjoint cfg server := by
  -- Before the sink the clamp does nothing, so a cell is its offset in the decode region.
  have cellOf : ∀ req ∈ server.live, ∀ number < req.formed, ∀ loc > 0, ∀ pack,
      number < cfg.decodeResidentChunks ∧
      cfg.decodeBase + server.slot cfg req.reqPoolIdx * cfg.decodeResidentChunks + number + 1 <
        cfg.cellCapacity ∧
      server.engine.decodeCell cfg (formingRow req number loc pack) =
        (cfg.decodeBase + server.slot cfg req.reqPoolIdx * cfg.decodeResidentChunks + number : ℕ) := by
    intro req mem number early loc formed pack
    have inSpan := Nat.lt_of_lt_of_le early (within.2 req mem)
    have fits := spans.fits req mem (by omega)
    refine ⟨inSpan, by omega, ?_⟩
    rw [inv.decodeCell_eq bounded localfix mem inSpan formed pack]
    omega
  intro first mem number early loc formed pack
  obtain ⟨inSpan, below, value⟩ := cellOf first mem number early loc formed pack
  simp only [value, Config.sinkCell]
  refine ⟨by omega, by omega, ?_⟩
  intro second mem' other early' loc' formed' pack' different same
  obtain ⟨inSpan', _, value'⟩ := cellOf second mem' other early' loc' formed' pack'
  rw [value'] at same
  have offsets : cfg.decodeResidentChunks * server.slot cfg first.reqPoolIdx + number =
      cfg.decodeResidentChunks * server.slot cfg second.reqPoolIdx + other := by
    rw [Nat.mul_comm, Nat.mul_comm cfg.decodeResidentChunks]
    omega
  have sameNumber : number = other := by
    have := congrArg (· % cfg.decodeResidentChunks) offsets
    simpa only [Nat.mul_add_mod, Nat.mod_eq_of_lt inSpan, Nat.mod_eq_of_lt inSpan'] using this
  have sameSlot : server.slot cfg first.reqPoolIdx = server.slot cfg second.reqPoolIdx := by
    subst sameNumber
    exact Nat.eq_of_mul_eq_mul_left (by omega) (by omega : cfg.decodeResidentChunks * _ = _ * _)
  exact different (Prod.ext (spans.apart first mem second mem' (by omega) (by omega) sameSlot)
    sameNumber)

theorem CellsDisjoint.spansApart (disjoint : CellsDisjoint cfg server) (bounded : total ≤ maxReqPool)
    (localfix : cfg.localfix = true) (bytes : α) : SpansApart cfg server := by
  constructor
  · -- Two requests with one slot have the same first cell.
    intro first mem second mem' formed formed' sameSlot
    by_contra different
    have span := Nat.lt_of_lt_of_le formed (within.2 first mem)
    obtain ⟨_, _, apart⟩ := disjoint first mem 0 formed 1 Nat.one_pos bytes
    refine apart second mem' 0 formed' 1 Nat.one_pos bytes (by simp [different]) ?_
    rw [inv.decodeCell_eq bounded localfix mem span Nat.one_pos,
      inv.decodeCell_eq bounded localfix mem' span Nat.one_pos, sameSlot]
  · intro req mem formed
    have span := within.2 req mem
    obtain ⟨_, below, _⟩ := disjoint req mem (req.formed - 1) (by omega) 1 Nat.one_pos bytes
    rw [inv.decodeCell_eq bounded localfix mem (by omega) Nat.one_pos, Config.sinkCell] at below
    omega

/-- With no more indices than the concurrency bound, and a decode region that fits in the reserve, the
spans are apart in every state. -/
theorem Consistent.spansApart (indices : total ≤ cfg.decodeMaxConc) (region : cfg.decodeRegion < cfg.cellCapacity) :
    SpansApart cfg server := by
  have ranks : server.registered.length ≤ cfg.decodeMaxConc := by
    have few := (subperm_of_subset inv.once fun idx mem =>
      mem_range.mpr (inv.drawn idx mem)).length_le
    rw [length_range] at few
    omega
  have slotEq : ∀ req ∈ server.live, server.slot cfg req.reqPoolIdx =
      server.registered.idxOf req.reqPoolIdx ∧
      server.registered.idxOf req.reqPoolIdx < cfg.decodeMaxConc := by
    intro req mem
    have rank := idxOf_lt_length_of_mem (inv.known req mem)
    exact ⟨Nat.mod_eq_of_lt (by omega), by omega⟩
  constructor
  · intro first mem second mem' _ _ same
    rw [(slotEq first mem).1, (slotEq second mem').1] at same
    exact (idxOf_inj (inv.known first mem)).mp same
  · intro req mem _
    have inSpan := within.2 req mem
    obtain ⟨slotIs, early⟩ := slotEq req mem
    have upTo := Nat.mul_le_mul_right cfg.decodeResidentChunks (Nat.succ_le_of_lt early)
    simp only [Config.decodeBase, Config.decodeRegion, slotIs, Nat.succ_mul] at region upTo ⊢
    rw [Nat.mul_comm cfg.decodeMaxConc] at upTo
    omega

end

/-- As long as the requests run within the bounds, their decode cells are disjoint and clear of the
sink exactly when the live requests' first registrations have incongruent ranks and their spans end
before the sink. -/
theorem decode_cells_disjoint_iff (localfix : cfg.localfix = true) (zero : α)
    (bounded : size + preAllocSize ≤ maxReqPool) (events : List RequestEvent)
    (within : Along (step cfg) (fun server event => Bounded cfg (server.step cfg event))
      (DecodeServer.init zero size preAllocSize) events) :
    let server := run (step cfg) (DecodeServer.init zero size preAllocSize) events
    CellsDisjoint cfg server ↔ SpansApart cfg server := by
  have inv := within.invariant (Consistent.init cfg zero size preAllocSize)
    fun _ _ inv ok => inv.next bounded ok
  have idle : Bounded cfg (DecodeServer.init zero size preAllocSize) :=
    ⟨Nat.zero_le _, by simp [DecodeServer.init]⟩
  have final := within.invariant idle fun _ _ _ ok => ok
  exact ⟨fun disjoint => disjoint.spansApart inv final bounded localfix zero,
    fun spans => spans.cellsDisjoint inv final bounded localfix⟩

/-- Two requests at a time, each with one decode chunk. -/
def pairConfig : Config := { Config.small 2 1 2 with globalMode := true, localfix := true }

instance decidableBounded (cfg : Config) (server : DecodeServer α) : Decidable (Bounded cfg server) :=
  inferInstanceAs (Decidable (_ ∧ _))

theorem decode_cells_disjoint_on_pair :
    CellsDisjoint pairConfig (run (step pairConfig) (DecodeServer.init () 2 1)
      [.alloc 2, .register 1 5, .register 0 7, .form 0, .form 1]) :=
  (decode_cells_disjoint_iff (show pairConfig.localfix = true from rfl) () (by decide) _ (by decide)).mpr
    ⟨by decide, by decide⟩

/-- Index 1 ends and index 2 takes the next slot, which wraps to that of index 0, still live. -/
theorem live_requests_share_cells :
    let events : List RequestEvent := [.alloc 2, .register 0 5, .register 1 5, .form 0, .finish 1, .alloc 1,
      .register 2 5, .form 2]
    Along (step pairConfig) (fun server event => Bounded pairConfig (server.step pairConfig event))
      (DecodeServer.init () 2 1) events ∧
    ¬ CellsDisjoint pairConfig (run (step pairConfig) (DecodeServer.init () 2 1) events) := by
  refine ⟨by decide, fun disjoint => ?_⟩
  obtain ⟨_, _, apart⟩ := disjoint ⟨0, 5, 1⟩ (by decide) 0 Nat.one_pos 24 (by decide) ()
  exact apart ⟨2, 5, 1⟩ (by decide) 0 Nat.one_pos 88 (by decide) () (by decide) (by decide)

/-- A pool with no more indices than the concurrency bound, and a decode region that fits in the reserve, keep the
cells disjoint in every run. -/
theorem decode_cells_disjoint_of_few_indices (localfix : cfg.localfix = true) (zero : α)
    (bounded : size + preAllocSize ≤ maxReqPool) (few : size + preAllocSize ≤ cfg.decodeMaxConc)
    (region : cfg.decodeRegion < cfg.cellCapacity) (events : List RequestEvent)
    (within : Along (step cfg) (fun server event => Bounded cfg (server.step cfg event))
      (DecodeServer.init zero size preAllocSize) events) :
    CellsDisjoint cfg (run (step cfg) (DecodeServer.init zero size preAllocSize) events) := by
  have inv := within.invariant (Consistent.init cfg zero size preAllocSize)
    fun _ _ inv ok => inv.next bounded ok
  have idle : Bounded cfg (DecodeServer.init zero size preAllocSize) :=
    ⟨Nat.zero_le _, by simp [DecodeServer.init]⟩
  have final := within.invariant idle fun _ _ _ ok => ok
  exact (inv.spansApart final few region).cellsDisjoint inv final bounded localfix

/-- The second request ends and its index is drawn again. -/
theorem decode_cells_disjoint_of_few_indices_on_reuse :
    CellsDisjoint pairConfig (run (step pairConfig) (DecodeServer.init () 1 1)
      [.alloc 2, .register 0 5, .register 1 5, .form 0, .finish 1, .alloc 1, .register 1 7, .form 1]) :=
  decode_cells_disjoint_of_few_indices (by rfl) () (by decide) (by decide) (by decide) _ (by decide)

end FlashMemory.DecodeServer
