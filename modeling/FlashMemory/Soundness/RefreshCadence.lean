import FlashMemory.Soundness.CapturerSteps
import FlashMemory.Model.Cadence

/-! # The refresh cadence

A request that takes part in consecutive decode steps has a counter that either grows by one per step or is
restarted, and a restarted counter makes it due. So within an interval it is due once, provided that the due
loop works with the indices of the batch. This fails when a request is replaced at equal batch size and
nothing tells the capturer: without score-resident buffers the cached list stays, and with them an index
that is taken again in the same row is not noticed.
-/

namespace FlashMemory

open List Function Capturer

namespace Capturer

variable {α : Type*} {ccfg : CapturerConfig} {capturer : Capturer} {reqIds : List ℕ} {ri : ℕ}

/-! ## The due loop -/

theorem isDue_iff : capturer.isDue ccfg ri = true ↔ capturer.reqStep ri = 0 ∨ capturer.reqStep ri % ccfg.interval =
    (if ccfg.staggerCycle then capturer.reqPhase ri else 0) % ccfg.interval := by
  simp only [isDue, Bool.or_eq_true, decide_eq_true_eq]

/-- On different indices the rows do not interfere: each is due or not by its counter, and each counter
advances by one. -/
private theorem dueLoop_distinct (ccfg : CapturerConfig) (capturer : Capturer) {rows : List (ℕ × ℕ)}
    (distinct : (rows.map Prod.fst).Nodup) :
    (dueLoop ccfg capturer rows).1 = { capturer with
        reqStep := fun ri => if ri ∈ rows.map Prod.fst then capturer.reqStep ri + 1 else capturer.reqStep ri } ∧
      ∀ bi, bi ∈ (dueLoop ccfg capturer rows).2 ↔ ∃ ri, (ri, bi) ∈ rows ∧ capturer.isDue ccfg ri = true := by
  induction rows generalizing capturer with
  | nil => simp [dueLoop]
  | cons row rest ih =>
    obtain ⟨first, others⟩ := nodup_cons.mp distinct
    obtain ⟨after, due⟩ := ih
      { capturer with reqStep := update capturer.reqStep row.1 (capturer.reqStep row.1 + 1) } others
    have same : ∀ ri, ri ∈ rest.map Prod.fst → ri ≠ row.1 := fun ri mem equal => first (equal ▸ mem)
    constructor
    · simp only [dueLoop, after]
      congr 1
      funext ri
      by_cases here : ri = row.1
      · subst here
        rw [if_neg first, update_self, map_cons, if_pos (mem_cons_self ..)]
      · simp only [update_of_ne here, map_cons, mem_cons, here, false_or]
    · intro bi
      have later : ∀ ri, (ri, bi) ∈ rest → ({ capturer with
          reqStep := update capturer.reqStep row.1 (capturer.reqStep row.1 + 1) } : Capturer).isDue ccfg ri =
          capturer.isDue ccfg ri := by
        intro ri mem
        simp only [isDue, update_of_ne (same ri (mem_map_of_mem mem))]
      simp only [dueLoop, mem_cons]
      constructor
      · intro mem
        split_ifs at mem with here
        · rcases mem_cons.mp mem with rfl | inRest
          · exact ⟨row.1, Or.inl rfl, here⟩
          · obtain ⟨ri, present, isDue⟩ := (due bi).mp inRest
            exact ⟨ri, Or.inr present, later ri present ▸ isDue⟩
        · obtain ⟨ri, present, isDue⟩ := (due bi).mp mem
          exact ⟨ri, Or.inr present, later ri present ▸ isDue⟩
      · rintro ⟨ri, rfl | present, isDue⟩
        · rw [if_pos isDue]
          exact mem_cons_self ..
        · have inRest := (due bi).mpr ⟨ri, present, (later ri present).trans isDue⟩
          split_ifs
          · exact mem_cons_of_mem _ inRest
          · exact inRest

private theorem zipIdx_fst_nodup {reqIds : List ℕ} (distinct : reqIds.Nodup) : (reqIds.zipIdx.map Prod.fst).Nodup := by
  rwa [zipIdx_map_fst]

/-- When the loop works with the indices of the batch, a row is due by the counter of its own index, and
the counters of the batch advance. -/
theorem dueRows_distinct (distinct : reqIds.Nodup) (resolved : capturer.resolveIds ccfg reqIds = reqIds) :
    (capturer.dueRows ccfg reqIds).1 = { capturer with
        ofeGlobalStep := capturer.ofeGlobalStep + 1
        cachedReqIds := some reqIds
        reqStep := fun ri => if ri ∈ reqIds then capturer.reqStep ri + 1 else capturer.reqStep ri } ∧
      ∀ bi : ℕ, bi ∈ (capturer.dueRows ccfg reqIds).2 ↔
        ∃ ri, reqIds[bi]? = some ri ∧ capturer.isDue ccfg ri = true := by
  obtain ⟨after, due⟩ := dueLoop_distinct ccfg
    { capturer with ofeGlobalStep := capturer.ofeGlobalStep + 1, cachedReqIds := some reqIds }
    (zipIdx_fst_nodup distinct)
  simp only [dueRows, resolved]
  constructor
  · rw [after]
    simp only [zipIdx_map_fst]
  · intro bi
    simp only [due, mem_zipIdx_iff_getElem?]
    rfl

/-! ## The restarts -/

/-- The counter is restarted, or counter and phase are as before. -/
def Restarts (before after : Capturer) (ri : ℕ) : Prop :=
  after.reqStep ri = 0 ∨ after.reqStep ri = before.reqStep ri ∧ after.reqPhase ri = before.reqPhase ri

theorem Restarts.trans {before middle after : Capturer} (first : Restarts before middle ri)
    (second : Restarts middle after ri) : Restarts before after ri := by
  rcases second with zero | ⟨step, phase⟩
  · exact Or.inl zero
  · rcases first with zero | ⟨step', phase'⟩
    · exact Or.inl (step.trans zero)
    · exact Or.inr ⟨step.trans step', phase.trans phase'⟩

private theorem restartRow_restarts (ccfg : CapturerConfig) (reqIds : List ℕ) (capturer : Capturer) (bi ri : ℕ) :
    Restarts capturer (restartRow ccfg reqIds capturer bi) ri := by
  simp only [restartRow]
  by_cases here : ri = reqIds.getD bi 0
  · left
    split_ifs <;> simp only [here, update_self]
  · right
    split_ifs <;> simp only [update_of_ne here, and_self]

/-- Restarting some rows restarts the counters of their indices. -/
private theorem foldl_restartRow_step (ccfg : CapturerConfig) (reqIds rows : List ℕ) (capturer : Capturer) (ri : ℕ) :
    Restarts capturer (rows.foldl (restartRow ccfg reqIds) capturer) ri ∧
      ((∃ bi ∈ rows, reqIds.getD bi 0 = ri) →
        (rows.foldl (restartRow ccfg reqIds) capturer).reqStep ri = 0) := by
  induction rows generalizing capturer with
  | nil => exact ⟨Or.inr ⟨rfl, rfl⟩, by simp⟩
  | cons row rest ih =>
    obtain ⟨restarts, zero⟩ := ih (restartRow ccfg reqIds capturer row)
    refine ⟨(restartRow_restarts ccfg reqIds capturer row ri).trans restarts, ?_⟩
    rintro ⟨bi, mem, index⟩
    rcases mem_cons.mp mem with rfl | later
    · have now : (restartRow ccfg reqIds capturer bi).reqStep ri = 0 := by
        simp only [restartRow]
        split_ifs <;> simp only [index, update_self]
      rcases restarts with done | ⟨step, _⟩
      · exact done
      · exact step.trans now
    · exact zero ⟨bi, later, index⟩

private theorem foldl_restartRow_ids (ccfg : CapturerConfig) (reqIds rows : List ℕ) (capturer : Capturer) :
    (rows.foldl (restartRow ccfg reqIds) capturer).cachedReqIds = capturer.cachedReqIds := by
  induction rows generalizing capturer with
  | nil => rfl
  | cons row rest ih =>
    refine (ih _).trans ?_
    simp only [restartRow]
    split_ifs <;> rfl

/-- What the capturer knows of the last batch. The occupants of the rows are noted with allocated
score-resident buffers only, and the cached list then agrees with them. -/
structure Synced (scoreResident : Bool) (capturer : Capturer) : Prop where
  buffered : capturer.prevRowOccupant ≠ none → scoreResident = true ∧ capturer.allocated = true
  cached : ∀ ids, capturer.prevRowOccupant = some ids →
    capturer.cachedReqIds = some ids ∨ capturer.cachedReqIds = none

/-- `on_forward_begin` makes the capturer know the batch, and restarts the counter of every index that is
new in its row. -/
theorem onForwardBegin_cadence (cfg : Config) (engine : Engine α) (synced : Synced true capturer)
    (allocated : capturer.allocated = true) (someRow : reqIds ≠ []) (bounded : reqIds.length ≤ ccfg.maxBs) :
    let after := (capturer.onForwardBegin cfg ccfg engine reqIds).1
    after.allocated = true ∧ after.prevRowOccupant = some reqIds ∧
      (after.cachedReqIds = some reqIds ∨ after.cachedReqIds = none) ∧ (∀ ri, Restarts capturer after ri) ∧
      ∀ bi ri : ℕ, reqIds[bi]? = some ri → capturer.noted[bi]? ≠ some ri → after.reqStep ri = 0 := by
  intro after
  rcases onForwardBegin_cases cfg ccfg capturer engine someRow with ⟨same, kept⟩ | ⟨_, _, reset⟩
  · have unchanged : after = capturer := congrArg Prod.fst same
    rw [unchanged]
    refine ⟨allocated, kept allocated, synced.cached _ (kept allocated), fun _ => Or.inr ⟨rfl, rfl⟩, ?_⟩
    intro bi ri row new
    rw [noted, kept allocated] at new
    exact absurd row new
  · have changed : after = (resetChangedRows cfg ccfg { capturer with cachedReqIds := some reqIds }
        (capturer.releaseVanished cfg engine reqIds) reqIds).1 := congrArg Prod.fst reset
    rw [changed]
    simp only [resetChangedRows]
    have frame := foldl_restartRow ccfg reqIds
    refine ⟨(frame _ _).1.trans allocated, trivial, Or.inl (foldl_restartRow_ids ..), fun ri => ?_, ?_⟩
    · exact (foldl_restartRow_step ccfg reqIds _ _ ri).1
    · intro bi ri row new
      obtain ⟨inBatch, value⟩ := List.getElem?_eq_some_iff.mp row
      refine (foldl_restartRow_step ccfg reqIds _ _ ri).2 ⟨bi, ?_, by rw [getD_eq_getElem?_getD, row]; rfl⟩
      rw [changedRows, mem_filter, mem_range, Nat.lt_min, row, decide_eq_true_eq]
      exact ⟨⟨inBatch, inBatch.trans_le bounded⟩, new⟩

section

variable (ccfg) (scoreResident : Bool) (capturer)

private theorem resetRow_restarts (row : (ℕ × ℕ) × ℕ) (ri : ℕ) :
    Restarts capturer (resetRow ccfg scoreResident capturer row) ri := by
  simp only [resetRow, blankRows]
  by_cases here : ri = row.1.1
  · left
    split_ifs <;> simp only [here, update_self]
  · right
    split_ifs <;> simp only [update_of_ne here, and_self]

private theorem resetRow_ids (row : (ℕ × ℕ) × ℕ) :
    let after := resetRow ccfg scoreResident capturer row
    after.cachedReqIds = capturer.cachedReqIds ∧ after.prevRowOccupant = capturer.prevRowOccupant ∧
      after.allocated = capturer.allocated := by
  simp only [resetRow, blankRows]
  split_ifs <;> exact ⟨rfl, rfl, rfl⟩

/-- `reset_req_residency` restarts counters and drops the cached list. -/
theorem resetReqResidency_cadence (reqs : List (ℕ × ℕ)) :
    let after := capturer.resetReqResidency ccfg scoreResident reqs
    after.cachedReqIds = none ∧ after.prevRowOccupant = capturer.prevRowOccupant ∧
      after.allocated = capturer.allocated ∧ ∀ ri, Restarts capturer after ri := by
  have rows : ∀ (rows : List ((ℕ × ℕ) × ℕ)) (start : Capturer),
      let after := rows.foldl (resetRow ccfg scoreResident) start
      after.cachedReqIds = start.cachedReqIds ∧ after.prevRowOccupant = start.prevRowOccupant ∧
        after.allocated = start.allocated ∧ ∀ ri, Restarts start after ri := by
    intro rows
    induction rows with
    | nil => exact fun start => ⟨rfl, rfl, rfl, fun _ => Or.inr ⟨rfl, rfl⟩⟩
    | cons row rest ih =>
      intro start
      obtain ⟨cached, noted, allocated⟩ := resetRow_ids ccfg start scoreResident row
      obtain ⟨cached', noted', allocated', restarts⟩ := ih (resetRow ccfg scoreResident start row)
      exact ⟨cached'.trans cached, noted'.trans noted, allocated'.trans allocated,
        fun ri => (resetRow_restarts ccfg start scoreResident row ri).trans (restarts ri)⟩
  exact rows reqs.zipIdx _

end

/-- The conditions under which the loop works with the indices of the batch. -/
theorem resolveIds_current (current : capturer.cachedReqIds = none ∨ capturer.cachedReqIds = some reqIds ∨
      (capturer.cachedReqIds.getD []).length ≠ reqIds.length ∨ (capturer.ofeGlobalStep + 1) % ccfg.interval = 0) :
    capturer.resolveIds ccfg reqIds = reqIds := by
  unfold resolveIds
  cases cached : capturer.cachedReqIds with
  | none => rfl
  | some ids =>
    simp only [cached, reduceCtorEq, false_or, Option.some.injEq, Option.getD_some] at current
    show (if _ then _ else _) = _
    split_ifs with refresh
    · rfl
    · exact current.resolve_right refresh

/-! ## The next due step -/

/-- The index is due within a number of steps, unless it is restarted before. -/
def DueWithin (ccfg : CapturerConfig) (capturer : Capturer) (ri steps : ℕ) : Prop :=
  ∃ wait < steps, capturer.reqStep ri + wait = 0 ∨ (capturer.reqStep ri + wait) % ccfg.interval =
    (if ccfg.staggerCycle then capturer.reqPhase ri else 0) % ccfg.interval

/-- Every residue comes up within an interval. -/
theorem dueWithin_interval (positive : 1 ≤ ccfg.interval) : DueWithin ccfg capturer ri ccfg.interval := by
  generalize phase : (if ccfg.staggerCycle then capturer.reqPhase ri else 0) = target
  refine ⟨(target + (ccfg.interval - capturer.reqStep ri % ccfg.interval)) % ccfg.interval,
    Nat.mod_lt _ positive, Or.inr ?_⟩
  have below := Nat.mod_lt (capturer.reqStep ri) positive
  have split := Nat.div_add_mod (capturer.reqStep ri) ccfg.interval
  have whole : capturer.reqStep ri + (target + (ccfg.interval - capturer.reqStep ri % ccfg.interval)) =
      target + ccfg.interval * (capturer.reqStep ri / ccfg.interval + 1) := by
    rw [Nat.mul_add, Nat.mul_one]
    omega
  rw [phase, Nat.add_mod_mod, whole, Nat.add_mul_mod_self_left]

variable {after : Capturer} {steps : ℕ} (within : DueWithin ccfg capturer ri steps)
include within

/-- A restart only makes the index due earlier. -/
theorem DueWithin.restarts (restarts : Restarts capturer after ri) : DueWithin ccfg after ri steps := by
  obtain ⟨wait, short, due⟩ := within
  rcases restarts with zero | ⟨step, phase⟩
  · exact ⟨0, Nat.zero_lt_of_lt short, Or.inl zero⟩
  · exact ⟨wait, short, by rwa [step, phase]⟩

/-- An index that is not due now is due one step earlier after the step. -/
theorem DueWithin.advance
    (notNow : capturer.isDue ccfg ri = false) (step : after.reqStep ri = capturer.reqStep ri + 1)
    (phase : after.reqPhase ri = capturer.reqPhase ri) : DueWithin ccfg after ri (steps - 1) := by
  obtain ⟨wait, short, due⟩ := within
  match wait with
  | 0 => exact absurd (isDue_iff.mpr due) (by simp [notNow])
  | wait + 1 =>
    refine ⟨wait, by omega, Or.inr ?_⟩
    rw [step, phase, show capturer.reqStep ri + 1 + wait = capturer.reqStep ri + (wait + 1) by omega]
    exact due.resolve_left (by omega)

end Capturer

/-! ## Runs of decode steps -/

namespace CadenceServer

variable {cfg : Config} {ccfg : CapturerConfig} {scoreResident : Bool} {state : CadenceServer}
  {batch : List Occupant} {allocates : Bool} {occ : Occupant} {bi : ℕ}

/-- The capturer sees changes of the batch by itself. -/
def Watched (scoreResident : Bool) (state : CadenceServer) : Prop :=
  scoreResident = true ∧ state.capturer.allocated = true

instance : Decidable (state.Watched scoreResident) :=
  inferInstanceAs (Decidable (_ ∧ _))

/-- The due loop will not work with a stale list. -/
def Refreshed (ccfg : CapturerConfig) (state : CadenceServer) (reqIds : List ℕ) : Prop :=
  state.capturer.cachedReqIds = none ∨ state.capturer.cachedReqIds = some reqIds ∨
    (state.capturer.cachedReqIds.getD []).length ≠ reqIds.length ∨
    (state.capturer.ofeGlobalStep + 1) % ccfg.interval = 0

instance (reqIds : List ℕ) : Decidable (state.Refreshed ccfg reqIds) :=
  inferInstanceAs (Decidable (_ ∨ _ ∨ _ ∨ _))

/-- A request that has not decoded yet is new in its row, or its counter has been restarted already. -/
def Restarted (scoreResident : Bool) (state : CadenceServer) (batch : List Occupant) : Prop :=
  ∀ row ∈ batch.zipIdx, row.1.id ∉ state.seen →
    state.Watched scoreResident ∧ state.capturer.noted[row.2]? ≠ some row.1.reqPoolIdx ∨
      state.capturer.reqStep row.1.reqPoolIdx = 0

instance : Decidable (state.Restarted scoreResident batch) :=
  inferInstanceAs (Decidable (∀ row ∈ _, _ → _))

/-- A batch has rows for different pool indices; the capturer sees it or has a list that is not stale, and
its new requests are restarted. -/
def Allowed (ccfg : CapturerConfig) (scoreResident : Bool) (state : CadenceServer) : CadenceEvent → Prop
  | .prefill _ => True
  | .decode batch _ => batch ≠ [] ∧ (batch.map Occupant.reqPoolIdx).Nodup ∧ batch.length ≤ ccfg.maxBs ∧
      (state.Watched scoreResident ∨ state.Refreshed ccfg (batch.map Occupant.reqPoolIdx)) ∧
      state.Restarted scoreResident batch

instance : ∀ event, Decidable (state.Allowed ccfg scoreResident event)
  | .prefill _ => isTrue trivial
  | .decode _ _ => inferInstanceAs (Decidable (_ ∧ _ ∧ _ ∧ _ ∧ _))

/-- A request is due in its first step, and a due row stands for the index that occupies it. -/
def OnTime (cfg : Config) (ccfg : CapturerConfig) (scoreResident : Bool) (state : CadenceServer) :
    CadenceEvent → Prop
  | .prefill _ => True
  | .decode batch _ =>
    (∀ row ∈ batch.zipIdx, row.1.id ∉ state.seen → row.2 ∈ state.due cfg ccfg scoreResident batch) ∧
      ∀ bi ∈ state.due cfg ccfg scoreResident batch,
        ∃ occ, batch[bi]? = some occ ∧ (state.resolved cfg ccfg scoreResident batch)[bi]? = some occ.reqPoolIdx

/-- Without buffers `on_forward_begin` does nothing. -/
private theorem begun_of_not_watched (unwatched : ¬ state.Watched scoreResident) :
    state.begun cfg ccfg scoreResident batch = state.capturer := by
  unfold begun
  split_ifs with resident
  · have off : state.capturer.allocated = false := by
      simpa [Watched, resident] using unwatched
    simp only [onForwardBegin, off, Bool.not_false, Bool.true_or, if_true]
  · rfl

theorem synced_init (prebuilt scoreResident : Bool) : (init prebuilt).capturer.Synced scoreResident :=
  ⟨fun noted => absurd rfl noted, fun _ noted => nomatch noted⟩

section

variable (cfg) (synced : state.capturer.Synced scoreResident)

include synced

section

variable (allowed : state.Allowed ccfg scoreResident (.decode batch allocates))
include allowed

/-- What the forward of an allowed batch starts with. -/
theorem begun_spec : let begun := state.begun cfg ccfg scoreResident batch
    let reqIds := batch.map Occupant.reqPoolIdx
    begun.resolveIds ccfg reqIds = reqIds ∧
      (begun.prevRowOccupant = none ∨ begun.prevRowOccupant = some reqIds ∧ scoreResident = true ∧
        begun.allocated = true) ∧
      (∀ ri, Restarts state.capturer begun ri) ∧
      ∀ row ∈ batch.zipIdx, row.1.id ∉ state.seen → begun.reqStep row.1.reqPoolIdx = 0 := by
  obtain ⟨someRow, distinct, bounded, current, restarted⟩ := allowed
  intro begun reqIds
  by_cases watched : state.Watched scoreResident
  · obtain ⟨rfl, allocated⟩ := watched
    have begins : begun = (state.capturer.onForwardBegin cfg ccfg (Engine.init ()) reqIds).1 := rfl
    have bounded' : reqIds.length ≤ ccfg.maxBs := by rwa [length_map]
    obtain ⟨allocated', noted, cached, restarts, new⟩ := onForwardBegin_cadence cfg (Engine.init ()) synced
      allocated (mt map_eq_nil_iff.mp someRow) bounded'
    rw [← begins] at allocated' noted cached restarts new
    refine ⟨resolveIds_current (cached.elim (fun same => Or.inr (Or.inl same)) Or.inl),
      Or.inr ⟨noted, rfl, allocated'⟩, restarts, ?_⟩
    intro row mem unseen
    rcases restarted row mem unseen with ⟨_, moved⟩ | zero
    · refine new row.2 _ ?_ moved
      rw [getElem?_map, mem_zipIdx_iff_getElem?.mp mem, Option.map_some]
    · rcases restarts row.1.reqPoolIdx with done | ⟨step, _⟩
      · exact done
      · exact step.trans zero
  · have same : begun = state.capturer := begun_of_not_watched watched
    rw [same]
    refine ⟨resolveIds_current (current.resolve_left watched),
      Or.inl (Classical.not_not.mp fun noted => watched (synced.buffered noted)), fun _ => Or.inr ⟨rfl, rfl⟩, ?_⟩
    intro row mem unseen
    exact (restarted row mem unseen).resolve_left fun both => watched both.1

/-- The capturer after an allowed decode step, and the rows that are due in it. -/
theorem decode_spec : let begun := state.begun cfg ccfg scoreResident batch
    let after := (state.step cfg ccfg scoreResident (.decode batch allocates)).capturer
    after.Synced scoreResident ∧ after.reqPhase = begun.reqPhase ∧
      (∀ occ ∈ batch, after.reqStep occ.reqPoolIdx = begun.reqStep occ.reqPoolIdx + 1) ∧
      ∀ bi, bi ∈ state.due cfg ccfg scoreResident batch ↔
        ∃ occ, batch[bi]? = some occ ∧ begun.isDue ccfg occ.reqPoolIdx = true := by
  obtain ⟨resolved, noted, -, -⟩ := begun_spec cfg synced allowed
  obtain ⟨counted, due⟩ := dueRows_distinct allowed.2.1 resolved
  simp only [step, CadenceServer.due, counted]
  refine ⟨⟨?_, ?_⟩, trivial, ?_, ?_⟩
  · intro some
    obtain ⟨-, resident, allocated⟩ := noted.resolve_left some
    exact ⟨resident, by simp [allocated]⟩
  · intro ids some
    rcases noted with none | ⟨same, -⟩
    · exact nomatch none.symm.trans some
    · exact Or.inl (same.symm.trans some)
  · intro occ mem
    rw [if_pos (mem_map_of_mem mem)]
  · intro bi
    rw [due]
    simp only [getElem?_map, Option.map_eq_some_iff]
    constructor
    · rintro ⟨_, ⟨occ, row, rfl⟩, isDue⟩
      exact ⟨occ, row, isDue⟩
    · rintro ⟨occ, row, isDue⟩
      exact ⟨_, ⟨occ, row, rfl⟩, isDue⟩

end

section

variable (event : CadenceEvent) (allowed : state.Allowed ccfg scoreResident event)
include allowed

theorem synced_step : (state.step cfg ccfg scoreResident event).capturer.Synced scoreResident := by
  cases event with
  | prefill reqs =>
    obtain ⟨cached, noted, allocated, -⟩ :=
      resetReqResidency_cadence ccfg state.capturer scoreResident reqs
    constructor
    · intro some
      rw [step, noted] at some
      rw [step, allocated]
      exact synced.buffered some
    · exact fun _ _ => Or.inr cached
  | decode batch allocates => exact (decode_spec cfg synced allowed).1

/-- An allowed step is on time. -/
theorem onTime_of_allowed : state.OnTime cfg ccfg scoreResident event := by
  cases event with
  | prefill reqs => trivial
  | decode batch allocates =>
    obtain ⟨resolved, -, -, new⟩ := begun_spec cfg synced allowed
    obtain ⟨-, -, -, due⟩ := decode_spec cfg synced allowed
    constructor
    · intro row mem unseen
      refine (due row.2).mpr ⟨row.1, mem_zipIdx_iff_getElem?.mp mem, ?_⟩
      exact isDue_iff.mpr (Or.inl (new row mem unseen))
    · intro bi isDue
      obtain ⟨occ, row, -⟩ := (due bi).mp isDue
      refine ⟨occ, row, ?_⟩
      rw [CadenceServer.resolved, resolved, getElem?_map, row, Option.map_some]

end

/-- A step in which a request takes part makes it due or brings its due step nearer. -/
private theorem decode_dueWithin {steps : ℕ} (allowed : state.Allowed ccfg scoreResident (.decode batch allocates))
    (mem : occ ∈ batch) (within : state.capturer.DueWithin ccfg occ.reqPoolIdx steps) :
    (∃ bi, batch[bi]? = some occ ∧ bi ∈ state.due cfg ccfg scoreResident batch) ∨
      (state.step cfg ccfg scoreResident (.decode batch allocates)).capturer.DueWithin ccfg occ.reqPoolIdx
        (steps - 1) := by
  obtain ⟨-, -, restarts, -⟩ := begun_spec cfg synced allowed
  obtain ⟨-, phase, counter, due⟩ := decode_spec cfg synced allowed
  cases now : (state.begun cfg ccfg scoreResident batch).isDue ccfg occ.reqPoolIdx with
  | true =>
    obtain ⟨bi, row⟩ := mem_iff_getElem?.mp mem
    exact Or.inl ⟨bi, row, (due bi).mpr ⟨occ, row, now⟩⟩
  | false =>
    exact Or.inr ((within.restarts (restarts _)).advance now (counter occ mem) (congrFun phase _))

end

end CadenceServer

/-- The decode steps among some events are steps of a request. -/
def CadenceEvent.Serves (occ : Occupant) : CadenceEvent → Prop
  | .prefill _ => True
  | .decode batch _ => occ ∈ batch

def CadenceEvent.isDecode : CadenceEvent → Bool
  | .prefill _ => false
  | .decode _ _ => true

namespace CadenceServer

variable {cfg : Config} {ccfg : CapturerConfig} {scoreResident : Bool} {state : CadenceServer} {occ : Occupant}

/-- The request is due at some decode step of the events. -/
def DueIn (cfg : Config) (ccfg : CapturerConfig) (scoreResident : Bool) (occ : Occupant) (start : CadenceServer)
    (window : List CadenceEvent) : Prop :=
  ∃ earlier batch allocates later, window = earlier ++ .decode batch allocates :: later ∧
    ∃ bi, batch[bi]? = some occ ∧
      bi ∈ (run (step cfg ccfg scoreResident) start earlier).due cfg ccfg scoreResident batch

theorem DueIn.cons {event : CadenceEvent} {window : List CadenceEvent}
    (later : DueIn cfg ccfg scoreResident occ (state.step cfg ccfg scoreResident event) window) :
    DueIn cfg ccfg scoreResident occ state (event :: window) := by
  obtain ⟨earlier, batch, allocates, rest, rfl, due⟩ := later
  exact ⟨event :: earlier, batch, allocates, rest, rfl, due⟩

private theorem dueIn_of_dueWithin {steps : ℕ} {window : List CadenceEvent}
    (synced : state.capturer.Synced scoreResident)
    (along : Along (step cfg ccfg scoreResident) (Allowed ccfg scoreResident) state window)
    (serves : ∀ event ∈ window, event.Serves occ) (long : steps ≤ window.countP CadenceEvent.isDecode)
    (within : state.capturer.DueWithin ccfg occ.reqPoolIdx steps) :
    DueIn cfg ccfg scoreResident occ state window := by
  induction window generalizing state steps with
  | nil =>
    obtain ⟨wait, short, -⟩ := within
    exact absurd (short.trans_le long) (Nat.not_lt_zero wait)
  | cons event rest ih =>
    have synced' := synced_step cfg synced event along.1
    have serves' : ∀ event ∈ rest, event.Serves occ := (forall_mem_cons.mp serves).2
    cases event with
    | prefill reqs =>
      obtain ⟨-, -, -, restarts⟩ := resetReqResidency_cadence ccfg state.capturer scoreResident reqs
      exact (ih synced' along.2 serves' (by simpa [CadenceEvent.isDecode] using long)
        (within.restarts (restarts _))).cons
    | decode batch allocates =>
      have mem : occ ∈ batch := serves _ (mem_cons_self ..)
      rcases decode_dueWithin cfg synced along.1 mem within with now | later
      · exact ⟨[], batch, allocates, rest, rfl, now⟩
      · refine (ih synced' along.2 serves' ?_ later).cons
        simp only [countP_cons, CadenceEvent.isDecode, if_true] at long
        omega

/-- Along every allowed run each request is due in its first step, every due row stands for its occupant,
and a request is due at least once in any interval of consecutive decode steps it takes part in. -/
theorem refresh_cadence (cfg : Config) (ccfg : CapturerConfig) (scoreResident prebuilt : Bool)
    (positive : 1 ≤ ccfg.interval) (events : List CadenceEvent)
    (along : Along (step cfg ccfg scoreResident) (Allowed ccfg scoreResident) (init prebuilt) events) :
    Along (step cfg ccfg scoreResident) (OnTime cfg ccfg scoreResident) (init prebuilt) events ∧
      ∀ before window after occ, events = before ++ (window ++ after) → (∀ event ∈ window, event.Serves occ) →
        window.countP CadenceEvent.isDecode = ccfg.interval →
        DueIn cfg ccfg scoreResident occ (run (step cfg ccfg scoreResident) (init prebuilt) before) window := by
  have steps : ∀ (state : CadenceServer) event, state.capturer.Synced scoreResident →
      state.Allowed ccfg scoreResident event →
      (state.step cfg ccfg scoreResident event).capturer.Synced scoreResident :=
    fun _ event synced => synced_step cfg synced event
  have base : (init prebuilt).capturer.Synced scoreResident := synced_init prebuilt scoreResident
  constructor
  · exact along.imp_of_invariant base steps fun _ event synced => onTime_of_allowed cfg synced event
  · rintro before window after occ rfl serves long
    obtain ⟨early, rest⟩ := along_append.mp along
    have synced :=
      @Along.invariant _ _ _ _ (fun state : CadenceServer => state.capturer.Synced scoreResident) _ _ early base steps
    exact dueIn_of_dueWithin synced (along_append.mp rest).1 serves long.ge (dueWithin_interval positive)

/-- A refresh every fourth step. -/
def slowCapturer : CapturerConfig := { ResidentServer.smallCapturer with interval := 4 }

/-- A request joins, the first one leaves so that rows are compacted, and the second one goes on. -/
def joinAndLeave : List CadenceEvent :=
  [.decode [⟨1, 0⟩] true, .decode [⟨1, 0⟩, ⟨2, 5⟩] false, .decode [⟨2, 5⟩] false, .decode [⟨2, 5⟩] false,
    .decode [⟨2, 5⟩] false]

theorem refresh_cadence_on_join :
    1 ≤ slowCapturer.interval ∧
      Along (step .smallPaged slowCapturer true) (Allowed slowCapturer true) (init true) joinAndLeave ∧
      DueIn .smallPaged slowCapturer true ⟨2, 5⟩
        (run (step .smallPaged slowCapturer true) (init true) [.decode [⟨1, 0⟩] true]) joinAndLeave.tail :=
  have allowed : Along (step .smallPaged slowCapturer true) (Allowed slowCapturer true) (init true)
      joinAndLeave := by decide
  ⟨by decide, allowed, (refresh_cadence .smallPaged slowCapturer true true (by decide) joinAndLeave allowed).2
    [.decode [⟨1, 0⟩] true] joinAndLeave.tail [] ⟨2, 5⟩ rfl
    (by simp [joinAndLeave, CadenceEvent.Serves]) (by decide)⟩

/-- A request is replaced at equal batch size. Without score-resident buffers the row is counted under the
index that is gone. With them this is noticed, but not when the new request takes the freed index. Either
way the new request is not due in its first step. -/
theorem replaced_request_not_due :
    (∀ prebuilt, let state := run (step .smallPaged slowCapturer false) (init prebuilt) [.decode [⟨1, 0⟩] false]
      state.resolved .smallPaged slowCapturer false [⟨2, 5⟩] = [0] ∧
        ¬ state.OnTime .smallPaged slowCapturer false (.decode [⟨2, 5⟩] false)) ∧
      let state := run (step .smallPaged slowCapturer true) (init true) [.decode [⟨1, 0⟩] false]
      ¬ state.OnTime .smallPaged slowCapturer true (.decode [⟨2, 0⟩] false) := by
  constructor
  · intro prebuilt state
    have idle : 2 ∉ state.seen ∧ 0 ∉ state.due .smallPaged slowCapturer false [⟨2, 5⟩] := by
      revert prebuilt
      decide
    exact ⟨rfl, fun onTime => idle.2 (onTime.1 (⟨2, 5⟩, 0) (by decide) idle.1)⟩
  · exact fun onTime => absurd (onTime.1 (⟨2, 0⟩, 0) (by decide) (by decide)) (by decide)

end CadenceServer

end FlashMemory
