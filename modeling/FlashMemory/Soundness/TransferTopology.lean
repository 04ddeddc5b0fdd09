import FlashMemory.Model.TransferTopology
import Mathlib.Data.Finset.Range

/-! # Completion of a room for every layout

The receiver counts pipeline ranks. So a room completes exactly if one tensor-parallel rank serves it in every pipeline
stage, in whatever order the notifications arrive.
-/

namespace FlashMemory

open List TransferStatus FlashMemory.Topology

variable {info : BootstrapInfo} {isLast : Bool}

namespace TransferStatus

/-- What a status knows after some notifications. -/
structure Collected (required : ℕ) (start : TransferStatus) (notifs : List Notif) (status : TransferStatus) : Prop where
  received : ∀ chunkId ppRank, chunkId ∈ status.receivedKvsPerPp ppRank ↔ ∃ isLast, .kv chunkId isLast ppRank ∈ notifs
  expected : ∀ ppRank count, status.expectedKvsPerPp.get? ppRank = some count →
    ∃ chunkId, count = chunkId + 1 ∧ .kv chunkId true ppRank ∈ notifs
  reported : ∀ chunkId ppRank, .kv chunkId true ppRank ∈ notifs →
    (∃ count, status.expectedKvsPerPp.get? ppRank = some count) ∧ status.numPpRanksExpected ≠ none
  ranks : ∀ ranks ∈ status.numPpRanksExpected, ranks = required
  aux : .aux ∈ notifs → status.receivedAux = true
  state : status.receivedState = true ↔ .state ∈ notifs
  c4 : status.receivedC4 = true ↔ ∃ chunkId isLast ppRank, .c4 chunkId isLast ppRank ∈ notifs
  expects : status.expectsState = start.expectsState ∧ status.expectsC4 = start.expectsC4

theorem collected_init (required : ℕ) (expectsState expectsC4 : Bool) :
    Collected required (.init expectsState expectsC4) [] (.init expectsState expectsC4) := by
  refine ⟨?_, ?_, ?_, ?_, ?_, ?_, ?_, rfl, rfl⟩
  all_goals simp [init]

variable {required : ℕ} {start status : TransferStatus} {notifs : List Notif}

private theorem mem_receivedKvsPerPp_update {chunkId ppRank other otherRank : ℕ} :
    other ∈ (status.update (some required) (.kv chunkId isLast ppRank)).receivedKvsPerPp otherRank ↔
      other = chunkId ∧ otherRank = ppRank ∨ other ∈ status.receivedKvsPerPp otherRank := by
  have received : (status.update (some required) (.kv chunkId isLast ppRank)).receivedKvsPerPp =
      Function.update status.receivedKvsPerPp ppRank (Insert.insert chunkId (status.receivedKvsPerPp ppRank)) := by
    rw [TransferStatus.update]
    dsimp only
    split_ifs <;> rfl
  rw [received]
  rcases eq_or_ne otherRank ppRank with rfl | different
  · rw [Function.update_self, Finset.mem_insert]
    simp
  · rw [Function.update_of_ne different]
    simp [different]

/-- One more notification. -/
theorem Collected.cons (collected : Collected required start notifs status) (notif : Notif) :
    Collected required start (notif :: notifs) (status.update (some required) notif) := by
  cases notif with
  | kv chunkId isLast ppRank =>
    have received : ∀ other otherRank,
        other ∈ (status.update (some required) (.kv chunkId isLast ppRank)).receivedKvsPerPp otherRank ↔
          ∃ last, .kv other last otherRank ∈ Notif.kv chunkId isLast ppRank :: notifs := by
      intro other otherRank
      rw [mem_receivedKvsPerPp_update, collected.received]
      simp only [mem_cons, Notif.kv.injEq]
      constructor
      · rintro (⟨rfl, rfl⟩ | ⟨last, mem⟩)
        · exact ⟨isLast, .inl ⟨rfl, rfl, rfl⟩⟩
        · exact ⟨last, .inr mem⟩
      · rintro ⟨last, ⟨rfl, rfl, rfl⟩ | mem⟩
        · exact .inl ⟨rfl, rfl⟩
        · exact .inr ⟨last, mem⟩
    cases isLast with
    | false =>
      exact ⟨received, by simpa [update] using collected.expected,
        by simpa [update] using collected.reported, collected.ranks,
        by simpa [update] using collected.aux, by simpa [update] using collected.state,
        by simpa [update] using collected.c4, collected.expects⟩
    | true =>
      refine ⟨received, fun otherRank count is => ?_, fun other otherRank mem => ⟨?_, Option.some_ne_none _⟩, ?_,
        by simpa [update] using collected.aux, by simpa [update] using collected.state,
        by simpa [update] using collected.c4, collected.expects⟩
      · change (status.expectedKvsPerPp.set ppRank (chunkId + 1)).get? otherRank = some count at is
        rw [OrderedDict.get?_set] at is
        split_ifs at is with same
        · subst same
          exact ⟨chunkId, (Option.some.inj is).symm, mem_cons_self⟩
        · obtain ⟨other, same, mem⟩ := collected.expected otherRank count is
          exact ⟨other, same, mem_cons_of_mem _ mem⟩
      · change ∃ count, (status.expectedKvsPerPp.set ppRank (chunkId + 1)).get? otherRank = some count
        rw [OrderedDict.get?_set]
        split_ifs with same
        · exact ⟨chunkId + 1, rfl⟩
        · rcases mem_cons.mp mem with new | old
          · exact absurd (Notif.kv.inj new).2.2 same
          · exact (collected.reported other otherRank old).1
      · intro ranks is
        obtain rfl := Option.some.inj is
        cases before : status.numPpRanksExpected with
        | none => rfl
        | some ranks => exact collected.ranks ranks before
  | c4 chunkId isLast ppRank =>
    exact ⟨by simpa [update] using collected.received,
      by simpa [update] using collected.expected, by simpa [update] using collected.reported,
      collected.ranks, by simpa [update] using collected.aux,
      by simpa [update] using collected.state,
      ⟨fun _ => ⟨chunkId, isLast, ppRank, mem_cons_self⟩, fun _ => rfl⟩, collected.expects⟩
  | aux =>
    exact ⟨by simpa [update] using collected.received,
      by simpa [update] using collected.expected, by simpa [update] using collected.reported,
      collected.ranks, fun _ => rfl, by simpa [update] using collected.state,
      by simpa [update] using collected.c4, collected.expects⟩
  | state =>
    exact ⟨by simpa [update] using collected.received,
      by simpa [update] using collected.expected, by simpa [update] using collected.reported,
      collected.ranks, by simpa [update] using collected.aux,
      ⟨fun _ => mem_cons_self, fun _ => rfl⟩,
      by simpa [update] using collected.c4, collected.expects⟩

/-- All notifications, in any order. -/
theorem Collected.foldl (collected : Collected required start notifs status) (more : List Notif) :
    Collected required start (more.reverse ++ notifs) (more.foldl (·.update (some required)) status) := by
  induction more generalizing status notifs with
  | nil => exact collected
  | cons notif more ih =>
    rw [reverse_cons, append_assoc]
    exact ih (collected.cons notif)

@[simp] theorem isFailure_update (required : Option ℕ) (status : TransferStatus) (notif : Notif) :
    (status.update required notif).isFailure = status.isFailure := by
  cases notif with
  | kv chunkId isLast ppRank => cases isLast <;> rfl
  | c4 chunkId isLast ppRank => rfl
  | aux => rfl
  | state => rfl

theorem isFailure_foldl (required : Option ℕ) (more : List Notif) (status : TransferStatus) :
    (more.foldl (·.update required) status).isFailure = status.isFailure := by
  induction more generalizing status with
  | nil => rfl
  | cons notif more ih => rw [foldl_cons, ih, isFailure_update]

/-- What a finished status shows. -/
theorem isDone_iff (ok : status.isFailure = false) : status.isDone = true ↔
    ∃ ranks, status.numPpRanksExpected = some ranks ∧ status.receivedAux = true ∧
      (status.expectsState = true → status.receivedState = true) ∧
      (status.expectsC4 = true → status.receivedC4 = true) ∧ ranks ≤ status.expectedKvsPerPp.keys.length ∧
      ∀ ppRank count, status.expectedKvsPerPp.get? ppRank = some count →
      (status.receivedKvsPerPp ppRank).card = count := by
  rw [isDone, if_neg (Bool.eq_false_iff.mp ok)]
  cases status.numPpRanksExpected with
  | none => simp
  | some ranks =>
    have counts : (status.expectedKvsPerPp.entries.all fun entry => (status.receivedKvsPerPp entry.1).card = entry.2) =
        true ↔ ∀ ppRank count, status.expectedKvsPerPp.get? ppRank = some count →
          (status.receivedKvsPerPp ppRank).card = count := by
      simp [OrderedDict.get?_eq_some_iff]
    dsimp only
    split_ifs with aux state c4 few
    all_goals simp_all

end TransferStatus

/-! ## The ranks that send -/

namespace Topology

variable {topology : Topology}

private theorem targetTpRank_mem (accepted : topology.Accepted) : topology.targetTpRank ∈ topology.targetTpRanks := by
  have filled : topology.targetTpRanks ≠ [] := by
    obtain ⟨_, positive, _, _, divides, _⟩ := accepted
    unfold targetTpRanks
    dsimp only
    split_ifs with same more
    · exact cons_ne_nil _ _
    · exact cons_ne_nil _ _
    · rw [Ne, range'_eq_nil_iff]
      have : topology.attnTpSize ≤ topology.prefillAttnTpSize := not_lt.mp more
      exact (Nat.div_pos this positive).ne'
  obtain ⟨first, rest, is⟩ := exists_cons_of_ne_nil filled
  rw [targetTpRank, is]
  exact mem_cons_self

/-- One rank of the tensor-parallel group serves the receiver. -/
def ServedByOne (topology : Topology) : Prop :=
  topology.isMlaBackend = true ∨ topology.prefillAttnTpSize ≤ topology.attnTpSize

private theorem targetTpRanks_eq (few : topology.prefillAttnTpSize ≤ topology.attnTpSize) :
    topology.targetTpRanks = [topology.targetTpRank] := by
  unfold targetTpRank targetTpRanks
  dsimp only
  split_ifs with same more
  · rfl
  · rfl
  · omega

theorem mem_bootstrapInfos (accepted : topology.Accepted) (single : topology.ServedByOne) :
    info ∈ topology.bootstrapInfos ∧ info.isDummy = false ↔
      ∃ ppRank ∈ topology.targetPpRanks, info = ⟨topology.targetTpRank, ppRank, false⟩ := by
  simp only [bootstrapInfos, mem_flatMap, mem_map, mem_reverse]
  constructor
  · rintro ⟨⟨tpRank, targeted, ppRank, staged, rfl⟩, real⟩
    refine ⟨ppRank, staged, ?_⟩
    have same : tpRank = topology.targetTpRank := by
      rcases single with mla | few
      · simpa [mla] using real
      · rw [targetTpRanks_eq few] at targeted
        exact mem_singleton.mp targeted
    subst same
    simp
  · rintro ⟨ppRank, staged, rfl⟩
    exact ⟨⟨topology.targetTpRank, targetTpRank_mem accepted, ppRank, staged, by simp⟩, rfl⟩

theorem length_targetPpRanks (accepted : topology.Accepted) :
    topology.targetPpRanks.length = topology.prefillPpSize / topology.ppSize := by
  obtain ⟨_, _, inside, _, _, stages⟩ := accepted
  rw [targetPpRanks]
  split_ifs with same
  · rw [same, Nat.div_self (Nat.zero_lt_of_lt inside), length_singleton]
  · rcases stages with equal | one
    · exact absurd equal.symm same
    · rw [one, Nat.div_one, length_range]

theorem requiredPrefillResponseNum_eq (single : topology.ServedByOne) :
    topology.requiredPrefillResponseNum = topology.prefillPpSize / topology.ppSize := by
  unfold requiredPrefillResponseNum
  split_ifs with same more mla
  · rw [Nat.one_mul]
  · rw [Nat.one_mul]
  · rfl
  · rcases single with isMla | few
    · exact absurd isMla mla
    · omega

theorem targetPpRanks_ne_nil (accepted : topology.Accepted) : topology.targetPpRanks ≠ [] := by
  unfold targetPpRanks
  split_ifs
  · exact cons_ne_nil _ _
  · rw [Ne, range_eq_nil]
    exact accepted.2.2.2.1.ne'

theorem ppRank_mem_targetPpRanks (mem : info ∈ topology.bootstrapInfos) :
    info.ppRank ∈ topology.targetPpRanks := by
  simp only [bootstrapInfos, mem_flatMap, mem_map, mem_reverse] at mem
  obtain ⟨_, _, ppRank, staged, rfl⟩ := mem
  exact staged

/-- If several ranks of a stage send, more responses are required than there are stages. -/
theorem servedByOne_of_le (accepted : topology.Accepted)
    (few : topology.requiredPrefillResponseNum ≤ topology.targetPpRanks.length) : topology.ServedByOne := by
  by_contra several
  have notMla : ¬topology.isMlaBackend = true := fun mla => several (.inl mla)
  have more : topology.attnTpSize < topology.prefillAttnTpSize := not_le.mp fun le => several (.inr le)
  have stages := length_pos_iff.mpr (targetPpRanks_ne_nil accepted)
  rw [length_targetPpRanks accepted] at few stages
  unfold requiredPrefillResponseNum at few
  rw [if_neg more.ne, if_neg more.le.not_gt, if_neg notMla] at few
  obtain ⟨_, positive, _, _, divides, _⟩ := accepted
  have twice : 2 ≤ topology.prefillAttnTpSize / topology.attnTpSize := by
    rcases divides with ⟨count, is⟩ | other
    · rw [is, Nat.mul_div_cancel_left _ positive]
      by_contra one
      have : count ≤ 1 := by omega
      have := Nat.mul_le_mul_left topology.attnTpSize this
      omega
    · exact absurd (Nat.le_of_dvd positive other) (by omega)
  have := Nat.mul_le_mul_right (topology.prefillPpSize / topology.ppSize) twice
  omega

theorem nodup_targetPpRanks : topology.targetPpRanks.Nodup := by
  unfold targetPpRanks
  split_ifs
  · exact nodup_singleton _
  · exact nodup_range

end Topology

namespace RoomTransfers

variable {topology : Topology} {transfers : RoomTransfers}

theorem real_of_mem_rankNotifs {notif : Notif} (sent : notif ∈ transfers.rankNotifs topology info) :
    info = ⟨info.tpRank, info.ppRank, false⟩ := by
  rcases info with ⟨tpRank, ppRank, _ | _⟩
  · rfl
  · exact absurd sent not_mem_nil

theorem mem_posted (accepted : topology.Accepted) (single : topology.ServedByOne) {notif : Notif} :
    notif ∈ transfers.posted topology ↔
      ∃ ppRank ∈ topology.targetPpRanks,
      notif ∈ transfers.rankNotifs topology ⟨topology.targetTpRank, ppRank, false⟩ := by
  rw [posted, mem_flatMap]
  constructor
  · rintro ⟨info, targeted, sent⟩
    have real := congrArg BootstrapInfo.isDummy (real_of_mem_rankNotifs sent)
    obtain ⟨ppRank, staged, rfl⟩ := (mem_bootstrapInfos accepted single).mp ⟨targeted, real⟩
    exact ⟨ppRank, staged, sent⟩
  · rintro ⟨ppRank, staged, sent⟩
    exact ⟨_, ((mem_bootstrapInfos accepted single).mpr ⟨ppRank, staged, rfl⟩).1, sent⟩

variable {tpRank ppRank : ℕ}

theorem kv_mem_rankNotifs {chunkId other : ℕ} :
    .kv chunkId isLast other ∈ transfers.rankNotifs topology ⟨tpRank, ppRank, false⟩ ↔
      other = ppRank ∧ chunkId < transfers.chunks tpRank ppRank ∧
        isLast = decide (chunkId + 1 = transfers.chunks tpRank ppRank) := by
  simp only [rankNotifs, Bool.false_eq_true, if_false, mem_flatMap, mem_range, mem_append, mem_cons]
  constructor
  · rintro ⟨sent, within, (head | c4) | last⟩
    · obtain ⟨rfl, rfl, rfl⟩ := Notif.kv.inj head
      exact ⟨rfl, within, rfl⟩
    · split_ifs at c4 <;> simp at c4
    · split_ifs at last <;> simp at last
  · rintro ⟨rfl, within, rfl⟩
    exact ⟨chunkId, within, .inl (.inl rfl)⟩

private theorem postsC4_of_mem_rankNotifs {chunkId other : ℕ}
    (sent : .c4 chunkId isLast other ∈ transfers.rankNotifs topology info) : transfers.PostsC4 topology := by
  rw [real_of_mem_rankNotifs sent] at sent
  simp only [rankNotifs, Bool.false_eq_true, if_false, mem_flatMap, mem_append, mem_cons] at sent
  obtain ⟨_, _, (head | c4) | last⟩ := sent
  · simp at head
  · split_ifs at c4 with posts
    · exact posts
    · simp at c4
  · split_ifs at last <;> simp at last

/-- What a rank sends with its last chunk. -/
private theorem last_mem_rankNotifs (some : 0 < transfers.chunks tpRank ppRank) :
    .aux ∈ transfers.rankNotifs topology ⟨tpRank, ppRank, false⟩ ∧
      (transfers.hasState = true → .state ∈ transfers.rankNotifs topology ⟨tpRank, ppRank, false⟩) ∧
      (transfers.PostsC4 topology →
        .c4 (transfers.chunks tpRank ppRank - 1) true ppRank ∈ transfers.rankNotifs topology
          ⟨tpRank, ppRank, false⟩) := by
  have last : transfers.chunks tpRank ppRank - 1 + 1 = transfers.chunks tpRank ppRank := Nat.sub_add_cancel some
  have within : transfers.chunks tpRank ppRank - 1 < transfers.chunks tpRank ppRank := by omega
  simp only [rankNotifs, Bool.false_eq_true, if_false, mem_flatMap, mem_range, mem_append, mem_cons]
  refine ⟨⟨_, within, .inr ?_⟩, fun state => ⟨_, within, .inr ?_⟩, fun c4 => ⟨_, within, .inl (.inr ?_)⟩⟩
  · simp [last]
  · simp [last, state]
  · simp [last, c4]

section Complete

variable {status start : TransferStatus} {notifs : List Notif} {required : ℕ}

variable (accepted : topology.Accepted) (single : topology.ServedByOne)
include accepted single

/-- The chunks of a stage that have arrived when everything has. -/
private theorem received_eq
    (collected : Collected required start notifs status)
    (all : ∀ notif, notif ∈ notifs ↔ notif ∈ transfers.posted topology) (staged : ppRank ∈ topology.targetPpRanks) :
    status.receivedKvsPerPp ppRank = Finset.range (transfers.chunks topology.targetTpRank ppRank) := by
  ext chunkId
  rw [collected.received, Finset.mem_range]
  simp only [all, mem_posted accepted single, kv_mem_rankNotifs]
  constructor
  · rintro ⟨_, _, _, rfl, within, _⟩
    exact within
  · intro within
    exact ⟨_, ppRank, staged, rfl, within, rfl⟩

/-- Every stage has reported its number of chunks. -/
private theorem expected_iff (some : ∀ tpRank ppRank, 0 < transfers.chunks tpRank ppRank)
    (collected : Collected required start notifs status)
    (all : ∀ notif, notif ∈ notifs ↔ notif ∈ transfers.posted topology) (count : ℕ) :
    status.expectedKvsPerPp.get? ppRank = Option.some count ↔
      ppRank ∈ topology.targetPpRanks ∧ count = transfers.chunks topology.targetTpRank ppRank := by
  have known : ∀ {count}, status.expectedKvsPerPp.get? ppRank = Option.some count →
      ppRank ∈ topology.targetPpRanks ∧ count = transfers.chunks topology.targetTpRank ppRank := by
    intro count is
    obtain ⟨chunkId, rfl, mem⟩ := collected.expected ppRank count is
    obtain ⟨other, staged, sent⟩ := (mem_posted accepted single).mp ((all _).mp mem)
    obtain ⟨rfl, _, last⟩ := kv_mem_rankNotifs.mp sent
    exact ⟨staged, of_decide_eq_true last.symm⟩
  constructor
  · exact known
  · rintro ⟨staged, rfl⟩
    have positive := some topology.targetTpRank ppRank
    have sent : .kv (transfers.chunks topology.targetTpRank ppRank - 1) true ppRank ∈ notifs := by
      rw [all, mem_posted accepted single]
      refine ⟨ppRank, staged, kv_mem_rankNotifs.mpr ⟨rfl, by omega, ?_⟩⟩
      rw [Nat.sub_add_cancel positive, decide_eq_true rfl]
    obtain ⟨⟨count, is⟩, _⟩ := collected.reported _ _ sent
    rw [is, (known is).2]

end Complete

/-- A room is done when all its transfers have been notified, exactly if one rank of every stage serves it, with the
mirror if there is one. -/
theorem transfer_completes (topology : Topology) (transfers : RoomTransfers) (accepted : topology.Accepted)
    (some : ∀ tpRank ppRank, 0 < transfers.chunks tpRank ppRank)
    (notifs : List Notif) (all : notifs.Perm (transfers.posted topology)) :
    (transfers.status topology notifs).isDone = true ↔
      topology.ServedByOne ∧ (0 < transfers.c4DramLayerNum → transfers.PostsC4 topology) := by
  have collected := (collected_init topology.requiredPrefillResponseNum transfers.hasState
    (decide (0 < transfers.c4DramLayerNum))).foldl notifs
  rw [append_nil] at collected
  have members : ∀ notif, notif ∈ notifs.reverse ↔ notif ∈ transfers.posted topology := by
    intro notif
    rw [mem_reverse, all.mem_iff]
  obtain ⟨expectsState, expectsC4⟩ := collected.expects
  rw [isDone_iff (isFailure_foldl ..)]
  constructor
  · rintro ⟨ranks, known, _, _, c4, enough, _⟩
    obtain rfl := collected.ranks ranks known
    constructor
    · apply servedByOne_of_le accepted (enough.trans (subperm_of_subset (OrderedDict.keys_nodup _) _).length_le)
      intro ppRank key
      obtain ⟨count, is⟩ := (OrderedDict.mem_keys_iff _ _).mp key
      obtain ⟨chunkId, _, mem⟩ := collected.expected _ _ is
      obtain ⟨info, targeted, sent⟩ := mem_flatMap.mp ((members _).mp mem)
      rw [real_of_mem_rankNotifs sent] at sent
      obtain ⟨rfl, _⟩ := kv_mem_rankNotifs.mp sent
      exact ppRank_mem_targetPpRanks targeted
    · intro layers
      obtain ⟨_, _, _, mem⟩ := collected.c4.mp (c4 (expectsC4.trans (decide_eq_true layers)))
      obtain ⟨info, _, sent⟩ := mem_flatMap.mp ((members _).mp mem)
      exact postsC4_of_mem_rankNotifs sent
  · rintro ⟨single, mirror⟩
    obtain ⟨stage, staged⟩ := exists_mem_of_ne_nil _ (targetPpRanks_ne_nil accepted)
    have sent : ∀ {notif}, notif ∈ transfers.rankNotifs topology ⟨topology.targetTpRank, stage, false⟩ →
        notif ∈ notifs.reverse :=
      fun member => (members _).mpr ((mem_posted accepted single).mpr ⟨stage, staged, member⟩)
    obtain ⟨aux, state, c4⟩ := @last_mem_rankNotifs topology transfers _ _ (some topology.targetTpRank stage)
    have reports : ∀ ppRank ∈ topology.targetPpRanks,
        ppRank ∈ (transfers.status topology notifs).expectedKvsPerPp.keys :=
      fun ppRank member =>
        OrderedDict.mem_keys_of_get? ((expected_iff accepted single some collected members _).mpr ⟨member, rfl⟩)
    have last := (expected_iff accepted single some collected members _).mpr ⟨staged, rfl⟩
    obtain ⟨chunkId, _, member⟩ := collected.expected _ _ last
    obtain ⟨ranks, known⟩ := Option.ne_none_iff_exists'.mp (collected.reported _ _ member).2
    obtain rfl := collected.ranks ranks known
    refine ⟨_, known, collected.aux (sent aux), ?_, ?_, ?_, ?_⟩
    · intro expects
      exact collected.state.mpr (sent (state (expectsState.symm.trans expects)))
    · intro expects
      have layers : 0 < transfers.c4DramLayerNum := of_decide_eq_true (expectsC4.symm.trans expects)
      exact collected.c4.mpr ⟨_, _, _, sent (c4 (mirror layers))⟩
    · rw [requiredPrefillResponseNum_eq single, ← length_targetPpRanks accepted]
      exact (subperm_of_subset nodup_targetPpRanks reports).length_le
    · intro ppRank count is
      obtain ⟨member, rfl⟩ := (expected_iff accepted single some collected members count).mp is
      exact (congrArg Finset.card (received_eq accepted single collected members member)).trans (Finset.card_range _)

/-- In each of two stages the decode rank targets two of four prefill ranks, one of them as a dummy. -/
theorem transfer_completes_with_dummies :
    (⟨4, 2, 2, 1, 1, 0, true⟩ : Topology).Accepted ∧
      ((⟨fun _ _ => 2, 1, true⟩ : RoomTransfers).status ⟨4, 2, 2, 1, 1, 0, true⟩
        ((⟨fun _ _ => 2, 1, true⟩ : RoomTransfers).posted ⟨4, 2, 2, 1, 1, 0, true⟩).reverse).isDone = true :=
  have accepted : (⟨4, 2, 2, 1, 1, 0, true⟩ : Topology).Accepted := by decide
  ⟨accepted, transfer_completes ⟨4, 2, 2, 1, 1, 0, true⟩ ⟨fun _ _ => 2, 1, true⟩ accepted (fun _ _ => Nat.two_pos) _
    (reverse_perm _) |>.mpr ⟨.inl rfl, fun _ => by decide⟩⟩

/-- Two prefill ranks serve one decode rank without latent attention: two responses are required and both are from stage
0. And a sliced transfer never reaches the mirror. -/
theorem transfer_never_completes :
    (⟨2, 1, 1, 1, 0, 0, false⟩ : Topology).Accepted ∧
      ((⟨fun _ _ => 1, 0, false⟩ : RoomTransfers).status ⟨2, 1, 1, 1, 0, 0, false⟩
        ((⟨fun _ _ => 1, 0, false⟩ : RoomTransfers).posted ⟨2, 1, 1, 1, 0, 0, false⟩)).isDone = false ∧
      (⟨1, 2, 1, 1, 0, 0, false⟩ : Topology).Accepted ∧
      ((⟨fun _ _ => 1, 1, false⟩ : RoomTransfers).status ⟨1, 2, 1, 1, 0, 0, false⟩
        ((⟨fun _ _ => 1, 1, false⟩ : RoomTransfers).posted ⟨1, 2, 1, 1, 0, 0, false⟩)).isDone = false := by
  decide

end RoomTransfers

end FlashMemory
