import FlashMemory.Soundness.ChunkRows

/-! # Slots in front of a window

As long as every request ends at the end of a page, a page that is handed out again has no mapping left over from its
last request, and a release returns no window page but its own.
-/

namespace FlashMemory

open List Function KvServer

theorem ChunkConfig.pageSize_pos (cfg : ChunkConfig) : 0 < cfg.pageSize := Nat.zero_lt_of_lt cfg.pageSize_gt

namespace ChunkServer

variable {cfg : ChunkConfig} {server : ChunkServer}

theorem mem_span {row : List ℕ} {start stop slot : ℕ} :
    slot ∈ (row.take stop).drop start ↔ ∃ position, start ≤ position ∧ position < stop ∧
    row[position]? = some slot := by
  rw [mem_iff_getElem?]
  constructor
  · rintro ⟨index, is⟩
    rw [getElem?_drop, getElem?_take] at is
    split_ifs at is with inside
    exact ⟨start + index, Nat.le_add_right .., inside, is⟩
  · rintro ⟨position, after, before, is⟩
    refine ⟨position - start, ?_⟩
    rwa [getElem?_drop, Nat.add_sub_cancel' after, getElem?_take_of_lt before]

/-- A slot has one place. -/
theorem RowPages.place_unique {pageSize : ℕ} {reqs : ℕ → Option ChunkReq} {free : List ℕ}
    (rows : RowPages pageSize reqs free) {req position slot other position' : ℕ} (holds : Holds reqs req position slot)
    (holds' : Holds reqs other position' slot) : req = other ∧ position = position' := by
  obtain ⟨same, samePage⟩ := (rows.pages holds holds').mp rfl
  refine ⟨same, ?_⟩
  rw [← Nat.div_add_mod position pageSize, ← Nat.div_add_mod position' pageSize, samePage, ← rows.offset holds,
    ← rows.offset holds']

theorem holds_update_of_row {reqs : ℕ → Option ChunkReq} {req : ℕ} {entry entry' : ChunkReq}
    (is : reqs req = some entry) (same : entry'.row = entry.row) {other position slot : ℕ} :
    Holds (Function.update reqs req (some entry')) other position slot ↔ Holds reqs other position slot := by
  rw [holds_update]
  rcases eq_or_ne other req with rfl | different
  · simp [Holds, is, same]
  · simp [different]

/-- The rows hold all slots that are handed out, and the slots of the window are mapped. -/
structure Kept (cfg : ChunkConfig) (server : ChunkServer) : Prop where
  paged : KvServer.Paged cfg.pageSize server.kv
  rows : RowPages cfg.pageSize server.reqs server.kv.allocator.full.pages
  allocated : ∀ slot, slot ∈ server.kv.allocated ↔ ∃ req position, Holds server.reqs req position slot
  mapped : ∀ {req entry position slot}, server.reqs req = some entry → entry.row[position]? = some slot →
    entry.swaEvictedSeqlen ≤ position → server.kv.allocator.fullToSwa slot ≠ 0
  window : ∀ {req entry}, server.reqs req = some entry →
    cfg.pageSize ∣ entry.swaEvictedSeqlen ∧ entry.swaEvictedSeqlen < entry.row.length ∧
      entry.kvCommittedLen ≤ entry.row.length

theorem kept_init (size sizeSwa : ℕ) (needSort : Bool) : Kept cfg (init cfg size sizeSwa needSort) := by
  refine ⟨KvServer.paged_init size sizeSwa needSort, ⟨?_, ?_, ?_⟩, ?_, ?_, ?_⟩
  all_goals simp [init, KvServer.init, Holds]

namespace Kept

variable (kept : Kept cfg server)

include kept

section

variable {req : ℕ} {entry : ChunkReq} (is : server.reqs req = some entry)
include is

/-- A span of a row between the ends of pages consists of whole pages. -/
theorem whole {start stop : ℕ}
    (first : cfg.pageSize ∣ start) (last : cfg.pageSize ∣ stop ∨ entry.row.length ≤ stop) {others : List ℕ}
    (among : others ⊆ server.kv.allocated) :
    WholePages cfg.pageSize ((entry.row.take stop).drop start) others := by
  intro slot mem page
  obtain ⟨shared, inSpan, same⟩ := mem_map.mp page
  obtain ⟨position, after, before, at'⟩ := mem_span.mp inSpan
  obtain ⟨other, position', holds⟩ := (kept.allocated slot).mp (among mem)
  obtain ⟨rfl, samePage⟩ := (kept.rows.pages ⟨entry, is, at'⟩ holds).mp same
  obtain ⟨entry', is', at''⟩ := holds
  obtain rfl := Option.some.inj (is.symm.trans is')
  refine mem_span.mpr ⟨position', ?_, ?_, at''⟩
  · obtain ⟨count, rfl⟩ := first
    rw [Nat.mul_comm] at after ⊢
    rwa [← Nat.le_div_iff_mul_le cfg.pageSize_pos, ← samePage, Nat.le_div_iff_mul_le cfg.pageSize_pos]
  · rcases last with ⟨count, rfl⟩ | beyond
    · rw [Nat.mul_comm] at before ⊢
      rwa [← Nat.div_lt_iff_lt_mul cfg.pageSize_pos, ← samePage, Nat.div_lt_iff_lt_mul cfg.pageSize_pos]
    · exact (List.getElem?_eq_some_iff.mp at'').1.trans_le beyond

/-- The last slot of a row is mapped and ends the sequence. -/
theorem continues : server.kv.Continues cfg.pageSize entry.row.length (entry.row.getLastD 0) := by
  have filled : entry.row ≠ [] := by
    intro empty
    have := (kept.window is).2.1
    rw [empty, length_nil] at this
    omega
  obtain ⟨position, length, last⟩ := getLastD_row filled
  have inside := (kept.window is).2.1
  refine ⟨.inr ⟨Int.natCast_nonneg _, kept.mapped is last (by omega)⟩, ?_⟩
  rw [length]
  exact_mod_cast Nat.ModEq.add_right 1 (kept.rows.offset ⟨entry, is, last⟩)

end

/-- A request changes and keeps its row. -/
theorem update {req : ℕ} {entry entry' : ChunkReq} {kv' : KvServer} (is : server.reqs req = some entry)
    (sameRow : entry'.row = entry.row) (paged : Paged cfg.pageSize kv')
    (full : kv'.allocator.full = server.kv.allocator.full) (allocated : kv'.allocated = server.kv.allocated)
    (more : entry.swaEvictedSeqlen ≤ entry'.swaEvictedSeqlen)
    (mapped : ∀ {other position slot}, Holds server.reqs other position slot →
      (other = req → entry'.swaEvictedSeqlen ≤ position) → server.kv.allocator.fullToSwa slot ≠ 0 →
      kv'.allocator.fullToSwa slot ≠ 0)
    (window : cfg.pageSize ∣ entry'.swaEvictedSeqlen ∧ entry'.swaEvictedSeqlen < entry.row.length ∧
      entry'.kvCommittedLen ≤ entry.row.length) :
    Kept cfg ⟨kv', Function.update server.reqs req (some entry')⟩ := by
  have holds {other position slot : ℕ} :=
    @holds_update_of_row server.reqs req entry entry' is sameRow other position slot
  refine ⟨paged, kept.rows.of_holds holds.mp fun held => ?_, ?_, ?_, ?_⟩
  · change _ ∉ kv'.allocator.full.pages
    rw [full]
    exact kept.rows.apart (holds.mp held)
  · intro slot
    change slot ∈ kv'.allocated ↔ _
    simp only [allocated, kept.allocated, holds]
  · intro other entry'' position slot isOther at' after
    dsimp only at isOther
    by_cases same : other = req
    · subst same
      rw [update_self] at isOther
      obtain rfl := Option.some.inj isOther
      rw [sameRow] at at'
      exact mapped ⟨entry, is, at'⟩ (fun _ => after) (kept.mapped is at' (more.trans after))
    · rw [update_of_ne same] at isOther
      exact mapped ⟨entry'', isOther, at'⟩ (fun equal => absurd equal same) (kept.mapped isOther at' after)
  · intro other entry'' isOther
    dsimp only at isOther
    by_cases same : other = req
    · subst same
      rw [update_self] at isOther
      obtain rfl := Option.some.inj isOther
      rwa [sameRow]
    · rw [update_of_ne same] at isOther
      exact kept.window isOther

theorem commit {req kvCommittedLen : ℕ} (within : ∀ entry ∈ server.reqs req, kvCommittedLen ≤ entry.row.length) :
    Kept cfg (server.step cfg (.commit req kvCommittedLen)) := by
  cases is : server.reqs req with
  | none =>
    have same : server.step cfg (.commit req kvCommittedLen) = server := by
      rw [step, is, Option.map_none, ← is, update_eq_self]
    rwa [same]
  | some entry =>
    rw [step, is, Option.map_some]
    obtain ⟨aligned, inside, _⟩ := kept.window is
    exact kept.update is rfl kept.paged rfl rfl le_rfl (fun _ _ mapped => mapped) ⟨aligned, inside, within entry is⟩

theorem evictSwa {req preLen : ℕ} (within : ∀ entry ∈ server.reqs req, preLen ≤ entry.row.length) :
    Kept cfg (server.step cfg (.evictSwa req preLen)) := by
  cases is : server.reqs req with
  | none =>
    rw [step, is]
    exact kept
  | some entry =>
    rw [step, is]
    dsimp only
    split_ifs with grows
    · have lenWithin := within entry is
      obtain ⟨aligned, inside, committed⟩ := kept.window is
      have newAligned : cfg.pageSize ∣ newSwaEvictedSeqlen cfg entry preLen := Nat.dvd_mul_left ..
      have newInside : newSwaEvictedSeqlen cfg entry preLen < entry.row.length := by
        have positive := cfg.slidingWindowSize_pos
        refine (Nat.div_mul_le_self ..).trans_lt (max_lt inside ?_)
        split_ifs <;> omega
      refine kept.update is rfl (paged_step cfg.pageSize_gt kept.paged _ ?_) rfl rfl grows.le ?_
        ⟨newAligned, newInside, committed⟩
      · exact kept.whole is aligned (.inl newAligned) filter_sublist.subset
      · intro other position slot holds beyond mapped
        change (if slot ∈ _ then 0 else _) ≠ 0
        rw [if_neg]
        · exact mapped
        · intro freed
          obtain ⟨position', _, before, at'⟩ := mem_span.mp freed
          obtain ⟨rfl, rfl⟩ := kept.rows.place_unique holds ⟨entry, is, at'⟩
          exact absurd (beyond rfl) (by dsimp only; omega)
    · exact kept

/-- The slots of a request that is preallocated fill new pages, and those in front of the window are not mapped. -/
theorem preAlloc {req fillLen winStart : ℕ} (vacant : server.reqs req = none) (aligned : cfg.pageSize ∣ winStart)
    {slots : List ℕ} {allocator : KvAllocator}
    (is : KvAllocator.allocExtendWindowedSwa cfg.pageSize fillLen winStart server.kv.allocator =
      .ok (some slots) allocator) :
    Kept cfg ⟨server.kv.handOut (.ok (some slots) allocator),
        Function.update server.reqs req (some ⟨slots, fillLen, winStart⟩)⟩ ∧
      ∀ slot ∈ slots.take winStart, allocator.fullToSwa slot = 0 := by
  have ensured : Ensures (KvAllocator.allocExtendWindowedSwa cfg.pageSize fillLen winStart) server.kv.allocator _ _ :=
    ensures_allocExtendWindowedSwa cfg.pageSize_pos kept.paged aligned
  rw [Ensures, is] at ensured
  obtain ⟨fullFree, pairs, rfl, inside, enough, pairsIs, allocates⟩ := ensured slots rfl
  have length : (freshSlots cfg.pageSize fillLen fullFree).length = fillLen := by
    rw [freshSlots, length_map, length_range]
  have rows : RowPages cfg.pageSize
      (Function.update server.reqs req (some ⟨freshSlots cfg.pageSize fillLen fullFree, fillLen, winStart⟩))
      allocator.full.pages :=
    kept.rows.fresh cfg.pageSize_pos vacant enough (allocates.took.perm.nodup_iff.mp kept.paged.full.1)
      fun number => allocates.took.perm.mem_iff
  constructor
  · refine ⟨allocates.paged kept.paged, rows, ?_, ?_, ?_⟩
    · intro slot
      change slot ∈ _ ++ server.kv.allocated ↔ _
      rw [mem_append, kept.allocated]
      constructor
      · rintro (new | ⟨other, position, old⟩)
        · obtain ⟨position, at'⟩ := mem_iff_getElem?.mp new
          exact ⟨req, position, holds_update.mpr (.inr ⟨rfl, at'⟩)⟩
        · have different : other ≠ req := by
            rintro rfl
            obtain ⟨entry, some, _⟩ := old
            exact Option.some_ne_none entry (some.symm.trans vacant)
          exact ⟨other, position, holds_update.mpr (.inl ⟨different, old⟩)⟩
      · rintro ⟨other, position, holds⟩
        rcases holds_update.mp holds with ⟨_, old⟩ | ⟨_, at'⟩
        · exact .inr ⟨other, position, old⟩
        · exact .inl (mem_of_getElem? at')
    · intro other entry position slot isOther at' after
      apply allocates.mapped kept.paged
      dsimp only at isOther
      rcases eq_or_ne other req with rfl | different
      · rw [update_self] at isOther
        obtain rfl := Option.some.inj isOther
        rw [pairsIs]
        refine .inl (mem_iff_getElem?.mpr ⟨position - winStart, ?_⟩)
        rw [getElem?_drop, Nat.add_sub_cancel' after]
        exact at'
      · rw [update_of_ne different] at isOther
        exact .inr (kept.mapped isOther at' after)
    · intro other entry isOther
      dsimp only at isOther
      rcases eq_or_ne other req with rfl | different
      · rw [update_self] at isOther
        obtain rfl := Option.some.inj isOther
        exact ⟨aligned, inside.trans_eq length.symm, length.ge⟩
      · rw [update_of_ne different] at isOther
        exact kept.window isOther
  · intro slot mem
    obtain ⟨position, _, before, at'⟩ := (@mem_span _ 0 winStart slot).mp mem
    -- the entry of a slot in front of the window is not written
    have unwritten : slot ∉ pairs.map Prod.fst := by
      rw [pairsIs]
      intro tail
      obtain ⟨index, later⟩ := mem_iff_getElem?.mp tail
      rw [getElem?_drop] at later
      have same := rows.place_unique (holds_update.mpr (.inr ⟨rfl, at'⟩)) (holds_update.mpr (.inr ⟨rfl, later⟩))
      omega
    -- and its page was free, so that nothing was mapped
    have free : slot / cfg.pageSize ∈ server.kv.allocator.full.pages := by
      rw [allocates.took.perm.mem_iff]
      exact mem_append_left _
        ((mem_pages_freshSlots cfg.pageSize_pos enough).mp (mem_map_of_mem (mem_of_mem_take mem)))
    obtain ⟨_, _, _, mapping⟩ := allocates
    rw [mapping, scatter_of_not_mem unwritten]
    by_contra mapped
    exact (kept.paged.page_of_mapped mapped).1 free

theorem decode {batch : List ℕ} (distinct : batch.Nodup) (live : ∀ req ∈ batch, server.reqs req ≠ none) {slots : List ℕ}
    {allocator : KvAllocator}
    (is : KvAllocator.allocDecode cfg.pageSize ((batch.filterMap server.reqs).map decodeSeq) server.kv.allocator =
      .ok (some slots) allocator) :
    Kept cfg ⟨server.kv.handOut (.ok (some slots) allocator), writeRows batch slots server.reqs⟩ := by
  have valid : ∀ seq ∈ (batch.filterMap server.reqs).map decodeSeq,
      0 < seq.seqLen ∧ server.kv.Continues cfg.pageSize (seq.seqLen - 1) seq.lastLoc := by
    intro seq mem
    obtain ⟨entry, running, rfl⟩ := mem_map.mp mem
    obtain ⟨req, _, isEntry⟩ := mem_filterMap.mp running
    exact ⟨Nat.succ_pos _, kept.continues isEntry⟩
  have ensured := ensures_allocDecode cfg.pageSize_gt kept.paged valid
  rw [Ensures, is] at ensured
  obtain ⟨fullFree, pairs, slotsIs, enough, pairsIs, allocates⟩ := ensured slots rfl
  have length : slots.length = batch.length := by
    rw [slotsIs, length_allocDecodeKernel, length_map, filterMap_length_eq_length]
    exact fun req mem => Option.isSome_iff_ne_none.mpr (live req mem)
  have holds {req position slot : ℕ} := @holds_writeRows server.reqs batch slots distinct live length req position slot
  refine ⟨allocates.paged kept.paged, ?_, ?_, ?_, ?_⟩
  · change RowPages _ _ allocator.full.pages
    rw [slotsIs]
    have perm := allocates.took.perm
    apply RowPages.decode cfg.pageSize_gt distinct _ enough (perm.nodup_iff.mp kept.paged.full.1)
    · exact kept.rows.of_holds id fun old free => kept.rows.apart old (perm.mem_iff.mpr free)
    · intro req mem
      obtain ⟨entry, isEntry⟩ := Option.ne_none_iff_exists'.mp (live req mem)
      exact ⟨entry, isEntry, ne_nil_of_length_pos (Nat.zero_lt_of_lt (kept.window isEntry).2.1)⟩
  · intro slot
    change slot ∈ slots ++ server.kv.allocated ↔ _
    rw [mem_append, kept.allocated]
    constructor
    · rintro (new | ⟨req, position, old⟩)
      · rw [← map_snd_zip length.le] at new
        obtain ⟨⟨req, _⟩, mem, rfl⟩ := mem_map.mp new
        obtain ⟨entry, isEntry⟩ := Option.ne_none_iff_exists'.mp (live req (of_mem_zip mem).1)
        exact ⟨req, entry.row.length, holds.mpr (.inr ⟨entry, isEntry, rfl, mem⟩)⟩
      · exact ⟨req, position, holds.mpr (.inl old)⟩
    · rintro ⟨req, position, held⟩
      rcases holds.mp held with old | ⟨_, _, _, mem⟩
      · exact .inr ⟨req, position, old⟩
      · exact .inl (of_mem_zip mem).2
  · intro req entry' position slot isEntry' at' after
    apply allocates.mapped kept.paged
    obtain ⟨entry, isEntry, _, evicted, _⟩ := of_writeRows isEntry'
    rcases holds.mp ⟨entry', isEntry', at'⟩ with ⟨_, same, old⟩ | ⟨_, _, _, mem⟩
    · obtain rfl := Option.some.inj (isEntry.symm.trans same)
      exact .inr (kept.mapped isEntry old (evicted ▸ after))
    · exact .inl (pairsIs ▸ (of_mem_zip mem).2)
  · intro req entry' isEntry'
    obtain ⟨entry, isEntry, committed, evicted, grows⟩ := of_writeRows isEntry'
    obtain ⟨aligned, inside, within⟩ := kept.window isEntry
    rw [committed, evicted]
    exact ⟨aligned, inside.trans_le grows, within.trans grows⟩

/-- Freeing slots of a row returns window pages of this request only. -/
theorem freesOwn {req : ℕ} {entry : ChunkReq} (is : server.reqs req = some entry) {slots : List ℕ}
    (own : slots ⊆ entry.row)
    {server' : ChunkServer} (same : server'.reqs = server.reqs) (paged : Paged cfg.pageSize server'.kv) :
    server'.FreesOwn cfg req slots := by
  intro number mem
  obtain ⟨_, among, rfl⟩ := mem_map.mp (KvPool.mem_pagesOf.mp mem)
  obtain ⟨mapped, slot, inSlots, rfl⟩ := mem_swaIndices.mp among
  refine ⟨(paged.page_of_mapped mapped).2, fun other entry' different isOther slot' inRow mapped' shared => ?_⟩
  obtain ⟨position, holds⟩ := holds_of_mem is (own inSlots)
  obtain ⟨position', holds'⟩ := holds_of_mem (same ▸ isOther) inRow
  have samePage := (paged.pages slot' slot mapped' mapped).mpr shared
  exact different ((kept.rows.pages holds' holds).mp samePage).1

end Kept

theorem overallocated_eq {entry : ChunkReq}
    (atEnd : cfg.pageSize ∣ entry.kvCommittedLen ∨ entry.kvCommittedLen = entry.row.length) :
    overallocated cfg entry = entry.row.drop entry.kvCommittedLen := by
  unfold overallocated
  have enough := le_numPages_mul cfg.pageSize_pos entry.kvCommittedLen
  rcases atEnd with ⟨count, aligned⟩ | all
  · have few : numPages cfg.pageSize entry.kvCommittedLen ≤ count :=
      (numPages_le_iff cfg.pageSize_pos).mpr (by rw [aligned, Nat.mul_comm])
    have exactly : numPages cfg.pageSize entry.kvCommittedLen * cfg.pageSize = entry.kvCommittedLen := by
      apply le_antisymm _ enough
      calc
        _ ≤ count * cfg.pageSize := Nat.mul_le_mul_right _ few
        _ = entry.kvCommittedLen := by rw [aligned, Nat.mul_comm]
    rw [exactly]
  · rw [drop_eq_nil_of_le (all ▸ enough), drop_eq_nil_of_le all.ge]

namespace Kept

variable (kept : Kept cfg server)

include kept

private theorem page_ne_of_other {req other position slot : ℕ} {entry : ChunkReq} (is : server.reqs req = some entry)
    (different : other ≠ req) (holds : Holds server.reqs other position slot) {slot' : ℕ} (mem : slot' ∈ entry.row) :
    slot' / cfg.pageSize ≠ slot / cfg.pageSize := by
  intro same
  obtain ⟨position', holds'⟩ := holds_of_mem is mem
  exact different ((kept.rows.pages holds' holds).mp same).1.symm

/-- A request goes and gives back what its row holds. -/
private theorem remove {req : ℕ} {entry : ChunkReq} {kv' : KvServer} (is : server.reqs req = some entry)
    (paged : Paged cfg.pageSize kv')
    (full : ∀ number ∈ kv'.allocator.full.pages,
      number ∈ entry.row.map (· / cfg.pageSize) ∨ number ∈ server.kv.allocator.full.pages)
    (allocated : ∀ slot, slot ∈ kv'.allocated ↔ slot ∈ server.kv.allocated ∧ slot ∉ entry.row)
    (mapped : ∀ slot ∉ entry.row, kv'.allocator.fullToSwa slot = server.kv.allocator.fullToSwa slot) :
    Kept cfg ⟨kv', Function.update server.reqs req none⟩ := by
  refine ⟨paged, ?_, ?_, ?_, ?_⟩
  · apply kept.rows.of_holds fun held => (holds_update_none.mp held).2
    intro other position slot held free
    obtain ⟨different, before⟩ := holds_update_none.mp held
    rcases full _ free with own | free
    · obtain ⟨slot', mem, same⟩ := mem_map.mp own
      exact kept.page_ne_of_other is different before mem same
    · exact kept.rows.apart before free
  · intro slot
    rw [allocated, kept.allocated]
    constructor
    · rintro ⟨⟨other, position, holds⟩, outside⟩
      refine ⟨other, position, holds_update_none.mpr ⟨?_, holds⟩⟩
      rintro rfl
      obtain ⟨entry', is', at'⟩ := holds
      obtain rfl := Option.some.inj (is.symm.trans is')
      exact outside (mem_of_getElem? at')
    · rintro ⟨other, position, held⟩
      obtain ⟨different, before⟩ := holds_update_none.mp held
      exact ⟨⟨other, position, before⟩, fun mem => kept.page_ne_of_other is different before mem rfl⟩
  · intro other entry' position slot isOther at' after
    obtain ⟨different, before⟩ := holds_update_none.mp ⟨entry', isOther, at'⟩
    dsimp only at isOther ⊢
    rw [update_of_ne different] at isOther
    rw [mapped slot fun mem => kept.page_ne_of_other is different before mem rfl]
    exact kept.mapped isOther at' after
  · intro other entry' isOther
    dsimp only at isOther
    rcases eq_or_ne other req with rfl | different
    · rw [update_self] at isOther
      exact absurd isOther.symm (Option.some_ne_none entry')
    · rw [update_of_ne different] at isOther
      exact kept.window isOther

/-- A request that ends at the end of a page gives back all its pages. -/
theorem release {req : ℕ} {entry : ChunkReq} (is : server.reqs req = some entry)
    (atEnd : cfg.pageSize ∣ entry.kvCommittedLen ∨ entry.kvCommittedLen = entry.row.length) :
    Paged cfg.pageSize (server.cacheFinishedReq cfg entry).kv ∧
      Kept cfg ⟨((server.cacheFinishedReq cfg entry).releaseOverallocated cfg entry).kv,
        Function.update server.reqs req none⟩ := by
  have own : ∀ {slot}, slot ∈ entry.row → slot ∈ server.kv.allocated := by
    intro slot mem
    obtain ⟨position, holds⟩ := holds_of_mem is mem
    exact (kept.allocated slot).mpr ⟨req, position, holds⟩
  have touched : ∀ slot ∈ entry.row.take entry.kvCommittedLen,
      slot / cfg.pageSize ∈ server.kv.allocated.map (· / cfg.pageSize) :=
    fun slot mem => mem_map_of_mem (own (mem_of_mem_take mem))
  have whole : WholePages cfg.pageSize (entry.row.take entry.kvCommittedLen) server.kv.allocated :=
    kept.whole is (Nat.dvd_zero _) (atEnd.imp_right Eq.ge) (List.Subset.refl _)
  have paged := kept.paged.free cfg.pageSize_gt touched whole
  have touched' : ∀ slot ∈ entry.row.drop entry.kvCommittedLen, slot / cfg.pageSize ∈
      (server.kv.allocated.filter (· ∉ entry.row.take entry.kvCommittedLen)).map (· / cfg.pageSize) := by
    intro slot mem
    apply mem_map_of_mem
    apply mem_filter.mpr
    refine ⟨own (mem_of_mem_drop mem), decide_eq_true fun before => ?_⟩
    obtain ⟨index, at'⟩ := mem_iff_getElem?.mp mem
    rw [getElem?_drop] at at'
    obtain ⟨position, _, early, at''⟩ := (@mem_span entry.row 0 entry.kvCommittedLen slot).mp before
    have := (kept.rows.place_unique ⟨entry, is, at'⟩ ⟨entry, is, at''⟩).2
    omega
  have whole' : WholePages cfg.pageSize (entry.row.drop entry.kvCommittedLen)
      (server.kv.allocated.filter (· ∉ entry.row.take entry.kvCommittedLen)) := by
    rcases atEnd with aligned | all
    · have := kept.whole is aligned (.inr le_rfl) (filter_sublist.subset :
        server.kv.allocated.filter (· ∉ entry.row.take entry.kvCommittedLen) ⊆ _)
      rwa [take_length] at this
    · rw [drop_eq_nil_of_le all.ge]
      exact fun _ _ mem => absurd mem not_mem_nil
  have first : (server.cacheFinishedReq cfg entry).kv = _ := kept.paged.step_free cfg.pageSize_gt touched whole
  have second : ((server.cacheFinishedReq cfg entry).releaseOverallocated cfg entry).kv = _ :=
    (congrArg₂ (fun (kv : KvServer) slots => kv.step cfg.pageSize (.free slots)) first (overallocated_eq atEnd)).trans
      (paged.step_free cfg.pageSize_gt touched' whole')
  have split : ∀ {slot}, slot ∈ entry.row ↔
      slot ∈ entry.row.take entry.kvCommittedLen ∨ slot ∈ entry.row.drop entry.kvCommittedLen := by
    intro slot
    rw [← mem_append, take_append_drop]
  rw [first, second]
  refine ⟨paged, kept.remove is (paged.free cfg.pageSize_gt touched' whole') ?_ ?_ ?_⟩
  · intro number free
    rcases KvPool.mem_pages_free.mp free with late | free
    · exact .inl (map_subset _ (drop_subset ..) late)
    · exact (KvPool.mem_pages_free.mp free).imp_left fun early => map_subset _ (take_subset ..) early
  · intro slot
    simp only [mem_filter, decide_eq_true_eq, split, not_or, and_assoc]
  · intro slot outside
    change (if slot ∈ _ then 0 else if slot ∈ _ then 0 else server.kv.allocator.fullToSwa slot) = _
    rw [if_neg fun mem => outside (split.mpr (.inr mem)), if_neg fun mem => outside (split.mpr (.inl mem))]

variable {call : ChunkCall} (allowed : server.Allowed cfg call) (atEnd : server.AtPageEnd cfg call)
include allowed atEnd

/-- One call. -/
theorem step : Kept cfg (server.step cfg call) := by
  cases call with
  | preAlloc req fillLen winStart =>
    rw [ChunkServer.step]
    split
    · next is => exact (kept.preAlloc allowed.1 allowed.2 is).1
    · exact kept
  | decode batch =>
    rw [ChunkServer.step]
    split
    · next is => exact kept.decode allowed.1 allowed.2 is
    · exact kept
  | commit req kvCommittedLen => exact kept.commit allowed
  | evictSwa req preLen => exact kept.evictSwa allowed
  | release req =>
    cases is : server.reqs req with
    | none =>
      rw [ChunkServer.step, is]
      exact kept
    | some entry =>
      rw [ChunkServer.step, is]
      dsimp only
      split_ifs
      · exact (kept.release is (atEnd entry is)).2
      · exact kept

theorem proper : server.Proper cfg call := by
  cases call with
  | preAlloc req fillLen winStart => exact fun slots allocator is => (kept.preAlloc allowed.1 allowed.2 is).2
  | decode batch => trivial
  | commit req kvCommittedLen => trivial
  | evictSwa req preLen => trivial
  | release req =>
    intro entry is
    refine ⟨kept.freesOwn is (take_subset ..) rfl kept.paged, ?_⟩
    rw [overallocated_eq (atEnd entry is)]
    exact kept.freesOwn is (drop_subset ..) rfl (kept.release is (atEnd entry is)).1

end Kept

/-- In every history whose requests end at the end of a page or with nothing allocated beyond what is committed, the
slots in front of a new window are not mapped, and a release returns no window page that is free or of another
request. -/
theorem windowed_prealloc_unmapped (cfg : ChunkConfig) (size sizeSwa : ℕ) (needSort : Bool) (calls : List ChunkCall)
    (allowed : Along (step cfg) (fun server call => server.Allowed cfg call ∧ server.AtPageEnd cfg call)
      (init cfg size sizeSwa needSort) calls) :
    Along (step cfg) (Proper cfg) (init cfg size sizeSwa needSort) calls :=
  allowed.imp_of_invariant (kept_init size sizeSwa needSort) (fun _ _ kept allowed => kept.step allowed.1 allowed.2)
    fun _ _ kept allowed => kept.proper allowed.1 allowed.2

/-- Two slots a page and a window of two. -/
def twoSlotPages : ChunkConfig := ⟨2, 2, true, true, by decide, Nat.two_pos⟩

/-- A request fills two pages, loses the first one of its window and ends, and its pages go to a request with a
window. -/
def alignedRun : List ChunkCall :=
  [.preAlloc 0 3 0, .decode [0], .commit 0 4, .evictSwa 0 4, .release 0, .preAlloc 1 8 4, .release 1]

theorem windowed_prealloc_unmapped_on_alignedRun :
    Along (step twoSlotPages) (fun server call => server.Allowed twoSlotPages call ∧ server.AtPageEnd twoSlotPages call)
        (init twoSlotPages 12 12 true) alignedRun ∧
      Along (step twoSlotPages) (Proper twoSlotPages) (init twoSlotPages 12 12 true) alignedRun :=
  have allowed : Along (step twoSlotPages)
      (fun server call => server.Allowed twoSlotPages call ∧ server.AtPageEnd twoSlotPages call)
      (init twoSlotPages 12 12 true) alignedRun := by decide +kernel
  ⟨allowed, windowed_prealloc_unmapped twoSlotPages 12 12 true alignedRun allowed⟩

/-- The first request ends with three tokens and four slots. -/
def staleRun : List ChunkCall := [.preAlloc 0 3 0, .decode [0], .release 0, .preAlloc 1 8 4, .release 1]

/-- The release frees the page of the fourth slot and leaves its mapping, which the second request inherits in front of
its window. Its release returns a window page that is free. -/
theorem stale_mapping_in_front_of_window :
    Along (step twoSlotPages) (Allowed twoSlotPages) (init twoSlotPages 12 12 true) staleRun ∧
      ¬(run (step twoSlotPages) (init twoSlotPages 12 12 true) (staleRun.take 3)).Proper twoSlotPages
        (.preAlloc 1 8 4) ∧
      ¬(run (step twoSlotPages) (init twoSlotPages 12 12 true) (staleRun.take 4)).Proper twoSlotPages (.release 1) := by
  refine ⟨by decide +kernel, fun proper => ?_, fun proper => ?_⟩
  · have unmapped := proper [2, 3, 4, 5, 6, 7, 8, 9] _ rfl 5 (by decide)
    exact absurd unmapped (by decide +kernel)
  · have own := (proper ⟨[2, 3, 4, 5, 6, 7, 8, 9], 8, 4⟩ (by decide +kernel)).1 2 (by decide +kernel)
    exact own.1 (by decide +kernel)

end ChunkServer

end FlashMemory
