import FlashMemory.Model.Retriever
import FlashMemory.Soundness.ResidentTopk

/-! # The pages of a row

The forced pages have an infinite score, so they are chosen first, and the densest pages fill the row. The row buffer
and the returned mask describe the chunks of the same pages. With `last_keep` zero the code still forces the last page
of a history that ends inside a page, since the first recent chunk would be one of this page.
-/

namespace FlashMemory.RetrieverHook

open List

variable {hook : RetrieverHook} {sigs : ℕ → ℕ → ℚ} {ccfg : CapturerConfig} {forward : Forward}
  {kernel : TopkKernel (WithTop ℕ)} {bi nBlk page : ℕ}

/-- The page has a chunk of the history that is recent or a sink. -/
def ForcedPage (hook : RetrieverHook) (nBlk page : ℕ) : Prop :=
  ∃ chunk < nBlk, chunk / c4PageSize = page ∧ hook.forced nBlk chunk = true

instance (hook : RetrieverHook) (nBlk : ℕ) : DecidablePred (hook.ForcedPage nBlk) := fun _ => Nat.decidableExistsLT _

def forcedPages (hook : RetrieverHook) (nBlk : ℕ) :
    Finset ℕ := (Finset.range (pagesOf nBlk)).filter (hook.ForcedPage nBlk)

/-- The chunks above the threshold in a page. -/
def density (hook : RetrieverHook) (sigs : ℕ → ℕ → ℚ) (nBlk page : ℕ) : ℕ :=
  ((List.range nBlk).filter fun chunk => chunk / c4PageSize = page ∧ hook.thr sigs chunk = true).length

private theorem forced_iff {chunk : ℕ} : hook.forced nBlk chunk = true ↔
    nBlk - hook.window.lastKeep ≤ chunk ∨ chunk < hook.window.firstKeep ∧ chunk < nBlk := by
  simp only [forced, recent, sink, Bool.or_eq_true, decide_eq_true_eq, lt_min_iff]

/-- The pages that the code forces are those with forced chunks and, with `last_keep` zero, the page in which the
history ends. -/
private theorem forcedPage_iff (within : page < pagesOf nBlk) :
    ((nBlk - hook.window.lastKeep) / c4PageSize ≤ page ∨
      0 < hook.window.firstKeep ∧ page < pagesOf (min hook.window.firstKeep nBlk)) ↔
    hook.ForcedPage nBlk page ∨ hook.window.lastKeep = 0 ∧ page = nBlk / c4PageSize := by
  simp only [pagesOf, c4PageSize] at *
  constructor
  · rintro (tail | ⟨_, sink⟩)
    · by_cases none : hook.window.lastKeep = 0
      · exact .inr ⟨none, by omega⟩
      · refine .inl ⟨max (page * 64) (nBlk - hook.window.lastKeep), by omega, by simp only [c4PageSize]; omega,
          forced_iff.mpr ?_⟩
        exact .inl (le_max_right _ _)
    · refine .inl ⟨page * 64, by omega, by simp only [c4PageSize]; omega, forced_iff.mpr (.inr ⟨?_, ?_⟩)⟩ <;> omega
  · rintro (⟨chunk, inside, rfl, isForced⟩ | ⟨none, rfl⟩)
    · rcases forced_iff.mp isForced with recent | sink
      · exact .inl (Nat.div_le_div_right recent)
      · simp only [c4PageSize]
        exact .inr ⟨by omega, by omega⟩
    · exact .inl (Nat.div_le_div_right (Nat.sub_le _ _))

theorem pageScore_eq (within : page < pagesOf nBlk) : pageScore hook.window (hook.thr sigs) nBlk page =
    if hook.ForcedPage nBlk page ∨ hook.window.lastKeep = 0 ∧ page = nBlk / c4PageSize then ⊤
    else ((hook.density sigs nBlk page : ℕ) : WithTop ℕ) := by
  rw [pageScore, density]
  exact if_congr (forcedPage_iff within) rfl rfl

/-- The pages that are not forced and have more chunks above the threshold than the page in which the history ends. -/
def denserPages (hook : RetrieverHook) (sigs : ℕ → ℕ → ℚ) (nBlk : ℕ) : Finset ℕ :=
  (Finset.range (pagesOf nBlk)).filter fun page =>
    ¬hook.ForcedPage nBlk page ∧ hook.density sigs nBlk (nBlk / c4PageSize) < hook.density sigs nBlk page

/-- The page in which the history ends is forced rightly, or not at all, or takes the place of no better page. -/
def LastPageHarmless (hook : RetrieverHook) (sigs : ℕ → ℕ → ℚ) (pageKmax nBlk : ℕ) : Prop :=
  (0 < hook.window.lastKeep ∨ nBlk % c4PageSize = 0 ∨ hook.ForcedPage nBlk (nBlk / c4PageSize)) ∨
    pagesOf nBlk ≤ pageKmax ∨ (hook.forcedPages nBlk).card + (hook.denserPages sigs nBlk).card < pageKmax ∨
    pageKmax < (hook.forcedPages nBlk).card ∧ hook.denserPages sigs nBlk = ∅

/-- All forced pages are chosen if they fit, and no page that is left out is denser than a chosen one. -/
structure DensestFirst (hook : RetrieverHook) (sigs : ℕ → ℕ → ℚ) (pageKmax nBlk : ℕ) (chosen : List ℕ) : Prop where
  forced : (hook.forcedPages nBlk).card ≤ pageKmax → ∀ page ∈ hook.forcedPages nBlk, page ∈ chosen
  densest : ∀ page ∈ chosen, ¬hook.ForcedPage nBlk page → ∀ other < pagesOf nBlk, ¬hook.ForcedPage nBlk other →
    other ∉ chosen → hook.density sigs nBlk other ≤ hook.density sigs nBlk page

theorem mem_forcedPages : page ∈ hook.forcedPages nBlk ↔ page < pagesOf nBlk ∧ hook.ForcedPage nBlk page := by
  rw [forcedPages, Finset.mem_filter, Finset.mem_range]

section

variable {pageKmax : ℕ} {chosen : List ℕ}
  (topk : IsTopk (pageScore hook.window (hook.thr sigs) nBlk) (pagesOf nBlk) pageKmax chosen)

include topk

/-- Only forced pages and the last one have an infinite score. -/
private theorem rival_of_forced (mem : page ∈ hook.forcedPages nBlk) {other : ℕ} (picked : other ∈ chosen)
    (apart : other ≠ page)
    (score : pageScore hook.window (hook.thr sigs) nBlk page ≤ pageScore hook.window (hook.thr sigs) nBlk other) :
    other ∈ (hook.forcedPages nBlk).erase page ∨ hook.window.lastKeep = 0 ∧ other = nBlk / c4PageSize := by
  obtain ⟨within, isForced⟩ := mem_forcedPages.mp mem
  have inside := topk.inRange other picked
  rw [pageScore_eq within, if_pos (.inl isForced), top_le_iff, pageScore_eq inside] at score
  split_ifs at score with pinned
  · exact pinned.imp_left fun isForced => Finset.mem_erase.mpr ⟨apart, mem_forcedPages.mpr ⟨inside, isForced⟩⟩
  · exact absurd score WithTop.coe_ne_top

/-- A page that is not forced has no more chunks above the threshold than a chosen one, unless that one is the last
page. -/
private theorem density_le_of_left {other : ℕ} (picked : page ∈ chosen) (unforced : ¬hook.ForcedPage nBlk page)
    (within : other < pagesOf nBlk) (left : other ∉ chosen)
    (inner : ¬(hook.window.lastKeep = 0 ∧ page = nBlk / c4PageSize)) :
    hook.density sigs nBlk other ≤ hook.density sigs nBlk page := by
  have score := topk.top page picked other within left
  rw [pageScore_eq within, pageScore_eq (topk.inRange page picked), if_neg (not_or.mpr ⟨unforced, inner⟩)] at score
  split_ifs at score
  · exact absurd (top_le_iff.mp score) WithTop.coe_ne_top
  · exact WithTop.coe_le_coe.mp score

private theorem densestFirst_of_harmless (harmless : hook.LastPageHarmless sigs pageKmax nBlk)
    (tight : pageKmax < pagesOf nBlk) : hook.DensestFirst sigs pageKmax nBlk chosen := by
  have last : 0 < hook.window.lastKeep ∨ nBlk % c4PageSize = 0 ∨ hook.ForcedPage nBlk (nBlk / c4PageSize) →
      ∀ page < pagesOf nBlk, hook.window.lastKeep = 0 ∧ page = nBlk / c4PageSize → hook.ForcedPage nBlk page := by
    rintro fine page within ⟨none, rfl⟩
    rcases fine with some | whole | isForced
    · omega
    · simp only [pagesOf, c4PageSize] at within whole
      omega
    · exact isForced
  constructor
  · intro few page mem
    have within := (mem_forcedPages.mp mem).1
    have card := Finset.card_erase_add_one mem
    rcases harmless with fine | room | seats | ⟨many, _⟩
    · refine topk.mem_of_few within (fun other picked apart score => ?_) (Nat.lt_of_succ_le (card.le.trans few))
      rcases rival_of_forced topk mem picked apart score with rival | ends
      · exact rival
      · have inside := topk.inRange other picked
        exact Finset.mem_erase.mpr ⟨apart, mem_forcedPages.mpr ⟨inside, last fine other inside ends⟩⟩
    · exact absurd room tight.not_ge
    · have room : (Insert.insert (nBlk / c4PageSize) ((hook.forcedPages nBlk).erase page)).card < pageKmax :=
        (Finset.card_insert_le _ _).trans_lt (by omega)
      refine topk.mem_of_few within (fun other picked apart score => ?_) room
      rcases rival_of_forced topk mem picked apart score with rival | ⟨_, rfl⟩
      · exact Finset.mem_insert_of_mem rival
      · exact Finset.mem_insert_self ..
    · exact absurd few many.not_ge
  · intro page picked unforced other within otherUnforced left
    by_cases inner : hook.window.lastKeep = 0 ∧ page = nBlk / c4PageSize
    · obtain rfl := inner.2
      by_contra denser
      have isDenser : other ∈ hook.denserPages sigs nBlk :=
        Finset.mem_filter.mpr ⟨Finset.mem_range.mpr within, otherUnforced, not_le.mp denser⟩
      rcases harmless with fine | room | seats | ⟨_, none⟩
      · exact unforced (last fine _ (topk.inRange _ picked) inner)
      · exact tight.not_ge room
      · -- there are fewer pages with a score like that than pages to choose
        have room : (Insert.insert (nBlk / c4PageSize)
            (hook.forcedPages nBlk ∪ (hook.denserPages sigs nBlk).erase other)).card <
              pageKmax := by
          have card := Finset.card_erase_add_one isDenser
          have union := Finset.card_union_le (hook.forcedPages nBlk) ((hook.denserPages sigs nBlk).erase other)
          exact (Finset.card_insert_le _ _).trans_lt (by omega)
        refine left (topk.mem_of_few within (fun rival isRival apart score => ?_) room)
        have inside := topk.inRange rival isRival
        have notLast : other ≠ nBlk / c4PageSize := fun same => left (same ▸ picked)
        rw [pageScore_eq within, if_neg (not_or.mpr ⟨otherUnforced, fun ends => notLast ends.2⟩), pageScore_eq inside]
          at score
        rw [Finset.mem_insert, Finset.mem_union]
        split_ifs at score with pinned
        · rcases pinned with isForced | ends
          · exact .inr (.inl (mem_forcedPages.mpr ⟨inside, isForced⟩))
          · exact .inl ends.2
        · have most := (not_le.mp denser).trans_le (WithTop.coe_le_coe.mp score)
          refine .inr
            (.inr (Finset.mem_erase.mpr ⟨apart, Finset.mem_filter.mpr ⟨Finset.mem_range.mpr inside, ?_, most⟩⟩))
          exact fun isForced => pinned (.inl isForced)
      · exact Finset.notMem_empty _ (none ▸ isDenser)
    · exact density_le_of_left topk picked unforced within left inner

/-- If the last page is chosen without need, nothing better is left out only where there is room for all of it. -/
private theorem harmless_of_densestFirst (law : hook.DensestFirst sigs pageKmax nBlk chosen)
    (unforced : ¬hook.ForcedPage nBlk (nBlk / c4PageSize))
    (picked : nBlk / c4PageSize ∈ chosen) : hook.LastPageHarmless sigs pageKmax nBlk := by
  have dense : ∀ page ∈ hook.denserPages sigs nBlk, page ∈ chosen := by
    intro page isDenser
    obtain ⟨within, other, denser⟩ := Finset.mem_filter.mp isDenser
    by_contra left
    exact denser.not_ge (law.densest _ picked unforced page (Finset.mem_range.mp within) other left)
  by_cases few : (hook.forcedPages nBlk).card ≤ pageKmax
  · refine .inr (.inr (.inl ?_))
    have disjoint : Disjoint (hook.forcedPages nBlk) (hook.denserPages sigs nBlk) :=
      Finset.disjoint_left.mpr fun page isForced isDenser =>
        (Finset.mem_filter.mp isDenser).2.1 (mem_forcedPages.mp isForced).2
    have outside : nBlk / c4PageSize ∉ hook.forcedPages nBlk ∪ hook.denserPages sigs nBlk := by
      rw [Finset.mem_union, mem_forcedPages, denserPages, Finset.mem_filter]
      rintro (isForced | isDenser)
      · exact unforced isForced.2
      · exact lt_irrefl _ isDenser.2.2
    have all : Insert.insert (nBlk / c4PageSize) (hook.forcedPages nBlk ∪ hook.denserPages sigs nBlk) ⊆
        chosen.toFinset := by
      intro page mem
      rw [mem_toFinset]
      rw [Finset.mem_insert, Finset.mem_union] at mem
      rcases mem with rfl | isForced | isDenser
      · exact picked
      · exact law.forced few page isForced
      · exact dense page isDenser
    have card := Finset.card_le_card all
    rw [Finset.card_insert_of_notMem outside, Finset.card_union_of_disjoint disjoint, topk.card_toFinset] at card
    exact card
  · refine .inr (.inr (.inr ⟨not_le.mp few, Finset.eq_empty_of_forall_notMem fun page isDenser => ?_⟩))
    -- a denser page would be chosen after all forced ones
    obtain ⟨within, other, denser⟩ := Finset.mem_filter.mp isDenser
    have notLast : page ≠ nBlk / c4PageSize := fun same => lt_irrefl _ (same ▸ denser)
    have all : hook.forcedPages nBlk ⊆ chosen.toFinset := by
      intro forcedPage mem
      obtain ⟨inside, isForced⟩ := mem_forcedPages.mp mem
      rw [mem_toFinset]
      by_contra left
      have score := topk.top page (dense page isDenser) forcedPage inside left
      rw [pageScore_eq inside, if_pos (.inl isForced), pageScore_eq (Finset.mem_range.mp within),
        if_neg (not_or.mpr ⟨other, fun ends => notLast ends.2⟩)] at score
      exact WithTop.coe_ne_top (top_le_iff.mp score)
    exact few (topk.card_toFinset ▸ Finset.card_le_card all)

end

/-- Every kernel keeps the law of the pages exactly if the last page is harmless. -/
theorem densestFirst_iff (some : 1 ≤ pageKmax) :
    (∀ kernel, hook.DensestFirst sigs pageKmax nBlk
      (selectResidentPages kernel hook.window (hook.thr sigs) pageKmax nBlk)) ↔
        hook.LastPageHarmless sigs pageKmax nBlk := by
  by_cases room : pagesOf nBlk ≤ pageKmax
  · refine iff_of_true (fun kernel => ?_) (.inr (.inl room))
    have all : ∀ page < pagesOf nBlk, page ∈ selectResidentPages kernel hook.window (hook.thr sigs) pageKmax nBlk := by
      rw [selectResidentPages_all kernel hook.window _ room]
      exact fun page => mem_range.mpr
    exact ⟨fun _ page mem => all page (mem_forcedPages.mp mem).1, fun _ _ _ other within _ left => absurd
      (all other within) left⟩
  have topk := fun kernel => isTopk_selectResidentPages kernel hook.window (hook.thr sigs) pageKmax nBlk
  rw [Nat.min_eq_left (not_le.mp room).le] at topk
  refine ⟨fun law => ?_, fun harmless kernel => densestFirst_of_harmless (topk kernel) harmless (not_le.mp room)⟩
  by_cases fine : 0 < hook.window.lastKeep ∨ nBlk % c4PageSize = 0 ∨ hook.ForcedPage nBlk (nBlk / c4PageSize)
  · exact .inl fine
  · obtain ⟨ends, partial', unforced⟩ := (by simpa only [not_or, not_lt, Nat.le_zero] using fine :
      hook.window.lastKeep = 0 ∧ ¬nBlk % c4PageSize = 0 ∧ ¬hook.ForcedPage nBlk (nBlk / c4PageSize))
    have within : nBlk / c4PageSize < pagesOf nBlk := by
      simp only [pagesOf, c4PageSize] at partial' ⊢
      omega
    have infinite : pageScore hook.window (hook.thr sigs) nBlk (nBlk / c4PageSize) = ⊤ := by
      rw [pageScore_eq within, if_pos (.inr ⟨ends, rfl⟩)]
    refine harmless_of_densestFirst (topk _) (law _) unforced
      (mem_mergeSort.mpr (mem_pick_preferring ?_ (min_le_right _ _) within ?_))
    · exact lt_min some (Nat.zero_lt_of_lt within)
    · exact fun page _ => infinite ▸ le_top

/-! ## The row -/

/-- The pages of the history are pages of the pool. -/
def PagesInPool (ccfg : CapturerConfig) (forward : Forward) (bi : ℕ) : Prop :=
  ∀ page < pagesOf (forward.nBlk bi), forward.physPage bi page < ccfg.c4LogicalSize / c4PageSize

instance (ccfg : CapturerConfig) (forward : Forward) (bi : ℕ) : Decidable (PagesInPool ccfg forward bi) :=
    Nat.decidableBallLT _ _

theorem keep_iff {chunk : ℕ} : (hook.selectResidentRow sigs ccfg forward kernel bi).keep chunk = true ↔
    chunk ∈ residentChunks (hook.selectResidentRow sigs ccfg forward kernel bi).topLogical (forward.nBlk bi) := by
  rw [selectResidentRow, decide_eq_true_eq, mem_map]
  constructor
  · rintro ⟨logical, mem, rfl⟩
    obtain ⟨col, inRow, rfl⟩ := mem_map.mp mem
    obtain ⟨inRow, inside⟩ := mem_filter.mp inRow
    have inside := of_decide_eq_true inside
    rw [Nat.min_eq_left (Nat.le_sub_one_of_lt inside)]
    exact chunkOf_mem_residentChunks (mem_realCols.mpr ⟨mem_range.mp inRow, inside⟩)
  · intro resident
    obtain ⟨inRow, inside⟩ := mem_realCols.mp (colOf_mem_realCols resident)
    have back := chunkOf_colOf (mem_residentChunks.mp resident).2
    refine ⟨chunk, mem_map.mpr ⟨colOf _ chunk, mem_filter.mpr ⟨mem_range.mpr inRow, decide_eq_true inside⟩, back⟩, ?_⟩
    have := (mem_residentChunks.mp resident).1
    omega

/-- The location of a chunk in the page table. -/
def tableLoc (forward : Forward) (bi chunk : ℕ) :
    ℕ := forward.physPage bi (chunk / c4PageSize) * c4PageSize + chunk % c4PageSize

theorem chunkLoc_eq_tableLoc (inPool : PagesInPool ccfg forward bi) {chunk : ℕ} (formed : chunk < forward.nBlk bi) :
    forward.chunkLoc ccfg bi chunk = tableLoc forward bi chunk := by
  have page : chunk / c4PageSize < pagesOf (forward.nBlk bi) := by
    simp only [pagesOf, c4PageSize]
    omega
  have bound := inPool _ page
  rw [Forward.chunkLoc, tableLoc, Nat.min_eq_left (Nat.le_sub_one_of_lt bound)]

private theorem residentPoolLocBuf_eq (inPool : PagesInPool ccfg forward bi) {col : ℕ}
    (inBuffer : col < ccfg.pageKmax * c4PageSize) :
    let row := hook.selectResidentRow sigs ccfg forward kernel bi
    row.residentPoolLocBuf.getD col (-1) = if col ∈ realCols row.topLogical (forward.nBlk bi) then
      (tableLoc forward bi (chunkOf row.topLogical col) : ℤ) else -1 := by
  intro row
  have entry : row.residentPoolLocBuf.getD col (-1) = forward.rowLoc ccfg bi row.topLogical col := by
    rw [getD_eq_getElem _ _ (by simpa [row, selectResidentRow] using inBuffer)]
    simp [row, selectResidentRow, Forward.rowLoc]
  rw [entry, Forward.rowLoc_eq]
  split_ifs with real
  · rw [chunkLoc_eq_tableLoc inPool (mem_realCols.mp real).2]
  · rfl

/-- The columns of a row stand for the chunks of its pages. -/
private theorem map_chunkOf_perm {topLogical : List ℕ} (distinct : topLogical.Nodup) {width : ℕ}
    (fits : topLogical.length * c4PageSize ≤ width) :
    (((List.range width).filter (· ∈ realCols topLogical nBlk)).map (chunkOf topLogical)).Perm
      ((List.range nBlk).filter (· ∈ residentChunks topLogical nBlk)) := by
  have injective : ∀ col ∈ (List.range width).filter (· ∈ realCols topLogical nBlk),
      ∀ other ∈ (List.range width).filter (· ∈ realCols topLogical nBlk),
        chunkOf topLogical col = chunkOf topLogical other → col = other := by
    intro col mem other otherMember same
    have real := of_decide_eq_true (mem_filter.mp mem).2
    have otherReal := of_decide_eq_true (mem_filter.mp otherMember).2
    rw [← colOf_chunkOf distinct (mem_realCols.mp real).1, ← colOf_chunkOf distinct (mem_realCols.mp otherReal).1, same]
  apply (perm_ext_iff_of_nodup ((nodup_range.filter _).map_on injective) (nodup_range.filter _)).mpr
  intro chunk
  rw [mem_map, mem_filter, mem_range, decide_eq_true_eq]
  constructor
  · rintro ⟨col, mem, rfl⟩
    have resident := chunkOf_mem_residentChunks (of_decide_eq_true (mem_filter.mp mem).2)
    exact ⟨(mem_residentChunks.mp resident).1, resident⟩
  · rintro ⟨_, resident⟩
    have real := colOf_mem_realCols resident
    refine ⟨colOf topLogical chunk, mem_filter.mpr ⟨?_, decide_eq_true real⟩,
      chunkOf_colOf (mem_residentChunks.mp resident).2⟩
    exact mem_range.mpr ((mem_realCols.mp real).1.trans_le fits)

theorem residentPoolLocBuf_perm (inPool : PagesInPool ccfg forward bi) :
    let row := hook.selectResidentRow sigs ccfg forward kernel bi
    (row.residentPoolLocBuf.filter (0 ≤ ·)).Perm
      (((List.range (forward.nBlk bi)).filter row.keep).map fun chunk => (tableLoc forward bi chunk : ℤ)) := by
  intro row
  have pages := selectResidentPages_within kernel hook.window (hook.thr sigs) ccfg.pageKmax (forward.nBlk bi)
  have fits : row.topLogical.length * c4PageSize ≤ ccfg.pageKmax * c4PageSize := by
    refine Nat.mul_le_mul_right _ ?_
    exact (selectResidentPages_length ..).le.trans (min_le_left _ _)
  have entries : row.residentPoolLocBuf.filter (0 ≤ ·) = (((List.range (ccfg.pageKmax * c4PageSize)).filter
      (· ∈ realCols row.topLogical (forward.nBlk bi))).map (chunkOf row.topLogical)).map
        fun chunk => (tableLoc forward bi chunk : ℤ) := by
    have written := @Forward.filter_written ccfg forward bi row.topLogical (List.range (ccfg.pageKmax * c4PageSize)) 0
    rw [replicate_zero, append_nil] at written
    refine written.trans ?_
    rw [map_map]
    refine map_congr_left fun col mem => ?_
    have real := of_decide_eq_true (mem_filter.mp mem).2
    rw [Forward.rowLoc_eq, if_pos real, chunkLoc_eq_tableLoc inPool (mem_realCols.mp real).2]
    rfl
  have kept : (List.range (forward.nBlk bi)).filter row.keep =
      (List.range (forward.nBlk bi)).filter (· ∈ residentChunks row.topLogical (forward.nBlk bi)) := by
    refine filter_congr fun chunk _ => ?_
    rw [Bool.eq_iff_iff, keep_iff, decide_eq_true_eq]
  rw [entries, kept]
  exact (map_chunkOf_perm pages.distinct fits).map _

/-- Different pages of the history are different in the table. -/
def TableInjective (forward : Forward) (bi : ℕ) : Prop :=
  ∀ page < pagesOf (forward.nBlk bi), ∀ other < pagesOf (forward.nBlk bi),
    forward.physPage bi page = forward.physPage bi other → page = other

instance (forward : Forward) (bi : ℕ) : Decidable (TableInjective forward bi) := Nat.decidableBallLT _ _

private theorem residentPoolLocBuf_nodup (inPool : PagesInPool ccfg forward bi)
    (injective : TableInjective forward bi) :
    ((hook.selectResidentRow sigs ccfg forward kernel bi).residentPoolLocBuf.filter (0 ≤ ·)).Nodup := by
  rw [(residentPoolLocBuf_perm inPool).nodup_iff]
  refine (nodup_range.filter _).map_on fun chunk mem other otherMember same => ?_
  have formed := mem_range.mp (mem_filter.mp mem).1
  have otherFormed := mem_range.mp (mem_filter.mp otherMember).1
  have same := Int.ofNat_inj.mp same
  rw [← chunkLoc_eq_tableLoc inPool formed, ← chunkLoc_eq_tableLoc inPool otherFormed] at same
  exact Forward.chunkLoc_inj ⟨injective, inPool⟩ formed otherFormed same

/-- The row has as many pages as it can have, and the mask and the row buffer describe the chunks of these pages. They
are first the forced pages and then the densest ones, whatever the kernel does with ties, exactly if the last page is
harmless. -/
theorem selectResidentRow_law (hook : RetrieverHook) (sigs : ℕ → ℕ → ℚ) (ccfg : CapturerConfig)
    (forward : Forward) (bi : ℕ) (some : 1 ≤ ccfg.pageKmax) (inPool : PagesInPool ccfg forward bi) :
    let row := fun kernel => hook.selectResidentRow sigs ccfg forward kernel bi
    let nBlk := forward.nBlk bi
    ((∀ kernel, hook.DensestFirst sigs ccfg.pageKmax nBlk (row kernel).topLogical) ↔
      hook.LastPageHarmless sigs ccfg.pageKmax nBlk) ∧
    ∀ kernel, (row kernel).topLogical.Nodup ∧ (∀ page ∈ (row kernel).topLogical, page < pagesOf nBlk) ∧
    (row kernel).topLogical.length = min ccfg.pageKmax (pagesOf nBlk) ∧
    (∀ chunk < nBlk, (row kernel).keep chunk = true ↔ chunk / c4PageSize ∈ (row kernel).topLogical) ∧
    (∀ col < ccfg.pageKmax * c4PageSize, (row kernel).residentPoolLocBuf.getD col (-1) =
      if col < (row kernel).topLogical.length * c4PageSize ∧
          (row kernel).topLogical.getD (col / c4PageSize) 0 * c4PageSize + col % c4PageSize < nBlk then
        ((forward.physPage bi ((row kernel).topLogical.getD (col / c4PageSize) 0) * c4PageSize +
          col % c4PageSize : ℕ) : ℤ)
      else -1) ∧
    ((row kernel).residentPoolLocBuf.filter (0 ≤ ·)).Perm
      (((List.range nBlk).filter (row kernel).keep).map fun chunk => (tableLoc forward bi chunk : ℤ)) ∧
    (TableInjective forward bi → ((row kernel).residentPoolLocBuf.filter (0 ≤ ·)).Nodup) := by
  intro row nBlk
  refine ⟨densestFirst_iff some, fun kernel => ?_⟩
  have pages := selectResidentPages_within kernel hook.window (hook.thr sigs) ccfg.pageKmax nBlk
  refine ⟨pages.distinct, pages.within, selectResidentPages_length .., ?_, ?_, residentPoolLocBuf_perm inPool,
    residentPoolLocBuf_nodup inPool⟩
  · intro chunk formed
    rw [keep_iff, mem_residentChunks, and_iff_right formed]
  · intro col inBuffer
    rw [residentPoolLocBuf_eq inPool inBuffer, tableLoc, chunkOf_div, chunkOf_mod]
    exact if_congr mem_realCols rfl rfl

open ResidentServer (smallCapturer)

/-- A hook of one layer that keeps the last chunks of a history. -/
def lastChunks (lastKeep : ℕ) : RetrieverHook := ⟨[0], true, 0, ⟨lastKeep, 0⟩, 0⟩

/-- A history of 65 chunks in two pages. -/
def twoPages : Forward := ⟨[65], [[2, 0]], fun _ => none⟩

/-- The last page is the only one that is chosen, and the row buffer has its one chunk. -/
theorem selectResidentRow_law_on_twoPages :
    let row := (lastChunks 1).selectResidentRow (fun _ _ => 1) smallCapturer twoPages (.preferring fun _ => false) 0
    row.topLogical.length = 1 ∧ 1 ∈ row.topLogical ∧ (row.residentPoolLocBuf.filter (0 ≤ ·)).Nodup := by
  intro row
  have law := (lastChunks 1).selectResidentRow_law (fun _ _ => 1) smallCapturer twoPages 0 (by decide) (by decide)
  have densest := law.1.mpr (.inl (.inl (by decide))) (.preferring fun _ => false)
  obtain ⟨_, _, length, _, _, _, distinct⟩ := law.2 (.preferring fun _ => false)
  exact ⟨length, densest.forced (by decide +kernel) 1 (by decide +kernel), distinct (by decide)⟩

/-- With `last_keep` zero the last page is chosen with its one chunk, and the full first page is left out. -/
theorem last_page_displaces_densest :
    (∀ page < 2, ¬(lastChunks 0).ForcedPage 65 page) ∧
      (lastChunks 0).density (fun _ _ => 1) 65 1 < (lastChunks 0).density (fun _ _ => 1) 65 0 ∧
      ∀ kernel, ((lastChunks 0).selectResidentRow (fun _ _ => 1) smallCapturer twoPages kernel 0).topLogical = [1] := by
  refine ⟨by decide +kernel, by decide +kernel, fun kernel => ?_⟩
  have pages := selectResidentPages_within kernel (lastChunks 0).window ((lastChunks 0).thr fun _ _ => 1) 1 65
  have topk := kernel.spec (pageScore (lastChunks 0).window ((lastChunks 0).thr fun _ _ => 1) 65) 2 1 (by decide)
  obtain ⟨page, only⟩ := length_eq_one_iff.mp
    (selectResidentPages_length kernel (lastChunks 0).window ((lastChunks 0).thr fun _ _ => 1) 1 65)
  have within : page < 2 := pages.within page (by simp [only])
  have picked : ∀ other,
      other ∈ kernel.pick (pageScore (lastChunks 0).window ((lastChunks 0).thr fun _ _ => 1) 65) 2 1 ↔
      other = page := by
    intro other
    rw [← mem_singleton, ← only, selectResidentPages, mem_mergeSort]
    rfl
  rcases eq_or_ne page 1 with rfl | different
  · exact only
  · obtain rfl : page = 0 := by omega
    have score := topk.top 0 ((picked 0).mpr rfl) 1 (by decide) fun chosen => absurd ((picked 1).mp chosen) (by decide)
    exact absurd score (by decide +kernel)

end FlashMemory.RetrieverHook
