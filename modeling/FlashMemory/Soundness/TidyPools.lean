import FlashMemory.Soundness.KvCapacity

/-! # Allocators that find their pages

Whatever calls an allocator has served, an allocation that there are pages for finds them.
-/

namespace FlashMemory

open List KvAllocator KvServer

namespace KvAllocator

variable {pageSize : ℕ} {allocator : KvAllocator}

/-- Both pools find their pages, and the first page of the window pool is never free. -/
structure Tidy (allocator : KvAllocator) : Prop where
  full : allocator.full.Tidy
  swa : allocator.swa.Tidy
  swaPages : 0 ∉ allocator.swa.pages

/-- What all calls keep. -/
def PoolsTidy (allocator : KvAllocator) : Prop := allocator.full.Tidy ∧ allocator.swa.Tidy

theorem ensures_mapped_tidy {full swa : Option (List ℕ) × KvPool} (fullTidy : full.2.Tidy) (swaTidy : swa.2.Tidy)
    (first : ℕ) : Ensures (mapped full swa first) allocator (fun _ => PoolsTidy) PoolsTidy := by
  unfold mapped
  split
  · rw [ensures_bind, ensures_modify]
    exact ⟨fullTidy, swaTidy⟩
  · rw [ensures_bind, ensures_modify]
    exact ⟨fullTidy, swaTidy⟩

private theorem ensures_allocExtend_tidy (tidy : allocator.PoolsTidy) (seqs : List ExtendSeq) :
    Ensures (allocExtend pageSize seqs) allocator (fun _ => PoolsTidy) PoolsTidy := by
  unfold allocExtend
  rw [ensures_bind, ensures_get]
  dsimp only
  split_ifs
  · exact tidy
  · exact tidy
  · rw [ensures_bind, ensures_set]
    exact ensures_compiled (ensures_mapped_tidy ((tidy.1.prepare _).take _ _) ((tidy.2.prepare _).take _ _) 0)
      ⟨tidy.1.prepare _, tidy.2⟩

private theorem ensures_allocDecode_tidy (tidy : allocator.PoolsTidy) (seqs : List DecodeSeq) :
    Ensures (allocDecode pageSize seqs) allocator (fun _ => PoolsTidy) PoolsTidy := by
  unfold allocDecode
  rw [ensures_bind, ensures_get]
  dsimp only
  split_ifs
  · exact ⟨(tidy.1.prepare _).take _ _, (tidy.2.prepare _).take _ _⟩
  · exact ensures_mapped_tidy ((tidy.1.prepare _).take _ _) ((tidy.2.prepare _).take _ _) 0

private theorem ensures_allocExtendWindowedSwa_tidy (tidy : allocator.PoolsTidy) (fullSeqLen swaWinStart : ℕ) :
    Ensures (allocExtendWindowedSwa pageSize fullSeqLen swaWinStart) allocator (fun _ => PoolsTidy) PoolsTidy := by
  have fullTidy : (allocFresh pageSize fullSeqLen allocator.full).2.Tidy := by
    unfold allocFresh
    split_ifs
    · exact (tidy.1.prepare _).take _ _
    · exact (tidy.1.prepare _).take _ _
  have swaTidy : (allocator.swa.allocExtend pageSize [⟨0, fullSeqLen - swaWinStart, -1⟩]).2.Tidy :=
    (tidy.2.prepare _).take _ _
  unfold allocExtendWindowedSwa
  rw [ensures_bind, ensures_get, ensures_bind, ensures_ensure]
  dsimp only
  split_ifs
  · exact tidy
  · exact tidy
  · split
    · exact ⟨fullTidy, tidy.2⟩
    · rw [ensures_bind, ensures_set]
      apply ensures_compiled _ ⟨fullTidy, tidy.2.prepare _⟩
      split
      · exact ⟨fullTidy.free _, swaTidy⟩
      · exact ensures_mapped_tidy fullTidy swaTidy swaWinStart
  · exact tidy

private theorem ensures_freeChecked_tidy (tidy : allocator.PoolsTidy) (slots : List ℕ) :
    Ensures (freeChecked pageSize slots) allocator (fun _ => PoolsTidy) PoolsTidy := by
  have freed : (allocator.free pageSize slots).PoolsTidy := ⟨tidy.1.free _, tidy.2.free _⟩
  unfold freeChecked
  split_ifs
  · exact tidy
  · rw [ensures_bind, ensures_modify, ensures_bind, ensures_get, ensures_bind, ensures_ensure, ensures_ensure]
    split_ifs <;> exact freed

end KvAllocator

namespace KvServer

variable {pageSize : ℕ} {server : KvServer}

private theorem handOut_tidy {call : KvM (Option (List ℕ))}
    (ensured : Ensures call server.allocator (fun _ => PoolsTidy) PoolsTidy) :
    (server.handOut (call server.allocator)).allocator.PoolsTidy := by
  refine ensured.elim (fun result allocator tidy => ?_) fun _ _ tidy => tidy
  cases result with
  | none => exact tidy
  | some slots => exact tidy

private theorem step_tidy (tidy : server.allocator.PoolsTidy) (call : KvCall) :
    (server.step pageSize call).allocator.PoolsTidy := by
  cases call with
  | allocExtend seqs => exact handOut_tidy (ensures_allocExtend_tidy tidy seqs)
  | allocExtendWindowedSwa fullSeqLen swaWinStart =>
    exact handOut_tidy (ensures_allocExtendWindowedSwa_tidy tidy fullSeqLen swaWinStart)
  | allocDecode seqs => exact handOut_tidy (ensures_allocDecode_tidy tidy seqs)
  | free slots =>
    rw [step]
    exact (ensures_freeChecked_tidy tidy slots).elim (fun _ _ tidy => tidy) fun _ _ tidy => tidy
  | freeSwa slots => exact ⟨tidy.1, tidy.2.free _⟩

/-- Every history leaves an allocator that finds its pages. -/
theorem tidy_run (page : 1 < pageSize) (size sizeSwa : ℕ) (needSort : Bool) (calls : List KvCall)
    (valid : Along (step pageSize) (Valid pageSize) (init pageSize size sizeSwa needSort) calls) :
    (run (step pageSize) (init pageSize size sizeSwa needSort) calls).allocator.Tidy := by
  have pools := @Along.invariant _ _ _ _ (fun server => Paged pageSize server ∧ server.allocator.PoolsTidy) _ _ valid
    ⟨paged_init size sizeSwa needSort, fun _ => rfl, fun _ => rfl⟩
    fun _ call kept allowed => ⟨paged_step page kept.1 call allowed, step_tidy kept.2 call⟩
  exact ⟨pools.2.1, pools.2.2, fun zero => absurd (pools.1.swaRange 0 (.inl zero)).1 (Nat.lt_irrefl 0)⟩

theorem tidy_run_on_free :
    (run (step 2) (init 2 16 16 false) [.allocExtend [⟨0, 3, -1⟩], .free [2, 3, 4]]).allocator.Tidy :=
  tidy_run (by decide) 16 16 false _ (by decide +kernel)

end KvServer

end FlashMemory
