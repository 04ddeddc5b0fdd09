import Mathlib.Data.List.Basic

/-! # A writer in the background

A background task is a list of writes that are still to be done. Others look at the memory between any
two of them. `Passes` says that they see only good states, and that the task leaves the memory in a
condition from which the next one can start.
-/

namespace FlashMemory

variable {σ ω : Type*}

/-- All states that the writes pass through are good, and at the end the memory is settled. -/
def Passes (exec : σ → ω → σ) (good settled : σ → Prop) : σ → List ω → Prop
  | memory, [] => good memory ∧ settled memory
  | memory, write :: rest => good memory ∧ Passes exec good settled (exec memory write) rest

namespace Passes

variable {exec : σ → ω → σ} {good settled middle : σ → Prop} {memory : σ} {writes others : List ω}

theorem now (passes : Passes exec good settled memory writes) : good memory := by
  cases writes with
  | nil => exact passes.1
  | cons write rest => exact passes.1

/-- After waiting for the task the memory is settled. -/
theorem join (passes : Passes exec good settled memory writes) : settled (writes.foldl exec memory) := by
  induction writes generalizing memory with
  | nil => exact passes.2
  | cons write rest ih => exact ih passes.2

theorem append (first : Passes exec good middle memory writes)
    (second : middle (writes.foldl exec memory) → Passes exec good settled (writes.foldl exec memory) others) :
    Passes exec good settled memory (writes ++ others) := by
  induction writes generalizing memory with
  | nil => exact second first.2
  | cons write rest ih => exact ⟨first.1, ih first.2 second⟩

/-- Writes that each keep the memory settled, where settled memory is good. -/
theorem ofSettled (enough : ∀ memory, settled memory → good memory)
    (kept : ∀ memory, ∀ write ∈ writes, settled memory → settled (exec memory write))
    (start : settled memory) : Passes exec good settled memory writes := by
  induction writes generalizing memory with
  | nil => exact ⟨enough memory start, start⟩
  | cons write rest ih =>
    refine ⟨enough memory start, ih (fun memory other mem => ?_) (kept memory write (List.mem_cons_self ..) start)⟩
    exact kept memory other (List.mem_cons_of_mem _ mem)

end Passes

end FlashMemory
