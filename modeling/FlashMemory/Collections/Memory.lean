import FlashMemory.Collections.Scatter

/-! # Programs that set places of a memory

A program sets some places to given values if it does so whatever the memory holds, and leaves all other places as they
are. Programs that agree on the values set their places in any order.
-/

namespace FlashMemory

variable {ι β κ : Type*} {program next : (ι → β) → ι → β} {places morePlaces : ι → Prop} {value : ι → β}

def Sets (program : (ι → β) → ι → β) (places : ι → Prop) (value : ι → β) : Prop :=
  ∀ memory place, (places place → program memory place = value place) ∧
  (¬places place → program memory place = memory place)

namespace Sets

theorem of_iff (sets : Sets program places value) (same : ∀ place, places place ↔ morePlaces place) :
    Sets program morePlaces value := by
  intro memory place
  rw [← same place]
  exact sets memory place

theorem comp (sets : Sets program places value) (then' : Sets next morePlaces value) :
    Sets (fun memory => next (program memory)) (fun place => places place ∨ morePlaces place) value := by
  intro memory place
  have last := then' (program memory) place
  have first := sets memory place
  dsimp only
  by_cases again : morePlaces place
  · exact ⟨fun _ => last.1 again, fun neither => absurd (.inr again) neither⟩
  · rw [last.2 again]
    exact ⟨fun either => first.1 (either.resolve_right again), fun neither => first.2 fun here => neither (.inl here)⟩

theorem foldl {programs : κ → (ι → β) → ι → β} {places : κ → ι → Prop} {items : List κ}
    (each : ∀ item ∈ items, Sets (programs item) (places item) value) :
    Sets (fun memory => items.foldl (fun memory item => programs item memory) memory)
      (fun place => ∃ item ∈ items, places item place) value := by
  induction items with
  | nil => exact fun memory place => ⟨fun ⟨_, mem, _⟩ => absurd mem List.not_mem_nil, fun _ => rfl⟩
  | cons item items ih =>
    have first := each item List.mem_cons_self
    refine (first.comp (ih (List.forall_mem_cons.mp each).2)).of_iff fun place => ?_
    simp only [List.mem_cons, exists_eq_or_imp]

theorem scatter [DecidableEq ι] {items : List κ} {place : κ → ι} {content : κ → β}
    (agree : ∀ item ∈ items, content item = value (place item)) :
    Sets (fun memory => FlashMemory.scatter memory (items.map fun item => (place item, content item)))
      (fun index => ∃ item ∈ items, place item = index) value := by
  intro memory index
  rcases scatter_map_cases items place content memory index with ⟨item, mem, rfl, is⟩ | ⟨none, is⟩
  · exact ⟨fun _ => is.trans (agree item mem), fun outside => absurd ⟨item, mem, rfl⟩ outside⟩
  · exact ⟨fun ⟨item, mem, same⟩ => absurd same (none item mem), fun _ => is⟩

end Sets

end FlashMemory
