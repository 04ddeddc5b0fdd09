import Mathlib.Tactic.SplitIfs

/-! # Calls that change a state and may raise

A call that raises keeps the changes it made before. `Ensures` states both outcomes: what holds of the result
and the state when the call returns, and what holds of the state when it raises. The rules below take a call
apart along its definition.
-/

namespace FlashMemory

variable {ε σ α β : Type} {call : EStateM ε σ α}

/-- `post` when the call returns, `fails` when it raises. -/
def Ensures (call : EStateM ε σ α) (state : σ) (post : α → σ → Prop) (fails : σ → Prop) : Prop :=
  match call state with
  | .ok result state' => post result state'
  | .error _ state' => fails state'

/-- `assert`: raise unless the condition holds. -/
def ensure (error : ε) (condition : Prop) [Decidable condition] : EStateM ε σ Unit :=
  if condition then pure () else throw error

variable {state : σ} {post : α → σ → Prop} {fails : σ → Prop}

@[simp] theorem ensures_bind {call : EStateM ε σ β} {next : β → EStateM ε σ α} :
    Ensures (call >>= next) state post fails ↔
      Ensures call state (fun result state' => Ensures (next result) state' post fails) fails := by
  simp only [Ensures, bind, EStateM.bind]
  cases call state <;> rfl

@[simp] theorem ensures_get {post : σ → σ → Prop} :
    Ensures (get : EStateM ε σ σ) state post fails ↔ post state state := Iff.rfl

@[simp] theorem ensures_set {state' : σ} {post : PUnit → σ → Prop} :
    Ensures (set state' : EStateM ε σ PUnit) state post fails ↔ post ⟨⟩ state' := Iff.rfl

@[simp] theorem ensures_modify {change : σ → σ} {post : PUnit → σ → Prop} :
    Ensures (modify change : EStateM ε σ PUnit) state post fails ↔ post ⟨⟩ (change state) := Iff.rfl

section

variable {error : ε} {condition : Prop} [Decidable condition]

theorem ensures_ensure {post : Unit → σ → Prop} :
    Ensures (ensure error condition) state post fails ↔ if condition then post () state else fails state := by
  unfold ensure
  split_ifs <;> rfl

/-- A condition that holds is no obstacle. -/
theorem ensures_ensure_of {post : Unit → σ → Prop}
    (holds : condition) : Ensures (ensure error condition) state post fails ↔ post () state := by
  rw [ensures_ensure, if_pos holds]

/-- Past a condition that may fail. -/
theorem ensures_ensure_bind {next : Unit → EStateM ε σ α}
    (holds : condition → Ensures (next ()) state post fails) (raises : ¬condition → fails state) :
    Ensures (ensure error condition >>= next) state post fails := by
  rw [ensures_bind, ensures_ensure]
  split_ifs with met
  · exact holds met
  · exact raises met

end

section

variable {post' : α → σ → Prop} {fails' : σ → Prop}

theorem Ensures.mono (ensured : Ensures call state post fails)
    (returns : ∀ result state', post result state' → post' result state')
    (raises : ∀ state', fails state' → fails' state') : Ensures call state post' fails' := by
  unfold Ensures at ensured ⊢
  cases outcome : call state with
  | ok result state' =>
    rw [outcome] at ensured
    exact returns result state' ensured
  | error _ state' =>
    rw [outcome] at ensured
    exact raises state' ensured

/-- What is shown separately holds together. -/
theorem Ensures.and (first : Ensures call state post fails)
    (second : Ensures call state post' fails') :
    Ensures call state (fun result state' => post result state' ∧ post' result state')
      (fun state' => fails state' ∧ fails' state') := by
  unfold Ensures at first second ⊢
  cases outcome : call state with
  | ok result state' =>
    rw [outcome] at first second
    exact ⟨first, second⟩
  | error _ state' =>
    rw [outcome] at first second
    exact ⟨first, second⟩

end

/-- What holds of either outcome holds of the call. -/
@[elab_as_elim]
theorem Ensures.elim {motive : EStateM.Result ε σ α → Prop} (ensured : Ensures call state post fails)
    (returns : ∀ result state', post result state' → motive (.ok result state'))
    (raises : ∀ error state', fails state' → motive (.error error state')) : motive (call state) := by
  unfold Ensures at ensured
  cases outcome : call state with
  | ok result state' =>
    rw [outcome] at ensured
    exact returns result state' ensured
  | error error state' =>
    rw [outcome] at ensured
    exact raises error state' ensured

/-- A call that cannot raise returns. -/
theorem Ensures.returns (ensured : Ensures call state post fun _ => False) :
    ∃ result state', call state = .ok result state' ∧ post result state' :=
  ensured.elim (fun result state' holds => ⟨result, state', rfl, holds⟩) fun _ _ => False.elim

end FlashMemory
