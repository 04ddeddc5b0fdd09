import Mathlib.Data.List.Basic

/-! # Invariants along the runs of a deterministic machine

A run feeds a list of inputs to a step function. `Along` asks a condition of every step, in the
state that the step starts from, so it states the assumptions under which a run is considered. An
invariant that each admitted step preserves holds at the end of every admitted run, and hence in
every state that the run passes through, since the prefixes of an admitted run are admitted.
-/

namespace FlashMemory

variable {σ ι : Type*}

def run (step : σ → ι → σ) (start : σ) (inputs : List ι) : σ := inputs.foldl step start

/-- `allowed` holds at every step of the run, in the state before the step. -/
def Along (step : σ → ι → σ) (allowed : σ → ι → Prop) : σ → List ι → Prop
  | _, [] => True
  | state, input :: rest => allowed state input ∧ Along step allowed (step state input) rest

variable {step : σ → ι → σ} {allowed : σ → ι → Prop}

instance Along.decidable [∀ state input, Decidable (allowed state input)] :
    ∀ (state : σ) (inputs : List ι), Decidable (Along step allowed state inputs)
  | _, [] => isTrue trivial
  | state, input :: rest =>
    @instDecidableAnd _ _ _ (Along.decidable (step state input) rest)

theorem run_append (start : σ) (first second : List ι) :
    run step start (first ++ second) = run step (run step start first) second :=
  List.foldl_append ..

theorem along_append {start : σ} {first second : List ι} :
    Along step allowed start (first ++ second) ↔
      Along step allowed start first ∧ Along step allowed (run step start first) second := by
  induction first generalizing start with
  | nil => simp [Along, run]
  | cons input rest ih =>
    simp only [List.cons_append, Along, ih, and_assoc]
    rfl

/-- A condition on the inputs alone holds along every run of admitted inputs. -/
theorem along_of_forall {admitted : ι → Prop} {start : σ} {inputs : List ι}
    (each : ∀ input ∈ inputs, admitted input) :
    Along step (fun _ input => admitted input) start inputs := by
  induction inputs generalizing start with
  | nil => trivial
  | cons input rest ih =>
    exact ⟨each input (List.mem_cons_self ..), ih fun other mem =>
      each other (List.mem_cons_of_mem _ mem)⟩

section

variable {other : σ → ι → Prop} {start : σ} {inputs : List ι}

theorem Along.mono (admitted : Along step allowed start inputs)
    (implies : ∀ state input, allowed state input → other state input) : Along step other start inputs := by
  induction inputs generalizing start with
  | nil => trivial
  | cons input rest ih => exact ⟨implies start input admitted.1, ih admitted.2⟩

theorem Along.and
    (first : Along step allowed start inputs) (second : Along step other start inputs) :
    Along step (fun state input => allowed state input ∧ other state input) start inputs := by
  induction inputs generalizing start with
  | nil => trivial
  | cons input rest ih => exact ⟨⟨first.1, second.1⟩, ih first.2 second.2⟩

end

section

variable {inv : σ → Prop} {start : σ} {inputs : List ι} (admitted : Along step allowed start inputs) (base : inv start)
  (preserved : ∀ state input, inv state → allowed state input → inv (step state input))

include admitted base preserved

/-- The induction rule for runs. -/
theorem Along.invariant : inv (run step start inputs) := by
  induction inputs generalizing start with
  | nil => exact base
  | cons input rest ih => exact ih admitted.2 (preserved start input base admitted.1)

/-- What an admitted step does in every state with the invariant, all steps of an admitted run do. -/
theorem Along.imp_of_invariant {other : σ → ι → Prop}
    (implies : ∀ state input, inv state → allowed state input → other state input) : Along step other start inputs := by
  induction inputs generalizing start with
  | nil => trivial
  | cons input rest ih =>
    exact ⟨implies start input base admitted.1, ih admitted.2 (preserved start input base admitted.1)⟩

end

end FlashMemory
