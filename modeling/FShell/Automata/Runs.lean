import Mathlib

/-!
# Runs of a step function

A step function takes a state and an input to the next state; a run feeds it
a list of inputs.  `AllSteps` says that a relation between state and input
holds at every step of a run.  Two such relations hold of the same runs as
soon as they agree step by step under an invariant, which only has to survive
the steps where they hold.
-/

namespace FShell

variable {σ ι : Type*} (step : σ → ι → σ)

/-- `P` holds at every step of the run from `s`. -/
def AllSteps (P : σ → ι → Prop) : σ → List ι → Prop
  | _, [] => True
  | s, i :: inputs => P s i ∧ AllSteps P (step s i) inputs

variable {step}

/-- **The run lemma.**  Under an invariant that the steps with `P` keep, a
run of `P` steps is a run of `Q` steps. -/
theorem AllSteps.mono_inv {P Q : σ → ι → Prop} (inv : σ → Prop)
    (hstep : ∀ s i, inv s → P s i → Q s i ∧ inv (step s i))
    {s : σ} {inputs : List ι} (hinv : inv s) (h : AllSteps step P s inputs) :
    AllSteps step Q s inputs := by
  induction inputs generalizing s with
  | nil => trivial
  | cons i inputs ih =>
      obtain ⟨hP, hrest⟩ := h
      obtain ⟨hQ, hnext⟩ := hstep s i hinv hP
      exact ⟨hQ, ih hnext hrest⟩

/-- Two relations that agree at every step hold of the same runs. -/
theorem AllSteps.iff_inv {P Q : σ → ι → Prop} (inv : σ → Prop)
    (hiff : ∀ s i, inv s → (P s i ↔ Q s i))
    (hstep : ∀ s i, inv s → P s i → inv (step s i))
    {s : σ} {inputs : List ι} (hinv : inv s) :
    AllSteps step P s inputs ↔ AllSteps step Q s inputs := by
  constructor
  · intro h
    exact h.mono_inv inv (fun s i hs hP => ⟨(hiff s i hs).mp hP, hstep s i hs hP⟩) hinv
  · intro h
    exact h.mono_inv inv
      (fun s i hs hQ => ⟨(hiff s i hs).mpr hQ, hstep s i hs ((hiff s i hs).mpr hQ)⟩) hinv

/-- Two relations at every step. -/
theorem allSteps_and {P Q : σ → ι → Prop} {s : σ} {inputs : List ι} :
    AllSteps step (fun s i => P s i ∧ Q s i) s inputs ↔
      AllSteps step P s inputs ∧ AllSteps step Q s inputs := by
  induction inputs generalizing s with
  | nil => simp only [AllSteps, and_self]
  | cons i inputs ih =>
      simp only [AllSteps, ih]
      exact and_and_and_comm

/-- A run of two parts. -/
theorem allSteps_append {P : σ → ι → Prop} {s : σ} {inputs more : List ι} :
    AllSteps step P s (inputs ++ more) ↔
      AllSteps step P s inputs ∧ AllSteps step P (inputs.foldl step s) more := by
  induction inputs generalizing s with
  | nil => simp [AllSteps]
  | cons i inputs ih =>
      rw [List.cons_append, List.foldl_cons]
      simp only [AllSteps, ih, and_assoc]

/-- A property of every step is one of the state after every prefix. -/
theorem allSteps_iff_prefix {P : σ → ι → Prop} {s : σ} {inputs : List ι} :
    AllSteps step P s inputs ↔
      ∀ done i rest, inputs = done ++ i :: rest → P (done.foldl step s) i := by
  constructor
  · intro h done i rest hsplit
    rw [hsplit, allSteps_append] at h
    exact h.2.1
  · intro h
    induction inputs generalizing s with
    | nil => trivial
    | cons i inputs ih =>
        refine ⟨h [] i inputs rfl, ih ?_⟩
        intro done j rest hsplit
        have hwhole : i :: inputs = (i :: done) ++ j :: rest := by rw [hsplit, List.cons_append]
        exact h (i :: done) j rest hwhole

end FShell
