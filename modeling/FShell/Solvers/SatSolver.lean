import FShell.Solvers.Cnf

/-!
# Solvers

A solver answers a clause set under assumptions with a model or with none.
Which model it finds is its own choice and may change from call to call.
-/

namespace FShell

/-- `prop_solve` of a sound and complete solver; the first argument counts
the calls. -/
structure SatSolver where
  solve : Nat → Cnf → List Literal → Option Assignment
  sound : ∀ call c assumptions v, solve call c assumptions = some v →
    c.Models v ∧ ∀ l ∈ assumptions, l.eval v = true
  complete : ∀ call c assumptions, solve call c assumptions = none →
    ∀ v, c.Models v → ∃ l ∈ assumptions, l.eval v = false

namespace Cnf

instance (c : Cnf) (v : Assignment) : Decidable (c.Models v) :=
  inferInstanceAs (Decidable (∀ clause ∈ c.clauses, clauseTrue v clause = true))

/-- `copy_to`: a solver with the same clauses. -/
def copyTo (c : Cnf) : Cnf := (Cnf.mk c.noVariables []).lcnfAll c.clauses

@[simp] theorem copyTo_models {c : Cnf} {v : Assignment} : c.copyTo.Models v ↔ c.Models v := by
  rw [copyTo, lcnfAll_models]
  simp [Models]

end Cnf

/-! ## Search through all assignments -/

/-- One more than the variable of the literal. -/
def Literal.bound : Literal → Nat
  | const _ => 0
  | var varNo _ => varNo + 1

/-- The variables that literals mention are below it. -/
def literalsBound (lits : List Literal) : Nat := (lits.map Literal.bound).foldr max 0

/-- The assignments that are false from `n` on. -/
def assignmentsBelow : Nat → List Assignment
  | 0 => [fun _ => false]
  | n + 1 => (assignmentsBelow n).flatMap fun v => [v, Function.update v n true]

theorem Literal.below_literalsBound {lits : List Literal} {l : Literal} (hl : l ∈ lits) :
    l.Below (literalsBound lits) := by
  induction lits with
  | nil => cases hl
  | cons m rest ih =>
      have hbound : literalsBound (m :: rest) = max m.bound (literalsBound rest) := rfl
      rw [hbound]
      rcases List.mem_cons.mp hl with rfl | hl
      · cases l with
        | const value => trivial
        | var varNo sign => exact Nat.lt_of_lt_of_le (Nat.lt_succ_self _) (Nat.le_max_left _ _)
      · exact (ih hl).mono (Nat.le_max_right _ _)

/-- Every assignment agrees with one of them. -/
theorem exists_mem_assignmentsBelow (n : Nat) (v : Assignment) :
    ∃ w ∈ assignmentsBelow n, AgreeBelow n v w ∧ ∀ k, n ≤ k → w k = false := by
  induction n with
  | zero =>
      refine ⟨fun _ => false, List.mem_cons_self, ?_, fun _ _ => rfl⟩
      intro k hk
      cases hk
  | succ n ih =>
      obtain ⟨w, hw, hagree, hrest⟩ := ih
      cases hv : v n with
      | false =>
          refine ⟨w, List.mem_flatMap.mpr ⟨w, hw, by simp⟩, ?_, ?_⟩
          · intro k hk
            rcases Nat.lt_succ_iff_lt_or_eq.mp hk with hk | rfl
            · exact hagree k hk
            · rw [hv, hrest k (Nat.le_refl _)]
          · intro k hk
            exact hrest k (by omega)
      | true =>
          refine ⟨Function.update w n true, List.mem_flatMap.mpr ⟨w, hw, by simp⟩, ?_, ?_⟩
          · intro k hk
            rcases Nat.lt_succ_iff_lt_or_eq.mp hk with hk | rfl
            · rw [Function.update_of_ne (by omega)]
              exact hagree k hk
            · rw [hv, Function.update_self]
          · intro k hk
            rw [Function.update_of_ne (by omega)]
            exact hrest k (by omega)

/-- The first model among all assignments of the variables in sight. -/
def searchModel (c : Cnf) (assumptions : List Literal) : Option Assignment :=
  (assignmentsBelow (literalsBound (c.clauses.flatten ++ assumptions))).find? fun v =>
    decide (c.Models v ∧ ∀ l ∈ assumptions, l.eval v = true)

/-- **Search is a solver**, so the assumptions on solvers can be met. -/
def searchSolver : SatSolver where
  solve _ c assumptions := searchModel c assumptions
  sound := by
    intro _ c assumptions v h
    rw [searchModel] at h
    have hfound := List.find?_some h
    exact of_decide_eq_true hfound
  complete := by
    intro _ c assumptions h v hv
    rw [searchModel] at h
    by_contra hassume
    obtain ⟨w, hw, hagree, -⟩ := exists_mem_assignmentsBelow
      (literalsBound (c.clauses.flatten ++ assumptions)) v
    have hbelow : ∀ l ∈ c.clauses.flatten ++ assumptions, l.eval v = l.eval w :=
      fun l hl => (Literal.below_literalsBound hl).eval_eq hagree
    apply of_decide_eq_false (Bool.eq_false_iff.mpr (List.find?_eq_none.mp h w hw))
    constructor
    · intro clause hclause
      obtain ⟨l, hl, htrue⟩ := clauseTrue_iff.mp (hv clause hclause)
      have heval := hbelow l (List.mem_append_left _ (List.mem_flatten.mpr ⟨clause, hclause, hl⟩))
      exact clauseTrue_iff.mpr ⟨l, hl, heval ▸ htrue⟩
    · intro l hl
      rw [← hbelow l (List.mem_append_right _ hl)]
      by_contra hfalse
      exact hassume ⟨l, hl, Bool.eq_false_iff.mpr hfalse⟩

end FShell
