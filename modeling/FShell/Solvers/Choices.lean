import FShell.Solvers.BvUtils

/-!
# Clauses that leave a choice

A clause set that grows by definitions and constraints may also leave numbers
to the solver, as bit vectors of fresh variables.  `Chooses` says what a piece
of such an encoding does: every model has vectors that denote numbers in the
relation `R`, and every model of the clauses before, with any numbers in that
relation, extends to a model after.

**Composition.**  What is chosen later may depend on what was chosen before;
the models of the whole are then those of the composed relation
(`Chooses.append`).
-/

namespace FShell

/-- Whether `P` holds of an assignment is decided by the first `n` variables. -/
def About {α : Type} (n : Nat) (P : Assignment → α → Prop) : Prop :=
  ∀ v w, AgreeBelow n v w → ∀ a, P v a → P w a

/-- More variables may be there. -/
theorem About.mono {α : Type} {n m : Nat} {P : Assignment → α → Prop} (hP : About n P)
    (hnm : n ≤ m) : About m P :=
  fun v w h => hP v w fun k hk => h k (Nat.lt_of_lt_of_le hk hnm)

/-- Agreement on fewer variables. -/
theorem AgreeBelow.mono {n m : Nat} {v w : Assignment} (h : AgreeBelow m v w) (hnm : n ≤ m) :
    AgreeBelow n v w :=
  fun k hk => h k (Nat.lt_of_lt_of_le hk hnm)

/-- A vector keeps its value where its variables do. -/
theorem bvValue_agree {n : Nat} {v w : Assignment} {bv : List Literal}
    (hbv : ∀ l ∈ bv, l.Below n) (h : AgreeBelow n v w) : bvValue v bv = bvValue w bv :=
  bvValue_congr fun l hl => (hbv l hl).eval_eq h

/-- The low bits of a number, as a vector. -/
theorem below_buildConstant {m k width : Nat} :
    ∀ l ∈ buildConstant k width, l.Below m := by
  induction width generalizing k with
  | zero => simp [buildConstant]
  | succ width ih =>
      intro l hl
      rcases List.mem_cons.mp hl with rfl | hl
      · trivial
      · exact ih l hl

/-- A constant has the width that is asked for. -/
@[simp] theorem length_buildConstant (n width : Nat) : (buildConstant n width).length = width := by
  induction width generalizing n with
  | zero => rfl
  | succ width ih => rw [buildConstant, List.length_cons, ih]

/-- A constant that fits has its value. -/
theorem bvValue_buildConstant {v : Assignment} {n width : Nat} (h : n < 2 ^ width) :
    bvValue v (buildConstant n width) = n := by
  induction width generalizing n with
  | zero =>
      rw [buildConstant, bvValue_nil]
      omega
  | succ width ih =>
      rw [Nat.pow_succ] at h
      have hhalf : n / 2 < 2 ^ width := by omega
      rw [buildConstant, bvValue_cons, ih hhalf, Literal.eval_const]
      by_cases hodd : n % 2 = 1
      · rw [decide_eq_true hodd, Bool.toNat_true]
        omega
      · rw [decide_eq_false hodd, Bool.toNat_false]
        omega

namespace Cnf

/-- The empty formula uses no variable. -/
theorem empty_bounded : empty.Bounded := by simp [Bounded, empty]

/-- Every assignment is a model of the empty formula. -/
theorem empty_models (v : Assignment) : empty.Models v := by simp [Models, empty]

/-- The vectors of `bvs` are chosen in the relation `R`, and nothing else is said. -/
structure Chooses (c : Cnf) (R : Assignment → List Nat → Prop) (bvs : List (List Literal))
    (d : Cnf) : Prop where
  le : c.noVariables ≤ d.noVariables
  bounded : c.Bounded → d.Bounded
  below : ∀ bv ∈ bvs, ∀ l ∈ bv, l.Below d.noVariables
  sound : ∀ v, d.Models v → c.Models v ∧ R v (bvs.map (bvValue v))
  complete : c.Bounded → ∀ v ns, c.Models v → R v ns →
    ∃ w, AgreeBelow c.noVariables v w ∧ d.Models w ∧ bvs.map (bvValue w) = ns

namespace Chooses

variable {c d e : Cnf} {R S : Assignment → List Nat → Prop} {bvs bvs' : List (List Literal)}

/-- Nothing is left to choose. -/
theorem nil (c : Cnf) : c.Chooses (fun _ ns => ns = []) [] c where
  le := Nat.le_refl _
  bounded := id
  below := by simp
  sound := fun _ h => ⟨h, rfl⟩
  complete := fun _ v _ hv hns => ⟨v, AgreeBelow.refl _ v, hv, hns.symm⟩

/-- A vector that is there already leaves no choice. -/
theorem again {bv : List Literal} (hbv : ∀ l ∈ bv, l.Below c.noVariables) :
    c.Chooses (fun v ns => ns = [bvValue v bv]) [bv] c where
  le := Nat.le_refl _
  bounded := id
  below := by simpa using hbv
  sound := fun _ h => ⟨h, rfl⟩
  complete := fun _ v _ hv hns => ⟨v, AgreeBelow.refl _ v, hv, hns.symm⟩

/-- Choices are the same for equivalent relations. -/
theorem congr (h : c.Chooses R bvs d) (hRS : ∀ v ns, R v ns ↔ S v ns) : c.Chooses S bvs d where
  le := h.le
  bounded := h.bounded
  below := h.below
  sound := fun v hv => ⟨(h.sound v hv).1, (hRS _ _).mp (h.sound v hv).2⟩
  complete := fun hc v ns hv hns => h.complete hc v ns hv ((hRS _ _).mpr hns)

/-- Definitions choose nothing. -/
theorem defines (h : c.Chooses R bvs d) (hde : Defines d e) : c.Chooses R bvs e where
  le := h.le.trans hde.le
  bounded := fun hc => hde.bounded (h.bounded hc)
  below := fun bv hbv l hl => (h.below bv hbv l hl).mono hde.le
  sound := fun v hv => h.sound v (hde.sound v hv)
  complete := by
    intro hc v ns hv hns
    obtain ⟨w, hvw, hw, rfl⟩ := h.complete hc v ns hv hns
    obtain ⟨u, hwu, hu⟩ := hde.complete (h.bounded hc) w hw
    refine ⟨u, hvw.trans hwu h.le, hu, ?_⟩
    apply List.map_congr_left
    intro bv hbv
    exact (bvValue_agree (h.below bv hbv) hwu).symm

/-- A unit clause constrains the choice. -/
theorem lcnf (h : c.Chooses R bvs d) {l : Literal} (hl : l.Below d.noVariables)
    (hS : About c.noVariables S)
    (heval : ∀ v, d.Models v → (l.eval v = true ↔ S v (bvs.map (bvValue v)))) :
    c.Chooses (fun v ns => R v ns ∧ S v ns) bvs (d.lcnf [l]) where
  le := by
    rw [lcnf_noVariables]
    exact h.le
  bounded := fun hc => lcnf_bounded (h.bounded hc) (by simpa using hl)
  below := by
    rw [lcnf_noVariables]
    exact h.below
  sound := by
    intro v hv
    obtain ⟨hd, hclause⟩ := lcnf_models.mp hv
    obtain ⟨m, hm, htrue⟩ := clauseTrue_iff.mp hclause
    cases List.mem_singleton.mp hm
    exact ⟨(h.sound v hd).1, (h.sound v hd).2, (heval v hd).mp htrue⟩
  complete := by
    intro hc v ns hv hns
    obtain ⟨w, hvw, hw, rfl⟩ := h.complete hc v ns hv hns.1
    refine ⟨w, hvw, lcnf_models.mpr ⟨hw, ?_⟩, rfl⟩
    exact clauseTrue_iff.mpr ⟨l, by simp, (heval w hw).mpr (hS v w hvw _ hns.2)⟩

/-- **One choice after another.** -/
theorem append {T : Assignment → List Nat × List Nat → Prop} (h : c.Chooses R bvs d)
    (h' : d.Chooses S bvs' e) (hT : About c.noVariables T)
    (hS : ∀ v, d.Models v → ∀ ns, S v ns ↔ T v (bvs.map (bvValue v), ns)) :
    c.Chooses (fun v ns => ∃ ns₁ ns₂, ns = ns₁ ++ ns₂ ∧ R v ns₁ ∧ T v (ns₁, ns₂))
      (bvs ++ bvs') e where
  le := h.le.trans h'.le
  bounded := fun hc => h'.bounded (h.bounded hc)
  below := by
    intro bv hbv l hl
    rcases List.mem_append.mp hbv with hbv | hbv
    · exact (h.below bv hbv l hl).mono h'.le
    · exact h'.below bv hbv l hl
  sound := by
    intro v hv
    obtain ⟨hd, hs⟩ := h'.sound v hv
    obtain ⟨hc, hr⟩ := h.sound v hd
    exact ⟨hc, _, _, List.map_append, hr, (hS v hd _).mp hs⟩
  complete := by
    intro hc v ns hv hns
    obtain ⟨ns₁, ns₂, rfl, hr, ht⟩ := hns
    obtain ⟨w, hvw, hw, rfl⟩ := h.complete hc v ns₁ hv hr
    obtain ⟨u, hwu, hu, rfl⟩ := h'.complete (h.bounded hc) w ns₂ hw
      ((hS w hw _).mpr (hT v w hvw _ ht))
    refine ⟨u, hvw.trans hwu h.le, hu, ?_⟩
    rw [List.map_append]
    congr 1
    apply List.map_congr_left
    intro bv hbv
    exact (bvValue_agree (h.below bv hbv) hwu).symm

end Chooses

/-! ## Fresh vectors -/

/-- A loop of `new_variable`. -/
def newVariables (c : Cnf) : Nat → List Literal × Cnf
  | 0 => ([], c)
  | width + 1 =>
      let (l, c) := c.newVariable
      let (bv, c) := newVariables c width
      (l :: bv, c)

/-- Variables bring no clause. -/
@[simp] theorem newVariables_clauses (c : Cnf) (width : Nat) :
    (c.newVariables width).2.clauses = c.clauses := by
  induction width generalizing c with
  | zero => rfl
  | succ width ih => exact ih c.newVariable.2

/-- There are `width` variables more. -/
@[simp] theorem newVariables_noVariables (c : Cnf) (width : Nat) :
    (c.newVariables width).2.noVariables = c.noVariables + width := by
  induction width generalizing c with
  | zero => rfl
  | succ width ih =>
      have hrest := ih c.newVariable.2
      simp only [newVariables, newVariable] at hrest ⊢
      omega

/-- There are as many literals as variables. -/
theorem newVariables_length (c : Cnf) (width : Nat) :
    (c.newVariables width).1.length = width := by
  induction width generalizing c with
  | zero => rfl
  | succ width ih => exact congrArg Nat.succ (ih c.newVariable.2)

/-- The literals are variables of the formula. -/
theorem newVariables_below (c : Cnf) (width : Nat) :
    ∀ l ∈ (c.newVariables width).1, l.Below (c.newVariables width).2.noVariables := by
  induction width generalizing c with
  | zero => simp [newVariables]
  | succ width ih =>
      intro l hl
      rcases List.mem_cons.mp hl with rfl | hl
      · rw [newVariables_noVariables]
        show c.noVariables < c.noVariables + (width + 1)
        omega
      · exact ih c.newVariable.2 l hl

/-- The fresh variables can have any value. -/
theorem exists_newVariables (c : Cnf) (width : Nat) (v : Assignment) {n : Nat}
    (hn : n < 2 ^ width) :
    ∃ w, AgreeBelow c.noVariables v w ∧ bvValue w (c.newVariables width).1 = n := by
  induction width generalizing c v n with
  | zero => exact ⟨v, AgreeBelow.refl _ v, by rw [newVariables, bvValue_nil]; omega⟩
  | succ width ih =>
      rw [Nat.pow_succ] at hn
      have hhalf : n / 2 < 2 ^ width := by omega
      obtain ⟨w, hvw, hvalue⟩ := ih c.newVariable.2
        (Function.update v c.noVariables (decide (n % 2 = 1))) hhalf
      refine ⟨w, (AgreeBelow.update _ v _).trans hvw (Nat.le_succ _), ?_⟩
      have hbit : w c.noVariables = decide (n % 2 = 1) := by
        rw [← hvw c.noVariables (Nat.lt_succ_self _), Function.update_self]
      simp only [newVariables, newVariable] at hvalue ⊢
      rw [bvValue_cons, Literal.eval_var, hbit, hvalue]
      by_cases hodd : n % 2 = 1
      · rw [decide_eq_true hodd, Bool.toNat_true]
        omega
      · rw [decide_eq_false hodd, Bool.toNat_false]
        omega

/-- Free variables may take any number of their width. -/
theorem newVariables_chooses (c : Cnf) (width : Nat) :
    c.Chooses (fun _ ns => ∃ n < 2 ^ width, ns = [n]) [(c.newVariables width).1]
      (c.newVariables width).2 where
  le := by
    rw [newVariables_noVariables]
    omega
  bounded := by
    intro hc clause hclause l hl
    rw [newVariables_clauses] at hclause
    rw [newVariables_noVariables]
    exact (hc clause hclause l hl).mono (by omega)
  below := by simpa using newVariables_below c width
  sound := by
    intro v hv
    have hlt := bvValue_lt v (c.newVariables width).1
    rw [newVariables_length] at hlt
    refine ⟨?_, _, hlt, rfl⟩
    rwa [Models, newVariables_clauses] at hv
  complete := by
    intro hc v ns hv hns
    obtain ⟨n, hn, rfl⟩ := hns
    obtain ⟨w, hvw, hvalue⟩ := exists_newVariables c width v hn
    refine ⟨w, hvw, ?_, by rw [List.map_singleton, hvalue]⟩
    rw [Models, newVariables_clauses]
    exact hc.models_congr hvw hv

end Cnf

end FShell
