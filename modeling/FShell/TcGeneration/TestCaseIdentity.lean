import FShell.TcGeneration.ConstraintStrengthening

/-!
# What identifies a test case

The literals of a test case serve twice: negated they keep the test cases of
earlier suites from coming back, and as assumptions they let the SAT coverage
analysis look for other goals of the same input.  Both want the bits of the
program symbols only.  The filter for the internal symbols compares the first
twelve characters of a name with a prefix of nine, so it drops a symbol of
just this name and no other.

When no other internal symbol has a bit, the literals are those of the
program and a new test case differs from every earlier one in a bit of the
program.  The analysis looks for assignments that satisfy no covered goal, so
it finds every open goal that some assignment with the same program bits has
to itself.
-/

namespace FShell

/-- The prefix of the names that FShell makes up. -/
def internalPrefix : List Char := "$fshell2$".toList

/-- The symbol is one of FShell's own. -/
def IsInternal (name : String) : Prop := internalPrefix <+: name.toList

instance (name : String) : Decidable (IsInternal name) :=
  inferInstanceAs (Decidable (internalPrefix <+: name.toList))

namespace GenerationEnv

variable (env : GenerationEnv)

/-- The literals, true under `v`, of the variables of a symbol. -/
def bitLiterals (v : Assignment) (bits : List Literal) : List Literal :=
  bits.filterMap fun l =>
    match l with
    | .const _ => none
    | .var varNo _ => some (.var varNo !v varNo)

/-- The literals of the program symbols: what `get_test_case_literals` is for. -/
def programLiterals (v : Assignment) : List Literal :=
  (env.symbols.filter fun entry => ¬ IsInternal entry.1).flatMap
    fun entry => bitLiterals v entry.2

/-- All bits of program symbols have the same values. -/
def SameInput (v w : Assignment) : Prop :=
  ∀ entry ∈ env.symbols, ¬ IsInternal entry.1 → ∀ l ∈ entry.2, l.eval v = l.eval w

theorem SameInput.trans {u v w : Assignment} (huv : env.SameInput u v)
    (hvw : env.SameInput v w) : env.SameInput u w := by
  intro entry hentry hprogram l hl
  exact (huv entry hentry hprogram l hl).trans (hvw entry hentry hprogram l hl)

/-- No internal symbol has a variable, except for a symbol of just the name
of the prefix. -/
def NoInternalBits : Prop :=
  ∀ entry ∈ env.symbols, IsInternal entry.1 → entry.1.toList ≠ internalPrefix →
    ∀ l ∈ entry.2, l.isConstant = true

/-- The literals of the program are true exactly under the same input. -/
theorem programLiterals_true_iff {v w : Assignment} :
    (∀ l ∈ env.programLiterals v, l.eval w = true) ↔ env.SameInput v w := by
  simp only [programLiterals, List.forall_mem_flatMap, List.mem_filter, decide_eq_true_iff,
    SameInput, and_imp]
  refine forall₃_congr fun entry _ _ => ?_
  constructor
  · intro h l hl
    cases l with
    | const value => rfl
    | var varNo sign =>
        have htrue := h (.var varNo !v varNo) (List.mem_filterMap.mpr ⟨_, hl, rfl⟩)
        simp only [Literal.eval] at htrue ⊢
        cases hv : v varNo <;> cases hw : w varNo <;> simp [hv, hw] at htrue ⊢
  · intro h l hl
    obtain ⟨m, hm, hsome⟩ := List.mem_filterMap.mp hl
    cases m with
    | const value => cases hsome
    | var varNo sign =>
        cases hsome
        have heq := h _ hm
        simp only [Literal.eval] at heq ⊢
        cases hv : v varNo <;> cases hw : w varNo <;> cases sign <;> simp [hv, hw] at heq ⊢

end GenerationEnv

/-! ## Earlier test cases -/

section Earlier

variable (env : GenerationEnv)

theorem foldl_lcnf_models (clause : TestCase → List Literal) (tcs : List TestCase) {c : Cnf}
    {w : Assignment} :
    (tcs.foldl (fun c tc => c.lcnf (clause tc)) c).Models w ↔
      c.Models w ∧ ∀ tc ∈ tcs, clauseTrue w (clause tc) = true := by
  induction tcs generalizing c with
  | nil => simp
  | cons tc tcs ih => rw [List.foldl_cons, ih, Cnf.lcnf_models, List.forall_mem_cons, and_assoc]

/-- A negated test case holds where some of its literals is false. -/
theorem clauseTrue_map_neg {w : Assignment} {lits : List Literal} :
    clauseTrue w (lits.map Literal.neg) = true ↔ ¬ ∀ l ∈ lits, l.eval w = true := by
  simp [clauseTrue]

variable {env}

/-- With literals of the program, the clauses at the start keep away the
inputs of the earlier suites. -/
theorem startCnf_models_iff (h : ∀ v, env.testCaseLiterals v = env.programLiterals v)
    {w : Assignment} :
    env.startCnf.Models w ↔
      env.cnf.Models w ∧ ∀ tc ∈ env.prevTcs, ¬ env.SameInput tc.assignment w := by
  rw [GenerationEnv.startCnf, foldl_lcnf_models]
  simp only [clauseTrue_map_neg, h, env.programLiterals_true_iff]

/-- Inputs that are the same are kept away alike. -/
theorem startCnf_models_of_sameInput (h : ∀ v, env.testCaseLiterals v = env.programLiterals v)
    {v w : Assignment} (hv : env.startCnf.Models v) (hvw : env.SameInput v w)
    (hw : env.cnf.Models w) : env.startCnf.Models w := by
  rw [startCnf_models_iff h] at hv ⊢
  refine ⟨hw, fun tc htc hsame => hv.2 tc htc ?_⟩
  intro entry hentry hprogram l hl
  exact (hsame entry hentry hprogram l hl).trans (hvw entry hentry hprogram l hl).symm

end Earlier

/-! ## Runs of the generation -/

section Runs

variable (env : GenerationEnv)

/-- The variables before the outer loop. -/
def Generation.start : Generation :=
  { unsatGoals := List.range env.goals.length
    tcs := []
    minisat := env.startCnf.copyTo
    coverageCl := []
    calls := 0 }

/-- The states in which the outer loop calls the solver, with the one that it
leaves. -/
inductive GenerationRun (rounds : Nat) : Generation → Prop where
  | start : GenerationRun rounds (Generation.start env)
  | step {st : Generation} {v : Assignment} {cov : Coverage} (hrun : GenerationRun rounds st)
      (hsolve : env.solver.solve st.calls st.minisat [] = some v)
      (hcover : coverTestCase env rounds v st = some cov) :
      GenerationRun rounds (st.pushTestCase v cov)

/-- What both loops keep: the solver knows the clauses of the start, and the
clauses for covered goals are those of goals that are no longer open. -/
structure KeepsOpen (unsatGoals : List Nat) (minisat : Cnf) (coverageCl : List (List Literal)) :
    Prop where
  minisat : ∀ w, minisat.Models w → env.startCnf.Models w
  coverage : ∀ cl ∈ coverageCl,
    ∃ id < env.goals.length, id ∉ unsatGoals ∧ cl = env.blocking id
  range : ∀ id ∈ unsatGoals, id < env.goals.length

/-- The members of `find_sat_test_goals`, whatever was there before. -/
theorem foldl_findGoal_mem (hasInternalCheck : Bool) (v : Assignment) (ids : List Nat)
    (found : Found) :
    let out := ids.foldl (findGoal env hasInternalCheck v) found
    out.unsatGoals = found.unsatGoals ++ ids.filter (fun id => !env.satisfies v id) ∧
      out.moreClauses = found.moreClauses ++ (ids.filter (env.satisfies v)).map env.blocking ∧
      ∀ id, id ∈ out.tgsDone ↔ id ∈ found.tgsDone ∨ id ∈ ids ∧ env.satisfies v id = true := by
  induction ids generalizing found with
  | nil => simp
  | cons id ids ih =>
      obtain ⟨hunsat, hmore, hdone⟩ := ih (findGoal env hasInternalCheck v found id)
      simp only [List.foldl_cons]
      rw [hunsat, hmore]
      cases hsat : env.satisfies v id with
      | true =>
          have hfind : findGoal env hasInternalCheck v found id =
              { cnt := found.cnt + 1
                unsatGoals := found.unsatGoals
                tgs := if hasInternalCheck then found.tgs.erase id else found.tgs
                tgsDone := insertId id found.tgsDone
                moreClauses := found.moreClauses ++ [env.blocking id] } := by
            rw [findGoal, if_pos hsat]
          rw [hfind] at hdone ⊢
          refine ⟨by simp [hsat], by simp [hsat], ?_⟩
          intro k
          rw [hdone k, mem_insertId, List.mem_cons]
          constructor
          · intro h
            rcases h with (rfl | h) | h
            · exact .inr ⟨.inl rfl, hsat⟩
            · exact .inl h
            · exact .inr ⟨.inr h.1, h.2⟩
          · intro h
            rcases h with h | ⟨rfl | h, hk⟩
            · exact .inl (.inr h)
            · exact .inl (.inl rfl)
            · exact .inr ⟨h, hk⟩
      | false =>
          have hfind : findGoal env hasInternalCheck v found id =
              { found with unsatGoals := found.unsatGoals ++ [id] } := by
            rw [findGoal, if_neg (by simp [hsat])]
          rw [hfind] at hdone ⊢
          refine ⟨by simp [hsat], by simp [hsat], ?_⟩
          intro k
          rw [hdone k, List.mem_cons]
          constructor
          · intro h
            rcases h with h | h
            · exact .inl h
            · exact .inr ⟨.inr h.1, h.2⟩
          · intro h
            rcases h with h | ⟨rfl | h, hk⟩
            · exact .inl h
            · rw [hsat] at hk
              cases hk
            · exact .inr ⟨h, hk⟩

theorem findSatTestGoals_mem (hasInternalCheck : Bool) (v : Assignment)
    (unsatGoals tgs tgsDone : List Nat) :
    let out := findSatTestGoals env hasInternalCheck v unsatGoals tgs tgsDone
    out.unsatGoals = unsatGoals.filter (fun id => !env.satisfies v id) ∧
      out.moreClauses = (unsatGoals.filter (env.satisfies v)).map env.blocking ∧
      ∀ id, id ∈ out.tgsDone ↔ id ∈ tgsDone ∨ id ∈ unsatGoals ∧ env.satisfies v id = true := by
  have hfold := foldl_findGoal_mem env hasInternalCheck v unsatGoals ⟨0, [], tgs, tgsDone, []⟩
  simp only [List.nil_append] at hfold
  exact hfold

variable {env}

/-- From `st` to `out` of an analysis: a goal that was open is open or done,
and what was done stays done. -/
structure Attributes (st out : Coverage) : Prop where
  unsat : ∀ id ∈ st.unsatGoals, id ∈ out.unsatGoals ∨ id ∈ out.done
  done : ∀ id ∈ st.done, id ∈ out.done

theorem Attributes.trans {st mid out : Coverage} (h : Attributes st mid)
    (h' : Attributes mid out) : Attributes st out where
  unsat := by
    intro id hid
    rcases h.unsat id hid with hid | hid
    · exact h'.unsat id hid
    · exact .inr (h'.done id hid)
  done := fun id hid => h'.done id (h.done id hid)

/-- One assignment. -/
theorem KeepsOpen.absorb {st : Coverage}
    (h : KeepsOpen env st.unsatGoals st.minisat st.coverageCl) (hasInternalCheck : Bool)
    (v : Assignment) :
    let next := st.absorb
      (findSatTestGoals env hasInternalCheck v st.unsatGoals st.testGoalSet st.done)
    KeepsOpen env next.unsatGoals next.minisat next.coverageCl ∧ Attributes st next := by
  obtain ⟨hunsat, hmore, hdone⟩ :=
    findSatTestGoals_mem env hasInternalCheck v st.unsatGoals st.testGoalSet st.done
  simp only [Coverage.absorb]
  rw [hunsat, hmore]
  refine ⟨⟨?_, ?_, ?_⟩, ?_, ?_⟩
  · intro w hw
    exact h.minisat w (Cnf.lcnfAll_models.mp hw).1
  · intro cl hcl
    rcases List.mem_append.mp hcl with hcl | hcl
    · obtain ⟨id, hlt, hclosed, rfl⟩ := h.coverage cl hcl
      exact ⟨id, hlt, fun hid => hclosed (List.mem_filter.mp hid).1, rfl⟩
    · obtain ⟨id, hid, rfl⟩ := List.mem_map.mp hcl
      obtain ⟨hopen, hsat⟩ := List.mem_filter.mp hid
      exact ⟨id, h.range id hopen, by simp [hsat], rfl⟩
  · intro id hid
    exact h.range id (List.mem_filter.mp hid).1
  · intro id hid
    cases hsat : env.satisfies v id with
    | true => exact .inr ((hdone id).mpr (.inr ⟨hid, hsat⟩))
    | false => exact .inl (List.mem_filter.mpr ⟨hid, by simp [hsat]⟩)
  · intro id hid
    exact (hdone id).mpr (.inl hid)

/-- The formula of the analysis: the clauses of the start and those for the
covered goals. -/
def Analyses (env : GenerationEnv) (st : Coverage) : Prop :=
  ∀ w, env.startCnf.Models w → (∀ cl ∈ st.coverageCl, clauseTrue w cl = true) →
    st.tmpMinisat.Models w

theorem Analyses.absorb {st : Coverage} (h : Analyses env st) (found : Found) :
    Analyses env (st.absorb found) := by
  intro w hw hcl
  simp only [Coverage.absorb, List.forall_mem_append] at hcl ⊢
  exact Cnf.lcnfAll_models.mpr ⟨h w hw hcl.1, hcl.2⟩

/-- **The inner loop** leaves a goal open only if no assignment with the fixed
literals satisfies it and all clauses for covered goals. -/
theorem coverageLoop_attributes (hasInternalCheck : Bool) (fixedLiterals : List Literal)
    {fuel : Nat} {st out : Coverage} (h : KeepsOpen env st.unsatGoals st.minisat st.coverageCl)
    (htmp : Analyses env st)
    (hout : coverageLoop env hasInternalCheck fixedLiterals fuel st = some out) :
    KeepsOpen env out.unsatGoals out.minisat out.coverageCl ∧ Attributes st out ∧
      (out.unsatGoals ≠ [] → ∀ w, env.startCnf.Models w →
        (∀ cl ∈ out.coverageCl, clauseTrue w cl = true) →
        ∃ l ∈ fixedLiterals, l.eval w = false) := by
  induction fuel generalizing st with
  | zero => cases hout
  | succ fuel ih =>
      rw [coverageLoop] at hout
      by_cases hnone : st.unsatGoals = []
      · rw [if_pos hnone] at hout
        cases hout
        exact ⟨h, ⟨fun _ => .inl, fun _ => id⟩, fun hne => absurd hnone hne⟩
      · rw [if_neg hnone] at hout
        cases hsolve : env.solver.solve st.calls st.tmpMinisat fixedLiterals with
        | none =>
            rw [hsolve] at hout
            cases hout
            refine ⟨h, ⟨fun _ => .inl, fun _ => id⟩, ?_⟩
            intro _ w hw hcl
            exact env.solver.complete _ _ _ hsolve w (htmp w hw hcl)
        | some v =>
            rw [hsolve] at hout
            obtain ⟨hkeeps, hattributes⟩ := h.absorb hasInternalCheck v
            let next : Coverage :=
              { st.absorb (findSatTestGoals env hasInternalCheck v st.unsatGoals
                  st.testGoalSet st.done) with calls := st.calls + 1 }
            have htmp' : Analyses env next := htmp.absorb _
            obtain ⟨hkeepsOut, hattributesOut, hlast⟩ := @ih next hkeeps htmp' hout
            refine ⟨hkeepsOut, hattributes.trans ?_, hlast⟩
            exact ⟨hattributesOut.unsat, hattributesOut.done⟩

/-- The internal check erases goals that it reports, and with the SAT check
behind it none. -/
theorem internalGoal_keepsOpen {st : Coverage}
    (h : KeepsOpen env st.unsatGoals st.minisat st.coverageCl) (id : Nat) :
    let next := internalGoal env st id
    KeepsOpen env next.unsatGoals next.minisat next.coverageCl ∧
      (env.satCoverageCheck = true → next.unsatGoals = st.unsatGoals) := by
  simp only [internalGoal]
  split
  · split
    · exact ⟨h, fun _ => rfl⟩
    · rename_i hsat
      refine ⟨⟨?_, ?_, ?_⟩, fun htrue => absurd htrue hsat⟩
      · intro w hw
        exact h.minisat w (Cnf.lcnf_models.mp hw).1
      · intro cl hcl
        obtain ⟨id', hlt, hclosed, rfl⟩ := h.coverage cl hcl
        exact ⟨id', hlt, fun hid => hclosed (List.mem_of_mem_erase hid), rfl⟩
      · intro id' hid
        exact h.range id' (List.mem_of_mem_erase hid)
  · exact ⟨h, fun _ => rfl⟩

theorem internalCoverage_keepsOpen {st : Coverage}
    (h : KeepsOpen env st.unsatGoals st.minisat st.coverageCl) (v : Assignment) :
    let next := (internalCoverage env v st).2
    KeepsOpen env next.unsatGoals next.minisat next.coverageCl ∧
      (env.satCoverageCheck = true → next.unsatGoals = st.unsatGoals) := by
  simp only [internalCoverage]
  split
  · split
    · exact ⟨h, fun _ => rfl⟩
    · rename_i ids _
      have hfold : ∀ (ids : List Nat) (st : Coverage),
          KeepsOpen env st.unsatGoals st.minisat st.coverageCl →
          KeepsOpen env (ids.foldl (internalGoal env) st).unsatGoals
              (ids.foldl (internalGoal env) st).minisat
              (ids.foldl (internalGoal env) st).coverageCl ∧
            (env.satCoverageCheck = true →
              (ids.foldl (internalGoal env) st).unsatGoals = st.unsatGoals) := by
        intro ids
        induction ids with
        | nil => exact fun st h => ⟨h, fun _ => rfl⟩
        | cons id ids ih =>
            intro st h
            obtain ⟨hnext, hsame⟩ := internalGoal_keepsOpen h id
            obtain ⟨hrest, hsameRest⟩ := ih _ hnext
            exact ⟨hrest, fun hsat => (hsameRest hsat).trans (hsame hsat)⟩
      exact hfold ids { st with done := ids } h
  · exact ⟨h, fun _ => rfl⟩

/-- **The SAT coverage analysis** of a test case: every open goal is done or
out of reach of the literals of the test case. -/
theorem satCoverage_attributes (hasInternalCheck : Bool) {v : Assignment} {fuel : Nat}
    {st out : Coverage} (h : KeepsOpen env st.unsatGoals st.minisat st.coverageCl)
    (hout : satCoverage env hasInternalCheck v fuel st = some out) :
    KeepsOpen env out.unsatGoals out.minisat out.coverageCl ∧ Attributes st out ∧
      (out.unsatGoals ≠ [] → ∀ w, env.startCnf.Models w →
        (∀ cl ∈ out.coverageCl, clauseTrue w cl = true) →
        ∃ l ∈ env.testCaseLiterals v, l.eval w = false) := by
  obtain ⟨hkeeps, hattributes⟩ := h.absorb hasInternalCheck v
  let first : Coverage :=
    st.absorb (findSatTestGoals env hasInternalCheck v st.unsatGoals st.testGoalSet st.done)
  let next : Coverage :=
    { first with tmpMinisat := env.startCnf.copyTo.lcnfAll first.coverageCl }
  have htmp : Analyses env next := by
    intro w hw hcl
    exact Cnf.lcnfAll_models.mpr ⟨Cnf.copyTo_models.mpr hw, hcl⟩
  obtain ⟨hkeepsOut, hattributesOut, hlast⟩ :=
    @coverageLoop_attributes env hasInternalCheck (env.testCaseLiterals v) fuel next out hkeeps
      htmp hout
  exact ⟨hkeepsOut, hattributes.trans ⟨hattributesOut.unsat, hattributesOut.done⟩, hlast⟩

theorem coverTestCase_attributes {rounds : Nat} {v : Assignment} {st : Generation}
    {cov : Coverage} (h : KeepsOpen env st.unsatGoals st.minisat st.coverageCl)
    (hcover : coverTestCase env rounds v st = some cov) :
    KeepsOpen env cov.unsatGoals cov.minisat cov.coverageCl ∧
      (env.satCoverageCheck = true →
        (∀ id ∈ st.unsatGoals, id ∈ cov.unsatGoals ∨ id ∈ cov.done) ∧
        (cov.unsatGoals ≠ [] → ∀ w, env.startCnf.Models w →
          (∀ cl ∈ cov.coverageCl, clauseTrue w cl = true) →
          ∃ l ∈ env.testCaseLiterals v, l.eval w = false)) := by
  have hnew : KeepsOpen env st.newTestCase.unsatGoals st.newTestCase.minisat
      st.newTestCase.coverageCl := h
  obtain ⟨hinternal, hsame⟩ := internalCoverage_keepsOpen hnew v
  simp only [coverTestCase] at hcover
  split at hcover
  · rename_i hsat
    obtain ⟨hkeeps, hattributes, hlast⟩ := satCoverage_attributes _ hinternal hcover
    refine ⟨hkeeps, fun _ => ⟨?_, hlast⟩⟩
    intro id hid
    refine hattributes.unsat id ?_
    rw [hsame hsat]
    exact hid
  · rename_i hsat
    cases hcover
    exact ⟨hinternal, fun htrue => absurd htrue hsat⟩

/-- The invariant of the runs. -/
theorem GenerationRun.keepsOpen {rounds : Nat} {st : Generation}
    (h : GenerationRun env rounds st) :
    KeepsOpen env st.unsatGoals st.minisat st.coverageCl ∧
      ∀ tc ∈ st.tcs, env.startCnf.Models tc.assignment := by
  induction h with
  | start =>
      refine ⟨⟨?_, ?_, ?_⟩, ?_⟩
      · intro w hw
        exact Cnf.copyTo_models.mp hw
      · intro cl hcl
        cases hcl
      · intro id hid
        exact List.mem_range.mp hid
      · intro tc htc
        cases htc
  | step hrun hsolve hcover ih =>
      obtain ⟨hkeeps, htcs⟩ := ih
      refine ⟨(coverTestCase_attributes hkeeps hcover).1, ?_⟩
      intro tc htc
      rcases List.mem_append.mp htc with htc | htc
      · exact htcs tc htc
      · rw [List.mem_singleton.mp htc]
        exact hkeeps.minisat _ (env.solver.sound _ _ _ _ hsolve).1

/-- The SAT coverage analysis attributes an open goal that an assignment with
the same input has to itself: no clause for a covered goal excludes it. -/
theorem GenerationRun.attributes {rounds : Nat} {st : Generation} {v w : Assignment}
    {cov : Coverage} {id : Nat} (hrun : GenerationRun env rounds st)
    (hliterals : ∀ v, env.testCaseLiterals v = env.programLiterals v)
    (hsat : env.satCoverageCheck = true)
    (hsolve : env.solver.solve st.calls st.minisat [] = some v)
    (hcover : coverTestCase env rounds v st = some cov) (hid : id ∈ st.unsatGoals)
    (hw : env.cnf.Models w) (hsame : env.SameInput v w)
    (honly : ∀ other < env.goals.length, env.satisfies w other = true → other = id) :
    id ∈ cov.done := by
  obtain ⟨hkeepsSt, -⟩ := hrun.keepsOpen
  obtain ⟨hkeeps, hrest⟩ := coverTestCase_attributes hkeepsSt hcover
  obtain ⟨hattributes, hlast⟩ := hrest hsat
  rcases hattributes id hid with hopen | hdone
  · exfalso
    have hv := hkeepsSt.minisat v (env.solver.sound _ _ _ _ hsolve).1
    have hstart := startCnf_models_of_sameInput hliterals hv hsame hw
    -- the assignment satisfies no covered goal
    have hclauses : ∀ cl ∈ cov.coverageCl, clauseTrue w cl = true := by
      intro cl hcl
      obtain ⟨other, hlt, hclosed, rfl⟩ := hkeeps.coverage cl hcl
      rw [clauseTrue_blocking]
      by_contra htrue
      have heq := honly other hlt (Bool.eq_true_of_not_eq_false htrue)
      exact hclosed (heq ▸ hopen)
    obtain ⟨l, hl, hfalse⟩ := hlast (List.ne_nil_of_mem hopen) w hstart hclauses
    rw [hliterals] at hl
    have htrue := (env.programLiterals_true_iff.mpr hsame) l hl
    exact Bool.false_ne_true (hfalse.symm.trans htrue)
  · exact hdone

end Runs

/-! ## The identity of test cases -/

/-- A test case is identified by the program symbols only. -/
structure IdentifiedByProgram (env : GenerationEnv) : Prop where
  /-- The literals of a test case are those of the program symbols. -/
  literals : ∀ v, env.testCaseLiterals v = env.programLiterals v
  /-- A new test case differs from every earlier one in a bit of the program. -/
  differs : ∀ rounds out, generate env rounds = some out →
    ∀ tc ∈ out.tcs, ∀ prev ∈ env.prevTcs,
      ∃ entry ∈ env.symbols, ¬ IsInternal entry.1 ∧
        ∃ l ∈ entry.2, l.eval prev.assignment ≠ l.eval tc.assignment
  /-- The SAT coverage analysis attributes to a test case every open goal that
  an assignment with the same program bits satisfies. -/
  attributes : env.satCoverageCheck = true → ∀ rounds st v cov,
    GenerationRun env rounds st → env.solver.solve st.calls st.minisat [] = some v →
    coverTestCase env rounds v st = some cov →
    ∀ id ∈ st.unsatGoals, ∀ w, env.cnf.Models w → env.SameInput v w →
      env.satisfies w id = true → id ∈ cov.done

/-- One input, and a goal that is never satisfied without the other. -/
def sharedGoal : GenerationEnv where
  cnf := Cnf.lcnf ⟨3, []⟩ [.var 1 false]
  goals := [[.var 1 false], [.var 1 false, .var 2 false]]
  symbols := [("main::a", [.var 1 false])]
  satCoverageCheck := true
  internalCoverageCheck := false
  getSatisfiedTestGoals := fun _ => none
  limit := 0
  prevTcs := []
  solver := searchSolver

/-- The other condition matters too: the solver may cover the first goal, and
its clause then hides the second. -/
theorem sharedGoal_stays_open :
    sharedGoal.NoInternalBits ∧ ¬ IdentifiedByProgram sharedGoal := by
  constructor
  · intro entry hentry hinternal
    rw [List.mem_singleton.mp hentry] at hinternal
    exact absurd hinternal (by decide)
  · intro h
    have hdone : ((sharedGoal.solver.solve 0 (Generation.start sharedGoal).minisat []).bind
        fun v => (coverTestCase sharedGoal 4 v (Generation.start sharedGoal)).map
          Coverage.done) = some [0] := by decide
    obtain ⟨v, hsolve, hrest⟩ := Option.bind_eq_some_iff.mp hdone
    obtain ⟨cov, hcover, hcov⟩ := Option.map_eq_some_iff.mp hrest
    have hv := (sharedGoal.solver.sound _ _ _ _ hsolve).1
    have hgoal := h.attributes rfl 4 _ v cov GenerationRun.start hsolve hcover 1
      (by decide) (fun _ => true) ?_ ?_ (by decide)
    · rw [hcov] at hgoal
      exact absurd hgoal (by decide)
    · intro cl hcl
      rw [List.mem_singleton.mp hcl]
      rfl
    · intro entry hentry _ l hl
      have htrue := hv [.var 1 false] (List.mem_singleton.mpr rfl)
      rw [List.mem_singleton.mp hentry] at hl
      rw [List.mem_singleton.mp hl]
      simpa [clauseTrue, Literal.eval] using htrue

end FShell
