import FShell.Solvers.SatSolver

/-!
# Test-suite generation

`Constraint_Strengthening::generate` asks the solver for one test case after
another.  Each covers the goals that its assignment makes true and, by a
second solver that has the values of the program symbols as assumptions, the
goals of other assignments with the same program symbols.  The negated
conjunction of every covered goal goes to both solvers.

A goal id is an index of the id map.  The timers, the statistics and the
messages are left out.
-/

namespace FShell

/-- A member of `test_cases_t`: the goals of a test case and its assignment. -/
structure TestCase where
  goals : List Nat
  assignment : Assignment

/-- What `generate` reads: the clauses and the id map of `m_equation`, the
literals of its symbol map, the options, the internal coverage check, the
limit, the earlier suites and the solver. -/
structure GenerationEnv where
  cnf : Cnf
  goals : List (List Literal)
  symbols : List (String × List Literal)
  satCoverageCheck : Bool
  internalCoverageCheck : Bool
  getSatisfiedTestGoals : Assignment → Option (List Nat)
  limit : Nat
  prevTcs : List TestCase
  solver : SatSolver

namespace GenerationEnv

variable (env : GenerationEnv)

/-- `goals[id]`. -/
def goal (id : Nat) : List Literal := env.goals.getD id []

/-- The assignment makes all literals of the goal true. -/
def satisfies (v : Assignment) (id : Nat) : Bool := (env.goal id).all (Literal.eval v)

/-- The clause that excludes a covered goal. -/
def blocking (id : Nat) : List Literal := (env.goal id).map Literal.neg

/-- `get_test_case_literals`: the literals, true under `v`, of all variables
in the symbol map, unless the first twelve characters of a name are those
of the prefix. -/
def testCaseLiterals (v : Assignment) : List Literal :=
  (env.symbols.filter fun entry => entry.1.toList.take 12 ≠ "$fshell2$".toList).flatMap
    fun entry => entry.2.filterMap fun l =>
      match l with
      | .const _ => none
      | .var varNo _ => some (.var varNo !v varNo)

/-- The clauses with the earlier test cases excluded. -/
def startCnf : Cnf :=
  env.prevTcs.foldl
    (fun c tc => c.lcnf ((env.testCaseLiterals tc.assignment).map Literal.neg)) env.cnf

end GenerationEnv

/-- `set::insert` for ids. -/
def insertId (id : Nat) (ids : List Nat) : List Nat :=
  if id ∈ ids then ids else ids.orderedInsert (· ≤ ·) id

/-- The variables of `find_sat_test_goals`. -/
structure Found where
  cnt : Nat
  unsatGoals : List Nat
  tgs : List Nat
  tgsDone : List Nat
  moreClauses : List (List Literal)

/-- The variables of the inner loop of `generate`. -/
structure Coverage where
  unsatGoals : List Nat
  testGoalSet : List Nat
  done : List Nat
  minisat : Cnf
  tmpMinisat : Cnf
  coverageCl : List (List Literal)
  numSat : Nat
  calls : Nat

/-- The variables of the outer loop of `generate`. -/
structure Generation where
  unsatGoals : List Nat
  tcs : List TestCase
  minisat : Cnf
  coverageCl : List (List Literal)
  calls : Nat

section Generate

variable (env : GenerationEnv)

/-- One round of the loop of `find_sat_test_goals`. -/
def findGoal (hasInternalCheck : Bool) (v : Assignment) (found : Found) (id : Nat) : Found :=
  if env.satisfies v id then
    { cnt := found.cnt + 1
      unsatGoals := found.unsatGoals
      tgs := if hasInternalCheck then found.tgs.erase id else found.tgs
      tgsDone := insertId id found.tgsDone
      moreClauses := found.moreClauses ++ [env.blocking id] }
  else { found with unsatGoals := found.unsatGoals ++ [id] }

/-- `find_sat_test_goals`, where `unsatGoals` collects the goals that stay. -/
def findSatTestGoals (hasInternalCheck : Bool) (v : Assignment)
    (unsatGoals tgs tgsDone : List Nat) : Found :=
  unsatGoals.foldl (findGoal env hasInternalCheck v) ⟨0, [], tgs, tgsDone, []⟩

/-- What both calls of `find_sat_test_goals` are followed by: the clauses go
to the solvers and to `coverage_cl`. -/
def Coverage.absorb (st : Coverage) (found : Found) : Coverage :=
  { st with
    unsatGoals := found.unsatGoals
    testGoalSet := found.tgs
    done := found.tgsDone
    minisat := st.minisat.lcnfAll found.moreClauses
    tmpMinisat := st.tmpMinisat.lcnfAll found.moreClauses
    coverageCl := st.coverageCl ++ found.moreClauses
    numSat := st.numSat + found.cnt }

/-- The inner loop, for `fuel` rounds at most. -/
def coverageLoop (hasInternalCheck : Bool) (fixedLiterals : List Literal) :
    Nat → Coverage → Option Coverage
  | 0, _ => none
  | fuel + 1, st =>
      if st.unsatGoals = [] then some st
      else
        match env.solver.solve st.calls st.tmpMinisat fixedLiterals with
        | none => some { st with calls := st.calls + 1 }
        | some v =>
            let found :=
              findSatTestGoals env hasInternalCheck v st.unsatGoals st.testGoalSet st.done
            coverageLoop hasInternalCheck fixedLiterals fuel
              { st.absorb found with calls := st.calls + 1 }

/-- The SAT coverage check of a test case with assignment `v`. -/
def satCoverage (hasInternalCheck : Bool) (v : Assignment) (fuel : Nat) (st : Coverage) :
    Option Coverage :=
  let found := findSatTestGoals env hasInternalCheck v st.unsatGoals st.testGoalSet st.done
  let st := st.absorb found
  coverageLoop env hasInternalCheck (env.testCaseLiterals v) fuel
    { st with tmpMinisat := env.startCnf.copyTo.lcnfAll st.coverageCl }

/-- One round of the loop over the goals that the internal check reports. -/
def internalGoal (st : Coverage) (id : Nat) : Coverage :=
  if id ∈ st.unsatGoals then
    let st := { st with testGoalSet := insertId id st.testGoalSet }
    if env.satCoverageCheck then st
    else
      { st with
        minisat := st.minisat.lcnf (env.blocking id)
        unsatGoals := st.unsatGoals.erase id }
  else st

/-- The internal coverage check of a new test case; the flag says whether
there is one. -/
def internalCoverage (v : Assignment) (st : Coverage) : Bool × Coverage :=
  if env.internalCoverageCheck then
    match env.getSatisfiedTestGoals v with
    | none => (false, st)
    | some ids => (true, ids.foldl (internalGoal env) { st with done := ids })
  else (false, st)

/-- The variables for the coverage of a new test case. -/
def Generation.newTestCase (st : Generation) : Coverage :=
  { unsatGoals := st.unsatGoals
    testGoalSet := []
    done := []
    minisat := st.minisat
    tmpMinisat := Cnf.empty
    coverageCl := st.coverageCl
    numSat := 0
    calls := st.calls + 1 }

/-- Both coverage checks of a new test case with assignment `v`. -/
def coverTestCase (rounds : Nat) (v : Assignment) (st : Generation) : Option Coverage :=
  let (hasInternalCheck, cov) := internalCoverage env v st.newTestCase
  if env.satCoverageCheck then satCoverage env hasInternalCheck v rounds cov else some cov

/-- The test case with the goals it covers goes to the end of the suite. -/
def Generation.pushTestCase (st : Generation) (v : Assignment) (cov : Coverage) : Generation :=
  { unsatGoals := cov.unsatGoals
    tcs := st.tcs ++ [⟨cov.done, v⟩]
    minisat := cov.minisat
    coverageCl := cov.coverageCl
    calls := cov.calls }

/-- The outer loop, for `fuel` rounds of at most `rounds` inner ones. -/
def generateLoop (rounds : Nat) : Nat → Generation → Option Generation
  | 0, _ => none
  | fuel + 1, st =>
      if st.unsatGoals = [] ∨ ¬(env.limit = 0 ∨ st.tcs.length < env.limit) then some st
      else
        match env.solver.solve st.calls st.minisat [] with
        | none => some { st with calls := st.calls + 1 }
        | some v =>
            (coverTestCase env rounds v st).bind fun cov =>
              generateLoop rounds fuel (st.pushTestCase v cov)

/-- `generate`, with at most `rounds` rounds in either loop.  The test suite
is `tcs`, and the ids in `unsatGoals` are reported. -/
def generate (rounds : Nat) : Option Generation :=
  generateLoop env rounds rounds
    { unsatGoals := List.range env.goals.length
      tcs := []
      minisat := env.startCnf.copyTo
      coverageCl := []
      calls := 0 }

end Generate

/-! ## One assignment -/

section Found

variable (env : GenerationEnv)

theorem mem_insertId {id : Nat} {ids : List Nat} {k : Nat} :
    k ∈ insertId id ids ↔ k = id ∨ k ∈ ids := by
  unfold insertId
  split_ifs with hmem
  · constructor
    · exact Or.inr
    · intro h
      rcases h with rfl | hk
      · exact hmem
      · exact hk
  · rw [List.mem_orderedInsert]

theorem insertId_perm {id : Nat} {ids : List Nat} (h : id ∉ ids) :
    (insertId id ids).Perm (id :: ids) := by
  rw [insertId, if_neg h]
  exact List.perm_orderedInsert _ id ids

/-- A blocking clause holds where its goal does not. -/
theorem clauseTrue_blocking {v : Assignment} {id : Nat} :
    clauseTrue v (env.blocking id) = true ↔ env.satisfies v id = false := by
  simp [clauseTrue, GenerationEnv.blocking, GenerationEnv.satisfies, List.all_eq_false]

/-- `find_sat_test_goals` splits the open goals. -/
theorem foldl_findGoal (hasInternalCheck : Bool) (v : Assignment) (ids : List Nat)
    (found : Found) (hfresh : (found.tgsDone ++ ids).Nodup) :
    let out := ids.foldl (findGoal env hasInternalCheck v) found
    out.unsatGoals = found.unsatGoals ++ ids.filter (fun id => !env.satisfies v id) ∧
      out.tgsDone.Perm (found.tgsDone ++ ids.filter (env.satisfies v)) ∧
      out.moreClauses = found.moreClauses ++ (ids.filter (env.satisfies v)).map env.blocking := by
  induction ids generalizing found with
  | nil => simp
  | cons id rest ih =>
      have hid : id ∉ found.tgsDone := by
        intro hmem
        exact (List.nodup_append.mp hfresh).2.2 id hmem id List.mem_cons_self rfl
      have hrest : (found.tgsDone ++ rest).Nodup :=
        hfresh.sublist ((List.sublist_cons_self id rest).append_left _)
      rw [List.foldl_cons, findGoal]
      cases hsat : env.satisfies v id with
      | true =>
          have hperm := insertId_perm hid
          have hnodup : (insertId id found.tgsDone ++ rest).Nodup := by
            apply ((hperm.append_right rest).trans List.perm_middle.symm).nodup_iff.mpr
            exact hfresh
          have hout := ih
            { cnt := found.cnt + 1
              unsatGoals := found.unsatGoals
              tgs := if hasInternalCheck then found.tgs.erase id else found.tgs
              tgsDone := insertId id found.tgsDone
              moreClauses := found.moreClauses ++ [env.blocking id] } hnodup
          obtain ⟨hunsat, hdone, hmore⟩ := hout
          refine ⟨?_, ?_, ?_⟩
          · simpa [hsat] using hunsat
          · simp only [hsat, List.filter_cons_of_pos, if_true]
            exact hdone.trans ((hperm.append_right _).trans List.perm_middle.symm)
          · simpa [hsat] using hmore
      | false =>
          have hout := ih { found with unsatGoals := found.unsatGoals ++ [id] } hrest
          simpa [hsat] using hout

theorem findSatTestGoals_spec (hasInternalCheck : Bool) (v : Assignment)
    {unsatGoals tgs tgsDone : List Nat} (hnodup : (tgsDone ++ unsatGoals).Nodup) :
    let out := findSatTestGoals env hasInternalCheck v unsatGoals tgs tgsDone
    out.unsatGoals = unsatGoals.filter (fun id => !env.satisfies v id) ∧
      out.tgsDone.Perm (tgsDone ++ unsatGoals.filter (env.satisfies v)) ∧
      out.moreClauses = (unsatGoals.filter (env.satisfies v)).map env.blocking := by
  have hfold := foldl_findGoal env hasInternalCheck v unsatGoals ⟨0, [], tgs, tgsDone, []⟩ hnodup
  simp only [List.nil_append] at hfold
  exact hfold

end Found

/-! ## The loops -/

section Loops

variable (env : GenerationEnv)

/-- The models of `c` are those of the clauses at the start in which no
covered goal is satisfied. -/
def Blocks (covered : List Nat) (c : Cnf) : Prop :=
  ∀ v, c.Models v ↔ env.startCnf.Models v ∧ ∀ id ∈ covered, env.satisfies v id = false

/-- Every assignment of the program satisfies a goal. -/
def EveryModelCovers : Prop :=
  ∀ v, env.startCnf.Models v → ∃ id < env.goals.length, env.satisfies v id = true

/-- **The invariant of the inner loop**, where `old` has the goals of earlier
test cases: covered and open goals are a partition of the ids, and what
excludes the covered goals are the clauses of `coverage_cl` and those of the
solver. -/
structure CoverageInv (old : List Nat) (st : Coverage) : Prop where
  perm : (old ++ st.done ++ st.unsatGoals).Perm (List.range env.goals.length)
  minisat : Blocks env (old ++ st.done) st.minisat
  coverage : ∀ v, (∀ cl ∈ st.coverageCl, clauseTrue v cl = true) ↔
    ∀ id ∈ old ++ st.done, env.satisfies v id = false

variable {env}

/-- A model that excludes the covered goals satisfies an open one. -/
theorem Blocks.exists_open {covered unsatGoals : List Nat} {c : Cnf} {v : Assignment}
    (hc : Blocks env covered c) (hcover : EveryModelCovers env)
    (hperm : (covered ++ unsatGoals).Perm (List.range env.goals.length)) (hv : c.Models v) :
    ∃ id ∈ unsatGoals, env.satisfies v id = true := by
  have hmodel := (hc v).mp hv
  obtain ⟨id, hid, hsat⟩ := hcover v hmodel.1
  have hmem : id ∈ covered ++ unsatGoals := hperm.mem_iff.mpr (List.mem_range.mpr hid)
  rcases List.mem_append.mp hmem with hcovered | hopen
  · have hfalse := hmodel.2 id hcovered
    rw [hsat] at hfalse
    cases hfalse
  · exact ⟨id, hopen, hsat⟩

/-- Blocking clauses exclude further goals. -/
theorem Blocks.lcnfAll {covered more after : List Nat} {c : Cnf} (hc : Blocks env covered c)
    (hafter : ∀ id, id ∈ after ↔ id ∈ covered ∨ id ∈ more) :
    Blocks env after (c.lcnfAll (more.map env.blocking)) := by
  intro v
  rw [Cnf.lcnfAll_models, hc v]
  simp only [List.forall_mem_map, clauseTrue_blocking, hafter]
  grind

/-- **One assignment** keeps the invariant; if it satisfies an open goal,
fewer are open afterwards. -/
theorem CoverageInv.absorb {old : List Nat} {st : Coverage} (h : CoverageInv env old st)
    (hasInternalCheck : Bool) (v : Assignment) :
    let found := findSatTestGoals env hasInternalCheck v st.unsatGoals st.testGoalSet st.done
    CoverageInv env old (st.absorb found) ∧
      (Blocks env (old ++ st.done) st.tmpMinisat →
        Blocks env (old ++ found.tgsDone) (st.absorb found).tmpMinisat) ∧
      st.done ⊆ found.tgsDone ∧
      ((∃ id ∈ st.unsatGoals, env.satisfies v id = true) →
        found.unsatGoals.length < st.unsatGoals.length ∧ found.tgsDone ≠ []) := by
  intro found
  have hnodup : (st.done ++ st.unsatGoals).Nodup := by
    have hall : (old ++ (st.done ++ st.unsatGoals)).Nodup := by
      rw [← List.append_assoc]
      exact h.perm.nodup_iff.mpr List.nodup_range
    exact (List.nodup_append.mp hall).2.1
  obtain ⟨hunsat, hdone, hmore⟩ : found.unsatGoals = _ ∧ found.tgsDone.Perm _ ∧ _ :=
    findSatTestGoals_spec env hasInternalCheck v hnodup
  have hcovered : ∀ id, id ∈ old ++ found.tgsDone ↔
      id ∈ old ++ st.done ∨ id ∈ st.unsatGoals.filter (env.satisfies v) := by
    intro id
    rw [List.mem_append, hdone.mem_iff, List.mem_append, List.mem_append, or_assoc]
  refine ⟨⟨?_, ?_, ?_⟩, ?_, ?_, ?_⟩
  · have hsplit : (st.unsatGoals.filter (env.satisfies v) ++ found.unsatGoals).Perm
        st.unsatGoals := by
      rw [hunsat]
      exact List.filter_append_perm _ _
    have hdoneSplit : (found.tgsDone ++ found.unsatGoals).Perm (st.done ++ st.unsatGoals) := by
      apply (hdone.append_right _).trans
      rw [List.append_assoc]
      exact hsplit.append_left _
    apply List.Perm.trans _ h.perm
    rw [List.append_assoc, List.append_assoc]
    exact hdoneSplit.append_left old
  · change Blocks env _ (st.minisat.lcnfAll found.moreClauses)
    rw [hmore]
    exact h.minisat.lcnfAll hcovered
  · intro w
    change (∀ cl ∈ st.coverageCl ++ found.moreClauses, _) ↔ ∀ id ∈ old ++ found.tgsDone, _
    rw [hmore]
    simp only [List.forall_mem_append, List.forall_mem_map, clauseTrue_blocking, h.coverage w,
      hcovered]
    grind
  · intro htmp
    change Blocks env _ (st.tmpMinisat.lcnfAll found.moreClauses)
    rw [hmore]
    exact htmp.lcnfAll hcovered
  · intro id hid
    exact hdone.mem_iff.mpr (List.mem_append_left _ hid)
  · intro hx
    obtain ⟨id, hid, hsat⟩ := hx
    constructor
    · rw [hunsat]
      exact List.length_filter_lt_length_iff_exists.mpr ⟨id, hid, by simp [hsat]⟩
    · apply List.ne_nil_of_mem
      exact hdone.mem_iff.mpr (List.mem_append_right _ (List.mem_filter.mpr ⟨hid, hsat⟩))

/-- **The inner loop ends** and keeps the invariant. -/
theorem coverageLoop_spec (hcover : EveryModelCovers env) {old : List Nat}
    (hasInternalCheck : Bool) (fixedLiterals : List Literal) {fuel : Nat} {st : Coverage}
    (h : CoverageInv env old st) (htmp : Blocks env (old ++ st.done) st.tmpMinisat)
    (hfuel : st.unsatGoals.length < fuel) :
    ∃ out, coverageLoop env hasInternalCheck fixedLiterals fuel st = some out ∧
      CoverageInv env old out ∧ st.done ⊆ out.done ∧
      out.unsatGoals.length ≤ st.unsatGoals.length := by
  induction fuel generalizing st with
  | zero => cases hfuel
  | succ fuel ih =>
      rw [coverageLoop]
      by_cases hnone : st.unsatGoals = []
      · rw [if_pos hnone]
        exact ⟨st, rfl, h, List.Subset.refl _, Nat.le_refl _⟩
      · rw [if_neg hnone]
        cases hsolve : env.solver.solve st.calls st.tmpMinisat fixedLiterals with
        | none =>
            refine ⟨{ st with calls := st.calls + 1 }, rfl, ?_, List.Subset.refl _, Nat.le_refl _⟩
            exact ⟨h.perm, h.minisat, h.coverage⟩
        | some v =>
            have hv := (env.solver.sound _ _ _ _ hsolve).1
            have hopen := htmp.exists_open hcover h.perm hv
            obtain ⟨hinv, htmp', hsub, hfewer⟩ := h.absorb hasInternalCheck v
            have hlt := (hfewer hopen).1
            let next : Coverage :=
              { st.absorb (findSatTestGoals env hasInternalCheck v st.unsatGoals
                  st.testGoalSet st.done) with calls := st.calls + 1 }
            have hnext : CoverageInv env old next := ⟨hinv.perm, hinv.minisat, hinv.coverage⟩
            obtain ⟨out, hout, hinvOut, hsubOut, hle⟩ := ih hnext (htmp' htmp)
              (Nat.lt_of_lt_of_le hlt (Nat.le_of_lt_succ hfuel))
            exact ⟨out, hout, hinvOut, List.Subset.trans hsub hsubOut,
              Nat.le_trans hle (Nat.le_of_lt hlt)⟩

/-- The SAT coverage check of a new test case covers a goal at least. -/
theorem satCoverage_spec (hcover : EveryModelCovers env) {old : List Nat}
    (hasInternalCheck : Bool) {v : Assignment} {fuel : Nat} {st : Coverage}
    (h : CoverageInv env old st) (hv : ∃ id ∈ st.unsatGoals, env.satisfies v id = true)
    (hfuel : st.unsatGoals.length ≤ fuel) :
    ∃ out, satCoverage env hasInternalCheck v fuel st = some out ∧ CoverageInv env old out ∧
      out.done ≠ [] ∧ out.unsatGoals.length < st.unsatGoals.length := by
  obtain ⟨hinv, -, -, hfewer⟩ := h.absorb hasInternalCheck v
  obtain ⟨hlt, hne⟩ := hfewer hv
  let found := findSatTestGoals env hasInternalCheck v st.unsatGoals st.testGoalSet st.done
  let next : Coverage :=
    { st.absorb found with
      tmpMinisat := env.startCnf.copyTo.lcnfAll (st.absorb found).coverageCl }
  have hnext : CoverageInv env old next := ⟨hinv.perm, hinv.minisat, hinv.coverage⟩
  have htmp : Blocks env (old ++ next.done) next.tmpMinisat := by
    intro w
    change (env.startCnf.copyTo.lcnfAll (st.absorb found).coverageCl).Models w ↔ _
    rw [Cnf.lcnfAll_models, Cnf.copyTo_models]
    exact and_congr_right fun _ => hinv.coverage w
  obtain ⟨out, hout, hinvOut, hsub, hle⟩ := coverageLoop_spec hcover hasInternalCheck
    (env.testCaseLiterals v) hnext htmp (Nat.lt_of_lt_of_le hlt hfuel)
  refine ⟨out, hout, hinvOut, ?_, Nat.lt_of_le_of_lt hle hlt⟩
  obtain ⟨id, hid⟩ := List.exists_mem_of_ne_nil _ hne
  exact List.ne_nil_of_mem (hsub hid)

/-- The goals of the test cases found so far. -/
def Generation.covered (st : Generation) : List Nat := st.tcs.flatMap TestCase.goals

variable (env)

/-- **The invariant of the outer loop.** -/
structure GenerationInv (st : Generation) : Prop where
  perm : (st.covered ++ st.unsatGoals).Perm (List.range env.goals.length)
  minisat : Blocks env st.covered st.minisat
  coverage : ∀ v, (∀ cl ∈ st.coverageCl, clauseTrue v cl = true) ↔
    ∀ id ∈ st.covered, env.satisfies v id = false
  goals_ne_nil : ∀ tc ∈ st.tcs, tc.goals ≠ []

/-- An open goal is out of reach: its assignments satisfy covered goals. -/
def OpenShared (st : Generation) : Prop :=
  ∀ id ∈ st.unsatGoals, ∀ v, env.startCnf.Models v → env.satisfies v id = true →
    ∃ id' ∈ st.covered, env.satisfies v id' = true

variable {env}

/-- **The outer loop ends** and keeps the invariant. -/
theorem generateLoop_spec (hsat : env.satCoverageCheck = true)
    (hinternal : env.internalCoverageCheck = false) (hlimit : env.limit = 0)
    (hcover : EveryModelCovers env) {rounds fuel : Nat} {st : Generation}
    (h : GenerationInv env st) (hrounds : st.unsatGoals.length ≤ rounds)
    (hfuel : st.unsatGoals.length < fuel) :
    ∃ out, generateLoop env rounds fuel st = some out ∧ GenerationInv env out ∧
      OpenShared env out := by
  induction fuel generalizing st with
  | zero => cases hfuel
  | succ fuel ih =>
      rw [generateLoop]
      by_cases hnone : st.unsatGoals = []
      · rw [if_pos (Or.inl hnone)]
        refine ⟨st, rfl, h, ?_⟩
        intro id hid
        rw [hnone] at hid
        cases hid
      · rw [if_neg (by simp [hnone, hlimit])]
        cases hsolve : env.solver.solve st.calls st.minisat [] with
        | none =>
            refine ⟨{ st with calls := st.calls + 1 }, rfl, ⟨h.perm, h.minisat, h.coverage,
              h.goals_ne_nil⟩, ?_⟩
            intro id _ v hv _
            -- a model without covered goals would be one of the solver
            by_contra hshared
            have hblocked : ∀ id' ∈ st.covered, env.satisfies v id' = false := by
              intro id' hid'
              by_contra htrue
              exact hshared ⟨id', hid', Bool.eq_true_of_not_eq_false htrue⟩
            obtain ⟨l, hl, -⟩ := env.solver.complete _ _ _ hsolve v
              ((h.minisat v).mpr ⟨hv, hblocked⟩)
            cases hl
        | some v =>
            have hv := (env.solver.sound _ _ _ _ hsolve).1
            have hopen := h.minisat.exists_open hcover h.perm hv
            have hstart : CoverageInv env st.covered st.newTestCase := by
              refine ⟨?_, ?_, ?_⟩
              · simpa [Generation.newTestCase] using h.perm
              · simpa [Generation.newTestCase] using h.minisat
              · simpa [Generation.newTestCase] using h.coverage
            have hcheck : ∀ cov, internalCoverage env v cov = (false, cov) := by
              intro cov
              rw [internalCoverage, hinternal]
              rfl
            obtain ⟨cov, hcov, hinv, hne, hlt⟩ :=
              satCoverage_spec hcover false hstart hopen hrounds
            have hround : coverTestCase env rounds v st = some cov := by
              simp only [coverTestCase, hcheck, hsat, if_true, hcov]
            have hcovered : (st.pushTestCase v cov).covered = st.covered ++ cov.done := by
              simp [Generation.pushTestCase, Generation.covered]
            have hnext : GenerationInv env (st.pushTestCase v cov) := by
              refine ⟨?_, ?_, ?_, ?_⟩
              · rw [hcovered]
                exact hinv.perm
              · rw [hcovered]
                exact hinv.minisat
              · rw [hcovered]
                exact hinv.coverage
              · intro tc htc
                rcases List.mem_append.mp htc with htc | htc
                · exact h.goals_ne_nil tc htc
                · rw [List.mem_singleton.mp htc]
                  exact hne
            obtain ⟨out, hout, hinvOut, hshared⟩ := ih hnext
              (Nat.le_trans (Nat.le_of_lt hlt) hrounds)
              (Nat.lt_of_lt_of_le hlt (Nat.le_of_lt_succ hfuel))
            refine ⟨out, ?_, hinvOut, hshared⟩
            simp only [hround, Option.bind_some]
            exact hout

end Loops

/-! ## Generation -/

section Suite

variable (env : GenerationEnv)

/-- **Generation partitions the goals.**  In SAT coverage mode both loops end,
every id is a goal of exactly one test case or reported, and no test case is
without goals.  An assignment that satisfies a reported goal satisfies a
covered one as well, so there is none when goals exclude each other. -/
theorem generate_partitions (hsat : env.satCoverageCheck = true)
    (hinternal : env.internalCoverageCheck = false) (hlimit : env.limit = 0)
    (hprev : env.prevTcs = [])
    (hcover : ∀ v, env.cnf.Models v → ∃ id < env.goals.length, env.satisfies v id = true)
    {rounds : Nat} (hrounds : env.goals.length < rounds) :
    ∃ out, generate env rounds = some out ∧
      (out.tcs.flatMap TestCase.goals ++ out.unsatGoals).Perm (List.range env.goals.length) ∧
      (∀ tc ∈ out.tcs, tc.goals ≠ []) ∧
      (∀ id ∈ out.unsatGoals, ∀ v, env.cnf.Models v → env.satisfies v id = true →
        ∃ tc ∈ out.tcs, ∃ id' ∈ tc.goals, env.satisfies v id' = true) ∧
      ((∀ v, env.cnf.Models v → ∀ id id', env.satisfies v id = true →
        env.satisfies v id' = true → id < env.goals.length → id' < env.goals.length → id = id') →
        ∀ id ∈ out.unsatGoals, ∀ v, env.cnf.Models v → env.satisfies v id = false) := by
  have hstart : env.startCnf = env.cnf := by
    rw [GenerationEnv.startCnf, hprev]
    rfl
  have hcover' : EveryModelCovers env := by
    intro v hv
    rw [hstart] at hv
    exact hcover v hv
  have hinit : GenerationInv env
      { unsatGoals := List.range env.goals.length
        tcs := []
        minisat := env.startCnf.copyTo
        coverageCl := []
        calls := 0 } := by
    refine ⟨List.Perm.refl _, ?_, ?_, ?_⟩
    · intro v
      simp [Generation.covered]
    · intro v
      simp [Generation.covered]
    · intro tc htc
      cases htc
  have hlen : (List.range env.goals.length).length = env.goals.length := List.length_range
  obtain ⟨out, hout, hinv, hshared⟩ := generateLoop_spec hsat hinternal hlimit hcover' hinit
    (Nat.le_of_lt (hlen.symm ▸ hrounds)) (hlen.symm ▸ hrounds)
  have hcovered : ∀ id ∈ out.unsatGoals, ∀ v, env.cnf.Models v → env.satisfies v id = true →
      ∃ tc ∈ out.tcs, ∃ id' ∈ tc.goals, env.satisfies v id' = true := by
    intro id hid v hv htrue
    obtain ⟨id', hid', hsat'⟩ := hshared id hid v (hstart.symm ▸ hv) htrue
    obtain ⟨tc, htc, hgoal⟩ := List.mem_flatMap.mp hid'
    exact ⟨tc, htc, id', hgoal, hsat'⟩
  refine ⟨out, hout, hinv.perm, hinv.goals_ne_nil, hcovered, ?_⟩
  intro hexclude id hid v hv
  by_contra hne
  have htrue : env.satisfies v id = true := Bool.eq_true_of_not_eq_false hne
  obtain ⟨tc, htc, id', hid', htrue'⟩ := hcovered id hid v hv htrue
  have hmem : id' ∈ out.covered := List.mem_flatMap.mpr ⟨tc, htc, hid'⟩
  have hlt : id < env.goals.length :=
    List.mem_range.mp (hinv.perm.mem_iff.mp (List.mem_append_right _ hid))
  have hlt' : id' < env.goals.length :=
    List.mem_range.mp (hinv.perm.mem_iff.mp (List.mem_append_left _ hmem))
  have heq : id' = id := hexclude v hv id' id htrue' htrue hlt' hlt
  have hnodup : (out.covered ++ out.unsatGoals).Nodup :=
    hinv.perm.nodup_iff.mpr List.nodup_range
  exact (List.nodup_append.mp hnodup).2.2 id' hmem id hid heq

end Suite

/-- Two goals that share an assignment: the literal 1, and both literals. -/
def sharedGoals : GenerationEnv where
  cnf := Cnf.lcnf ⟨3, []⟩ [.var 1 false]
  goals := [[.var 1 false], [.var 1 false, .var 2 false]]
  symbols := [("main::a", [.var 1 false]), ("main::b", [.var 2 false])]
  satCoverageCheck := true
  internalCoverageCheck := false
  getSatisfiedTestGoals := fun _ => none
  limit := 0
  prevTcs := []
  solver := searchSolver

theorem sharedGoals_cover (v : Assignment) (hv : sharedGoals.cnf.Models v) :
    ∃ id < sharedGoals.goals.length, sharedGoals.satisfies v id = true := by
  have hfirst : clauseTrue v [.var 1 false] = true := (Cnf.lcnf_models.mp hv).2
  refine ⟨0, by decide, ?_⟩
  simpa [clauseTrue, GenerationEnv.satisfies, GenerationEnv.goal, sharedGoals] using hfirst

theorem generate_partitions_sharedGoals :
    ∃ out, generate sharedGoals 3 = some out ∧
      (out.tcs.flatMap TestCase.goals ++ out.unsatGoals).Perm (List.range 2) := by
  obtain ⟨out, hout, hperm, -⟩ := generate_partitions sharedGoals rfl rfl rfl rfl
    sharedGoals_cover (by decide : sharedGoals.goals.length < 3)
  exact ⟨out, hout, hperm⟩

/-- The first test case covers the goal 0 only.  Its clause excludes the
assignments of the goal 1, which is reported although one satisfies it. -/
theorem sharedGoals_reported :
    (∀ v, sharedGoals.cnf.Models v →
      ∃ id < sharedGoals.goals.length, sharedGoals.satisfies v id = true) ∧
    (generate sharedGoals 3).map Generation.unsatGoals = some [1] ∧
    ∃ v, sharedGoals.cnf.Models v ∧ sharedGoals.satisfies v 1 = true := by
  refine ⟨sharedGoals_cover, by decide, fun _ => true, ?_, by decide⟩
  decide

end FShell
