import FShell.Evaluation.GoalRuns
import FShell.Evaluation.SatisfiedGoals

/-!
# Simulating the coverage automaton

`get_satisfied_test_goals` finds the test goals that a test case satisfies without
a solver.  It follows the coverage automaton along the executed steps, over the
transitions that `build` has written down, and keeps for every state the sets of
literals that were satisfied on the way: a candidate is a state with one of them.
For the candidates in a final state the conjunctions are added to the set, and the
id map is searched for a row of known literals.

**Candidates and runs.**  The candidates after a list of rounds are the ends of the
simulated runs (`mem_simRounds`).  The map from states to lists of sets is the list
of its entries here; nothing depends on their order but the order of the ids, which
are the members of a set.
-/

namespace FShell

/-- A key of `state_vec_t` with a set of its list. -/
structure Candidate where
  state : TaState
  knownSat : TestGoals

/-- The members that `get_satisfied_test_goals` reads, and whether a state of the coverage
automaton is final. -/
structure Simulator (ν : Type) where
  instruction : ν → Instruction
  isTestGoalState : TaState → Bool
  isFinal : TaState → Bool
  start : TaState
  equation : List (EquationStep ν)
  stepToTrans : List (Nat × EdgeGoal)
  nodeStepToTrans : List (Nat × EdgeGoal)
  nodeRepMap : List (Nat × Nat)
  reverseOrMap : List (Literal × Literal)
  conjunctions : ConjunctionTable
  idMap : List (List Literal)
  skips : List Nat

namespace Simulator

variable {ν : Type} (sim : Simulator ν) (v : Assignment)

/-- The step is executed under the assignment. -/
def executed (step : EquationStep ν) : Bool :=
  step.type ≠ .sharedWrite && step.type ≠ .sharedRead && step.guardLiteral.any (Literal.eval v)

/-- `m_reverse_or_map.find(tg)->second`. -/
def orLiterals (tg : Literal) : List Literal :=
  (sim.reverseOrMap.filter fun e => e.1 = tg).map Prod.snd

/-- The literals that are inserted on a transition into a test-goal state. -/
def earn (goal : EdgeGoal) (knownSat : TestGoals) : TestGoals :=
  if sim.isTestGoalState goal.dest then
    knownSat.insertAll ((goal.tg.elim [] sim.orLiterals).filter fun l => !l.isTrue)
  else knownSat

/-- The candidates that come along a transition. -/
def follow (goal : EdgeGoal) (candidates : List Candidate) : List Candidate :=
  if goal.edgeGuard.eval v then
    (candidates.filter fun c => c.state = goal.src).map fun c =>
      ⟨goal.dest, sim.earn goal c.knownSat⟩
  else []

/-- One round of the loop over `cnt`.  Without transitions nothing happens; with `stay` we can
choose to skip them. -/
def simulateRound (trans : List EdgeGoal) (stay : Bool) (candidates : List Candidate) :
    List Candidate :=
  if trans.isEmpty then candidates
  else (if stay then candidates else []) ++ trans.flatMap fun goal => sim.follow v goal candidates

/-- `m_step_to_trans.equal_range(iter)`. -/
def edgeTrans (number : Nat) : List EdgeGoal :=
  (sim.stepToTrans.filter fun e => e.1 = number).map Prod.snd

/-- `m_node_step_to_trans.equal_range(iter)`. -/
def nodeTrans (number : Nat) : List EdgeGoal :=
  (sim.nodeStepToTrans.filter fun e => e.1 = number).map Prod.snd

/-- The body of the loop over the steps. -/
def simulateStep (number : Nat) (step : EquationStep ν) (candidates : List Candidate) :
    List Candidate :=
  if executed v step then
    let rounds := (sim.nodeRepMap.lookup number).getD 0
    let candidates := (sim.simulateRound v (sim.nodeTrans number) true)^[rounds] candidates
    sim.simulateRound v (sim.edgeTrans number) (isInstrumented (sim.instruction step.pc)) candidates
  else candidates

/-- The loop over the steps, from the one with the given number on. -/
def simulateSteps (number : Nat) : List (EquationStep ν) → List Candidate → List Candidate
  | [], candidates => candidates
  | step :: rest, candidates =>
      simulateSteps (number + 1) rest (sim.simulateStep v number step candidates)

/-- `current_states` after the loop. -/
def candidates : List Candidate := sim.simulateSteps v 0 sim.equation [⟨sim.start, TestGoals.empty⟩]

/-- `known_sat` after the conjunctions have been added. -/
def closure (sat : TestGoals) : KnownSat :=
  (ConjState.run sim.conjunctions (sat.toList.length + sim.conjunctions.entries.length)
    (ConjState.start sat)).knownSat

/-- The id that is inserted for a candidate, if any. -/
def satisfiedId (sat : TestGoals) : IdScan :=
  idScan (sim.closure sat).has sim.skips sim.idMap 0

/-- `get_satisfied_test_goals`: the ids in `tgs`. -/
def getSatisfiedTestGoals : List Nat :=
  ((sim.candidates v).filter fun c => sim.isFinal c.state).filterMap fun c =>
    match sim.satisfiedId c.knownSat with
    | .found id => some id
    | _ => none

/-! ## Rounds -/

/-- The transitions of a round of the encoding. -/
def roundTrans : Round ν → List EdgeGoal
  | .node step => sim.nodeTrans step.number
  | .edges step => sim.edgeTrans step.number
  | .leave step => sim.edgeTrans step.number

/-- We can choose to skip the transitions of a round. -/
def roundStay : Round ν → Bool
  | .node _ => true
  | .edges step => isInstrumented (sim.instruction step.pc)
  | .leave step => isInstrumented (sim.instruction step.pc)

/-- What a round of the encoding is in the simulation. -/
def simRound (candidates : List Candidate) (r : Round ν) : List Candidate :=
  if (Encoder.roundStep r).guard.eval v then
    sim.simulateRound v (sim.roundTrans r) (sim.roundStay r) candidates
  else candidates

/-- What a round does to one candidate. -/
def Moves (r : Round ν) (c c' : Candidate) : Prop :=
  if (Encoder.roundStep r).guard.eval v ∧ sim.roundTrans r ≠ [] then
    (sim.roundStay r = true ∧ c' = c) ∨
      ∃ goal ∈ sim.roundTrans r, goal.edgeGuard.eval v = true ∧ c.state = goal.src ∧
        c' = ⟨goal.dest, sim.earn goal c.knownSat⟩
  else c' = c

/-- A simulated run, with the states after its rounds. -/
inductive SimRun : List (Round ν) → Candidate → List TaState → Candidate → Prop
  | nil (c : Candidate) : SimRun [] c [] c
  | cons {r : Round ν} {rs : List (Round ν)} {c c' c'' : Candidate} {ts : List TaState}
      (head : sim.Moves v r c c') (tail : SimRun rs c' ts c'') :
      SimRun (r :: rs) c (c'.state :: ts) c''

variable {sim v} {r : Round ν} {rs : List (Round ν)} {cands : List Candidate} {c c' : Candidate}

theorem mem_follow {goal : EdgeGoal} :
    c' ∈ sim.follow v goal cands ↔ ∃ c ∈ cands, goal.edgeGuard.eval v = true ∧
      c.state = goal.src ∧ c' = ⟨goal.dest, sim.earn goal c.knownSat⟩ := by
  unfold follow
  split_ifs with hguard
  · simp only [List.mem_map, List.mem_filter, decide_eq_true_eq]
    constructor
    · rintro ⟨c, ⟨hc, hsrc⟩, rfl⟩
      exact ⟨c, hc, hguard, hsrc, rfl⟩
    · rintro ⟨c, hc, -, hsrc, rfl⟩
      exact ⟨c, ⟨hc, hsrc⟩, rfl⟩
  · simp [hguard]

/-- The names of the goals that a literal belongs to. -/
theorem mem_orLiterals {l x : Literal} : x ∈ sim.orLiterals l ↔ (l, x) ∈ sim.reverseOrMap := by
  simp only [orLiterals, List.mem_map, List.mem_filter, decide_eq_true_eq]
  constructor
  · rintro ⟨⟨l', x'⟩, ⟨hmem, rfl⟩, rfl⟩
    exact hmem
  · exact fun hmem => ⟨(l, x), ⟨hmem, rfl⟩, rfl⟩

theorem mem_earn {goal : EdgeGoal} {known : TestGoals} {x : Literal} :
    x ∈ (sim.earn goal known).toList ↔ x ∈ known.toList ∨
      (sim.isTestGoalState goal.dest = true ∧ x.isTrue = false ∧
        ∃ l, goal.tg = some l ∧ (l, x) ∈ sim.reverseOrMap) := by
  unfold earn
  split_ifs with hgoal
  · rw [TestGoals.mem_insertAll, List.mem_filter]
    cases goal.tg with
    | none => simp
    | some l => simp [mem_orLiterals, hgoal, or_comm, and_comm]
  · simp [hgoal]

/-- A round moves every candidate on its own. -/
theorem mem_simRound : c' ∈ sim.simRound v cands r ↔ ∃ c ∈ cands, sim.Moves v r c c' := by
  unfold simRound Moves simulateRound
  by_cases hguard : (Encoder.roundStep r).guard.eval v = true
  · by_cases htrans : sim.roundTrans r = []
    · simp [hguard, htrans]
    · have hne : (sim.roundTrans r).isEmpty = false := by simpa using htrans
      simp only [hguard, hne, htrans, ne_eq, not_false_eq_true, and_self, if_true,
        Bool.false_eq_true, if_false, List.mem_append, List.mem_flatMap, mem_follow]
      constructor
      · rintro (hstay | ⟨goal, hgoal, c, hc, hmove⟩)
        · split_ifs at hstay with hmay
          · exact ⟨c', hstay, Or.inl ⟨hmay, rfl⟩⟩
          · cases hstay
        · exact ⟨c, hc, Or.inr ⟨goal, hgoal, hmove⟩⟩
      · rintro ⟨c, hc, ⟨hmay, rfl⟩ | ⟨goal, hgoal, hmove⟩⟩
        · left
          rwa [if_pos hmay]
        · exact Or.inr ⟨goal, hgoal, c, hc, hmove⟩
  · simp [hguard]

/-- **The candidates are the ends of the simulated runs.** -/
theorem mem_simRounds :
    c' ∈ rs.foldl (sim.simRound v) cands ↔ ∃ c ∈ cands, ∃ ts, sim.SimRun v rs c ts c' := by
  induction rs generalizing cands with
  | nil =>
      constructor
      · exact fun h => ⟨c', h, [], SimRun.nil c'⟩
      · rintro ⟨c, hc, ts, hrun⟩
        cases hrun
        exact hc
  | cons r rs ih =>
      rw [List.foldl_cons, ih]
      constructor
      · rintro ⟨m, hm, ts, hrun⟩
        obtain ⟨c, hc, hmove⟩ := mem_simRound.mp hm
        exact ⟨c, hc, m.state :: ts, SimRun.cons hmove hrun⟩
      · rintro ⟨c, hc, _, hrun⟩
        cases hrun with
        | cons head tail => exact ⟨_, mem_simRound.mpr ⟨c, hc, head⟩, _, tail⟩

/-! ## The loop over the steps -/

section Steps

variable [LinearOrder ν] {env : Encoder ν} {equation : List (EquationStep ν)}
  {views : List (StepView ν)} {previous : Option (EquationStep ν)} {number : Nat}

/-- The numbers of the steps are their positions. -/
theorem stepViews_numbers {instruction : ν → Instruction}
    (h : stepViews instruction previous number equation = some views) :
    (∀ step ∈ views, number ≤ step.number) ∧
      views.Pairwise fun step step' => step.number < step'.number := by
  induction equation generalizing previous number views with
  | nil =>
      cases h
      simp
  | cons x rest ih =>
      rw [stepViews] at h
      by_cases hskip : (ignoredStep instruction x ||
          previous.any (furtherStep instruction · x)) = true
      · rw [if_pos hskip] at h
        obtain ⟨hle, hlt⟩ := ih h
        refine ⟨?_, hlt⟩
        intro step hstep
        have := hle step hstep
        omega
      · rw [if_neg hskip] at h
        obtain ⟨guard, -, h⟩ := Option.bind_eq_some_iff.mp h
        obtain ⟨goto, -, h⟩ := Option.bind_eq_some_iff.mp h
        obtain ⟨later, hviews, h⟩ := Option.bind_eq_some_iff.mp h
        cases h
        obtain ⟨hle, hlt⟩ := ih hviews
        constructor
        · intro step hstep
          rcases List.mem_cons.mp hstep with rfl | hstep
          · exact Nat.le_refl _
          · have := hle step hstep
            omega
        · apply List.Pairwise.cons
          · intro step hstep
            exact hle step hstep
          · exact hlt

omit [LinearOrder ν] in
/-- Rounds without transitions. -/
theorem iterate_simulateRound_nil {stay : Bool} (n : Nat) :
    (sim.simulateRound v [] stay)^[n] cands = cands := by
  apply Function.iterate_fixed
  rfl

omit [LinearOrder ν] in
theorem foldl_replicate (n : Nat) (r : Round ν) :
    (List.replicate n r).foldl (sim.simRound v) cands = (fun cs => sim.simRound v cs r)^[n] cands := by
  induction n generalizing cands with
  | zero => rfl
  | succ n ih => rw [List.replicate_succ, List.foldl_cons, ih, Function.iterate_succ_apply]

variable (sim env) in
/-- The records belong to the steps that are not skipped, and the number of rounds of a node is
that of the encoding. -/
structure RecordsOf (number : Nat) (views : List (StepView ν)) : Prop where
  steps : ∀ n, number ≤ n → sim.nodeTrans n ≠ [] ∨ sim.edgeTrans n ≠ [] →
    ∃ step ∈ views, step.number = n
  rounds : ∀ step ∈ views, sim.nodeTrans step.number ≠ [] →
    sim.nodeRepMap.lookup step.number = some (env.sources (env.nodeGraphs step.pc)).toList.length

/-- A step that was encoded. -/
theorem simulateStep_eq {x : EquationStep ν} {guard goto : Literal}
    (hguard : x.guardLiteral = some guard)
    (hshared : x.type ≠ .sharedWrite ∧ x.type ≠ .sharedRead)
    (hrounds : sim.nodeTrans number ≠ [] →
      sim.nodeRepMap.lookup number = some (env.sources (env.nodeGraphs x.pc)).toList.length) :
    sim.simulateStep v number x cands =
      (env.roundsOf ⟨number, x.pc, guard, goto⟩).foldl (sim.simRound v) cands := by
  have hexecuted : executed v x = guard.eval v := by
    simp [executed, hguard, hshared]
  have hlast : ∀ cs, sim.simRound v cs (if env.maps.edgeEntry x.pc = [] then
      .leave ⟨number, x.pc, guard, goto⟩ else .edges ⟨number, x.pc, guard, goto⟩) =
      if guard.eval v then sim.simulateRound v (sim.edgeTrans number)
        (isInstrumented (sim.instruction x.pc)) cs else cs := by
    intro cs
    by_cases hentry : env.maps.edgeEntry x.pc = []
    · rw [if_pos hentry]
      rfl
    · rw [if_neg hentry]
      rfl
  unfold simulateStep Encoder.roundsOf
  dsimp only
  rw [hexecuted, List.foldl_append, foldl_replicate, List.foldl_cons, List.foldl_nil, hlast]
  by_cases heval : guard.eval v = true
  · have hnode : (fun cs => sim.simRound v cs (.node ⟨number, x.pc, guard, goto⟩)) =
        sim.simulateRound v (sim.nodeTrans number) true := by
      funext cs
      exact if_pos heval
    rw [if_pos heval, if_pos heval, hnode]
    by_cases hnone : sim.nodeTrans number = []
    · rw [hnone, iterate_simulateRound_nil, iterate_simulateRound_nil]
    · rw [hrounds hnone, Option.getD_some]
  · have hnode : (fun cs => sim.simRound v cs (.node ⟨number, x.pc, guard, goto⟩)) = id := by
      funext cs
      exact if_neg heval
    rw [if_neg heval, if_neg heval, hnode, Function.iterate_id, id]

/-- **The simulation goes through the rounds of the encoding.** -/
theorem simulateSteps_eq (hviews : stepViews sim.instruction previous number equation = some views)
    (hrecords : sim.RecordsOf env number views) :
    sim.simulateSteps v number equation cands =
      (views.flatMap env.roundsOf).foldl (sim.simRound v) cands := by
  induction equation generalizing previous number views cands with
  | nil =>
      cases hviews
      rfl
  | cons x rest ih =>
      have hnumbers := (stepViews_numbers hviews).1
      rw [stepViews] at hviews
      rw [simulateSteps]
      by_cases hskip : (ignoredStep sim.instruction x ||
          previous.any (furtherStep sim.instruction · x)) = true
      · rw [if_pos hskip] at hviews
        -- nothing is recorded for a step that was skipped
        have hnone : sim.nodeTrans number = [] ∧ sim.edgeTrans number = [] := by
          by_contra hsome
          obtain ⟨step, hstep, hnumber⟩ := hrecords.steps number (Nat.le_refl _) (by tauto)
          have := (stepViews_numbers hviews).1 step hstep
          omega
        have hstep : sim.simulateStep v number x cands = cands := by
          unfold simulateStep
          dsimp only
          split_ifs
          · rw [hnone.1, hnone.2, iterate_simulateRound_nil]
            rfl
          · rfl
        rw [hstep]
        apply ih hviews
        exact ⟨fun n hn => hrecords.steps n (by omega), hrecords.rounds⟩
      · rw [if_neg hskip] at hviews
        obtain ⟨guard, hguard, hviews⟩ := Option.bind_eq_some_iff.mp hviews
        obtain ⟨goto, -, hviews⟩ := Option.bind_eq_some_iff.mp hviews
        obtain ⟨later, hlater, hviews⟩ := Option.bind_eq_some_iff.mp hviews
        cases hviews
        have hshared : x.type ≠ .sharedWrite ∧ x.type ≠ .sharedRead := by
          simp only [ignoredStep, Bool.or_eq_true, decide_eq_true_eq] at hskip
          tauto
        rw [simulateStep_eq hguard hshared (hrecords.rounds _ List.mem_cons_self),
          List.flatMap_cons, List.foldl_append]
        apply ih hlater
        constructor
        · intro n hn hrecorded
          obtain ⟨step, hstep, hnumber⟩ := hrecords.steps n (by omega) hrecorded
          rcases List.mem_cons.mp hstep with rfl | hstep
          · exact absurd hnumber (by dsimp only; omega)
          · exact ⟨step, hstep, hnumber⟩
        · exact fun step hstep => hrecords.rounds step (List.mem_cons_of_mem _ hstep)

end Steps

/-! ## Known literals -/

/-- The conjunctions are added until the set is closed, and no others. -/
theorem closure_isLeast (sat : TestGoals) :
    IsLeast {X | sim.conjunctions.Closed sat X}
      {l | l.isConstant = false ∧ (sim.closure sat).has l = true} := by
  have hstart := ConjState.ConjInv.start (sim.conjunctions.closed_variables sat)
  apply ConjState.ConjInv.isLeast
  · exact fun X hX => (ConjState.ConjInv.start hX).steps hX (ConjState.run_steps _)
  · exact ConjState.run_newSat _ (ConjState.measure_start sim.conjunctions sat) hstart

/-- A satisfied literal is known unless it is the constant `false`. -/
theorem closure_has {sat : TestGoals} {l : Literal} (hl : l ∈ sat.toList)
    (htrue : l.eval v = true) : (sim.closure sat).has l = true := by
  cases hconst : l.isConstant with
  | false => exact ((sim.closure_isLeast sat).1.1 l hl hconst).2
  | true =>
      cases l with
      | const value => exact htrue
      | var n sign => cases hconst

/-- A conjunction of known literals is known unless it is a constant. -/
theorem closure_land {sat : TestGoals} {a sg b : Literal}
    (hentry : (a, sg, b) ∈ sim.conjunctions.entries) (hconst : sg.isConstant = false)
    (ha : (sim.closure sat).has a = true) (hb : (sim.closure sat).has b = true) :
    (sim.closure sat).has sg = true := by
  have hknown : ∀ x, (sim.closure sat).has x = true →
      x = .const true ∨ x ∈ {l : Literal | l.isConstant = false ∧ (sim.closure sat).has l = true} := by
    intro x hx
    cases x with
    | const value =>
        left
        rw [show value = true from hx]
    | var n sign => exact Or.inr ⟨rfl, hx⟩
  exact ((sim.closure_isLeast sat).1.2 a sg b hentry hconst (hknown a ha) (hknown b hb)).2

/-- Known literals are true where the satisfied ones are. -/
theorem closure_true {sat : TestGoals} (hsat : ∀ l ∈ sat.toList, l.eval v = true)
    (hand : ∀ a sg b, (a, sg, b) ∈ sim.conjunctions.entries →
      sg.eval v = (a.eval v && b.eval v)) {l : Literal} (hl : (sim.closure sat).has l = true) :
    l.eval v = true := by
  have hclosed : sim.conjunctions.Closed sat {l | l.eval v = true} := by
    refine ⟨fun l hl _ => hsat l hl, ?_⟩
    intro a sg b hentry _ ha hb
    have hvalue : ∀ x, x = .const true ∨ x ∈ {l : Literal | l.eval v = true} → x.eval v = true := by
      rintro x (rfl | hx)
      · rfl
      · exact hx
    change sg.eval v = true
    rw [hand a sg b hentry, hvalue a ha, hvalue b hb]
    rfl
  cases hconst : l.isConstant with
  | false => exact (sim.closure_isLeast sat).2 hclosed ⟨hconst, hl⟩
  | true =>
      cases l with
      | const value => exact hl
      | var n sign => cases hconst

/-- **The scan finds the first row of known literals**, also when a group is empty. -/
theorem idScan_makeIdMap {groups : List TestGoals} (hne : groups ≠ []) (known : Literal → Bool) :
    idScan known (makeSkips groups) ((makeIdMap groups).getD []) 0 =
      ((combinations (groups.map TestGoals.toList)).findIdx? fun row => row.all known).elim
        .notFound .found := by
  rw [makeIdMap_eq hne, Option.getD_some]
  by_cases hempty : [] ∈ groups.map TestGoals.toList
  · rw [combinations_eq_nil hempty]
    simp [idScan]
  · have hgroups : ∀ g ∈ groups, g.toList ≠ [] := by
      intro g hg hnil
      exact hempty (List.mem_map.mpr ⟨g, hg, hnil⟩)
    have hlits : ∀ lits ∈ groups.map TestGoals.toList, lits ≠ [] := by
      intro lits hmem
      obtain ⟨g, hg, rfl⟩ := List.mem_map.mp hmem
      exact hgroups g hg
    have hscan := @idScan_block known _ hlits [] [] rfl (by simp) [] 0
    simp only [List.nil_append, List.map_id', List.append_nil, Nat.zero_add, idScan] at hscan
    rw [makeSkips_eq hgroups, hscan]
    cases (combinations (groups.map TestGoals.toList)).findIdx? fun row => row.all known <;> rfl

theorem mem_getSatisfiedTestGoals {id : Nat} :
    id ∈ sim.getSatisfiedTestGoals v ↔ ∃ c ∈ sim.candidates v, sim.isFinal c.state = true ∧
      sim.satisfiedId c.knownSat = .found id := by
  simp only [getSatisfiedTestGoals, List.mem_filterMap, List.mem_filter]
  constructor
  · rintro ⟨c, ⟨hc, hfinal⟩, hid⟩
    refine ⟨c, hc, hfinal, ?_⟩
    split at hid
    · rename_i found hfound
      cases hid
      exact hfound
    · cases hid
  · rintro ⟨c, hc, hfinal, hid⟩
    exact ⟨c, ⟨hc, hfinal⟩, by rw [hid]⟩

end Simulator

end FShell
