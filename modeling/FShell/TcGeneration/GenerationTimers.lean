import FShell.TcGeneration.ConstraintStrengthening
import FShell.Util.Statistics

/-!
# The timers of test-suite generation

`generate` with the calls of its CPU timers: `sat_timer` around the calls of
the main solver, `sub_timer` around the internal coverage check, and in every
round a new timer around each of the coverage checks.

A round leaves every timer as it finds it (`balanced_round`), and a loop that
is left because the solver finds no test case leaves `sat_timer` running.  It
is stopped behind the loop, whenever goals are open; but goals are also open
when the limit has ended the loop, and then it does not run
(`timers_alternate_iff`).
-/

namespace FShell

/-- The timers; those of a round are told apart by the number of the test case. -/
inductive Timer
  | sat
  | sub
  | internalCoverage (round : Nat)
  | satCoverage (round : Nat)
  deriving DecidableEq

abbrev TimerLog := List (Timer × TimerCall)

/-- The calls of one timer. -/
def callsOf (t : Timer) (log : TimerLog) : List TimerCall :=
  (log.filter fun entry => entry.1 = t).map Prod.snd

/-- What the solvers answer, call by call. -/
abbrev Answers := Nat → Cnf → List Literal → Option Assignment

section Rounds

variable (env : GenerationEnv) (answers : Answers)

/-- `coverageLoop` with any answers. -/
def coverageLoopWith (hasInternalCheck : Bool) (fixedLiterals : List Literal) :
    Nat → Coverage → Option Coverage
  | 0, _ => none
  | fuel + 1, st =>
      if st.unsatGoals = [] then some st
      else
        match answers st.calls st.tmpMinisat fixedLiterals with
        | none => some { st with calls := st.calls + 1 }
        | some v =>
            let found :=
              findSatTestGoals env hasInternalCheck v st.unsatGoals st.testGoalSet st.done
            coverageLoopWith hasInternalCheck fixedLiterals fuel
              { st.absorb found with calls := st.calls + 1 }

/-- `satCoverage` with any answers. -/
def satCoverageWith (hasInternalCheck : Bool) (v : Assignment) (fuel : Nat) (st : Coverage) :
    Option Coverage :=
  let found := findSatTestGoals env hasInternalCheck v st.unsatGoals st.testGoalSet st.done
  let st := st.absorb found
  coverageLoopWith env answers hasInternalCheck (env.testCaseLiterals v) fuel
    { st with tmpMinisat := env.startCnf.copyTo.lcnfAll st.coverageCl }

/-- `coverTestCase` with any answers. -/
def coverTestCaseWith (rounds : Nat) (v : Assignment) (st : Generation) : Option Coverage :=
  let (hasInternalCheck, cov) := internalCoverage env v st.newTestCase
  if env.satCoverageCheck then satCoverageWith env answers hasInternalCheck v rounds cov
  else some cov

/-- The calls around the main solver and the internal coverage check. -/
def checkCalls (round : Nat) : TimerLog :=
  [(.sat, .start), (.sat, .stop), (.internalCoverage round, .start), (.sub, .start), (.sub, .stop),
    (.internalCoverage round, .stop)]

/-- The calls around the SAT coverage check, if there is one; the timers of the
round are printed when there are two. -/
def satCoverageCalls (hasInternalCheck : Bool) (round : Nat) : TimerLog :=
  if env.satCoverageCheck then
    [(.satCoverage round, .start), (.satCoverage round, .stop)] ++
      if hasInternalCheck then [(.internalCoverage round, .print), (.satCoverage round, .print)]
      else []
  else []

/-- The outer loop, with the calls of the timers. -/
def timedLoop (rounds : Nat) : Nat → Generation → TimerLog × Option Generation
  | 0, _ => ([], none)
  | fuel + 1, st =>
      if st.unsatGoals = [] ∨ ¬(env.limit = 0 ∨ st.tcs.length < env.limit) then ([], some st)
      else
        match answers st.calls st.minisat [] with
        -- the loop is left with the timer running
        | none => ([(.sat, .start)], some { st with calls := st.calls + 1 })
        | some v =>
            let round := st.tcs.length
            let hasInternalCheck := (internalCoverage env v st.newTestCase).1
            match coverTestCaseWith env answers rounds v st with
            | none => (checkCalls round ++ [(.satCoverage round, .start)], none)
            | some cov =>
                let (log, out) := timedLoop rounds fuel (st.pushTestCase v cov)
                (checkCalls round ++ satCoverageCalls env hasInternalCheck round ++ log, out)

/-- The variables before the loop. -/
def startGeneration : Generation where
  unsatGoals := List.range env.goals.length
  tcs := []
  minisat := env.startCnf.copyTo
  coverageCl := []
  calls := 0

/-- `generate`, for `fuel` rounds of the outer and `rounds` of the inner loop. -/
def timedGenerate (fuel rounds : Nat) : TimerLog × Option Generation :=
  let (log, out) := timedLoop env answers rounds fuel (startGeneration env)
  match out with
  | none => (log, none)
  | some st => (if st.unsatGoals = [] then log else log ++ [(.sat, .stop)], some st)

/-! ## The limit -/

/-- One round that finds a test case, whatever the limit. -/
def generationRound (rounds : Nat) (st : Generation) : Option Generation :=
  if st.unsatGoals = [] then none
  else
    (answers st.calls st.minisat []).bind fun v =>
      (coverTestCaseWith env answers rounds v st).map fun cov => st.pushTestCase v cov

/-- Several of them. -/
def generationRounds (rounds : Nat) : Nat → Generation → Option Generation
  | 0, st => some st
  | n + 1, st => (generationRound env answers rounds st).bind (generationRounds rounds n)

/-- The loop is not cut short: there is no limit, or no goal is open after the
first `limit` rounds if all of them find a test case. -/
def NotCutShort : Prop :=
  env.limit = 0 ∨ ∀ rounds st,
    generationRounds env answers rounds env.limit (startGeneration env) = some st →
      st.unsatGoals = []

end Rounds

/-! ## Generation without timers -/

theorem coverageLoopWith_solve (env : GenerationEnv) (hasInternalCheck : Bool)
    (fixedLiterals : List Literal) (fuel : Nat) (st : Coverage) :
    coverageLoopWith env env.solver.solve hasInternalCheck fixedLiterals fuel st =
      coverageLoop env hasInternalCheck fixedLiterals fuel st := by
  induction fuel generalizing st with
  | zero => rfl
  | succ fuel ih =>
      rw [coverageLoopWith, coverageLoop]
      cases env.solver.solve st.calls st.tmpMinisat fixedLiterals with
      | none => rfl
      | some v => simp only [ih]

theorem coverTestCaseWith_solve (env : GenerationEnv) (rounds : Nat) (v : Assignment)
    (st : Generation) :
    coverTestCaseWith env env.solver.solve rounds v st = coverTestCase env rounds v st := by
  unfold coverTestCaseWith coverTestCase satCoverageWith satCoverage
  simp only [coverageLoopWith_solve]

theorem timedLoop_solve (env : GenerationEnv) (rounds fuel : Nat) (st : Generation) :
    (timedLoop env env.solver.solve rounds fuel st).2 = generateLoop env rounds fuel st := by
  induction fuel generalizing st with
  | zero => rfl
  | succ fuel ih =>
      rw [timedLoop, generateLoop]
      split_ifs with hstop
      · rfl
      · cases env.solver.solve st.calls st.minisat [] with
        | none => rfl
        | some v =>
            dsimp only
            rw [coverTestCaseWith_solve]
            cases coverTestCase env rounds v st with
            | none => rfl
            | some cov => exact ih (st.pushTestCase v cov)

/-- The timers do not change what is generated. -/
theorem timedGenerate_solve (env : GenerationEnv) (rounds : Nat) :
    (timedGenerate env env.solver.solve rounds rounds).2 = generate env rounds := by
  have hloop := timedLoop_solve env rounds rounds (startGeneration env)
  rw [timedGenerate]
  generalize timedLoop env env.solver.solve rounds rounds (startGeneration env) = run at hloop
  obtain ⟨log, out⟩ := run
  cases out <;> exact hloop

/-! ## What a round leaves -/

/-- Starts and stops alternate, beginning with a start, and every timer is
stopped if the run returns. -/
def TimersAlternate (run : TimerLog × Option Generation) : Prop :=
  ∀ t, ∃ running, protocol false (callsOf t run.1) = some running ∧
    (run.2.isSome = true → running = false)

/-- Every timer is stopped in the end, as in the beginning. -/
def Balanced (log : TimerLog) : Prop := ∀ t, protocol false (callsOf t log) = some false

theorem callsOf_append (t : Timer) (xs ys : TimerLog) :
    callsOf t (xs ++ ys) = callsOf t xs ++ callsOf t ys := by
  simp [callsOf]

theorem Balanced.protocol_append {xs : TimerLog} (h : Balanced xs) (t : Timer) (ys : TimerLog) :
    protocol false (callsOf t (xs ++ ys)) = protocol false (callsOf t ys) := by
  rw [callsOf_append, FShell.protocol_append, h t]
  rfl

theorem Balanced.append {xs ys : TimerLog} (hx : Balanced xs) (hy : Balanced ys) :
    Balanced (xs ++ ys) := by
  intro t
  rw [hx.protocol_append t]
  exact hy t

theorem balanced_nil : Balanced [] := fun _ => rfl

theorem balanced_checkCalls (round : Nat) : Balanced (checkCalls round) := by
  intro t
  cases t with
  | sat => simp [callsOf, checkCalls, protocol, TimerCall.after]
  | sub => simp [callsOf, checkCalls, protocol, TimerCall.after]
  | internalCoverage n =>
      by_cases hn : round = n <;> simp [callsOf, checkCalls, protocol, TimerCall.after, hn]
  | satCoverage n => simp [callsOf, checkCalls]

theorem balanced_satCoverageCalls (env : GenerationEnv) (hasInternalCheck : Bool) (round : Nat) :
    Balanced (satCoverageCalls env hasInternalCheck round) := by
  intro t
  unfold satCoverageCalls
  split_ifs with hsat hinternal
  · cases t with
    | sat => simp [callsOf]
    | sub => simp [callsOf]
    | internalCoverage n =>
        by_cases hn : round = n <;> simp [callsOf, protocol, TimerCall.after, hn]
    | satCoverage n =>
        by_cases hn : round = n <;> simp [callsOf, protocol, TimerCall.after, hn]
  · cases t with
    | satCoverage n =>
        by_cases hn : round = n <;> simp [callsOf, protocol, TimerCall.after, hn]
    | _ => simp [callsOf]
  · rfl

/-- **One round.** -/
theorem balanced_round (env : GenerationEnv) (hasInternalCheck : Bool) (round : Nat) :
    Balanced (checkCalls round ++ satCoverageCalls env hasInternalCheck round) :=
  (balanced_checkCalls round).append (balanced_satCoverageCalls env hasInternalCheck round)

section Loop

variable {env : GenerationEnv} {answers : Answers} {rounds : Nat}

/-- **How the loop ends**: it has not ended yet; no goal is open; the limit is
reached; or the solver has found no test case. -/
inductive LoopEnds (env : GenerationEnv) (answers : Answers) (rounds : Nat) (st : Generation) :
    TimerLog × Option Generation → Prop
  | unfinished (log : TimerLog) (h : ∀ t, ∃ running, protocol false (callsOf t log) = some running) :
      LoopEnds env answers rounds st (log, none)
  | covered (log : TimerLog) (out : Generation) (h : Balanced log) (hopen : out.unsatGoals = []) :
      LoopEnds env answers rounds st (log, some out)
  | limited (log : TimerLog) (out : Generation) (n : Nat) (h : Balanced log)
      (hlimit : env.limit ≠ 0) (hn : st.tcs.length + n = env.limit)
      (hrounds : generationRounds env answers rounds n st = some out) :
      LoopEnds env answers rounds st (log, some out)
  | unsatisfiable (log : TimerLog) (out : Generation) (h : Balanced log)
      (hopen : out.unsatGoals ≠ []) :
      LoopEnds env answers rounds st (log ++ [(.sat, .start)], some out)

theorem LoopEnds.cons {st next : Generation} {log : TimerLog} (hlog : Balanced log)
    (hround : generationRound env answers rounds st = some next)
    (hnext : next.tcs.length = st.tcs.length + 1) {run : TimerLog × Option Generation}
    (h : LoopEnds env answers rounds next run) :
    LoopEnds env answers rounds st (log ++ run.1, run.2) := by
  cases h with
  | unfinished log' h' =>
      refine .unfinished _ fun t => ?_
      rw [hlog.protocol_append t]
      exact h' t
  | covered log' out h' hopen => exact .covered _ out (hlog.append h') hopen
  | limited log' out n h' hlimit hn hrounds =>
      refine .limited _ out (n + 1) (hlog.append h') hlimit (by omega) ?_
      rw [generationRounds, hround, Option.bind_some, hrounds]
  | unsatisfiable log' out h' hopen =>
      rw [← List.append_assoc]
      exact .unsatisfiable _ out (hlog.append h') hopen

theorem timedLoop_ends (fuel : Nat) (st : Generation)
    (hle : env.limit ≠ 0 → st.tcs.length ≤ env.limit) :
    LoopEnds env answers rounds st (timedLoop env answers rounds fuel st) := by
  induction fuel generalizing st with
  | zero => exact .unfinished [] fun t => ⟨false, rfl⟩
  | succ fuel ih =>
      rw [timedLoop]
      split
      next hstop =>
          by_cases hopen : st.unsatGoals = []
          · exact .covered [] st balanced_nil hopen
          · have hlimit := not_or.mp (hstop.resolve_left hopen)
            exact .limited [] st 0 balanced_nil hlimit.1
              (by have := hle hlimit.1; omega) rfl
      next hgo =>
          obtain ⟨hopen, hlimit⟩ := not_or.mp hgo
          rw [not_not] at hlimit
          split
          next => exact .unsatisfiable [] _ balanced_nil hopen
          next v hv =>
              split
              next =>
                  refine .unfinished _ fun t => ?_
                  rw [(balanced_checkCalls _).protocol_append t]
                  by_cases ht : t = .satCoverage st.tcs.length
                  · exact ⟨true, by simp [callsOf, ht, protocol, TimerCall.after]⟩
                  · exact ⟨false, by simp [callsOf, Ne.symm ht]⟩
              next cov hcov =>
                  have hround : generationRound env answers rounds st =
                      some (st.pushTestCase v cov) := by
                    rw [generationRound, if_neg hopen, hv, Option.bind_some, hcov]
                    rfl
                  have hlen : (st.pushTestCase v cov).tcs.length = st.tcs.length + 1 := by
                    simp [Generation.pushTestCase]
                  refine (ih (st.pushTestCase v cov) fun hne => ?_).cons
                    (balanced_round env _ _) hround hlen
                  have hlt := hlimit.resolve_left hne
                  omega

/-- Rounds up to the limit are what the loop does. -/
theorem timedLoop_of_rounds (n : Nat) (st : Generation) {out : Generation}
    (hlimit : env.limit ≠ 0) (hn : st.tcs.length + n = env.limit)
    (hrounds : generationRounds env answers rounds n st = some out) :
    ∃ log, Balanced log ∧ timedLoop env answers rounds (n + 1) st = (log, some out) := by
  induction n generalizing st with
  | zero =>
      cases hrounds
      refine ⟨[], balanced_nil, ?_⟩
      rw [timedLoop, if_pos]
      right
      omega
  | succ n ih =>
      obtain ⟨next, hround, hrest⟩ := Option.bind_eq_some_iff.mp hrounds
      have hopen : st.unsatGoals ≠ [] := by
        intro hnil
        rw [generationRound, if_pos hnil] at hround
        cases hround
      rw [generationRound, if_neg hopen] at hround
      obtain ⟨v, hv, hmap⟩ := Option.bind_eq_some_iff.mp hround
      obtain ⟨cov, hcov, rfl⟩ := Option.map_eq_some_iff.mp hmap
      have hlen : (st.pushTestCase v cov).tcs.length = st.tcs.length + 1 := by
        simp [Generation.pushTestCase]
      obtain ⟨log, hlog, hloop⟩ := ih (st.pushTestCase v cov) (by omega) hrest
      refine ⟨checkCalls st.tcs.length ++
          satCoverageCalls env (internalCoverage env v st.newTestCase).1 st.tcs.length ++ log,
        (balanced_round env _ _).append hlog, ?_⟩
      rw [timedLoop, if_neg (not_or.mpr ⟨hopen, not_not.mpr (Or.inr (by omega))⟩), hv]
      dsimp only
      rw [hcov]
      dsimp only
      rw [hloop]

end Loop

/-- **Timers alternate** in all runs if and only if the limit never ends the
loop while goals are open. -/
theorem timers_alternate_iff (env : GenerationEnv) (answers : Answers) :
    (∀ fuel rounds, TimersAlternate (timedGenerate env answers fuel rounds)) ↔
      NotCutShort env answers := by
  constructor
  · intro h
    by_contra hcut
    obtain ⟨hlimit, hopen⟩ := not_or.mp hcut
    obtain ⟨rounds, hopen⟩ := not_forall.mp hopen
    obtain ⟨st, hopen⟩ := not_forall.mp hopen
    obtain ⟨hrounds, hst⟩ := Classical.not_imp.mp hopen
    obtain ⟨log, hlog, hloop⟩ := timedLoop_of_rounds env.limit (startGeneration env) hlimit
      (Nat.zero_add _) hrounds
    obtain ⟨running, hrunning, -⟩ := h (env.limit + 1) rounds .sat
    rw [timedGenerate, hloop] at hrunning
    dsimp only at hrunning
    -- the timer is stopped although it does not run
    rw [if_neg hst, hlog.protocol_append .sat] at hrunning
    cases hrunning
  · intro hshort fuel rounds t
    have hends : LoopEnds env answers rounds (startGeneration env)
        (timedLoop env answers rounds fuel (startGeneration env)) :=
      timedLoop_ends fuel (startGeneration env) fun _ => Nat.zero_le _
    rw [timedGenerate]
    generalize timedLoop env answers rounds fuel (startGeneration env) = run at hends
    cases hends with
    | unfinished log h =>
        obtain ⟨running, hrunning⟩ := h t
        exact ⟨running, hrunning, fun hnone => by cases hnone⟩
    | covered log out h hopen =>
        refine ⟨false, ?_, fun _ => rfl⟩
        dsimp only
        rw [if_pos hopen]
        exact h t
    | limited log out n h hlimit hn hrounds =>
        have hlen : n = env.limit := by simpa [startGeneration] using hn
        have hopen := (hshort.resolve_left hlimit) rounds out (hlen ▸ hrounds)
        refine ⟨false, ?_, fun _ => rfl⟩
        dsimp only
        rw [if_pos hopen]
        exact h t
    | unsatisfiable log out h hopen =>
        refine ⟨false, ?_, fun _ => rfl⟩
        dsimp only
        rw [if_neg hopen, List.append_assoc, h.protocol_append t]
        by_cases ht : t = .sat
        · simp [callsOf, ht, protocol, TimerCall.after]
        · simp [callsOf, Ne.symm ht]

/-- `sharedGoals`, where one test case is asked for. -/
def limitedGoals : GenerationEnv := { sharedGoals with limit := 1 }

/-- The only test case leaves the goal 1 open, and the timer of the main solver
is stopped twice. -/
theorem limitedGoals_stopped_twice :
    callsOf .sat (timedGenerate limitedGoals limitedGoals.solver.solve 3 3).1 =
        [.start, .stop, .stop] ∧
      ¬∀ fuel rounds,
        TimersAlternate (timedGenerate limitedGoals limitedGoals.solver.solve fuel rounds) := by
  have hcalls : callsOf .sat (timedGenerate limitedGoals limitedGoals.solver.solve 3 3).1 =
      [.start, .stop, .stop] := by decide
  refine ⟨hcalls, fun h => ?_⟩
  obtain ⟨running, hrunning, -⟩ := h 3 3 .sat
  rw [hcalls] at hrunning
  cases hrunning

end FShell
