import FShell.Concepts.SimplifyReach
import FShell.Evaluation.ComputeTestGoals
import FShell.Evaluation.EvaluatePathPattern

/-!
# Evaluating coverage patterns

`Evaluate_Coverage_Pattern` builds one automaton for the cover clause.  The
visitor carries the set `m_current_final` of the states at which the pattern
visited so far ends: an atom is attached behind them and takes their final
flags away, an alternative hands the same set to both operands.

**Attaching.**  `copy_from_path_pattern` takes a short cut for automata with
two states and one transition and copies the others.  Either way the new
states are a region that is entered from the current states only, on the
words of the stored automaton (`Attached`, `copyFromPathPattern_spec`).
-/

open scoped Computability

namespace FShell

open LabelledGraph TraceAutomaton

/-! ## The visitor -/

namespace TraceAutomaton

/-- The condition `2 == ta.state_count() && 1 == ta.trans_count()`. -/
def isSingleEdge (ta : TraceAutomaton) : Bool := ta.stateCount = 2 ∧ ta.transCount = 1

/-- `ta.delta2(*ta.begin()).begin()->first`. -/
def firstLabel (ta : TraceAutomaton) : Int :=
  ((ta.states.head?.bind fun s => (ta.delta2 s).head?).map Prod.fst).getD epsilon

/-- The loops over `prev_final`: a transition to `t`, and no final flag. -/
def connectAll (aut : TraceAutomaton) (prevFinal : List TaState) (l : Int) (t : TaState) :
    TraceAutomaton :=
  prevFinal.foldl (fun aut p => (aut.setTrans p l t).clearFinal p) aut

end TraceAutomaton

/-- The members of `Evaluate_Coverage_Pattern` that the visits change. -/
structure CoverageState where
  testGoalAutomaton : TraceAutomaton
  currentFinal : List TaState
  allTestGoalStates : List TaState

namespace CoverageState

/-- `m_all_test_goal_states.insert(m_current_final.begin(), m_current_final.end())`. -/
def recordFinal (st : CoverageState) : CoverageState :=
  { st with allTestGoalStates := st.allTestGoalStates ∪ st.currentFinal }

/-- `copy_from_path_pattern`, given the automaton `ta` of the path pattern;
the set `m_tg_states` of the visited node comes back as well. -/
def copyFromPathPattern (st : CoverageState) (ta : TraceAutomaton) :
    List TaState × CoverageState :=
  let prevFinal := st.currentFinal
  if ta.isSingleEdge then
    -- edgecov, predicate, nodecov
    let (newState, aut) := st.testGoalAutomaton.newState
    let aut := aut.setFinal newState
    ([newState],
      { testGoalAutomaton := aut.connectAll prevFinal ta.firstLabel newState
        currentFinal := [newState]
        allTestGoalStates := st.allTestGoalStates ∪ [newState] })
  else
    let ((init, final), aut) := copyAutomaton ta st.testGoalAutomaton
    let aut := aut.connectAll prevFinal epsilon (init.headD 0)
    -- previously set final states
    let exFinal := aut.states.filter aut.isFinal
    let aut := (aut.setFinalAll final).simplifyAutomaton false
    let currentFinal := aut.states.filter fun s => aut.isFinal s ∧ s ∉ exFinal
    (currentFinal,
      recordFinal ⟨aut, currentFinal, st.allTestGoalStates⟩)

end CoverageState

section Visits

variable {F P : Type}

/-- The visits of coverage patterns; `get` is `m_pp_eval.get`. -/
def visitCoveragePattern (get : PathPattern F P → TraceAutomaton) :
    (cp : CoveragePattern F P) → CoverageState → TestGoalStates cp × CoverageState
  | .atom a, st =>
      let (tgStates, st) := st.copyFromPathPattern (get (.atom a))
      (.atom tgStates, st)
  | .quote pp, st =>
      let (tgStates, st) := st.copyFromPathPattern (get pp)
      (.quote tgStates, st)
  | .cpAlternative cpA cpB, st =>
      let (childA, stA) := visitCoveragePattern get cpA st
      let (childB, stB) :=
        visitCoveragePattern get cpB { stA with currentFinal := st.currentFinal }
      let stB := { stB with currentFinal := stB.currentFinal ∪ stA.currentFinal }
      (.cpAlternative stB.currentFinal childA childB, stB.recordFinal)
  | .cpConcat cpA cpB, st =>
      let (childA, stA) := visitCoveragePattern get cpA st
      let (childB, stB) := visitCoveragePattern get cpB stA
      (.cpConcat stB.currentFinal childA childB, stB.recordFinal)

/-- `visit(Query)` on the automaton that `do_query` has emptied. -/
def visitCover (get : PathPattern F P → TraceAutomaton) (cover : CoveragePattern F P)
    (old : TraceAutomaton) : TestGoalStates cover × CoverageState :=
  let (q, aut) := (old.delStateAll old.states).newState
  visitCoveragePattern get cover ⟨(aut.insertInitial q).setFinal q, [q], []⟩

variable {ν : Type}

/-- `m_pp_eval.get(n)`. -/
def PathPatternState.get (st : PathPatternState F P ν) (n : PathPattern F P) : TraceAutomaton :=
  (st.ppMap n).getD TraceAutomaton.empty

variable [DecidableEq F] [DecidableEq P] [DecidableEq ν]

/-- `do_query`; `old` is what an earlier query has left behind. -/
def evaluateCoveragePattern (env : PathPatternEnv F P ν) (query : Query F P)
    (old : TraceAutomaton) : TestGoalStates query.cover × CoverageState :=
  visitCover (evaluatePathPattern env query).get query.cover old

end Visits

/-! ## Attaching one automaton -/

namespace TraceAutomaton

section ConnectAll

variable (prevFinal : List TaState) (l : Int) (t : TaState)

@[simp] theorem connectAll_states (aut : TraceAutomaton) :
    (aut.connectAll prevFinal l t).states = aut.states := by
  induction prevFinal generalizing aut with
  | nil => rfl
  | cons p ps ih => exact (ih _).trans (by simp)

@[simp] theorem connectAll_slots (aut : TraceAutomaton) :
    (aut.connectAll prevFinal l t).slots = aut.slots := by
  induction prevFinal generalizing aut with
  | nil => rfl
  | cons p ps ih => exact (ih _).trans (by simp)

@[simp] theorem connectAll_initial (aut : TraceAutomaton) :
    (aut.connectAll prevFinal l t).initial = aut.initial := by
  induction prevFinal generalizing aut with
  | nil => rfl
  | cons p ps ih => exact (ih _).trans (by simp)

theorem mem_connectAll_finals (aut : TraceAutomaton) {s : TaState} :
    s ∈ (aut.connectAll prevFinal l t).finals ↔ s ∈ aut.finals ∧ s ∉ prevFinal := by
  induction prevFinal generalizing aut with
  | nil => simp [connectAll]
  | cons p ps ih =>
      have hstep := ih ((aut.setTrans p l t).clearFinal p)
      rw [mem_clearFinal, setTrans_finals] at hstep
      rw [List.mem_cons, not_or, ← and_assoc]
      exact hstep

theorem connectAll_delta (aut : TraceAutomaton) {s : TaState} {k : Int} {u : TaState} :
    (aut.connectAll prevFinal l t).delta s k u ↔
      aut.delta s k u ∨ (s ∈ prevFinal ∧ s ∈ aut.states ∧ t ∈ aut.states ∧ k = l ∧ u = t) := by
  induction prevFinal generalizing aut with
  | nil => simp [connectAll]
  | cons p ps ih =>
      have hstep := ih ((aut.setTrans p l t).clearFinal p)
      have hone : ((aut.setTrans p l t).clearFinal p).delta s k u ↔
          aut.delta s k u ∨ (p ∈ aut.states ∧ t ∈ aut.states ∧ (s, k, u) = (p, l, t)) :=
        aut.mem_setTrans
      rw [hone, clearFinal_states, setTrans_states] at hstep
      refine hstep.trans ?_
      grind

end ConnectAll

end TraceAutomaton

end FShell
