import FShell.Ast.Pattern
import FShell.Concepts.TargetGraph
import FShell.Evaluation.PatternAutomata

/-!
# Evaluating path patterns

`Evaluate_Path_Pattern` walks the cover clause and then the passing clause
of a query and stores one automaton per path pattern.  A pattern met again
keeps the automaton it has, and a quoted pattern is simplified in place.
-/

open scoped Computability

namespace FShell

open LabelledGraph TraceAutomaton

/-! ## The visitor -/

/-- A pointer to a target graph: the graph of a filter or of a predicate, or
the `k`-th entry of `m_more_target_graphs`. -/
inductive GraphRef (F P : Type)
  | filter (f : F)
  | predicate (p : P)
  | more (k : Nat)
  deriving DecidableEq

/-- `m_target_graph_index` and `m_more_target_graphs`. -/
structure GraphTable (F P ν : Type) where
  index : TargetGraphIndex (GraphRef F P)
  moreTargetGraphs : List (TargetGraph ν)

/-- Nothing is forgotten from `t` to `u`. -/
structure GraphTable.Extends {F P ν : Type} (t u : GraphTable F P ν) : Prop where
  index : ∀ i r, t.index.lookupIndex i = some r → u.index.lookupIndex i = some r
  more : t.moreTargetGraphs <+: u.moreTargetGraphs

/-- What the visitor is given: `m_eval_filter` after its `do_query`, and the
path enumeration behind `Pathcov`, which may register further graphs. -/
structure PathPatternEnv (F P ν : Type) where
  filter : F → TargetGraph ν
  predicate : P → TargetGraph ν
  identity : F
  pathcov : F → Int → GraphTable F P ν → TraceAutomaton × GraphTable F P ν
  pathcov_extends : ∀ f bound (t : GraphTable F P ν), t.Extends (pathcov f bound t).2

/-- The members of `Evaluate_Path_Pattern` that change: `m_pp_map`, the key
that `m_entry` points at, and the graphs. -/
structure PathPatternState (F P ν : Type) where
  ppMap : PathPattern F P → Option TraceAutomaton
  entry : Option (PathPattern F P)
  graphs : GraphTable F P ν

section Visitor

variable {F P ν : Type} [DecidableEq F] [DecidableEq P] [DecidableEq ν]

namespace GraphTable

/-- `m_target_graph_index.to_index(r)`. -/
def toIndex (t : GraphTable F P ν) (r : GraphRef F P) : Int × GraphTable F P ν :=
  let (i, index) := t.index.toIndex r
  (i, { t with index := index })

/-- `m_more_target_graphs.push_back(g)`, and the pointer to the new entry. -/
def pushBack (t : GraphTable F P ν) (g : TargetGraph ν) : GraphRef F P × GraphTable F P ν :=
  (.more t.moreTargetGraphs.length, { t with moreTargetGraphs := t.moreTargetGraphs ++ [g] })

/-- The graph behind a pointer. -/
def deref (env : PathPatternEnv F P ν) (t : GraphTable F P ν) :
    GraphRef F P → Option (TargetGraph ν)
  | .filter f => some (env.filter f)
  | .predicate p => some (env.predicate p)
  | .more k => t.moreTargetGraphs[k]?

/-- The graph that a label stands for. -/
def lookupGraph (env : PathPatternEnv F P ν) (t : GraphTable F P ν) (i : Int) :
    Option (TargetGraph ν) :=
  (t.index.lookupIndex i).bind (t.deref env)

end GraphTable

namespace PathPatternState

/-- `m_pp_map.insert(make_pair(n, trace_automaton_t()))`. -/
def insert (st : PathPatternState F P ν) (n : PathPattern F P) : PathPatternState F P ν :=
  { st with
    ppMap := Function.update st.ppMap n (some ((st.ppMap n).getD TraceAutomaton.empty))
    entry := some n }

/-- The automaton behind the iterator of `m_entry`. -/
def entryAutomaton (st : PathPatternState F P ν) : TraceAutomaton :=
  (st.entry.bind st.ppMap).getD TraceAutomaton.empty

/-- Writing through the reference `current_aut` of the entry of `n`, which
`m_entry` points at again. -/
def store (st : PathPatternState F P ν) (n : PathPattern F P) (aut : TraceAutomaton) :
    PathPatternState F P ν :=
  { st with ppMap := Function.update st.ppMap n (some aut), entry := some n }

/-- `simplify_automaton(m_entry.first->second, true)`. -/
def simplifyEntry (st : PathPatternState F P ν) : PathPatternState F P ν :=
  match st.entry with
  | some n => st.store n (st.entryAutomaton.simplifyAutomaton true)
  | none => st

end PathPatternState

variable (env : PathPatternEnv F P ν)

/-- The common end of the visits of `Edgecov`, `Nodecov` and `Predicate`: the
automaton of the atom, labelled with the number of its target graph. -/
def labelAtom (st : PathPatternState F P ν) (a : EcpAtom F P)
    (ref : GraphRef F P × GraphTable F P ν) : PathPatternState F P ν :=
  let (label, graphs) := ref.2.toIndex ref.1
  { st.store (.atom a) (atomAutomaton st.entryAutomaton label) with graphs := graphs }

/-- The bodies of the visits of atoms, after the insertion of the entry. -/
def visitAtom (st : PathPatternState F P ν) (a : EcpAtom F P) : PathPatternState F P ν :=
  match a with
  | .edgecov f =>
      let tgg := env.filter f
      -- discard disconnected nodes, if any
      labelAtom st a (if tgg.disconnectedNodes ≠ [] then
        st.graphs.pushBack
          { disconnectedNodes := [], edges := tgg.edges, initial := tgg.initial }
      else (.filter f, st.graphs))
  | .nodecov f =>
      labelAtom st a (st.graphs.pushBack
        { disconnectedNodes := (env.filter f).getL, edges := [], initial := [] })
  | .predicate p => labelAtom st a (.predicate p, st.graphs)
  | .pathcov f bound =>
      let (aut, graphs) := env.pathcov f bound st.graphs
      { st.store (.atom a) aut with graphs := graphs }

/-- The visits of `PP_Alternative` and `PP_Concat`, which differ in what they
do with the automata of the operands.  A pattern that has an entry keeps it. -/
def visitBinary (n : PathPattern F P)
    (combine : TraceAutomaton → TraceAutomaton → TraceAutomaton → TraceAutomaton)
    (visitA visitB : PathPatternState F P ν → PathPatternState F P ν)
    (st : PathPatternState F P ν) : PathPatternState F P ν :=
  let inserted := (st.ppMap n).isNone
  let st := st.insert n
  if inserted then
    let currentAut := st.entryAutomaton
    let stA := visitA st
    let stB := visitB stA
    let entryA := (stA.entry.bind stB.ppMap).getD TraceAutomaton.empty
    stB.store n (combine entryA stB.entryAutomaton currentAut)
  else st

/-- The visits of path patterns. -/
def visitPath : PathPattern F P → PathPatternState F P ν → PathPatternState F P ν
  | .atom a, st =>
      let inserted := (st.ppMap (.atom a)).isNone
      let st := st.insert (.atom a)
      if inserted then visitAtom env st a else st
  | .ppAlternative ppA ppB, st =>
      visitBinary (.ppAlternative ppA ppB) ppAlternativeAutomaton (visitPath ppA)
        (visitPath ppB) st
  | .ppConcat ppA ppB, st =>
      visitBinary (.ppConcat ppA ppB) ppConcatAutomaton (visitPath ppA) (visitPath ppB) st
  | .repetition pp lower upper, st =>
      let n := .repetition pp lower upper
      let inserted := (st.ppMap n).isNone
      let st := st.insert n
      if inserted then
        let currentAut := st.entryAutomaton
        let stSub := visitPath pp st
        stSub.store n (repeatAutomaton stSub.entryAutomaton lower upper currentAut)
      else st

/-- The visits of coverage patterns. -/
def visitCoverage : CoveragePattern F P → PathPatternState F P ν → PathPatternState F P ν
  | .atom a, st => visitPath env (PathPattern.atom a) st
  | .quote pp, st => (visitPath env pp st).simplifyEntry
  | .cpAlternative cpA cpB, st => visitCoverage cpB (visitCoverage cpA st)
  | .cpConcat cpA cpB, st => visitCoverage cpB (visitCoverage cpA st)

/-- The state from which `do_query` starts: everything is cleared and the
identity graph has number 0. -/
def startState : PathPatternState F P ν where
  ppMap := fun _ => none
  entry := none
  graphs := (GraphTable.toIndex ⟨TargetGraphIndex.empty, []⟩ (.filter env.identity)).2

/-- `do_query`: the cover clause is visited and then the passing clause. -/
def evaluatePathPattern (query : Query F P) : PathPatternState F P ν :=
  (visitPath env query.passing (visitCoverage env query.cover (startState env))).simplifyEntry

end Visitor

end FShell
