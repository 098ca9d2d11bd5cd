import FShell.Evaluation.VisitPathPattern

/-!
# Path enumeration

`visit(Pathcov)` enumerates the paths of a target graph from each of its
initial nodes, with no node more often than the bound.  Every edge of a path
is a target graph of its own.  The recursion of `dfs_build` is cut off after
`fuel` calls below each other.
-/

namespace FShell

open TraceAutomaton

/-- The control flow that the enumeration follows: `m_cfg`, and the nodes
whose instruction is to be ignored. -/
structure FlowGraph (ν : Type) where
  successors : ν → List ν
  ignored : ν → Bool

/-- The graph of one edge. -/
def edgeGraph {ν : Type} (e : ν × ν) : TargetGraph ν :=
  { disconnectedNodes := [], edges := [e], initial := [] }

section PathEnumeration

variable {F P ν : Type} [DecidableEq F] [DecidableEq P]

/-- The automaton and the graphs that an enumeration writes to. -/
abbrev Enumeration (F P ν : Type) := TraceAutomaton × GraphTable F P ν

namespace Enumeration

/-- A transition for the graph that has the one edge `e`. -/
def addEdge (en : Enumeration F P ν) (state : TaState) (e : ν × ν) :
    TaState × Enumeration F P ν :=
  let (newState, ta) := en.1.newState
  let (ref, graphs) := en.2.pushBack (edgeGraph e)
  let (label, graphs) := graphs.toIndex ref
  (newState, ta.setTrans state label newState, graphs)

/-- The end of a path. -/
def finish (en : Enumeration F P ν) (state : TaState) (mayBeEnd : Bool) : Enumeration F P ν :=
  if en.1.delta2 state = [] then (en.1.setFinal state, en.2)
  else
    match mayBeEnd, en.1.delta2Backwards state with
    | true, inEdge :: _ =>
        let (newState, ta) := en.1.newState
        ((ta.setTrans inEdge.2 inEdge.1 newState).setFinal newState, en.2)
    | _, _ => en

end Enumeration

variable [DecidableEq ν]

instance TargetGraph.decidableMemEdges (tgg : TargetGraph ν) (e : ν × ν) :
    Decidable (e ∈ tgg.edges) := inferInstance

/-- `dfs_build(ta, state, root, bound, nc, tgg)`. -/
def dfsBuild (flow : FlowGraph ν) (tgg : TargetGraph ν) (bound : Int) :
    Nat → TaState → ν → (ν → Option Int) → Enumeration F P ν → Enumeration F P ν
  | 0, _, _, _, en => en
  | fuel + 1, state, root, nc, en =>
      let (en, mayBeEnd) := (flow.successors root).foldl
        (fun (q : Enumeration F P ν × Bool) s =>
          if flow.ignored root then
            -- just keep going but don't add anything
            let en := dfsBuild flow tgg bound fuel state s nc q.1
            (en, q.2 || en.1.delta2 state = [])
          else if nc s = some bound ∨ (root, s) ∉ tgg.edges then (q.1, true)
          else
            let ncNext := Function.update nc s (some ((nc s).elim 1 (· + 1)))
            let (newState, en) := q.1.addEdge state (root, s)
            (dfsBuild flow tgg bound fuel newState s ncNext en, q.2)) (en, false)
      en.finish state mayBeEnd

/-- The body of `visit(Pathcov const*)`. -/
def pathcovAutomaton (flow : FlowGraph ν) (fuel : Nat) (tgg : TargetGraph ν) (bound : Int)
    (graphs : GraphTable F P ν) : Enumeration F P ν :=
  let (currentInitial, ta) := TraceAutomaton.empty.newState
  tgg.initial.foldl (fun (en : Enumeration F P ν) root =>
    let iState := en.1.newState.1
    let ta := en.1.newState.2.setTrans currentInitial epsilon iState
    let nc := Function.update (fun _ => none) root (some 1)
    let en := dfsBuild flow tgg bound fuel iState root nc (ta, en.2)
    -- an initial state without successor is not accepting
    (en.1.clearFinal iState, en.2)) (ta.insertInitial currentInitial, graphs)

/-! ## What is registered -/

omit [DecidableEq F] [DecidableEq P] [DecidableEq ν] in
theorem Enumeration.finish_graphs (en : Enumeration F P ν) (state : TaState) (mayBeEnd : Bool) :
    (en.finish state mayBeEnd).2 = en.2 := by
  unfold Enumeration.finish
  split
  · rfl
  · split
    · rfl
    · rfl

/-- A relation on graph tables that an added edge respects. -/
structure EdgeRelation (R : GraphTable F P ν → GraphTable F P ν → Prop) : Prop where
  refl : ∀ t, R t t
  trans : ∀ t u v, R t u → R u v → R t v
  addEdge : ∀ (en : Enumeration F P ν) state e, R en.2 (en.addEdge state e).2.2

variable {R : GraphTable F P ν → GraphTable F P ν → Prop} {flow : FlowGraph ν}
  {tgg : TargetGraph ν} {bound : Int}

/-- The enumeration registers nothing but single edges. -/
theorem EdgeRelation.dfsBuild (h : EdgeRelation R) (fuel : Nat) :
    ∀ state root nc (en : Enumeration F P ν),
      R en.2 (dfsBuild flow tgg bound fuel state root nc en).2 := by
  induction fuel with
  | zero => exact fun _ _ _ en => h.refl en.2
  | succ fuel ih =>
      intro state root nc en
      unfold FShell.dfsBuild
      rw [Enumeration.finish_graphs]
      refine List.foldlRecOn (motive := fun q : Enumeration F P ν × Bool => R en.2 q.1.2) _ _
        (h.refl en.2) ?_
      intro q hq s _
      dsimp only
      split
      · exact h.trans _ _ _ hq (ih _ _ _ _)
      · split
        · exact hq
        · exact h.trans _ _ _ (h.trans _ _ _ hq (h.addEdge q.1 state (root, s))) (ih _ _ _ _)

theorem EdgeRelation.pathcovAutomaton (h : EdgeRelation R) (fuel : Nat)
    (graphs : GraphTable F P ν) : R graphs (pathcovAutomaton flow fuel tgg bound graphs).2 := by
  refine List.foldlRecOn (motive := fun en : Enumeration F P ν => R graphs en.2) _ _
    (h.refl graphs) ?_
  intro en hen root _
  have hbuild : ∀ state nc ta,
      R en.2 (FShell.dfsBuild flow tgg bound fuel state root nc (ta, en.2)).2 :=
    fun state nc ta => h.dfsBuild fuel state root nc (ta, en.2)
  exact h.trans _ en.2 _ hen (hbuild _ _ _)

omit [DecidableEq ν] in
theorem edgeRelation_extends : EdgeRelation (GraphTable.Extends (F := F) (P := P) (ν := ν)) where
  refl := GraphTable.Extends.refl
  trans := fun _ _ _ => GraphTable.Extends.trans
  addEdge := fun en _ e =>
    (en.2.extends_pushBack (edgeGraph e)).trans
      ((en.2.pushBack (edgeGraph e)).2.extends_toIndex (en.2.pushBack (edgeGraph e)).1)

end PathEnumeration

end FShell
