import FShell.Evaluation.EvaluateFilter
import FShell.Instrumentation.GotoLtCompare

/-!
# Instrumenting nodes with predicates

`Predicate_Instrumentation::insert_predicate` walks a set of nodes and inserts a
predicate at each of them.  Every insertion rewrites the numbers under which the
nodes, and the edges that are collected, are ordered.  The edges are in order all
the same (`insertPredicate_sorted`).
-/

namespace FShell

open GotoTransformation

/-- The program, the edges of the instrumented nodes, the edges that are collected, and
the number of variables. -/
structure PredicateInstrumentation (Pred : Type) where
  program : NumberedFunctions
  nodeToPredInstr : Location → Pred → Option (Location × Location)
  predEdges : SearchTree (Location × Location)
  varCount : Nat

namespace PredicateInstrumentation

variable {Pred : Type} [DecidableEq Pred] (u : LocationNumbering) (env : Nat → PredicateEnv)
  (getExpr : Pred → Expr) (pred : Pred) (no : String ↪ Nat)

/-- The edge from the location instruction that was inserted to the next instruction. -/
def insertedEdge (Q : NumberedFunctions) (n : Location) (inserted : List Location) :
    Option (Location × Location) := do
  let front ← inserted.head?
  let fct ← Q.functions.find (ofLex front).1
  let next ← nextOf fct.body (ofLex front).2
  return (front, locationOf (ofLex n).1 next)

/-- What the loop does at a node.  The front end knows of the variables that were
made. -/
def instrumentNode (st : PredicateInstrumentation Pred) (n : Location) :
    Except String (Option (PredicateInstrumentation Pred)) :=
  match st.nodeToPredInstr n pred with
  | some _ => .ok (some st)
  | none => do
      match ← insertPredicateAt u (env st.varCount) st.program n (getExpr pred) st.varCount with
      | none => return none
      | some (Q, inserted, varCount) =>
          return (insertedEdge Q n inserted).map fun e =>
            let edges := st.predEdges.insert (Q.cfaEdgeLtCompare no) e
            let stored := edges.find (Q.cfaEdgeLtCompare no) e
            { program := Q
              nodeToPredInstr := Function.update st.nodeToPredInstr n
                (Function.update (st.nodeToPredInstr n) pred stored)
              predEdges := edges
              varCount := varCount }

/-- `insert_predicate(gf, nodes, pred, pred_edges)`. -/
def insertPredicate : List Location → PredicateInstrumentation Pred →
    Except String (Option (PredicateInstrumentation Pred))
  | [], st => .ok (some st)
  | n :: nodes, st => do
      match ← instrumentNode u env getExpr pred no st n with
      | none => return none
      | some st => insertPredicate nodes st

/-- The edges that were collected are edges of the program, in order. -/
structure InOrder (st : PredicateInstrumentation Pred) : Prop where
  edges : ∀ e ∈ st.predEdges.toList, st.program.HasEdge e
  sorted : st.predEdges.Sorted (st.program.cfaEdgeLtCompare no)

variable {u env getExpr pred no} {st st' : PredicateInstrumentation Pred} {n : Location}

/-- The ends of the new edge are instructions. -/
theorem hasEdge_insertedEdge {P Q : NumberedFunctions} {p : Expr} {varCount varCount' : Nat}
    {frontEnd : PredicateEnv} {inserted : List Location} {e : Location × Location}
    (h : insertPredicateAt u frontEnd P n p varCount = .ok (some (Q, inserted, varCount')))
    (he : insertedEdge Q n inserted = some e) : Q.HasEdge e := by
  obtain ⟨fct, tmp, cond, _, -, hinsert, hinserted⟩ := insertPredicateAt_eq h
  dsimp only at hinserted
  subst hinserted
  obtain ⟨fct', hfct', he⟩ := Option.bind_eq_some_iff.mp he
  obtain ⟨next, hnext, he⟩ := Option.bind_eq_some_iff.mp he
  cases he
  constructor
  · exact has_inserted hinsert (List.mem_append_right tmp (location_mem_testOf _ _ _))
  · obtain ⟨j, hj, rfl⟩ := Option.map_eq_some_iff.mp hnext
    have hfct' := GotoFunctions.find_eq_some.mp hfct'
    refine GotoFunctions.mem_locations.mpr ⟨_, fct', hfct', j, ?_, rfl⟩
    exact (List.dropWhile_sublist _).mem (List.mem_of_mem_tail (List.mem_of_head? hj))

/-- What happens at a node: nothing, or one insertion and one edge. -/
theorem instrumentNode_cases (h : instrumentNode u env getExpr pred no st n = .ok (some st')) :
    st' = st ∨ ∃ e, Inserts u st.program st'.program ∧ st'.program.HasEdge e ∧
      st'.predEdges = st.predEdges.insert (st'.program.cfaEdgeLtCompare no) e := by
  unfold instrumentNode at h
  cases hstored : st.nodeToPredInstr n pred with
  | some e =>
      rw [hstored] at h
      cases h
      exact Or.inl rfl
  | none =>
      simp only [hstored] at h
      obtain ⟨out, hinsert, h⟩ := bind_ok h
      cases out with
      | none => cases h
      | some q =>
          obtain ⟨Q, inserted, varCount⟩ := q
          obtain ⟨e, he, rfl⟩ := Option.map_eq_some_iff.mp (Except.ok.inj h)
          exact Or.inr ⟨e, .insertPredicateAt _ _ _ _ _ _ hinsert,
            hasEdge_insertedEdge hinsert he, rfl⟩

/-- One node. -/
theorem InOrder.instrumentNode (hst : st.InOrder no) (hsep : st.program.StaysSeparated u)
    (h : instrumentNode u env getExpr pred no st n = .ok (some st')) :
    Insertions u st.program st'.program ∧ st'.InOrder no := by
  rcases instrumentNode_cases h with rfl | ⟨e, hinserts, he, hedges⟩
  · exact ⟨.refl, hst⟩
  · have hrun : Insertions u st.program st'.program := .single hinserts
    have hstable : OrderStable no st.program st'.program := hinserts.renumbered.orderStable hsep
    have hhas : ∀ d ∈ st.predEdges.toList, st'.program.HasEdge d := by
      intro d hd
      have hsub := hinserts.renumbered.keeps.locations
      exact ⟨hsub.mem (hst.edges d hd).1, hsub.mem (hst.edges d hd).2⟩
    have hsorted := (hstable.edges st.predEdges hst.edges hst.sorted).1
    refine ⟨hrun, ?_, ?_⟩
    · intro d hd
      rw [hedges] at hd
      rcases SearchTree.mem_insert_of hd with rfl | hd
      · exact he
      · exact hhas d hd
    · rw [hedges]
      exact hsorted.insert (fun _ _ _ hx hy hz => cfaEdgeLtCompare_trans hx hy hz) hhas he

/-- **The edges stay in order** while the nodes are instrumented one after the other,
and so does every set of nodes or edges that was there before. -/
theorem insertPredicate_sorted {nodes : List Location} (hst : st.InOrder no)
    (hsep : st.program.StaysSeparated u)
    (h : insertPredicate u env getExpr pred no nodes st = .ok (some st')) :
    st'.InOrder no ∧ OrderStable no st.program st'.program := by
  have hrun : Insertions u st.program st'.program ∧ st'.InOrder no := by
    induction nodes generalizing st with
    | nil =>
        cases h
        exact ⟨.refl, hst⟩
    | cons n nodes ih =>
        rw [insertPredicate] at h
        obtain ⟨out, hnode, h⟩ := bind_ok h
        cases out with
        | none => cases h
        | some st₁ =>
            obtain ⟨hfirst, hst₁⟩ := hst.instrumentNode hsep hnode
            have hsep₁ := hfirst.renumbered.staysSeparated hsep
            obtain ⟨hrest, hst'⟩ := ih hst₁ hsep₁ h
            exact ⟨hfirst.trans hrest, hst'⟩
  exact ⟨hrun.2, (Insertions.renumbered hrun.1).orderStable hsep⟩

end PredicateInstrumentation

end FShell
