import FShell.Ast.FqlAstPrinter
import FShell.Concepts.GraphAlgebra
import FShell.Instrumentation.Cfg

/-!
# Evaluating filter expressions

`Evaluate_Filter` walks the filter expressions and predicates of a query and
stores one target graph for each.  An expression met again keeps the graph it
has.  A filter function collects edges of the control flow graph; the other
expressions combine the graphs of their operands with the operations of `Cfa`.
-/

namespace FShell

/-- An edge between two locations. -/
abbrev Edge := Location ×ₗ Location

/-! ## What is left out -/

/-- `get_file()` of a location that may be nil. -/
def Instruction.file (e : Instruction) : String :=
  (e.sourceLocation.map SourceLocation.file).getD ""

/-- `GOTO_Transformation::is_instrumented(inst)`. -/
def isInstrumented (e : Instruction) : Bool :=
  e.sourceLocation.map SourceLocation.propertyId = some "fshell2_instrumentation"

/-- `ignore_instruction(e)`. -/
def ignoreInstruction (e : Instruction) : Bool :=
  match e.type with
  | .skip | .endFunction | .atomicBegin | .atomicEnd | .decl | .dead => true
  | .other =>
      -- some generate code
      e.code ≠ .statement "cpp_delete" && e.code ≠ .statement "cpp_delete[]" &&
        e.code ≠ .statement "printf"
  | _ => false

/-- `ignore_function(e)` of an instruction. -/
def ignoreFunctionOf (e : Instruction) : Bool :=
  e.function = "_start" || e.function = "__CPROVER_initialize" ||
    (e.sourceLocation.isSome &&
      (e.file = "<built-in>" || "<builtin-library>-".toList.isPrefixOf e.file.toList))

/-- `ignore_function(fct)`. -/
def ignoreFunction (fct : GotoFunction) : Bool :=
  !fct.bodyAvailable || fct.isInlined ||
    match fct.body.head? with
    | none => true
    | some e => ignoreFunctionOf e

/-- The instructions that the loops do not skip. -/
def considered (body : List Instruction) : List Instruction :=
  body.filter fun e => !ignoreInstruction e && !isInstrumented e

/-! ## Filter functions -/

/-- The local variables `edges` and `initial`. -/
structure Collected where
  edges : SortedSet Edge
  initial : SortedSet Location

namespace Collected

def none : Collected := ⟨SortedSet.empty, SortedSet.empty⟩

/-- The body of a loop over the successors. -/
def insert (acc : Collected) (here dst : Location) (isInitial : Bool) : Collected where
  edges := acc.edges.insert (toLex (here, dst))
  initial := if isInitial then acc.initial.insert here else acc.initial

/-- The loop over the successors, when the instruction is initial. -/
def addSuccessors (cfg : CfgEntries) (f : String) (acc : Collected) (e : Instruction) : Collected :=
  (cfg (locationOf f e.pc)).successors.foldl
    (fun acc s => acc.insert (locationOf f e.pc) s.1 true) acc

/-- The loop over instructions that tests each of them alone. -/
def selected (cfg : CfgEntries) (test : Instruction → Bool) (f : String)
    (body : List Instruction) (acc : Collected) : Collected :=
  ((considered body).filter test).foldl (addSuccessors cfg f) acc

/-- The loop over instructions where only the first one that leads anywhere
may be initial. -/
def fromFirst (cfg : CfgEntries) (mayBeInitial : Bool) (f : String)
    (body : List Instruction) (acc : Collected) : Collected :=
  ((considered body).foldl (fun p e =>
    (cfg (locationOf f e.pc)).successors.foldl (fun p s =>
      let isInitial := p.1 && mayBeInitial
      (p.1 && !isInitial, p.2.insert (locationOf f e.pc) s.1 isInitial)) p) (true, acc)).2

/-- The loop over instructions that ends with the first one. -/
def entry (cfg : CfgEntries) (f : String) (body : List Instruction) (acc : Collected) :
    Collected :=
  match (considered body).head? with
  | some e => addSuccessors cfg f acc e
  | Option.none => acc

/-- The loop over instructions of `F_BASICBLOCKENTRY`. -/
def basicblockentry (cfg : CfgEntries) (f : String) (body : List Instruction)
    (acc : Collected) : Collected :=
  ((considered body).foldl (fun p e =>
    let cfgNode := cfg (locationOf f e.pc)
    if cfgNode.successors ≠ [] ∧
        (p.1 ∨ 1 < cfgNode.successors.length ∨ 1 < cfgNode.predecessors.length) then
      (false, addSuccessors cfg f p.2 e)
    else p) (true, acc)).2

/-- The loop over `function_map`. -/
def overFunctions (gf : GotoFunctions) (take : GotoFunction → Bool)
    (loop : String → List Instruction → Collected → Collected) : Collected :=
  (gf.functionMap.filter fun p => !ignoreFunction p.2 && take p.2).foldl
    (fun acc p => loop p.1 p.2.body acc) none

end Collected

/-- What follows the last `::` of a string, if there is one. -/
def afterDelim : List Char → Option (List Char)
  | ':' :: ':' :: rest => some ((afterDelim (':' :: rest)).getD rest)
  | _ :: rest => afterDelim rest
  | [] => none

/-- `n.substr(npos == delim ? 0 : delim + 2)` with `delim` from `rfind("::")`. -/
def baseName (n : String) : List Char := (afterDelim n.toList).getD n.toList

/-- The line of the source location, if it has one. -/
def Instruction.line (e : Instruction) : String :=
  (e.sourceLocation.map SourceLocation.line).getD ""

/-- The column of the source location, if it has one. -/
def Instruction.column (e : Instruction) : String :=
  (e.sourceLocation.map SourceLocation.column).getD ""

/-- `get_string(ID_identifier)` of the called expression. -/
def Instruction.calledIdentifier (e : Instruction) : String := e.callee.getD ""

/-- The symbols of one side of an assignment. -/
def Instruction.assignSymbols (e : Instruction) (side : Expr → Expr → Expr) : List String :=
  match e.code with
  | .assign lhs rhs => (side lhs rhs).symbols
  | _ => []

/-- A goto whose guard is no constant. -/
def Instruction.isBranch (e : Instruction) : Bool :=
  e.isGoto && e.guard ≠ .isTrue && e.guard ≠ .isFalse

/-- The tests of `F_STMTTYPE`. -/
def useStmt (types : Nat) (e : Instruction) : Bool :=
  ((types.testBit 0 || types.testBit 1 || types.testBit 2 || types.testBit 3) && e.isBranch) ||
  (types.testBit 4 && e.isAssign &&
    match e.code with
    | .assign _ rhs => rhs.id = "if"
    | _ => false) ||
  (types.testBit 5 && e.isAssert)

section Primitive

variable (main : String) (cfg : CfgEntries) (gf : GotoFunctions)

/-- `get_funct_entry<F>(gf, n)`. -/
def getFunctEntry (n : FilterFunction) (arg : String) : Except String GotoFunction :=
  match gf.find arg with
  | some fct =>
      if ignoreFunction fct then
        .error ("Cannot evaluate " ++ String.ofList n.print ++ " (function not available)")
      else .ok fct
  | none => .error ("Cannot evaluate " ++ String.ofList n.print ++ " (function not available)")

/-- The `switch` of `visit(Filter_Function const*)`. -/
def collectEdges (n : FilterFunction) : Except String Collected :=
  let everywhere (test : Instruction → Bool) : Except String Collected :=
    .ok (Collected.overFunctions gf (fun _ => true) (Collected.selected cfg test))
  match n with
  | .fIdentity =>
      .ok (Collected.overFunctions gf (fun _ => true)
        fun f => Collected.fromFirst cfg (f = main) f)
  | .fFile s =>
      .ok (Collected.overFunctions gf (fun fct => fct.body.head?.map Instruction.file = some s)
        (Collected.fromFirst cfg true))
  | .fLine n => everywhere fun e => e.line ≠ "" && e.line.toList = printInt n
  | .fColumn n => everywhere fun e => e.column ≠ "" && e.column.toList = printInt n
  | .fFunc s => do
      let fct ← getFunctEntry gf n s
      return Collected.fromFirst cfg true s fct.body Collected.none
  | .fLabel s => everywhere fun e => s ∈ e.labels
  | .fCall s => everywhere fun e => e.isFunctionCall && baseName e.calledIdentifier = s.toList
  | .fCalls => everywhere Instruction.isFunctionCall
  | .fEntry s => do
      let fct ← getFunctEntry gf n s
      return Collected.entry cfg s fct.body Collected.none
  | .fExit s => do
      let fct ← getFunctEntry gf n s
      return Collected.selected cfg Instruction.isReturn s fct.body Collected.none
  | .fBasicblockentry =>
      .ok (Collected.overFunctions gf (fun _ => true) (Collected.basicblockentry cfg))
  | .fConditionedge => everywhere Instruction.isBranch
  | .fDef s => everywhere fun e =>
      e.isAssign && (e.assignSymbols fun lhs _ => lhs).any fun n => baseName n = s.toList
  | .fUse s => everywhere fun e =>
      e.isAssign && (e.assignSymbols fun _ rhs => rhs).any fun n => baseName n = s.toList
  | .fStmttype types => everywhere (useStmt types)
  -- not implemented
  | .fExpr _ | .fRegexp _ | .fDecisionedge | .fConditiongraph => .ok Collected.none

/-- `visit(Filter_Function const*)`, the graph that is stored. -/
def filterFunctionGraph (n : FilterFunction) : Except String (Cfa Location) := do
  let collected ← collectEdges main cfg gf n
  return { disconnectedNodes := SortedSet.empty
           edges := collected.edges
           initial := collected.initial }

end Primitive

/-! ## The visitor -/

/-- What the visitor is given: `config.main`, the control flow graph, and the
instrumentation that inserts the test of a predicate at a location.  It
returns the changed program and the new edge. -/
structure FilterEnv (P : Type) where
  main : String
  cfg : CfgEntries
  insertPredicateAt : GotoFunctions → Location → P → Except String (GotoFunctions × Edge)

/-- The members of `Evaluate_Filter` that change. -/
structure FilterState (P : Type) where
  gf : GotoFunctions
  filterMap : FilterExpr → Option (Cfa Location)
  predicateMap : P → Option (Cfa Location)

/-- The end of `visit(Filter_Compose const*)`: the intersection gets other
initial nodes. -/
def composeGraph (a b : Cfa Location) : Cfa Location :=
  let c := a.setintersection b
  { c with initial := a.initial.inter c.getL }

/-- The graph that an expression stands for once every filter function has
one. -/
def FilterExpr.denote {ν : Type} (primitive : FilterFunction → GraphValue ν) :
    FilterExpr → GraphValue ν
  | filterFunction f => primitive f
  | filterCompose a b => (a.denote primitive).compose (b.denote primitive)
  | filterIntersection a b => (a.denote primitive).intersection (b.denote primitive)
  | filterSetminus a b => (a.denote primitive).subtract (b.denote primitive)
  | filterUnion a b => (a.denote primitive).union (b.denote primitive)

section Visitor

variable {P : Type}

namespace FilterState

/-- Writing to the entry of `n`. -/
def store (st : FilterState P) (n : FilterExpr) (g : Cfa Location) : FilterState P :=
  { st with filterMap := Function.update st.filterMap n (some g) }

/-- The graph of `n`. -/
def get (st : FilterState P) (n : FilterExpr) : Cfa Location :=
  (st.filterMap n).getD Cfa.empty

/-- The graph of a predicate. -/
def getPredicate (st : FilterState P) (p : P) : Cfa Location :=
  (st.predicateMap p).getD Cfa.empty

end FilterState

/-- The visits of expressions with two operands, which differ in what they do
with the graphs.  An expression that has an entry keeps it. -/
def visitOperands (n a b : FilterExpr) (combine : Cfa Location → Cfa Location → Cfa Location)
    (visitA visitB : FilterState P → Except String (FilterState P)) (st : FilterState P) :
    Except String (FilterState P) :=
  match st.filterMap n with
  | some _ => .ok st
  | none => do
      let st ← visitA (st.store n Cfa.empty)
      let st ← visitB st
      return st.store n (combine (st.get a) (st.get b))

variable (env : FilterEnv P)

/-- The visits of filter expressions. -/
def visitFilter : FilterExpr → FilterState P → Except String (FilterState P)
  | .filterFunction f, st =>
      match st.filterMap (.filterFunction f) with
      | some _ => .ok st
      | none => do
          let st := st.store (.filterFunction f) Cfa.empty
          let g ← filterFunctionGraph env.main env.cfg st.gf f
          return st.store (.filterFunction f) g
  | .filterCompose a b, st =>
      visitOperands (.filterCompose a b) a b composeGraph (visitFilter a) (visitFilter b) st
  | .filterIntersection a b, st =>
      visitOperands (.filterIntersection a b) a b Cfa.setintersection (visitFilter a)
        (visitFilter b) st
  | .filterSetminus a b, st =>
      visitOperands (.filterSetminus a b) a b Cfa.setsubtract (visitFilter a) (visitFilter b) st
  | .filterUnion a b, st =>
      visitOperands (.filterUnion a b) a b Cfa.setunion (visitFilter a) (visitFilter b) st

/-- `m_pred_instr.insert_predicate(gf, nodes, pred, pred_edges)`. -/
def insertPredicate (p : P) (nodes : List Location) (gf : GotoFunctions) :
    Except String (GotoFunctions × SortedSet Edge) :=
  nodes.foldlM (fun (q : GotoFunctions × SortedSet Edge) n => do
    let (gf, e) ← env.insertPredicateAt q.1 n p
    return (gf, q.2.insert e)) (gf, SortedSet.empty)

variable [DecidableEq P]

/-- `visit(Predicate const*)`. -/
def visitPredicate (p : P) (st : FilterState P) : Except String (FilterState P) :=
  match st.predicateMap p with
  | some _ => .ok st
  | none => do
      let idSet := st.get (.filterFunction .fIdentity)
      let (gf, edges) ← insertPredicate env p idSet.getL.toList st.gf
      let g : Cfa Location :=
        { disconnectedNodes := SortedSet.empty
          edges := edges
          initial := SortedSet.empty.insertAll (edges.toList.map Cfa.source) }
      return { st with gf := gf, predicateMap := Function.update st.predicateMap p (some g) }

/-- The visits of atoms. -/
def filterAtom : EcpAtom FilterExpr P → FilterState P → Except String (FilterState P)
  | .edgecov f, st => visitFilter env f st
  | .nodecov f, st => visitFilter env f st
  | .pathcov f _, st => visitFilter env f st
  | .predicate p, st => visitPredicate env p st

/-- The visits of path patterns. -/
def filterPath : PathPattern FilterExpr P → FilterState P → Except String (FilterState P)
  | .atom a, st => filterAtom env a st
  | .ppAlternative ppA ppB, st => filterPath ppA st >>= filterPath ppB
  | .ppConcat ppA ppB, st => filterPath ppA st >>= filterPath ppB
  | .repetition pp _ _, st => filterPath pp st

/-- The visits of coverage patterns. -/
def filterCoverage : CoveragePattern FilterExpr P → FilterState P → Except String (FilterState P)
  | .atom a, st => filterAtom env a st
  | .quote pp, st => filterPath env pp st
  | .cpAlternative cpA cpB, st => filterCoverage cpA st >>= filterCoverage cpB
  | .cpConcat cpA cpB, st => filterCoverage cpA st >>= filterCoverage cpB

/-- `Evaluate_Filter::do_query`. -/
def evaluateFilter (gf : GotoFunctions) (query : Query FilterExpr P) :
    Except String (FilterState P) := do
  -- we should always have the target graph for ID
  let st ← visitFilter env (.filterFunction .fIdentity) ⟨gf, fun _ => none, fun _ => none⟩
  let st ← filterCoverage env query.cover st
  filterPath env query.passing st

end Visitor

/-! ## Filter functions -/

namespace Collected

/-- Every initial node starts an edge. -/
def Rooted (c : Collected) : Prop := ∀ n ∈ c.initial, ∃ e ∈ c.edges, n = Cfa.source e

/-- Nothing collected is rooted. -/
theorem none_rooted : none.Rooted := by
  intro n hn
  exact absurd hn SortedSet.notMem_empty

/-- One more edge, with its source. -/
theorem insert_rooted {acc : Collected} (h : acc.Rooted) (here dst : Location)
    (isInitial : Bool) : (acc.insert here dst isInitial).Rooted := by
  intro n hn
  have hcases : n = here ∨ n ∈ acc.initial := by
    cases isInitial with
    | false => exact Or.inr hn
    | true => exact SortedSet.mem_insert.mp hn
  rcases hcases with heq | hold
  · exact ⟨toLex (here, dst), SortedSet.mem_insert.mpr (Or.inl rfl), heq⟩
  · obtain ⟨e, he, hsource⟩ := h n hold
    exact ⟨e, SortedSet.mem_insert.mpr (Or.inr he), hsource⟩

/-- What holds of nothing, and goes on to hold when a loop comes to a
successor of an instruction. -/
structure Loops (cfg : CfgEntries) (gf : GotoFunctions) (p : Collected → Prop) : Prop where
  none : p none
  insert : ∀ {acc f fct e s} isInitial, gf.find f = some fct → e ∈ considered fct.body →
    s ∈ (cfg (locationOf f e.pc)).successors → p acc →
    p (acc.insert (locationOf f e.pc) s.1 isInitial)

section Loops

variable {cfg : CfgEntries} {gf : GotoFunctions} {p : Collected → Prop} {f : String}
  {fct : GotoFunction} {acc : Collected}

/-- The edges of one instruction. -/
theorem Loops.addSuccessors (h : Loops cfg gf p) (hf : gf.find f = some fct) {e : Instruction}
    (he : e ∈ considered fct.body) (hacc : p acc) : p (addSuccessors cfg f acc e) :=
  List.foldlRecOn (motive := p) _ _ hacc fun _ hacc _ hs => h.insert true hf he hs hacc

/-- The loop over the instructions that pass a test. -/
theorem Loops.selected (h : Loops cfg gf p) (hf : gf.find f = some fct)
    (test : Instruction → Bool) (hacc : p acc) : p (selected cfg test f fct.body acc) :=
  List.foldlRecOn (motive := p) _ _ hacc fun _ hacc _ he =>
    h.addSuccessors hf (List.mem_of_mem_filter he) hacc

/-- The loop from the first instruction of a function. -/
theorem Loops.fromFirst (h : Loops cfg gf p) (hf : gf.find f = some fct) (mayBeInitial : Bool)
    (hacc : p acc) : p (fromFirst cfg mayBeInitial f fct.body acc) := by
  refine List.foldlRecOn (motive := fun q : Bool × Collected => p q.2) _ _ hacc ?_
  intro q hq e he
  refine List.foldlRecOn (motive := fun q : Bool × Collected => p q.2) _ _ hq ?_
  intro r hr s hs
  exact h.insert _ hf he hs hr

/-- The loop that stops behind the first instruction. -/
theorem Loops.entry (h : Loops cfg gf p) (hf : gf.find f = some fct) (hacc : p acc) :
    p (entry cfg f fct.body acc) := by
  unfold Collected.entry
  cases hhead : (considered fct.body).head? with
  | none => exact hacc
  | some e => exact h.addSuccessors hf (List.mem_of_mem_head? hhead) hacc

/-- The loop over the entries of basic blocks. -/
theorem Loops.basicblockentry (h : Loops cfg gf p) (hf : gf.find f = some fct) (hacc : p acc) :
    p (basicblockentry cfg f fct.body acc) := by
  refine List.foldlRecOn (motive := fun q : Bool × Collected => p q.2) _ _ hacc ?_
  intro q hq e he
  dsimp only
  split
  · exact h.addSuccessors hf he hq
  · exact hq

/-- The loop over the functions. -/
theorem Loops.overFunctions (h : Loops cfg gf p) {take : GotoFunction → Bool}
    {loop : String → List Instruction → Collected → Collected}
    (hloop : ∀ f fct acc, gf.find f = some fct → p acc → p (loop f fct.body acc)) :
    p (overFunctions gf take loop) := by
  refine List.foldlRecOn (motive := p) _ _ h.none ?_
  intro acc hacc q hq
  exact hloop q.1 q.2 acc (GotoFunctions.find_eq_some.mpr (List.mem_of_mem_filter hq)) hacc

end Loops

/-- What the loops collect is rooted. -/
theorem loops_rooted (cfg : CfgEntries) (gf : GotoFunctions) : Loops cfg gf Rooted where
  none := none_rooted
  insert := fun isInitial _ _ _ hacc => insert_rooted hacc _ _ isInitial

end Collected

/-- A computation that succeeds, step by step. -/
theorem bind_ok {α β : Type} {x : Except String α} {k : α → Except String β} {b : β}
    (h : (x >>= k) = .ok b) : ∃ a, x = .ok a ∧ k a = .ok b := by
  cases x with
  | error e => cases h
  | ok a => exact ⟨a, rfl, h⟩

/-- What every iteration that succeeds keeps holds after the loop. -/
theorem foldlM_ok {α β : Type} {f : β → α → Except String β} {l : List α} {b b' : β}
    (p : β → Prop) (hb : p b) (hstep : ∀ c, ∀ a ∈ l, ∀ c', p c → f c a = .ok c' → p c')
    (hrun : l.foldlM f b = .ok b') : p b' := by
  induction l generalizing b with
  | nil =>
      cases hrun
      exact hb
  | cons a l ih =>
      rw [List.foldlM_cons] at hrun
      obtain ⟨c, hc, hrest⟩ := bind_ok hrun
      exact ih (hstep b a List.mem_cons_self c hb hc)
        (fun c a ha => hstep c a (List.mem_cons_of_mem _ ha)) hrest

/-- A function entry is one of the map. -/
theorem getFunctEntry_ok {gf : GotoFunctions} {n : FilterFunction} {arg : String}
    {fct : GotoFunction} (h : getFunctEntry gf n arg = .ok fct) : gf.find arg = some fct := by
  unfold getFunctEntry at h
  cases hfind : gf.find arg with
  | none =>
      rw [hfind] at h
      cases h
  | some callee =>
      rw [hfind] at h
      dsimp only at h
      split at h
      · cases h
      · cases h
        rfl

/-- **Every filter function** collects what its loops come to. -/
theorem Collected.Loops.collectEdges {main : String} {cfg : CfgEntries} {gf : GotoFunctions}
    {p : Collected → Prop} (h : Collected.Loops cfg gf p) {n : FilterFunction} {c : Collected}
    (hc : collectEdges main cfg gf n = .ok c) : p c := by
  have heverywhere (test : Instruction → Bool) :
      p (Collected.overFunctions gf (fun _ => true) (Collected.selected cfg test)) :=
    h.overFunctions fun _ _ _ hf hacc => h.selected hf test hacc
  cases n with
  | fIdentity =>
      cases hc
      exact h.overFunctions fun _ _ _ hf hacc => h.fromFirst hf _ hacc
  | fFile s =>
      cases hc
      exact h.overFunctions fun _ _ _ hf hacc => h.fromFirst hf _ hacc
  | fFunc s =>
      obtain ⟨fct, hfct, hc⟩ := bind_ok hc
      cases hc
      exact h.fromFirst (getFunctEntry_ok hfct) _ h.none
  | fEntry s =>
      obtain ⟨fct, hfct, hc⟩ := bind_ok hc
      cases hc
      exact h.entry (getFunctEntry_ok hfct) h.none
  | fExit s =>
      obtain ⟨fct, hfct, hc⟩ := bind_ok hc
      cases hc
      exact h.selected (getFunctEntry_ok hfct) _ h.none
  | fBasicblockentry =>
      cases hc
      exact h.overFunctions fun _ _ _ hf hacc => h.basicblockentry hf hacc
  | fExpr s => cases hc; exact h.none
  | fRegexp s => cases hc; exact h.none
  | fDecisionedge => cases hc; exact h.none
  | fConditiongraph => cases hc; exact h.none
  | fLine k => cases hc; exact heverywhere _
  | fColumn k => cases hc; exact heverywhere _
  | fLabel s => cases hc; exact heverywhere _
  | fCall s => cases hc; exact heverywhere _
  | fCalls => cases hc; exact heverywhere _
  | fConditionedge => cases hc; exact heverywhere _
  | fDef s => cases hc; exact heverywhere _
  | fUse s => cases hc; exact heverywhere _
  | fStmttype types => cases hc; exact heverywhere _

/-- A graph without disconnected nodes whose initial nodes start edges. -/
theorem invariance_of_rooted {c : Collected} (h : c.Rooted) :
    Cfa.ClassInvariance
      { disconnectedNodes := SortedSet.empty, edges := c.edges, initial := c.initial } where
  disconnected := fun _ hn => absurd hn SortedSet.notMem_empty
  initial := fun n hn => by
    obtain ⟨e, he, hsource⟩ := h n hn
    exact Or.inr ⟨e, he, Or.inl hsource⟩

/-- **Primitive filters.** -/
theorem filterFunctionGraph_invariance {main : String} {cfg : CfgEntries} {gf : GotoFunctions}
    {n : FilterFunction} {g : Cfa Location} (h : filterFunctionGraph main cfg gf n = .ok g) :
    g.ClassInvariance := by
  obtain ⟨c, hc, h⟩ := bind_ok h
  cases h
  exact invariance_of_rooted ((Collected.loops_rooted cfg gf).collectEdges hc)

end FShell
