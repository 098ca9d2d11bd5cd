import FShell.Evaluation.FilterGraphs
import FShell.Evaluation.PathEnumeration
import FShell.Evaluation.StoredAutomata

/-!
# The class invariant of target graphs

The graphs of filter expressions and predicates keep the class invariant, and
so do those that `Evaluate_Path_Pattern` registers, except for one kind:
`visit(Edgecov)` drops the disconnected nodes and keeps the initial nodes.
An initial node without an edge is then no node of the graph any more.

`COMPOSE` makes such nodes: it takes the initial nodes of its first operand
that are nodes of both, whether or not an edge of both touches them.
-/

namespace FShell

/-- The lists of a stored graph. -/
def Cfa.toTargetGraph {ν : Type} [LinearOrder ν] (a : Cfa ν) : TargetGraph ν where
  disconnectedNodes := a.disconnectedNodes.toList
  edges := a.edges.toList.map ofLex
  initial := a.initial.toList

section Environment

variable {P : Type} [DecidableEq P]

/-- The graph that the path enumeration follows. -/
def flowGraph (env : FilterEnv P) (st : FilterState P) : FlowGraph Location where
  successors := fun l => (env.cfg l).successors.map Prod.fst
  ignored := fun l => (st.gf.instructionAt l).elim false ignoreInstruction

/-- What `Evaluate_Path_Pattern` is given once the filters are evaluated. -/
def pathPatternEnv (env : FilterEnv P) (st : FilterState P) (fuel : Nat) :
    PathPatternEnv FilterExpr P Location where
  filter := fun f => (st.get f).toTargetGraph
  predicate := fun p => (st.getPredicate p).toTargetGraph
  identity := .filterFunction .fIdentity
  pathcov := fun f bound graphs =>
    pathcovAutomaton (flowGraph env st) fuel (st.get f).toTargetGraph bound graphs
  pathcov_extends := fun _ _ graphs => edgeRelation_extends.pathcovAutomaton fuel graphs

end Environment

/-! ## What is registered -/

section Registered

variable {F P ν : Type} {env : PathPatternEnv F P ν} {Good : TargetGraph ν → Prop}
  {t : GraphTable F P ν}

/-- A graph behind some label. -/
def GraphTable.Registered (env : PathPatternEnv F P ν) (t : GraphTable F P ν)
    (g : TargetGraph ν) : Prop := ∃ i, t.lookupGraph env i = some g

/-- All graphs that are registered, or may be later under a label that is
already given, are good. -/
structure GoodTable (env : PathPatternEnv F P ν) (Good : TargetGraph ν → Prop)
    (t : GraphTable F P ν) : Prop where
  filters : ∀ i f, t.index.lookupIndex i = some (.filter f) → Good (env.filter f)
  predicates : ∀ i p, t.index.lookupIndex i = some (.predicate p) → Good (env.predicate p)
  more : ∀ g ∈ t.moreTargetGraphs, Good g

theorem GoodTable.registered (h : GoodTable env Good t) {g : TargetGraph ν}
    (hg : t.Registered env g) : Good g := by
  obtain ⟨i, hi⟩ := hg
  obtain ⟨r, hr, hderef⟩ := Option.bind_eq_some_iff.mp hi
  cases r with
  | filter f =>
      cases hderef
      exact h.filters i f hr
  | predicate p =>
      cases hderef
      exact h.predicates i p hr
  | more k => exact h.more g (List.mem_of_getElem? hderef)

theorem GoodTable.pushBack (h : GoodTable env Good t) {g : TargetGraph ν} (hg : Good g) :
    GoodTable env Good (t.pushBack g).2 where
  filters := h.filters
  predicates := h.predicates
  more := by
    intro g' hg'
    rcases List.mem_append.mp hg' with hold | hnew
    · exact h.more g' hold
    · exact List.mem_singleton.mp hnew ▸ hg

variable [DecidableEq F] [DecidableEq P]

theorem GoodTable.toIndex (h : GoodTable env Good t) {r : GraphRef F P}
    (hr : ∀ g, t.deref env r = some g → Good g) : GoodTable env Good (t.toIndex r).2 where
  filters := by
    intro i f hi
    rcases t.index.lookupIndex_toIndex_cases r hi with rfl | hold
    · exact hr _ rfl
    · exact h.filters i f hold
  predicates := by
    intro i p hi
    rcases t.index.lookupIndex_toIndex_cases r hi with rfl | hold
    · exact hr _ rfl
    · exact h.predicates i p hold
  more := h.more

omit [DecidableEq F] [DecidableEq P] in
/-- The pointer to a new graph. -/
theorem good_of_pushBack {g : TargetGraph ν} (hg : Good g) :
    ∀ g', (t.pushBack g).2.deref env (t.pushBack g).1 = some g' → Good g' := by
  intro g' hg'
  rw [GraphTable.deref_pushBack] at hg'
  exact Option.some.inj hg' ▸ hg

theorem GoodTable.edgeRelation (hedge : ∀ e, Good (edgeGraph e)) :
    EdgeRelation fun t u => GoodTable env Good t → GoodTable env Good u where
  refl := fun _ h => h
  trans := fun _ _ _ htu huv h => huv (htu h)
  addEdge := by
    intro en state e h
    exact (h.pushBack (hedge e)).toIndex (good_of_pushBack (hedge e))

theorem labelAtom_good {st : PathPatternState F P ν} {a : EcpAtom F P}
    {ref : GraphRef F P × GraphTable F P ν} (h : GoodTable env Good ref.2)
    (hderef : ∀ g, ref.2.deref env ref.1 = some g → Good g) :
    GoodTable env Good (labelAtom st a ref).graphs := h.toIndex hderef

theorem visitBinary_good {n : PathPattern F P}
    {combine : TraceAutomaton → TraceAutomaton → TraceAutomaton → TraceAutomaton}
    {visitA visitB : PathPatternState F P ν → PathPatternState F P ν}
    (hA : ∀ st, GoodTable env Good st.graphs → GoodTable env Good (visitA st).graphs)
    (hB : ∀ st, GoodTable env Good st.graphs → GoodTable env Good (visitB st).graphs)
    {st : PathPatternState F P ν} (h : GoodTable env Good st.graphs) :
    GoodTable env Good (visitBinary n combine visitA visitB st).graphs := by
  unfold visitBinary
  dsimp only
  split
  · exact hB _ (hA (st.insert n) h)
  · exact h

theorem simplifyEntry_graphs (st : PathPatternState F P ν) :
    st.simplifyEntry.graphs = st.graphs := by
  unfold PathPatternState.simplifyEntry
  cases st.entry with
  | none => rfl
  | some n => rfl

variable [DecidableEq ν]

/-- The graphs that the visit of an atom registers are good. -/
def AtomGood (env : PathPatternEnv F P ν) (Good : TargetGraph ν → Prop) : EcpAtom F P → Prop
  | .edgecov f => Good (EcpAtom.targetGraph env (.edgecov f))
  | .nodecov f => Good (EcpAtom.targetGraph env (.nodecov f))
  | .predicate p => Good (EcpAtom.targetGraph env (.predicate p))
  | .pathcov f bound => ∀ t, GoodTable env Good t → GoodTable env Good (env.pathcov f bound t).2

theorem visitAtom_good {st : PathPatternState F P ν} {a : EcpAtom F P}
    (h : GoodTable env Good st.graphs) (ha : AtomGood env Good a) :
    GoodTable env Good (visitAtom env st a).graphs := by
  cases a with
  | edgecov f =>
      unfold visitAtom
      dsimp only
      split
      · exact labelAtom_good (h.pushBack ha) (good_of_pushBack ha)
      next hdisc =>
        refine labelAtom_good h ?_
        intro g hg
        cases hg
        have hsame : env.filter f = EcpAtom.targetGraph env (.edgecov f) := by
          rw [EcpAtom.targetGraph, ← not_not.mp hdisc]
        exact hsame ▸ ha
  | nodecov f => exact labelAtom_good (h.pushBack ha) (good_of_pushBack ha)
  | predicate p =>
      refine labelAtom_good h ?_
      intro g hg
      cases hg
      exact ha
  | pathcov f bound => exact ha _ h

theorem visitPath_good {p : PathPattern F P}
    (hp : ∀ a, .atom a ∈ p.subpatterns → AtomGood env Good a) :
    ∀ st : PathPatternState F P ν, GoodTable env Good st.graphs →
      GoodTable env Good (visitPath env p st).graphs := by
  induction p with
  | atom a =>
      intro st h
      unfold visitPath
      dsimp only
      split
      · exact visitAtom_good h (hp a (List.mem_singleton_self _))
      · exact h
  | ppAlternative ppA ppB ihA ihB =>
      intro st h
      exact visitBinary_good
        (ihA fun a ha => hp a (List.mem_cons_of_mem _ (List.mem_append_left _ ha)))
        (ihB fun a ha => hp a (List.mem_cons_of_mem _ (List.mem_append_right _ ha))) h
  | ppConcat ppA ppB ihA ihB =>
      intro st h
      exact visitBinary_good
        (ihA fun a ha => hp a (List.mem_cons_of_mem _ (List.mem_append_left _ ha)))
        (ihB fun a ha => hp a (List.mem_cons_of_mem _ (List.mem_append_right _ ha))) h
  | repetition pp lower upper ih =>
      intro st h
      unfold visitPath
      dsimp only
      split
      · exact ih (fun a ha => hp a (List.mem_cons_of_mem _ ha)) _ h
      · exact h

theorem runVisits_good {vs : List (PatternVisit F P)} (hid : Good (env.filter env.identity))
    (hvs : ∀ v ∈ vs, ∀ a, .atom a ∈ v.pattern.subpatterns → AtomGood env Good a) :
    GoodTable env Good (runVisits env vs).graphs := by
  have hempty : GoodTable env Good ⟨TargetGraphIndex.empty, []⟩ :=
    { filters := fun i f hi => by simp [TargetGraphIndex.lookupIndex, TargetGraphIndex.empty] at hi
      predicates := fun i p hi => by
        simp [TargetGraphIndex.lookupIndex, TargetGraphIndex.empty] at hi
      more := fun g hg => absurd hg List.not_mem_nil }
  have hstart : GoodTable env Good (startState env).graphs := by
    refine hempty.toIndex ?_
    intro g hg
    cases hg
    exact hid
  refine List.foldlRecOn (motive := fun st : PathPatternState F P ν => GoodTable env Good st.graphs)
    _ _ hstart ?_
  intro st h v hv
  cases v with
  | plain p => exact visitPath_good (hvs _ hv) st h
  | quoted p =>
      show GoodTable env Good (visitPath env p st).simplifyEntry.graphs
      rw [simplifyEntry_graphs]
      exact visitPath_good (hvs _ hv) st h

end Registered

/-- Every atom but a path enumeration registers its graph. -/
theorem registered_of_hasAtom {F P ν : Type} [DecidableEq F] [DecidableEq P] [DecidableEq ν]
    {env : PathPatternEnv F P ν} {query : Query F P} {a : EcpAtom F P} (ha : query.HasAtom a)
    (hreg : (PathPattern.atom a).Regular) :
    (evaluatePathPattern env query).graphs.Registered env (a.targetGraph env) := by
  obtain ⟨v, hv, hsub⟩ := mem_visits.mpr ha
  obtain ⟨before, after, hsplit⟩ := List.append_of_mem hv
  rw [evaluatePathPattern_eq, hsplit, runVisits, List.foldl_append, List.foldl_cons]
  obtain ⟨st, hst⟩ : ∃ st, st = before.foldl (PatternVisit.run env) (startState env) := ⟨_, rfl⟩
  rw [← hst]
  have hinv : RunInv env st := hst ▸ (RunInv.start.steps before).1
  obtain ⟨_, hvisited⟩ := visitPath_spec env v.pattern st (hinv.ready _)
  obtain ⟨hinvStep, hkeepsStep⟩ := hinv.step v
  obtain ⟨hinvEnd, hkeepsEnd⟩ := hinvStep.steps after
  have hstored := hkeepsEnd.ne_none (hkeepsStep.ne_none (hvisited.stored _ hsub))
  obtain ⟨aut, haut⟩ := Option.ne_none_iff_exists'.mp hstored
  exact ⟨_, (hinvEnd.atoms a aut haut hreg).graph⟩

/-! ## The graphs of a query -/

theorem Cfa.ClassInvariance.toTargetGraph {ν : Type} [LinearOrder ν] {a : Cfa ν}
    (h : a.ClassInvariance) : a.toTargetGraph.ClassInvariance where
  disconnected := by
    intro e he
    obtain ⟨d, hd, rfl⟩ := List.mem_map.mp he
    exact ⟨fun hn => h.disconnected _ hn ⟨d, hd, Or.inl rfl⟩,
      fun hn => h.disconnected _ hn ⟨d, hd, Or.inr rfl⟩⟩
  initial := by
    intro n hn
    refine (h.initial n hn).imp id fun htouched => ?_
    obtain ⟨e, he, hends⟩ := htouched
    exact ⟨ofLex e, List.mem_map_of_mem he, hends⟩

/-- The graph without its disconnected nodes. -/
theorem dropDisconnected_invariance_iff {ν : Type} [LinearOrder ν] (a : Cfa ν) :
    TargetGraph.ClassInvariance
      { disconnectedNodes := [], edges := a.toTargetGraph.edges,
        initial := a.toTargetGraph.initial } ↔
    a.value.initial ⊆ GraphValue.ends a.value.edges := by
  have hends (n : ν) : (∃ e ∈ a.toTargetGraph.edges, n = e.1 ∨ n = e.2) ↔
      n ∈ GraphValue.ends a.value.edges := by
    unfold Cfa.toTargetGraph
    simp only [List.mem_map, exists_exists_and_eq_and]
    exact ⟨fun h => h.imp fun e he => he, fun h => h.imp fun e he => he⟩
  constructor
  · intro h n hn
    exact (hends n).mp ((h.initial n hn).resolve_left List.not_mem_nil)
  · intro h
    exact { disconnected := fun _ _ => ⟨List.not_mem_nil, List.not_mem_nil⟩
            initial := fun n hn => Or.inr ((hends n).mpr (h hn)) }

section Query

variable {P : Type} {env : FilterEnv P} {st : FilterState P}

theorem Settled.get_invariance (h : Idle env st) (f : FilterExpr) :
    (st.get f).ClassInvariance := by
  unfold FilterState.get
  cases hf : st.filterMap f with
  | none => exact Cfa.empty_invariance
  | some g => exact h.invariance f g hf

theorem Settled.getPredicate_invariance (h : Idle env st) (p : P) :
    (st.getPredicate p).ClassInvariance := by
  unfold FilterState.getPredicate
  cases hp : st.predicateMap p with
  | none => exact Cfa.empty_invariance
  | some g => exact h.predicates p g hp

variable [DecidableEq P] {gf : GotoFunctions} {query : Query FilterExpr P}

/-- **When all target graphs keep the class invariant.** -/
theorem classInvariance_iff (hquery : evaluateFilter env gf query = .ok st) (fuel : Nat) :
    ((∀ f g, st.filterMap f = some g → g.ClassInvariance) ∧
      (∀ p g, st.predicateMap p = some g → g.ClassInvariance) ∧
      ∀ g, (evaluatePathPattern (pathPatternEnv env st fuel) query).graphs.Registered
        (pathPatternEnv env st fuel) g → g.ClassInvariance) ↔
    ∀ f, query.HasAtom (.edgecov f) →
      let value := f.denote fun fn => (st.get (.filterFunction fn)).value
      value.initial ⊆ GraphValue.ends value.edges := by
  obtain ⟨hst, hentry⟩ := evaluateFilter_spec hquery
  have hvalue (f : FilterExpr) (hf : query.HasAtom (.edgecov f)) :
      (EcpAtom.targetGraph (pathPatternEnv env st fuel) (.edgecov f)).ClassInvariance ↔
        let value := f.denote fun fn => (st.get (.filterFunction fn)).value
        value.initial ⊆ GraphValue.ends value.edges := by
    obtain ⟨g, hg⟩ := hentry _ hf
    have hget : st.get f = g := by rw [FilterState.get, hg, Option.getD_some]
    refine (dropDisconnected_invariance_iff (st.get f)).trans ?_
    rw [hget, hst.value_eq_denote f hg]
  constructor
  · intro h f hf
    exact (hvalue f hf).mp (h.2.2 _ (registered_of_hasAtom hf trivial))
  · intro h
    refine ⟨hst.invariance, hst.predicates, fun g hg => ?_⟩
    rw [evaluatePathPattern_eq] at hg
    refine (runVisits_good ?_ ?_).registered hg
    · exact (hst.get_invariance _).toTargetGraph
    · intro v hv a ha
      have hatom := mem_visits.mp ⟨v, hv, ha⟩
      cases a with
      | edgecov f => exact (hvalue f hatom).mpr (h f hatom)
      | nodecov f =>
          exact { disconnected := fun _ he => absurd he List.not_mem_nil
                  initial := fun _ hn => absurd hn List.not_mem_nil }
      | predicate p => exact (hst.getPredicate_invariance p).toTargetGraph
      | pathcov f bound =>
          refine (GoodTable.edgeRelation fun e => ?_).pathcovAutomaton fuel
          exact { disconnected := fun _ _ => ⟨List.not_mem_nil, List.not_mem_nil⟩
                  initial := fun _ hn => absurd hn List.not_mem_nil }

end Query

/-! ## A composition

Two lines of a function, and the nodes of the first that start the second. -/

/-- A plain instruction with a line. -/
def lineInstruction (pc : Nat) (type : InstructionType) (line : String) : Instruction :=
  ⟨pc, type, .none, "main", some ⟨"main.c", line, "", ""⟩, .isTrue, [], []⟩

/-- `x = 1;` on line 1, `y = 2;` on line 2. -/
def linesMain : GotoFunction where
  bodyAvailable := true
  isInlined := false
  body := [lineInstruction 0 .assign "1", lineInstruction 1 .assign "2",
    lineInstruction 2 .endFunction "3"]
  pcs_nodup := by decide

def linesProgram : GotoFunctions where
  functionMap := [("main", linesMain)]
  names_nodup := by decide

def linesEnv : FilterEnv Unit where
  main := "main"
  cfg := CfgEntries.empty.computeEdges linesProgram
  insertPredicateAt := fun _ _ _ => .error "no predicates"

/-- `COVER EDGES(f) PASSING EDGES(ID)`. -/
def edgesQuery (f : FilterExpr) : Query FilterExpr Unit where
  cover := .atom (.edgecov f)
  passing := .atom (.edgecov (.filterFunction .fIdentity))

def linesState (f : FilterExpr) : FilterState Unit :=
  (evaluateFilter linesEnv linesProgram (edgesQuery f)).toOption.getD
    ⟨linesProgram, fun _ => none, fun _ => none⟩

theorem classInvariance_iff_lines :
    let f := FilterExpr.filterFunction (.fLine 2)
    let env := pathPatternEnv linesEnv (linesState f) 5
    evaluateFilter linesEnv linesProgram (edgesQuery f) = .ok (linesState f) ∧
    (((∀ f' g, (linesState f).filterMap f' = some g → g.ClassInvariance) ∧
      (∀ p g, (linesState f).predicateMap p = some g → g.ClassInvariance) ∧
      ∀ g, (evaluatePathPattern env (edgesQuery f)).graphs.Registered env g →
        g.ClassInvariance) ↔
    ∀ f', (edgesQuery f).HasAtom (.edgecov f') →
      let value := f'.denote fun fn => ((linesState f).get (.filterFunction fn)).value
      value.initial ⊆ GraphValue.ends value.edges) := by
  intro f env
  have hquery : evaluateFilter linesEnv linesProgram (edgesQuery f) = .ok (linesState f) := rfl
  exact ⟨hquery, classInvariance_iff hquery 5⟩

/-- `COMPOSE(@LINE(2),@LINE(1))`. -/
def composedLines : FilterExpr :=
  .filterCompose (.filterFunction (.fLine 2)) (.filterFunction (.fLine 1))

/-- **`EDGES(COMPOSE(@LINE(2),@LINE(1)))`** has an initial node and no edge. -/
theorem composeEdges_violates_invariance :
    ¬ ∀ (env : FilterEnv Unit) gf query st fuel, evaluateFilter env gf query = .ok st →
      (∀ f g, st.filterMap f = some g → g.ClassInvariance) ∧
      (∀ p g, st.predicateMap p = some g → g.ClassInvariance) ∧
      ∀ g, (evaluatePathPattern (pathPatternEnv env st fuel) query).graphs.Registered
        (pathPatternEnv env st fuel) g → g.ClassInvariance := by
  intro h
  have hquery : evaluateFilter linesEnv linesProgram (edgesQuery composedLines) =
      .ok (linesState composedLines) := rfl
  have hregistered : (evaluatePathPattern (pathPatternEnv linesEnv (linesState composedLines) 0)
      (edgesQuery composedLines)).graphs.lookupGraph
        (pathPatternEnv linesEnv (linesState composedLines) 0) 1 =
      some { disconnectedNodes := [], edges := [], initial := [locationOf "main" 1] } := by
    decide +kernel
  have hinv := (h linesEnv linesProgram _ _ 0 hquery).2.2 _ ⟨1, hregistered⟩
  rcases hinv.initial _ (List.mem_singleton_self _) with hdisc | ⟨e, he, _⟩
  · exact List.not_mem_nil hdisc
  · exact List.not_mem_nil he

end FShell
