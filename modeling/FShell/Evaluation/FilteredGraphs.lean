import FShell.Evaluation.EnumerationPaths
import FShell.Instrumentation.PredicateInsertion

/-!
# What the graphs of filters are made of

An edge of a filter's graph is control flow from an instruction that is not to
be ignored, and initial nodes are such instructions.  The path enumeration
relies on it.  The instrumentation of predicates keeps it, since it inserts
instructions and does not change the ones there are
(`keepsInstructions_insertPredicateAt`).  So the words of the paths over a
filter are the bounded paths of its graph (`pathcov_words_of_evaluateFilter`).
-/

namespace FShell

open GotoTransformation

/-- The location has an instruction that is not to be ignored. -/
def Heeded (gf : GotoFunctions) (l : Location) : Prop :=
  ∃ i, gf.instructionAt l = some i ∧ ignoreInstruction i = false

/-- Edges are control flow from such instructions, and initial nodes are such
instructions. -/
structure FromProgram (cfg : CfgEntries) (gf : GotoFunctions) (g : Cfa Location) : Prop where
  edges : ∀ e ∈ g.edges, Heeded gf (Cfa.source e) ∧
    Cfa.target e ∈ (cfg (Cfa.source e)).successors.map Prod.fst
  initial : ∀ n ∈ g.initial, Heeded gf n

/-! ## Filter functions -/

theorem GotoFunctions.instructionAt_locationOf {gf : GotoFunctions} {f : String}
    {fct : GotoFunction} {i : Instruction} (hfind : gf.find f = some fct) (hi : i ∈ fct.body) :
    gf.instructionAt (locationOf f i.pc) = some i := by
  have hsome : ((fct.body.find? fun k => k.pc = i.pc)).isSome :=
    List.find?_isSome.mpr ⟨i, hi, by simp⟩
  obtain ⟨k, hk⟩ := Option.isSome_iff_exists.mp hsome
  have hpc : k.pc = i.pc := by simpa using List.find?_some hk
  have hki : k = i := (GotoFunction.eq_of_pc hi (List.mem_of_find?_eq_some hk) hpc)
  unfold GotoFunctions.instructionAt
  rw [show (ofLex (locationOf f i.pc)).1 = f from rfl, hfind]
  exact hk.trans (congrArg some hki)

theorem heeded_of_considered {gf : GotoFunctions} {f : String} {fct : GotoFunction}
    {i : Instruction} (hfind : gf.find f = some fct) (hi : i ∈ considered fct.body) :
    Heeded gf (locationOf f i.pc) := by
  obtain ⟨hbody, htest⟩ := List.mem_filter.mp hi
  refine ⟨i, GotoFunctions.instructionAt_locationOf hfind hbody, ?_⟩
  cases h : ignoreInstruction i with
  | false => rfl
  | true => simp [h] at htest

section Primitive

variable {cfg : CfgEntries} {gf gf' : GotoFunctions} {a b : Cfa Location}

/-- The graph that is made of what the loops collected. -/
def Collected.toCfa (c : Collected) : Cfa Location where
  disconnectedNodes := SortedSet.empty
  edges := c.edges
  initial := c.initial

theorem loops_fromProgram : Collected.Loops cfg gf fun c => FromProgram cfg gf c.toCfa where
  none :=
    { edges := fun _ h => absurd h SortedSet.notMem_empty
      initial := fun _ h => absurd h SortedSet.notMem_empty }
  insert := by
    intro acc f fct e s isInitial hfind he hs hacc
    have hheeded := heeded_of_considered hfind he
    refine ⟨?_, ?_⟩
    · intro d hd
      rcases SortedSet.mem_insert.mp hd with rfl | hold
      · exact ⟨hheeded, List.mem_map.mpr ⟨s, hs, rfl⟩⟩
      · exact hacc.edges d hold
    · intro n hn
      have hcases : n = locationOf f e.pc ∨ n ∈ acc.initial := by
        cases isInitial with
        | false => exact Or.inr hn
        | true => exact SortedSet.mem_insert.mp hn
      rcases hcases with rfl | hold
      · exact hheeded
      · exact hacc.initial n hold

theorem filterFunctionGraph_fromProgram {main : String} {n : FilterFunction} {g : Cfa Location}
    (h : filterFunctionGraph main cfg gf n = .ok g) : FromProgram cfg gf g := by
  obtain ⟨c, hc, h⟩ := bind_ok h
  cases h
  exact loops_fromProgram.collectEdges hc

/-! ## Set operations -/

theorem FromProgram.setunion (ha : FromProgram cfg gf a) (hb : FromProgram cfg gf b) :
    FromProgram cfg gf (a.setunion b) where
  edges := fun e he => ((Cfa.mem_setunion_edges e).mp he).elim (ha.edges e) (hb.edges e)
  initial := fun n hn => ((Cfa.mem_setunion_initial n).mp hn).elim (ha.initial n) (hb.initial n)

theorem FromProgram.setintersection (ha : FromProgram cfg gf a) :
    FromProgram cfg gf (a.setintersection b) where
  edges := fun e he => ha.edges e ((Cfa.mem_setintersection_edges e).mp he).1
  initial := fun n hn => ha.initial n ((Cfa.mem_setintersection_initial n).mp hn).1

theorem FromProgram.setsubtract (ha : FromProgram cfg gf a) :
    FromProgram cfg gf (a.setsubtract b) where
  edges := fun e he => ha.edges e ((Cfa.mem_setsubtract_edges e).mp he).1
  initial := fun n hn => ha.initial n ((Cfa.mem_setsubtract_initial n).mp hn).1

theorem FromProgram.composeGraph (ha : FromProgram cfg gf a) :
    FromProgram cfg gf (composeGraph a b) where
  edges := fun e he => ha.edges e ((Cfa.mem_setintersection_edges e).mp he).1
  initial := fun n hn => ha.initial n (SortedSet.mem_inter.mp hn).1

theorem fromProgram_empty : FromProgram cfg gf Cfa.empty where
  edges := fun _ h => absurd h SortedSet.notMem_empty
  initial := fun _ h => absurd h SortedSet.notMem_empty

/-- Instructions stay where they are and stay what they are. -/
def KeepsInstructions (gf gf' : GotoFunctions) : Prop :=
  ∀ l i, gf.instructionAt l = some i →
    ∃ i', gf'.instructionAt l = some i' ∧ ignoreInstruction i' = ignoreInstruction i

/-- With its function, an instruction and its kind. -/
def kindAt (i : Instruction) : Nat × Bool := (i.pc, ignoreInstruction i)

section WithBody

variable {f g : String} {fct gct : GotoFunction} {body : List Instruction}
  {hnd : (body.map Instruction.pc).Nodup}

/-- The function has the other instructions. -/
theorem find_withBody (hfct : gf.find f = some fct) :
    (gf.withBody f body hnd).find f = some { fct with body := body, pcs_nodup := hnd } := by
  refine GotoFunctions.find_eq_some.mpr ?_
  exact List.mem_map.mpr ⟨(f, fct), GotoFunctions.find_eq_some.mp hfct, if_pos rfl⟩

/-- The other functions are the same. -/
theorem find_withBody_of_ne (hne : g ≠ f) (hgct : gf.find g = some gct) :
    (gf.withBody f body hnd).find g = some gct := by
  refine GotoFunctions.find_eq_some.mpr ?_
  exact List.mem_map.mpr ⟨(g, gct), GotoFunctions.find_eq_some.mp hgct, if_neg hne⟩

end WithBody

/-- An instruction that is found is one of its function. -/
theorem exists_of_instructionAt {l : Location} {i : Instruction}
    (h : gf.instructionAt l = some i) :
    ∃ f fct, gf.find f = some fct ∧ i ∈ fct.body ∧ l = locationOf f i.pc := by
  obtain ⟨fct, hfct, hbody⟩ := Option.bind_eq_some_iff.mp h
  have hpc : i.pc = (ofLex l).2 := by simpa using List.find?_some hbody
  refine ⟨(ofLex l).1, fct, hfct, List.mem_of_find?_eq_some hbody, ?_⟩
  rw [hpc]
  rfl

/-- `insert_at` keeps the instructions. -/
theorem keepsInstructions_insertAtNode {u : LocationNumbering} {A B : NumberedFunctions}
    {node : Location} {prg : List Instruction} {inserted : List Location}
    (h : insertAtNode u A node prg = some (B, inserted)) :
    KeepsInstructions A.functions B.functions := by
  by_cases hprg : prg = []
  · rw [insertAtNode, if_pos hprg] at h
    cases h
    exact fun l i hi => ⟨i, hi, rfl⟩
  · obtain ⟨fct, C, _, hfct, hinsert, hreplace⟩ := insertAtNode_eq hprg h
    have hsub : (fct.body.map kindAt).Sublist (C.instructions.map kindAt) :=
      insertAt_sublist (fun _ _ => rfl) hinsert
    unfold replaceBody at hreplace
    split_ifs at hreplace with hnd
    cases hreplace
    intro l i hi
    obtain ⟨g, gct, hgct, hmem, rfl⟩ := exists_of_instructionAt hi
    by_cases hg : g = (ofLex node).1
    · subst hg
      obtain rfl := Option.some.inj (hfct.symm.trans hgct)
      obtain ⟨i', hi', hkind⟩ := List.mem_map.mp (hsub.mem (List.mem_map_of_mem hmem))
      obtain ⟨hpc, hsame⟩ := Prod.mk.inj hkind
      rw [← hpc]
      exact ⟨i', GotoFunctions.instructionAt_locationOf (find_withBody hfct) hi', hsame⟩
    · exact ⟨i, GotoFunctions.instructionAt_locationOf (find_withBody_of_ne hg hgct) hmem, rfl⟩

/-- **The insertion of a predicate keeps the instructions.** -/
theorem keepsInstructions_insertPredicateAt {u : LocationNumbering} {frontEnd : PredicateEnv}
    {A : NumberedFunctions} {node : Location} {pred : Expr} {varCount : Nat}
    {q : NumberedFunctions × List Location × Nat}
    (h : insertPredicateAt u frontEnd A node pred varCount = .ok (some q)) :
    KeepsInstructions A.functions q.1.functions := by
  obtain ⟨_, _, _, _, _, hinsert, _⟩ := insertPredicateAt_eq h
  exact keepsInstructions_insertAtNode hinsert

theorem FromProgram.keeps (h : FromProgram cfg gf a) (hkeeps : KeepsInstructions gf gf') :
    FromProgram cfg gf' a := by
  have hheeded : ∀ l, Heeded gf l → Heeded gf' l := by
    intro l ⟨i, hi, hnot⟩
    obtain ⟨i', hi', hsame⟩ := hkeeps l i hi
    exact ⟨i', hi', hsame.trans hnot⟩
  exact ⟨fun e he => ⟨hheeded _ (h.edges e he).1, (h.edges e he).2⟩,
    fun n hn => hheeded n (h.initial n hn)⟩

end Primitive

/-! ## Queries -/

section Queries

variable {P : Type} {env : FilterEnv P}

/-- All stored graphs are made of the program. -/
def StoredFromProgram (env : FilterEnv P) (st : FilterState P) : Prop :=
  ∀ f g, st.filterMap f = some g → FromProgram env.cfg st.gf g

theorem StoredFromProgram.get {st : FilterState P} (h : StoredFromProgram env st) (n : FilterExpr) :
    FromProgram env.cfg st.gf (st.get n) := by
  unfold FilterState.get
  cases hn : st.filterMap n with
  | none => exact fromProgram_empty
  | some g => exact h n g hn

theorem StoredFromProgram.store {st : FilterState P} (h : StoredFromProgram env st) {n : FilterExpr}
    {g : Cfa Location} (hg : FromProgram env.cfg st.gf g) :
    StoredFromProgram env (st.store n g) := by
  intro f g' hf
  by_cases hfn : f = n
  · subst hfn
    rw [store_filterMap_self] at hf
    exact Option.some.inj hf ▸ hg
  · rw [store_filterMap_of_ne g hfn] at hf
    exact h f g' hf

/-- The visits of filter expressions. -/
theorem visitFilter_fromProgram (n : FilterExpr) :
    VisitKeeps (StoredFromProgram env) (visitFilter env n) := by
  induction n with
  | filterFunction fn =>
      intro st st' hst hvisit
      unfold visitFilter at hvisit
      cases hn : st.filterMap (.filterFunction fn) with
      | some g =>
          rw [hn] at hvisit
          cases hvisit
          exact hst
      | none =>
          rw [hn] at hvisit
          obtain ⟨g, hg, hvisit⟩ := bind_ok hvisit
          cases hvisit
          exact (hst.store fromProgram_empty).store (filterFunctionGraph_fromProgram hg)
  | filterCompose a b ihA ihB =>
      exact visitOperands_keeps ihA ihB (fun _ h => h.store fromProgram_empty)
        fun _ h => h.store (h.get a).composeGraph
  | filterIntersection a b ihA ihB =>
      exact visitOperands_keeps ihA ihB (fun _ h => h.store fromProgram_empty)
        fun _ h => h.store (h.get a).setintersection
  | filterSetminus a b ihA ihB =>
      exact visitOperands_keeps ihA ihB (fun _ h => h.store fromProgram_empty)
        fun _ h => h.store (h.get a).setsubtract
  | filterUnion a b ihA ihB =>
      exact visitOperands_keeps ihA ihB (fun _ h => h.store fromProgram_empty)
        fun _ h => h.store ((h.get a).setunion (h.get b))

/-- Predicates are inserted as `insert_predicate_at` does it, with what the front
end answers and the number of variables at that time. -/
def FilterEnv.InsertsPredicates (env : FilterEnv P) : Prop :=
  ∀ gf n p gf' e, env.insertPredicateAt gf n p = .ok (gf', e) →
    ∃ u frontEnd A pred varCount q, A.functions = gf ∧ q.1.functions = gf' ∧
      GotoTransformation.insertPredicateAt u frontEnd A n pred varCount = .ok (some q)

/-- The instrumentation of one predicate at some nodes. -/
theorem insertPredicate_keeps (hinsert : env.InsertsPredicates)
    {p : P} {nodes : List Location} {gf gf' : GotoFunctions} {edges : SortedSet Edge}
    (h : insertPredicate env p nodes gf = .ok (gf', edges)) : KeepsInstructions gf gf' := by
  refine foldlM_ok (fun q : GotoFunctions × SortedSet Edge => KeepsInstructions gf q.1) ?_ ?_ h
  · exact fun l i hi => ⟨i, hi, rfl⟩
  · intro q n _ q' hq hstep
    obtain ⟨⟨gf₁, e⟩, he, hstep⟩ := bind_ok hstep
    cases hstep
    obtain ⟨u, frontEnd, A, pred, varCount, r, hA, hr, hinserted⟩ := hinsert _ _ _ _ _ he
    have hkeeps := keepsInstructions_insertPredicateAt hinserted
    rw [hA, hr] at hkeeps
    intro l i hi
    obtain ⟨i₁, hi₁, hsame₁⟩ := hq l i hi
    obtain ⟨i₂, hi₂, hsame₂⟩ := hkeeps l i₁ hi₁
    exact ⟨i₂, hi₂, hsame₂.trans hsame₁⟩

variable [DecidableEq P] (hinsert : env.InsertsPredicates)

include hinsert

theorem visitPredicate_fromProgram (p : P) :
    VisitKeeps (StoredFromProgram env) (visitPredicate env p) := by
  intro st st' hst hvisit
  obtain ⟨_, _, rfl⟩ | ⟨_, gf, edges, hedges, rfl⟩ := visitPredicate_cases hvisit
  · exact hst
  · exact fun f g hf => (hst f g hf).keeps (insertPredicate_keeps hinsert hedges)

/-- **The graphs of a query** are what the path enumeration expects. -/
theorem filtered_of_evaluateFilter {gf : GotoFunctions} {query : Query FilterExpr P}
    {st : FilterState P} (hquery : evaluateFilter env gf query = .ok st) (f : FilterExpr) :
    (flowGraph env st).Filtered (st.get f).toTargetGraph := by
  have hstored : StoredFromProgram env st :=
    evaluateFilter_keeps (fun _ _ hf => absurd hf nofun) visitFilter_fromProgram
      (fun p _ => visitPredicate_fromProgram hinsert p) hquery
  have hheeded : ∀ l, Heeded st.gf l → (flowGraph env st).ignored l = false := by
    intro l ⟨i, hi, hnot⟩
    exact (congrArg (fun o : Option Instruction => o.elim false ignoreInstruction) hi).trans hnot
  have hget := hstored.get f
  refine ⟨?_, ?_⟩
  · intro e he
    obtain ⟨d, hd, rfl⟩ := List.mem_map.mp he
    exact ⟨hheeded _ (hget.edges d hd).1, (hget.edges d hd).2⟩
  · exact fun n hn => hheeded n (hget.initial n hn)

/-- **The paths over a filter of a query.**  Where every initial node of its
graph lets the enumeration take all of its edges or none, every word is a
bounded path, and every bounded path that goes nowhere else is a word. -/
theorem pathcov_words_of_evaluateFilter {gf : GotoFunctions} {query : Query FilterExpr P}
    {st : FilterState P} (hquery : evaluateFilter env gf query = .ok st) {f : FilterExpr} {k : Int}
    (hk : 1 ≤ k) (hall : AllOrNone (flowGraph env st) (st.get f).toTargetGraph k)
    {penv : PathPatternEnv FilterExpr P Location} {graphs : GraphTable FilterExpr P Location}
    {fuel : Nat} {en : Enumeration FilterExpr P Location}
    (hrun : runPathcov (flowGraph env st) fuel (st.get f).toTargetGraph k graphs = some en) :
    (∀ w ∈ en.1.accepts, ∃ es, Spells penv en.2 w es ∧ es ≠ [] ∧
        ∃ root ∈ (st.get f).toTargetGraph.initial,
          BoundedPath (flowGraph env st) (st.get f).toTargetGraph k root es) ∧
      ∀ root ∈ (st.get f).toTargetGraph.initial, ∀ es, es ≠ [] →
        BoundedPath (flowGraph env st) (st.get f).toTargetGraph k root es →
        NoContinuation (flowGraph env st) (st.get f).toTargetGraph k (entered root es)
          (endNode root es) →
        ∃ w ∈ en.1.accepts, Spells penv en.2 w es := by
  have hfiltered := filtered_of_evaluateFilter hinsert hquery f
  exact ⟨runPathcov_sound hfiltered hk hrun hall, runPathcov_complete hfiltered hk hrun⟩

end Queries

end FShell
