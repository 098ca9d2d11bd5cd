import FShell.Evaluation.PathPatternLanguage

/-!
# What is stored for the patterns of a query

A property of automata that every construction of the visits and the
simplification keep holds of every stored automaton (`Rules.stored`).  It may
depend on the pattern.  An automaton is stored for exactly the patterns that
occur in the query (`stored_iff`).
-/

namespace FShell

open TraceAutomaton

variable {F P ν : Type} [DecidableEq F] [DecidableEq P] [DecidableEq ν]
  {env : PathPatternEnv F P ν} {R : PathPattern F P → TraceAutomaton → Prop}

/-- The constructions of the visits keep `R`. -/
structure Rules (env : PathPatternEnv F P ν) (R : PathPattern F P → TraceAutomaton → Prop) :
    Prop where
  label : ∀ a label, (PathPattern.atom a).Regular → label ≠ epsilon →
    R (.atom a) (atomAutomaton TraceAutomaton.empty label)
  pathcov : ∀ f k graphs, R (.atom (.pathcov f k)) (env.pathcov f k graphs).1
  ppAlternative : ∀ ppA ppB a b, R ppA a → R ppB b →
    R (.ppAlternative ppA ppB) (ppAlternativeAutomaton a b TraceAutomaton.empty)
  ppConcat : ∀ ppA ppB a b, R ppA a → R ppB b →
    R (.ppConcat ppA ppB) (ppConcatAutomaton a b TraceAutomaton.empty)
  repetition : ∀ pp sub lower upper, R pp sub →
    R (.repetition pp lower upper) (repeatAutomaton sub lower upper TraceAutomaton.empty)
  simplify : ∀ n aut, R n aut → R n (aut.simplifyAutomaton true)

/-- What is new in `st'` has `R`. -/
def AddsOnly (R : PathPattern F P → TraceAutomaton → Prop) (st st' : PathPatternState F P ν) :
    Prop :=
  ∀ n aut, st'.ppMap n = some aut → st.ppMap n = some aut ∨ R n aut

omit [DecidableEq F] [DecidableEq P] [DecidableEq ν] in
theorem AddsOnly.trans {st st' st'' : PathPatternState F P ν} (h : AddsOnly R st st')
    (h' : AddsOnly R st' st'') : AddsOnly R st st'' := by
  intro n aut haut
  rcases h' n aut haut with hmid | hnew
  · exact h n aut hmid
  · exact Or.inr hnew

/-- What is stored at and below `p` has `R`. -/
def StoredBelow (R : PathPattern F P → TraceAutomaton → Prop) (p : PathPattern F P)
    (st : PathPatternState F P ν) : Prop :=
  ∀ n ∈ p.subpatterns, ∀ aut, st.ppMap n = some aut → R n aut

section Visits

variable {st st' : PathPatternState F P ν} {n p q : PathPattern F P}

omit [DecidableEq F] [DecidableEq P] [DecidableEq ν] in
theorem StoredBelow.after (h : StoredBelow R p st) (hadds : AddsOnly R st st') :
    StoredBelow R p st' := by
  intro m hm aut haut
  rcases hadds m aut haut with hold | hnew
  · exact h m hm aut hold
  · exact hnew

omit [DecidableEq F] [DecidableEq P] [DecidableEq ν] in
theorem AddsOnly.has (h : AddsOnly R st st') (hbelow : StoredBelow R p st) {aut : TraceAutomaton}
    (haut : st'.ppMap p = some aut) : R p aut := by
  rcases h p aut haut with hold | hnew
  · exact hbelow p p.mem_subpatterns_self aut hold
  · exact hnew

omit [DecidableEq ν] in
/-- The entry that a visit of `n` inserts is not seen by the visits of what is
below `n`. -/
theorem StoredBelow.insert (h : StoredBelow R n st) (hp : p ∈ n.subpatterns)
    (hsize : n ∉ p.subpatterns) : StoredBelow R p (st.insert n) := by
  intro m hm aut haut
  have hne : m ≠ n := fun heq => hsize (heq ▸ hm)
  have hsame : (st.insert n).ppMap m = st.ppMap m := by simp [PathPatternState.insert, hne]
  exact h m (PathPattern.mem_subpatterns_trans hm hp) aut (hsame ▸ haut)

omit [DecidableEq ν] in
theorem addsOnly_insert_of_known (h : st.ppMap n ≠ none) : AddsOnly R st (st.insert n) := by
  intro m aut haut
  rw [PathPatternState.insert_ppMap_of_known h] at haut
  exact Or.inl haut

omit [DecidableEq ν] in
/-- Writing the automaton of `n` over the entry that the visit of `n` has
inserted. -/
theorem AddsOnly.store (h : AddsOnly R (st.insert n) st') {aut : TraceAutomaton} (hn : R n aut) :
    AddsOnly R st (st'.store n aut) := by
  intro m aut' haut'
  by_cases hm : m = n
  · subst hm
    have hself : (st'.store m aut).ppMap m = some aut := by simp [PathPatternState.store]
    exact Or.inr (Option.some.inj (hself.symm.trans haut') ▸ hn)
  · have hother : (st'.store n aut).ppMap m = st'.ppMap m := by simp [PathPatternState.store, hm]
    have hinsert : (st.insert n).ppMap m = st.ppMap m := by simp [PathPatternState.insert, hm]
    rw [← hinsert]
    exact h m aut' (hother ▸ haut')

theorem addsOnly_visitBinary {ppA ppB : PathPattern F P}
    {combine : TraceAutomaton → TraceAutomaton → TraceAutomaton → TraceAutomaton}
    (hsub : n.subpatterns = n :: (ppA.subpatterns ++ ppB.subpatterns))
    (hsizeA : sizeOf ppA < sizeOf n) (hsizeB : sizeOf ppB < sizeOf n)
    (hcombine : ∀ a b, R ppA a → R ppB b → R n (combine a b TraceAutomaton.empty))
    (hvisitA : ∀ st, Ready st ppA → StoredBelow R ppA st → AddsOnly R st (visitPath env ppA st))
    (hvisitB : ∀ st, Ready st ppB → StoredBelow R ppB st → AddsOnly R st (visitPath env ppB st))
    (hready : Ready st n) (hstored : StoredBelow R n st) :
    AddsOnly R st (visitBinary n combine (visitPath env ppA) (visitPath env ppB) st) := by
  by_cases hnone : st.ppMap n = none
  · have hnot : ∀ m : PathPattern F P, sizeOf m < sizeOf n → n ∉ m.subpatterns :=
      fun m hm => PathPattern.notMem_subpatterns hm m.mem_subpatterns_self
    have hmemA : ppA ∈ n.subpatterns := by
      rw [hsub]
      exact List.mem_cons_of_mem _ (List.mem_append_left _ ppA.mem_subpatterns_self)
    have hmemB : ppB ∈ n.subpatterns := by
      rw [hsub]
      exact List.mem_cons_of_mem _ (List.mem_append_right _ ppB.mem_subpatterns_self)
    have hreadyA := hready.below hmemA (hnot ppA hsizeA)
    have hreadyB := hready.below hmemB (hnot ppB hsizeB)
    have hbelowA := hstored.insert hmemA (hnot ppA hsizeA)
    have hbelowB := hstored.insert hmemB (hnot ppB hsizeB)
    obtain ⟨hentryA, hA⟩ := visitPath_spec env ppA (st.insert n) hreadyA
    have hreadyB' := hA.ready hreadyA hreadyB
    obtain ⟨hentryB, hB⟩ := visitPath_spec env ppB _ hreadyB'
    have haddsA := hvisitA _ hreadyA hbelowA
    have haddsB := hvisitB _ hreadyB' (hbelowB.after haddsA)
    have hboth := haddsA.trans haddsB
    obtain ⟨a, ha⟩ := Option.ne_none_iff_exists'.mp
      ((hA.trans hB).stored ppA (Or.inl ppA.mem_subpatterns_self))
    obtain ⟨b, hb⟩ := Option.ne_none_iff_exists'.mp (hB.stored ppB ppB.mem_subpatterns_self)
    rw [visitBinary_of_new hnone hentryA hentryB ha hb]
    exact hboth.store (hcombine a b (hboth.has hbelowA ha) (hboth.has hbelowB hb))
  · rw [visitBinary_of_known hnone]
    exact addsOnly_insert_of_known hnone

omit [DecidableEq ν] in
theorem Rules.labelAtom (hR : Rules env R) {a : EcpAtom F P} (ha : (PathPattern.atom a).Regular)
    (hnone : st.ppMap (.atom a) = none) (ref : GraphRef F P × GraphTable F P ν) :
    AddsOnly R st (FShell.labelAtom (st.insert (.atom a)) a ref) := by
  have hrule := hR.label a _ ha (ref.2.index.toIndex_ne_epsilon ref.1)
  rw [← PathPatternState.insert_entryAutomaton hnone] at hrule
  have hrefl : AddsOnly R (st.insert (.atom a)) (st.insert (.atom a)) := fun _ _ h => Or.inl h
  exact hrefl.store hrule

theorem Rules.visitAtom (hR : Rules env R) {a : EcpAtom F P} (hnone : st.ppMap (.atom a) = none) :
    AddsOnly R st (FShell.visitAtom env (st.insert (.atom a)) a) := by
  cases a with
  | edgecov f => exact hR.labelAtom (a := .edgecov f) trivial hnone _
  | nodecov f => exact hR.labelAtom (a := .nodecov f) trivial hnone _
  | predicate p => exact hR.labelAtom (a := .predicate p) trivial hnone _
  | pathcov f k =>
      have hrefl : AddsOnly R (st.insert (.atom (.pathcov f k))) (st.insert (.atom (.pathcov f k))) :=
        fun _ _ h => Or.inl h
      exact hrefl.store (hR.pathcov f k st.graphs)

/-- **One visit adds only automata with `R`.** -/
theorem Rules.visitPath (hR : Rules env R) (p : PathPattern F P) :
    ∀ st, Ready st p → StoredBelow R p st → AddsOnly R st (FShell.visitPath env p st) := by
  induction p with
  | atom a =>
      intro st _ _
      by_cases hnone : st.ppMap (.atom a) = none
      · rw [visitPath_atom_of_new hnone]
        exact hR.visitAtom hnone
      · rw [visitPath_atom_of_known hnone]
        exact addsOnly_insert_of_known hnone
  | ppAlternative ppA ppB ihA ihB =>
      intro st hready hstored
      refine addsOnly_visitBinary rfl ?_ ?_ (hR.ppAlternative ppA ppB) ihA ihB hready hstored
      · simp only [PathPattern.ppAlternative.sizeOf_spec]
        omega
      · simp only [PathPattern.ppAlternative.sizeOf_spec]
        omega
  | ppConcat ppA ppB ihA ihB =>
      intro st hready hstored
      refine addsOnly_visitBinary rfl ?_ ?_ (hR.ppConcat ppA ppB) ihA ihB hready hstored
      · simp only [PathPattern.ppConcat.sizeOf_spec]
        omega
      · simp only [PathPattern.ppConcat.sizeOf_spec]
        omega
  | repetition pp lower upper ih =>
      intro st hready hstored
      by_cases hnone : st.ppMap (.repetition pp lower upper) = none
      · have hmem : pp ∈ (PathPattern.repetition pp lower upper).subpatterns :=
          List.mem_cons_of_mem _ pp.mem_subpatterns_self
        have hnot : PathPattern.repetition pp lower upper ∉ pp.subpatterns := by
          refine PathPattern.notMem_subpatterns ?_ pp.mem_subpatterns_self
          rw [PathPattern.repetition.sizeOf_spec]
          omega
        have hreadySub := hready.below hmem hnot
        have hbelow := hstored.insert hmem hnot
        obtain ⟨hentry, hvisited⟩ := visitPath_spec env pp _ hreadySub
        have hadds := ih _ hreadySub hbelow
        obtain ⟨sub, hsub⟩ := Option.ne_none_iff_exists'.mp
          (hvisited.stored pp pp.mem_subpatterns_self)
        rw [visitPath_repetition_of_new rfl hnone hentry hsub]
        exact hadds.store (hR.repetition pp sub lower upper (hadds.has hbelow hsub))
      · rw [visitPath_repetition_of_known hnone]
        exact addsOnly_insert_of_known hnone

end Visits

/-! ## Whole evaluations -/

omit [DecidableEq ν] in
/-- Simplifying the last entry changes that entry only. -/
theorem simplifyEntry_cases (st : PathPatternState F P ν) {m : PathPattern F P}
    {aut : TraceAutomaton} (h : st.simplifyEntry.ppMap m = some aut)
    (hentry : ∀ n, st.entry = some n → st.ppMap n ≠ none) :
    st.ppMap m = some aut ∨
      (st.entry = some m ∧ ∃ old, st.ppMap m = some old ∧ aut = old.simplifyAutomaton true) := by
  cases hn : st.entry with
  | none =>
      rw [PathPatternState.simplifyEntry, hn] at h
      exact Or.inl h
  | some n =>
      obtain ⟨old, hold⟩ := Option.ne_none_iff_exists'.mp (hentry n hn)
      rw [simplifyEntry_ppMap hn hold] at h
      by_cases hm : m = n
      · subst hm
        rw [Function.update_self] at h
        exact Or.inr ⟨rfl, old, hold, (Option.some.inj h).symm⟩
      · rw [Function.update_of_ne hm] at h
        exact Or.inl h

/-- **Every stored automaton has `R`.** -/
theorem Rules.stored (hR : Rules env R) (vs : List (PatternVisit F P)) :
    ∀ n aut, (runVisits env vs).ppMap n = some aut → R n aut := by
  have hrun : RunInv env (runVisits env vs) ∧
      ∀ n aut, (runVisits env vs).ppMap n = some aut → R n aut := by
    refine List.foldlRecOn (motive := fun st : PathPatternState F P ν => RunInv env st ∧
      ∀ n aut, st.ppMap n = some aut → R n aut) _ _ ⟨RunInv.start, fun _ _ h => nomatch h⟩ ?_
    intro st hst v _
    obtain ⟨hinv, hall⟩ := hst
    refine ⟨(hinv.step v).1, ?_⟩
    have hvisit : ∀ n aut, (FShell.visitPath env v.pattern st).ppMap n = some aut → R n aut := by
      intro n aut haut
      have hadds := hR.visitPath v.pattern st (hinv.ready v.pattern) fun m _ => hall m
      rcases hadds n aut haut with hold | hnew
      · exact hall n aut hold
      · exact hnew
    cases v with
    | plain p => exact hvisit
    | quoted p =>
        intro n aut haut
        rcases simplifyEntry_cases _ haut (hinv.visit p).entry with hold | ⟨_, old, hold, rfl⟩
        · exact hvisit n aut hold
        · exact hR.simplify n old (hvisit n old hold)
  exact hrun.2

/-- The pattern occurs in one of the two clauses. -/
def Query.HasPattern {F P : Type} (query : Query F P) (n : PathPattern F P) : Prop :=
  ∃ pp ∈ query.cover.pathPatterns ++ [query.passing], n ∈ pp.subpatterns

omit [DecidableEq F] [DecidableEq P] in
/-- The patterns that a query visits. -/
theorem mem_visits {query : Query F P} {n : PathPattern F P} :
    (∃ v ∈ query.cover.visits ++ [.quoted query.passing], n ∈ v.pattern.subpatterns) ↔
      query.HasPattern n := by
  have hcover (cp : CoveragePattern F P) :
      cp.visits.map PatternVisit.pattern = cp.pathPatterns := by
    induction cp with
    | atom a => rfl
    | quote pp => rfl
    | cpAlternative cpA cpB ihA ihB =>
        rw [CoveragePattern.visits, List.map_append, ihA, ihB, CoveragePattern.pathPatterns]
    | cpConcat cpA cpB ihA ihB =>
        rw [CoveragePattern.visits, List.map_append, ihA, ihB, CoveragePattern.pathPatterns]
  have hall : (query.cover.visits ++ [PatternVisit.quoted query.passing]).map
      PatternVisit.pattern = query.cover.pathPatterns ++ [query.passing] := by
    rw [List.map_append, hcover]
    rfl
  unfold Query.HasPattern
  rw [← hall]
  simp only [List.mem_map, exists_exists_and_eq_and]

/-- Automata are stored for the patterns at and below the visited ones. -/
theorem runVisits_stored_iff (vs : List (PatternVisit F P)) (n : PathPattern F P) :
    (runVisits env vs).ppMap n ≠ none ↔ ∃ v ∈ vs, n ∈ v.pattern.subpatterns := by
  constructor
  · have hrun : RunInv env (runVisits env vs) ∧ ((runVisits env vs).ppMap n ≠ none →
        ∃ v ∈ vs, n ∈ v.pattern.subpatterns) := by
      refine List.foldlRecOn (motive := fun st : PathPatternState F P ν => RunInv env st ∧
        (st.ppMap n ≠ none → ∃ v ∈ vs, n ∈ v.pattern.subpatterns)) _ _
        ⟨RunInv.start, fun h => absurd rfl h⟩ ?_
      intro st hst v hv
      obtain ⟨hinv, hold⟩ := hst
      refine ⟨(hinv.step v).1, ?_⟩
      have hvisit : (visitPath env v.pattern st).ppMap n ≠ none →
          ∃ v ∈ vs, n ∈ v.pattern.subpatterns := by
        intro hn
        by_cases hnone : st.ppMap n = none
        · obtain ⟨_, hvisited⟩ := visitPath_spec env v.pattern st (hinv.ready _)
          exact ⟨v, hv, (hvisited.added n hnone hn).1⟩
        · exact hold hnone
      cases v with
      | plain p => exact hvisit
      | quoted p =>
          intro hn
          obtain ⟨aut, haut⟩ := Option.ne_none_iff_exists'.mp hn
          apply hvisit
          rcases simplifyEntry_cases _ haut (hinv.visit p).entry with hsome | ⟨_, old, hsome, _⟩
          · exact hsome ▸ Option.some_ne_none aut
          · exact hsome ▸ Option.some_ne_none old
    exact hrun.2
  · intro ⟨v, hv, hn⟩
    obtain ⟨before, after, hsplit⟩ := List.append_of_mem hv
    have hstart : RunInv env (startState env) := RunInv.start
    obtain ⟨hinv, _⟩ := hstart.steps before
    obtain ⟨_, hvisited⟩ := visitPath_spec env v.pattern _ (hinv.ready _)
    obtain ⟨hinvStep, hkeepsStep⟩ := hinv.step v
    rw [hsplit, runVisits, List.foldl_append, List.foldl_cons]
    exact (hinvStep.steps after).2.ne_none (hkeepsStep.ne_none (hvisited.stored n hn))

/-- **What is stored** for a query. -/
theorem stored_iff (env : PathPatternEnv F P ν) (query : Query F P) (n : PathPattern F P) :
    (evaluatePathPattern env query).ppMap n ≠ none ↔ query.HasPattern n := by
  rw [evaluatePathPattern_eq, runVisits_stored_iff]
  exact mem_visits

end FShell
