import FShell.Evaluation.EvaluateFilter

/-!
# The stored target graphs

After a query every stored target graph keeps the class invariant and is the
set-algebra value of its expression over the graphs of the filter functions
(`evaluateFilter_idle`, `Settled.value_eq_denote`).  The argument is an
induction on filter expressions: while an expression is being visited its
entry holds an empty graph, and only smaller expressions are looked up.
-/

namespace FShell

/-! ## The composition -/

/-- `COMPOSE` is the intersection, with the initial nodes of the first graph. -/
theorem composeGraph_value (a b : Cfa Location) :
    (composeGraph a b).value = a.value.compose b.value := by
  ext n
  · exact Cfa.mem_setintersection_edges _
  · refine (Cfa.mem_getL _ n).trans ?_
    exact (Cfa.mem_getL _ n).symm.trans (Cfa.mem_setintersection_getL n)
  · refine SortedSet.mem_inter.trans (and_congr_right fun _ => ?_)
    exact Cfa.mem_setintersection_getL n

/-- `COMPOSE` keeps the class invariant. -/
theorem composeGraph_invariance {a b : Cfa Location} (ha : a.ClassInvariance)
    (hb : b.ClassInvariance) : (composeGraph a b).ClassInvariance where
  disconnected := (Cfa.setintersection_invariance ha hb).disconnected
  initial := fun n hn => (Cfa.mem_getL _ n).mp (SortedSet.mem_inter.mp hn).2

/-! ## Between two visits -/

section Stored

variable {P : Type}

/-- `g` combines the graphs of `a` and `b`, which are finished. -/
def Combines (st : FilterState P) (pending : FilterExpr → Prop) (a b : FilterExpr)
    (combine : Cfa Location → Cfa Location → Cfa Location) (g : Cfa Location) : Prop :=
  ∃ ga gb, st.filterMap a = some ga ∧ ¬ pending a ∧ st.filterMap b = some gb ∧ ¬ pending b ∧
    g = combine ga gb

/-- The graph of `f` is that of the graphs below. -/
def Finished (env : FilterEnv P) (st : FilterState P) (pending : FilterExpr → Prop)
    (g : Cfa Location) : FilterExpr → Prop
  | .filterFunction f => ∃ gf, filterFunctionGraph env.main env.cfg gf f = .ok g
  | .filterCompose a b => Combines st pending a b composeGraph g
  | .filterIntersection a b => Combines st pending a b Cfa.setintersection g
  | .filterSetminus a b => Combines st pending a b Cfa.setsubtract g
  | .filterUnion a b => Combines st pending a b Cfa.setunion g

/-- Between two visits: the expressions that are being visited have an empty
graph, all others a finished one. -/
structure Settled (env : FilterEnv P) (pending : FilterExpr → Prop) (st : FilterState P) :
    Prop where
  invariance : ∀ f g, st.filterMap f = some g → g.ClassInvariance
  finished : ∀ f g, st.filterMap f = some g → ¬ pending f → Finished env st pending g f
  predicates : ∀ p g, st.predicateMap p = some g → g.ClassInvariance

/-- No entry of `st` changes. -/
structure FilterState.KeptBy (st st' : FilterState P) : Prop where
  filters : ∀ f g, st.filterMap f = some g → st'.filterMap f = some g
  predicates : ∀ p g, st.predicateMap p = some g → st'.predicateMap p = some g

/-- Nothing happened. -/
theorem FilterState.KeptBy.refl (st : FilterState P) : st.KeptBy st :=
  ⟨fun _ _ h => h, fun _ _ h => h⟩

/-- Kept twice is kept. -/
theorem FilterState.KeptBy.trans {st₁ st₂ st₃ : FilterState P} (h : st₁.KeptBy st₂)
    (h' : st₂.KeptBy st₃) : st₁.KeptBy st₃ where
  filters := fun f g hf => h'.filters f g (h.filters f g hf)
  predicates := fun p g hp => h'.predicates p g (h.predicates p g hp)

/-- What an atom needs has an entry. -/
def FilterState.HasEntry (st : FilterState P) : EcpAtom FilterExpr P → Prop
  | .edgecov f => ∃ g, st.filterMap f = some g
  | .nodecov f => ∃ g, st.filterMap f = some g
  | .pathcov f _ => ∃ g, st.filterMap f = some g
  | .predicate p => ∃ g, st.predicateMap p = some g

/-- An entry stays. -/
theorem FilterState.HasEntry.kept {st st' : FilterState P} {a : EcpAtom FilterExpr P}
    (h : st.HasEntry a) (hkept : st.KeptBy st') : st'.HasEntry a := by
  cases a with
  | edgecov f => exact h.imp fun g hg => hkept.filters f g hg
  | nodecov f => exact h.imp fun g hg => hkept.filters f g hg
  | pathcov f bound => exact h.imp fun g hg => hkept.filters f g hg
  | predicate p => exact h.imp fun g hg => hkept.predicates p g hg

variable {env : FilterEnv P} {pending : FilterExpr → Prop} {st st' : FilterState P}

/-- The other graphs stay. -/
theorem store_filterMap_of_ne {n f : FilterExpr} (g : Cfa Location) (h : f ≠ n) :
    (st.store n g).filterMap f = st.filterMap f := Function.update_of_ne h _ _

/-- The graph is stored. -/
theorem store_filterMap_self (n : FilterExpr) (g : Cfa Location) :
    (st.store n g).filterMap n = some g := Function.update_self _ _ _

/-- What has an entry is another expression. -/
theorem ne_of_entry {n f : FilterExpr} {g : Cfa Location} (hn : st.filterMap n = none)
    (hf : st.filterMap f = some g) : f ≠ n := by
  intro heq
  rw [heq, hn] at hf
  cases hf

/-- What a finished graph combines may be among more entries. -/
theorem Finished.mono {pending' : FilterExpr → Prop} {f : FilterExpr} {g : Cfa Location}
    (h : Finished env st pending g f)
    (hkeep : ∀ a ga, st.filterMap a = some ga → ¬ pending a →
      st'.filterMap a = some ga ∧ ¬ pending' a) : Finished env st' pending' g f := by
  have hcombines {a b : FilterExpr} {combine : Cfa Location → Cfa Location → Cfa Location}
      (h : Combines st pending a b combine g) : Combines st' pending' a b combine g := by
    obtain ⟨ga, gb, ha, hpa, hb, hpb, hg⟩ := h
    obtain ⟨ha', hpa'⟩ := hkeep a ga ha hpa
    obtain ⟨hb', hpb'⟩ := hkeep b gb hb hpb
    exact ⟨ga, gb, ha', hpa', hb', hpb', hg⟩
  cases f with
  | filterFunction fn => exact h
  | filterCompose a b => exact hcombines h
  | filterIntersection a b => exact hcombines h
  | filterSetminus a b => exact hcombines h
  | filterUnion a b => exact hcombines h

/-- The visit of `n` begins. -/
theorem Settled.begin {n : FilterExpr} (h : Settled env pending st) (hn : st.filterMap n = none) :
    Settled env (fun f => f = n ∨ pending f) (st.store n Cfa.empty) where
  invariance := by
    intro f g hf
    by_cases hfn : f = n
    · rw [hfn, store_filterMap_self] at hf
      cases hf
      exact Cfa.empty_invariance
    · rw [store_filterMap_of_ne _ hfn] at hf
      exact h.invariance f g hf
  finished := by
    intro f g hf hpf
    have hfn : f ≠ n := fun heq => hpf (Or.inl heq)
    rw [store_filterMap_of_ne _ hfn] at hf
    refine (h.finished f g hf fun hp => hpf (Or.inr hp)).mono ?_
    intro a ga ha hpa
    have han := ne_of_entry hn ha
    refine ⟨(store_filterMap_of_ne _ han).trans ha, ?_⟩
    intro hor
    exact hor.elim han hpa
  predicates := h.predicates

/-- The visit of `n` ends. -/
theorem Settled.finish {n : FilterExpr} {g : Cfa Location}
    (h : Settled env (fun f => f = n ∨ pending f) st) (hg : g.ClassInvariance)
    (hfinished : Finished env (st.store n g) pending g n) :
    Settled env pending (st.store n g) where
  invariance := by
    intro f g' hf
    by_cases hfn : f = n
    · rw [hfn, store_filterMap_self] at hf
      cases hf
      exact hg
    · rw [store_filterMap_of_ne _ hfn] at hf
      exact h.invariance f g' hf
  finished := by
    intro f g' hf hpf
    by_cases hfn : f = n
    · rw [hfn, store_filterMap_self] at hf
      cases hf
      exact hfn ▸ hfinished
    · rw [store_filterMap_of_ne _ hfn] at hf
      have hpf' : ¬ (f = n ∨ pending f) := fun hor => hor.elim hfn hpf
      refine (h.finished f g' hf hpf').mono ?_
      intro a ga ha hpa
      have han : a ≠ n := fun heq => hpa (Or.inl heq)
      exact ⟨(store_filterMap_of_ne _ han).trans ha, fun hp => hpa (Or.inr hp)⟩
  predicates := h.predicates

/-- What a visit of `m` does, whatever is pending above it. -/
def VisitSpec (env : FilterEnv P) (m : FilterExpr)
    (visit : FilterState P → Except String (FilterState P)) : Prop :=
  ∀ (pending : FilterExpr → Prop) (st st' : FilterState P), Settled env pending st →
    (∀ f, pending f → sizeOf m < sizeOf f) → visit st = .ok st' →
    Settled env pending st' ∧ st.KeptBy st' ∧ ∃ g, st'.filterMap m = some g

/-- **Operands first.** -/
theorem visitOperands_spec {n a b : FilterExpr}
    {combine : Cfa Location → Cfa Location → Cfa Location}
    {visitA visitB : FilterState P → Except String (FilterState P)}
    (hA : VisitSpec env a visitA) (hB : VisitSpec env b visitB)
    (ha : sizeOf a < sizeOf n) (hb : sizeOf b < sizeOf n)
    (hcombine : ∀ ga gb : Cfa Location, ga.ClassInvariance → gb.ClassInvariance →
      (combine ga gb).ClassInvariance)
    (hfinished : ∀ (st : FilterState P) pending g,
      Combines st pending a b combine g → Finished env st pending g n) :
    VisitSpec env n (visitOperands n a b combine visitA visitB) := by
  intro pending st st' hst hpending hvisit
  unfold visitOperands at hvisit
  cases hn : st.filterMap n with
  | some g =>
      rw [hn] at hvisit
      cases hvisit
      exact ⟨hst, .refl st, g, hn⟩
  | none =>
      rw [hn] at hvisit
      obtain ⟨stA, hvisitA, hvisit⟩ := bind_ok hvisit
      obtain ⟨stB, hvisitB, hvisit⟩ := bind_ok hvisit
      cases hvisit
      have hbelow {m : FilterExpr} (hm : sizeOf m < sizeOf n) :
          ∀ f, f = n ∨ pending f → sizeOf m < sizeOf f := by
        intro f hf
        rcases hf with rfl | hf
        · exact hm
        · exact hm.trans (hpending f hf)
      obtain ⟨hstA, hkeptA, ga, hga⟩ := hA _ _ _ (hst.begin hn) (hbelow ha) hvisitA
      obtain ⟨hstB, hkeptB, gb, hgb⟩ := hB _ _ _ hstA (hbelow hb) hvisitB
      have hga' := hkeptB.filters a ga hga
      have hgetA : stB.get a = ga := by rw [FilterState.get, hga', Option.getD_some]
      have hgetB : stB.get b = gb := by rw [FilterState.get, hgb, Option.getD_some]
      rw [hgetA, hgetB]
      have hinv := hcombine ga gb (hstB.invariance a ga hga') (hstB.invariance b gb hgb)
      have hfree {m : FilterExpr} (hm : sizeOf m < sizeOf n) : m ≠ n ∧ ¬ pending m := by
        refine ⟨fun heq => (heq ▸ hm).false, fun hp => ?_⟩
        exact (hm.trans (hpending m hp)).false
      have hcombines : Combines (stB.store n (combine ga gb)) pending a b combine
          (combine ga gb) :=
        ⟨ga, gb, (store_filterMap_of_ne _ (hfree ha).1).trans hga', (hfree ha).2,
          (store_filterMap_of_ne _ (hfree hb).1).trans hgb, (hfree hb).2, rfl⟩
      have hkept := hkeptA.trans hkeptB
      refine ⟨hstB.finish hinv (hfinished _ _ _ hcombines), ⟨?_, hkept.predicates⟩, _,
        store_filterMap_self _ _⟩
      intro f g hf
      have hfn := ne_of_entry hn hf
      rw [store_filterMap_of_ne _ hfn]
      exact hkept.filters f g ((store_filterMap_of_ne _ hfn).trans hf)

/-- **Every visit of a filter expression.** -/
theorem visitFilter_spec (n : FilterExpr) : VisitSpec env n (visitFilter env n) := by
  induction n with
  | filterFunction fn =>
      intro pending st st' hst hpending hvisit
      unfold visitFilter at hvisit
      cases hn : st.filterMap (.filterFunction fn) with
      | some g =>
          rw [hn] at hvisit
          cases hvisit
          exact ⟨hst, .refl st, g, hn⟩
      | none =>
          rw [hn] at hvisit
          obtain ⟨g, hg, hvisit⟩ := bind_ok hvisit
          cases hvisit
          refine ⟨(hst.begin hn).finish (filterFunctionGraph_invariance hg) ⟨_, hg⟩, ⟨?_, ?_⟩, g,
            store_filterMap_self _ _⟩
          · intro f g' hf
            have hfn := ne_of_entry hn hf
            rw [store_filterMap_of_ne _ hfn, store_filterMap_of_ne _ hfn]
            exact hf
          · exact fun _ _ hp => hp
  | filterCompose a b ihA ihB =>
      exact visitOperands_spec ihA ihB (by simp only [FilterExpr.filterCompose.sizeOf_spec]; omega)
        (by simp only [FilterExpr.filterCompose.sizeOf_spec]; omega)
        (fun _ _ => composeGraph_invariance) fun _ _ _ h => h
  | filterIntersection a b ihA ihB =>
      exact visitOperands_spec ihA ihB (by simp only [FilterExpr.filterIntersection.sizeOf_spec]; omega)
        (by simp only [FilterExpr.filterIntersection.sizeOf_spec]; omega)
        (fun _ _ => Cfa.setintersection_invariance) fun _ _ _ h => h
  | filterSetminus a b ihA ihB =>
      exact visitOperands_spec ihA ihB (by simp only [FilterExpr.filterSetminus.sizeOf_spec]; omega)
        (by simp only [FilterExpr.filterSetminus.sizeOf_spec]; omega)
        (fun ga gb _ _ => Cfa.setsubtract_invariance ga gb) fun _ _ _ h => h
  | filterUnion a b ihA ihB =>
      exact visitOperands_spec ihA ihB (by simp only [FilterExpr.filterUnion.sizeOf_spec]; omega)
        (by simp only [FilterExpr.filterUnion.sizeOf_spec]; omega)
        (fun _ _ => Cfa.setunion_invariance) fun _ _ _ h => h

/-- No visit of a filter expression is going on. -/
abbrev Idle (env : FilterEnv P) (st : FilterState P) : Prop := Settled env (fun _ => False) st

/-- What a visit does between visits of filter expressions, when the pattern
that it visits has these atoms. -/
def IdleSpec (env : FilterEnv P) (atoms : EcpAtom FilterExpr P → Prop)
    (visit : FilterState P → Except String (FilterState P)) : Prop :=
  ∀ st st', Idle env st → visit st = .ok st' →
    Idle env st' ∧ st.KeptBy st' ∧ ∀ a, atoms a → st'.HasEntry a

/-- A visit keeps what is there between visits. -/
theorem VisitSpec.idle {m : FilterExpr} {visit : FilterState P → Except String (FilterState P)}
    (h : VisitSpec env m visit) :
    IdleSpec env (fun a => a = .edgecov m ∨ a = .nodecov m ∨ ∃ bound, a = .pathcov m bound)
      visit := by
  intro st st' hst hvisit
  obtain ⟨hst', hkept, hentry⟩ := h _ _ _ hst (fun _ hf => hf.elim) hvisit
  refine ⟨hst', hkept, ?_⟩
  intro a ha
  obtain rfl | rfl | ⟨bound, rfl⟩ := ha
  · exact hentry
  · exact hentry
  · exact hentry

/-- More atoms may have entries. -/
theorem IdleSpec.mono {atoms atoms' : EcpAtom FilterExpr P → Prop}
    {visit : FilterState P → Except String (FilterState P)} (h : IdleSpec env atoms visit)
    (hatoms : ∀ a, atoms' a → atoms a) : IdleSpec env atoms' visit := by
  intro st st' hst hvisit
  obtain ⟨hst', hkept, hentry⟩ := h st st' hst hvisit
  exact ⟨hst', hkept, fun a ha => hentry a (hatoms a ha)⟩

/-- Two visits, one after the other. -/
theorem IdleSpec.bind {atomsA atomsB : EcpAtom FilterExpr P → Prop}
    {visitA visitB : FilterState P → Except String (FilterState P)}
    (hA : IdleSpec env atomsA visitA) (hB : IdleSpec env atomsB visitB) :
    IdleSpec env (fun a => atomsA a ∨ atomsB a) fun st => visitA st >>= visitB := by
  intro st st' hst hvisit
  obtain ⟨stA, hvisitA, hvisitB⟩ := bind_ok hvisit
  obtain ⟨hstA, hkeptA, hentryA⟩ := hA st stA hst hvisitA
  obtain ⟨hstB, hkeptB, hentryB⟩ := hB stA st' hstA hvisitB
  refine ⟨hstB, hkeptA.trans hkeptB, ?_⟩
  intro a ha
  obtain ha | ha := ha
  · exact (hentryA a ha).kept hkeptB
  · exact hentryB a ha

variable [DecidableEq P]

/-- A predicate has a graph already, or gets the one of its new edges. -/
theorem visitPredicate_cases {p : P} {st st' : FilterState P}
    (h : visitPredicate env p st = .ok st') :
    (∃ g, st.predicateMap p = some g ∧ st' = st) ∨
      (st.predicateMap p = none ∧ ∃ gf edges,
        insertPredicate env p (st.get (.filterFunction .fIdentity)).getL.toList st.gf =
          .ok (gf, edges) ∧
        st' = { st with
          gf := gf
          predicateMap := Function.update st.predicateMap p (some
            { disconnectedNodes := SortedSet.empty
              edges := edges
              initial := SortedSet.empty.insertAll (edges.toList.map Cfa.source) }) }) := by
  unfold visitPredicate at h
  cases hp : st.predicateMap p with
  | some g =>
      rw [hp] at h
      cases h
      exact Or.inl ⟨g, rfl, rfl⟩
  | none =>
      rw [hp] at h
      obtain ⟨⟨gf, edges⟩, hedges, h⟩ := bind_ok h
      cases h
      exact Or.inr ⟨rfl, gf, edges, hedges, rfl⟩

/-- The visit of a predicate. -/
theorem visitPredicate_spec (p : P) :
    IdleSpec env (fun a => a = .predicate p) (visitPredicate env p) := by
  intro st st' hst hvisit
  obtain ⟨g, hp, rfl⟩ | ⟨hp, gf, edges, _, rfl⟩ := visitPredicate_cases hvisit
  · exact ⟨hst, .refl _, fun a ha => ha ▸ ⟨g, hp⟩⟩
  · refine ⟨⟨hst.invariance, ?_, ?_⟩, ⟨fun _ _ h => h, ?_⟩, ?_⟩
    · intro f g hf hpf
      exact (hst.finished f g hf hpf).mono fun a ga ha hpa => ⟨ha, hpa⟩
    · intro q g hq
      by_cases hqp : q = p
      · subst hqp
        simp only [Function.update_self, Option.some.injEq] at hq
        subst hq
        refine invariance_of_rooted (c := ⟨edges, _⟩) ?_
        intro n hn
        obtain hn | hn := SortedSet.mem_insertAll.mp hn
        · obtain ⟨e, he, heq⟩ := List.mem_map.mp hn
          exact ⟨e, he, heq.symm⟩
        · exact absurd hn SortedSet.notMem_empty
      · simp only [Function.update_of_ne hqp] at hq
        exact hst.predicates q g hq
    · intro q g hq
      have hqp : q ≠ p := by
        intro heq
        rw [heq, hp] at hq
        cases hq
      simp only [Function.update_of_ne hqp]
      exact hq
    · intro a ha
      subst ha
      exact ⟨_, Function.update_self _ _ _⟩

/-- The visit of an atom. -/
theorem filterAtom_spec (a : EcpAtom FilterExpr P) :
    IdleSpec env (fun b => b = a) (filterAtom env a) := by
  cases a with
  | edgecov f => exact (visitFilter_spec f).idle.mono fun a ha => Or.inl ha
  | nodecov f => exact (visitFilter_spec f).idle.mono fun a ha => Or.inr (Or.inl ha)
  | pathcov f bound => exact (visitFilter_spec f).idle.mono fun a ha => Or.inr (Or.inr ⟨_, ha⟩)
  | predicate p => exact visitPredicate_spec p

/-- The visit of a path pattern, by its structure. -/
theorem filterPath_spec (pp : PathPattern FilterExpr P) :
    IdleSpec env (fun a => .atom a ∈ pp.subpatterns) (filterPath env pp) := by
  induction pp with
  | atom a => 
      refine (filterAtom_spec a).mono fun b hb => ?_
      exact PathPattern.atom.inj (List.mem_singleton.mp hb)
  | ppAlternative ppA ppB ihA ihB =>
      refine (ihA.bind ihB).mono fun a ha => ?_
      exact List.mem_append.mp ((List.mem_cons.mp ha).resolve_left nofun)
  | ppConcat ppA ppB ihA ihB =>
      refine (ihA.bind ihB).mono fun a ha => ?_
      exact List.mem_append.mp ((List.mem_cons.mp ha).resolve_left nofun)
  | repetition pp lower upper ih =>
      exact ih.mono fun a ha => (List.mem_cons.mp ha).resolve_left nofun

/-- The visit of a coverage pattern, by its structure. -/
theorem filterCoverage_spec (cp : CoveragePattern FilterExpr P) :
    IdleSpec env (fun a => ∃ pp ∈ cp.pathPatterns, .atom a ∈ pp.subpatterns)
      (filterCoverage env cp) := by
  induction cp with
  | atom a =>
      refine (filterAtom_spec a).mono fun b hb => ?_
      obtain ⟨pp, hpp, hb⟩ := hb
      rw [List.mem_singleton.mp hpp] at hb
      exact PathPattern.atom.inj (List.mem_singleton.mp hb)
  | quote pp =>
      refine (filterPath_spec pp).mono fun a ha => ?_
      obtain ⟨pp', hpp, ha⟩ := ha
      exact List.mem_singleton.mp hpp ▸ ha
  | cpAlternative cpA cpB ihA ihB =>
      refine (ihA.bind ihB).mono fun a ha => ?_
      obtain ⟨pp, hpp, ha⟩ := ha
      exact (List.mem_append.mp hpp).imp (fun h => ⟨pp, h, ha⟩) fun h => ⟨pp, h, ha⟩
  | cpConcat cpA cpB ihA ihB =>
      refine (ihA.bind ihB).mono fun a ha => ?_
      obtain ⟨pp, hpp, ha⟩ := ha
      exact (List.mem_append.mp hpp).imp (fun h => ⟨pp, h, ha⟩) fun h => ⟨pp, h, ha⟩

/-- **After a query** every stored graph is finished and keeps the class
invariant, and every atom of the query has its graph. -/
theorem evaluateFilter_spec {gf : GotoFunctions} {query : Query FilterExpr P}
    (h : evaluateFilter env gf query = .ok st) :
    Idle env st ∧ ∀ a, query.HasAtom a → st.HasEntry a := by
  have hstart : Idle env ⟨gf, fun _ => none, fun _ => none⟩ :=
    { invariance := fun _ _ hf => nomatch hf
      finished := fun _ _ hf _ => nomatch hf
      predicates := fun _ _ hp => nomatch hp }
  obtain ⟨st₁, h₁, h⟩ := bind_ok h
  obtain ⟨hst₁, -⟩ := (visitFilter_spec _).idle _ _ hstart h₁
  obtain ⟨hst, -, hentry⟩ :=
    ((filterCoverage_spec query.cover).bind (filterPath_spec query.passing)) _ _ hst₁ h
  refine ⟨hst, ?_⟩
  intro a ha
  obtain ⟨pp, hpp, ha⟩ := ha
  obtain hpp | hpp := List.mem_append.mp hpp
  · exact hentry a (Or.inl ⟨pp, hpp, ha⟩)
  · exact hentry a (Or.inr (List.mem_singleton.mp hpp ▸ ha))

omit [DecidableEq P] in
/-- **Nested expressions.**  A stored graph is the value of its expression
over the stored graphs of filter functions. -/
theorem Settled.value_eq_denote (hst : Idle env st) (f : FilterExpr) {g : Cfa Location}
    (hf : st.filterMap f = some g) :
    g.value = f.denote fun fn => (st.get (.filterFunction fn)).value := by
  have hget {f : FilterExpr} {g : Cfa Location} (h : st.filterMap f = some g) : st.get f = g := by
    rw [FilterState.get, h, Option.getD_some]
  induction f generalizing g with
  | filterFunction fn => rw [FilterExpr.denote, hget hf]
  | filterCompose a b ihA ihB =>
      obtain ⟨ga, gb, ha, -, hb, -, rfl⟩ := hst.finished _ _ hf id
      rw [composeGraph_value, ihA ha, ihB hb, FilterExpr.denote]
  | filterIntersection a b ihA ihB =>
      obtain ⟨ga, gb, ha, -, hb, -, rfl⟩ := hst.finished _ _ hf id
      rw [Cfa.setintersection_value, ihA ha, ihB hb, FilterExpr.denote]
  | filterSetminus a b ihA ihB =>
      obtain ⟨ga, gb, ha, -, hb, -, rfl⟩ := hst.finished _ _ hf id
      rw [Cfa.setsubtract_value, ihA ha, ihB hb, FilterExpr.denote]
  | filterUnion a b ihA ihB =>
      obtain ⟨ga, gb, ha, -, hb, -, rfl⟩ := hst.finished _ _ hf id
      rw [Cfa.setunion_value, ihA ha, ihB hb, FilterExpr.denote]

omit [DecidableEq P] in
/-- The operands of a stored expression are stored, and so is all below them. -/
theorem Settled.stored_below (hst : Idle env st) {f m : FilterExpr} {g : Cfa Location}
    (hf : st.filterMap f = some g) (hm : m ∈ f.subexpressions) :
    ∃ g', st.filterMap m = some g' := by
  induction f generalizing g with
  | filterFunction fn =>
      rw [List.mem_singleton.mp hm]
      exact ⟨g, hf⟩
  | filterCompose a b ihA ihB =>
      obtain ⟨ga, gb, ha, -, hb, -, -⟩ := hst.finished _ _ hf id
      rcases List.mem_cons.mp hm with rfl | hm
      · exact ⟨g, hf⟩
      · exact (List.mem_append.mp hm).elim (ihA ha) (ihB hb)
  | filterIntersection a b ihA ihB =>
      obtain ⟨ga, gb, ha, -, hb, -, -⟩ := hst.finished _ _ hf id
      rcases List.mem_cons.mp hm with rfl | hm
      · exact ⟨g, hf⟩
      · exact (List.mem_append.mp hm).elim (ihA ha) (ihB hb)
  | filterSetminus a b ihA ihB =>
      obtain ⟨ga, gb, ha, -, hb, -, -⟩ := hst.finished _ _ hf id
      rcases List.mem_cons.mp hm with rfl | hm
      · exact ⟨g, hf⟩
      · exact (List.mem_append.mp hm).elim (ihA ha) (ihB hb)
  | filterUnion a b ihA ihB =>
      obtain ⟨ga, gb, ha, -, hb, -, -⟩ := hst.finished _ _ hf id
      rcases List.mem_cons.mp hm with rfl | hm
      · exact ⟨g, hf⟩
      · exact (List.mem_append.mp hm).elim (ihA ha) (ihB hb)

/-! ## What all visits keep -/

/-- A visit keeps `I`. -/
def VisitKeeps (I : FilterState P → Prop)
    (visit : FilterState P → Except String (FilterState P)) : Prop :=
  ∀ st st', I st → visit st = .ok st' → I st'

section Keeps

variable {I : FilterState P → Prop}

omit [DecidableEq P] in
/-- Two visits keep what each keeps. -/
theorem VisitKeeps.bind {visitA visitB : FilterState P → Except String (FilterState P)}
    (hA : VisitKeeps I visitA) (hB : VisitKeeps I visitB) :
    VisitKeeps I fun st => visitA st >>= visitB := by
  intro st st' hst hvisit
  obtain ⟨stA, hvisitA, hvisitB⟩ := bind_ok hvisit
  exact hB stA st' (hA st stA hst hvisitA) hvisitB

omit [DecidableEq P] in
/-- Two operands: the entry is empty first, then it has the combined graph. -/
theorem visitOperands_keeps {n a b : FilterExpr}
    {combine : Cfa Location → Cfa Location → Cfa Location}
    {visitA visitB : FilterState P → Except String (FilterState P)}
    (hA : VisitKeeps I visitA) (hB : VisitKeeps I visitB)
    (hbegin : ∀ st, I st → I (st.store n Cfa.empty))
    (hend : ∀ st, I st → I (st.store n (combine (st.get a) (st.get b)))) :
    VisitKeeps I (visitOperands n a b combine visitA visitB) := by
  intro st st' hst hvisit
  unfold visitOperands at hvisit
  cases hn : st.filterMap n with
  | some g =>
      rw [hn] at hvisit
      cases hvisit
      exact hst
  | none =>
      rw [hn] at hvisit
      obtain ⟨stA, hvisitA, hvisit⟩ := bind_ok hvisit
      obtain ⟨stB, hvisitB, hvisit⟩ := bind_ok hvisit
      cases hvisit
      exact hend stB (hB _ _ (hA _ _ (hbegin st hst) hvisitA) hvisitB)

/-- The visit of an atom keeps an invariant. -/
theorem filterAtom_keeps (hfilter : ∀ n, VisitKeeps I (visitFilter env n)) (a : EcpAtom FilterExpr P)
    (hpred : ∀ p, a = .predicate p → VisitKeeps I (visitPredicate env p)) :
    VisitKeeps I (filterAtom env a) := by
  cases a with
  | edgecov f => exact hfilter f
  | nodecov f => exact hfilter f
  | pathcov f bound => exact hfilter f
  | predicate p => exact hpred p rfl

/-- So does the visit of a path pattern. -/
theorem filterPath_keeps (hfilter : ∀ n, VisitKeeps I (visitFilter env n))
    (pp : PathPattern FilterExpr P)
    (hpred : ∀ p, .atom (.predicate p) ∈ pp.subpatterns → VisitKeeps I (visitPredicate env p)) :
    VisitKeeps I (filterPath env pp) := by
  induction pp with
  | atom a =>
      exact filterAtom_keeps hfilter a fun p hp => hpred p (List.mem_singleton.mpr (hp ▸ rfl))
  | ppAlternative ppA ppB ihA ihB =>
      refine VisitKeeps.bind (ihA fun p hp => hpred p ?_) (ihB fun p hp => hpred p ?_)
      · exact List.mem_cons_of_mem _ (List.mem_append_left _ hp)
      · exact List.mem_cons_of_mem _ (List.mem_append_right _ hp)
  | ppConcat ppA ppB ihA ihB =>
      refine VisitKeeps.bind (ihA fun p hp => hpred p ?_) (ihB fun p hp => hpred p ?_)
      · exact List.mem_cons_of_mem _ (List.mem_append_left _ hp)
      · exact List.mem_cons_of_mem _ (List.mem_append_right _ hp)
  | repetition pp lower upper ih => exact ih fun p hp => hpred p (List.mem_cons_of_mem _ hp)

/-- So does the visit of a coverage pattern. -/
theorem filterCoverage_keeps (hfilter : ∀ n, VisitKeeps I (visitFilter env n))
    (cp : CoveragePattern FilterExpr P)
    (hpred : ∀ p, ∀ pp ∈ cp.pathPatterns, .atom (.predicate p) ∈ pp.subpatterns →
      VisitKeeps I (visitPredicate env p)) :
    VisitKeeps I (filterCoverage env cp) := by
  induction cp with
  | atom a =>
      refine filterAtom_keeps hfilter a fun p hp => hpred p _ (List.mem_singleton_self _) ?_
      exact List.mem_singleton.mpr (hp ▸ rfl)
  | quote pp =>
      exact filterPath_keeps hfilter pp fun p hp => hpred p pp (List.mem_singleton_self _) hp
  | cpAlternative cpA cpB ihA ihB =>
      refine VisitKeeps.bind (ihA fun p pp hpp => hpred p pp ?_) (ihB fun p pp hpp => hpred p pp ?_)
      · exact List.mem_append_left _ hpp
      · exact List.mem_append_right _ hpp
  | cpConcat cpA cpB ihA ihB =>
      refine VisitKeeps.bind (ihA fun p pp hpp => hpred p pp ?_) (ihB fun p pp hpp => hpred p pp ?_)
      · exact List.mem_append_left _ hpp
      · exact List.mem_append_right _ hpp

/-- **An invariant of the visits** holds after a query. -/
theorem evaluateFilter_keeps {gf : GotoFunctions} {query : Query FilterExpr P}
    (hstart : I ⟨gf, fun _ => none, fun _ => none⟩)
    (hfilter : ∀ n, VisitKeeps I (visitFilter env n))
    (hpred : ∀ p, query.HasAtom (.predicate p) → VisitKeeps I (visitPredicate env p))
    (h : evaluateFilter env gf query = .ok st) : I st := by
  obtain ⟨st₁, h₁, h⟩ := bind_ok h
  have hst₁ := hfilter _ _ _ hstart h₁
  refine (filterCoverage_keeps hfilter query.cover ?_).bind
    (filterPath_keeps hfilter query.passing ?_) _ _ hst₁ h
  · intro p pp hpp hp
    exact hpred p ⟨pp, List.mem_append_left _ hpp, hp⟩
  · intro p hp
    exact hpred p ⟨_, List.mem_append_right _ (List.mem_singleton_self _), hp⟩

end Keeps

/-! ## The graphs of filter functions -/

/-- `gf'` comes about from `gf` by insertions of the predicates. -/
inductive Instrumented (env : FilterEnv P) (preds : P → Prop) :
    GotoFunctions → GotoFunctions → Prop
  | refl (gf : GotoFunctions) : Instrumented env preds gf gf
  | insert {gf gf₁ gf₂ : GotoFunctions} {n : Location} {p : P} {e : Edge}
      (before : Instrumented env preds gf gf₁) (pred : preds p)
      (inserted : env.insertPredicateAt gf₁ n p = .ok (gf₂, e)) : Instrumented env preds gf gf₂

omit [DecidableEq P] in
/-- Insertions after insertions. -/
theorem Instrumented.trans {preds : P → Prop} {gf₁ gf₂ gf₃ : GotoFunctions}
    (h : Instrumented env preds gf₁ gf₂) (h' : Instrumented env preds gf₂ gf₃) :
    Instrumented env preds gf₁ gf₃ := by
  induction h' with
  | refl => exact h
  | insert before pred inserted ih => exact ih.insert pred inserted

/-- `g` is the graph of the filter function in the program `gf`, with the
predicates in it that were inserted before those that make it `gfEnd`. -/
def IsFunctionGraph (env : FilterEnv P) (preds : P → Prop) (gf gfEnd : GotoFunctions)
    (fn : FilterFunction) (g : Cfa Location) : Prop :=
  ∃ gf', Instrumented env preds gf gf' ∧ Instrumented env preds gf' gfEnd ∧
    filterFunctionGraph env.main env.cfg gf' fn = .ok g

/-- The program has predicates inserted, and stored graphs of filter functions
were made from it. -/
structure FunctionGraphs (env : FilterEnv P) (preds : P → Prop) (gf : GotoFunctions)
    (st : FilterState P) : Prop where
  program : Instrumented env preds gf st.gf
  graphs : ∀ fn g, st.filterMap (.filterFunction fn) = some g →
    IsFunctionGraph env preds gf st.gf fn g

section FunctionGraphs

variable {preds : P → Prop} {gf : GotoFunctions}

omit [DecidableEq P] in
/-- An entry of another kind. -/
theorem FunctionGraphs.store (h : FunctionGraphs env preds gf st) {n : FilterExpr}
    (g : Cfa Location) (hn : ∀ fn, .filterFunction fn ≠ n) :
    FunctionGraphs env preds gf (st.store n g) where
  program := h.program
  graphs := by
    intro fn g' hf
    rw [store_filterMap_of_ne g (hn fn)] at hf
    exact h.graphs fn g' hf

omit [DecidableEq P] in
/-- A filter function is evaluated on the program as it is then. -/
theorem visitFilter_functionGraphs (n : FilterExpr) :
    VisitKeeps (FunctionGraphs env preds gf) (visitFilter env n) := by
  induction n with
  | filterFunction fn =>
      intro st st' hst hvisit
      unfold visitFilter at hvisit
      cases hn : st.filterMap (.filterFunction fn) with
      | some g =>
          rw [hn] at hvisit
          cases hvisit
          exact hst
      | none =>
          rw [hn] at hvisit
          obtain ⟨g, hg, hvisit⟩ := bind_ok hvisit
          cases hvisit
          refine ⟨hst.program, ?_⟩
          intro fn' g' hf
          by_cases heq : fn' = fn
          · subst heq
            rw [store_filterMap_self] at hf
            cases hf
            exact ⟨st.gf, hst.program, .refl _, hg⟩
          · have hne : FilterExpr.filterFunction fn' ≠ .filterFunction fn :=
              fun h => heq (FilterExpr.filterFunction.inj h)
            rw [store_filterMap_of_ne _ hne, store_filterMap_of_ne _ hne] at hf
            exact hst.graphs fn' g' hf
  | filterCompose a b ihA ihB =>
      exact visitOperands_keeps ihA ihB (fun _ h => h.store _ (fun _ => FilterExpr.noConfusion))
        fun _ h => h.store _ (fun _ => FilterExpr.noConfusion)
  | filterIntersection a b ihA ihB =>
      exact visitOperands_keeps ihA ihB (fun _ h => h.store _ (fun _ => FilterExpr.noConfusion))
        fun _ h => h.store _ (fun _ => FilterExpr.noConfusion)
  | filterSetminus a b ihA ihB =>
      exact visitOperands_keeps ihA ihB (fun _ h => h.store _ (fun _ => FilterExpr.noConfusion))
        fun _ h => h.store _ (fun _ => FilterExpr.noConfusion)
  | filterUnion a b ihA ihB =>
      exact visitOperands_keeps ihA ihB (fun _ h => h.store _ (fun _ => FilterExpr.noConfusion))
        fun _ h => h.store _ (fun _ => FilterExpr.noConfusion)

omit [DecidableEq P] in
/-- The instrumentation of one predicate at some nodes. -/
theorem insertPredicate_instrumented {p : P} (hp : preds p) {nodes : List Location}
    {gf gf' : GotoFunctions} {edges : SortedSet Edge}
    (h : insertPredicate env p nodes gf = .ok (gf', edges)) : Instrumented env preds gf gf' := by
  refine foldlM_ok (fun q : GotoFunctions × SortedSet Edge => Instrumented env preds gf q.1)
    (.refl gf) ?_ h
  intro q n _ q' hq hstep
  obtain ⟨out, hout, hstep⟩ := bind_ok hstep
  cases hstep
  exact hq.insert hp hout

/-- A predicate changes the program after that. -/
theorem visitPredicate_functionGraphs {p : P} (hp : preds p) :
    VisitKeeps (FunctionGraphs env preds gf) (visitPredicate env p) := by
  intro st st' hst hvisit
  obtain ⟨_, _, rfl⟩ | ⟨_, gf', edges, hedges, rfl⟩ := visitPredicate_cases hvisit
  · exact hst
  · have hinserted := insertPredicate_instrumented hp hedges
    refine ⟨hst.program.trans hinserted, ?_⟩
    intro fn g hf
    obtain ⟨gf₁, hbefore, hafter, hg⟩ := hst.graphs fn g hf
    exact ⟨gf₁, hbefore, hafter.trans hinserted, hg⟩

/-- Stored graphs of filter functions are those of the program. -/
theorem evaluateFilter_functionGraphs {query : Query FilterExpr P}
    (h : evaluateFilter env gf query = .ok st) :
    FunctionGraphs env (fun p => query.HasAtom (.predicate p)) gf st := by
  refine evaluateFilter_keeps ?_ visitFilter_functionGraphs ?_ h
  · exact ⟨.refl gf, fun _ _ hf => by cases hf⟩
  · exact fun p hp =>
      @visitPredicate_functionGraphs _ env _ (fun p => query.HasAtom (.predicate p)) gf p hp

end FunctionGraphs

end Stored

/-- The edges of a value are set algebra on edges alone. -/
theorem FilterExpr.denote_edges {ν : Type} (primitive : FilterFunction → GraphValue ν)
    (f : FilterExpr) :
    (f.denote primitive).edges = f.edgeSet fun fn => (primitive fn).edges := by
  induction f with
  | filterFunction fn => rfl
  | filterCompose a b ihA ihB => exact congrArg₂ (· ∩ ·) ihA ihB
  | filterIntersection a b ihA ihB => exact congrArg₂ (· ∩ ·) ihA ihB
  | filterSetminus a b ihA ihB => exact congrArg₂ (· \ ·) ihA ihB
  | filterUnion a b ihA ihB => exact congrArg₂ (· ∪ ·) ihA ihB

/-! ## Set algebra -/

/-- **Filters are set algebra.**  The operations on target graphs are; and the
edges of every graph that a query stores are set algebra over those of the
filter functions in the program. -/
theorem filter_setAlgebra {ν : Type} [LinearOrder ν] {a b : Cfa ν} (ha : a.ClassInvariance)
    (hb : b.ClassInvariance) {P : Type} [DecidableEq P] {env : FilterEnv P} {gf : GotoFunctions}
    {query : Query FilterExpr P} {st : FilterState P}
    (hquery : evaluateFilter env gf query = .ok st) :
    Cfa.SetAlgebra a b ∧
    (∀ c, query.HasAtom c → st.HasEntry c) ∧
    ∃ graphOf : FilterFunction → Cfa Location, ∀ f g, st.filterMap f = some g →
      (∀ m ∈ f.subexpressions, ∃ g', st.filterMap m = some g') ∧
      (∀ fn, .filterFunction fn ∈ f.subexpressions →
        st.filterMap (.filterFunction fn) = some (graphOf fn) ∧
        IsFunctionGraph env (fun p => query.HasAtom (.predicate p)) gf st.gf fn (graphOf fn)) ∧
      g.value.edges = f.edgeSet fun fn => (graphOf fn).value.edges := by
  obtain ⟨hst, hentry⟩ := evaluateFilter_spec hquery
  have hgraphs := evaluateFilter_functionGraphs hquery
  refine ⟨ha.setAlgebra hb, hentry, fun fn => st.get (.filterFunction fn), ?_⟩
  intro f g hf
  refine ⟨fun m hm => hst.stored_below hf hm, ?_, ?_⟩
  · intro fn hfn
    obtain ⟨g', hg'⟩ := hst.stored_below hf hfn
    have hget : st.get (.filterFunction fn) = g' := by rw [FilterState.get, hg', Option.getD_some]
    dsimp only
    rw [hget]
    exact ⟨hg', hgraphs.graphs fn g' hg'⟩
  · rw [hst.value_eq_denote f hf, FilterExpr.denote_edges]

/-! ## A query

Evaluated on the program with a thread. -/

/-- No predicate can be inserted. -/
def asyncEnv : FilterEnv Unit where
  main := "main"
  cfg := CfgEntries.empty.computeEdges asyncProgram
  insertPredicateAt := fun _ _ _ => .error "no predicates"

/-- `COVER NODES(SETMINUS(ID,@CALLS)) PASSING EDGES(ID)`. -/
def asyncQuery : Query FilterExpr Unit where
  cover := .atom (.nodecov (.filterSetminus (.filterFunction .fIdentity) (.filterFunction .fCalls)))
  passing := .atom (.edgecov (.filterFunction .fIdentity))

def asyncState : FilterState Unit :=
  (evaluateFilter asyncEnv asyncProgram asyncQuery).toOption.getD
    ⟨asyncProgram, fun _ => none, fun _ => none⟩

theorem filter_setAlgebra_asyncState :
    evaluateFilter asyncEnv asyncProgram asyncQuery = .ok asyncState ∧
    Cfa.SetAlgebra (Cfa.empty : Cfa Nat) Cfa.empty ∧
    (∀ c, asyncQuery.HasAtom c → asyncState.HasEntry c) ∧
    ∃ graphOf : FilterFunction → Cfa Location, ∀ f g, asyncState.filterMap f = some g →
      (∀ m ∈ f.subexpressions, ∃ g', asyncState.filterMap m = some g') ∧
      (∀ fn, .filterFunction fn ∈ f.subexpressions →
        asyncState.filterMap (.filterFunction fn) = some (graphOf fn) ∧
        IsFunctionGraph asyncEnv (fun p => asyncQuery.HasAtom (.predicate p)) asyncProgram
          asyncState.gf fn (graphOf fn)) ∧
      g.value.edges = f.edgeSet fun fn => (graphOf fn).value.edges :=
  have hquery : evaluateFilter asyncEnv asyncProgram asyncQuery = .ok asyncState := rfl
  ⟨hquery, filter_setAlgebra Cfa.empty_invariance Cfa.empty_invariance hquery⟩

end FShell
