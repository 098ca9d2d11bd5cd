import FShell.Evaluation.EvaluatePathPattern
import FShell.Evaluation.GluedEnds

/-!
# One visit of a path pattern

A visit of `p` adds automata for the patterns at and below `p` that have
none, with the glued ends, and touches nothing else (`visitPath_spec`).  The
induction is over the pattern; `Visited` is what a visit leaves behind,
seen from the state before it, and composes over visits in a row.
-/

open scoped Computability

namespace FShell

open LabelledGraph TraceAutomaton

variable {F P ν : Type} [DecidableEq F] [DecidableEq P]

/-- The target graph that an atom stands for. -/
def EcpAtom.targetGraph [DecidableEq ν] (env : PathPatternEnv F P ν) : EcpAtom F P → TargetGraph ν
  | .edgecov f =>
      { disconnectedNodes := [], edges := (env.filter f).edges, initial := (env.filter f).initial }
  | .nodecov f => { disconnectedNodes := (env.filter f).getL, edges := [], initial := [] }
  | .pathcov f _ => env.filter f
  | .predicate p => env.predicate p

namespace PathPatternState

/-- The label that an atom has got: that of the transition of its automaton. -/
def atomLabel (st : PathPatternState F P ν) (a : EcpAtom F P) : Int :=
  match (st.ppMap (.atom a)).bind (·.trans.head?) with
  | some e => e.2.1
  | none => epsilon

/-- The language of an atom: its label alone. -/
def atomLang (st : PathPatternState F P ν) (a : EcpAtom F P) : Language Int :=
  {[st.atomLabel a]}

end PathPatternState

namespace PathPatternState

variable {st st' : PathPatternState F P ν} {n : PathPattern F P}

/-- An entry is inserted with the empty automaton. -/
theorem insert_ppMap (hnone : st.ppMap n = none) :
    (st.insert n).ppMap = Function.update st.ppMap n (some TraceAutomaton.empty) := by
  simp [insert, hnone]

/-- The new entry is empty. -/
theorem insert_entryAutomaton (hnone : st.ppMap n = none) :
    (st.insert n).entryAutomaton = TraceAutomaton.empty := by
  simp [entryAutomaton, insert, hnone]

/-- An entry that is inserted and filled. -/
theorem store_insert_ppMap (hnone : st.ppMap n = none) (aut : TraceAutomaton) :
    ((st.insert n).store n aut).ppMap = Function.update st.ppMap n (some aut) := by
  simp [store, insert_ppMap hnone]

/-- An entry that is there is not touched. -/
theorem insert_ppMap_of_known (h : st.ppMap n ≠ none) : (st.insert n).ppMap = st.ppMap := by
  obtain ⟨aut, haut⟩ := Option.ne_none_iff_exists'.mp h
  funext m
  by_cases hm : m = n
  · simp [insert, hm, haut]
  · simp [insert, hm]

/-- The automaton of a stored atom: all its transitions carry one label, the
number of the target graph of the atom. -/
structure AtomStored [DecidableEq ν] (env : PathPatternEnv F P ν) (st : PathPatternState F P ν)
    (a : EcpAtom F P) (aut : TraceAutomaton) : Prop where
  stored : st.ppMap (.atom a) = some aut
  nonempty : aut.trans ≠ []
  labels : ∀ e ∈ aut.trans, e.2.1 = st.atomLabel a
  visible : st.atomLabel a ≠ epsilon
  graph : st.graphs.lookupGraph env (st.atomLabel a) = some (a.targetGraph env)

omit [DecidableEq F] [DecidableEq P] in
/-- The label of an atom depends on its entry. -/
theorem atomLabel_congr {a : EcpAtom F P}
    (h : st'.ppMap (.atom a) = st.ppMap (.atom a)) : st'.atomLabel a = st.atomLabel a := by
  unfold atomLabel
  rw [h]

omit [DecidableEq F] [DecidableEq P] in
/-- So does its language. -/
theorem atomLang_congr {a : EcpAtom F P}
    (h : st'.ppMap (.atom a) = st.ppMap (.atom a)) : st'.atomLang a = st.atomLang a := by
  unfold atomLang
  rw [atomLabel_congr h]

end PathPatternState

namespace GraphTable

variable {env : PathPatternEnv F P ν} {t u v : GraphTable F P ν}

omit [DecidableEq F] [DecidableEq P] in
/-- Nothing is added. -/
theorem Extends.refl (t : GraphTable F P ν) : t.Extends t :=
  ⟨fun _ _ h => h, List.prefix_refl _⟩

omit [DecidableEq F] [DecidableEq P] in
/-- Adding twice is adding. -/
theorem Extends.trans (htu : t.Extends u) (huv : u.Extends v) : t.Extends v :=
  ⟨fun i r h => huv.index i r (htu.index i r h), htu.more.trans huv.more⟩

omit [DecidableEq F] [DecidableEq P] in
/-- Labels keep their graph. -/
theorem Extends.lookupGraph (h : t.Extends u) {i : Int} {g : TargetGraph ν}
    (hg : t.lookupGraph env i = some g) : u.lookupGraph env i = some g := by
  obtain ⟨r, hr, hderef⟩ := Option.bind_eq_some_iff.mp hg
  refine Option.bind_eq_some_iff.mpr ⟨r, h.index i r hr, ?_⟩
  cases r with
  | filter f => exact hderef
  | predicate p => exact hderef
  | more k =>
      obtain ⟨hlt, hget⟩ := List.getElem?_eq_some_iff.mp hderef
      obtain ⟨rest, hrest⟩ := h.more
      show u.moreTargetGraphs[k]? = some g
      rw [← hrest, List.getElem?_append_left hlt]
      exact hderef

/-- A graph reference may be added. -/
theorem extends_toIndex (t : GraphTable F P ν) (r : GraphRef F P) : t.Extends (t.toIndex r).2 :=
  ⟨fun _ _ h => t.index.lookupIndex_of_toIndex r h, List.prefix_refl _⟩

omit [DecidableEq F] [DecidableEq P] in
/-- A graph may be added. -/
theorem extends_pushBack (t : GraphTable F P ν) (g : TargetGraph ν) :
    t.Extends (t.pushBack g).2 :=
  ⟨fun _ _ h => h, List.prefix_append _ _⟩

/-- The number of a pointer leads to its graph. -/
theorem lookupGraph_toIndex (t : GraphTable F P ν) (r : GraphRef F P) :
    (t.toIndex r).2.lookupGraph env (t.toIndex r).1 = t.deref env r := by
  unfold GraphTable.lookupGraph toIndex
  simp only [t.index.lookupIndex_toIndex r, Option.bind_some]
  cases r with
  | filter f => rfl
  | predicate p => rfl
  | more k => rfl

omit [DecidableEq F] [DecidableEq P] in
/-- The new reference stands for the graph. -/
theorem deref_pushBack (t : GraphTable F P ν) (g : TargetGraph ν) :
    (t.pushBack g).2.deref env (t.pushBack g).1 = some g := by
  simp [pushBack, deref]

end GraphTable

/-! ## One visit -/

/-- What must hold of the patterns below `p` before `p` is visited: with a
pattern everything below it has an automaton, and the automata of regular
patterns have states at both ends. -/
structure Ready (st : PathPatternState F P ν) (p : PathPattern F P) : Prop where
  closed : ∀ n ∈ p.subpatterns, st.ppMap n ≠ none → ∀ m ∈ n.subpatterns, st.ppMap m ≠ none
  live : ∀ n ∈ p.subpatterns, n.Regular → ∀ aut, st.ppMap n = some aut → aut.ends.Live

/-- What the visits of the patterns in `below` do to the patterns there. -/
structure Visited [DecidableEq ν] (env : PathPatternEnv F P ν) (below : PathPattern F P → Prop)
    (st st' : PathPatternState F P ν) : Prop where
  kept : ∀ n aut, st.ppMap n = some aut → st'.ppMap n = some aut
  added : ∀ n, st.ppMap n = none → st'.ppMap n ≠ none →
    below n ∧ ∀ m ∈ n.subpatterns, st'.ppMap m ≠ none
  stored : ∀ n, below n → st'.ppMap n ≠ none
  ends : ∀ n aut, st'.ppMap n = some aut → n.Regular →
    aut.ends = n.glued st'.atomLang st.ppMap
  atoms : ∀ a aut, st.ppMap (.atom a) = none → st'.ppMap (.atom a) = some aut →
    (PathPattern.atom a).Regular → st'.AtomStored env a aut
  graphs : st.graphs.Extends st'.graphs

namespace Visited

variable [DecidableEq ν] {env : PathPatternEnv F P ν} {below below' : PathPattern F P → Prop}
  {n p q : PathPattern F P} {a : EcpAtom F P} {st st' st'' : PathPatternState F P ν}

omit [DecidableEq F] [DecidableEq P] in
/-- What was stored is not touched. -/
theorem kept_ne (h : Visited env below st st') (hn : st.ppMap n ≠ none) :
    st'.ppMap n = st.ppMap n := by
  obtain ⟨aut, haut⟩ := Option.ne_none_iff_exists'.mp hn
  rw [haut]
  exact h.kept n aut haut

omit [DecidableEq F] [DecidableEq P] in
/-- An atom stays stored when the visits go on. -/
theorem atomStored (h : Visited env below st st') {aut : TraceAutomaton}
    (ha : st.AtomStored env a aut) : st'.AtomStored env a aut := by
  have hlabel : st'.atomLabel a = st.atomLabel a := by
    apply PathPatternState.atomLabel_congr
    rw [ha.stored]
    exact h.kept _ _ ha.stored
  refine ⟨h.kept _ _ ha.stored, ha.nonempty, ?_, ?_, ?_⟩
  · rw [hlabel]
    exact ha.labels
  · rw [hlabel]
    exact ha.visible
  · rw [hlabel]
    exact h.graphs.lookupGraph ha.graph

omit [DecidableEq F] [DecidableEq P] in
/-- Two visits in a row. -/
theorem trans (hA : Visited env below st st') (hB : Visited env below' st' st'') :
    Visited env (fun n => below n ∨ below' n) st st'' := by
  -- what the first visit left, in the labels of the last state
  have hfirst : ∀ m aut, st'.ppMap m = some aut → m.Regular →
      aut.ends = m.glued st''.atomLang st.ppMap := by
    intro m aut haut hreg
    rcases hold : st.ppMap m with _ | aut'
    · rw [hA.ends m aut haut hreg]
      have hbelow := (hA.added m hold (by rw [haut]; exact Option.some_ne_none _)).2
      refine PathPattern.glued_congr (fun x hx => ?_) fun k _ => Or.inl rfl
      exact PathPatternState.atomLang_congr (hB.kept_ne (hbelow _ hx))
    · have hsame := hA.kept m aut' hold
      rw [haut] at hsame
      rw [PathPattern.glued_of_known hold, Option.some.inj hsame]
  refine ⟨?_, ?_, ?_, ?_, ?_, hA.graphs.trans hB.graphs⟩
  · exact fun m aut haut => hB.kept m aut (hA.kept m aut haut)
  · intro m hnone hsome
    by_cases hmid : st'.ppMap m = none
    · exact ⟨Or.inr (hB.added m hmid hsome).1, (hB.added m hmid hsome).2⟩
    · obtain ⟨hbelow, hsub⟩ := hA.added m hnone hmid
      refine ⟨Or.inl hbelow, fun k hk => ?_⟩
      rw [hB.kept_ne (hsub k hk)]
      exact hsub k hk
  · intro m hm
    rcases hm with hm | hm
    · rw [hB.kept_ne (hA.stored m hm)]
      exact hA.stored m hm
    · exact hB.stored m hm
  · intro m aut haut hreg
    rcases hmid : st'.ppMap m with _ | aut'
    · rw [hB.ends m aut haut hreg]
      refine PathPattern.glued_congr (fun _ _ => rfl) fun k hk => ?_
      rcases hk' : st'.ppMap k with _ | aut'
      · refine Or.inl ?_
        by_contra hne
        rw [hA.kept_ne (fun h => hne h.symm)] at hk'
        exact hne hk'.symm
      · rcases hold : st.ppMap k with _ | aut''
        · exact Or.inr ⟨rfl, aut', rfl, hfirst k aut' hk' (hreg.of_mem_subpatterns hk)⟩
        · rw [hA.kept k aut'' hold] at hk'
          exact Or.inl hk'.symm
    · have hsame := hB.kept m aut' hmid
      rw [haut] at hsame
      rw [Option.some.inj hsame]
      exact hfirst m aut' hmid hreg
  · intro x aut hnone hsome hreg
    rcases hmid : st'.ppMap (.atom x) with _ | aut'
    · exact hB.atoms x aut hmid hsome hreg
    · have hsame := hB.kept _ aut' hmid
      rw [hsome] at hsame
      rw [Option.some.inj hsame]
      exact hB.atomStored (hA.atoms x aut' hnone hmid hreg)

/-- A pattern that has an entry is not evaluated again. -/
theorem of_known (hready : Ready st p) (hp : st.ppMap p ≠ none) :
    Visited env (· ∈ p.subpatterns) st (st.insert p) := by
  have hmap : (st.insert p).ppMap = st.ppMap := PathPatternState.insert_ppMap_of_known hp
  refine ⟨?_, ?_, ?_, ?_, ?_, GraphTable.Extends.refl _⟩
  · intro m aut haut
    rw [hmap]
    exact haut
  · intro m hnone hsome
    rw [hmap] at hsome
    exact absurd hnone hsome
  · intro m hm
    rw [hmap]
    exact hready.closed p p.mem_subpatterns_self hp m hm
  · intro m aut haut _
    rw [hmap] at haut
    rw [PathPattern.glued_of_known haut]
  · intro x aut hnone hsome
    rw [hmap, hnone] at hsome
    exact absurd hsome (Option.some_ne_none _).symm

/-- Storing the automaton of `n` after everything below it. -/
theorem store {aut : TraceAutomaton} (hnone : st.ppMap n = none)
    (h : Visited env below (st.insert n) st') (hn : ∀ m, below m → n ∉ m.subpatterns)
    (hsub : ∀ m, m ∈ n.subpatterns ↔ m = n ∨ below m) (hatom : ∀ x, n ≠ .atom x)
    (hends : n.Regular → aut.ends = n.glued st'.atomLang st.ppMap) :
    Visited env (· ∈ n.subpatterns) st (st'.store n aut) := by
  have hself : (st'.store n aut).ppMap n = some aut := by simp [PathPatternState.store]
  have hother : ∀ m, m ≠ n → (st'.store n aut).ppMap m = st'.ppMap m := by
    intro m hm
    simp [PathPatternState.store, hm]
  have hinsert : ∀ m, m ≠ n → (st.insert n).ppMap m = st.ppMap m := by
    intro m hm
    simp [PathPatternState.insert, hm]
  have hlang : (st'.store n aut).atomLang = st'.atomLang := by
    funext x
    exact PathPatternState.atomLang_congr (hother _ fun heq => hatom x heq.symm)
  have hstored : ∀ m, m ∈ n.subpatterns → (st'.store n aut).ppMap m ≠ none := by
    intro m hm
    by_cases heq : m = n
    · rw [heq, hself]
      exact Option.some_ne_none _
    · rw [hother m heq]
      exact h.stored m (((hsub m).mp hm).resolve_left heq)
  refine ⟨?_, ?_, hstored, ?_, ?_, ?_⟩
  · intro m aut' haut'
    have hm : m ≠ n := by
      intro heq
      rw [heq, hnone] at haut'
      exact absurd haut' (Option.some_ne_none _).symm
    rw [hother m hm]
    exact h.kept m aut' ((hinsert m hm).trans haut')
  · intro m hm hsome
    by_cases heq : m = n
    · rw [heq]
      exact ⟨n.mem_subpatterns_self, hstored⟩
    · rw [hother m heq] at hsome
      obtain ⟨hbelow, hrest⟩ := h.added m ((hinsert m heq).trans hm) hsome
      refine ⟨(hsub m).mpr (Or.inr hbelow), fun k hk => ?_⟩
      exact hstored k (PathPattern.mem_subpatterns_trans hk ((hsub m).mpr (Or.inr hbelow)))
  · intro m aut' haut' hreg
    rw [hlang]
    by_cases heq : m = n
    · subst heq
      rw [← Option.some.inj (hself.symm.trans haut')]
      exact hends hreg
    · rw [hother m heq] at haut'
      rcases hold : st.ppMap m with _ | aut''
      · rw [h.ends m aut' haut' hreg]
        -- `n` does not lie below what its operands have added
        obtain ⟨hbelow, _⟩ := h.added m ((hinsert m heq).trans hold)
          (by rw [haut']; exact Option.some_ne_none _)
        refine PathPattern.glued_congr (fun _ _ => rfl) fun k hk => Or.inl (hinsert k ?_)
        exact fun hkn => hn m hbelow (hkn ▸ hk)
      · have hsame := h.kept m aut'' ((hinsert m heq).trans hold)
        rw [haut'] at hsame
        rw [PathPattern.glued_of_known hold, Option.some.inj hsame]
  · intro x aut' hx haut' hreg
    have hne : PathPattern.atom x ≠ n := fun heq => hatom x heq.symm
    rw [hother _ hne] at haut'
    have hold := h.atoms x aut' ((hinsert _ hne).trans hx) haut' hreg
    refine ⟨?_, hold.nonempty, ?_, ?_, ?_⟩
    · rw [hother _ hne]
      exact haut'
    · rw [PathPatternState.atomLabel_congr (hother _ hne)]
      exact hold.labels
    · rw [PathPatternState.atomLabel_congr (hother _ hne)]
      exact hold.visible
    · rw [PathPatternState.atomLabel_congr (hother _ hne)]
      exact hold.graph
  · exact h.graphs

/-- Storing a new automaton for an atom. -/
theorem atom {aut : TraceAutomaton} (hnone : st.ppMap (.atom a) = none)
    (hmap : st'.ppMap = Function.update st.ppMap (.atom a) (some aut))
    (hgraphs : st.graphs.Extends st'.graphs)
    (hatom : (PathPattern.atom a).Regular →
      st'.AtomStored env a aut ∧ aut.ends = Ends.plain (st'.atomLang a)) :
    Visited env (· ∈ (PathPattern.atom a).subpatterns) st st' := by
  have hself : st'.ppMap (.atom a) = some aut := by simp [hmap]
  have hother : ∀ n, n ≠ .atom a → st'.ppMap n = st.ppMap n := by
    intro n hn
    simp [hmap, hn]
  have hstored : ∀ m, m ∈ (PathPattern.atom a).subpatterns → st'.ppMap m ≠ none := by
    intro m hm
    rw [List.mem_singleton.mp hm, hself]
    exact Option.some_ne_none _
  have hkept : ∀ n aut', st.ppMap n = some aut' → st'.ppMap n = some aut' := by
    intro n aut' h
    have hn : n ≠ .atom a := by
      intro heq
      rw [heq, hnone] at h
      exact absurd h (Option.some_ne_none _).symm
    rw [hother n hn]
    exact h
  refine ⟨hkept, ?_, hstored, ?_, ?_, hgraphs⟩
  · intro n hn hsome
    by_cases heq : n = .atom a
    · rw [heq]
      exact ⟨PathPattern.mem_subpatterns_self _, hstored⟩
    · rw [hother n heq] at hsome
      exact absurd hn hsome
  · intro n aut' hsome hreg
    by_cases heq : n = .atom a
    · subst heq
      rw [← Option.some.inj (hself.symm.trans hsome), (hatom hreg).2]
      simp [PathPattern.glued, hnone]
    · rw [hother n heq] at hsome
      rw [PathPattern.glued_of_known hsome]
  · intro b aut' hn hsome hreg
    by_cases heq : b = a
    · subst heq
      exact Option.some.inj (hself.symm.trans hsome) ▸ (hatom hreg).1
    · have hne : PathPattern.atom b ≠ .atom a := fun h => heq (PathPattern.atom.inj h)
      rw [hother _ hne, hn] at hsome
      exact absurd hsome (Option.some_ne_none _).symm

/-- The visits of `Edgecov`, `Nodecov` and `Predicate`. -/
theorem labelAtom (hnone : st.ppMap (.atom a) = none) {ref : GraphRef F P × GraphTable F P ν}
    (hextends : st.graphs.Extends ref.2)
    (hderef : ref.2.deref env ref.1 = some (a.targetGraph env)) :
    Visited env (· ∈ (PathPattern.atom a).subpatterns) st
      (FShell.labelAtom (st.insert (.atom a)) a ref) := by
  obtain ⟨label, hlabel⟩ : ∃ label, label = (ref.2.toIndex ref.1).1 := ⟨_, rfl⟩
  have hvisible : label ≠ epsilon := hlabel ▸ ref.2.index.toIndex_ne_epsilon ref.1
  have hmap : (FShell.labelAtom (st.insert (.atom a)) a ref).ppMap =
      Function.update st.ppMap (.atom a) (some (atomAutomaton TraceAutomaton.empty label)) := by
    simp only [FShell.labelAtom, ← hlabel, PathPatternState.insert_entryAutomaton hnone]
    exact PathPatternState.store_insert_ppMap hnone _
  have hatomLabel : (FShell.labelAtom (st.insert (.atom a)) a ref).atomLabel a = label := by
    simp [PathPatternState.atomLabel, hmap, atomAutomaton_trans]
  refine Visited.atom hnone hmap ?_ fun _ => ⟨⟨?_, ?_, ?_, ?_, ?_⟩, ?_⟩
  · exact hextends.trans (ref.2.extends_toIndex ref.1)
  · simp [hmap]
  · simp [atomAutomaton_trans]
  · intro e he
    rw [atomAutomaton_trans] at he
    rw [hatomLabel, List.mem_singleton.mp he]
  · rw [hatomLabel]
    exact hvisible
  · rw [hatomLabel, hlabel]
    exact (ref.2.lookupGraph_toIndex ref.1).trans hderef
  · rw [atomAutomaton_ends hvisible, PathPatternState.atomLang, hatomLabel]

/-- The visits of atoms. -/
theorem visitAtom (hnone : st.ppMap (.atom a) = none) :
    Visited env (· ∈ (PathPattern.atom a).subpatterns) st
      (visitAtom env (st.insert (.atom a)) a) := by
  cases a with
  | edgecov f =>
      by_cases hdisc : (env.filter f).disconnectedNodes = []
      · have href : FShell.visitAtom env (st.insert (.atom (.edgecov f))) (.edgecov f) =
            FShell.labelAtom (st.insert (.atom (.edgecov f))) (.edgecov f)
              (.filter f, st.graphs) := by
          simp [FShell.visitAtom, hdisc, PathPatternState.insert]
        rw [href]
        refine labelAtom hnone (GraphTable.Extends.refl _) ?_
        show some (env.filter f) = some _
        rw [EcpAtom.targetGraph, ← hdisc]
      · have href : FShell.visitAtom env (st.insert (.atom (.edgecov f))) (.edgecov f) =
            FShell.labelAtom (st.insert (.atom (.edgecov f))) (.edgecov f)
              (st.graphs.pushBack (EcpAtom.targetGraph env (.edgecov f))) := by
          simp [FShell.visitAtom, hdisc, PathPatternState.insert, EcpAtom.targetGraph]
        rw [href]
        exact labelAtom hnone (st.graphs.extends_pushBack _) (st.graphs.deref_pushBack _)
  | nodecov f =>
      exact labelAtom hnone (st.graphs.extends_pushBack _) (st.graphs.deref_pushBack _)
  | predicate p =>
      exact labelAtom hnone (GraphTable.Extends.refl _) rfl
  | pathcov f bound =>
      refine Visited.atom hnone (PathPatternState.store_insert_ppMap hnone _) ?_ ?_
      · exact env.pathcov_extends f bound st.graphs
      · exact fun hreg => hreg.elim

omit [DecidableEq F] [DecidableEq P] in
/-- A visit leaves what is below another pattern ready. -/
theorem ready (h : Visited env (· ∈ p.subpatterns) st st') (hp : Ready st p) (hq : Ready st q) :
    Ready st' q := by
  constructor
  · intro m hm hstored k hk
    by_cases hold : st.ppMap m = none
    · exact (h.added m hold hstored).2 k hk
    · rw [h.kept_ne (hq.closed m hm hold k hk)]
      exact hq.closed m hm hold k hk
  · intro m hm hreg aut haut
    rcases hold : st.ppMap m with _ | aut'
    · rw [h.ends m aut haut hreg]
      have hbelow := (h.added m hold (by rw [haut]; exact Option.some_ne_none _)).1
      refine hreg.glued_live fun k hk aut' haut' => ?_
      exact hp.live k (PathPattern.mem_subpatterns_trans hk hbelow) (hreg.of_mem_subpatterns hk)
        aut' haut'
    · have hsame := h.kept m aut' hold
      rw [haut] at hsame
      exact hq.live m hm hreg aut (hsame ▸ hold)

end Visited

/-- What is below an operand is ready when what is below the pattern is. -/
theorem Ready.below {st : PathPatternState F P ν} {n p : PathPattern F P} (h : Ready st n)
    (hp : p ∈ n.subpatterns) (hsize : n ∉ p.subpatterns) : Ready (st.insert n) p := by
  have hsub : ∀ m ∈ p.subpatterns, m ∈ n.subpatterns :=
    fun m hm => PathPattern.mem_subpatterns_trans hm hp
  have hsame : ∀ m ∈ p.subpatterns, (st.insert n).ppMap m = st.ppMap m := by
    intro m hm
    have hne : m ≠ n := fun heq => hsize (heq ▸ hm)
    simp [PathPatternState.insert, hne]
  constructor
  · intro m hm hstored k hk
    rw [hsame k (PathPattern.mem_subpatterns_trans hk hm)]
    exact h.closed m (hsub m hm) (by rwa [hsame m hm] at hstored) k hk
  · intro m hm hreg aut haut
    rw [hsame m hm] at haut
    exact h.live m (hsub m hm) hreg aut haut

section Visits

variable [DecidableEq ν] {env : PathPatternEnv F P ν}

omit [DecidableEq ν] in
/-- A pattern that is known is not visited again. -/
theorem visitBinary_of_known {n : PathPattern F P}
    {combine : TraceAutomaton → TraceAutomaton → TraceAutomaton → TraceAutomaton}
    {visitA visitB : PathPatternState F P ν → PathPatternState F P ν}
    {st : PathPatternState F P ν} (h : st.ppMap n ≠ none) :
    visitBinary n combine visitA visitB st = st.insert n := by
  have hsome : (st.ppMap n).isNone = false := by simpa [Option.isSome_iff_ne_none] using h
  simp [visitBinary, hsome]

omit [DecidableEq ν] in
/-- A new pattern gets what `combine` makes of the automata of its operands. -/
theorem visitBinary_of_new {n ppA ppB : PathPattern F P}
    {combine : TraceAutomaton → TraceAutomaton → TraceAutomaton → TraceAutomaton}
    {visitA visitB : PathPatternState F P ν → PathPatternState F P ν}
    {st : PathPatternState F P ν} {a b : TraceAutomaton} (hnone : st.ppMap n = none)
    (hentryA : (visitA (st.insert n)).entry = some ppA)
    (hentryB : (visitB (visitA (st.insert n))).entry = some ppB)
    (ha : (visitB (visitA (st.insert n))).ppMap ppA = some a)
    (hb : (visitB (visitA (st.insert n))).ppMap ppB = some b) :
    visitBinary n combine visitA visitB st =
      (visitB (visitA (st.insert n))).store n (combine a b TraceAutomaton.empty) := by
  simp only [visitBinary, hnone, Option.isNone_none, if_true, hentryA, Option.bind_some, ha,
    Option.getD_some, PathPatternState.entryAutomaton, hentryB, hb]
  simp [PathPatternState.insert, hnone]

/-- Nor is a known repetition. -/
theorem visitPath_repetition_of_known {pp : PathPattern F P} {lower upper : Int}
    {st : PathPatternState F P ν} (h : st.ppMap (.repetition pp lower upper) ≠ none) :
    visitPath env (.repetition pp lower upper) st = st.insert (.repetition pp lower upper) := by
  have hsome : (st.ppMap (.repetition pp lower upper)).isNone = false := by
    simpa [Option.isSome_iff_ne_none] using h
  simp [visitPath, hsome]

/-- A new repetition gets a row of copies of the automaton of its operand. -/
theorem visitPath_repetition_of_new {n pp : PathPattern F P} {lower upper : Int}
    (hn : n = .repetition pp lower upper) {st : PathPatternState F P ν} {sub : TraceAutomaton}
    (hnone : st.ppMap n = none) (hentry : (visitPath env pp (st.insert n)).entry = some pp)
    (hsub : (visitPath env pp (st.insert n)).ppMap pp = some sub) :
    visitPath env n st = (visitPath env pp (st.insert n)).store n
      (repeatAutomaton sub lower upper TraceAutomaton.empty) := by
  have hunfold : visitPath env n st = (visitPath env pp (st.insert n)).store n
      (repeatAutomaton (visitPath env pp (st.insert n)).entryAutomaton lower upper
        (st.insert n).entryAutomaton) := by
    subst hn
    simp [visitPath, hnone]
  rw [hunfold, PathPatternState.insert_entryAutomaton hnone]
  simp [PathPatternState.entryAutomaton, hentry, hsub]

/-- Nor is a known atom. -/
theorem visitPath_atom_of_known {a : EcpAtom F P} {st : PathPatternState F P ν}
    (h : st.ppMap (.atom a) ≠ none) : visitPath env (.atom a) st = st.insert (.atom a) := by
  have hsome : (st.ppMap (.atom a)).isNone = false := by
    simpa [Option.isSome_iff_ne_none] using h
  simp [visitPath, hsome]

/-- A new atom is visited. -/
theorem visitPath_atom_of_new {a : EcpAtom F P} {st : PathPatternState F P ν}
    (h : st.ppMap (.atom a) = none) :
    visitPath env (.atom a) st = visitAtom env (st.insert (.atom a)) a := by
  simp [visitPath, h]

/-- The common part of `PP_Alternative` and `PP_Concat`. -/
theorem visitBinary_spec {n ppA ppB : PathPattern F P}
    {combine : TraceAutomaton → TraceAutomaton → TraceAutomaton → TraceAutomaton}
    {visitA visitB : PathPatternState F P ν → PathPatternState F P ν}
    (hsub : n.subpatterns = n :: (ppA.subpatterns ++ ppB.subpatterns))
    (hatom : ∀ x, n ≠ .atom x) (hsizeA : sizeOf ppA < sizeOf n) (hsizeB : sizeOf ppB < sizeOf n)
    (hvisitA : ∀ st, Ready st ppA → (visitA st).entry = some ppA ∧
      Visited env (· ∈ ppA.subpatterns) st (visitA st))
    (hvisitB : ∀ st, Ready st ppB → (visitB st).entry = some ppB ∧
      Visited env (· ∈ ppB.subpatterns) st (visitB st))
    (hends : ∀ (f : EcpAtom F P → Language Int) known a b, known n = none → n.Regular →
      a.ends = ppA.glued f known → b.ends = ppB.glued f known →
      (combine a b TraceAutomaton.empty).ends = n.glued f known)
    (hregA : n.Regular → ppA.Regular) (hregB : n.Regular → ppB.Regular)
    (st : PathPatternState F P ν) (hready : Ready st n) :
    (visitBinary n combine visitA visitB st).entry = some n ∧
      Visited env (· ∈ n.subpatterns) st (visitBinary n combine visitA visitB st) := by
  by_cases hnone : st.ppMap n = none
  · have hnotA : ∀ m, m ∈ ppA.subpatterns → n ∉ m.subpatterns :=
      fun _ => PathPattern.notMem_subpatterns hsizeA
    have hnotB : ∀ m, m ∈ ppB.subpatterns → n ∉ m.subpatterns :=
      fun _ => PathPattern.notMem_subpatterns hsizeB
    have hmemA : ppA ∈ n.subpatterns := by
      rw [hsub]
      exact List.mem_cons_of_mem _ (List.mem_append_left _ ppA.mem_subpatterns_self)
    have hmemB : ppB ∈ n.subpatterns := by
      rw [hsub]
      exact List.mem_cons_of_mem _ (List.mem_append_right _ ppB.mem_subpatterns_self)
    have hreadyA := hready.below hmemA (hnotA ppA ppA.mem_subpatterns_self)
    have hreadyB := hready.below hmemB (hnotB ppB ppB.mem_subpatterns_self)
    obtain ⟨hentryA, hA⟩ := hvisitA (st.insert n) hreadyA
    obtain ⟨hentryB, hB⟩ := hvisitB _ (hA.ready hreadyA hreadyB)
    obtain ⟨stA, hstA⟩ : ∃ s, s = visitA (st.insert n) := ⟨_, rfl⟩
    obtain ⟨stB, hstB⟩ : ∃ s, s = visitB stA := ⟨_, rfl⟩
    rw [← hstA] at hentryA hA hentryB hB
    rw [← hstB] at hentryB hB
    have hboth := hA.trans hB
    obtain ⟨a, ha⟩ := Option.ne_none_iff_exists'.mp
      (hboth.stored ppA (Or.inl ppA.mem_subpatterns_self))
    obtain ⟨b, hb⟩ := Option.ne_none_iff_exists'.mp
      (hboth.stored ppB (Or.inr ppB.mem_subpatterns_self))
    have hvisit : visitBinary n combine visitA visitB st =
        stB.store n (combine a b TraceAutomaton.empty) := by
      rw [hstB, hstA] at hentryB ha hb ⊢
      rw [hstA] at hentryA
      exact visitBinary_of_new hnone hentryA hentryB ha hb
    rw [hvisit]
    refine ⟨rfl, hboth.store hnone ?_ ?_ hatom ?_⟩
    · exact fun m hm => hm.elim (hnotA m) (hnotB m)
    · intro m
      rw [hsub, List.mem_cons, List.mem_append]
    · intro hreg
      have hinsert : ∀ m : PathPattern F P, n ∉ m.subpatterns →
          m.glued stB.atomLang (st.insert n).ppMap = m.glued stB.atomLang st.ppMap := by
        intro m hm
        refine PathPattern.glued_congr (fun _ _ => rfl) fun k hk => Or.inl ?_
        have hne : k ≠ n := fun heq => hm (heq ▸ hk)
        simp [PathPatternState.insert, hne]
      refine hends _ _ a b hnone hreg ?_ ?_
      · rw [hboth.ends ppA a ha (hregA hreg), hinsert ppA (hnotA ppA ppA.mem_subpatterns_self)]
      · rw [hboth.ends ppB b hb (hregB hreg), hinsert ppB (hnotB ppB ppB.mem_subpatterns_self)]
  · rw [visitBinary_of_known hnone]
    exact ⟨rfl, Visited.of_known hready hnone⟩

/-- **One visit.**  Afterwards `m_entry` points at the visited pattern, the
old automata are untouched, and the new ones have the glued ends. -/
theorem visitPath_spec (env : PathPatternEnv F P ν) (p : PathPattern F P) :
    ∀ st : PathPatternState F P ν, Ready st p →
      (visitPath env p st).entry = some p ∧
        Visited env (· ∈ p.subpatterns) st (visitPath env p st) := by
  induction p with
  | atom a =>
      intro st hready
      by_cases hnone : st.ppMap (.atom a) = none
      · rw [visitPath_atom_of_new hnone]
        refine ⟨?_, Visited.visitAtom hnone⟩
        cases a <;> rfl
      · rw [visitPath_atom_of_known hnone]
        exact ⟨rfl, Visited.of_known hready hnone⟩
  | ppAlternative ppA ppB ihA ihB =>
      refine visitBinary_spec rfl (by intro x hx; cases hx) ?_ ?_ ihA ihB ?_ And.left And.right
      · simp only [PathPattern.ppAlternative.sizeOf_spec]
        omega
      · simp only [PathPattern.ppAlternative.sizeOf_spec]
        omega
      · intro f known a b hnone _ ha hb
        rw [ppAlternativeAutomaton_ends]
        simp [PathPattern.glued, hnone, ← ha, ← hb, ends_through]
  | ppConcat ppA ppB ihA ihB =>
      refine visitBinary_spec rfl (by intro x hx; cases hx) ?_ ?_ ihA ihB ?_ And.left And.right
      · simp only [PathPattern.ppConcat.sizeOf_spec]
        omega
      · simp only [PathPattern.ppConcat.sizeOf_spec]
        omega
      · intro f known a b hnone _ ha hb
        rw [ppConcatAutomaton_ends]
        simp [PathPattern.glued, hnone, ← ha, ← hb]
  | repetition pp lower upper ih =>
      intro st hready
      obtain ⟨n, hn⟩ : ∃ n, n = PathPattern.repetition pp lower upper := ⟨_, rfl⟩
      rw [← hn] at hready ⊢
      by_cases hnone : st.ppMap n = none
      · have hsize : sizeOf pp < sizeOf n := by
          rw [hn, PathPattern.repetition.sizeOf_spec]
          omega
        have hnot : ∀ m, m ∈ pp.subpatterns → n ∉ m.subpatterns :=
          fun _ => PathPattern.notMem_subpatterns hsize
        have hmem : pp ∈ n.subpatterns := by
          rw [hn]
          exact List.mem_cons_of_mem _ pp.mem_subpatterns_self
        have hreadySub := hready.below hmem (hnot pp pp.mem_subpatterns_self)
        obtain ⟨hentry, hvisited⟩ := ih (st.insert n) hreadySub
        obtain ⟨stSub, hstSub⟩ : ∃ s, s = visitPath env pp (st.insert n) := ⟨_, rfl⟩
        rw [← hstSub] at hentry hvisited
        obtain ⟨sub, hsub⟩ := Option.ne_none_iff_exists'.mp
          (hvisited.stored pp pp.mem_subpatterns_self)
        have hvisit : visitPath env n st =
            stSub.store n (repeatAutomaton sub lower upper TraceAutomaton.empty) := by
          rw [hstSub] at hentry hsub ⊢
          exact visitPath_repetition_of_new hn hnone hentry hsub
        rw [hvisit]
        refine ⟨rfl, hvisited.store hnone hnot ?_ ?_ ?_⟩
        · intro m
          rw [hn, PathPattern.subpatterns, List.mem_cons]
        · intro x hx
          cases hn.symm.trans hx
        · intro hreg
          rw [hn] at hreg
          have hlive : sub.ends.Live := by
            rw [hvisited.ends pp sub hsub hreg.1]
            exact PathPattern.Regular.glued_live hreg.1 fun k hk aut haut =>
              hreadySub.live k hk (hreg.1.of_mem_subpatterns hk) aut haut
          have hinitial : ∃ s, s ∈ sub.initial := by
            obtain ⟨s, hs, _⟩ := hlive.entry Language.nil_mem_one
            exact ⟨s, hs⟩
          have hinsert : pp.glued stSub.atomLang (st.insert n).ppMap =
              pp.glued stSub.atomLang st.ppMap := by
            refine PathPattern.glued_congr (fun _ _ => rfl) fun k hk => Or.inl ?_
            have hne : k ≠ n := fun heq => hnot pp pp.mem_subpatterns_self (heq ▸ hk)
            simp [PathPatternState.insert, hne]
          have hends := hvisited.ends pp sub hsub hreg.1
          rw [hinsert] at hends
          rw [repeatAutomaton_ends hinitial hreg.2.1 (hreg.2.2.imp id And.left), hends]
          rw [hn] at hnone
          simp [hn, PathPattern.glued, hnone]
      · have hvisit : visitPath env n st = st.insert n := by
          rw [hn] at hnone ⊢
          exact visitPath_repetition_of_known hnone
        rw [hvisit]
        exact ⟨rfl, Visited.of_known hready hnone⟩

end Visits

end FShell
