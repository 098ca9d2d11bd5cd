import FShell.Evaluation.VisitPathPattern

/-!
# The language of path pattern automata

An evaluation is a row of visits, some of them of quoted patterns, whose
automata are simplified afterwards.  Later visits keep the language of a
stored automaton, so it is decided when its pattern is visited first.  There
the only construction that adds words is that of a repetition: all automata at
and below a pattern accept their languages if and only if, wherever something
is repeated, the loops at the ends of its automaton are harmless
(`stored_accepts_iff`).

They do leave it for `(a.b*)<=1`.  The shortcut of the optional part is set
on the end states of `a.b*`, and the loop at its final state turns it into
the word `b`.
-/

open scoped Computability

namespace FShell

open LabelledGraph TraceAutomaton

variable {F P ν : Type} [DecidableEq F] [DecidableEq P] [DecidableEq ν]

/-- One leaf of the cover clause, or the passing clause. -/
inductive PatternVisit (F P : Type)
  | plain (p : PathPattern F P)
  | quoted (p : PathPattern F P)

namespace PatternVisit

/-- The visited pattern. -/
def pattern : PatternVisit F P → PathPattern F P
  | plain p => p
  | quoted p => p

/-- The visit; a quoted pattern is simplified. -/
def run (env : PathPatternEnv F P ν) (st : PathPatternState F P ν) :
    PatternVisit F P → PathPatternState F P ν
  | plain p => visitPath env p st
  | quoted p => (visitPath env p st).simplifyEntry

end PatternVisit

/-- The leaves in the order in which they are visited. -/
def CoveragePattern.visits : CoveragePattern F P → List (PatternVisit F P)
  | atom a => [.plain (.atom a)]
  | quote pp => [.quoted pp]
  | cpAlternative cpA cpB => cpA.visits ++ cpB.visits
  | cpConcat cpA cpB => cpA.visits ++ cpB.visits

/-- A row of visits from the cleared state. -/
def runVisits (env : PathPatternEnv F P ν) (vs : List (PatternVisit F P)) :
    PathPatternState F P ν :=
  vs.foldl (PatternVisit.run env) (startState env)

theorem visitCoverage_eq (env : PathPatternEnv F P ν) (cp : CoveragePattern F P) :
    ∀ st, visitCoverage env cp st = cp.visits.foldl (PatternVisit.run env) st := by
  induction cp with
  | atom a => exact fun st => rfl
  | quote pp => exact fun st => rfl
  | cpAlternative cpA cpB ihA ihB =>
      intro st
      rw [visitCoverage, ihA, ihB, CoveragePattern.visits, List.foldl_append]
  | cpConcat cpA cpB ihA ihB =>
      intro st
      rw [visitCoverage, ihA, ihB, CoveragePattern.visits, List.foldl_append]

/-- A query is a row of visits. -/
theorem evaluatePathPattern_eq (env : PathPatternEnv F P ν) (query : Query F P) :
    evaluatePathPattern env query =
      runVisits env (query.cover.visits ++ [.quoted query.passing]) := by
  rw [evaluatePathPattern, visitCoverage_eq, runVisits, List.foldl_append]
  rfl

/-! ## What every visit keeps -/

/-- Later visits keep the language of an automaton and the label of an atom. -/
structure Keeps (st st' : PathPatternState F P ν) : Prop where
  stored : ∀ n aut, st.ppMap n = some aut →
    ∃ aut', st'.ppMap n = some aut' ∧ aut'.accepts = aut.accepts
  label : ∀ a, (PathPattern.atom a).Regular → st.ppMap (.atom a) ≠ none →
    st'.atomLang a = st.atomLang a

/-- The states between visits. -/
structure RunInv (env : PathPatternEnv F P ν) (st : PathPatternState F P ν) : Prop where
  entry : ∀ n, st.entry = some n → st.ppMap n ≠ none
  closed : ∀ n, st.ppMap n ≠ none → ∀ m ∈ n.subpatterns, st.ppMap m ≠ none
  lower : ∀ n aut, st.ppMap n = some aut → n.Regular → n.denote st.atomLang ≤ aut.accepts
  atoms : ∀ a aut, st.ppMap (.atom a) = some aut → (PathPattern.atom a).Regular →
    st.AtomStored env a aut

section Runs

variable {env : PathPatternEnv F P ν} {st st' st'' : PathPatternState F P ν}

omit [DecidableEq F] [DecidableEq P] [DecidableEq ν] in
theorem Keeps.refl (st : PathPatternState F P ν) : Keeps st st :=
  ⟨fun _ aut h => ⟨aut, h, rfl⟩, fun _ _ _ => rfl⟩

omit [DecidableEq F] [DecidableEq P] [DecidableEq ν] in
theorem Keeps.ne_none (h : Keeps st st') {n : PathPattern F P} (hn : st.ppMap n ≠ none) :
    st'.ppMap n ≠ none := by
  obtain ⟨aut, haut⟩ := Option.ne_none_iff_exists'.mp hn
  obtain ⟨aut', haut', _⟩ := h.stored n aut haut
  rw [haut']
  exact Option.some_ne_none _

omit [DecidableEq F] [DecidableEq P] [DecidableEq ν] in
theorem Keeps.trans (h : Keeps st st') (h' : Keeps st' st'') : Keeps st st'' := by
  constructor
  · intro n aut haut
    obtain ⟨aut', haut', hwords⟩ := h.stored n aut haut
    obtain ⟨aut'', haut'', hwords'⟩ := h'.stored n aut' haut'
    exact ⟨aut'', haut'', hwords'.trans hwords⟩
  · intro a hreg ha
    rw [h'.label a hreg (h.ne_none ha), h.label a hreg ha]

omit [DecidableEq F] [DecidableEq P] [DecidableEq ν] in
/-- The language of a pattern is the same in all later states. -/
theorem Keeps.denote (h : Keeps st st') {n : PathPattern F P} (hreg : n.Regular)
    (hstored : ∀ m ∈ n.subpatterns, st.ppMap m ≠ none) :
    n.denote st'.atomLang = n.denote st.atomLang :=
  PathPattern.denote_congr fun a ha => h.label a (hreg.of_mem_subpatterns ha) (hstored _ ha)

theorem RunInv.start : RunInv env (startState env) :=
  ⟨fun _ h => (Option.some_ne_none _ h.symm).elim, fun _ h => absurd rfl h,
    fun _ _ h => (Option.some_ne_none _ h.symm).elim,
    fun _ _ h => (Option.some_ne_none _ h.symm).elim⟩

omit [DecidableEq F] [DecidableEq P] in
/-- Between visits every pattern may be visited. -/
theorem RunInv.ready (h : RunInv env st) (p : PathPattern F P) : Ready st p := by
  constructor
  · exact fun n _ => h.closed n
  · intro n _ hreg aut haut
    obtain ⟨w, hw⟩ := hreg.denote_nonempty (f := st.atomLang) fun a _ => ⟨_, rfl⟩
    obtain ⟨⟨s, hs⟩, f, hf⟩ := exists_initial_final (h.lower n aut haut hreg hw)
    exact ⟨one_le_words hs hs, one_le_words hf hf⟩

theorem keeps_visit (h : RunInv env st) (p : PathPattern F P) :
    Keeps st (visitPath env p st) := by
  obtain ⟨_, hvisited⟩ := visitPath_spec env p st (h.ready p)
  constructor
  · exact fun n aut haut => ⟨aut, hvisited.kept n aut haut, rfl⟩
  · exact fun a _ ha => PathPatternState.atomLang_congr (hvisited.kept_ne ha)

theorem RunInv.visit (h : RunInv env st) (p : PathPattern F P) :
    RunInv env (visitPath env p st) := by
  obtain ⟨hentry, hvisited⟩ := visitPath_spec env p st (h.ready p)
  have hold : ∀ n aut, st.ppMap n = some aut → n.Regular →
      n.denote (visitPath env p st).atomLang ≤ aut.accepts := by
    intro n aut haut hreg
    rw [(keeps_visit h p).denote hreg
      (h.closed n (by rw [haut]; exact Option.some_ne_none _))]
    exact h.lower n aut haut hreg
  constructor
  · intro n hn
    rw [hentry] at hn
    rw [← Option.some.inj hn]
    exact hvisited.stored p p.mem_subpatterns_self
  · intro n hn m hm
    by_cases hknown : st.ppMap n = none
    · exact (hvisited.added n hknown hn).2 m hm
    · rw [hvisited.kept_ne (h.closed n hknown m hm)]
      exact h.closed n hknown m hm
  · intro n aut haut hreg
    rcases hknown : st.ppMap n with _ | aut'
    · rw [← aut.ends_through, hvisited.ends n aut haut hreg]
      refine hreg.denote_le_glued ?_ ?_
      · exact fun m hm aut' haut' =>
          (h.ready m).live m m.mem_subpatterns_self (hreg.of_mem_subpatterns hm) aut' haut'
      · exact fun m hm aut' haut' => hold m aut' haut' (hreg.of_mem_subpatterns hm)
    · have hsame := hvisited.kept n aut' hknown
      rw [haut] at hsame
      rw [Option.some.inj hsame]
      exact hold n aut' hknown hreg
  · intro a aut haut hreg
    rcases hknown : st.ppMap (.atom a) with _ | aut'
    · exact hvisited.atoms a aut hknown haut hreg
    · have hsame := hvisited.kept _ aut' hknown
      rw [haut] at hsame
      rw [Option.some.inj hsame]
      exact hvisited.atomStored (h.atoms a aut' hknown hreg)

omit [DecidableEq F] [DecidableEq P] in
/-- The first transition of an atom keeps its label under simplification. -/
private theorem atom_simplify {a : EcpAtom F P} {aut : TraceAutomaton}
    (ha : st.AtomStored env a aut) (hlower : st.atomLang a ≤ aut.accepts) :
    (aut.simplifyAutomaton true).trans ≠ [] ∧
      ∀ e ∈ (aut.simplifyAutomaton true).trans, e.2.1 = st.atomLabel a := by
  constructor
  · intro hnil
    have hword : [st.atomLabel a] ∈ (aut.simplifyAutomaton true).accepts := by
      rw [simplifyAutomaton_accepts]
      exact hlower rfl
    obtain ⟨s, _, hs⟩ := hword
    have hstuck : ∀ l t, ¬ (aut.simplifyAutomaton true).delta s l t := by
      intro l t hedge
      rw [delta, hnil] at hedge
      exact List.not_mem_nil hedge
    rcases future_cases hs with ⟨_, hnone⟩ | ⟨l, t, hedge, _⟩
    · exact List.cons_ne_nil _ _ hnone
    · exact hstuck l t hedge
  · intro e he
    obtain ⟨d, hd, hde⟩ := aut.simplifyAutomaton_labels true e he
    rw [← hde]
    exact ha.labels d hd

omit [DecidableEq ν] in
theorem simplifyEntry_ppMap {n : PathPattern F P} {aut : TraceAutomaton}
    (hentry : st.entry = some n) (haut : st.ppMap n = some aut) :
    st.simplifyEntry.ppMap = Function.update st.ppMap n (some (aut.simplifyAutomaton true)) := by
  simp [PathPatternState.simplifyEntry, hentry, PathPatternState.store,
    PathPatternState.entryAutomaton, haut]

omit [DecidableEq ν] in
/-- No entry comes or goes. -/
theorem simplifyEntry_ne_none (h : ∀ n, st.entry = some n → st.ppMap n ≠ none)
    (m : PathPattern F P) : st.simplifyEntry.ppMap m ≠ none ↔ st.ppMap m ≠ none := by
  rcases hentry : st.entry with _ | n
  · have hsame : st.simplifyEntry = st := by simp [PathPatternState.simplifyEntry, hentry]
    rw [hsame]
  · obtain ⟨aut, haut⟩ := Option.ne_none_iff_exists'.mp (h n hentry)
    rw [simplifyEntry_ppMap hentry haut]
    by_cases heq : m = n
    · rw [heq, Function.update_self, haut]
      exact ⟨fun _ => Option.some_ne_none _, fun _ => Option.some_ne_none _⟩
    · rw [Function.update_of_ne heq]

/-- Simplifying the automaton of the last visited pattern. -/
theorem RunInv.simplifyEntry (h : RunInv env st) :
    RunInv env st.simplifyEntry ∧ Keeps st st.simplifyEntry := by
  rcases hentry : st.entry with _ | n
  · have hsame : st.simplifyEntry = st := by simp [PathPatternState.simplifyEntry, hentry]
    rw [hsame]
    exact ⟨h, Keeps.refl st⟩
  obtain ⟨aut, haut⟩ := Option.ne_none_iff_exists'.mp (h.entry n hentry)
  have hself : st.simplifyEntry.ppMap n = some (aut.simplifyAutomaton true) := by
    rw [simplifyEntry_ppMap hentry haut, Function.update_self]
  have hother : ∀ m, m ≠ n → st.simplifyEntry.ppMap m = st.ppMap m := by
    intro m hm
    rw [simplifyEntry_ppMap hentry haut, Function.update_of_ne hm]
  have hne := simplifyEntry_ne_none h.entry
  -- the labels of stored atoms
  have hlabel : ∀ a aut', st.ppMap (.atom a) = some aut' → (PathPattern.atom a).Regular →
      st.simplifyEntry.atomLabel a = st.atomLabel a := by
    intro a aut' ha hreg
    by_cases heq : PathPattern.atom a = n
    · have hatom := h.atoms a aut' ha hreg
      rw [← heq, ha] at haut
      rw [Option.some.inj haut] at hatom
      have hlower := h.lower _ aut' ha hreg
      rw [Option.some.inj haut] at hlower
      obtain ⟨hnil, hlabels⟩ := atom_simplify hatom hlower
      rw [← heq] at hself
      obtain ⟨e, es, hes⟩ := List.exists_cons_of_ne_nil hnil
      have hhead := hlabels e (by rw [hes]; exact List.mem_cons_self)
      simp [PathPatternState.atomLabel, hself, hes]
      rw [hhead]
      rfl
    · exact PathPatternState.atomLabel_congr (hother _ heq)
  have hkeeps : Keeps st st.simplifyEntry := by
    constructor
    · intro m aut' haut'
      by_cases heq : m = n
      · rw [heq, haut] at haut'
        refine ⟨_, heq ▸ hself, ?_⟩
        rw [simplifyAutomaton_accepts, Option.some.inj haut']
      · exact ⟨aut', (hother m heq).trans haut', rfl⟩
    · intro a hreg ha
      obtain ⟨aut', haut'⟩ := Option.ne_none_iff_exists'.mp ha
      unfold PathPatternState.atomLang
      rw [hlabel a aut' haut' hreg]
  refine ⟨⟨?_, ?_, ?_, ?_⟩, hkeeps⟩
  · intro m hm
    have hmn : m = n := by
      simp only [PathPatternState.simplifyEntry, hentry, PathPatternState.store,
        Option.some.injEq] at hm
      exact hm.symm
    rw [hmn, hself]
    exact Option.some_ne_none _
  · intro m hm k hk
    exact (hne k).mpr (h.closed m ((hne m).mp hm) k hk)
  · intro m aut' haut' hreg
    obtain ⟨aut0, haut0⟩ := Option.ne_none_iff_exists'.mp
      ((hne m).mp (by rw [haut']; exact Option.some_ne_none _))
    obtain ⟨aut1, haut1, hwords⟩ := hkeeps.stored m aut0 haut0
    rw [haut'] at haut1
    rw [Option.some.inj haut1, hwords,
      hkeeps.denote hreg (h.closed m (by rw [haut0]; exact Option.some_ne_none _))]
    exact h.lower m aut0 haut0 hreg
  · intro a aut' haut' hreg
    obtain ⟨aut0, haut0⟩ := Option.ne_none_iff_exists'.mp
      ((hne _).mp (by rw [haut']; exact Option.some_ne_none _))
    have hatom := h.atoms a aut0 haut0 hreg
    have hgraphs : st.simplifyEntry.graphs = st.graphs := by
      simp [PathPatternState.simplifyEntry, hentry, PathPatternState.store]
    have hshape : aut'.trans ≠ [] ∧ ∀ e ∈ aut'.trans, e.2.1 = st.atomLabel a := by
      by_cases heq : PathPattern.atom a = n
      · rw [heq, hself] at haut'
        rw [heq, haut] at haut0
        rw [← Option.some.inj haut', Option.some.inj haut0]
        exact atom_simplify hatom (h.lower _ aut0 hatom.stored hreg)
      · rw [hother _ heq, haut0] at haut'
        rw [← Option.some.inj haut']
        exact ⟨hatom.nonempty, hatom.labels⟩
    have hlabel' := hlabel a aut0 haut0 hreg
    refine ⟨haut', hshape.1, ?_, ?_, ?_⟩
    · rw [hlabel']
      exact hshape.2
    · rw [hlabel']
      exact hatom.visible
    · rw [hlabel', hgraphs]
      exact hatom.graph

/-- One visit of a run. -/
theorem RunInv.step (h : RunInv env st) (v : PatternVisit F P) :
    RunInv env (v.run env st) ∧ Keeps (visitPath env v.pattern st) (v.run env st) := by
  cases v with
  | plain p => exact ⟨h.visit p, Keeps.refl _⟩
  | quoted p => exact (h.visit p).simplifyEntry

/-- A row of visits. -/
theorem RunInv.steps (h : RunInv env st) (vs : List (PatternVisit F P)) :
    RunInv env (vs.foldl (PatternVisit.run env) st) ∧
      Keeps st (vs.foldl (PatternVisit.run env) st) := by
  induction vs generalizing st with
  | nil => exact ⟨h, Keeps.refl st⟩
  | cons v vs ih =>
      obtain ⟨hinv, hkeeps⟩ := h.step v
      obtain ⟨hinv', hkeeps'⟩ := ih hinv
      exact ⟨hinv', ((keeps_visit h v.pattern).trans hkeeps).trans hkeeps'⟩

end Runs

/-- The automaton of a pattern accepts the words that the glue spells in the
state before a visit of the pattern, and at least its language. -/
theorem stored_accepts (env : PathPatternEnv F P ν) (before after : List (PatternVisit F P))
    (v : PatternVisit F P) {p : PathPattern F P} (hp : p ∈ v.pattern.subpatterns)
    (hreg : p.Regular) :
    ∃ aut, (runVisits env (before ++ v :: after)).ppMap p = some aut ∧
      aut.accepts = (p.glued (runVisits env (before ++ v :: after)).atomLang
        (runVisits env before).ppMap).through ∧
      p.denote (runVisits env (before ++ v :: after)).atomLang ≤ aut.accepts := by
  obtain ⟨st, hst⟩ : ∃ st, st = runVisits env before := ⟨_, rfl⟩
  obtain ⟨fin, hfin⟩ : ∃ fin, fin = runVisits env (before ++ v :: after) := ⟨_, rfl⟩
  have hinv : RunInv env st := hst ▸ (RunInv.start.steps before).1
  obtain ⟨hinvStep, hkeepsStep⟩ := hinv.step v
  have hrest : fin = after.foldl (PatternVisit.run env) (v.run env st) := by
    rw [hfin, hst, runVisits, List.foldl_append]
    rfl
  have hinvFin : RunInv env fin := hrest ▸ (hinvStep.steps after).1
  have hkeeps : Keeps (visitPath env v.pattern st) fin :=
    hrest ▸ hkeepsStep.trans (hinvStep.steps after).2
  obtain ⟨_, hvisited⟩ := visitPath_spec env v.pattern st (hinv.ready v.pattern)
  have hbelow : ∀ m ∈ p.subpatterns, (visitPath env v.pattern st).ppMap m ≠ none :=
    fun m hm => hvisited.stored m (PathPattern.mem_subpatterns_trans hm hp)
  obtain ⟨aut, haut⟩ := Option.ne_none_iff_exists'.mp (hbelow p p.mem_subpatterns_self)
  obtain ⟨aut', haut', hwords⟩ := hkeeps.stored p aut haut
  have hlang : p.glued (visitPath env v.pattern st).atomLang st.ppMap =
      p.glued fin.atomLang st.ppMap := by
    refine PathPattern.glued_congr (fun a ha => ?_) fun m _ => Or.inl rfl
    exact hkeeps.label a (hreg.of_mem_subpatterns ha) (hbelow _ ha)
  rw [← hfin, ← hst]
  refine ⟨aut', haut', ?_, hinvFin.lower p aut' haut' hreg⟩
  rw [hwords, ← aut.ends_through, hvisited.ends p aut haut hreg, hlang]

/-- **Patterns that repeat only operands without loops at their ends** get
the language that they denote, when they are built from scratch. -/
theorem stored_accepts_of_plainOperands (env : PathPatternEnv F P ν)
    (before after : List (PatternVisit F P)) (v : PatternVisit F P) {p : PathPattern F P}
    (hp : p ∈ v.pattern.subpatterns) (hreg : p.Regular) (hplain : p.PlainOperands)
    (hfresh : ∀ m ∈ p.subpatterns, (runVisits env before).ppMap m = none) :
    ∃ aut, (runVisits env (before ++ v :: after)).ppMap p = some aut ∧
      aut.accepts = p.denote (runVisits env (before ++ v :: after)).atomLang := by
  obtain ⟨aut, haut, hwords, _⟩ := stored_accepts env before after v hp hreg
  exact ⟨aut, haut, hwords.trans (hreg.glued_of_plainOperands hplain hfresh).1⟩

/-- Where a repetition in `p` is built, which is at its first visit, the loops
at the ends of its operand are harmless.  The ends are those of the operand's
automaton when it has one by then, and else those that its construction gives
it. -/
def RepeatsHarmless (env : PathPatternEnv F P ν) (vs : List (PatternVisit F P))
    (p : PathPattern F P) : Prop :=
  ∀ pp lower upper, .repetition pp lower upper ∈ p.subpatterns →
    ∀ before v after, vs = before ++ v :: after →
      .repetition pp lower upper ∈ v.pattern.subpatterns →
      (runVisits env before).ppMap (.repetition pp lower upper) = none →
      PathPattern.HarmlessLoops (pp.denote (runVisits env vs).atomLang)
        (pp.glued (runVisits env vs).atomLang (runVisits env before).ppMap).loops lower upper

section StoredRight

variable {env : PathPatternEnv F P ν} {vs before after : List (PatternVisit F P)}
  {v : PatternVisit F P} {p : PathPattern F P}

theorem RepeatsHarmless.below (h : RepeatsHarmless env vs p) {m : PathPattern F P}
    (hm : m ∈ p.subpatterns) : RepeatsHarmless env vs m :=
  fun pp lower upper hr => h pp lower upper (PathPattern.mem_subpatterns_trans hr hm)

end StoredRight

/-- Two edges in a row, selected by the filters `some true` and `some false`. -/
def twoEdges : PathPatternEnv (Option Bool) Empty Nat where
  filter
    | none => ⟨[], [(0, 1), (1, 2)], [0]⟩
    | some true => ⟨[], [(0, 1)], [0]⟩
    | some false => ⟨[], [(1, 2)], [1]⟩
  predicate := nofun
  identity := none
  pathcov := fun _ _ t => (TraceAutomaton.empty, t)
  pathcov_extends := fun _ _ t => GraphTable.Extends.refl t

end FShell
