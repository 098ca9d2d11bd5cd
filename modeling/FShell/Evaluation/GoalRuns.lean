import FShell.Evaluation.AtomGoals

/-!
# Test goals and runs

After both calls of `build` and the walk over the cover clause a model of the
clauses is an accepted run: the coverage automaton goes through the states that the
model denotes, and the passing automaton can follow the execution.  The rows of the
id map are the goals of the cover clause, and a model makes a row true only if its
run has visited what the goals of the row ask for.
-/

namespace FShell

open Cnf

/-- What `do_query` passes to `build`: two automata with one initial state each, and the
equation with its clauses. -/
structure EncodedQuery (ν : Type) [LinearOrder ν] where
  setting : BuildSetting ν
  cover : TraceAutomaton
  passing : TraceAutomaton
  coverStart : TaState
  passingStart : TaState
  equation : List (EquationStep ν)
  steps : List (StepView ν)
  cnf : Cnf
  cover_initial : cover.initial = [coverStart]
  passing_initial : passing.initial = [passingStart]
  steps_eq : stepViews setting.instruction none 0 equation = some steps
  bounded : cnf.Bounded
  below : ∀ x ∈ equation, ∀ l ∈ x.guardLiteral, l.Below cnf.noVariables

/-- What a row of the id map says about the runs of the models of `c`: true only if the goals
are met by the events `visited`, and whenever they are met by the events `entered`. -/
structure StandsFor {ν : Type} [LinearOrder ν] (c : Cnf)
    (visited entered : Assignment → ν ×ₗ ν → TaState → Prop) (row : List Literal)
    (gs : List (AtomGoal ν)) : Prop where
  visited : ∀ w, c.Models w → row.all (Literal.eval w) = true → ∀ g ∈ gs, g.Met (visited w)
  entered : ∀ w, c.Models w → (∀ g ∈ gs, g.Met (entered w)) → row.all (Literal.eval w) = true

namespace EncodedQuery

variable {ν : Type} [LinearOrder ν] (query : EncodedQuery ν)

/-- The members after the first call of `build`. -/
def first : BuildMembers ν :=
  query.setting.encode query.cover true query.coverStart query.steps
    (BuildSetting.emptyMembers query.cnf)

/-- The members after both calls of `build`. -/
def members : BuildMembers ν :=
  query.setting.encode query.passing false query.passingStart query.steps query.first

def coverEncoder : Encoder ν := query.setting.encoder query.cover true LocMaps.empty

/-- The passing automaton finds the target graphs of the coverage automaton in the maps. -/
def passingEncoder : Encoder ν :=
  query.setting.encoder query.passing false
    (collectGraphs query.setting.lookupIndex query.cover LocMaps.empty).2

/-- The rounds of the coverage automaton. -/
def rounds : List (Round ν) := query.steps.flatMap query.coverEncoder.roundsOf

/-- The execution leads the coverage automaton through the states `ts` to a final one, and the
passing automaton can follow it. -/
structure Accepts (v : Assignment) (ts : List TaState) : Prop where
  run : query.coverEncoder.RunBy query.cover.Takes v query.rounds query.coverStart ts
  final : ts.getLastD query.coverStart ∈ query.cover.finals
  passing : ∃ t ∈ query.passing.finals,
    query.passingEncoder.Follows query.passing.Takes v query.steps query.passingStart t

/-- The states after the rounds in which an edge is passed. -/
def Visited (v : Assignment) (ts : List TaState) (e : ν ×ₗ ν) (t : TaState) : Prop :=
  query.coverEncoder.Visits v query.rounds ts e t

/-- The states that are entered on an edge. -/
def Entered (v : Assignment) (ts : List TaState) (e : ν ×ₗ ν) (t : TaState) : Prop :=
  query.coverEncoder.Enters query.cover.Takes v query.rounds query.coverStart ts e t

/-! ## Both calls of `build` -/

theorem buildBoth_eq :
    query.setting.buildBoth query.cover query.passing query.equation query.cnf =
      some query.members := by
  simp only [BuildSetting.buildBoth, BuildSetting.build, query.steps_eq, query.cover_initial,
    query.passing_initial, List.head?_cons, Option.bind_eq_bind, Option.bind_some]
  rfl

theorem coverStart_mem : query.coverStart ∈ query.cover.states :=
  query.cover.initial_live _ (by simp [query.cover_initial])

theorem passingStart_mem : query.passingStart ∈ query.passing.states :=
  query.passing.initial_live _ (by simp [query.passing_initial])

theorem steps_below : ∀ step ∈ query.steps, Encoder.StepBelow query.cnf.noVariables step :=
  BuildSetting.stepViews_below query.below query.steps_eq

theorem first_grows : query.cnf.noVariables ≤ query.first.cnf.noVariables ∧
    query.first.cnf.Bounded :=
  BuildSetting.encode_bounded query.setting (BuildSetting.emptyMembers query.cnf) true
    (coverStart_mem query) (steps_below query) query.bounded

theorem first_steps_below :
    ∀ step ∈ query.steps, Encoder.StepBelow query.first.cnf.noVariables step :=
  fun step hstep => (steps_below query step hstep).mono (first_grows query).1

theorem members_grows : query.first.cnf.noVariables ≤ query.members.cnf.noVariables ∧
    query.members.cnf.Bounded :=
  BuildSetting.encode_bounded query.setting query.first false (passingStart_mem query) (first_steps_below query)
    (first_grows query).2

variable {query}

theorem first_of_members {w : Assignment} (hw : query.members.cnf.Models w) :
    query.first.cnf.Models w := by
  obtain ⟨vecs, logs, hchooses, -, -⟩ :=
    BuildSetting.encode_spec query.setting false (passingStart_mem query) (first_steps_below query)
  exact (hchooses.sound w hw).1

variable (query) in
/-- The second call of `build` writes nothing down. -/
theorem recorded_eq : query.members.recorded = query.first.recorded :=
  BuildSetting.encode_recorded (passingStart_mem query) (first_steps_below query)

theorem emptyMembers_fresh (cnf : Cnf) (key : TaState ×ₗ (ν ×ₗ ν)) (l : Literal) :
    l ∉ (BuildSetting.emptyMembers cnf : BuildMembers ν).recorded.tgToLitMap.get key :=
  SetMap.notMem_get_empty

theorem stored {key : TaState ×ₗ (ν ×ₗ ν)} {l : Literal}
    (hl : l ∈ query.members.recorded.tgToLitMap.get key) :
    l.Below query.first.cnf.noVariables ∧
      query.setting.isTestGoalState (ofLex key).1 = true := by
  rw [recorded_eq] at hl
  exact BuildSetting.encode_stored (coverStart_mem query) (steps_below query)
    (emptyMembers_fresh query.cnf) hl

variable (query) in
/-- What the walk over the cover clause finds. -/
def goals : StoredGoals ν where
  cnf := query.members.cnf
  initial := query.cover.initial
  recorded := query.members.recorded
  below := fun _ _ hl => (stored hl).1.mono (members_grows query).1

variable (query) in
/-- How the models of the clauses `c` are read as accepted runs; `logs` is what was written down
in their rounds. -/
structure Decodes (c : Cnf) (decode : Assignment → List TaState)
    (logs : List (List (Addition ν))) : Prop where
  sound : ∀ w, c.Models w → query.cnf.Models w ∧ query.Accepts w (decode w)
  complete : ∀ v ts, query.cnf.Models v → query.Accepts v ts →
    ∃ w, AgreeBelow query.cnf.noVariables v w ∧ c.Models w ∧ decode w = ts
  recorded : query.members.recorded = logs.flatten.foldl query.coverEncoder.add
    (BuildSetting.emptyMembers query.cnf : BuildMembers ν).recorded
  runLog : ∀ w, c.Models w → query.coverEncoder.RunLog query.cover.Takes w query.rounds
    query.coverStart (decode w) logs

/-- **Models of all clauses are accepted runs.**  Literals that are defined later change
nothing. -/
theorem exists_decodes {d : Cnf} (hd : Defines query.members.cnf d) :
    ∃ decode logs, query.Decodes d decode logs := by
  obtain ⟨decode, logs, h⟩ := BuildSetting.encode_decodes query.setting
    (BuildSetting.emptyMembers query.cnf) (coverStart_mem query) (steps_below query)
  have hfirst : ∀ w, d.Models w → query.first.cnf.Models w :=
    fun w hw => first_of_members (hd.sound w hw)
  have hpassing : ∀ v, query.first.cnf.Models v →
      ((∃ w, AgreeBelow query.first.cnf.noVariables v w ∧ query.members.cnf.Models w) ↔
        ∃ t ∈ query.passing.finals,
          query.passingEncoder.Follows query.passing.Takes v query.steps query.passingStart t) :=
    fun v hv => BuildSetting.encode_models_iff false query.first (passingStart_mem query)
      (first_grows query).2 (first_steps_below query) hv
  refine ⟨decode, logs, ?_, ?_, ?_, ?_⟩
  · intro w hw
    obtain ⟨hcnf, hrun, hfinal⟩ := h.sound w (hfirst w hw)
    exact ⟨hcnf, hrun, hfinal,
      (hpassing w (hfirst w hw)).mp ⟨w, AgreeBelow.refl _ w, hd.sound w hw⟩⟩
  · intro v ts hv haccepts
    obtain ⟨u, hvu, hu, hdecode⟩ := h.complete v ts query.bounded hv haccepts.run haccepts.final
    obtain ⟨t, ht, hfollows⟩ := haccepts.passing
    obtain ⟨w, huw, hw⟩ :=
      (hpassing u hu).mpr ⟨t, ht, BuildSetting.follows_agree (steps_below query) hvu hfollows⟩
    obtain ⟨x, hwx, hx⟩ := hd.complete (members_grows query).2 w hw
    have hux : AgreeBelow query.first.cnf.noVariables u x := huw.trans hwx (members_grows query).1
    exact ⟨x, hvu.trans hux (first_grows query).1, hx, (h.agree u x hux).symm.trans hdecode⟩
  · rw [recorded_eq]
    exact h.recorded
  · exact fun w hw => h.runLog w (hfirst w hw)

variable {d : Cnf} {decode : Assignment → List TaState} {logs : List (List (Addition ν))}
  {w : Assignment} {e : ν ×ₗ ν} {t : TaState} {l : Literal}

/-- The literals that are stored under a state and an edge. -/
theorem Decodes.mem_literals (h : query.Decodes d decode logs) :
    l ∈ query.goals.literals (toLex (t, e)) ↔ ∃ a ∈ logs.flatten, a.tg = some l ∧
      query.coverEncoder.reverseNumber a.dest = t ∧ a.site.edge = e := by
  have hmem : l ∈ query.goals.literals (toLex (t, e)) ↔
      l ∈ query.members.recorded.tgToLitMap.get (toLex (t, e)) := Iff.rfl
  rw [hmem, h.recorded, Encoder.mem_tgToLitMap, or_iff_left (emptyMembers_fresh query.cnf _ l)]

theorem Decodes.visited (h : query.Decodes d decode logs) (hw : d.Models w)
    (hl : l ∈ query.goals.literals (toLex (t, e))) (htrue : l.eval w = true) :
    query.Visited w (decode w) e t := by
  obtain ⟨a, ha, htg, rfl, rfl⟩ := h.mem_literals.mp hl
  exact (h.runLog w hw).visits ha htg htrue

theorem Decodes.entered (h : query.Decodes d decode logs) (hw : d.Models w)
    (hgoal : query.setting.isTestGoalState t = true) (hentered : query.Entered w (decode w) e t) :
    ∃ l ∈ query.goals.literals (toLex (t, e)), l.eval w = true := by
  obtain ⟨a, ha, hdest, hedge, l, htg, htrue⟩ := (h.runLog w hw).entered hentered hgoal
  exact ⟨l, h.mem_literals.mpr ⟨a, ha, htg, hdest, hedge⟩, htrue⟩

/-! ## The rows of the id map -/

variable {F P : Type} {cp : CoveragePattern F P}

/-- A row that is the conjunction of goals stands for them. -/
theorem Decodes.standsFor (h : query.Decodes d decode logs) {states : TestGoalStates cp}
    {row : List Literal} {gs : List (AtomGoal ν)} (hgs : gs ∈ query.goals.patternGoals states)
    (hrow : ∀ v, d.Models v →
      row.all (Literal.eval v) = gs.all fun g => query.goals.holds g v) :
    StandsFor d (fun w => query.Visited w (decode w)) (fun w => query.Entered w (decode w)) row
      gs := by
  constructor
  · intro w hw htrue g hg
    rw [hrow w hw, List.all_eq_true] at htrue
    rcases StoredGoals.holds_iff.mp (htrue g hg) with hinitial | ⟨key, hkey, l, hl, heval⟩
    · exact Or.inl hinitial
    · exact Or.inr ⟨key, hkey, h.visited hw hl heval⟩
  · intro w hw hmet
    rw [hrow w hw, List.all_eq_true]
    intro g hg
    apply StoredGoals.holds_iff.mpr
    rcases hmet g hg with hinitial | ⟨key, hkey, hentered⟩
    · exact Or.inl hinitial
    · -- a key of the map has literals, so its state is a goal state
      obtain ⟨l, hl⟩ := List.exists_mem_of_ne_nil _
        (StoredGoals.literals_of_patternGoals hgs g hg key hkey)
      exact Or.inr ⟨key, hkey, h.entered hw (stored hl).2 hentered⟩

/-- The functions of the rows are the goals of the pattern. -/
theorem rows_same {states : TestGoalStates cp} {result : QueryGoals}
    (h : visitQuery (query.goals.atomVisitor F P) states = some result) :
    Defines query.members.cnf result.tables.cnf ∧
      SameOn result.tables.cnf (conjunctions result.idMap)
        (query.goals.patternFunctions states) := by
  obtain ⟨hdefines, hsame⟩ := StoredGoals.visitQuery_products _ h
  refine ⟨hdefines, hsame.trans ?_⟩
  rw [StoredGoals.visitQuery_eq] at h
  cases h
  exact StoredGoals.denoteGoals_same states (Nat.le_refl query.goals.cnf.noVariables) rfl

variable (query) in
/-- **Test goals are events of runs.**  The rows of the id map are the goals of the cover
clause, read as what accepted runs visit. -/
theorem idMap_goals (states : TestGoalStates cp) :
    query.setting.buildBoth query.cover query.passing query.equation query.cnf =
        some query.members ∧
      ∃ result, visitQuery (query.goals.atomVisitor F P) states = some result ∧
        ∃ decode : Assignment → List TaState,
          (∀ w, result.tables.cnf.Models w →
            query.cnf.Models w ∧ query.Accepts w (decode w)) ∧
          (∀ v ts, query.cnf.Models v → query.Accepts v ts →
            ∃ w, AgreeBelow query.cnf.noVariables v w ∧ result.tables.cnf.Models w ∧
              decode w = ts) ∧
          (∀ row ∈ result.idMap, ∃ gs ∈ query.goals.patternGoals states,
            StandsFor result.tables.cnf (fun w => query.Visited w (decode w))
              (fun w => query.Entered w (decode w)) row gs) ∧
          ∀ gs ∈ query.goals.patternGoals states, ∃ row ∈ result.idMap,
            StandsFor result.tables.cnf (fun w => query.Visited w (decode w))
              (fun w => query.Entered w (decode w)) row gs := by
  refine ⟨buildBoth_eq query, ?_⟩
  have hquery := StoredGoals.visitQuery_eq (query.goals.atomVisitor F P) states
  obtain ⟨hdefines, hsame⟩ := rows_same hquery
  obtain ⟨decode, logs, hdecodes⟩ := exists_decodes hdefines
  refine ⟨_, hquery, decode, hdecodes.sound, hdecodes.complete, ?_, ?_⟩
  · intro row hrow
    obtain ⟨_, ⟨gs, hgs, rfl⟩, heq⟩ := hsame.left _ ⟨row, hrow, rfl⟩
    exact ⟨gs, hgs, hdecodes.standsFor hgs heq⟩
  · intro gs hgs
    obtain ⟨_, ⟨row, hrow, rfl⟩, heq⟩ := hsame.right _ ⟨gs, hgs, rfl⟩
    exact ⟨row, hrow, hdecodes.standsFor hgs heq⟩

/-- The query for the one edge. -/
def ofEdge : EncodedQuery Nat where
  setting := BuildSetting.oneEdge
  cover := BuildSetting.edgeAutomaton
  passing := BuildSetting.edgeAutomaton
  coverStart := 1
  passingStart := 1
  equation := BuildSetting.edgeEquation
  steps := [BuildSetting.edgeStep]
  cnf := Cnf.empty
  cover_initial := rfl
  passing_initial := rfl
  steps_eq := rfl
  bounded := Cnf.empty_bounded
  below := by simp [BuildSetting.edgeEquation]

end EncodedQuery

end FShell
