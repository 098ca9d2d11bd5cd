import FShell.Evaluation.ReverseMaps
import FShell.Evaluation.SimulatedRuns

/-!
# The goals that a test case is credited with

The simulated runs are the accepted runs of the execution, as long as every step
takes one edge at most; that follows from what `do_step` asserts about the edges of
a location (`EntriesFit`).  The converse needs that every step takes one of the edges
in the maps (`TakesEdges`): where an execution leaves the maps the automaton of the
encoding waits, and the simulation loses its candidates.

**Literals.**  What is earned on a simulated run holds in the model that denotes the
run.  At a node the simulation may take the literal of another round; both belong to
the same goals if the literals of nodes are stored once (`NodeLiteralsApart`).
-/

namespace FShell

open Cnf

namespace EncodedQuery

variable {ν : Type} [LinearOrder ν] (query : EncodedQuery ν)

/-- There are two outgoing edges in the maps at most, and two at a goto only. -/
def EntriesFit : Prop :=
  ∀ step ∈ query.steps, (query.coverEncoder.maps.edgeEntry step.pc).length ≤ 1 ∨
    ((query.coverEncoder.maps.edgeEntry step.pc).length = 2 ∧
      (query.setting.instruction step.pc).isGoto = true)

/-- Every instruction of the program that is executed and has an edge in the maps takes
one of them. -/
def TakesEdges (v : Assignment) : Prop :=
  ∀ step ∈ query.steps, step.guard.eval v = true →
    query.coverEncoder.maps.edgeEntry step.pc ≠ [] →
    isInstrumented (query.setting.instruction step.pc) = false →
    ∃ e ∈ query.coverEncoder.maps.edgeEntry step.pc,
      query.coverEncoder.passes v (.edges step) e = true

/-- A literal of a node is stored under one key. -/
def NodeLiteralsApart : Prop :=
  ∀ t n l key, l ∈ query.goals.literals (toLex (t, toLex (n, n))) →
    l ∈ query.goals.literals key → key = toLex (t, toLex (n, n))

variable {query} {F P : Type} {cp : CoveragePattern F P} {states : TestGoalStates cp} {d : Cnf}
  {decode : Assignment → List TaState} {logs : List (List (Addition ν))} {v w u : Assignment}
  {r : Round ν} {rs : List (Round ν)} {goal : EdgeGoal} {adds : List (Addition ν)}
  {c c' : Candidate} {e e' : ν ×ₗ ν} {s t : TaState} {ts : List TaState}

/-! ## One edge -/

/-- An edge is passed where the step is taken. -/
theorem passes_guard (h : query.coverEncoder.passes v r e = true) :
    (Encoder.roundStep r).guard.eval v = true := by
  cases r with
  | node step => exact h
  | edges step => exact (Bool.and_eq_true _ _ ▸ h).1
  | leave step => cases h

/-- One of two edges is the goto edge, and they have complementary literals. -/
theorem edgeLiteral_unique {step : StepView ν} {entry : List (ν ×ₗ ν)}
    (hfit : entry.length ≤ 1 ∨
      (entry.length = 2 ∧ (query.coverEncoder.instruction step.pc).isGoto = true))
    (he : e ∈ entry) (he' : e' ∈ entry)
    (h : (Encoder.edgeLiteral step (query.coverEncoder.gotoEdge step.pc entry) e).eval v = true)
    (h' : (Encoder.edgeLiteral step (query.coverEncoder.gotoEdge step.pc entry) e').eval v =
      true) : e = e' := by
  match entry, hfit with
  | [], _ => cases he
  | [x], _ => rw [List.mem_singleton.mp he, List.mem_singleton.mp he']
  | _ :: _ :: _ :: _, hfit => simp at hfit
  | [x, y], hfit =>
      obtain ⟨-, hgoto⟩ := hfit.resolve_left (by simp)
      by_contra hne
      have hboth : ∀ z, (z = e ∧ ¬z = e') ∨ (z = e' ∧ ¬z = e) →
          query.coverEncoder.gotoEdge step.pc [x, y] = some z → False := by
        rintro z (⟨rfl, hz⟩ | ⟨rfl, hz⟩) hedge <;>
          simp [Encoder.edgeLiteral, hedge, hz] at h h' <;> simp [h] at h'
      have hedge : query.coverEncoder.gotoEdge step.pc [x, y] = some x ∨
          query.coverEncoder.gotoEdge step.pc [x, y] = some y := by
        unfold Encoder.gotoEdge
        rw [if_pos hgoto]
        dsimp only
        split_ifs
        · exact Or.inl rfl
        · exact Or.inr rfl
      simp only [List.mem_cons, List.not_mem_nil, or_false] at he he'
      rcases hedge with hedge | hedge
      · exact hboth x (by grind) hedge
      · exact hboth y (by grind) hedge

/-- A step takes one edge at most. -/
theorem EntriesFit.unique (hfit : query.EntriesFit) (hr : r ∈ query.rounds)
    (he : e ∈ query.coverEncoder.exits r) (he' : e' ∈ query.coverEncoder.exits r)
    (hpass : query.coverEncoder.passes v r e = true)
    (hpass' : query.coverEncoder.passes v r e' = true) : e = e' := by
  cases r with
  | node step => rw [List.mem_singleton.mp he, List.mem_singleton.mp he']
  | leave step => cases he
  | edges step =>
      rw [Encoder.passes, Bool.and_eq_true] at hpass hpass'
      exact edgeLiteral_unique (hfit step (roundStep_mem hr)) he he' hpass.2 hpass'.2

/-! ## Simulated runs are runs of the automaton -/

namespace Decodes

/-- Models that agree on the program have the same transitions. -/
theorem edgeGuard_agree (h : query.Decodes d decode logs) (hw : d.Models w) (hu : d.Models u)
    (hwu : AgreeBelow query.cnf.noVariables w u) (hr : r ∈ query.rounds)
    (hgoal : goal ∈ (query.simulator states).roundTrans r) :
    goal.edgeGuard.eval w = goal.edgeGuard.eval u := by
  obtain ⟨adds, hmem, a, ha, rfl⟩ := (h.mem_roundTrans states hw hr).mp hgoal
  obtain ⟨s, t, hlog, -⟩ := h.exists_stepLog hw hmem
  obtain ⟨s', t', hlog', -⟩ := h.exists_stepLog hu hmem
  change a.site.guard.eval w = a.site.guard.eval u
  rw [hlog.guard a ha, hlog'.guard a ha]
  exact Encoder.passes_agree (steps_below query _ (roundStep_mem hr)) hwu _

/-- A move of the simulator depends on the variables of the clauses. -/
theorem moves_agree (h : query.Decodes d decode logs) (hw : d.Models w) (hu : d.Models u)
    (hwu : AgreeBelow query.cnf.noVariables w u) (hr : r ∈ query.rounds)
    (hmove : (query.simulator states).Moves w r c c') : (query.simulator states).Moves u r c c' := by
  have hguard : (Encoder.roundStep r).guard.eval w = (Encoder.roundStep r).guard.eval u :=
    (steps_below query _ (roundStep_mem hr)).guard.eval_eq hwu
  unfold Simulator.Moves at hmove ⊢
  rw [← hguard]
  split_ifs at hmove ⊢ with hcond
  · rcases hmove with hstay | ⟨goal, hgoal, heval, hrest⟩
    · exact Or.inl hstay
    · rw [h.edgeGuard_agree hw hu hwu hr hgoal] at heval
      exact Or.inr ⟨goal, hgoal, heval, hrest⟩
  · exact hmove

/-- So does a run of the simulator. -/
theorem simRun_agree (h : query.Decodes d decode logs) (hw : d.Models w) (hu : d.Models u)
    (hwu : AgreeBelow query.cnf.noVariables w u) (hrs : ∀ r ∈ rs, r ∈ query.rounds)
    (hrun : (query.simulator states).SimRun w rs c ts c') :
    (query.simulator states).SimRun u rs c ts c' := by
  induction hrun with
  | nil c => exact Simulator.SimRun.nil c
  | cons head _ ih =>
      exact Simulator.SimRun.cons (h.moves_agree hw hu hwu (hrs _ List.mem_cons_self) head)
        (ih fun r hr => hrs r (List.mem_cons_of_mem _ hr))

/-- A move of a candidate is one of the automaton.  Where nothing was written down the model has
not taken an edge either. -/
theorem movesBy (h : query.Decodes d decode logs) (hw : d.Models w) (hfit : query.EntriesFit)
    (hr : r ∈ query.rounds) (hmove : (query.simulator states).Moves w r c c') :
    query.coverEncoder.MovesBy query.cover.Takes w r c.state c'.state := by
  obtain ⟨adds, hmem⟩ := (h.runLog w hw).exists_log hr
  obtain ⟨s, t, hlog, hblocked, hmoves, -⟩ := h.exists_stepLog hw hmem
  unfold Simulator.Moves at hmove
  split_ifs at hmove with hcond
  · rcases hmove with ⟨hstay, rfl⟩ | ⟨goal, hgoal, hguard, hsrc, rfl⟩
    · refine ⟨hblocked, fun e he hpass => Or.inr ⟨?_, rfl⟩, Or.inr rfl⟩
      cases r with
      | node step => rfl
      | edges step => exact hstay
      | leave step => rfl
    · obtain ⟨adds', hmem', a, ha, rfl⟩ := (h.mem_roundTrans states hw hr).mp hgoal
      obtain ⟨s', t', hlog', -⟩ := h.exists_stepLog hw hmem'
      have hpass : query.coverEncoder.passes w r a.site.edge = true :=
        (hlog'.guard a ha).symm.trans hguard
      have hexit := (hlog'.site a ha).1
      refine ⟨hblocked, ?_, Or.inl ⟨_, hexit, hpass⟩⟩
      intro e he hpass'
      left
      rw [hfit.unique hr he hexit hpass' hpass, hsrc]
      exact hlog'.taken a ha
  · subst hmove
    refine ⟨hblocked, ?_, Or.inr rfl⟩
    intro e he hpass
    right
    rcases hmoves e he hpass with htakes | ⟨hstay, -⟩
    · obtain ⟨a, ha, -⟩ := hlog.mapped e he _ htakes
      have hgoal := (h.mem_roundTrans states hw hr).mpr ⟨adds, hmem, a, ha, rfl⟩
      exact absurd ⟨passes_guard hpass, List.ne_nil_of_mem hgoal⟩ hcond
    · exact ⟨hstay, rfl⟩

/-- A run of the simulator is a run of the automaton. -/
theorem runBy (h : query.Decodes d decode logs) (hw : d.Models w) (hfit : query.EntriesFit)
    (hrs : ∀ r ∈ rs, r ∈ query.rounds) (hrun : (query.simulator states).SimRun w rs c ts c') :
    query.coverEncoder.RunBy query.cover.Takes w rs c.state ts ∧
      ts.getLastD c.state = c'.state := by
  induction hrun with
  | nil c => exact ⟨rfl, rfl⟩
  | cons head _ ih =>
      obtain ⟨hrest, hlast⟩ := ih fun r hr => hrs r (List.mem_cons_of_mem _ hr)
      refine ⟨⟨_, _, rfl, h.movesBy hw hfit (hrs _ List.mem_cons_self) head, hrest⟩, ?_⟩
      rwa [List.getLastD_cons]

/-! ## What is earned -/

/-- The logs of the rounds that are left are among all of them. -/
def Remaining (query : EncodedQuery ν) (logs : List (List (Addition ν))) (rs : List (Round ν))
    (rest : List (List (Addition ν))) : Prop :=
  ∀ p ∈ rs.zip rest, p ∈ query.rounds.zip logs

/-- At the start everything remains. -/
theorem Remaining.refl (query : EncodedQuery ν) (logs : List (List (Addition ν))) :
    Remaining query logs query.rounds logs :=
  fun _ hp => hp

/-- The first round that remains has its log. -/
theorem Remaining.head {rest : List (List (Addition ν))}
    (h : Remaining query logs (r :: rs) (adds :: rest)) : (r, adds) ∈ query.rounds.zip logs :=
  h _ List.mem_cons_self

/-- The rounds behind it remain. -/
theorem Remaining.tail {rest : List (List (Addition ν))}
    (h : Remaining query logs (r :: rs) (adds :: rest)) : Remaining query logs rs rest :=
  fun p hp => h p (List.mem_cons_of_mem _ hp)

/-- A transition leaves a literal for its edge that is true. -/
theorem exists_literal (h : query.Decodes d decode logs)
    (hmem : (r, adds) ∈ query.rounds.zip logs)
    (hlog : query.coverEncoder.StepLog query.cover.Takes u r s t adds)
    (he : e ∈ query.coverEncoder.exits r) (hpass : query.coverEncoder.passes u r e = true)
    (htakes : query.cover.Takes (query.coverEncoder.graphs r e) s t)
    (hgoal : query.setting.isTestGoalState t = true) :
    ∃ a ∈ adds, a.site.edge = e ∧ query.coverEncoder.reverseNumber a.src = s ∧
      query.coverEncoder.reverseNumber a.dest = t ∧
      ∃ l, a.tg = some l ∧ l ∈ query.goals.literals (toLex (t, e)) ∧ l.eval u = true := by
  obtain ⟨a, ha, hedge, hsrc, hdest⟩ := hlog.mapped e he t htakes
  have hsome : a.tg.isSome = true := by
    rw [hlog.isSome a ha, hdest]
    exact hgoal
  obtain ⟨l, hl⟩ := Option.isSome_iff_exists.mp hsome
  refine ⟨a, ha, hedge, hsrc, hdest, l, hl, ?_, ?_⟩
  · exact h.mem_literals.mpr
      ⟨a, List.mem_flatten.mpr ⟨adds, (List.of_mem_zip hmem).2, ha⟩, hl, hdest, hedge⟩
  · rw [hlog.literal a ha l hl, hedge, hpass, hdest]
    simp

/-- **One round earns goals that are true in the model of the run.** -/
theorem earned_true (h : query.Decodes d decode logs) (hu : d.Models u)
    (hapart : query.NodeLiteralsApart) (htables : query.goals.TablesSound (query.tables states))
    (hsound : ∀ v, d.Models v → (query.tables states).cnf.Models v)
    (hmem : (r, adds) ∈ query.rounds.zip logs)
    (hlog : query.coverEncoder.StepLog query.cover.Takes u r c.state c'.state adds)
    (hmove : (query.simulator states).Moves u r c c')
    (hknown : ∀ l ∈ c.knownSat.toList, l.eval u = true) :
    ∀ l ∈ c'.knownSat.toList, l.eval u = true := by
  have hr := (List.of_mem_zip hmem).1
  intro x hx
  unfold Simulator.Moves at hmove
  split_ifs at hmove with hcond
  · rcases hmove with ⟨-, rfl⟩ | ⟨goal, hgoal, hguard, hsrc, rfl⟩
    · exact hknown x hx
    · rcases Simulator.mem_earn.mp hx with hold | ⟨hstate, -, l, htg, hor⟩
      · exact hknown x hold
      · obtain ⟨g, hl, heval⟩ := htables.orMap l x hor
        rw [heval u (hsound u hu)]
        -- it is enough that the literal of the transition is true, or another one of the goal
        have hholds : ∀ l' ∈ query.goals.goalSet g, l'.eval u = true → query.goals.holds g u = true :=
          fun l' hl' htrue => List.any_eq_true.mpr ⟨l', hl', htrue⟩
        obtain ⟨adds', hmem', a, ha, rfl⟩ := (h.mem_roundTrans states hu hr).mp hgoal
        obtain ⟨s', t', hlog', -⟩ := h.exists_stepLog hu hmem'
        obtain ⟨hexit, hsite⟩ := hlog'.site a ha
        have hpass : query.coverEncoder.passes u r a.site.edge = true :=
          (hlog'.guard a ha).symm.trans hguard
        cases r with
        | leave step => exact hsite.elim
        | edges step =>
            cases Encoder.eq_of_mem_zip rounds_once ⟨step, rfl⟩ hmem hmem'
            apply hholds l hl
            rw [hlog.literal a ha l htg, hpass]
            simp [Encoder.edgeGoal]
        | node step =>
            have htakes : query.cover.Takes
                (query.coverEncoder.graphs (.node step) (toLex (step.pc, step.pc))) c.state
                (query.coverEncoder.reverseNumber a.dest) := by
              rw [hsrc]
              exact hlog'.taken a ha
            obtain ⟨b, -, -, -, -, l', -, hl', htrue⟩ := h.exists_literal hmem hlog
              (List.mem_singleton_self _) (List.mem_singleton.mp hexit ▸ hpass) htakes hstate
            rcases List.mem_append.mp hl with hconst | hentry
            · apply hholds l (List.mem_append_left _ hconst)
              split_ifs at hconst
              · rw [List.mem_singleton.mp hconst]
                rfl
              · cases hconst
            · obtain ⟨key, hkey, hlkey⟩ := List.mem_flatMap.mp hentry
              have hstored : l ∈ query.goals.literals
                  (toLex (query.coverEncoder.reverseNumber a.dest, toLex (step.pc, step.pc))) :=
                h.mem_literals.mpr ⟨a, List.mem_flatten.mpr ⟨adds', (List.of_mem_zip hmem').2, ha⟩,
                  htg, rfl, List.mem_singleton.mp hexit⟩
              rw [hapart _ _ l key hstored hlkey] at hkey
              exact hholds l' (List.mem_append_right _ (List.mem_flatMap.mpr ⟨_, hkey, hl'⟩)) htrue
  · subst hmove
    exact hknown x hx

/-- What a run earns is true in its model. -/
theorem run_earned_true (h : query.Decodes d decode logs) (hu : d.Models u)
    (hapart : query.NodeLiteralsApart) (htables : query.goals.TablesSound (query.tables states))
    (hsound : ∀ v, d.Models v → (query.tables states).cnf.Models v)
    {rest : List (List (Addition ν))} (hremaining : Remaining query logs rs rest)
    (hlogs : query.coverEncoder.RunLog query.cover.Takes u rs c.state ts rest)
    (hrun : (query.simulator states).SimRun u rs c ts c')
    (hknown : ∀ l ∈ c.knownSat.toList, l.eval u = true) :
    ∀ l ∈ c'.knownSat.toList, l.eval u = true := by
  induction hrun generalizing rest with
  | nil c => exact hknown
  | cons head _ ih =>
      cases hlogs with
      | cons hlog htail =>
          exact ih hremaining.tail htail
            (h.earned_true hu hapart htables hsound hremaining.head hlog head hknown)

/-! ## Runs of the automaton are simulated -/

/-- A move of the automaton is one of every candidate in its state, and where the automaton
takes an edge into a goal state a literal for it is earned. -/
theorem exists_moves (h : query.Decodes d decode logs) (hu : d.Models u)
    (hfit : query.EntriesFit) (hedges : query.TakesEdges u)
    (hmem : (r, adds) ∈ query.rounds.zip logs)
    (hlog : query.coverEncoder.StepLog query.cover.Takes u r c.state t adds)
    (hmoves : query.coverEncoder.MovesBy query.cover.Takes u r c.state t) :
    ∃ c', (query.simulator states).Moves u r c c' ∧ c'.state = t ∧
      (∀ x ∈ c.knownSat.toList, x ∈ c'.knownSat.toList) ∧
      ∀ e ∈ query.coverEncoder.exits r, query.coverEncoder.passes u r e = true →
        query.cover.Takes (query.coverEncoder.graphs r e) c.state t →
        query.setting.isTestGoalState t = true →
        ∃ l ∈ query.goals.literals (toLex (t, e)), l.eval u = true ∧
          ∀ x, (l, x) ∈ (query.tables states).reverseOrMap →
            x = .const true ∨ x ∈ c'.knownSat.toList := by
  have hr := (List.of_mem_zip hmem).1
  by_cases htaken : ∃ e ∈ query.coverEncoder.exits r, query.coverEncoder.passes u r e = true ∧
      query.cover.Takes (query.coverEncoder.graphs r e) c.state t
  · obtain ⟨e, he, hpass, htakes⟩ := htaken
    obtain ⟨a, ha, hedge, hsrc, hdest⟩ := hlog.mapped e he t htakes
    have hgoal := (h.mem_roundTrans states hu hr).mpr ⟨adds, hmem, a, ha, rfl⟩
    refine ⟨⟨t, (query.simulator states).earn (query.coverEncoder.edgeGoal a) c.knownSat⟩, ?_,
      rfl, fun x hx => Simulator.mem_earn.mpr (Or.inl hx), ?_⟩
    · unfold Simulator.Moves
      rw [if_pos ⟨passes_guard hpass, List.ne_nil_of_mem hgoal⟩]
      refine Or.inr ⟨_, hgoal, ?_, hsrc.symm, ?_⟩
      · exact (hlog.guard a ha).trans (hedge.symm ▸ hpass)
      · rw [show (query.coverEncoder.edgeGoal a).dest = t from hdest]
    · intro e' he' hpass' _ hstate
      cases hfit.unique hr he he' hpass hpass'
      have hsome : a.tg.isSome = true := by
        rw [hlog.isSome a ha, hdest]
        exact hstate
      obtain ⟨l, hl⟩ := Option.isSome_iff_exists.mp hsome
      refine ⟨l, h.mem_literals.mpr
        ⟨a, List.mem_flatten.mpr ⟨adds, (List.of_mem_zip hmem).2, ha⟩, hl, hdest, hedge⟩, ?_, ?_⟩
      · rw [hlog.literal a ha l hl, hedge, hpass, hdest]
        simp
      intro x hx
      by_cases htrue : x = .const true
      · exact Or.inl htrue
      · right
        refine Simulator.mem_earn.mpr (Or.inr ⟨?_, ?_, l, hl, hx⟩)
        · rw [show (query.coverEncoder.edgeGoal a).dest = t from hdest]
          exact hstate
        · rw [← Bool.not_eq_true, Literal.isTrue_iff]
          exact htrue
  · -- no transition was taken, so the automaton has stayed
    have hstay : t = c.state := by
      rcases hmoves.2.2 with ⟨e, he, hpass⟩ | heq
      · rcases hmoves.2.1 e he hpass with htakes | ⟨-, heq⟩
        · exact absurd ⟨e, he, hpass, htakes⟩ htaken
        · exact heq
      · exact heq
    refine ⟨c, ?_, hstay.symm, fun x hx => hx,
      fun e he hpass htakes => absurd ⟨e, he, hpass, htakes⟩ htaken⟩
    unfold Simulator.Moves
    split_ifs with hcond
    · left
      refine ⟨?_, rfl⟩
      cases r with
      | node step => rfl
      | leave step =>
          obtain ⟨goal, hgoal⟩ := List.exists_mem_of_ne_nil _ hcond.2
          obtain ⟨adds', hmem', a, ha, -⟩ := (h.mem_roundTrans states hu hr).mp hgoal
          obtain ⟨s', t', hlog', -⟩ := h.exists_stepLog hu hmem'
          exact (hlog'.site a ha).2.elim
      | edges step =>
          change isInstrumented (query.setting.instruction step.pc) = true
          by_contra hplain
          obtain ⟨e, he, hpass⟩ := hedges step (roundStep_mem hr) hcond.1
            (edgeEntry_of_mem.1 hr) (Bool.not_eq_true _ ▸ hplain)
          rcases hmoves.2.1 e he hpass with htakes | ⟨hmay, -⟩
          · exact htaken ⟨e, he, hpass, htakes⟩
          · exact hplain hmay
    · rfl

variable (states) in
/-- **Every run of the automaton is simulated**, and its events are earned. -/
theorem exists_simRun (h : query.Decodes d decode logs) (c : Candidate) (hu : d.Models u)
    (hfit : query.EntriesFit) (hedges : query.TakesEdges u) {rest : List (List (Addition ν))}
    (hremaining : Remaining query logs rs rest)
    (hlogs : query.coverEncoder.RunLog query.cover.Takes u rs c.state ts rest)
    (hrun : query.coverEncoder.RunBy query.cover.Takes u rs c.state ts) :
    ∃ c', (query.simulator states).SimRun u rs c ts c' ∧
      (∀ x ∈ c.knownSat.toList, x ∈ c'.knownSat.toList) ∧
      ∀ e t, query.coverEncoder.Enters query.cover.Takes u rs c.state ts e t →
        query.setting.isTestGoalState t = true →
        ∃ l ∈ query.goals.literals (toLex (t, e)), l.eval u = true ∧
          ∀ x, (l, x) ∈ (query.tables states).reverseOrMap →
            x = .const true ∨ x ∈ c'.knownSat.toList := by
  induction rs generalizing c ts rest with
  | nil =>
      cases hlogs
      exact ⟨c, Simulator.SimRun.nil c, fun x hx => hx, fun e t henters => henters.elim⟩
  | cons r rs ih =>
      cases hlogs with
      | cons hlog htail =>
          obtain ⟨_, _, heq, hmoves, hrest⟩ := hrun
          cases heq
          obtain ⟨m, hmove, hstate, hkept, hevents⟩ :=
            h.exists_moves hu hfit hedges hremaining.head hlog hmoves
          subst hstate
          obtain ⟨c', hsim, hkept', hevents'⟩ := ih _ hremaining.tail htail hrest
          refine ⟨c', Simulator.SimRun.cons hmove hsim, fun x hx => hkept' x (hkept x hx), ?_⟩
          rintro e t (⟨he, hpass, htakes, rfl⟩ | henters) hgoal
          · obtain ⟨l, hl, htrue, hnames⟩ := hevents e he hpass htakes hgoal
            exact ⟨l, hl, htrue, fun x hx => (hnames x hx).imp_right (hkept' x)⟩
          · exact hevents' e t henters hgoal

end Decodes

/-! ## The ids -/

/-- Entering a state depends on the variables of the clauses. -/
theorem enters_agree (hvw : AgreeBelow query.cnf.noVariables v w)
    (hrs : ∀ r ∈ rs, r ∈ query.rounds)
    (h : query.coverEncoder.Enters query.cover.Takes v rs s ts e t) :
    query.coverEncoder.Enters query.cover.Takes w rs s ts e t := by
  induction rs generalizing s ts with
  | nil => exact h.elim
  | cons r rs ih =>
      cases ts with
      | nil => exact h.elim
      | cons t' ts =>
          rcases h with ⟨he, hpass, htakes, heq⟩ | h
          · left
            refine ⟨he, ?_, htakes, heq⟩
            rwa [← Encoder.passes_agree
              (steps_below query _ (roundStep_mem (hrs r List.mem_cons_self))) hvw]
          · exact Or.inr (ih (fun r hr => hrs r (List.mem_cons_of_mem _ hr)) h)

/-- So does whether every edge is taken. -/
theorem takesEdges_agree (hvw : AgreeBelow query.cnf.noVariables v w) (h : query.TakesEdges v) :
    query.TakesEdges w := by
  intro step hstep hguard hentry hplain
  have hbelow := steps_below query step hstep
  rw [← hbelow.guard.eval_eq hvw] at hguard
  obtain ⟨e, he, hpass⟩ := h step hstep hguard hentry hplain
  exact ⟨e, he, (Encoder.passes_agree (r := .edges step) hbelow hvw e).symm.trans hpass⟩

variable (query states) in
/-- The walk over the cover clause defines literals, and its entries are sound. -/
theorem tables_spec : Defines query.members.cnf (query.tables states).cnf ∧
    query.goals.TablesSound (query.tables states) :=
  have hvisit : VisitedGoals (query.goals.atomVisitor F P) states
      (GoalTables.start query.members.cnf) (query.tables states) :=
    visitGoals_spec _ states (Nat.le_refl _) rfl
  ⟨hvisit.defines,
    (StoredGoals.TablesSound.start query.members.cnf).visitGoals states (Nat.le_refl _) rfl⟩

/-- The id of a candidate is the first row of literals that are known. -/
theorem satisfiedId_iff {sat : TestGoals} {id : Nat} :
    (query.simulator states).satisfiedId sat = .found id ↔
      (combinations ((query.tables states).testGoalGroups.map TestGoals.toList)).findIdx?
        (fun row => row.all ((query.simulator states).closure sat).has) = some id := by
  have hne : (query.tables states).testGoalGroups ≠ [] := by simp [GoalTables.testGoalGroups]
  have hscan := Simulator.idScan_makeIdMap hne ((query.simulator states).closure sat).has
  change (query.simulator states).satisfiedId sat = _ at hscan
  rw [hscan]
  cases (combinations ((query.tables states).testGoalGroups.map TestGoals.toList)).findIdx?
    fun row => row.all ((query.simulator states).closure sat).has <;> simp

/-! The query for the one edge, whose goal is the edge. -/

/-- The cover clause whose goals are the edges into state 2. -/
def edgeStates :
    TestGoalStates (CoveragePattern.atom (EcpAtom.edgecov ()) : CoveragePattern Unit Unit) :=
  .atom [2]

/-- No graph belongs to a node. -/
theorem oneEdge_nodeGraphs {mapTg : Bool} {maps : LocMaps Nat}
    (hmaps : maps.Consistent BuildSetting.oneEdge.lookupIndex) (n : Nat) :
    (BuildSetting.oneEdge.encoder BuildSetting.edgeAutomaton mapTg maps).nodeGraphs n = [] := by
  apply List.eq_nil_iff_forall_not_mem.mpr
  intro g hg
  cases ((BuildSetting.mem_nodeGraphs hmaps).mp hg).2

/-- The automaton takes the edge. -/
theorem oneEdge_takes {mapTg : Bool} {maps : LocMaps Nat}
    (hmaps : maps.Consistent BuildSetting.oneEdge.lookupIndex) :
    BuildSetting.edgeAutomaton.Takes
      ((BuildSetting.oneEdge.encoder BuildSetting.edgeAutomaton mapTg maps).edgeGraphs
        (toLex (0, 1))) 1 2 :=
  ⟨0, (BuildSetting.mem_edgeGraphs hmaps).mpr ⟨⟨1, 2, by decide⟩, by decide⟩, by decide⟩

/-- It moves from the first state to the second. -/
theorem oneEdge_moves {mapTg : Bool} {maps : LocMaps Nat} (v : Assignment)
    (hmaps : maps.Consistent BuildSetting.oneEdge.lookupIndex)
    (hentry : (BuildSetting.oneEdge.encoder BuildSetting.edgeAutomaton mapTg maps).maps.edgeEntry 0 =
      [toLex (0, 1)]) :
    (BuildSetting.oneEdge.encoder BuildSetting.edgeAutomaton mapTg maps).MovesBy
      BuildSetting.edgeAutomaton.Takes v (.edges BuildSetting.edgeStep) 1 2 := by
  have hmem : toLex (0, 1) ∈ (BuildSetting.oneEdge.encoder BuildSetting.edgeAutomaton mapTg
      maps).exits (.edges BuildSetting.edgeStep) := by
    change toLex (0, 1) ∈ (BuildSetting.oneEdge.encoder BuildSetting.edgeAutomaton mapTg
      maps).maps.edgeEntry 0
    simp [hentry]
  refine ⟨rfl, ?_, Or.inl ⟨_, hmem, rfl⟩⟩
  intro e he _
  change e ∈ (BuildSetting.oneEdge.encoder BuildSetting.edgeAutomaton mapTg
    maps).maps.edgeEntry 0 at he
  rw [hentry] at he
  rw [List.mem_singleton.mp he]
  exact Or.inl (oneEdge_takes hmaps)

/-- There is one round. -/
theorem ofEdge_rounds : ofEdge.rounds = [.edges BuildSetting.edgeStep] := by
  have hgraphs : ofEdge.coverEncoder.nodeGraphs 0 = [] :=
    oneEdge_nodeGraphs LocMaps.consistent_empty 0
  change [BuildSetting.edgeStep].flatMap ofEdge.coverEncoder.roundsOf = _
  simp only [List.flatMap_cons, List.flatMap_nil, Encoder.roundsOf]
  rw [show BuildSetting.edgeStep.pc = 0 from rfl, hgraphs]
  rfl

/-- The run is accepted. -/
theorem ofEdge_accepts (v : Assignment) : ofEdge.Accepts v [2] where
  run := by
    rw [ofEdge_rounds]
    exact ⟨2, [], rfl, oneEdge_moves v LocMaps.consistent_empty rfl, rfl⟩
  final := by decide
  passing :=
    ⟨2, by decide, 2, ⟨1, .refl, oneEdge_moves v LocMaps.consistent_empty.collect rfl⟩, rfl⟩

/-- The entries are within the width. -/
theorem ofEdge_fit : ofEdge.EntriesFit := by
  intro step hstep
  rw [List.mem_singleton.mp hstep]
  exact Or.inl (by decide)

/-- The execution takes the edge. -/
theorem ofEdge_takesEdges (v : Assignment) : ofEdge.TakesEdges v := by
  intro step hstep _ _ _
  rw [List.mem_singleton.mp hstep]
  exact ⟨toLex (0, 1), by decide, rfl⟩

/-- The literals are all stored for the edge. -/
theorem ofEdge_literals {l : Literal} {t : TaState} {e : Nat ×ₗ Nat}
    (hl : l ∈ ofEdge.goals.literals (toLex (t, e))) : e = toLex (0, 1) := by
  obtain ⟨decode, logs, h⟩ := exists_decodes (Defines.refl ofEdge.members.cnf)
  obtain ⟨w, -, hw, -⟩ := h.complete (fun _ => true) [2] (empty_models _) (ofEdge_accepts _)
  obtain ⟨a, ha, -, -, hedge⟩ := h.mem_literals.mp hl
  obtain ⟨r, adds, hr, hmem, ha, -⟩ := h.exists_site hw ha
  obtain ⟨s, t, hlog, -⟩ := h.exists_stepLog hw hmem
  have hexit := (hlog.site a ha).1
  rw [ofEdge_rounds] at hr
  rw [List.mem_singleton.mp hr] at hexit
  rw [← hedge]
  exact List.mem_singleton.mp hexit

/-- No literal stands for two nodes. -/
theorem ofEdge_apart : ofEdge.NodeLiteralsApart := by
  intro t n l key hl _
  have hnode := ofEdge_literals hl
  cases hnode

/-- The second state is entered by the edge. -/
theorem ofEdge_entered (v : Assignment) : ofEdge.Entered v [2] (toLex (0, 1)) 2 := by
  unfold Entered
  rw [ofEdge_rounds]
  exact Or.inl ⟨by decide, rfl, oneEdge_takes LocMaps.consistent_empty, rfl⟩

/-- The clauses have a model. -/
theorem exists_model_ofEdge : ∃ w, (ofEdge.tables edgeStates).cnf.Models w := by
  obtain ⟨decode, logs, h⟩ := exists_decodes (tables_spec ofEdge edgeStates).1
  obtain ⟨w, -, hw, -⟩ := h.complete (fun _ => true) [2] (empty_models _) (ofEdge_accepts _)
  exact ⟨w, hw⟩

/-- The edge is the only goal. -/
theorem exists_goals_ofEdge : ∃ gs ∈ ofEdge.goals.patternGoals edgeStates,
    ∀ g ∈ gs, ∀ v, g.Met (ofEdge.Entered v [2]) := by
  obtain ⟨decode, logs, h⟩ := exists_decodes (Defines.refl ofEdge.members.cnf)
  obtain ⟨w, -, hw, hdecode⟩ := h.complete (fun _ => true) [2] (empty_models _) (ofEdge_accepts _)
  obtain ⟨l, hl, -⟩ := h.entered hw (t := 2) rfl (hdecode.symm ▸ ofEdge_entered w)
  have hmet : ∀ key ∈ ofEdge.goals.selected [2], key = toLex (2, toLex (0, 1)) := by
    intro key hkey
    obtain ⟨hstate, hne⟩ := StoredGoals.mem_selected.mp hkey
    obtain ⟨m, hm⟩ := List.exists_mem_of_ne_nil _ hne
    have hedge : (ofLex key).2 = toLex (0, 1) := ofEdge_literals (t := (ofLex key).1) hm
    exact Prod.ext (List.mem_singleton.mp hstate) hedge
  have hselected : toLex (2, toLex (0, 1)) ∈ ofEdge.goals.selected [2] :=
    StoredGoals.mem_selected.mpr ⟨List.mem_singleton_self _, List.ne_nil_of_mem hl⟩
  have hgoal : ⟨false, [toLex (2, toLex (0, 1))]⟩ ∈ ofEdge.goals.atomGoals [2] false := by
    unfold StoredGoals.atomGoals
    cases hkeys : ofEdge.goals.selected [2] with
    | nil =>
        rw [hkeys] at hselected
        cases hselected
    | cons key rest =>
        rw [hmet key (by rw [hkeys]; exact List.mem_cons_self)]
        exact List.mem_cons_self
  refine ⟨_, List.mem_map_of_mem hgoal, ?_⟩
  intro g hg v
  rw [List.mem_singleton.mp hg]
  exact Or.inr ⟨_, List.mem_singleton_self _, ofEdge_entered v⟩

/-- **Every id is earned.**  The goal of an id that `get_satisfied_test_goals` returns is
satisfied by a model of all clauses with the same execution. -/
theorem getSatisfiedTestGoals_sound {result : QueryGoals}
    (hresult : visitQuery (query.goals.atomVisitor F P) states = some result)
    (hw : result.tables.cnf.Models w) (hfit : query.EntriesFit)
    (hapart : query.NodeLiteralsApart) {id : Nat}
    (hid : id ∈ (query.simulator states).getSatisfiedTestGoals w) :
    ∃ row, result.idMap[id]? = some row ∧
      ∃ u, AgreeBelow query.cnf.noVariables w u ∧ result.tables.cnf.Models u ∧
        row.all (Literal.eval u) = true := by
  rw [StoredGoals.visitQuery_eq] at hresult
  cases hresult
  change (query.tables states).cnf.Models w at hw
  obtain ⟨hdefines, htables⟩ := tables_spec query states
  obtain ⟨decode, logs, h⟩ := exists_decodes hdefines
  obtain ⟨c, hc, hfinal, hscan⟩ := Simulator.mem_getSatisfiedTestGoals.mp hid
  obtain ⟨ts, hrun⟩ := (h.mem_candidates hw).mp hc
  have hrounds : ∀ r ∈ query.rounds, r ∈ query.rounds := fun _ hr => hr
  obtain ⟨hmoves, hlast⟩ := h.runBy hw hfit hrounds hrun
  have haccepts : query.Accepts w ts := by
    refine ⟨hmoves, ?_, (h.sound w hw).2.passing⟩
    change ts.getLastD query.coverStart = c.state at hlast
    rw [hlast]
    exact (TraceAutomaton.isFinal_iff _).mp hfinal
  obtain ⟨u, hwu, hu, rfl⟩ := h.complete w ts (h.sound w hw).1 haccepts
  have hearned : ∀ l ∈ c.knownSat.toList, l.eval u = true :=
    h.run_earned_true hu hapart htables (fun _ hv => hv) (Decodes.Remaining.refl query logs)
      (h.runLog u hu) (h.simRun_agree hw hu hwu hrounds hrun) (by simp)
  obtain ⟨hlt, hknown, -⟩ := List.findIdx?_eq_some_iff_getElem.mp (satisfiedId_iff.mp hscan)
  refine ⟨_, List.getElem?_eq_getElem hlt, u, hwu, hu, ?_⟩
  rw [List.all_eq_true] at hknown ⊢
  intro l hl
  apply Simulator.closure_true hearned _ (hknown l hl)
  exact fun a sg b hentry => htables.andMap a sg b hentry u hu

theorem getSatisfiedTestGoals_sound_ofEdge :
    ∃ result w, visitQuery (ofEdge.goals.atomVisitor Unit Unit) edgeStates = some result ∧
      result.tables.cnf.Models w ∧
      ∀ id ∈ (ofEdge.simulator edgeStates).getSatisfiedTestGoals w,
        ∃ row, result.idMap[id]? = some row ∧
          ∃ u, AgreeBelow ofEdge.cnf.noVariables w u ∧ result.tables.cnf.Models u ∧
            row.all (Literal.eval u) = true := by
  obtain ⟨w, hw⟩ := exists_model_ofEdge
  have hresult := StoredGoals.visitQuery_eq (ofEdge.goals.atomVisitor Unit Unit) edgeStates
  exact ⟨_, w, hresult, hw, fun id hid =>
    getSatisfiedTestGoals_sound hresult hw ofEdge_fit ofEdge_apart hid⟩

/-- **Runs that meet goals are credited.**  For an accepted run of the execution that meets the
goals `gs` an id is returned, at the latest one that stands for `gs`. -/
theorem getSatisfiedTestGoals_complete {result : QueryGoals}
    (hresult : visitQuery (query.goals.atomVisitor F P) states = some result)
    (hw : result.tables.cnf.Models w) (hfit : query.EntriesFit) (hedges : query.TakesEdges w)
    (haccepts : query.Accepts w ts) {gs : List (AtomGoal ν)}
    (hgs : gs ∈ query.goals.patternGoals states) (hmet : ∀ g ∈ gs, g.Met (query.Entered w ts)) :
    ∃ id ∈ (query.simulator states).getSatisfiedTestGoals w, ∃ k row,
      result.idMap[k]? = some row ∧ id ≤ k ∧ ∀ v, result.tables.cnf.Models v →
        row.all (Literal.eval v) = gs.all fun g => query.goals.holds g v := by
  rw [StoredGoals.visitQuery_eq] at hresult
  cases hresult
  change (query.tables states).cnf.Models w at hw
  obtain ⟨hdefines, htables⟩ := tables_spec query states
  obtain ⟨decode, logs, h⟩ := exists_decodes hdefines
  have hrounds : ∀ r ∈ query.rounds, r ∈ query.rounds := fun _ hr => hr
  obtain ⟨u, hwu, hu, rfl⟩ := h.complete w ts (h.sound w hw).1 haccepts
  obtain ⟨c, hrun, -, hevents⟩ := h.exists_simRun states ⟨query.coverStart, TestGoals.empty⟩ hu
    hfit (takesEdges_agree hwu hedges) (Decodes.Remaining.refl query logs) (h.runLog u hu)
    (h.sound u hu).2.run
  have hcandidate : c ∈ (query.simulator states).candidates w :=
    (h.mem_candidates hw).mpr ⟨_, h.simRun_agree hu hw hwu.symm hrounds hrun⟩
  have hfinal : (query.simulator states).isFinal c.state = true := by
    have hlast := (h.runBy hu hfit hrounds hrun).2
    rw [← hlast]
    exact (TraceAutomaton.isFinal_iff _).mpr haccepts.final
  have hknows : query.goals.Knows (query.tables states).cnf (query.tables states).reverseOrMap
      (query.tables states).reverseAndMap (query.Entered w (decode u))
      fun l => ((query.simulator states).closure c.knownSat).has l = true := by
    refine ⟨rfl, Bool.false_ne_true, ?_, ?_, htables.andMap⟩
    · intro e t hentered hne
      obtain ⟨l, hl⟩ := List.exists_mem_of_ne_nil _ hne
      obtain ⟨l, hl, htrue, hnames⟩ := hevents e t (enters_agree hwu hrounds hentered) (stored hl).2
      refine ⟨l, hl, fun x hx => ?_⟩
      obtain ⟨g, hlg, heval⟩ := htables.orMap l x hx
      rcases hnames x hx with rfl | hx
      · rfl
      · -- the name of a goal that is true is not the constant `false`
        have hholds : x.eval u = true := by
          rw [heval u hu]
          exact List.any_eq_true.mpr ⟨l, hlg, htrue⟩
        exact Simulator.closure_has hx hholds
    · exact fun a sg b hentry hconst ha hb => Simulator.closure_land hentry hconst ha hb
  have hrow : StoredGoals.HasRow (query.tables states).cnf
      (fun l => ((query.simulator states).closure c.knownSat).has l = true)
      (GoalTables.start query.members.cnf) (query.tables states)
      fun v => gs.all fun g => query.goals.holds g v :=
    hknows.visitGoals states (Nat.le_refl _) rfl ⟨List.Subset.refl _, List.Subset.refl _⟩
      (fun _ hv => hv) hgs hmet
  obtain ⟨opened, hclosed, row, hrow, hknown, heval⟩ := hrow
  have hgroups : (query.tables states).testGoalGroups =
      opened ++ [(query.tables states).testGoals] :=
    congrArg (· ++ [(query.tables states).testGoals]) hclosed
  change row ∈ combinations ((opened ++ [(query.tables states).testGoals]).map _) at hrow
  rw [← hgroups] at hrow
  obtain ⟨k, hk⟩ := List.mem_iff_getElem?.mp hrow
  obtain ⟨hlt, hget⟩ := List.getElem?_eq_some_iff.mp hk
  have hall : row.all ((query.simulator states).closure c.knownSat).has = true :=
    List.all_eq_true.mpr hknown
  cases hfind : (combinations ((query.tables states).testGoalGroups.map TestGoals.toList)).findIdx?
      (fun row => row.all ((query.simulator states).closure c.knownSat).has) with
  | none =>
      rw [List.findIdx?_eq_none_iff.mp hfind row hrow] at hall
      cases hall
  | some id =>
      refine ⟨id, Simulator.mem_getSatisfiedTestGoals.mpr
        ⟨c, hcandidate, hfinal, satisfiedId_iff.mpr hfind⟩, k, row, hk, ?_, heval⟩
      obtain ⟨_, _, hfirst⟩ := List.findIdx?_eq_some_iff_getElem.mp hfind
      by_contra hlater
      have hnot := hfirst k (by omega)
      rw [hget] at hnot
      exact hnot hall

theorem getSatisfiedTestGoals_complete_ofEdge :
    ∃ result w, ∃ gs ∈ ofEdge.goals.patternGoals edgeStates,
      visitQuery (ofEdge.goals.atomVisitor Unit Unit) edgeStates = some result ∧
      ∃ id ∈ (ofEdge.simulator edgeStates).getSatisfiedTestGoals w, ∃ k row,
        result.idMap[k]? = some row ∧ id ≤ k ∧ ∀ v, result.tables.cnf.Models v →
          row.all (Literal.eval v) = gs.all fun g => ofEdge.goals.holds g v := by
  obtain ⟨w, hw⟩ := exists_model_ofEdge
  obtain ⟨gs, hgs, hmet⟩ := exists_goals_ofEdge
  have hresult := StoredGoals.visitQuery_eq (ofEdge.goals.atomVisitor Unit Unit) edgeStates
  exact ⟨_, w, gs, hgs, hresult, getSatisfiedTestGoals_complete hresult hw ofEdge_fit
    (ofEdge_takesEdges w) (ofEdge_accepts w) hgs fun g hg => hmet g hg w⟩

end EncodedQuery

end FShell
