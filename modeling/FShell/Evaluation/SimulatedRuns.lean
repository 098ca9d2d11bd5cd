import FShell.Evaluation.TestGoalSimulation

/-!
# What the simulation finds in the records

The simulation takes the transitions of a step from what `build` has written down in
the rounds of the step (`EncodedQuery.Decodes.mem_roundTrans`).  The transitions at a
node come from all of its rounds, and those of an edge from one, because steps have
different numbers.  So the loop over the steps goes through the rounds of the encoding
(`EncodedQuery.Decodes.mem_candidates`).
-/

namespace FShell

open Cnf

namespace Encoder

variable {ν : Type} [LinearOrder ν] {env : Encoder ν} {r₀ : Recorded ν}
  {adds : List (Addition ν)} {n m : Nat} {g : EdgeGoal}

/-! ## What was written down -/

variable (env) in
/-- The transition that is written down for an addition. -/
def edgeGoal (a : Addition ν) : EdgeGoal :=
  ⟨a.site.guard, a.tg, env.reverseNumber a.src, env.reverseNumber a.dest⟩

theorem add_stepToTrans (a : Addition ν) :
    (env.add r₀ a).stepToTrans =
      if a.site.rounds = none then r₀.stepToTrans ++ [(a.site.step, env.edgeGoal a)]
      else r₀.stepToTrans := by
  unfold add edgeGoal
  cases htg : a.tg <;> cases hrounds : a.site.rounds <;>
    simp [Recorded.insertTrans, Recorded.insertGoal, hrounds]

theorem add_nodeStepToTrans (a : Addition ν) :
    (env.add r₀ a).nodeStepToTrans =
      if a.site.rounds = none then r₀.nodeStepToTrans
      else r₀.nodeStepToTrans ++ [(a.site.step, env.edgeGoal a)] := by
  unfold add edgeGoal
  cases htg : a.tg <;> cases hrounds : a.site.rounds <;>
    simp [Recorded.insertTrans, Recorded.insertGoal, hrounds]

theorem add_nodeRepMap (a : Addition ν) :
    (env.add r₀ a).nodeRepMap =
      match a.site.rounds with
      | none => r₀.nodeRepMap
      | some rounds =>
          if r₀.nodeRepMap.any (·.1 = a.site.step) then r₀.nodeRepMap
          else r₀.nodeRepMap ++ [(a.site.step, rounds)] := by
  unfold add Recorded.insertTrans
  cases a.tg <;> cases a.site.rounds <;> rfl

theorem mem_stepToTrans :
    (n, g) ∈ (adds.foldl env.add r₀).stepToTrans ↔
      (∃ a ∈ adds, a.site.rounds = none ∧ a.site.step = n ∧ env.edgeGoal a = g) ∨
        (n, g) ∈ r₀.stepToTrans := by
  induction adds generalizing r₀ with
  | nil => simp
  | cons a adds ih =>
      rw [List.foldl_cons, ih, add_stepToTrans, List.exists_mem_cons_iff]
      split_ifs with hrounds
      · simp only [List.mem_append, List.mem_singleton, Prod.mk.injEq]
        grind
      · grind

theorem mem_nodeStepToTrans :
    (n, g) ∈ (adds.foldl env.add r₀).nodeStepToTrans ↔
      (∃ a ∈ adds, a.site.rounds ≠ none ∧ a.site.step = n ∧ env.edgeGoal a = g) ∨
        (n, g) ∈ r₀.nodeStepToTrans := by
  induction adds generalizing r₀ with
  | nil => simp
  | cons a adds ih =>
      rw [List.foldl_cons, ih, add_nodeStepToTrans, List.exists_mem_cons_iff]
      split_ifs with hrounds
      · grind
      · simp only [List.mem_append, List.mem_singleton, Prod.mk.injEq]
        grind

/-- The number of rounds of a node step comes from one of its additions. -/
theorem mem_nodeRepMap (h : (n, m) ∈ (adds.foldl env.add r₀).nodeRepMap) :
    (∃ a ∈ adds, a.site.rounds = some m ∧ a.site.step = n) ∨ (n, m) ∈ r₀.nodeRepMap := by
  induction adds generalizing r₀ with
  | nil => exact Or.inr h
  | cons a adds ih =>
      rcases ih h with ⟨b, hb, hspec⟩ | hold
      · exact Or.inl ⟨b, List.mem_cons_of_mem _ hb, hspec⟩
      · rw [add_nodeRepMap] at hold
        split at hold
        · exact Or.inr hold
        · rename_i rounds hrounds
          split_ifs at hold
          · exact Or.inr hold
          · rcases List.mem_append.mp hold with hold | hnew
            · exact Or.inr hold
            · cases List.mem_singleton.mp hnew
              exact Or.inl ⟨a, List.mem_cons_self, hrounds, rfl⟩

/-- Every node step with an addition has its number of rounds. -/
theorem exists_nodeRepMap
    (h : (∃ a ∈ adds, a.site.rounds ≠ none ∧ a.site.step = n) ∨ ∃ m, (n, m) ∈ r₀.nodeRepMap) :
    ∃ m, (n, m) ∈ (adds.foldl env.add r₀).nodeRepMap := by
  induction adds generalizing r₀ with
  | nil =>
      obtain ⟨a, ha, -⟩ | hold := h
      · cases ha
      · exact hold
  | cons a adds ih =>
      rw [List.foldl_cons]
      apply ih
      rcases h with ⟨b, hb, hrounds, hstep⟩ | ⟨m, hold⟩
      · rcases List.mem_cons.mp hb with rfl | hb
        · obtain ⟨rounds, hsome⟩ := Option.ne_none_iff_exists'.mp hrounds
          right
          rw [add_nodeRepMap, hsome]
          dsimp only
          split_ifs with hany
          · obtain ⟨p, hp, heq⟩ := List.any_eq_true.mp hany
            exact ⟨p.2, by rwa [← hstep, ← of_decide_eq_true heq]⟩
          · exact ⟨rounds, by simp [hstep]⟩
        · exact Or.inl ⟨b, hb, hrounds, hstep⟩
      · right
        rw [add_nodeRepMap]
        split
        · exact ⟨m, hold⟩
        · split_ifs
          · exact ⟨m, hold⟩
          · exact ⟨m, List.mem_append_left _ hold⟩

/-! ## Rounds and their logs -/

variable {takes : List Int → TaState → TaState → Prop} {v : Assignment} {rs : List (Round ν)}
  {s : TaState} {ts : List TaState} {logs : List (List (Addition ν))} {r : Round ν}

theorem RunLog.exists_log (h : env.RunLog takes v rs s ts logs) (hr : r ∈ rs) :
    ∃ adds, (r, adds) ∈ rs.zip logs := by
  induction h with
  | nil s => cases hr
  | cons head _ ih =>
      rcases List.mem_cons.mp hr with rfl | hr
      · exact ⟨_, List.mem_cons_self⟩
      · obtain ⟨adds, hadds⟩ := ih hr
        exact ⟨adds, List.mem_cons_of_mem _ hadds⟩

theorem RunLog.exists_round (h : env.RunLog takes v rs s ts logs) {a : Addition ν}
    (ha : a ∈ logs.flatten) : ∃ r adds, (r, adds) ∈ rs.zip logs ∧ a ∈ adds := by
  induction h with
  | nil s => cases ha
  | cons head _ ih =>
      rw [List.flatten_cons] at ha
      rcases List.mem_append.mp ha with ha | ha
      · exact ⟨_, _, List.mem_cons_self, ha⟩
      · obtain ⟨r, adds, hmem, ha⟩ := ih ha
        exact ⟨r, adds, List.mem_cons_of_mem _ hmem, ha⟩

/-- What a run does in a round, with the log of the round. -/
theorem RunLog.stepLog (h : env.RunLog takes v rs s ts logs) (hrun : env.RunBy takes v rs s ts)
    (hmem : (r, adds) ∈ rs.zip logs) :
    ∃ a b, env.StepLog takes v r a b adds ∧ env.MovesBy takes v r a b := by
  induction h with
  | nil s => cases hmem
  | @cons r' rs s t ts adds' logs head _ ih =>
      obtain ⟨t', ts', heq, hmove, hrest⟩ := hrun
      cases heq
      rcases List.mem_cons.mp hmem with heq | hmem
      · cases heq
        exact ⟨s, t, head, hmove⟩
      · exact ih hrest hmem

/-- An element that is in a list once has one partner. -/
theorem eq_of_mem_zip {α β : Type} {xs : List α} {ys : List β} {P : α → Prop} {x : α} {y y' : β}
    (hxs : xs.Pairwise fun a b => P a → a ≠ b) (hx : P x) (h : (x, y) ∈ xs.zip ys)
    (h' : (x, y') ∈ xs.zip ys) : y = y' := by
  induction xs generalizing ys with
  | nil => cases h
  | cons a xs ih =>
      cases ys with
      | nil => cases h
      | cons b ys =>
          obtain ⟨hhead, htail⟩ := List.pairwise_cons.mp hxs
          rw [List.zip_cons_cons] at h h'
          rcases List.mem_cons.mp h with heq | hrest <;>
            rcases List.mem_cons.mp h' with heq' | hrest'
          · exact (Prod.mk.inj heq).2.trans (Prod.mk.inj heq').2.symm
          · obtain ⟨rfl, -⟩ := Prod.mk.inj heq
            exact absurd rfl (hhead _ (List.of_mem_zip hrest').1 hx)
          · obtain ⟨rfl, -⟩ := Prod.mk.inj heq'
            exact absurd rfl (hhead _ (List.of_mem_zip hrest).1 hx)
          · exact ih htail hrest hrest'

end Encoder

/-! ## The simulation of a query -/

namespace EncodedQuery

variable {ν : Type} [LinearOrder ν] (query : EncodedQuery ν) {F P : Type}
  {cp : CoveragePattern F P} (states : TestGoalStates cp)

/-- The tables after the walk over the cover clause. -/
def tables : GoalTables :=
  visitGoals (query.goals.atomVisitor F P) states (GoalTables.start query.members.cnf)

/-- The members as `get_satisfied_test_goals` finds them. -/
def simulator : Simulator ν where
  instruction := query.setting.instruction
  isTestGoalState := query.setting.isTestGoalState
  isFinal := query.cover.isFinal
  start := query.coverStart
  equation := query.equation
  stepToTrans := query.members.recorded.stepToTrans
  nodeStepToTrans := query.members.recorded.nodeStepToTrans
  nodeRepMap := query.members.recorded.nodeRepMap
  reverseOrMap := (query.tables states).reverseOrMap
  conjunctions := ConjunctionTable.ofVisit (query.goals.atomVisitor F P) states query.members.cnf
  idMap := (makeIdMap (query.tables states).testGoalGroups).getD []
  skips := makeSkips (query.tables states).testGoalGroups

variable {query states} {d : Cnf} {decode : Assignment → List TaState}
  {logs : List (List (Addition ν))} {w u : Assignment} {r : Round ν} {goal : EdgeGoal}
  {adds : List (Addition ν)}

theorem mem_rounds : r ∈ query.rounds ↔ ∃ step ∈ query.steps, r ∈ query.coverEncoder.roundsOf step :=
  List.mem_flatMap

theorem roundStep_mem (hr : r ∈ query.rounds) : Encoder.roundStep r ∈ query.steps := by
  obtain ⟨step, hstep, hr⟩ := mem_rounds.mp hr
  rwa [Encoder.roundStep_of_mem hr]

/-- Steps have different numbers. -/
theorem eq_of_number {step step' : StepView ν} (hstep : step ∈ query.steps)
    (hstep' : step' ∈ query.steps) (h : step.number = step'.number) : step = step' := by
  have hnodup : (query.steps.map StepView.number).Nodup := by
    rw [List.Nodup, List.pairwise_map]
    exact (Simulator.stepViews_numbers query.steps_eq).2.imp fun hlt => Nat.ne_of_lt hlt
  exact List.inj_on_of_nodup_map hnodup hstep hstep' h

/-- The last round of a step says whether its location has an entry. -/
theorem edgeEntry_of_mem {step : StepView ν} :
    (.edges step ∈ query.rounds → query.coverEncoder.maps.edgeEntry step.pc ≠ []) ∧
      (.leave step ∈ query.rounds → query.coverEncoder.maps.edgeEntry step.pc = []) := by
  constructor <;> intro hr <;> obtain ⟨step', -, hr⟩ := mem_rounds.mp hr <;>
    rcases List.mem_append.mp hr with hr | hr
  · cases (List.mem_replicate.mp hr).2
  · have heq := List.mem_singleton.mp hr
    split_ifs at heq with hentry
    cases heq
    exact hentry
  · cases (List.mem_replicate.mp hr).2
  · have heq := List.mem_singleton.mp hr
    split_ifs at heq with hentry
    cases heq
    exact hentry

/-- The edges of a step are gone through once. -/
theorem rounds_once : query.rounds.Pairwise fun r r' => (∃ step, r = .edges step) → r ≠ r' := by
  apply List.pairwise_flatMap.mpr
  constructor
  · intro step _
    apply List.pairwise_append.mpr
    refine ⟨?_, List.pairwise_singleton _ _, ?_⟩
    · apply List.pairwise_replicate.mpr
      right
      rintro ⟨step', heq⟩
      cases heq
    · intro r hr r' _
      rw [(List.mem_replicate.mp hr).2]
      rintro ⟨step', heq⟩
      cases heq
  · refine (Simulator.stepViews_numbers query.steps_eq).2.imp ?_
    intro step step' hlt r hr r' hr' _ heq
    have hsame : step = step' := by
      rw [← Encoder.roundStep_of_mem hr, ← Encoder.roundStep_of_mem hr', heq]
    rw [hsame] at hlt
    exact Nat.lt_irrefl _ hlt

namespace Decodes

/-- The logs of the rounds, in a model. -/
theorem exists_stepLog (h : query.Decodes d decode logs) (hw : d.Models w)
    (hmem : (r, adds) ∈ query.rounds.zip logs) :
    ∃ s t, query.coverEncoder.StepLog query.cover.Takes w r s t adds ∧
      query.coverEncoder.MovesBy query.cover.Takes w r s t :=
  (h.runLog w hw).stepLog (h.sound w hw).2.run hmem

/-- Where an addition was made. -/
theorem exists_site (h : query.Decodes d decode logs) (hw : d.Models w) {a : Addition ν}
    (ha : a ∈ logs.flatten) : ∃ r adds, r ∈ query.rounds ∧ (r, adds) ∈ query.rounds.zip logs ∧
      a ∈ adds ∧ query.coverEncoder.SiteOf r a.site := by
  obtain ⟨r, adds, hmem, ha⟩ := (h.runLog w hw).exists_round ha
  obtain ⟨s, t, hlog, -⟩ := h.exists_stepLog hw hmem
  exact ⟨r, adds, (List.of_mem_zip hmem).1, hmem, ha, (hlog.site a ha).2⟩

theorem mem_edgeTrans (h : query.Decodes d decode logs) {n : Nat} :
    goal ∈ (query.simulator states).edgeTrans n ↔ ∃ a ∈ logs.flatten, a.site.rounds = none ∧
      a.site.step = n ∧ query.coverEncoder.edgeGoal a = goal := by
  have hmem : goal ∈ (query.simulator states).edgeTrans n ↔
      (n, goal) ∈ query.members.recorded.stepToTrans := by
    simp [Simulator.edgeTrans, simulator]
  rw [hmem, h.recorded, Encoder.mem_stepToTrans]
  simp [BuildSetting.emptyMembers]

theorem mem_nodeTrans (h : query.Decodes d decode logs) {n : Nat} :
    goal ∈ (query.simulator states).nodeTrans n ↔ ∃ a ∈ logs.flatten, a.site.rounds ≠ none ∧
      a.site.step = n ∧ query.coverEncoder.edgeGoal a = goal := by
  have hmem : goal ∈ (query.simulator states).nodeTrans n ↔
      (n, goal) ∈ query.members.recorded.nodeStepToTrans := by
    simp [Simulator.nodeTrans, simulator]
  rw [hmem, h.recorded, Encoder.mem_nodeStepToTrans]
  simp [BuildSetting.emptyMembers]

variable (states) in
/-- **The transitions of a round** are those that were written down in a round like it. -/
theorem mem_roundTrans (h : query.Decodes d decode logs) (hw : d.Models w)
    (hr : r ∈ query.rounds) :
    goal ∈ (query.simulator states).roundTrans r ↔
      ∃ adds, (r, adds) ∈ query.rounds.zip logs ∧ ∃ a ∈ adds, query.coverEncoder.edgeGoal a = goal := by
  constructor
  · intro hgoal
    have hstep := roundStep_mem hr
    cases r with
    | node step =>
        obtain ⟨a, ha, hrounds, hnumber, rfl⟩ := h.mem_nodeTrans.mp hgoal
        obtain ⟨r', adds, hr', hmem, ha, hsite⟩ := h.exists_site hw ha
        cases r' with
        | node step' =>
            cases eq_of_number hstep (roundStep_mem hr') (hnumber.symm.trans hsite.1)
            exact ⟨adds, hmem, a, ha, rfl⟩
        | edges step' => exact absurd hsite.2 hrounds
        | leave step' => exact hsite.elim
    | edges step =>
        obtain ⟨a, ha, hrounds, hnumber, rfl⟩ := h.mem_edgeTrans.mp hgoal
        obtain ⟨r', adds, hr', hmem, ha, hsite⟩ := h.exists_site hw ha
        cases r' with
        | node step' => simp [hsite.2] at hrounds
        | edges step' =>
            cases eq_of_number hstep (roundStep_mem hr') (hnumber.symm.trans hsite.1)
            exact ⟨adds, hmem, a, ha, rfl⟩
        | leave step' => exact hsite.elim
    | leave step =>
        -- an addition at the step would mean that its location has an entry
        obtain ⟨a, ha, hrounds, hnumber, rfl⟩ := h.mem_edgeTrans.mp hgoal
        obtain ⟨r', adds, hr', hmem, ha, hsite⟩ := h.exists_site hw ha
        cases r' with
        | node step' => simp [hsite.2] at hrounds
        | edges step' =>
            cases eq_of_number hstep (roundStep_mem hr') (hnumber.symm.trans hsite.1)
            exact absurd (edgeEntry_of_mem.2 hr) (edgeEntry_of_mem.1 hr')
        | leave step' => exact hsite.elim
  · rintro ⟨adds, hmem, a, ha, rfl⟩
    obtain ⟨s, t, hlog, -⟩ := h.exists_stepLog hw hmem
    have hsite := (hlog.site a ha).2
    have hflat : a ∈ logs.flatten := List.mem_flatten.mpr ⟨adds, (List.of_mem_zip hmem).2, ha⟩
    cases r with
    | node step => exact h.mem_nodeTrans.mpr ⟨a, hflat, by simp [hsite.2], hsite.1, rfl⟩
    | edges step => exact h.mem_edgeTrans.mpr ⟨a, hflat, hsite.2, hsite.1, rfl⟩
    | leave step => exact hsite.elim

/-- The records fit the steps of the encoding. -/
theorem recordsOf (h : query.Decodes d decode logs) (hw : d.Models w) :
    (query.simulator states).RecordsOf query.coverEncoder 0 query.steps where
  steps := by
    intro n _ hrecorded
    obtain ⟨a, ha, hnumber⟩ : ∃ a ∈ logs.flatten, a.site.step = n := by
      rcases hrecorded with hne | hne
      · obtain ⟨goal, hgoal⟩ := List.exists_mem_of_ne_nil _ hne
        obtain ⟨a, ha, -, hnumber, -⟩ := h.mem_nodeTrans.mp hgoal
        exact ⟨a, ha, hnumber⟩
      · obtain ⟨goal, hgoal⟩ := List.exists_mem_of_ne_nil _ hne
        obtain ⟨a, ha, -, hnumber, -⟩ := h.mem_edgeTrans.mp hgoal
        exact ⟨a, ha, hnumber⟩
    obtain ⟨r, adds, hr, -, -, hsite⟩ := h.exists_site hw ha
    refine ⟨_, roundStep_mem hr, ?_⟩
    rw [← hnumber]
    cases r with
    | node step => exact hsite.1.symm
    | edges step => exact hsite.1.symm
    | leave step => exact hsite.elim
  rounds := by
    intro step hstep hne
    obtain ⟨goal, hgoal⟩ := List.exists_mem_of_ne_nil _ hne
    obtain ⟨a, ha, hrounds, hnumber, -⟩ := h.mem_nodeTrans.mp hgoal
    have hrecorded : query.members.recorded.nodeRepMap =
        (logs.flatten.foldl query.coverEncoder.add
          (BuildSetting.emptyMembers query.cnf : BuildMembers ν).recorded).nodeRepMap := by
      rw [h.recorded]
    obtain ⟨m, hm⟩ : ∃ m, (step.number, m) ∈ query.members.recorded.nodeRepMap := by
      rw [hrecorded]
      exact Encoder.exists_nodeRepMap (Or.inl ⟨a, ha, hrounds, hnumber⟩)
    cases hlookup : query.members.recorded.nodeRepMap.lookup step.number with
    | none =>
        have hnone := List.lookup_eq_none_iff.mp hlookup _ hm
        simp at hnone
    | some m' =>
        obtain ⟨before, after, hsplit, -⟩ := List.lookup_eq_some_iff.mp hlookup
        have hm' : (step.number, m') ∈ query.members.recorded.nodeRepMap := by simp [hsplit]
        rw [hrecorded] at hm'
        rcases Encoder.mem_nodeRepMap hm' with ⟨b, hb, hsome, hnumber'⟩ | hold
        · obtain ⟨r, adds, hr, -, -, hsite⟩ := h.exists_site hw hb
          cases r with
          | node step' =>
              cases eq_of_number hstep (roundStep_mem hr) (hnumber'.symm.trans hsite.1)
              exact hlookup.trans (hsome.symm.trans hsite.2)
          | edges step' => simp [hsite.2] at hsome
          | leave step' => exact hsite.elim
        · cases hold

/-- **The candidates are the ends of the simulated runs along the rounds of the encoding.** -/
theorem mem_candidates (h : query.Decodes d decode logs) (hw : d.Models w) {c : Candidate} :
    c ∈ (query.simulator states).candidates w ↔
      ∃ ts, (query.simulator states).SimRun w query.rounds ⟨query.coverStart, TestGoals.empty⟩ ts
        c := by
  have hcandidates : (query.simulator states).candidates w =
      query.rounds.foldl ((query.simulator states).simRound w)
        [⟨query.coverStart, TestGoals.empty⟩] :=
    Simulator.simulateSteps_eq query.steps_eq (h.recordsOf hw)
  rw [hcandidates, Simulator.mem_simRounds]
  simp

end Decodes

end EncodedQuery

end FShell
