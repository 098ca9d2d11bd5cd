import FShell.Evaluation.EncodedRuns

/-!
# What the goal literals say

`build` is called for the coverage automaton and then for the passing automaton,
on the same clauses and with the same maps; `buildBoth_models_iff` says which
executions are left.  A model of the clauses of one call denotes a run of its
automaton, and every accepted run is denoted by one (`encode_decodes`).

**Goal literals.**  A literal of `m_tg_to_lit_map` for a goal state and an edge is
true in a model only if the run is in that state right after the edge was taken;
and if the run enters the state on the edge, then some literal of the two is true.
-/

namespace FShell

open Cnf

namespace Encoder

variable {ν : Type} [LinearOrder ν] {env : Encoder ν} {σ τ : Type}
  {takes : List Int → σ → σ → Prop} {takes' : List Int → τ → τ → Prop} {f : σ → τ}
  {live : σ → Prop} {v w : Assignment} {rs : List (Round ν)} {s : σ} {ts : List σ}

/-- The states of a run stay among the numbered ones. -/
theorem Numbering.runBy_closed (h : Numbering takes takes' f live) (hs : live s)
    (hrun : env.RunBy takes v rs s ts) : ∀ t ∈ ts, live t := by
  induction rs generalizing s ts with
  | nil => simp [show ts = [] from hrun]
  | cons r rs ih =>
      obtain ⟨t, ts', rfl, hmove, hrest⟩ := hrun
      have ht := h.movesBy_closed hs hmove
      intro t' ht'
      rcases List.mem_cons.mp ht' with rfl | ht'
      · exact ht
      · exact ih ht hrest t' ht'

theorem Numbering.runBy_iff (h : Numbering takes takes' f live) (hs : live s) {us : List τ} :
    env.RunBy takes' v rs (f s) us ↔ ∃ ts, us = ts.map f ∧ env.RunBy takes v rs s ts := by
  induction rs generalizing s us with
  | nil =>
      simp only [RunBy]
      constructor
      · rintro rfl
        exact ⟨[], rfl, rfl⟩
      · rintro ⟨ts, rfl, rfl⟩
        rfl
  | cons r rs ih =>
      simp only [RunBy, h.movesBy_iff hs]
      constructor
      · rintro ⟨_, us', rfl, ⟨t, rfl, hmove⟩, hnumbers⟩
        obtain ⟨ts, rfl, hrest⟩ := (ih (h.movesBy_closed hs hmove)).mp hnumbers
        exact ⟨t :: ts, rfl, t, ts, rfl, hmove, hrest⟩
      · rintro ⟨_, rfl, t, ts, rfl, hmove, hrest⟩
        exact ⟨f t, ts.map f, rfl, ⟨t, rfl, hmove⟩,
          (ih (h.movesBy_closed hs hmove)).mpr ⟨ts, rfl, hrest⟩⟩

/-! ## Events of a run -/

variable (env) in
/-- After some round on whose edge `e` the execution passes the run is in `t`. -/
def Visits (v : Assignment) : List (Round ν) → List σ → ν ×ₗ ν → σ → Prop
  | r :: rs, t' :: ts, e, t =>
      (e ∈ env.exits r ∧ env.passes v r e = true ∧ t' = t) ∨ Visits v rs ts e t
  | _, _, _, _ => False

variable (env takes) in
/-- In some round on whose edge `e` the execution passes the run moves into `t` by one of the
target graphs. -/
def Enters (v : Assignment) : List (Round ν) → σ → List σ → ν ×ₗ ν → σ → Prop
  | r :: rs, s, t' :: ts, e, t =>
      (e ∈ env.exits r ∧ env.passes v r e = true ∧ takes (env.graphs r e) s t' ∧ t' = t) ∨
        Enters v rs t' ts e t
  | _, _, _, _, _ => False

/-! ## The literals that are written down -/

variable {r₀ : Recorded ν} {adds : List (Addition ν)} {state : TaState} {e : ν ×ₗ ν} {l : Literal}

@[simp] theorem insertTrans_tgToLitMap (r : Recorded ν) (site : Site ν) (goal : EdgeGoal) :
    (r.insertTrans site goal).tgToLitMap = r.tgToLitMap := by
  unfold Recorded.insertTrans
  split <;> rfl

theorem mem_add_tgToLitMap {a : Addition ν} :
    l ∈ (env.add r₀ a).tgToLitMap.get (toLex (state, e)) ↔
      (a.tg = some l ∧ env.reverseNumber a.dest = state ∧ a.site.edge = e) ∨
        l ∈ r₀.tgToLitMap.get (toLex (state, e)) := by
  unfold add
  cases htg : a.tg with
  | none => simp
  | some m =>
      simp only [insertTrans_tgToLitMap, Recorded.insertGoal, SetMap.mem_get_insert, toLex_inj,
        Prod.mk.injEq, Option.some.injEq]
      grind

/-- The literals for a state and an edge are those of the additions. -/
theorem mem_tgToLitMap :
    l ∈ (adds.foldl env.add r₀).tgToLitMap.get (toLex (state, e)) ↔
      (∃ a ∈ adds, a.tg = some l ∧ env.reverseNumber a.dest = state ∧ a.site.edge = e) ∨
        l ∈ r₀.tgToLitMap.get (toLex (state, e)) := by
  induction adds generalizing r₀ with
  | nil => simp
  | cons a adds ih =>
      rw [List.foldl_cons, ih, mem_add_tgToLitMap, List.exists_mem_cons_iff, or_left_comm,
        or_assoc]

variable {c : Cnf} {prev : List Literal} {vecs : List (List Literal)}
  {logs : List (List (Addition ν))}

theorem History.tg_below (h : env.History c prev rs vecs logs) {a : Addition ν}
    (ha : a ∈ logs.flatten) : ∀ l ∈ a.tg, l.Below c.noVariables := by
  induction h with
  | nil prev => cases ha
  | cons head _ ih =>
      rw [List.flatten_cons] at ha
      rcases List.mem_append.mp ha with ha | ha
      · exact (head.goal a ha).below
      · exact ih ha

theorem History.tg_goal (h : env.History c prev rs vecs logs) {a : Addition ν}
    (ha : a ∈ logs.flatten) (htg : a.tg = some l) :
    env.isTestGoalState (env.reverseNumber a.dest) = true := by
  induction h with
  | nil prev => cases ha
  | cons head _ ih =>
      rw [List.flatten_cons] at ha
      rcases List.mem_append.mp ha with ha | ha
      · rw [← (head.goal a ha).isSome, htg, Option.isSome_some]
      · exact ih ha

/-! ## The log of a run -/

section RunLogs

variable (env) (takes : List Int → TaState → TaState → Prop) (v : Assignment)

/-- The additions of a round that leads a run from `s` to `t`, with the states for their
numbers. -/
structure StepLog (r : Round ν) (s t : TaState) (adds : List (Addition ν)) : Prop where
  site : ∀ a ∈ adds, a.site.edge ∈ env.exits r ∧ env.SiteOf r a.site
  guard : ∀ a ∈ adds, a.site.guard.eval v = env.passes v r a.site.edge
  taken : ∀ a ∈ adds, takes (env.graphs r a.site.edge) (env.reverseNumber a.src)
    (env.reverseNumber a.dest)
  mapped : ∀ e ∈ env.exits r, ∀ t', takes (env.graphs r e) s t' →
    ∃ a ∈ adds, a.site.edge = e ∧ env.reverseNumber a.src = s ∧ env.reverseNumber a.dest = t'
  isSome : ∀ a ∈ adds, a.tg.isSome = env.isTestGoalState (env.reverseNumber a.dest)
  literal : ∀ a ∈ adds, ∀ l ∈ a.tg,
    l.eval v = (env.passes v r a.site.edge && decide (t = env.reverseNumber a.dest))

/-- The logs of the rounds of a run. -/
inductive RunLog : List (Round ν) → TaState → List TaState → List (List (Addition ν)) → Prop
  | nil (s : TaState) : RunLog [] s [] []
  | cons {r : Round ν} {rs : List (Round ν)} {s t : TaState} {ts : List TaState}
      {adds : List (Addition ν)} {logs : List (List (Addition ν))}
      (head : env.StepLog takes v r s t adds) (tail : RunLog rs t ts logs) :
      RunLog (r :: rs) s (t :: ts) (adds :: logs)

end RunLogs

variable {takes : List Int → TaState → TaState → Prop} {s : TaState} {ts : List TaState}

/-- A goal literal that is true was written down in a round on whose edge the execution
passes, and after which the automaton is in the destination. -/
theorem RunLog.visits (h : env.RunLog takes v rs s ts logs) {a : Addition ν}
    (ha : a ∈ logs.flatten) (htg : a.tg = some l) (hl : l.eval v = true) :
    env.Visits v rs ts a.site.edge (env.reverseNumber a.dest) := by
  induction h with
  | nil s => cases ha
  | cons head _ ih =>
      rw [List.flatten_cons] at ha
      rcases List.mem_append.mp ha with ha | ha
      · have heval := head.literal a ha l htg
        rw [hl, eq_comm, Bool.and_eq_true, decide_eq_true_eq] at heval
        exact Or.inl ⟨(head.site a ha).1, heval⟩
      · exact Or.inr (ih ha)

/-- A move into a goal state was written down, and its literal is true. -/
theorem RunLog.entered (h : env.RunLog takes v rs s ts logs) {t : TaState}
    (henters : env.Enters takes v rs s ts e t) (hgoal : env.isTestGoalState t = true) :
    ∃ a ∈ logs.flatten, env.reverseNumber a.dest = t ∧ a.site.edge = e ∧
      ∃ l, a.tg = some l ∧ l.eval v = true := by
  induction h with
  | nil s => exact henters.elim
  | cons head _ ih =>
      rcases henters with ⟨he, hpasses, htakes, rfl⟩ | hrest
      · obtain ⟨a, ha, hedge, -, hdest⟩ := head.mapped e he _ htakes
        have hsome := head.isSome a ha
        rw [hdest, hgoal] at hsome
        obtain ⟨l, hl⟩ := Option.isSome_iff_exists.mp hsome
        refine ⟨a, List.mem_append_left _ ha, hdest, hedge, l, hl, ?_⟩
        rw [head.literal a ha l hl, hedge, hpasses, hdest]
        simp
      · obtain ⟨a, ha, hspec⟩ := ih hrest
        exact ⟨a, List.mem_append_right _ ha, hspec⟩

end Encoder

namespace BuildSetting

variable {ν : Type} [LinearOrder ν] {setting : BuildSetting ν} {aut : TraceAutomaton}
  {s : TaState} {members : BuildMembers ν} {steps : List (StepView ν)}

theorem map_reverseNumber {ts : List TaState} (hts : ∀ t ∈ ts, t ∈ aut.states) :
    (ts.map aut.compactNumber).map aut.reverseNumber = ts := by
  rw [List.map_map]
  refine (List.map_congr_left ?_).trans (List.map_id ts)
  exact fun t ht => TraceAutomaton.reverseNumber_compactNumber (hts t ht)

/-- The transitions of the numbered automaton are those of the automaton. -/
theorem takes_reverseNumber {mapTg : Bool} {maps : LocMaps ν} {gs : List Int} {i k : TaState}
    (h : (setting.encoder aut mapTg maps).Takes gs i k) :
    aut.Takes gs (aut.reverseNumber i) (aut.reverseNumber k) ∧
      aut.compactNumber (aut.reverseNumber i) = i ∧
      aut.compactNumber (aut.reverseNumber k) = k ∧ aut.reverseNumber k ∈ aut.states := by
  obtain ⟨g, hg, hk⟩ := h
  obtain ⟨s, t, rfl, rfl, hdelta⟩ := mem_compactTransitions.mp hk
  obtain ⟨hs, ht⟩ := aut.trans_live _ hdelta
  rw [TraceAutomaton.reverseNumber_compactNumber hs, TraceAutomaton.reverseNumber_compactNumber ht]
  exact ⟨⟨g, hg, hdelta⟩, rfl, rfl, ht⟩

theorem stepLog_of_roundLog {maps : LocMaps ν} {c : Cnf} {prev next : List Literal} {r : Round ν}
    {adds : List (Addition ν)} {v : Assignment} {t : TaState}
    (h : (setting.encoder aut true maps).RoundLog c prev r next adds) (hv : c.Models v)
    (hs : s ∈ aut.states) (ht : t ∈ aut.states) (hprev : bvValue v prev = aut.compactNumber s)
    (hnext : bvValue v next = aut.compactNumber t) :
    (setting.encoder aut true maps).StepLog aut.Takes v r s t adds where
  site := h.site
  guard := fun a ha => h.guard a ha v hv
  taken := fun a ha => (takes_reverseNumber (h.taken a ha)).1
  mapped := by
    intro e he t' htakes
    have hnumbers := ((numbering setting aut true maps).takes_iff _ _ _ hs).mpr ⟨t', rfl, htakes⟩
    obtain ⟨a, ha, hedge, hsrc, hdest⟩ := h.mapped rfl v hv e he _ (hprev.symm ▸ hnumbers)
    obtain ⟨g, -, hdelta⟩ := htakes
    refine ⟨a, ha, hedge, ?_, ?_⟩
    · rw [hsrc, hprev]
      exact TraceAutomaton.reverseNumber_compactNumber hs
    · rw [hdest]
      exact TraceAutomaton.reverseNumber_compactNumber (aut.trans_live _ hdelta).2
  isSome := fun a ha => (h.goal a ha).isSome
  literal := by
    intro a ha l hl
    obtain ⟨-, -, hdest, hlive⟩ := takes_reverseNumber (h.taken a ha)
    rw [(h.goal a ha).eval l hl v hv, h.guard a ha v hv, hnext]
    congr 1
    apply decide_eq_decide.mpr
    constructor
    · intro heq
      rw [← hdest] at heq
      exact TraceAutomaton.compactNumber_inj ht hlive heq
    · rintro rfl
      exact hdest

theorem runLog_of_history {maps : LocMaps ν} {c : Cnf} {prev : List Literal}
    {rs : List (Round ν)} {vecs : List (List Literal)} {logs : List (List (Addition ν))}
    {v : Assignment} {ts : List TaState}
    (h : (setting.encoder aut true maps).History c prev rs vecs logs) (hv : c.Models v)
    (hs : s ∈ aut.states) (hts : ∀ t ∈ ts, t ∈ aut.states)
    (hprev : bvValue v prev = aut.compactNumber s)
    (hvecs : vecs.map (bvValue v) = ts.map aut.compactNumber) :
    (setting.encoder aut true maps).RunLog aut.Takes v rs s ts logs := by
  induction h generalizing s ts with
  | nil prev =>
      rw [List.map_nil, eq_comm, List.map_eq_nil_iff] at hvecs
      subst hvecs
      exact Encoder.RunLog.nil s
  | cons head _ ih =>
      cases ts with
      | nil => cases hvecs
      | cons t ts =>
          rw [List.map_cons, List.map_cons, List.cons.injEq] at hvecs
          have ht := hts t List.mem_cons_self
          exact Encoder.RunLog.cons (stepLog_of_roundLog head hv hs ht hprev hvecs.1)
            (ih ht (fun t' ht' => hts t' (List.mem_cons_of_mem _ ht')) hvecs.1 hvecs.2)

/-- How the models of the clauses of `build` are read as runs of the automaton; `logs` is what
was written down in their rounds. -/
structure Decodes (setting : BuildSetting ν) (aut : TraceAutomaton) (s : TaState)
    (steps : List (StepView ν)) (members : BuildMembers ν)
    (decode : Assignment → List TaState) (logs : List (List (Addition ν))) : Prop where
  sound : ∀ w, (setting.encode aut true s steps members).cnf.Models w →
    members.cnf.Models w ∧
    (setting.encoder aut true members.maps).RunBy aut.Takes w
      (steps.flatMap (setting.encoder aut true members.maps).roundsOf) s (decode w) ∧
    (decode w).getLastD s ∈ aut.finals
  complete : ∀ v ts, members.cnf.Bounded → members.cnf.Models v →
    (setting.encoder aut true members.maps).RunBy aut.Takes v
      (steps.flatMap (setting.encoder aut true members.maps).roundsOf) s ts →
    ts.getLastD s ∈ aut.finals →
    ∃ w, AgreeBelow members.cnf.noVariables v w ∧
      (setting.encode aut true s steps members).cnf.Models w ∧ decode w = ts
  agree : ∀ w w', AgreeBelow (setting.encode aut true s steps members).cnf.noVariables w w' →
    decode w = decode w'
  recorded : (setting.encode aut true s steps members).recorded =
    logs.flatten.foldl (setting.encoder aut true members.maps).add members.recorded
  runLog : ∀ w, (setting.encode aut true s steps members).cnf.Models w →
    (setting.encoder aut true members.maps).RunLog aut.Takes w
      (steps.flatMap (setting.encoder aut true members.maps).roundsOf) s (decode w) logs

variable (setting members) in
/-- **Models are runs.**  Every model of the clauses denotes an accepted run of the automaton
along the execution, and every accepted run is denoted by a model.  Variables that are handed
out later do not matter. -/
theorem encode_decodes (hs : s ∈ aut.states)
    (hsteps : ∀ step ∈ steps, Encoder.StepBelow members.cnf.noVariables step) :
    ∃ decode logs, setting.Decodes aut s steps members decode logs := by
  obtain ⟨vecs, logs, hchooses, hrecorded, hhistory⟩ := encode_spec setting true hs hsteps
  have hnumbering := numbering setting aut true members.maps
  have hstart : ∀ v, bvValue v (startEncoding aut s members).prevState = aut.compactNumber s :=
    fun v => bvValue_buildConstant (TraceAutomaton.compactNumber_lt hs)
  have hlast : ∀ ts : List TaState, (∀ t ∈ ts, t ∈ aut.states) →
      ((ts.map aut.compactNumber).getLastD (aut.compactNumber s) ∈ aut.compactFinals ↔
        ts.getLastD s ∈ aut.finals) := by
    intro ts hts
    rw [Encoder.getLastD_map, TraceAutomaton.mem_compactFinals]
    have hlive : ts.getLastD s ∈ aut.states := by
      rw [List.getLastD_eq_getLast?]
      cases hlast : ts.getLast? with
      | none => exact hs
      | some t => exact hts t (List.mem_of_getLast? hlast)
    constructor
    · rintro ⟨t, ht, heq⟩
      rwa [TraceAutomaton.compactNumber_inj hlive (aut.finals_live t ht) heq]
    · exact fun ht => ⟨_, ht, rfl⟩
  -- the states that a model denotes
  have hsound : ∀ w, (setting.encode aut true s steps members).cnf.Models w → ∃ ts,
      (∀ t ∈ ts, t ∈ aut.states) ∧ vecs.map (bvValue w) = ts.map aut.compactNumber ∧
      (vecs.map (bvValue w)).map aut.reverseNumber = ts ∧ members.cnf.Models w ∧
      (setting.encoder aut true members.maps).RunBy aut.Takes w
        (steps.flatMap (setting.encoder aut true members.maps).roundsOf) s ts ∧
      ts.getLastD s ∈ aut.finals := by
    intro w hw
    obtain ⟨hmembers, hrun, hfinal⟩ := hchooses.sound w hw
    obtain ⟨ts, hts, hruns⟩ := (hnumbering.runBy_iff hs).mp hrun
    have hlive := hnumbering.runBy_closed hs hruns
    rw [hts] at hfinal
    refine ⟨ts, hlive, hts, ?_, hmembers, hruns, (hlast ts hlive).mp hfinal⟩
    rw [hts, map_reverseNumber hlive]
  refine ⟨fun w => (vecs.map (bvValue w)).map aut.reverseNumber, logs, ?_, ?_, ?_, hrecorded, ?_⟩
  · intro w hw
    obtain ⟨ts, -, -, rfl, hspec⟩ := hsound w hw
    exact hspec
  · intro v ts hcnf hv hrun hfinal
    have hlive := hnumbering.runBy_closed hs hrun
    obtain ⟨w, hvw, hw, hvalues⟩ := hchooses.complete hcnf v (ts.map aut.compactNumber) hv
      ⟨(hnumbering.runBy_iff hs).mpr ⟨ts, rfl, hrun⟩, (hlast ts hlive).mpr hfinal⟩
    refine ⟨w, hvw, hw, ?_⟩
    rw [hvalues, map_reverseNumber hlive]
  · intro w w' hww'
    have hvalues : vecs.map (bvValue w) = vecs.map (bvValue w') :=
      List.map_congr_left fun bv hbv => bvValue_agree (hchooses.below bv hbv) hww'
    rw [hvalues]
  · intro w hw
    obtain ⟨ts, hlive, hvecs, hdecode, -⟩ := hsound w hw
    rw [hdecode]
    exact runLog_of_history hhistory hw hs hlive (hstart w) hvecs

/-- What is stored under a state and an edge: literals that were handed out, and none but for
a goal state. -/
theorem encode_stored {mapTg : Bool} (hs : s ∈ aut.states)
    (hsteps : ∀ step ∈ steps, Encoder.StepBelow members.cnf.noVariables step)
    (hfresh : ∀ key l, l ∉ members.recorded.tgToLitMap.get key) {t : TaState} {e : ν ×ₗ ν}
    {l : Literal}
    (hl : l ∈ (setting.encode aut mapTg s steps members).recorded.tgToLitMap.get (toLex (t, e))) :
    l.Below (setting.encode aut mapTg s steps members).cnf.noVariables ∧
      setting.isTestGoalState t = true := by
  obtain ⟨vecs, logs, -, hrecorded, hhistory⟩ := encode_spec setting mapTg hs hsteps
  rw [hrecorded, Encoder.mem_tgToLitMap] at hl
  obtain ⟨a, ha, htg, rfl, -⟩ := hl.resolve_right (hfresh _ l)
  exact ⟨hhistory.tg_below ha l htg, hhistory.tg_goal ha htg⟩

/-- The second call of `build` writes nothing down. -/
theorem encode_recorded (hs : s ∈ aut.states)
    (hsteps : ∀ step ∈ steps, Encoder.StepBelow members.cnf.noVariables step) :
    (setting.encode aut false s steps members).recorded = members.recorded := by
  obtain ⟨vecs, logs, -, hrecorded, hhistory⟩ := encode_spec setting false hs hsteps
  rw [hrecorded, hhistory.quiet rfl, List.foldl_nil]

/-! ## Both calls of `build` -/

omit [LinearOrder ν] in
theorem gotoGuard_below [DecidableEq ν] {instruction : ν → Instruction} {n : Nat}
    {step : EquationStep ν}
    {rest : List (EquationStep ν)} {l : Literal}
    (hrest : ∀ x ∈ rest, ∀ l ∈ x.guardLiteral, l.Below n)
    (h : gotoGuard instruction step rest = some l) : l.Below n := by
  unfold gotoGuard at h
  split_ifs at h with hgoto htrue
  · cases h
    trivial
  · obtain ⟨m, hm, rfl⟩ := Option.map_eq_some_iff.mp h
    refine Literal.below_neg.mpr ?_
    cases rest with
    | nil => cases hm
    | cons x rest =>
        rw [guardFinder] at hm
        split_ifs at hm
        · cases rest with
          | nil => cases hm
          | cons y rest => exact hrest y (by simp) m hm
        · exact hrest x (by simp) m hm
  · cases h
    trivial

/-- The steps only have literals of the equation. -/
theorem stepViews_below {instruction : ν → Instruction} {n : Nat}
    {previous : Option (EquationStep ν)} {number : Nat} {equation : List (EquationStep ν)}
    {steps : List (StepView ν)} (hequation : ∀ x ∈ equation, ∀ l ∈ x.guardLiteral, l.Below n)
    (h : stepViews instruction previous number equation = some steps) :
    ∀ step ∈ steps, Encoder.StepBelow n step := by
  induction equation generalizing previous number steps with
  | nil =>
      cases h
      simp
  | cons x rest ih =>
      have hrest : ∀ y ∈ rest, ∀ l ∈ y.guardLiteral, l.Below n := fun y hy =>
        hequation y (List.mem_cons_of_mem _ hy)
      rw [stepViews] at h
      by_cases hskip : (ignoredStep instruction x ||
          previous.any (furtherStep instruction · x)) = true
      · rw [if_pos hskip] at h
        exact ih hrest h
      · rw [if_neg hskip] at h
        obtain ⟨guard, hguard, h⟩ := Option.bind_eq_some_iff.mp h
        obtain ⟨goto, hgoto, h⟩ := Option.bind_eq_some_iff.mp h
        obtain ⟨views, hviews, h⟩ := Option.bind_eq_some_iff.mp h
        cases h
        intro step hstep
        rcases List.mem_cons.mp hstep with rfl | hstep
        · exact ⟨hequation x List.mem_cons_self guard hguard, gotoGuard_below hrest hgoto⟩
        · exact ih hrest hviews step hstep

variable (setting members) in
/-- The clauses of `build` only speak of variables that were handed out. -/
theorem encode_bounded (mapTg : Bool) (hs : s ∈ aut.states)
    (hsteps : ∀ step ∈ steps, Encoder.StepBelow members.cnf.noVariables step)
    (hcnf : members.cnf.Bounded) :
    members.cnf.noVariables ≤ (setting.encode aut mapTg s steps members).cnf.noVariables ∧
      (setting.encode aut mapTg s steps members).cnf.Bounded := by
  obtain ⟨vecs, logs, hchooses, -, -⟩ := encode_spec setting mapTg hs hsteps
  exact ⟨hchooses.le, hchooses.bounded hcnf⟩

/-- Whether the automaton can follow an execution is up to its guards. -/
theorem follows_agree {env : Encoder ν} {takes : List Int → TaState → TaState → Prop}
    {v w : Assignment} {n : Nat} {t : TaState}
    (hsteps : ∀ step ∈ steps, Encoder.StepBelow n step) (hvw : AgreeBelow n v w)
    (h : env.Follows takes v steps s t) : env.Follows takes w steps s t := by
  induction steps generalizing s with
  | nil => exact h
  | cons step rest ih =>
      obtain ⟨m, ⟨m', hpath, hmoves⟩, hrest⟩ := h
      have hstep := hsteps step List.mem_cons_self
      refine ⟨m, ⟨m', ?_, ?_⟩, ih (fun x hx => hsteps x (List.mem_cons_of_mem _ hx)) hrest⟩
      · rwa [← hstep.guard.eval_eq hvw]
      · refine Encoder.MovesBy.agree ?_ hvw hmoves
        rw [show env.lastRound step = if env.maps.edgeEntry step.pc = [] then .leave step
          else .edges step from rfl]
        split_ifs <;> exact hstep

/-- **What the query leaves.**  An execution extends to a model of all clauses exactly when
both automata can follow it to a final state; the passing automaton finds the edges of the
coverage automaton in the maps. -/
theorem buildBoth_models_iff {cover passing : TraceAutomaton} {equation : List (EquationStep ν)}
    {cnf : Cnf} {q p : TaState} {v : Assignment} (hcover : cover.initial = [q])
    (hpassing : passing.initial = [p])
    (hviews : stepViews setting.instruction none 0 equation = some steps)
    (hequation : ∀ x ∈ equation, ∀ l ∈ x.guardLiteral, l.Below cnf.noVariables)
    (hcnf : cnf.Bounded) (hv : cnf.Models v) :
    ∃ out, setting.buildBoth cover passing equation cnf = some out ∧
      ((∃ w, AgreeBelow cnf.noVariables v w ∧ out.cnf.Models w) ↔
        (∃ t ∈ cover.finals, (setting.encoder cover true LocMaps.empty).Follows cover.Takes v
          steps q t) ∧
        ∃ t ∈ passing.finals,
          (setting.encoder passing false
            (collectGraphs setting.lookupIndex cover LocMaps.empty).2).Follows passing.Takes v
            steps p t) := by
  have hsteps := stepViews_below hequation hviews
  have hq : q ∈ cover.states := cover.initial_live q (by simp [hcover])
  have hp : p ∈ passing.states := passing.initial_live p (by simp [hpassing])
  obtain ⟨hle, hbounded⟩ := encode_bounded setting (emptyMembers cnf) true hq
    hsteps hcnf
  have hsteps' : ∀ step ∈ steps, Encoder.StepBelow
      (setting.encode cover true q steps (emptyMembers cnf)).cnf.noVariables step :=
    fun step hstep => (hsteps step hstep).mono hle
  refine ⟨setting.encode passing false p steps
    (setting.encode cover true q steps (emptyMembers cnf)), ?_, ?_⟩
  · simp only [buildBoth, build, hviews, hcover, hpassing, List.head?_cons, Option.bind_eq_bind,
      Option.bind_some]
  · have hcall : (∃ w, AgreeBelow cnf.noVariables v w ∧
        (setting.encode cover true q steps (emptyMembers cnf)).cnf.Models w) ↔
        ∃ t ∈ cover.finals, (setting.encoder cover true LocMaps.empty).Follows cover.Takes v
          steps q t :=
      encode_models_iff true (emptyMembers cnf) hq hcnf hsteps hv
    rw [← hcall]
    constructor
    · rintro ⟨w, hvw, hw⟩
      obtain ⟨vecs, logs, hchooses, -, -⟩ := encode_spec setting false hp
        hsteps'
      have hfirst := (hchooses.sound w hw).1
      obtain ⟨t, ht, hfollows⟩ := (encode_models_iff false _ hp hbounded hsteps' hfirst).mp
        ⟨w, AgreeBelow.refl _ w, hw⟩
      exact ⟨⟨w, hvw, hfirst⟩, t, ht, follows_agree hsteps hvw.symm hfollows⟩
    · rintro ⟨⟨u, hvu, hu⟩, t, ht, hfollows⟩
      obtain ⟨w, huw, hw⟩ := (encode_models_iff false _ hp hbounded hsteps' hu).mpr
        ⟨t, ht, follows_agree hsteps hvu hfollows⟩
      exact ⟨w, hvu.trans huw hle, hw⟩

/-- The equation of the edge. -/
def edgeEquation : List (EquationStep Nat) := [⟨0, .assignment, .state, some (.const true)⟩]

theorem buildBoth_models_iff_oneEdge :
    ∃ out, oneEdge.buildBoth edgeAutomaton edgeAutomaton edgeEquation .empty = some out ∧
      ((∃ w, AgreeBelow 1 (fun _ => true) w ∧ out.cnf.Models w) ↔
        (∃ t ∈ edgeAutomaton.finals, (oneEdge.encoder edgeAutomaton true LocMaps.empty).Follows
          edgeAutomaton.Takes (fun _ => true) [edgeStep] 1 t) ∧
        ∃ t ∈ edgeAutomaton.finals,
          (oneEdge.encoder edgeAutomaton false
            (collectGraphs oneEdge.lookupIndex edgeAutomaton LocMaps.empty).2).Follows
            edgeAutomaton.Takes (fun _ => true) [edgeStep] 1 t) :=
  buildBoth_models_iff rfl rfl rfl (by simp [edgeEquation]) empty_bounded (empty_models _)

/-! ## Leaving the target graphs -/

theorem follows_append {env : Encoder ν} {takes : List Int → TaState → TaState → Prop}
    {v : Assignment} {before after : List (StepView ν)} {t : TaState} :
    env.Follows takes v (before ++ after) s t ↔
      ∃ m, env.Follows takes v before s m ∧ env.Follows takes v after m t := by
  induction before generalizing s with
  | nil => simp [Encoder.Follows]
  | cons step before ih =>
      simp only [List.cons_append, Encoder.Follows, ih]
      constructor
      · rintro ⟨m, hstep, m', hbefore, hafter⟩
        exact ⟨m', ⟨m, hstep, hbefore⟩, hafter⟩
      · rintro ⟨m', ⟨m, hstep, hbefore⟩, hafter⟩
        exact ⟨m, hstep, m', hbefore, hafter⟩

/-- A step along an edge that is in no entry. -/
theorem advances_leaving {env : Encoder ν} {takes : List Int → TaState → TaState → Prop}
    {v : Assignment} {step : StepView ν} {t : TaState}
    (hplain : isInstrumented (env.instruction step.pc) = false) (hguard : step.guard.eval v = true)
    (hleave : ∀ e ∈ env.maps.edgeEntry step.pc, env.passes v (.edges step) e = false) :
    env.Advances takes v step s t ↔ env.maps.edgeEntry step.pc ≠ [] ∧
      Relation.ReflTransGen (takes (env.nodeGraphs step.pc)) s t := by
  simp only [Encoder.Advances, hguard, true_and]
  by_cases hentry : env.maps.edgeEntry step.pc = []
  · rw [show env.lastRound step = .leave step from if_pos hentry]
    simp [Encoder.MovesBy, Encoder.blocked, hplain, hguard, hentry]
  · rw [show env.lastRound step = .edges step from if_neg hentry]
    have hmoves : ∀ m, env.MovesBy takes v (.edges step) m t ↔ t = m := by
      intro m
      constructor
      · rintro ⟨-, -, ⟨e, he, hpasses⟩ | heq⟩
        · rw [hleave e he] at hpasses
          cases hpasses
        · exact heq
      · rintro rfl
        refine ⟨rfl, ?_, Or.inr rfl⟩
        intro e he hpasses
        rw [hleave e he] at hpasses
        cases hpasses
    simp only [hmoves, hentry, ne_eq, not_false_eq_true, true_and]
    constructor
    · rintro ⟨m, hpath, rfl⟩
      exact hpath
    · exact fun hpath => ⟨t, hpath, rfl⟩

/-- **Executions that leave the target graphs.**  An execution takes an edge of an instruction
of the program that is not in the maps.  If no other edge of the instruction is there either,
the execution is excluded; otherwise the automaton waits. -/
theorem encode_leaving {mapTg : Bool} {before after : List (StepView ν)} {step : StepView ν}
    {v : Assignment} (hs : s ∈ aut.states) (hcnf : members.cnf.Bounded)
    (hsteps : ∀ x ∈ before ++ step :: after, Encoder.StepBelow members.cnf.noVariables x)
    (hv : members.cnf.Models v)
    (hplain : isInstrumented (setting.instruction step.pc) = false)
    (hguard : step.guard.eval v = true)
    (hleave : ∀ e ∈ (setting.encoder aut mapTg members.maps).maps.edgeEntry step.pc,
      (setting.encoder aut mapTg members.maps).passes v (.edges step) e = false) :
    let env := setting.encoder aut mapTg members.maps
    (∃ w, AgreeBelow members.cnf.noVariables v w ∧
        (setting.encode aut mapTg s (before ++ step :: after) members).cnf.Models w) ↔
      (∃ e : ν ×ₗ ν, (ofLex e).1 = step.pc ∧
        ((∃ g, aut.IsLabel g ∧ ofLex e ∈ (setting.lookupIndex g).edges) ∨
          e ∈ members.maps.edges.keys)) ∧
        ∃ m m' t, env.Follows aut.Takes v before s m ∧
          Relation.ReflTransGen (aut.Takes (env.nodeGraphs step.pc)) m m' ∧
          env.Follows aut.Takes v after m' t ∧ t ∈ aut.finals := by
  intro env
  have hentry : (∃ e : ν ×ₗ ν, (ofLex e).1 = step.pc ∧
      ((∃ g, aut.IsLabel g ∧ ofLex e ∈ (setting.lookupIndex g).edges) ∨
        e ∈ members.maps.edges.keys)) ↔ env.maps.edgeEntry step.pc ≠ [] := by
    constructor
    · rintro ⟨e, he⟩
      exact List.ne_nil_of_mem (mem_edgeEntry.mpr he)
    · intro hne
      obtain ⟨e, he⟩ := List.exists_mem_of_ne_nil _ hne
      exact ⟨e, mem_edgeEntry.mp he⟩
  have hstep : ∀ m m', env.Advances aut.Takes v step m m' ↔
      env.maps.edgeEntry step.pc ≠ [] ∧
        Relation.ReflTransGen (aut.Takes (env.nodeGraphs step.pc)) m m' :=
    fun m m' => advances_leaving hplain hguard hleave
  rw [encode_models_iff mapTg members hs hcnf hsteps hv, hentry]
  show (∃ t ∈ aut.finals, env.Follows aut.Takes v (before ++ step :: after) s t) ↔ _
  simp only [follows_append, Encoder.Follows, hstep]
  constructor
  · rintro ⟨t, ht, m, hbefore, m', ⟨hne, hpath⟩, hafter⟩
    exact ⟨hne, m, m', t, hbefore, hpath, hafter, ht⟩
  · rintro ⟨hne, m, m', t, hbefore, hpath, hafter, ht⟩
    exact ⟨t, ht, m, hbefore, m', ⟨hne, hpath⟩, hafter⟩

/-- The edge is one way to leave a branch. -/
def oneBranch : BuildSetting Nat :=
  { oneEdge with instruction := fun n => { plainAssign n with type := .goto } }

/-- The other way, which is in no target graph. -/
def branchStep : StepView Nat := ⟨0, 0, .const true, .const true⟩

/-- Location 5 has no edge; at the branch the execution leaves the edge and takes it
the next time. -/
theorem encode_leaving_oneEdge :
    (let env := oneEdge.encoder edgeAutomaton true LocMaps.empty
    (∃ w, AgreeBelow 1 (fun _ => true) w ∧
        (oneEdge.encode edgeAutomaton true 1 ([edgeStep] ++ ⟨1, 5, .const true, .const false⟩ :: [])
          (emptyMembers .empty)).cnf.Models w) ↔
      (∃ e : Nat ×ₗ Nat, (ofLex e).1 = 5 ∧
        ((∃ g, edgeAutomaton.IsLabel g ∧ ofLex e ∈ (oneEdge.lookupIndex g).edges) ∨
          e ∈ (LocMaps.empty : LocMaps Nat).edges.keys)) ∧
        ∃ m m' t, env.Follows edgeAutomaton.Takes (fun _ => true) [edgeStep] 1 m ∧
          Relation.ReflTransGen (edgeAutomaton.Takes (env.nodeGraphs 5)) m m' ∧
          env.Follows edgeAutomaton.Takes (fun _ => true) [] m' t ∧ t ∈ edgeAutomaton.finals) ∧
    (let env := oneBranch.encoder edgeAutomaton true LocMaps.empty
    (∃ w, AgreeBelow 1 (fun _ => true) w ∧
        (oneBranch.encode edgeAutomaton true 1 ([] ++ branchStep :: [edgeStep])
          (emptyMembers .empty)).cnf.Models w) ↔
      (∃ e : Nat ×ₗ Nat, (ofLex e).1 = 0 ∧
        ((∃ g, edgeAutomaton.IsLabel g ∧ ofLex e ∈ (oneBranch.lookupIndex g).edges) ∨
          e ∈ (LocMaps.empty : LocMaps Nat).edges.keys)) ∧
        ∃ m m' t, env.Follows edgeAutomaton.Takes (fun _ => true) [] 1 m ∧
          Relation.ReflTransGen (edgeAutomaton.Takes (env.nodeGraphs 0)) m m' ∧
          env.Follows edgeAutomaton.Takes (fun _ => true) [edgeStep] m' t ∧
          t ∈ edgeAutomaton.finals) := by
  constructor
  · refine @encode_leaving _ _ oneEdge edgeAutomaton _ (emptyMembers .empty) _ _ _ _ _ (by decide)
      empty_bounded ?_ (empty_models _) rfl rfl ?_
    · intro x hx
      rcases List.mem_append.mp hx with hx | hx
      · exact edgeStep_below x hx
      · rw [List.mem_singleton.mp hx]
        exact ⟨trivial, trivial⟩
    · intro e he
      obtain ⟨heq, ⟨g, -, hg⟩ | hold⟩ := mem_edgeEntry.mp he
      · rw [List.mem_singleton.mp hg] at heq
        cases heq
      · obtain ⟨g, hg⟩ := SetMap.mem_keys.mp hold
        exact absurd hg SetMap.notMem_get_empty
  · refine @encode_leaving _ _ oneBranch edgeAutomaton _ (emptyMembers .empty) _ _ _ _ _
      (by decide) empty_bounded ?_ (empty_models _) rfl rfl ?_
    · intro x hx
      rcases List.mem_cons.mp hx with rfl | hx
      · exact ⟨trivial, trivial⟩
      · exact edgeStep_below x hx
    · intro e he
      -- the one edge of the branch is not its goto edge
      have hentry : (oneBranch.encoder edgeAutomaton true LocMaps.empty).maps.edgeEntry 0 =
          [toLex (0, 1)] := by decide +kernel
      change e ∈ (oneBranch.encoder edgeAutomaton true LocMaps.empty).maps.edgeEntry 0 at he
      rw [hentry, List.mem_singleton] at he
      subst he
      decide +kernel

end BuildSetting

end FShell
