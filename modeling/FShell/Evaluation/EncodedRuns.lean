import FShell.Automata.Rounds
import FShell.Evaluation.EncodedSteps

/-!
# The models of the encoding are the accepted executions

A model of the unwound program is an execution: it says which guards hold.  The
clauses of `build` have a model that extends it exactly when the automaton can
follow the execution from its initial state to a final one
(`BuildSetting.encode_models_iff`), and the vectors of such a model denote the
states of a run (`BuildSetting.encode_spec`).

**Nodes.**  At a location that is a node of target graphs the automaton takes any
number of transitions; as many rounds as there are source states suffice.
-/

namespace FShell

open Cnf

namespace Encoder

variable {ν : Type} [LinearOrder ν]

/-- The last element of two lists. -/
theorem getLastD_append {α : Type} (xs ys : List α) (a : α) :
    (xs ++ ys).getLastD a = ys.getLastD (xs.getLastD a) := by
  induction xs generalizing a with
  | nil => rfl
  | cons x xs ih => rw [List.cons_append, List.getLastD_cons, List.getLastD_cons, ih]

/-- The last element of an image. -/
theorem getLastD_map {α β : Type} (f : α → β) (xs : List α) (a : α) :
    (xs.map f).getLastD (f a) = f (xs.getLastD a) := by
  induction xs generalizing a with
  | nil => rfl
  | cons x xs ih => rw [List.map_cons, List.getLastD_cons, List.getLastD_cons, ih]

/-! ## Runs in pieces -/

section Pieces

variable {env : Encoder ν} {σ : Type} {takes : List Int → σ → σ → Prop} {v w : Assignment}
  {rs rs' : List (Round ν)} {s t : σ} {ts : List σ}

/-- A run of one round. -/
theorem runBy_singleton {r : Round ν} :
    env.RunBy takes v [r] s ts ↔ ∃ t, ts = [t] ∧ env.MovesBy takes v r s t := by
  simp only [RunBy]
  grind

/-- A run of two parts. -/
theorem runBy_append :
    env.RunBy takes v (rs ++ rs') s ts ↔ ∃ ts₁ ts₂, ts = ts₁ ++ ts₂ ∧
      env.RunBy takes v rs s ts₁ ∧ env.RunBy takes v rs' (ts₁.getLastD s) ts₂ := by
  induction rs generalizing s ts with
  | nil => simp [RunBy]
  | cons r rs ih =>
      simp only [List.cons_append, RunBy, ih]
      constructor
      · rintro ⟨t, ts', rfl, hmove, ts₁, ts₂, rfl, h₁, h₂⟩
        refine ⟨t :: ts₁, ts₂, rfl, ⟨t, ts₁, rfl, hmove, h₁⟩, ?_⟩
        rwa [List.getLastD_cons]
      · rintro ⟨_, ts₂, rfl, ⟨t, ts₁, rfl, hmove, h₁⟩, h₂⟩
        rw [List.getLastD_cons] at h₂
        exact ⟨t, ts₁ ++ ts₂, rfl, hmove, ts₁, ts₂, rfl, h₁, h₂⟩

/-- A run depends on the variables of its steps. -/
theorem RunBy.agree {n : Nat} (hrs : ∀ r ∈ rs, StepBelow n (roundStep r))
    (hvw : AgreeBelow n v w) (h : env.RunBy takes v rs s ts) : env.RunBy takes w rs s ts := by
  induction rs generalizing s ts with
  | nil => exact h
  | cons r rs ih =>
      obtain ⟨t, ts', rfl, hmove, hrest⟩ := h
      exact ⟨t, ts', rfl, MovesBy.agree (hrs r List.mem_cons_self) hvw hmove,
        ih (fun r hr => hrs r (List.mem_cons_of_mem _ hr)) hrest⟩

end Pieces

/-! ## The history of the vectors -/

variable (env : Encoder ν)

/-- The log of a round that leads from the vector `prev` to `next`. -/
structure RoundLog (c : Cnf) (prev : List Literal) (r : Round ν) (next : List Literal)
    (adds : List (Addition ν)) : Prop where
  goal : ∀ a ∈ adds, env.GoalLiteral c next a
  site : ∀ a ∈ adds, a.site.edge ∈ env.exits r ∧ env.SiteOf r a.site
  guard : ∀ a ∈ adds, ∀ v, c.Models v → a.site.guard.eval v = env.passes v r a.site.edge
  taken : ∀ a ∈ adds, env.Takes (env.graphs r a.site.edge) a.src a.dest
  mapped : env.mapTg = true → ∀ v, c.Models v → ∀ e ∈ env.exits r, ∀ t,
    env.Takes (env.graphs r e) (bvValue v prev) t →
      ∃ a ∈ adds, a.site.edge = e ∧ a.src = bvValue v prev ∧ a.dest = t
  quiet : env.mapTg = false → adds = []

/-- The logs of consecutive rounds. -/
inductive History (c : Cnf) : List Literal → List (Round ν) → List (List Literal) →
    List (List (Addition ν)) → Prop
  | nil (prev : List Literal) : History c prev [] [] []
  | cons {prev next : List Literal} {r : Round ν} {rs : List (Round ν)}
      {vecs : List (List Literal)} {adds : List (Addition ν)} {logs : List (List (Addition ν))}
      (head : env.RoundLog c prev r next adds) (tail : History c next rs vecs logs) :
      History c prev (r :: rs) (next :: vecs) (adds :: logs)

/-- The outcome of several rounds. -/
structure RunDone (rs : List (Round ν)) (st st' : Encoding ν) (vecs : List (List Literal))
    (logs : List (List (Addition ν))) : Prop where
  settled : env.Settled st'
  prevState : st'.prevState = vecs.getLastD st.prevState
  chooses : st.cnf.Chooses (fun v ns => env.RunBy env.Takes v rs (bvValue v st.prevState) ns)
    vecs st'.cnf
  recorded : st'.recorded = logs.flatten.foldl env.add st.recorded
  history : env.History st'.cnf st.prevState rs vecs logs

variable {env} {c d : Cnf} {prev next : List Literal} {r : Round ν} {rs rs' : List (Round ν)}
  {vecs vecs' : List (List Literal)} {adds : List (Addition ν)}
  {logs logs' : List (List (Addition ν))} {st st' st'' : Encoding ν}

/-- The log of a round stays true when the formula grows. -/
theorem RoundLog.grows (h : env.RoundLog c prev r next adds) (hcd : Grows c d) :
    env.RoundLog d prev r next adds where
  goal := fun a ha => (h.goal a ha).grows hcd
  site := h.site
  guard := fun a ha v hv => h.guard a ha v (hcd.sound v hv)
  taken := h.taken
  mapped := fun hmap v hv => h.mapped hmap v (hcd.sound v hv)
  quiet := h.quiet

/-- A history stays true when the formula grows. -/
theorem History.grows (h : env.History c prev rs vecs logs) (hcd : Grows c d) :
    env.History d prev rs vecs logs := by
  induction h with
  | nil prev => exact History.nil prev
  | cons head _ ih => exact History.cons (head.grows hcd) ih

/-- Nothing is written down unless `map_tg` is set. -/
theorem History.quiet (hmap : env.mapTg = false) (h : env.History c prev rs vecs logs) :
    logs.flatten = [] := by
  induction h with
  | nil prev => rfl
  | cons head _ ih => rw [List.flatten_cons, head.quiet hmap, ih, List.append_nil]

/-- Two histories, one behind the other. -/
theorem History.append (h : env.History c prev rs vecs logs)
    (h' : env.History c (vecs.getLastD prev) rs' vecs' logs') :
    env.History c prev (rs ++ rs') (vecs ++ vecs') (logs ++ logs') := by
  induction h with
  | nil prev => exact h'
  | cons head _ ih =>
      rw [List.getLastD_cons] at h'
      exact History.cons head (ih h')

/-- No round is done. -/
theorem RunDone.refl (h : env.Settled st) : env.RunDone [] st st [] [] where
  settled := h
  prevState := rfl
  chooses := Chooses.nil st.cnf
  recorded := rfl
  history := History.nil _

/-- A single round. -/
theorem RoundDone.runDone (hst : env.Settled st) (h : env.RoundDone r st st' adds) :
    env.RunDone [r] st st' [st'.prevState] [adds] where
  settled := h.settled
  prevState := rfl
  chooses := h.chooses.congr fun v ns => runBy_singleton.symm
  recorded := by simpa using h.recorded
  history := by
    refine History.cons ⟨h.logged.goal, h.logged.site, h.logged.guard, h.logged.taken, ?_,
      h.logged.quiet⟩ (History.nil _)
    intro hmap v hv e he t htakes
    exact h.logged.mapped hmap e he _ t htakes (hst.reached v (h.chooses.grows.sound v hv))

/-- **One run after another.** -/
theorem RunDone.append (hst : env.Settled st)
    (hrs' : ∀ r ∈ rs', StepBelow st.cnf.noVariables (roundStep r))
    (h : env.RunDone rs st st' vecs logs) (h' : env.RunDone rs' st' st'' vecs' logs') :
    env.RunDone (rs ++ rs') st st'' (vecs ++ vecs') (logs ++ logs') where
  settled := h'.settled
  prevState := by
    rw [h'.prevState, h.prevState, getLastD_append]
  chooses := by
    have hvalue : ∀ v, bvValue v st'.prevState =
        (vecs.map (bvValue v)).getLastD (bvValue v st.prevState) := by
      intro v
      rw [h.prevState, getLastD_map]
    refine (h.chooses.append h'.chooses
      (T := fun v ns => env.RunBy env.Takes v rs' (ns.1.getLastD (bvValue v st.prevState)) ns.2)
      ?_ ?_).congr ?_
    · intro v w hvw ns hrun
      rw [← bvValue_agree hst.vector.below hvw]
      exact hrun.agree hrs' hvw
    · intro v _ ns
      rw [hvalue]
    · intro v ns
      exact runBy_append.symm
  recorded := by
    rw [List.flatten_append, List.foldl_append, ← h.recorded, h'.recorded]
  history := (h.history.grows h'.chooses.grows).append (h.prevState ▸ h'.history)

/-! ## The rounds of the steps -/

/-- The rounds of a step are about that step. -/
theorem roundStep_of_mem {step : StepView ν} (hr : r ∈ env.roundsOf step) :
    roundStep r = step := by
  rcases List.mem_append.mp hr with hr | hr
  · rw [(List.mem_replicate.mp hr).2]
    rfl
  · rw [List.mem_singleton.mp hr]
    split_ifs <;> rfl

/-- The loop over the sources, by induction. -/
theorem nodeRounds_spec {step : StepView ν} (henv : env.TransitionsFit) (hst : env.Settled st)
    (hstep : StepBelow st.cnf.noVariables step) (n : Nat) :
    ∃ vecs logs, env.RunDone (List.replicate n (.node step)) st ((env.nodeRound step)^[n] st)
      vecs logs := by
  induction n generalizing st with
  | zero => exact ⟨[], [], RunDone.refl hst⟩
  | succ n ih =>
      obtain ⟨adds, hround⟩ := nodeRound_spec henv hst hstep
      obtain ⟨vecs, logs, hrest⟩ := ih hround.settled (hstep.mono hround.chooses.le)
      refine ⟨_, _, (hround.runDone hst).append hst ?_ hrest⟩
      intro r hr
      rw [(List.mem_replicate.mp hr).2]
      exact hstep

/-- **One call of `do_step`**: its rounds are done. -/
theorem doStep_spec {step : StepView ν} (henv : env.TransitionsFit) (hst : env.Settled st)
    (hstep : StepBelow st.cnf.noVariables step) :
    ∃ vecs logs, env.RunDone (env.roundsOf step) st (env.doStep st step) vecs logs := by
  obtain ⟨vecs, logs, hnodes⟩ := nodeRounds_spec henv hst hstep
    (env.sources (env.nodeGraphs step.pc)).toList.length
  have hlater := hstep.mono hnodes.chooses.le
  have hlast : ∃ adds, env.RoundDone
      (if env.maps.edgeEntry step.pc = [] then .leave step else .edges step)
      ((env.nodeRound step)^[(env.sources (env.nodeGraphs step.pc)).toList.length] st)
      (env.doStep st step) adds := by
    cases hentry : env.maps.edgeEntry step.pc with
    | nil =>
        simp only [doStep, hentry, if_true]
        exact ⟨[], leaveRound_spec hnodes.settled hlater⟩
    | cons e rest =>
        simp only [doStep, hentry, List.cons_ne_nil, if_false]
        rw [← hentry]
        exact edgeRound_spec henv hnodes.settled hlater
  obtain ⟨adds, hround⟩ := hlast
  refine ⟨_, _, hnodes.append hst ?_ (hround.runDone hnodes.settled)⟩
  intro r hr
  rw [List.mem_singleton.mp hr]
  split_ifs <;> exact hstep

/-- **All calls of `do_step`**, step by step. -/
theorem doSteps_spec {steps : List (StepView ν)} (henv : env.TransitionsFit)
    (hst : env.Settled st) (hsteps : ∀ step ∈ steps, StepBelow st.cnf.noVariables step) :
    ∃ vecs logs, env.RunDone (steps.flatMap env.roundsOf) st (steps.foldl env.doStep st)
      vecs logs := by
  induction steps generalizing st with
  | nil => exact ⟨[], [], RunDone.refl hst⟩
  | cons step rest ih =>
      obtain ⟨vecs, logs, hstep⟩ := doStep_spec henv hst (hsteps step List.mem_cons_self)
      obtain ⟨vecs', logs', hrest⟩ := ih hstep.settled fun s hs =>
        (hsteps s (List.mem_cons_of_mem _ hs)).mono hstep.chooses.le
      refine ⟨_, _, hstep.append hst ?_ hrest⟩
      intro r hr
      obtain ⟨s, hs, hr⟩ := List.mem_flatMap.mp hr
      rw [roundStep_of_mem hr]
      exact hsteps s (List.mem_cons_of_mem _ hs)

/-- The literals of the final states. -/
theorem addFinals_spec {finals : List TaState} (hst : env.Settled st)
    (hfinals : ∀ s ∈ finals, s < 2 ^ env.width) :
    Defines st.cnf (env.addFinals finals st).2.cnf ∧
      (env.addFinals finals st).2.recorded = st.recorded ∧
      (∀ l ∈ (env.addFinals finals st).1,
        l.Below (env.addFinals finals st).2.cnf.noVariables) ∧
      ∀ v, (env.addFinals finals st).2.cnf.Models v →
        (env.addFinals finals st).1.any (Literal.eval v) =
          decide (bvValue v st.prevState ∈ finals) := by
  induction finals generalizing st with
  | nil => exact ⟨Defines.refl _, rfl, by simp [addFinals], by simp [addFinals]⟩
  | cons s rest ih =>
      have hspec := makeEquals_spec hst.vector hst.cache (hfinals s List.mem_cons_self)
      rcases hm : env.makeEquals st.prevEqCache st.prevState s st.cnf with ⟨eq, cache, cnf⟩
      rw [hm] at hspec
      obtain ⟨hnames, hcache⟩ := hspec
      have hgrows := hnames.defines.grows
      have hst' : env.Settled { st with cnf := cnf, prevEqCache := cache } :=
        ⟨hst.vector.grows hgrows, hcache, hst.nextCache,
          fun v hv => hst.reached v (hgrows.sound v hv)⟩
      obtain ⟨hdefines, hrecorded, hbelow, heval⟩ := ih hst' fun t ht =>
        hfinals t (List.mem_cons_of_mem _ ht)
      simp only [addFinals, hm]
      refine ⟨hnames.defines.trans hdefines, hrecorded, ?_, ?_⟩
      · intro l hl
        rcases List.mem_cons.mp hl with rfl | hl
        · exact hnames.below.mono hdefines.le
        · exact hbelow l hl
      · intro v hv
        rw [List.any_cons, heval v hv, hnames.eval v (hdefines.sound v hv)]
        simp

/-! ## Steps instead of rounds -/

section Follows

variable (env) {σ τ : Type} (takes : List Int → σ → σ → Prop) (v : Assignment)

/-- The round of a step after those of its node. -/
def lastRound (step : StepView ν) : Round ν :=
  if env.maps.edgeEntry step.pc = [] then .leave step else .edges step

/-- What a step does to the automaton: any number of transitions at the node while the guard
holds, and then what the outgoing edges ask for. -/
def Advances (step : StepView ν) (s t : σ) : Prop :=
  ∃ m, Relation.ReflTransGen
      (fun a b => step.guard.eval v = true ∧ takes (env.nodeGraphs step.pc) a b) s m ∧
    env.MovesBy takes v (env.lastRound step) m t

/-- The automaton follows the execution over the steps. -/
def Follows : List (StepView ν) → σ → σ → Prop
  | [], s, t => s = t
  | step :: rest, s, t => ∃ m, env.Advances takes v step s m ∧ Follows rest m t

variable {env takes v}

/-- Only states that are sources can be left at a node. -/
theorem mem_sources {gs : List Int} {s t : TaState} (h : env.Takes gs s t) :
    s ∈ env.sources gs := by
  obtain ⟨m, hm, rfl, -⟩ := mem_moves.mpr h
  exact SortedSet.mem_insertAll.mpr (Or.inl (List.mem_map_of_mem hm))

/-- The sources are listed once each. -/
theorem card_sources (gs : List Int) :
    (env.sources gs).toList.toFinset.card = (env.sources gs).toList.length :=
  List.toFinset_card_of_nodup ((env.sources gs).sorted.imp ne_of_lt)

/-- The rounds of a node are as many steps as its graphs allow. -/
theorem runBy_nodes {step : StepView ν} {n : Nat} {s t : TaState} :
    (∃ ts, env.RunBy env.Takes v (List.replicate n (.node step)) s ts ∧ ts.getLastD s = t) ↔
      Rounds (fun a b => step.guard.eval v = true ∧ env.Takes (env.nodeGraphs step.pc) a b) n s t := by
  induction n generalizing s with
  | zero => simp [RunBy, Rounds]
  | succ n ih =>
      simp only [List.replicate_succ, RunBy, Rounds, ← ih]
      constructor
      · rintro ⟨_, ⟨m, ts, rfl, hmove, hrun⟩, hlast⟩
        rw [List.getLastD_cons] at hlast
        exact ⟨m, node_moves_iff.mp hmove, ts, hrun, hlast⟩
      · rintro ⟨m, hmove, ts, hrun, hlast⟩
        refine ⟨m :: ts, ⟨m, ts, rfl, node_moves_iff.mpr hmove, hrun⟩, ?_⟩
        rwa [List.getLastD_cons]

/-- **The rounds of a step suffice.** -/
theorem runBy_roundsOf {step : StepView ν} {s t : TaState} :
    (∃ ts, env.RunBy env.Takes v (env.roundsOf step) s ts ∧ ts.getLastD s = t) ↔
      env.Advances env.Takes v step s t := by
  have hrounds : ∀ m, Relation.ReflTransGen
      (fun a b => step.guard.eval v = true ∧ env.Takes (env.nodeGraphs step.pc) a b) s m ↔
      ∃ ts, env.RunBy env.Takes v
        (List.replicate (env.sources (env.nodeGraphs step.pc)).toList.length (.node step)) s ts ∧
          ts.getLastD s = m := by
    intro m
    rw [runBy_nodes, ← card_sources]
    refine (rounds_iff ?_).symm
    intro a b hab
    exact List.mem_toFinset.mpr (mem_sources hab.2)
  simp only [Advances, hrounds, roundsOf, runBy_append, runBy_singleton]
  constructor
  · rintro ⟨_, ⟨ts₁, _, rfl, h₁, t', rfl, hmove⟩, hlast⟩
    rw [List.getLastD_concat] at hlast
    subst hlast
    exact ⟨_, ⟨ts₁, h₁, rfl⟩, hmove⟩
  · rintro ⟨m, ⟨ts₁, h₁, rfl⟩, hmove⟩
    exact ⟨_, ⟨ts₁, _, rfl, h₁, t, rfl, hmove⟩, List.getLastD_concat⟩

/-- The rounds of all steps are a way to follow the execution. -/
theorem runBy_steps {steps : List (StepView ν)} {s t : TaState} :
    (∃ ts, env.RunBy env.Takes v (steps.flatMap env.roundsOf) s ts ∧ ts.getLastD s = t) ↔
      env.Follows env.Takes v steps s t := by
  induction steps generalizing s with
  | nil => simp [RunBy, Follows]
  | cons step rest ih =>
      simp only [List.flatMap_cons, runBy_append, Follows, ← runBy_roundsOf, ← ih]
      constructor
      · rintro ⟨_, ⟨ts₁, ts₂, rfl, h₁, h₂⟩, hlast⟩
        refine ⟨_, ⟨ts₁, h₁, rfl⟩, ts₂, h₂, ?_⟩
        rw [← hlast, getLastD_append]
      · rintro ⟨_, ⟨ts₁, h₁, rfl⟩, ts₂, h₂, rfl⟩
        exact ⟨_, ⟨ts₁, ts₂, rfl, h₁, h₂⟩, getLastD_append _ _ _⟩

/-! ## Numbered states -/

/-- The states of `live` are numbered by `f`, and moved as their numbers are. -/
structure Numbering (takes : List Int → σ → σ → Prop) (takes' : List Int → τ → τ → Prop)
    (f : σ → τ) (live : σ → Prop) : Prop where
  inj : ∀ s t, live s → live t → f s = f t → s = t
  closed : ∀ gs s t, live s → takes gs s t → live t
  takes_iff : ∀ gs s u, live s → (takes' gs (f s) u ↔ ∃ t, u = f t ∧ takes gs s t)

variable {takes' : List Int → τ → τ → Prop} {f : σ → τ} {live : σ → Prop} {s t : σ} {u : τ}

namespace Numbering

/-- Moves stay among live states. -/
theorem movesBy_closed (h : Numbering takes takes' f live) (hs : live s) {r : Round ν}
    (hmoves : env.MovesBy takes v r s t) : live t := by
  obtain ⟨-, hexits, hstay⟩ := hmoves
  rcases hstay with ⟨e, he, hpasses⟩ | rfl
  · rcases hexits e he hpasses with htakes | ⟨-, rfl⟩
    · exact h.closed _ s t hs htakes
    · exact hs
  · exact hs

/-- A move by numbers is a move by states. -/
theorem movesBy_iff (h : Numbering takes takes' f live) (hs : live s) (r : Round ν) :
    env.MovesBy takes' v r (f s) u ↔ ∃ t, u = f t ∧ env.MovesBy takes v r s t := by
  constructor
  · rintro ⟨hblocked, hexits, hstay⟩
    have hstate : ∃ t, live t ∧ u = f t := by
      rcases hstay with ⟨e, he, hpasses⟩ | rfl
      · rcases hexits e he hpasses with hnumber | ⟨-, rfl⟩
        · obtain ⟨t, hu, htakes⟩ := (h.takes_iff _ _ _ hs).mp hnumber
          exact ⟨t, h.closed _ s t hs htakes, hu⟩
        · exact ⟨s, hs, rfl⟩
      · exact ⟨s, hs, rfl⟩
    obtain ⟨t, ht, rfl⟩ := hstate
    refine ⟨t, rfl, hblocked, ?_, hstay.imp_right (h.inj t s ht hs)⟩
    intro e he hpasses
    rcases hexits e he hpasses with htakes | ⟨hmay, heq⟩
    · obtain ⟨t', heq, htakes⟩ := (h.takes_iff _ _ _ hs).mp htakes
      rw [h.inj t t' ht (h.closed _ s t' hs htakes) heq]
      exact Or.inl htakes
    · exact Or.inr ⟨hmay, h.inj t s ht hs heq⟩
  · rintro ⟨t, rfl, hblocked, hexits, hstay⟩
    refine ⟨hblocked, ?_, hstay.imp_right (congrArg f)⟩
    intro e he hpasses
    rcases hexits e he hpasses with htakes | ⟨hmay, rfl⟩
    · exact Or.inl ((h.takes_iff _ _ _ hs).mpr ⟨t, rfl, htakes⟩)
    · exact Or.inr ⟨hmay, rfl⟩

/-- Paths stay among live states. -/
theorem path_closed (h : Numbering takes takes' f live) (hs : live s) {P : Prop} {gs : List Int}
    (hpath : Relation.ReflTransGen (fun a b => P ∧ takes gs a b) s t) : live t := by
  induction hpath with
  | refl => exact hs
  | tail _ hstep ih => exact h.closed _ _ _ ih hstep.2

/-- A path by numbers is a path by states. -/
theorem path_iff (h : Numbering takes takes' f live) (hs : live s) {P : Prop} {gs : List Int} :
    Relation.ReflTransGen (fun a b => P ∧ takes' gs a b) (f s) u ↔
      ∃ t, live t ∧ u = f t ∧ Relation.ReflTransGen (fun a b => P ∧ takes gs a b) s t := by
  constructor
  · intro hpath
    induction hpath with
    | refl => exact ⟨s, hs, rfl, Relation.ReflTransGen.refl⟩
    | tail _ hstep ih =>
        obtain ⟨t, ht, rfl, hpath⟩ := ih
        obtain ⟨t', rfl, htakes⟩ := (h.takes_iff _ _ _ ht).mp hstep.2
        exact ⟨t', h.closed _ t t' ht htakes, rfl, hpath.tail ⟨hstep.1, htakes⟩⟩
  · rintro ⟨t, -, rfl, hpath⟩
    induction hpath using Relation.ReflTransGen.head_induction_on with
    | refl => exact Relation.ReflTransGen.refl
    | head hstep _ ih =>
        exact (ih (h.closed _ _ _ hs hstep.2)).head
          ⟨hstep.1, (h.takes_iff _ _ _ hs).mpr ⟨_, rfl, hstep.2⟩⟩

/-- A step stays among live states. -/
theorem advances_closed (h : Numbering takes takes' f live) (hs : live s) {step : StepView ν}
    (hstep : env.Advances takes v step s t) : live t := by
  obtain ⟨m, hpath, hmoves⟩ := hstep
  exact h.movesBy_closed (h.path_closed hs hpath) hmoves

/-- A step by numbers is a step by states. -/
theorem advances_iff (h : Numbering takes takes' f live) (hs : live s) {step : StepView ν} :
    env.Advances takes' v step (f s) u ↔ ∃ t, u = f t ∧ env.Advances takes v step s t := by
  constructor
  · rintro ⟨_, hnumbers, hlast⟩
    obtain ⟨m, hm, rfl, hpath⟩ := (h.path_iff hs).mp hnumbers
    obtain ⟨t, hu, hmoves⟩ := (h.movesBy_iff hm _).mp hlast
    exact ⟨t, hu, m, hpath, hmoves⟩
  · rintro ⟨t, rfl, m, hpath, hmoves⟩
    have hm := h.path_closed hs hpath
    exact ⟨f m, (h.path_iff hs).mpr ⟨m, hm, rfl, hpath⟩,
      (h.movesBy_iff hm _).mpr ⟨t, rfl, hmoves⟩⟩

/-- Following an execution stays among live states. -/
theorem follows_closed (h : Numbering takes takes' f live) (hs : live s)
    {steps : List (StepView ν)} (hsteps : env.Follows takes v steps s t) : live t := by
  induction steps generalizing s with
  | nil => exact hsteps ▸ hs
  | cons step rest ih =>
      obtain ⟨m, hstep, hrest⟩ := hsteps
      exact ih (h.advances_closed hs hstep) hrest

/-- Following by numbers is following by states. -/
theorem follows_iff (h : Numbering takes takes' f live) (hs : live s)
    {steps : List (StepView ν)} :
    env.Follows takes' v steps (f s) u ↔ ∃ t, u = f t ∧ env.Follows takes v steps s t := by
  induction steps generalizing s with
  | nil => simp [Follows, eq_comm]
  | cons step rest ih =>
      simp only [Follows, h.advances_iff hs]
      constructor
      · rintro ⟨_, ⟨m, rfl, hstep⟩, hnumbers⟩
        obtain ⟨t, hu, hrest⟩ := (ih (h.advances_closed hs hstep)).mp hnumbers
        exact ⟨t, hu, m, hstep, hrest⟩
      · rintro ⟨t, rfl, m, hstep, hrest⟩
        exact ⟨f m, ⟨m, rfl, hstep⟩,
          (ih (h.advances_closed hs hstep)).mpr ⟨t, rfl, hrest⟩⟩

end Numbering

end Follows

end Encoder

/-! ## The numbers of an automaton -/

/-- The width is enough for the number. -/
theorem lt_two_pow_halvings (n : Nat) : n < 2 ^ (1 + halvings n) := by
  induction n using Nat.strong_induction_on with
  | _ n ih =>
      rw [halvings]
      split_ifs with hzero
      · omega
      · have hhalf := ih (n / 2) (by omega)
        rw [← Nat.add_assoc, Nat.pow_succ]
        omega

namespace TraceAutomaton

variable {aut : TraceAutomaton} {s t : TaState}

/-- The numbers of states are within the width. -/
theorem compactNumber_lt (hs : s ∈ aut.states) : aut.compactNumber s < 2 ^ aut.width :=
  lt_trans (List.idxOf_lt_length_iff.mpr hs) (lt_two_pow_halvings _)

/-- The reverse map finds the state. -/
theorem reverseNumber_compactNumber (hs : s ∈ aut.states) :
    aut.reverseNumber (aut.compactNumber s) = s := by
  have hlt := List.idxOf_lt_length_iff.mpr hs
  rw [reverseNumber, compactNumber, List.getD_eq_getElem _ _ hlt, List.getElem_idxOf hlt]

/-- Two states have two numbers. -/
theorem compactNumber_inj (hs : s ∈ aut.states) (ht : t ∈ aut.states)
    (h : aut.compactNumber s = aut.compactNumber t) : s = t := by
  rw [← reverseNumber_compactNumber hs, h, reverseNumber_compactNumber ht]

/-- The final numbers are those of the final states. -/
theorem mem_compactFinals {i : TaState} :
    i ∈ aut.compactFinals ↔ ∃ t ∈ aut.finals, i = aut.compactNumber t := by
  rw [compactFinals, SortedSet.mem_insertAll, List.mem_map]
  constructor
  · intro h
    obtain ⟨t, ht, rfl⟩ := h.resolve_right SortedSet.notMem_empty
    exact ⟨t, isFinal_iff _ |>.mp (List.mem_filter.mp ht).2, rfl⟩
  · rintro ⟨t, ht, rfl⟩
    exact Or.inl ⟨t, List.mem_filter.mpr ⟨aut.finals_live t ht, (isFinal_iff _).mpr ht⟩, rfl⟩

/-- The walk over the states sees every transition. -/
theorem mem_outEdges {e : TaState × Int × TaState} : e ∈ aut.outEdges ↔ e ∈ aut.trans := by
  obtain ⟨s, l, t⟩ := e
  simp only [outEdges, List.mem_flatMap, List.mem_map]
  constructor
  · rintro ⟨s', -, ⟨l', t'⟩, he, heq⟩
    cases heq
    exact (mem_delta2 aut).mp he
  · intro he
    exact ⟨s, (aut.trans_live _ he).1, (l, t), (mem_delta2 aut).mpr he, rfl⟩

/-- One of the target graphs moves the automaton. -/
def Takes (aut : TraceAutomaton) (gs : List Int) (s t : TaState) : Prop :=
  ∃ g ∈ gs, aut.delta s g t

/-- The automaton has a transition on the target graph. -/
def IsLabel (aut : TraceAutomaton) (g : Int) : Prop := ∃ s t, aut.delta s g t

end TraceAutomaton

/-- The transitions by numbers are those of the automaton. -/
theorem mem_compactTransitions {aut : TraceAutomaton} {g : Int} {i u : TaState} :
    u ∈ (compactTransitions aut).get (toLex (g, i)) ↔
      ∃ s t, i = aut.compactNumber s ∧ u = aut.compactNumber t ∧ aut.delta s g t := by
  have hfold : ∀ (es : List (TaState × Int × TaState)) (m : TransitionMap),
      u ∈ (es.foldl (fun transitions e => transitions.insert (toLex (e.2.1, aut.compactNumber e.1))
          (aut.compactNumber e.2.2)) m).get (toLex (g, i)) ↔
        (∃ e ∈ es, e.2.1 = g ∧ i = aut.compactNumber e.1 ∧ u = aut.compactNumber e.2.2) ∨
          u ∈ m.get (toLex (g, i)) := by
    intro es
    induction es with
    | nil => simp
    | cons e es ih =>
        intro m
        rw [List.foldl_cons, ih, SetMap.mem_get_insert, toLex_inj, Prod.mk.injEq]
        simp only [List.exists_mem_cons_iff]
        grind
  rw [compactTransitions, hfold]
  simp only [SetMap.notMem_get_empty, or_false, TraceAutomaton.mem_outEdges]
  constructor
  · rintro ⟨⟨s, l, t⟩, he, rfl, hi, hu⟩
    exact ⟨s, t, hi, hu, he⟩
  · rintro ⟨s, t, hi, hu, he⟩
    exact ⟨(s, g, t), he, rfl, hi, hu⟩

/-! ## The target graphs of a location -/

section Maps

variable {ν : Type} [LinearOrder ν] {lookupIndex : Int → TargetGraph ν} {aut : TraceAutomaton}
  {maps : LocMaps ν} {g g' : Int} {n : ν} {e : ν ×ₗ ν}

/-- A graph is stored at its nodes. -/
theorem LocMaps.mem_store_nodes {tgg : TargetGraph ν} :
    g' ∈ (maps.store g tgg).nodes.get n ↔
      (n ∈ tgg.disconnectedNodes ∧ g' = g) ∨ g' ∈ maps.nodes.get n :=
  SetMap.mem_get_foldl_insert

/-- A graph is stored at its edges. -/
theorem LocMaps.mem_store_edges {tgg : TargetGraph ν} :
    g' ∈ (maps.store g tgg).edges.get e ↔
      (ofLex e ∈ tgg.edges ∧ g' = g) ∨ g' ∈ maps.edges.get e := by
  have hmem : e ∈ tgg.edges.map toLex ↔ ofLex e ∈ tgg.edges := by
    rw [List.mem_map]
    constructor
    · rintro ⟨p, hp, rfl⟩
      exact hp
    · intro h
      exact ⟨ofLex e, h, rfl⟩
  rw [← hmem]
  exact SetMap.mem_get_foldl_insert

variable (lookupIndex maps) in
/-- The graphs of the labels `P` have been added to the maps. -/
structure GraphsCollected (P : Int → Prop) (acc : SortedSet Int × LocMaps ν) : Prop where
  labels : ∀ g, g ∈ acc.1 ↔ P g
  nodes : ∀ g n, g ∈ acc.2.nodes.get n ↔
    (P g ∧ n ∈ (lookupIndex g).disconnectedNodes) ∨ g ∈ maps.nodes.get n
  edges : ∀ g e, g ∈ acc.2.edges.get e ↔
    (P g ∧ ofLex e ∈ (lookupIndex g).edges) ∨ g ∈ maps.edges.get e

/-- The same graphs, described otherwise. -/
theorem GraphsCollected.congr {P Q : Int → Prop} {acc : SortedSet Int × LocMaps ν}
    (h : GraphsCollected lookupIndex maps P acc) (hPQ : ∀ g, P g ↔ Q g) :
    GraphsCollected lookupIndex maps Q acc where
  labels := fun g => by rw [h.labels, hPQ]
  nodes := fun g n => by rw [h.nodes, hPQ]
  edges := fun g e => by rw [h.edges, hPQ]

/-- A label is met. -/
theorem GraphsCollected.insert {P : Int → Prop} {acc : SortedSet Int × LocMaps ν}
    (h : GraphsCollected lookupIndex maps P acc) (x : Int) :
    GraphsCollected lookupIndex maps (fun g => P g ∨ x = g)
      (if x ∈ acc.1 then acc else (acc.1.insert x, acc.2.store x (lookupIndex x))) := by
  split_ifs with hin
  · apply h.congr
    intro g
    refine ⟨Or.inl, ?_⟩
    rintro (hg | rfl)
    · exact hg
    · exact (h.labels _).mp hin
  · constructor
    · intro g
      rw [SortedSet.mem_insert, h.labels]
      grind
    · intro g n
      rw [LocMaps.mem_store_nodes, h.nodes]
      grind
    · intro g e
      rw [LocMaps.mem_store_edges, h.edges]
      grind

/-- The loop over the transitions collects their graphs. -/
theorem GraphsCollected.foldl {P : Int → Prop} {acc : SortedSet Int × LocMaps ν}
    (h : GraphsCollected lookupIndex maps P acc) (es : List (TaState × Int × TaState)) :
    GraphsCollected lookupIndex maps (fun g => P g ∨ ∃ e ∈ es, e.2.1 = g)
      (es.foldl (fun acc e => if e.2.1 ∈ acc.1 then acc
        else (acc.1.insert e.2.1, acc.2.store e.2.1 (lookupIndex e.2.1))) acc) := by
  induction es generalizing P acc with
  | nil => exact h.congr fun g => by simp
  | cons x es ih =>
      rw [List.foldl_cons]
      apply (ih (h.insert x.2.1)).congr
      intro g
      rw [List.exists_mem_cons_iff, or_assoc]

/-- The graphs stored are those of the labels. -/
theorem collectGraphs_spec (lookupIndex : Int → TargetGraph ν) (aut : TraceAutomaton)
    (maps : LocMaps ν) :
    GraphsCollected lookupIndex maps aut.IsLabel (collectGraphs lookupIndex aut maps) := by
  have hstart : GraphsCollected lookupIndex maps (fun _ => False) (SortedSet.empty, maps) :=
    ⟨by simp, by simp, by simp⟩
  apply (hstart.foldl aut.outEdges).congr
  intro g
  simp only [false_or, TraceAutomaton.mem_outEdges]
  constructor
  · rintro ⟨⟨s, l, t⟩, he, rfl⟩
    exact ⟨s, t, he⟩
  · rintro ⟨s, t, he⟩
    exact ⟨(s, g, t), he, rfl⟩

/-- Nothing but what `lookup_index` says is in the maps. -/
structure LocMaps.Consistent (maps : LocMaps ν) (lookupIndex : Int → TargetGraph ν) : Prop where
  nodes : ∀ g n, g ∈ maps.nodes.get n → n ∈ (lookupIndex g).disconnectedNodes
  edges : ∀ g e, g ∈ maps.edges.get e → ofLex e ∈ (lookupIndex g).edges

/-- Empty maps are consistent. -/
theorem LocMaps.consistent_empty : (LocMaps.empty : LocMaps ν).Consistent lookupIndex :=
  ⟨by simp [LocMaps.empty], by simp [LocMaps.empty]⟩

/-- `build` keeps the maps consistent, so that it can be called again. -/
theorem LocMaps.Consistent.collect (h : maps.Consistent lookupIndex) :
    (collectGraphs lookupIndex aut maps).2.Consistent lookupIndex := by
  have hgraphs := collectGraphs_spec lookupIndex aut maps
  constructor
  · intro g n hg
    rcases (hgraphs.nodes g n).mp hg with hg | hg
    · exact hg.2
    · exact h.nodes g n hg
  · intro g e hg
    rcases (hgraphs.edges g e).mp hg with hg | hg
    · exact hg.2
    · exact h.edges g e hg

end Maps

namespace BuildSetting

variable {ν : Type} [LinearOrder ν] {setting : BuildSetting ν} {aut : TraceAutomaton}
  {mapTg : Bool} {maps : LocMaps ν} {s : TaState} {members : BuildMembers ν}
  {steps : List (StepView ν)} {v : Assignment}

/-- The graphs of a node are the labels that have it. -/
theorem mem_nodeGraphs (hmaps : maps.Consistent setting.lookupIndex) {pc : ν} {g : Int} :
    g ∈ (setting.encoder aut mapTg maps).nodeGraphs pc ↔
      aut.IsLabel g ∧ pc ∈ (setting.lookupIndex g).disconnectedNodes := by
  have hgraphs := collectGraphs_spec setting.lookupIndex aut maps
  have hmem : g ∈ (setting.encoder aut mapTg maps).nodeGraphs pc ↔
      g ∈ (collectGraphs setting.lookupIndex aut maps).2.nodes.get pc ∧
        g ∈ (collectGraphs setting.lookupIndex aut maps).1 := SortedSet.mem_inter
  rw [hmem, hgraphs.nodes, hgraphs.labels]
  have hold := hmaps.nodes g pc
  tauto

/-- The graphs of an edge are the labels that have it. -/
theorem mem_edgeGraphs (hmaps : maps.Consistent setting.lookupIndex) {e : ν ×ₗ ν} {g : Int} :
    g ∈ (setting.encoder aut mapTg maps).edgeGraphs e ↔
      aut.IsLabel g ∧ ofLex e ∈ (setting.lookupIndex g).edges := by
  have hgraphs := collectGraphs_spec setting.lookupIndex aut maps
  have hmem : g ∈ (setting.encoder aut mapTg maps).edgeGraphs e ↔
      g ∈ (collectGraphs setting.lookupIndex aut maps).2.edges.get e ∧
        g ∈ (collectGraphs setting.lookupIndex aut maps).1 := SortedSet.mem_inter
  rw [hmem, hgraphs.edges, hgraphs.labels]
  have hold := hmaps.edges g e
  tauto

/-- The entry of a location has the edges of the labels, and those stored before. -/
theorem mem_edgeEntry {pc : ν} {e : ν ×ₗ ν} :
    e ∈ (setting.encoder aut mapTg maps).maps.edgeEntry pc ↔
      (ofLex e).1 = pc ∧ ((∃ g, aut.IsLabel g ∧ ofLex e ∈ (setting.lookupIndex g).edges) ∨
        e ∈ maps.edges.keys) := by
  have hgraphs := collectGraphs_spec setting.lookupIndex aut maps
  have hkeys : e ∈ (collectGraphs setting.lookupIndex aut maps).2.edges.keys ↔
      (∃ g, aut.IsLabel g ∧ ofLex e ∈ (setting.lookupIndex g).edges) ∨ e ∈ maps.edges.keys := by
    rw [SetMap.mem_keys, SetMap.mem_keys]
    simp only [hgraphs.edges, exists_or]
  rw [← hkeys, LocMaps.edgeEntry, List.mem_filter, decide_eq_true_eq, SortedSet.mem_toList,
    and_comm]
  exact Iff.rfl

/-- The transitions of an encoder have numbers of the width. -/
theorem transitionsFit : (setting.encoder aut mapTg maps).TransitionsFit := by
  intro g i u hu
  obtain ⟨s, t, rfl, rfl, hdelta⟩ := mem_compactTransitions.mp hu
  have hlive := aut.trans_live _ hdelta
  exact ⟨TraceAutomaton.compactNumber_lt hlive.1, TraceAutomaton.compactNumber_lt hlive.2⟩

variable (setting aut mapTg maps) in
/-- The numbered automaton is the automaton. -/
theorem numbering : Encoder.Numbering aut.Takes (setting.encoder aut mapTg maps).Takes
    aut.compactNumber (· ∈ aut.states) where
  inj := fun s t hs ht => TraceAutomaton.compactNumber_inj hs ht
  closed := by
    rintro gs s t - ⟨g, -, hdelta⟩
    exact (aut.trans_live _ hdelta).2
  takes_iff := by
    intro gs s u hs
    constructor
    · rintro ⟨g, hg, hu⟩
      obtain ⟨s', t, heq, rfl, hdelta⟩ := mem_compactTransitions.mp hu
      rw [TraceAutomaton.compactNumber_inj hs (aut.trans_live _ hdelta).1 heq]
      exact ⟨t, rfl, g, hg, hdelta⟩
    · rintro ⟨t, rfl, g, hg, hdelta⟩
      exact ⟨g, hg, mem_compactTransitions.mpr ⟨s, t, rfl, rfl, hdelta⟩⟩

variable (setting mapTg members) in
/-- The encoding starts settled. -/
theorem settled_startEncoding (hs : s ∈ aut.states) :
    (setting.encoder aut mapTg members.maps).Settled (startEncoding aut s members) where
  vector := ⟨length_buildConstant _ _, below_buildConstant⟩
  cache := by simp [startEncoding, Encoder.CacheOk]
  nextCache := rfl
  reached := by
    intro v _
    show bvValue v (buildConstant (aut.compactNumber s) aut.width) ∈ _
    rw [bvValue_buildConstant (TraceAutomaton.compactNumber_lt hs)]
    exact SortedSet.mem_insert.mpr (Or.inl rfl)

variable (setting mapTg) in
/-- **What `build` encodes.**  The vectors that it adds denote a run of the numbered
automaton to a final state, and what is written down is the log of its rounds. -/
theorem encode_spec (hs : s ∈ aut.states)
    (hsteps : ∀ step ∈ steps, Encoder.StepBelow members.cnf.noVariables step) :
    let env := setting.encoder aut mapTg members.maps
    let out := setting.encode aut mapTg s steps members
    ∃ vecs logs,
      members.cnf.Chooses
        (fun v ns => env.RunBy env.Takes v (steps.flatMap env.roundsOf) (aut.compactNumber s) ns ∧
          ns.getLastD (aut.compactNumber s) ∈ aut.compactFinals) vecs out.cnf ∧
      out.recorded = logs.flatten.foldl env.add members.recorded ∧
      env.History out.cnf (startEncoding aut s members).prevState (steps.flatMap env.roundsOf)
        vecs logs := by
  intro env out
  have hstart := settled_startEncoding setting mapTg members hs
  have hvalue : ∀ v, bvValue v (startEncoding aut s members).prevState = aut.compactNumber s :=
    fun v => bvValue_buildConstant (TraceAutomaton.compactNumber_lt hs)
  obtain ⟨vecs, logs, hrun⟩ := Encoder.doSteps_spec transitionsFit hstart hsteps
  have hfinals : ∀ i ∈ aut.compactFinals.toList, i < 2 ^ aut.width := by
    intro i hi
    obtain ⟨t, ht, rfl⟩ := TraceAutomaton.mem_compactFinals.mp hi
    exact TraceAutomaton.compactNumber_lt (aut.finals_live t ht)
  obtain ⟨hdefines, hrecorded, hbelow, heval⟩ := Encoder.addFinals_spec hrun.settled hfinals
  have hany := lorVector_names hbelow
  refine ⟨vecs, logs, ?_, hrecorded.trans hrun.recorded,
    hrun.history.grows ((hdefines.trans hany.defines).grows.trans (lcnf_grows _ _))⟩
  refine ((hrun.chooses.defines (hdefines.trans hany.defines)).lcnf hany.below
    (S := fun _ ns => ns.getLastD (aut.compactNumber s) ∈ aut.compactFinals) ?_ ?_).congr ?_
  · exact fun _ _ _ _ h => h
  · intro v hv
    rw [hany.eval v hv, heval v (hany.defines.sound v hv), decide_eq_true_eq, hrun.prevState,
      ← Encoder.getLastD_map (bvValue v), hvalue]
    exact Iff.rfl
  · intro v ns
    rw [hvalue]

variable (mapTg members) in
/-- **Correctness of the encoding.**  An execution extends to a model of the clauses of
`build` exactly when the automaton can follow it to a final state. -/
theorem encode_models_iff (hs : s ∈ aut.states) (hcnf : members.cnf.Bounded)
    (hsteps : ∀ step ∈ steps, Encoder.StepBelow members.cnf.noVariables step)
    (hv : members.cnf.Models v) :
    (∃ w, AgreeBelow members.cnf.noVariables v w ∧
        (setting.encode aut mapTg s steps members).cnf.Models w) ↔
      ∃ t ∈ aut.finals,
        (setting.encoder aut mapTg members.maps).Follows aut.Takes v steps s t := by
  obtain ⟨vecs, logs, hchooses, -, -⟩ := encode_spec setting mapTg hs hsteps
  have hsteps' : ∀ r ∈ steps.flatMap (setting.encoder aut mapTg members.maps).roundsOf,
      Encoder.StepBelow members.cnf.noVariables (Encoder.roundStep r) := by
    intro r hr
    obtain ⟨step, hstep, hr⟩ := List.mem_flatMap.mp hr
    rw [Encoder.roundStep_of_mem hr]
    exact hsteps step hstep
  have hnumbers : ∀ u, (∃ ns,
      (setting.encoder aut mapTg members.maps).RunBy
        (setting.encoder aut mapTg members.maps).Takes v
        (steps.flatMap (setting.encoder aut mapTg members.maps).roundsOf) (aut.compactNumber s) ns ∧
      ns.getLastD (aut.compactNumber s) = u) ↔
      ∃ t, u = aut.compactNumber t ∧
        (setting.encoder aut mapTg members.maps).Follows aut.Takes v steps s t := fun u =>
    Encoder.runBy_steps.trans ((numbering setting aut mapTg members.maps).follows_iff hs)
  constructor
  · rintro ⟨w, hvw, hw⟩
    obtain ⟨-, hrun, hfinal⟩ := hchooses.sound w hw
    obtain ⟨t, ht, heq⟩ := TraceAutomaton.mem_compactFinals.mp hfinal
    obtain ⟨t', heq', hfollows⟩ := (hnumbers _).mp ⟨_, hrun.agree hsteps' hvw.symm, heq⟩
    have hlive := (numbering setting aut mapTg members.maps).follows_closed hs hfollows
    rw [TraceAutomaton.compactNumber_inj (aut.finals_live t ht) hlive heq'] at ht
    exact ⟨t', ht, hfollows⟩
  · rintro ⟨t, ht, hfollows⟩
    obtain ⟨ns, hrun, hlast⟩ := (hnumbers _).mpr ⟨t, rfl, hfollows⟩
    obtain ⟨w, hvw, hw, -⟩ := hchooses.complete hcnf v ns hv
      ⟨hrun, TraceAutomaton.mem_compactFinals.mpr ⟨t, ht, hlast⟩⟩
    exact ⟨w, hvw, hw⟩

/-! A program of one edge, from location 0 to location 1, with a goal in state 2. -/

/-- The plain assignment at location `n`. -/
def plainAssign (n : Nat) : Instruction := ⟨n, .assign, .none, "main", none, .isTrue, [], []⟩

def oneEdge : BuildSetting Nat where
  bvUtils := bitwiseEqual
  instruction := plainAssign
  isGotoEdge := fun _ => false
  lookupIndex := fun _ => ⟨[], [(0, 1)], [0]⟩
  isTestGoalState := fun s => s = 2

/-- The automaton that takes the edge. -/
def edgeAutomaton : TraceAutomaton where
  slots := 3
  states := [1, 2]
  initial := [1]
  finals := [2]
  trans := [(1, 0, 2)]
  states_nodup := by decide
  states_lt := by decide
  initial_live := by decide
  finals_live := by decide
  trans_live := by decide

/-- The execution of the edge. -/
def edgeStep : StepView Nat := ⟨0, 0, .const true, .const false⟩

/-- The step has constants only. -/
theorem edgeStep_below {n : Nat} : ∀ step ∈ [edgeStep], Encoder.StepBelow n step := by
  intro step hstep
  rw [List.mem_singleton.mp hstep]
  exact ⟨trivial, trivial⟩

end BuildSetting

end FShell
