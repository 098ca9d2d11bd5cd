import FShell.Evaluation.BooleanEncoding

/-!
# What one step adds to the encoding

Between two steps the bit vector `prev_state` denotes, in every model of the
clauses, a state that is among `possibly_reached_states`; that is why transitions
from other states can be left out.  A step adds one vector for every round: its
value is chosen, relative to that of the vector before, in the relation
`Encoder.Moves`.

**The log.**  What is written down for later is a sequence of additions, each with
the site of a transition, its ends and the goal literal.  The literal is true
exactly in the models in which the edge is taken and the vector after the round
denotes the destination.
-/

namespace FShell

namespace Cnf

/-- `d` has the variables and the clauses of `c`, up to definitions. -/
structure Grows (c d : Cnf) : Prop where
  le : c.noVariables ≤ d.noVariables
  sound : ∀ v, d.Models v → c.Models v

variable {c d e : Cnf}

/-- A formula grows by nothing. -/
theorem Grows.refl (c : Cnf) : Grows c c := ⟨Nat.le_refl _, fun _ h => h⟩

/-- Growing twice is growing. -/
theorem Grows.trans (hcd : Grows c d) (hde : Grows d e) : Grows c e :=
  ⟨hcd.le.trans hde.le, fun v h => hcd.sound v (hde.sound v h)⟩

/-- Definitions make a formula grow. -/
theorem Defines.grows (h : Defines c d) : Grows c d := ⟨h.le, h.sound⟩

/-- A choice makes a formula grow. -/
theorem Chooses.grows {R : Assignment → List Nat → Prop} {bvs : List (List Literal)}
    (h : c.Chooses R bvs d) : Grows c d :=
  ⟨h.le, fun v hv => (h.sound v hv).1⟩

/-- A clause makes a formula grow. -/
theorem lcnf_grows (c : Cnf) (bv : List Literal) : Grows c (c.lcnf bv) :=
  ⟨by rw [lcnf_noVariables], fun _ h => (lcnf_models.mp h).1⟩

end Cnf

open Cnf

/-! ## Rounds -/

/-- A vector is chosen: for the target graphs of a node, for those of the outgoing
edges, or not at all where the edges are in none. -/
inductive Round (ν : Type)
  | node (step : StepView ν)
  | edges (step : StepView ν)
  | leave (step : StepView ν)

/-- A transition that was written down, between compact state numbers. -/
structure Addition (ν : Type) where
  site : Site ν
  src : TaState
  dest : TaState
  tg : Option Literal

namespace Encoder

variable {ν : Type} [LinearOrder ν] (env : Encoder ν)

/-- The edges on which a round moves the automaton. -/
def exits : Round ν → List (ν ×ₗ ν)
  | .node step => [toLex (step.pc, step.pc)]
  | .edges step => env.maps.edgeEntry step.pc
  | .leave _ => []

/-- The target graphs of an edge in a round. -/
def graphs : Round ν → ν ×ₗ ν → List Int
  | .node step, _ => env.nodeGraphs step.pc
  | .edges _, e => env.edgeGraphs e
  | .leave _, _ => []

/-- The execution passes the node, or takes the edge. -/
def passes (v : Assignment) : Round ν → ν ×ₗ ν → Bool
  | .node step, _ => step.guard.eval v
  | .edges step, e => step.guard.eval v &&
      (edgeLiteral step (env.gotoEdge step.pc (env.maps.edgeEntry step.pc)) e).eval v
  | .leave _, _ => false

/-- The automaton need not move although the execution does. -/
def mayStay : Round ν → Bool
  | .node _ => true
  | .edges step => isInstrumented (env.instruction step.pc)
  | .leave _ => true

/-- The execution must not pass. -/
def blocked (v : Assignment) : Round ν → Bool
  | .node _ => false
  | .edges _ => false
  | .leave step => !isInstrumented (env.instruction step.pc) && step.guard.eval v

/-- One of the target graphs moves the automaton from `s` to `t`. -/
def Takes (gs : List Int) (s t : TaState) : Prop :=
  ∃ g ∈ gs, t ∈ env.transitions.get (toLex (g, s))

/-- What a round does to the state of an automaton that is moved by target graphs in the
relation `takes`. -/
def MovesBy {σ : Type} (takes : List Int → σ → σ → Prop) (v : Assignment) (r : Round ν)
    (s t : σ) : Prop :=
  env.blocked v r = false ∧
    (∀ e ∈ env.exits r, env.passes v r e = true →
      takes (env.graphs r e) s t ∨ (env.mayStay r = true ∧ t = s)) ∧
    ((∃ e ∈ env.exits r, env.passes v r e = true) ∨ t = s)

/-- States in which rounds leave the automaton, from `s` on. -/
def RunBy {σ : Type} (takes : List Int → σ → σ → Prop) (v : Assignment) :
    List (Round ν) → σ → List σ → Prop
  | [], _, ts => ts = []
  | r :: rs, s, ts => ∃ t ts', ts = t :: ts' ∧ env.MovesBy takes v r s t ∧ RunBy takes v rs t ts'

/-- The moves of the numbered automaton. -/
def Moves (v : Assignment) (r : Round ν) (s t : TaState) : Prop := env.MovesBy env.Takes v r s t

/-- The rounds of a step. -/
def roundsOf (step : StepView ν) : List (Round ν) :=
  List.replicate (env.sources (env.nodeGraphs step.pc)).toList.length (.node step) ++
    [if env.maps.edgeEntry step.pc = [] then .leave step else .edges step]

/-- An addition as it is written down. -/
def add (r : Recorded ν) (a : Addition ν) : Recorded ν :=
  let goal : EdgeGoal :=
    ⟨a.site.guard, a.tg, env.reverseNumber a.src, env.reverseNumber a.dest⟩
  match a.tg with
  | some l => (r.insertGoal (env.reverseNumber a.dest) a.site.edge l).insertTrans a.site goal
  | none => r.insertTrans a.site goal

/-! ## State vectors and their literals -/

/-- The literals of a cache tell the value of the vector. -/
def CacheOk (c : Cnf) (vec : List Literal) (cache : List (TaState × Literal)) : Prop :=
  ∀ p ∈ cache, p.2.Below c.noVariables ∧
    ∀ v, c.Models v → p.2.eval v = decide (bvValue v vec = p.1)

/-- A cache stays right when the formula grows. -/
theorem CacheOk.grows {c d : Cnf} {vec : List Literal} {cache : List (TaState × Literal)}
    (h : CacheOk c vec cache) (hcd : Grows c d) : CacheOk d vec cache := by
  intro p hp
  obtain ⟨hbelow, heval⟩ := h p hp
  exact ⟨hbelow.mono hcd.le, fun v hv => heval v (hcd.sound v hv)⟩

/-- A vector of the width of the encoding over the variables of `c`. -/
structure IsVector (c : Cnf) (vec : List Literal) : Prop where
  length : vec.length = env.width
  below : ∀ l ∈ vec, l.Below c.noVariables

/-- A vector stays one when the formula grows. -/
theorem IsVector.grows {env : Encoder ν} {c d : Cnf} {vec : List Literal}
    (h : env.IsVector c vec) (hcd : Grows c d) : env.IsVector d vec :=
  ⟨h.length, fun l hl => (h.below l hl).mono hcd.le⟩

/-- What the loops rely on while `next` is the vector of the round. -/
structure Ready (next : List Literal) (st : Encoding ν) : Prop where
  prevVector : env.IsVector st.cnf st.prevState
  prevCache : CacheOk st.cnf st.prevState st.prevEqCache
  nextVector : env.IsVector st.cnf next
  nextCache : CacheOk st.cnf next st.nextEqCache

/-- The clauses may grow, and other variables change. -/
theorem Ready.grows {env : Encoder ν} {next : List Literal} {st : Encoding ν} {d : Cnf}
    (h : env.Ready next st) (hd : Grows st.cnf d) (reached : SortedSet TaState)
    (recorded : Recorded ν) :
    env.Ready next
      { st with cnf := d, possiblyReached := reached, recorded := recorded } :=
  ⟨h.prevVector.grows hd, h.prevCache.grows hd, h.nextVector.grows hd, h.nextCache.grows hd⟩

variable {env}

/-- `equal` names the equality of two vectors. -/
theorem equal_names {c : Cnf} {a b : List Literal} (ha : env.IsVector c a)
    (hb : env.IsVector c b) :
    c.Names (fun v => bvValue v a = bvValue v b) (env.bvUtils.equal c a b) :=
  env.bvUtils.equal_names c a b (ha.length.trans hb.length.symm) ha.below hb.below

/-- `make_equals` gives a name to the equation and remembers it. -/
theorem makeEquals_spec {c : Cnf} {vec : List Literal} {cache : List (TaState × Literal)}
    {s : TaState} (hvec : env.IsVector c vec) (hcache : CacheOk c vec cache)
    (hs : s < 2 ^ env.width) :
    c.Names (fun v => bvValue v vec = s)
        ((env.makeEquals cache vec s c).1, (env.makeEquals cache vec s c).2.2) ∧
      CacheOk (env.makeEquals cache vec s c).2.2 vec (env.makeEquals cache vec s c).2.1 := by
  unfold makeEquals
  cases hlookup : cache.lookup s with
  | some l =>
      have hmem : (s, l) ∈ cache := by
        obtain ⟨before, after, rfl, -⟩ := List.lookup_eq_some_iff.mp hlookup
        simp
      obtain ⟨hbelow, heval⟩ := hcache (s, l) hmem
      exact ⟨⟨Defines.refl c, hbelow, heval⟩, hcache⟩
  | none =>
      have hconst : env.IsVector c (buildConstant s env.width) :=
        ⟨length_buildConstant s env.width, below_buildConstant⟩
      have hnames : c.Names (fun v => bvValue v vec = s)
          (env.bvUtils.equal c vec (buildConstant s env.width)) := by
        apply (equal_names hvec hconst).congr
        intro v
        rw [bvValue_buildConstant hs]
      refine ⟨hnames, ?_⟩
      intro p hp
      rcases List.mem_cons.mp hp with rfl | hp
      · exact ⟨hnames.below, hnames.eval⟩
      · exact hcache.grows hnames.defines.grows p hp

/-! ## Adding transitions -/

/-- The goal literal of an addition, in a round with the vector `next`. -/
structure GoalLiteral (c : Cnf) (next : List Literal) (a : Addition ν) : Prop where
  isSome : a.tg.isSome = env.isTestGoalState (env.reverseNumber a.dest)
  below : ∀ l ∈ a.tg, l.Below c.noVariables
  eval : ∀ l ∈ a.tg, ∀ v, c.Models v →
    l.eval v = (a.site.guard.eval v && decide (bvValue v next = a.dest))

/-- A goal literal keeps its meaning when the formula grows. -/
theorem GoalLiteral.grows {c d : Cnf} {next : List Literal} {a : Addition ν}
    (h : env.GoalLiteral c next a) (hcd : Grows c d) : env.GoalLiteral d next a :=
  ⟨h.isSome, fun l hl => (h.below l hl).mono hcd.le,
    fun l hl v hv => h.eval l hl v (hcd.sound v hv)⟩

variable (env) in
/-- What the loops that add transitions at a site have done. -/
structure Adds (site : Site ν) (next : List Literal) (P : TaState → TaState → Prop)
    (st st' : Encoding ν) (adds : List (Addition ν)) : Prop where
  defines : Defines st.cnf st'.cnf
  ready : env.Ready next st'
  prevState : st'.prevState = st.prevState
  reached : ∀ s, s ∈ st.possiblyReached → s ∈ st'.possiblyReached
  recorded : st'.recorded = adds.foldl env.add st.recorded
  goal : ∀ a ∈ adds, env.GoalLiteral st'.cnf next a
  site_eq : ∀ a ∈ adds, a.site = site
  moves : ∀ a ∈ adds, P a.src a.dest
  quiet : env.mapTg = false → adds = []

variable {site : Site ν} {next : List Literal} {P Q : TaState → TaState → Prop}
  {st st' st'' : Encoding ν} {adds adds' : List (Addition ν)}

/-- Definitions alone add no transition. -/
theorem Adds.of_defines (hready : env.Ready next st') (hdefines : Defines st.cnf st'.cnf)
    (hprev : st'.prevState = st.prevState)
    (hreached : ∀ s, s ∈ st.possiblyReached → s ∈ st'.possiblyReached)
    (hrecorded : st'.recorded = st.recorded) : env.Adds site next P st st' [] where
  defines := hdefines
  ready := hready
  prevState := hprev
  reached := hreached
  recorded := hrecorded
  goal := by simp
  site_eq := by simp
  moves := by simp
  quiet := fun _ => rfl

/-- Nothing is added. -/
theorem Adds.refl (h : env.Ready next st) : env.Adds site next P st st [] :=
  Adds.of_defines h (Defines.refl _) rfl (fun _ h => h) rfl

/-- What is added in two parts. -/
theorem Adds.trans (h : env.Adds site next P st st' adds)
    (h' : env.Adds site next P st' st'' adds') :
    env.Adds site next P st st'' (adds ++ adds') where
  defines := h.defines.trans h'.defines
  ready := h'.ready
  prevState := h'.prevState.trans h.prevState
  reached := fun s hs => h'.reached s (h.reached s hs)
  recorded := by rw [List.foldl_append, ← h.recorded, h'.recorded]
  goal := by
    intro a ha
    rcases List.mem_append.mp ha with ha | ha
    · exact (h.goal a ha).grows h'.defines.grows
    · exact h'.goal a ha
  site_eq := fun a ha => (List.mem_append.mp ha).elim (h.site_eq a) (h'.site_eq a)
  moves := fun a ha => (List.mem_append.mp ha).elim (h.moves a) (h'.moves a)
  quiet := by
    intro hmap
    rw [h.quiet hmap, h'.quiet hmap, List.append_nil]

/-- A weaker account of what is added. -/
theorem Adds.mono (h : env.Adds site next P st st' adds) (hPQ : ∀ s t, P s t → Q s t) :
    env.Adds site next Q st st' adds :=
  { h with moves := fun a ha => hPQ _ _ (h.moves a ha) }

/-- The part under `if (map_tg)`. -/
theorem mapGoal_spec (src : TaState) {dest : TaState} {eq : Literal} (hst : env.Ready next st)
    (hsite : site.guard.Below st.cnf.noVariables) (heq : eq.Below st.cnf.noVariables)
    (heval : ∀ v, st.cnf.Models v → eq.eval v = decide (bvValue v next = dest)) :
    ∃ adds, env.Adds site next (fun s t => s = src ∧ t = dest) st
        (env.mapGoal site src dest eq st) adds ∧
      (env.mapGoal site src dest eq st).possiblyReached = st.possiblyReached ∧
      (env.mapTg = true → ∃ a ∈ adds, a.src = src ∧ a.dest = dest) := by
  unfold mapGoal
  by_cases hmap : env.mapTg = true
  · rw [if_pos hmap]
    by_cases hgoal : env.isTestGoalState (env.reverseNumber dest) = true
    · have hland := land_names hsite heq
      have hlit : ∀ v, (st.cnf.land site.guard eq).2.Models v →
          (st.cnf.land site.guard eq).1.eval v =
            (site.guard.eval v && decide (bvValue v next = dest)) := by
        intro v hv
        rw [hland.eval v hv, heval v (hland.defines.sound v hv)]
      simp only [hgoal, if_true]
      refine ⟨[⟨site, src, dest, some (st.cnf.land site.guard eq).1⟩], ?_, trivial, ?_⟩
      · exact
          { defines := hland.defines
            ready := hst.grows hland.defines.grows _ _
            prevState := rfl
            reached := fun _ h => h
            recorded := rfl
            goal := by
              intro a ha
              cases List.mem_singleton.mp ha
              exact ⟨by simp [hgoal], by simpa using hland.below, by simpa using hlit⟩
            site_eq := by simp
            moves := by simp
            quiet := by simp [hmap] }
      · exact fun _ => ⟨_, List.mem_singleton_self _, rfl, rfl⟩
    · rw [Bool.not_eq_true] at hgoal
      simp only [hgoal, Bool.false_eq_true, if_false]
      refine ⟨[⟨site, src, dest, none⟩], ?_, trivial, ?_⟩
      · exact
          { defines := Defines.refl _
            ready := hst.grows (Grows.refl _) _ _
            prevState := rfl
            reached := fun _ h => h
            recorded := rfl
            goal := by
              intro a ha
              cases List.mem_singleton.mp ha
              exact ⟨by simp [hgoal], by simp, by simp⟩
            site_eq := by simp
            moves := by simp
            quiet := by simp [hmap] }
      · exact fun _ => ⟨_, List.mem_singleton_self _, rfl, rfl⟩
  · rw [if_neg hmap]
    exact ⟨[], Adds.refl hst, rfl, fun h => absurd h hmap⟩

/-- The loop over the destinations names the test whether one of them is entered. -/
theorem addDests_spec (src : TaState) {dests : List TaState} (hst : env.Ready next st)
    (hsite : site.guard.Below st.cnf.noVariables) (hdests : ∀ d ∈ dests, d < 2 ^ env.width) :
    ∃ adds, env.Adds site next (fun s t => s = src ∧ t ∈ dests) st
        (env.addDests site next src dests st).2 adds ∧
      (∀ d ∈ dests, d ∈ (env.addDests site next src dests st).2.possiblyReached) ∧
      (env.mapTg = true → ∀ d ∈ dests, ∃ a ∈ adds, a.src = src ∧ a.dest = d) ∧
      (∀ l ∈ (env.addDests site next src dests st).1,
        l.Below (env.addDests site next src dests st).2.cnf.noVariables) ∧
      ∀ v, (env.addDests site next src dests st).2.cnf.Models v →
        (env.addDests site next src dests st).1.any (Literal.eval v) =
          decide (bvValue v next ∈ dests) := by
  induction dests generalizing st with
  | nil => exact ⟨[], Adds.refl hst, by simp, by simp, by simp [addDests], by simp [addDests]⟩
  | cons dest rest ih =>
      have hspec := makeEquals_spec hst.nextVector hst.nextCache (hdests dest List.mem_cons_self)
      rcases hm : env.makeEquals st.nextEqCache next dest st.cnf with ⟨eq, cache, cnf⟩
      rw [hm] at hspec
      obtain ⟨hnames, hcache⟩ := hspec
      have hgrows := hnames.defines.grows
      have hfirst : env.Adds site next (fun s t => s = src ∧ t = dest) st
          { st with
            cnf := cnf, nextEqCache := cache,
            possiblyReached := st.possiblyReached.insert dest } [] :=
        Adds.of_defines ⟨hst.prevVector.grows hgrows, hst.prevCache.grows hgrows,
            hst.nextVector.grows hgrows, hcache⟩ hnames.defines rfl
          (fun s hs => SortedSet.mem_insert.mpr (Or.inr hs)) rfl
      obtain ⟨goals, hgoals, hreached, hmapped⟩ := mapGoal_spec src hfirst.ready
        (hsite.mono hgrows.le) hnames.below hnames.eval
      have hhead := hfirst.trans hgoals
      obtain ⟨adds, hadds, hrest, hrestMapped, hbelow, heval⟩ := ih hgoals.ready
        (hsite.mono hhead.defines.le) fun d hd => hdests d (List.mem_cons_of_mem _ hd)
      simp only [addDests, hm]
      refine ⟨goals ++ adds, ?_, ?_, ?_, ?_, ?_⟩
      · apply (hhead.mono _).trans (hadds.mono _)
        · rintro s t ⟨hs, rfl⟩
          exact ⟨hs, List.mem_cons_self⟩
        · rintro s t ⟨hs, ht⟩
          exact ⟨hs, List.mem_cons_of_mem _ ht⟩
      · intro d hd
        rcases List.mem_cons.mp hd with rfl | hd
        · apply hadds.reached
          rw [hreached]
          exact SortedSet.mem_insert.mpr (Or.inl rfl)
        · exact hrest d hd
      · intro hmap d hd
        rcases List.mem_cons.mp hd with rfl | hd
        · obtain ⟨a, ha, hsrc, hdest⟩ := hmapped hmap
          exact ⟨a, List.mem_append_left _ ha, hsrc, hdest⟩
        · obtain ⟨a, ha, hsrc, hdest⟩ := hrestMapped hmap d hd
          exact ⟨a, List.mem_append_right _ ha, hsrc, hdest⟩
      · intro l hl
        rcases List.mem_cons.mp hl with rfl | hl
        · exact hnames.below.mono (hgoals.defines.le.trans hadds.defines.le)
        · exact hbelow l hl
      · intro v hv
        have heq := hnames.eval v (hgoals.defines.sound v (hadds.defines.sound v hv))
        rw [List.any_cons, heq, heval v hv]
        simp [List.mem_cons]

variable (site) in
/-- The literal of a source state: the automaton is there, and one of the destinations
is entered. -/
theorem sourceLiteral_spec {src : TaState} {dests : List TaState} {lits : List Literal}
    (hst : env.Ready next st) (hsrc : src < 2 ^ env.width)
    (hbelow : ∀ l ∈ lits, l.Below st.cnf.noVariables)
    (heval : ∀ v, st.cnf.Models v → lits.any (Literal.eval v) = decide (bvValue v next ∈ dests)) :
    let req := env.makeEquals st.prevEqCache st.prevState src st.cnf
    let anyDest := req.2.2.lorVector lits
    let t := anyDest.2.land req.1 anyDest.1
    env.Adds site next P st { st with cnf := t.2, prevEqCache := req.2.1 } [] ∧
      t.1.Below t.2.noVariables ∧
      ∀ v, t.2.Models v →
        t.1.eval v = (decide (bvValue v st.prevState = src) && decide (bvValue v next ∈ dests)) := by
  intro req anyDest t
  obtain ⟨hreq, hcache⟩ := makeEquals_spec hst.prevVector hst.prevCache hsrc
  have hany : req.2.2.Names _ anyDest := lorVector_names fun l hl => (hbelow l hl).mono hreq.defines.le
  have hland : anyDest.2.Names _ t := land_names (hreq.below.mono hany.defines.le) hany.below
  have hdefines := hreq.defines.trans (hany.defines.trans hland.defines)
  refine ⟨?_, hland.below, ?_⟩
  · exact Adds.of_defines ⟨hst.prevVector.grows hdefines.grows,
      hcache.grows (hany.defines.trans hland.defines).grows,
      hst.nextVector.grows hdefines.grows, hst.nextCache.grows hdefines.grows⟩
      hdefines rfl (fun _ h => h) rfl
  · intro v hv
    have h₂ := hland.defines.sound v hv
    have h₁ := hany.defines.sound v h₂
    rw [hland.eval v hv, hany.eval v h₂, hreq.eval v h₁, heval v (hreq.defines.sound v h₁)]

variable (site) in
/-- **The transitions of a site.**  Some literal is true only if one of the transitions
moves the automaton, and if one from a state that was reached does. -/
theorem addTransitions_spec {moves : List (TaState × List TaState)} (hst : env.Ready next st)
    (hsite : site.guard.Below st.cnf.noVariables)
    (hmoves : ∀ m ∈ moves, m.1 < 2 ^ env.width ∧ ∀ d ∈ m.2, d < 2 ^ env.width) :
    ∃ adds, env.Adds site next (fun s t => ∃ m ∈ moves, s = m.1 ∧ t ∈ m.2) st
        (env.addTransitions site next moves st).2 adds ∧
      (env.mapTg = true → ∀ m ∈ moves, m.1 ∈ st.possiblyReached → ∀ d ∈ m.2,
        ∃ a ∈ adds, a.src = m.1 ∧ a.dest = d) ∧
      (∀ l ∈ (env.addTransitions site next moves st).1,
        l.Below (env.addTransitions site next moves st).2.cnf.noVariables) ∧
      (∀ v, (env.addTransitions site next moves st).2.cnf.Models v →
        (env.addTransitions site next moves st).1.any (Literal.eval v) = true →
          (∃ m ∈ moves, bvValue v st.prevState = m.1 ∧ bvValue v next ∈ m.2) ∧
            bvValue v next ∈ (env.addTransitions site next moves st).2.possiblyReached) ∧
      ∀ v, (env.addTransitions site next moves st).2.cnf.Models v → ∀ m ∈ moves,
        m.1 ∈ st.possiblyReached → bvValue v st.prevState = m.1 → bvValue v next ∈ m.2 →
          (env.addTransitions site next moves st).1.any (Literal.eval v) = true := by
  induction moves generalizing st with
  | nil => exact ⟨[], Adds.refl hst, by simp, by simp [addTransitions], by simp [addTransitions],
      by simp⟩
  | cons m rest ih =>
      obtain ⟨src, dests⟩ := m
      obtain ⟨hsrc, hdests⟩ := hmoves _ List.mem_cons_self
      have hrestMoves : ∀ m ∈ rest, m.1 < 2 ^ env.width ∧ ∀ d ∈ m.2, d < 2 ^ env.width :=
        fun m hm => hmoves m (List.mem_cons_of_mem _ hm)
      by_cases hreached : src ∈ st.possiblyReached
      · obtain ⟨adds₁, hadds₁, hin, hmapped₁, hbelow₁, heval₁⟩ :=
          addDests_spec src hst hsite hdests
        rcases hd : env.addDests site next src dests st with ⟨lits, st₁⟩
        rw [hd] at hadds₁ hin hbelow₁ heval₁
        obtain ⟨hsecond, hbelowHead, hevalHead⟩ :=
          sourceLiteral_spec site (P := fun s t => s = src ∧ t ∈ dests)
            hadds₁.ready hsrc hbelow₁ heval₁
        rcases hm : env.makeEquals st₁.prevEqCache st₁.prevState src st₁.cnf with ⟨req, cache, cnf₁⟩
        rcases ho : cnf₁.lorVector lits with ⟨anyDest, cnf₂⟩
        rcases ht : cnf₂.land req anyDest with ⟨t, cnf₃⟩
        simp only [hm, ho, ht] at hsecond hbelowHead hevalHead
        have hhead := hadds₁.trans hsecond
        rw [List.append_nil] at hhead
        obtain ⟨adds, hadds, hmapped, hbelow, hupper, hlower⟩ :=
          ih hsecond.ready (hsite.mono hhead.defines.le) hrestMoves
        simp only [addTransitions, hreached, if_true, hd, hm, ho, ht]
        have htrue : ∀ v, (env.addTransitions site next rest
            { st₁ with cnf := cnf₃, prevEqCache := cache }).2.cnf.Models v →
            t.eval v = (decide (bvValue v st.prevState = src) && decide (bvValue v next ∈ dests)) := by
          intro v hv
          rw [hevalHead v (hadds.defines.sound v hv), hadds₁.prevState]
        refine ⟨adds₁ ++ adds, ?_, ?_, ?_, ?_, ?_⟩
        · apply (hhead.mono _).trans (hadds.mono _)
          · rintro s t ⟨hs, ht⟩
            exact ⟨_, List.mem_cons_self, hs, ht⟩
          · rintro s t ⟨m, hm, hs, ht⟩
            exact ⟨m, List.mem_cons_of_mem _ hm, hs, ht⟩
        · intro hmap m hm hmr d hd
          rcases List.mem_cons.mp hm with rfl | hm
          · obtain ⟨a, ha, has, had⟩ := hmapped₁ hmap d hd
            exact ⟨a, List.mem_append_left _ ha, has, had⟩
          · obtain ⟨a, ha, has, had⟩ := hmapped hmap m hm (hadds₁.reached _ hmr) d hd
            exact ⟨a, List.mem_append_right _ ha, has, had⟩
        · intro l hl
          rcases List.mem_cons.mp hl with rfl | hl
          · exact hbelowHead.mono hadds.defines.le
          · exact hbelow l hl
        · intro v hv hany
          rw [List.any_cons, Bool.or_eq_true, htrue v hv, Bool.and_eq_true, decide_eq_true_eq,
            decide_eq_true_eq] at hany
          rcases hany with ⟨hs, hd⟩ | hany
          · exact ⟨⟨_, List.mem_cons_self, hs, hd⟩, hadds.reached _ (hin _ hd)⟩
          · obtain ⟨⟨m, hm, hs, hd⟩, hr⟩ := hupper v hv hany
            rw [hadds₁.prevState] at hs
            exact ⟨⟨m, List.mem_cons_of_mem _ hm, hs, hd⟩, hr⟩
        · intro v hv m hm hmr hs hd
          rw [List.any_cons, Bool.or_eq_true]
          rcases List.mem_cons.mp hm with rfl | hm
          · exact Or.inl (by rw [htrue v hv]; simp [hs, hd])
          · refine Or.inr (hlower v hv m hm (hadds₁.reached _ hmr) ?_ hd)
            rw [hadds₁.prevState, hs]
      · obtain ⟨adds, hadds, hmapped, hbelow, hupper, hlower⟩ := ih hst hsite hrestMoves
        simp only [addTransitions, hreached, if_false]
        refine ⟨adds, ?_, ?_, hbelow, ?_, ?_⟩
        · apply hadds.mono
          rintro s t ⟨m, hm, hs, ht⟩
          exact ⟨m, List.mem_cons_of_mem _ hm, hs, ht⟩
        · intro hmap m hm hmr
          rcases List.mem_cons.mp hm with rfl | hm
          · exact absurd hmr hreached
          · exact hmapped hmap m hm hmr
        · intro v hv hany
          obtain ⟨⟨m, hm, hs⟩, hr⟩ := hupper v hv hany
          exact ⟨⟨m, List.mem_cons_of_mem _ hm, hs⟩, hr⟩
        · intro v hv m hm hmr
          rcases List.mem_cons.mp hm with rfl | hm
          · exact absurd hmr hreached
          · exact hlower v hv m hm hmr

/-! ## The log of a round -/

/-- The entries of a graph are its transitions. -/
theorem mem_symbol {transitions : TransitionMap} {g : Int} {s t : TaState} :
    (∃ m ∈ transitions.symbol g, s = m.1 ∧ t ∈ m.2) ↔ t ∈ transitions.get (toLex (g, s)) := by
  simp only [TransitionMap.symbol, List.mem_map, List.mem_filter, decide_eq_true_eq]
  constructor
  · rintro ⟨m, ⟨k, ⟨-, rfl⟩, rfl⟩, rfl, ht⟩
    exact ht
  · intro ht
    exact ⟨_, ⟨toLex (g, s), ⟨SetMap.mem_keys.mpr ⟨t, ht⟩, rfl⟩, rfl⟩, rfl, ht⟩

/-- The entries of some graphs are what the automaton takes. -/
theorem mem_moves {gs : List Int} {s t : TaState} :
    (∃ m ∈ gs.flatMap env.transitions.symbol, s = m.1 ∧ t ∈ m.2) ↔ env.Takes gs s t := by
  simp only [Takes, ← mem_symbol, List.mem_flatMap]
  grind

variable (env) in
/-- What the site of an addition says about its round. -/
def SiteOf : Round ν → Site ν → Prop
  | .node step, site => site.step = step.number ∧
      site.rounds = some (env.sources (env.nodeGraphs step.pc)).toList.length
  | .edges step, site => site.step = step.number ∧ site.rounds = none
  | .leave _, _ => False

variable (env) in
/-- The additions of the edges of `entry` in a round `r`, which starts when the states of
`reached` may have been reached. -/
structure Logged (r : Round ν) (next : List Literal) (reached : SortedSet TaState) (c : Cnf)
    (entry : List (ν ×ₗ ν)) (adds : List (Addition ν)) : Prop where
  goal : ∀ a ∈ adds, env.GoalLiteral c next a
  site : ∀ a ∈ adds, a.site.edge ∈ entry ∧ env.SiteOf r a.site
  guard : ∀ a ∈ adds, ∀ v, c.Models v → a.site.guard.eval v = env.passes v r a.site.edge
  taken : ∀ a ∈ adds, env.Takes (env.graphs r a.site.edge) a.src a.dest
  mapped : env.mapTg = true → ∀ e ∈ entry, ∀ s t, env.Takes (env.graphs r e) s t → s ∈ reached →
    ∃ a ∈ adds, a.site.edge = e ∧ a.src = s ∧ a.dest = t
  quiet : env.mapTg = false → adds = []

variable {r : Round ν} {reached reached' : SortedSet TaState} {c d : Cnf}
  {entry entry' : List (ν ×ₗ ν)}

/-- Nothing is logged. -/
theorem Logged.nil : env.Logged r next reached c [] [] :=
  ⟨by simp, by simp, by simp, by simp, by simp, fun _ => rfl⟩

/-- What is logged stays true when the formula grows. -/
theorem Logged.grows (h : env.Logged r next reached c entry adds) (hcd : Grows c d) :
    env.Logged r next reached d entry adds :=
  { h with
    goal := fun a ha => (h.goal a ha).grows hcd
    guard := fun a ha v hv => h.guard a ha v (hcd.sound v hv) }

/-- Two logs, one behind the other. -/
theorem Logged.append (h : env.Logged r next reached c entry adds)
    (h' : env.Logged r next reached' c entry' adds')
    (hreached : ∀ s, s ∈ reached → s ∈ reached') :
    env.Logged r next reached c (entry ++ entry') (adds ++ adds') where
  goal := fun a ha => (List.mem_append.mp ha).elim (h.goal a) (h'.goal a)
  site := by
    intro a ha
    rcases List.mem_append.mp ha with ha | ha
    · exact ⟨List.mem_append_left _ (h.site a ha).1, (h.site a ha).2⟩
    · exact ⟨List.mem_append_right _ (h'.site a ha).1, (h'.site a ha).2⟩
  guard := fun a ha => (List.mem_append.mp ha).elim (h.guard a) (h'.guard a)
  taken := fun a ha => (List.mem_append.mp ha).elim (h.taken a) (h'.taken a)
  mapped := by
    intro hmap e he s t htakes hs
    rcases List.mem_append.mp he with he | he
    · obtain ⟨a, ha, hspec⟩ := h.mapped hmap e he s t htakes hs
      exact ⟨a, List.mem_append_left _ ha, hspec⟩
    · obtain ⟨a, ha, hspec⟩ := h'.mapped hmap e he s t htakes (hreached s hs)
      exact ⟨a, List.mem_append_right _ ha, hspec⟩
  quiet := by
    intro hmap
    rw [h.quiet hmap, h'.quiet hmap, List.append_nil]

/-- The additions of one site. -/
theorem Adds.logged
    (h : env.Adds site next
      (fun s t => ∃ m ∈ (env.graphs r site.edge).flatMap env.transitions.symbol, s = m.1 ∧ t ∈ m.2)
      st st' adds)
    (hmapped : env.mapTg = true →
      ∀ m ∈ (env.graphs r site.edge).flatMap env.transitions.symbol,
        m.1 ∈ st.possiblyReached → ∀ d ∈ m.2, ∃ a ∈ adds, a.src = m.1 ∧ a.dest = d)
    (hsite : env.SiteOf r site)
    (hguard : ∀ v, st.cnf.Models v → site.guard.eval v = env.passes v r site.edge) :
    env.Logged r next st.possiblyReached st'.cnf [site.edge] adds where
  goal := h.goal
  site := by
    intro a ha
    rw [h.site_eq a ha]
    exact ⟨List.mem_singleton_self _, hsite⟩
  guard := by
    intro a ha v hv
    rw [h.site_eq a ha]
    exact hguard v (h.defines.sound v hv)
  taken := by
    intro a ha
    rw [h.site_eq a ha]
    exact mem_moves.mp (h.moves a ha)
  mapped := by
    intro hmap e he s t htakes hs
    cases List.mem_singleton.mp he
    obtain ⟨m, hm, rfl, ht⟩ := mem_moves.mpr htakes
    obtain ⟨a, ha, hsrc, hdest⟩ := hmapped hmap m hm hs t ht
    exact ⟨a, ha, by rw [h.site_eq a ha], hsrc, hdest⟩
  quiet := h.quiet

/-! ## What a round chooses -/

/-- The step of a round. -/
def roundStep : Round ν → StepView ν
  | .node step => step
  | .edges step => step
  | .leave step => step

/-- The literals of a step are among the first `n` variables. -/
structure StepBelow (n : Nat) (step : StepView ν) : Prop where
  guard : step.guard.Below n
  gotoGuard : step.gotoGuard.Below n

omit [LinearOrder ν] in
/-- More variables may be there. -/
theorem StepBelow.mono {n m : Nat} {step : StepView ν} (h : StepBelow n step) (hnm : n ≤ m) :
    StepBelow m step :=
  ⟨h.guard.mono hnm, h.gotoGuard.mono hnm⟩

/-- The literal of an edge is one of the step's. -/
theorem edgeLiteral_below {n : Nat} {step : StepView ν} (gotoEdge : Option (ν ×ₗ ν))
    {e : ν ×ₗ ν} (h : StepBelow n step) : (edgeLiteral step gotoEdge e).Below n := by
  unfold edgeLiteral
  split_ifs
  · exact h.gotoGuard
  · exact Literal.below_neg.mpr h.gotoGuard

variable {v w : Assignment} {n : Nat}

/-- Whether an edge is passed depends on the variables of the step. -/
theorem passes_agree (h : StepBelow n (roundStep r)) (hvw : AgreeBelow n v w) (e : ν ×ₗ ν) :
    env.passes v r e = env.passes w r e := by
  cases r with
  | node step => exact h.guard.eval_eq hvw
  | edges step =>
      rw [passes, passes]
      congr 1
      · exact h.guard.eval_eq hvw
      · exact (edgeLiteral_below _ h).eval_eq hvw
  | leave step => rfl

/-- So does whether a step is blocked. -/
theorem blocked_agree (h : StepBelow n (roundStep r)) (hvw : AgreeBelow n v w) :
    env.blocked v r = env.blocked w r := by
  cases r with
  | node step => rfl
  | edges step => rfl
  | leave step =>
      rw [blocked, blocked]
      congr 1
      exact h.guard.eval_eq hvw

/-- So does how the automaton moves. -/
theorem MovesBy.agree {σ : Type} {takes : List Int → σ → σ → Prop} {s t : σ}
    (h : StepBelow n (roundStep r)) (hvw : AgreeBelow n v w)
    (hmoves : env.MovesBy takes v r s t) : env.MovesBy takes w r s t := by
  obtain ⟨hblocked, hexits, hstay⟩ := hmoves
  have hpasses : ∀ e, env.passes w r e = env.passes v r e := fun e => (passes_agree h hvw e).symm
  refine ⟨(blocked_agree h hvw).symm.trans hblocked, ?_, ?_⟩
  · simpa only [hpasses] using hexits
  · simpa only [hpasses] using hstay

variable (env) in
/-- The compact numbers fit into the vectors. -/
def TransitionsFit : Prop :=
  ∀ g s t, t ∈ env.transitions.get (toLex (g, s)) → s < 2 ^ env.width ∧ t < 2 ^ env.width

/-- What is taken has numbers of the width. -/
theorem Takes.fits (henv : env.TransitionsFit) {gs : List Int} {s t : TaState}
    (h : env.Takes gs s t) : s < 2 ^ env.width ∧ t < 2 ^ env.width := by
  obtain ⟨g, -, ht⟩ := h
  exact henv g s t ht

/-- All entries have numbers of the width. -/
theorem moves_fit (henv : env.TransitionsFit) (gs : List Int) :
    ∀ m ∈ gs.flatMap env.transitions.symbol,
      m.1 < 2 ^ env.width ∧ ∀ d ∈ m.2, d < 2 ^ env.width := by
  intro m hm
  have hfits : ∀ d ∈ m.2, m.1 < 2 ^ env.width ∧ d < 2 ^ env.width :=
    fun d hd => (mem_moves.mp ⟨m, hm, rfl, hd⟩).fits henv
  refine ⟨?_, fun d hd => (hfits d hd).2⟩
  -- a source has at least one destination
  obtain ⟨g, -, hm⟩ := List.mem_flatMap.mp hm
  simp only [TransitionMap.symbol, List.mem_map, List.mem_filter] at hm
  obtain ⟨k, ⟨hk, -⟩, rfl⟩ := hm
  obtain ⟨t, ht⟩ := SetMap.mem_keys.mp hk
  exact (hfits t ht).1

/-- A move stays within the width. -/
theorem Moves.fits (henv : env.TransitionsFit) {s t : TaState} (hs : s < 2 ^ env.width)
    (h : env.Moves v r s t) : t < 2 ^ env.width := by
  obtain ⟨-, hexits, hstay⟩ := h
  rcases hstay with ⟨e, he, hpasses⟩ | rfl
  · rcases hexits e he hpasses with htakes | ⟨-, rfl⟩
    · exact (htakes.fits henv).2
    · exact hs
  · exact hs

variable (env) in
/-- What holds between two rounds. -/
structure Settled (st : Encoding ν) : Prop where
  vector : env.IsVector st.cnf st.prevState
  cache : CacheOk st.cnf st.prevState st.prevEqCache
  nextCache : st.nextEqCache = []
  reached : ∀ v, st.cnf.Models v → bvValue v st.prevState ∈ st.possiblyReached

/-- The state of a settled encoding is within the width. -/
theorem Settled.lt (h : env.Settled st) (v : Assignment) : bvValue v st.prevState < 2 ^ env.width := by
  rw [← h.vector.length]
  exact bvValue_lt v st.prevState

/-- A round opens with fresh variables. -/
theorem Settled.ready (h : env.Settled st) :
    env.Ready (st.cnf.newVariables env.width).1
      { st with cnf := (st.cnf.newVariables env.width).2 } := by
  have hgrows := (newVariables_chooses st.cnf env.width).grows
  refine ⟨h.vector.grows hgrows, h.cache.grows hgrows,
    ⟨newVariables_length _ _, newVariables_below _ _⟩, ?_⟩
  show CacheOk _ _ st.nextEqCache
  rw [h.nextCache]
  simp [CacheOk]

variable (env) in
/-- The outcome of a round: its vector and its log. -/
structure RoundDone (r : Round ν) (st st' : Encoding ν) (adds : List (Addition ν)) : Prop where
  settled : env.Settled st'
  chooses : st.cnf.Chooses
    (fun v ns => ∃ t, ns = [t] ∧ env.Moves v r (bvValue v st.prevState) t) [st'.prevState] st'.cnf
  recorded : st'.recorded = adds.foldl env.add st.recorded
  logged : env.Logged r st'.prevState st.possiblyReached st'.cnf (env.exits r) adds

/-- The relation of a round, once a vector with any value has been chosen. -/
theorem moves_iff (henv : env.TransitionsFit) (hst : env.Settled st) (v : Assignment)
    (ns : List Nat) :
    ((∃ n < 2 ^ env.width, ns = [n]) ∧
        ∀ t, ns = [t] → env.Moves v r (bvValue v st.prevState) t) ↔
      ∃ t, ns = [t] ∧ env.Moves v r (bvValue v st.prevState) t := by
  constructor
  · rintro ⟨⟨n, -, rfl⟩, h⟩
    exact ⟨n, rfl, h n rfl⟩
  · rintro ⟨t, rfl, h⟩
    refine ⟨⟨t, h.fits henv (hst.lt v), rfl⟩, ?_⟩
    rintro t' heq
    cases heq
    exact h

/-- The moves of a round are about the variables that are there. -/
theorem about_moves (hst : env.Settled st)
    (hstep : StepBelow st.cnf.noVariables (roundStep r)) :
    About st.cnf.noVariables
      fun v (ns : List Nat) => ∀ t, ns = [t] → env.Moves v r (bvValue v st.prevState) t := by
  intro v w hvw ns h t ht
  rw [← bvValue_agree hst.vector.below hvw]
  exact MovesBy.agree hstep hvw (h t ht)

/-! ## Node rounds -/

/-- At a node the automaton waits or takes a graph of the node. -/
theorem node_moves_iff {step : StepView ν} {s t : TaState} :
    env.Moves v (.node step) s t ↔
      t = s ∨ (step.guard.eval v = true ∧ env.Takes (env.nodeGraphs step.pc) s t) := by
  simp only [Moves, MovesBy, blocked, exits, List.mem_singleton, forall_eq, exists_eq_left, passes, graphs,
    mayStay, true_and]
  cases step.guard.eval v <;> simp [or_comm]

/-- **The round of a node** adds what moves the automaton there. -/
theorem nodeRound_spec {step : StepView ν} (henv : env.TransitionsFit) (hst : env.Settled st)
    (hstep : StepBelow st.cnf.noVariables step) :
    ∃ adds, env.RoundDone (.node step) st (env.nodeRound step st) adds := by
  have hready := hst.ready
  have hnew := newVariables_chooses st.cnf env.width
  rcases hn : st.cnf.newVariables env.width with ⟨next, cnf⟩
  rw [hn] at hready hnew
  have hbelow := hstep.mono hnew.le
  obtain ⟨adds, hadds, hmapped, hlits, hupper, hlower⟩ :=
    addTransitions_spec (env.nodeSite step) hready hbelow.guard
      (moves_fit henv (env.nodeGraphs step.pc))
  rcases ha : env.addTransitions (env.nodeSite step) next _ _ with ⟨lits, st₁⟩
  rw [ha] at hadds hlits hupper hlower
  -- the clause of the round
  have heq := equal_names hadds.ready.prevVector hadds.ready.nextVector
  rcases he : env.bvUtils.equal st₁.cnf st₁.prevState next with ⟨eq, cnf₁⟩
  rw [he] at heq
  have hany := lorVector_names fun l hl => (hlits l hl).mono heq.defines.le
  rcases ho : cnf₁.lorVector lits with ⟨anyTrans, cnf₂⟩
  rw [ho] at hany
  have hle := hadds.defines.le.trans (heq.defines.le.trans hany.defines.le)
  have hmove := land_names (hbelow.guard.mono hle) hany.below
  rcases hm : cnf₂.land step.guard anyTrans with ⟨move, cnf₃⟩
  rw [hm] at hmove
  have hl := lor_names (heq.below.mono (hany.defines.le.trans hmove.defines.le)) hmove.below
  rcases hlor : cnf₃.lor eq move with ⟨l, cnf₄⟩
  rw [hlor] at hl
  have hdefines := heq.defines.trans (hany.defines.trans (hmove.defines.trans hl.defines))
  have heval : ∀ v, cnf₄.Models v → l.eval v =
      (decide (bvValue v st.prevState = bvValue v next) ||
        (step.guard.eval v && lits.any (Literal.eval v))) := by
    intro v hv
    have h₃ := hl.defines.sound v hv
    have h₂ := hmove.defines.sound v h₃
    have h₁ := hany.defines.sound v h₂
    rw [hl.eval v hv, hmove.eval v h₃, hany.eval v h₂, heq.eval v h₁, hadds.prevState]
  have hresult : env.nodeRound step st = swap next { st₁ with cnf := cnf₄.lcnf [l] } := by
    simp only [nodeRound, hn, ha, he, ho, hm, hlor]
  rw [hresult]
  have hgrows := hdefines.grows.trans (lcnf_grows cnf₄ [l])
  have hlogged := Adds.logged (r := .node step) hadds hmapped ⟨rfl, rfl⟩
    fun v _ => rfl
  refine ⟨adds, ⟨hadds.ready.nextVector.grows hgrows, hadds.ready.nextCache.grows hgrows, rfl, ?_⟩,
    ?_, hadds.recorded, hlogged.grows hgrows⟩
  · -- the clause leads to states that may be reached
    intro v hv
    obtain ⟨hv, hclause⟩ := lcnf_models.mp hv
    obtain ⟨l', hl', htrue⟩ := clauseTrue_iff.mp hclause
    cases List.mem_singleton.mp hl'
    have h₁ := hdefines.sound v hv
    rw [heval v hv, Bool.or_eq_true, Bool.and_eq_true, decide_eq_true_eq] at htrue
    rcases htrue with hstay | ⟨-, htaken⟩
    · show bvValue v next ∈ st₁.possiblyReached
      rw [← hstay]
      exact hadds.reached _ (hst.reached v (hnew.grows.sound v (hadds.defines.sound v h₁)))
    · exact (hupper v h₁ htaken).2
  · have hchooses := (hnew.defines (hadds.defines.trans hdefines)).lcnf hl.below
      (about_moves (r := .node step) hst hstep) (by
        intro v hv
        have h₁ := hdefines.sound v hv
        have hreached := hst.reached v (hnew.grows.sound v (hadds.defines.sound v h₁))
        simp only [List.map_singleton, List.cons.injEq, and_true, forall_eq', heval v hv,
          node_moves_iff, Bool.or_eq_true, Bool.and_eq_true, decide_eq_true_eq]
        constructor
        · rintro (hstay | ⟨hguard, htaken⟩)
          · exact Or.inl hstay.symm
          · exact Or.inr ⟨hguard, mem_moves.mp (hupper v h₁ htaken).1⟩
        · rintro (hstay | ⟨hguard, htakes⟩)
          · exact Or.inl hstay.symm
          · obtain ⟨m, hm, hs, ht⟩ := mem_moves.mpr htakes
            exact Or.inr ⟨hguard, hlower v h₁ m hm (hs ▸ hreached) hs ht⟩)
    exact hchooses.congr (moves_iff henv hst)

/-! ## Edge rounds -/

variable (env) in
/-- `eq_literal` is still false, or tells whether the state stays. -/
def EqLiteral (next : List Literal) (st : Encoding ν) (l : Literal) : Prop :=
  l.Below st.cnf.noVariables ∧ (l.isFalse = true ∨
    ∀ v, st.cnf.Models v → l.eval v = decide (bvValue v st.prevState = bvValue v next))

/-- The literal for equal vectors keeps its meaning. -/
theorem EqLiteral.grows {l : Literal} (h : EqLiteral next st l) (hd : Grows st.cnf d) :
    EqLiteral next { st with cnf := d } l :=
  ⟨h.1.mono hd.le, h.2.imp_right fun heval v hv => heval v (hd.sound v hv)⟩

/-- A predicate of the instrumentation may be skipped. -/
theorem skipPredicate_spec (step : StepView ν) {lits : List Literal} {eqLiteral : Literal}
    (hst : env.Ready next st) (hlits : ∀ l ∈ lits, l.Below st.cnf.noVariables)
    (heq : EqLiteral next st eqLiteral) :
    let out := env.skipPredicate step next lits eqLiteral st
    Defines st.cnf out.2 ∧ (∀ l ∈ out.1.1, l.Below out.2.noVariables) ∧
      EqLiteral next { st with cnf := out.2 } out.1.2 ∧
      ∀ v, out.2.Models v → out.1.1.any (Literal.eval v) =
        (lits.any (Literal.eval v) || (env.mayStay (.edges step) &&
          decide (bvValue v st.prevState = bvValue v next))) := by
  unfold skipPredicate mayStay
  by_cases hinstrumented : isInstrumented (env.instruction step.pc) = true
  · have hnames := equal_names hst.prevVector hst.nextVector
    simp only [hinstrumented, if_true]
    refine ⟨hnames.defines, ?_, ⟨hnames.below, Or.inr hnames.eval⟩, ?_⟩
    · intro l hl
      rcases List.mem_append.mp hl with hl | hl
      · exact (hlits l hl).mono hnames.defines.le
      · cases List.mem_singleton.mp hl
        exact hnames.below
    · intro v hv
      simp [List.any_append, hnames.eval v hv]
  · rw [if_neg hinstrumented]
    rw [Bool.not_eq_true] at hinstrumented
    exact ⟨Defines.refl _, hlits, heq, fun v _ => by simp [hinstrumented]⟩

variable (env) in
/-- An edge that is taken moves the automaton, unless it may stay. -/
def EdgeMoves (step : StepView ν) (v : Assignment) (s t : TaState) (e : ν ×ₗ ν) : Prop :=
  env.passes v (.edges step) e = true →
    env.Takes (env.edgeGraphs e) s t ∨ (env.mayStay (.edges step) = true ∧ t = s)

/-- A move at an edge depends on the variables of the step. -/
theorem EdgeMoves.agree {step : StepView ν} {s t : TaState} {e : ν ×ₗ ν} (h : StepBelow n step)
    (hvw : AgreeBelow n v w) (hmoves : env.EdgeMoves step v s t e) :
    env.EdgeMoves step w s t e := by
  intro hpasses
  rw [← passes_agree (r := .edges step) h hvw] at hpasses
  exact hmoves hpasses

variable (env) in
/-- What the loop over the edges of `entry` has done, when the choice of the vector was in
the relation `R` before. -/
structure EdgesDone (step : StepView ν) (next : List Literal) (c : Cnf)
    (R : Assignment → List Nat → Prop) (entry : List (ν ×ₗ ν)) (st st' : Encoding ν)
    (guards : List Literal) (adds : List (Addition ν)) : Prop where
  ready : env.Ready next st'
  grows : Grows st.cnf st'.cnf
  prevState : st'.prevState = st.prevState
  reached : ∀ s, s ∈ st.possiblyReached → s ∈ st'.possiblyReached
  recorded : st'.recorded = adds.foldl env.add st.recorded
  logged : env.Logged (.edges step) next st.possiblyReached st'.cnf entry adds
  chooses : c.Chooses
    (fun v ns => R v ns ∧
      ∀ t, ns = [t] → ∀ e ∈ entry, env.EdgeMoves step v (bvValue v st.prevState) t e)
    [next] st'.cnf
  below : ∀ l ∈ guards, l.Below st'.cnf.noVariables
  guards_eval : ∀ v, st'.cnf.Models v →
    guards.any (Literal.eval v) = entry.any (env.passes v (.edges step))
  entered : ∀ v, st'.cnf.Models v → entry.any (env.passes v (.edges step)) = true →
    bvValue v next ∈ st'.possiblyReached

section EdgeLoop

variable {step : StepView ν} {R : Assignment → List Nat → Prop} {guards guards' : List Literal}

/-- Some edges, and then others. -/
theorem EdgesDone.append
    (h : env.EdgesDone step next c R entry st st' guards adds)
    (h' : env.EdgesDone step next c
      (fun v ns => R v ns ∧
        ∀ t, ns = [t] → ∀ e ∈ entry, env.EdgeMoves step v (bvValue v st.prevState) t e)
      entry' st' st'' guards' adds') :
    env.EdgesDone step next c R (entry ++ entry') st st'' (guards ++ guards') (adds ++ adds') where
  ready := h'.ready
  grows := h.grows.trans h'.grows
  prevState := h'.prevState.trans h.prevState
  reached := fun s hs => h'.reached s (h.reached s hs)
  recorded := by rw [List.foldl_append, ← h.recorded, h'.recorded]
  logged := (h.logged.grows h'.grows).append h'.logged h.reached
  chooses := by
    apply h'.chooses.congr
    intro v ns
    rw [h.prevState]
    simp only [List.forall_mem_append, and_assoc, forall_and]
  below := by
    intro l hl
    rcases List.mem_append.mp hl with hl | hl
    · exact (h.below l hl).mono h'.grows.le
    · exact h'.below l hl
  guards_eval := by
    intro v hv
    rw [List.any_append, List.any_append, h.guards_eval v (h'.grows.sound v hv),
      h'.guards_eval v hv]
  entered := by
    intro v hv hany
    rw [List.any_append, Bool.or_eq_true] at hany
    rcases hany with hany | hany
    · exact h'.reached _ (h.entered v (h'.grows.sound v hv) hany)
    · exact h'.entered v hv hany

/-- The clause of one edge. -/
theorem edgeClause_spec {al : Literal} {e : ν ×ₗ ν} {lits lits' : List Literal} {cnf : Cnf}
    (hal : al.Below st.cnf.noVariables)
    (hpasses : ∀ v, st.cnf.Models v → al.eval v = env.passes v (.edges step) e)
    (hskip : Defines st.cnf cnf) (hbelow : ∀ l ∈ lits', l.Below cnf.noVariables)
    (heval : ∀ v, cnf.Models v → lits'.any (Literal.eval v) =
      (lits.any (Literal.eval v) || (env.mayStay (.edges step) &&
        decide (bvValue v st.prevState = bvValue v next))))
    (hupper : ∀ v, st.cnf.Models v → lits.any (Literal.eval v) = true →
      env.Takes (env.edgeGraphs e) (bvValue v st.prevState) (bvValue v next))
    (hlower : ∀ v, st.cnf.Models v →
      env.Takes (env.edgeGraphs e) (bvValue v st.prevState) (bvValue v next) →
        lits.any (Literal.eval v) = true) :
    let anyTrans := cnf.lorVector lits'
    let l := anyTrans.2.limplies al anyTrans.1
    Defines cnf l.2 ∧ l.1.Below l.2.noVariables ∧
      ∀ v, l.2.Models v → (l.1.eval v = true ↔
        env.EdgeMoves step v (bvValue v st.prevState) (bvValue v next) e) := by
  intro anyTrans l
  have hany : cnf.Names _ anyTrans := lorVector_names hbelow
  have himp : anyTrans.2.Names _ l :=
    limplies_names (hal.mono (hskip.trans hany.defines).le) hany.below
  refine ⟨hany.defines.trans himp.defines, himp.below, ?_⟩
  intro v hv
  have h₂ := himp.defines.sound v hv
  have h₁ := hany.defines.sound v h₂
  have h₀ := hskip.sound v h₁
  have htaken : lits.any (Literal.eval v) = true ↔
      env.Takes (env.edgeGraphs e) (bvValue v st.prevState) (bvValue v next) :=
    ⟨hupper v h₀, hlower v h₀⟩
  rw [himp.eval v hv, hpasses v h₀, hany.eval v h₂, heval v h₁, EdgeMoves, ← htaken]
  cases env.passes v (.edges step) e <;>
    simp [eq_comm (a := bvValue v next)]

/-- One edge of the loop. -/
theorem addEdge_spec {e : ν ×ₗ ν} {eqLiteral : Literal} (henv : env.TransitionsFit)
    (hst : env.Ready next st) (hprev : ∀ l ∈ st.prevState, l.Below c.noVariables)
    (hstep : StepBelow c.noVariables step) (hchooses : c.Chooses R [next] st.cnf)
    (hreached : ∀ v, st.cnf.Models v → bvValue v st.prevState ∈ st.possiblyReached)
    (heq : EqLiteral next st eqLiteral) :
    ∃ al st' eqLiteral' adds, env.EdgesDone step next c R [e] st st' [al] adds ∧
      EqLiteral next st' eqLiteral' ∧
      ∀ rest, env.addEdges step (env.gotoEdge step.pc (env.maps.edgeEntry step.pc)) next
          (e :: rest) eqLiteral st =
        let out := env.addEdges step (env.gotoEdge step.pc (env.maps.edgeEntry step.pc)) next
          rest eqLiteral' st'
        ((al :: out.1.1, out.1.2), out.2) := by
  have hbelow := hstep.mono hchooses.le
  have hal := land_names hbelow.guard (edgeLiteral_below
    (env.gotoEdge step.pc (env.maps.edgeEntry step.pc)) hbelow (e := e))
  rcases hl : st.cnf.land step.guard
    (edgeLiteral step (env.gotoEdge step.pc (env.maps.edgeEntry step.pc)) e) with ⟨al, cnf₁⟩
  rw [hl] at hal
  obtain ⟨adds, hadds, hmapped, hlits, hupper, hlower⟩ :=
    addTransitions_spec ⟨e, al, step.number, none⟩
      (hst.grows hal.defines.grows st.possiblyReached st.recorded) hal.below
      (moves_fit henv (env.edgeGraphs e))
  rcases ha : env.addTransitions ⟨e, al, step.number, none⟩ next _ _ with ⟨lits, st₁⟩
  rw [ha] at hadds hlits hupper hlower
  have hlogged := Adds.logged (r := .edges step) hadds
    hmapped ⟨rfl, rfl⟩ hal.eval
  have hdefines₁ := hal.defines.trans hadds.defines
  have hprev₁ : st₁.prevState = st.prevState := hadds.prevState
  have hrecorded : st₁.recorded = adds.foldl env.add st.recorded := hadds.recorded
  have heq₁ : EqLiteral next st₁ eqLiteral := by
    refine ⟨heq.1.mono hdefines₁.le, heq.2.imp_right ?_⟩
    intro heval v hv
    rw [heval v (hdefines₁.sound v hv), hprev₁]
  obtain ⟨hskip, hskipBelow, hskipEq, hskipEval⟩ :=
    skipPredicate_spec step hadds.ready hlits heq₁
  rcases hs : env.skipPredicate step next lits eqLiteral st₁ with ⟨⟨lits', eq'⟩, cnf₂⟩
  rw [hs] at hskip hskipBelow hskipEq hskipEval
  have htaken : ∀ v, st₁.cnf.Models v → lits.any (Literal.eval v) = true →
      env.Takes (env.edgeGraphs e) (bvValue v st₁.prevState) (bvValue v next) := by
    intro v hv hany
    rw [hprev₁]
    exact mem_moves.mp (hupper v hv hany).1
  have htakes : ∀ v, st₁.cnf.Models v →
      env.Takes (env.edgeGraphs e) (bvValue v st₁.prevState) (bvValue v next) →
        lits.any (Literal.eval v) = true := by
    intro v hv h
    rw [hprev₁] at h
    obtain ⟨m, hm, hsrc, hdest⟩ := mem_moves.mpr h
    exact hlower v hv m hm (hsrc ▸ hreached v (hdefines₁.sound v hv)) hsrc hdest
  obtain ⟨hclause, hlBelow, hlEval⟩ := edgeClause_spec (hal.below.mono hadds.defines.le)
    (fun v hv => hal.eval v (hadds.defines.sound v hv)) hskip hskipBelow hskipEval htaken htakes
  rcases ho : cnf₂.lorVector lits' with ⟨anyTrans, cnf₃⟩
  rcases hi : cnf₃.limplies al anyTrans with ⟨l, cnf₄⟩
  simp only [ho, hi] at hclause hlBelow hlEval
  have hdefines := hskip.trans hclause
  have hgrows := hdefines.grows.trans (lcnf_grows cnf₄ [l])
  refine ⟨al, { st₁ with cnf := cnf₄.lcnf [l] }, eq', adds, ?_, ?_, ?_⟩
  · exact
      { ready := hadds.ready.grows hgrows _ _
        grows := hdefines₁.grows.trans hgrows
        prevState := hprev₁
        reached := hadds.reached
        recorded := hrecorded
        logged := hlogged.grows hgrows
        chooses := by
          refine ((hchooses.defines (hdefines₁.trans hdefines)).lcnf hlBelow
            (S := fun v ns => ∀ t, ns = [t] →
              env.EdgeMoves step v (bvValue v st.prevState) t e) ?_ ?_).congr ?_
          · intro v w hvw ns h t ht
            rw [← bvValue_agree hprev hvw]
            exact (h t ht).agree hstep hvw
          · intro v hv
            rw [hlEval v hv, hprev₁]
            simp
          · intro v ns
            simp
        below := by simpa using hal.below.mono (hadds.defines.grows.trans hgrows).le
        guards_eval := by
          intro v hv
          have h₁ := hgrows.sound v hv
          simp [hal.eval v (hadds.defines.sound v h₁), passes]
        entered := by
          intro v hv hany
          obtain ⟨hv, hunit⟩ := lcnf_models.mp hv
          obtain ⟨m, hm, htrue⟩ := clauseTrue_iff.mp hunit
          cases List.mem_singleton.mp hm
          have h₁ := hdefines.sound v hv
          have hr := hreached v (hdefines₁.sound v h₁)
          rcases (hlEval v hv).mp htrue (by simpa using hany) with h | ⟨-, hstay⟩
          · exact (hupper v h₁ (htakes v h₁ h)).2
          · rw [hstay, hprev₁]
            exact hadds.reached _ hr }
  · exact hskipEq.grows (hclause.grows.trans (lcnf_grows cnf₄ [l]))
  · intro rest
    simp only [addEdges, hl, ha, hs, ho, hi]

variable (entry) in
/-- The loop over the edges, by induction. -/
theorem addEdges_spec (eqLiteral : Literal) (henv : env.TransitionsFit)
    (hst : env.Ready next st) (hprev : ∀ l ∈ st.prevState, l.Below c.noVariables)
    (hstep : StepBelow c.noVariables step) (hchooses : c.Chooses R [next] st.cnf)
    (hreached : ∀ v, st.cnf.Models v → bvValue v st.prevState ∈ st.possiblyReached)
    (heq : EqLiteral next st eqLiteral) :
    ∃ adds, env.EdgesDone step next c R entry st
        (env.addEdges step (env.gotoEdge step.pc (env.maps.edgeEntry step.pc)) next entry
          eqLiteral st).2
        (env.addEdges step (env.gotoEdge step.pc (env.maps.edgeEntry step.pc)) next entry
          eqLiteral st).1.1 adds ∧
      EqLiteral next
        (env.addEdges step (env.gotoEdge step.pc (env.maps.edgeEntry step.pc)) next entry
          eqLiteral st).2
        (env.addEdges step (env.gotoEdge step.pc (env.maps.edgeEntry step.pc)) next entry
          eqLiteral st).1.2 := by
  induction entry generalizing st R eqLiteral with
  | nil =>
      refine ⟨[], ?_, heq⟩
      exact
        { ready := hst
          grows := Grows.refl _
          prevState := rfl
          reached := fun _ h => h
          recorded := rfl
          logged := Logged.nil
          chooses := hchooses.congr fun v ns => by simp
          below := by simp [addEdges]
          guards_eval := by simp [addEdges]
          entered := by simp }
  | cons e rest ih =>
      obtain ⟨al, st', eqLiteral', adds, hdone, heq', hrest⟩ :=
        addEdge_spec (e := e) henv hst hprev hstep hchooses hreached heq
      obtain ⟨adds', hdone', heq''⟩ := ih _ hdone.ready (hdone.prevState ▸ hprev) hdone.chooses
        (fun v hv => hdone.prevState ▸ hdone.reached _ (hreached v (hdone.grows.sound v hv))) heq'
      rw [hrest]
      exact ⟨adds ++ adds', hdone.append hdone', heq''⟩

variable (st) in
/-- The clause that keeps the state when no edge is taken. -/
theorem stayClause_spec {edge eqLiteral : Literal} (hst : env.Ready next st)
    (hedge : edge.Below st.cnf.noVariables) (heq : EqLiteral next st eqLiteral) :
    let eq := if !edge.isTrue && eqLiteral.isFalse then env.bvUtils.equal st.cnf st.prevState next
      else (eqLiteral, st.cnf)
    let l := eq.2.lor edge eq.1
    Defines st.cnf l.2 ∧ l.1.Below l.2.noVariables ∧
      ∀ v, l.2.Models v → (l.1.eval v = true ↔
        edge.eval v = true ∨ bvValue v next = bvValue v st.prevState) := by
  intro eq l
  have hspec : Defines st.cnf eq.2 ∧ eq.1.Below eq.2.noVariables ∧
      ∀ v, eq.2.Models v → (edge.eval v = true ∨ eq.1.eval v = true ↔
        edge.eval v = true ∨ bvValue v next = bvValue v st.prevState) := by
    by_cases hnew : (!edge.isTrue && eqLiteral.isFalse) = true
    · have hnames := equal_names hst.prevVector hst.nextVector
      simp only [eq, if_pos hnew]
      refine ⟨hnames.defines, hnames.below, ?_⟩
      intro v hv
      rw [hnames.eval v hv, decide_eq_true_eq, eq_comm (a := bvValue v next)]
    · simp only [eq, if_neg hnew]
      refine ⟨Defines.refl _, heq.1, ?_⟩
      intro v hv
      rw [Bool.not_eq_true, Bool.and_eq_false_iff, Bool.not_eq_false'] at hnew
      rcases hnew with htrue | hfalse
      · simp [Literal.isTrue_iff.mp htrue]
      · have heval := heq.2.resolve_left (by simp [hfalse]) v hv
        rw [heval, decide_eq_true_eq, eq_comm (a := bvValue v next)]
  have hl : eq.2.Names _ l := lor_names (hedge.mono hspec.1.le) hspec.2.1
  refine ⟨hspec.1.trans hl.defines, hl.below, ?_⟩
  intro v hv
  rw [hl.eval v hv, Bool.or_eq_true]
  exact hspec.2.2 v (hl.defines.sound v hv)

/-- The moves at the edges, one condition for each edge. -/
theorem edges_moves_iff {s t : TaState} :
    env.Moves v (.edges step) s t ↔
      (∀ e ∈ env.maps.edgeEntry step.pc, env.EdgeMoves step v s t e) ∧
        ((env.maps.edgeEntry step.pc).any (env.passes v (.edges step)) = true ∨ t = s) := by
  rw [List.any_eq_true]
  exact ⟨fun h => h.2, fun h => ⟨rfl, h⟩⟩

/-- **The round of the edges** adds what moves the automaton there. -/
theorem edgeRound_spec (henv : env.TransitionsFit) (hst : env.Settled st)
    (hstep : StepBelow st.cnf.noVariables step) :
    ∃ adds, env.RoundDone (.edges step) st
      (env.edgeRound step (env.maps.edgeEntry step.pc) st) adds := by
  have hready := hst.ready
  have hnew := newVariables_chooses st.cnf env.width
  rcases hn : st.cnf.newVariables env.width with ⟨next, cnf⟩
  rw [hn] at hready hnew
  obtain ⟨adds, hdone, heq⟩ := addEdges_spec (env.maps.edgeEntry step.pc)
    (.const false) henv hready hst.vector.below hstep hnew
    (fun v hv => hst.reached v (hnew.grows.sound v hv))
    ⟨Literal.below_const _ _, Or.inl rfl⟩
  rcases he : env.addEdges step (env.gotoEdge step.pc (env.maps.edgeEntry step.pc)) next
    (env.maps.edgeEntry step.pc) (.const false) { st with cnf := cnf } with
    ⟨⟨guards, eqLiteral⟩, st₁⟩
  rw [he] at hdone heq
  have hprev : st₁.prevState = st.prevState := hdone.prevState
  have hedge := lorVector_names hdone.below
  rcases ho : st₁.cnf.lorVector guards with ⟨edge, cnf₁⟩
  rw [ho] at hedge
  obtain ⟨hclause, hbelow, heval⟩ := stayClause_spec { st₁ with cnf := cnf₁ }
    (hdone.ready.grows hedge.defines.grows _ _) hedge.below (heq.grows hedge.defines.grows)
  rcases hi : (if !edge.isTrue && eqLiteral.isFalse then env.bvUtils.equal cnf₁ st₁.prevState next
    else (eqLiteral, cnf₁)) with ⟨eq, cnf₂⟩
  rcases hl : cnf₂.lor edge eq with ⟨l, cnf₃⟩
  simp only [hi, hl] at hclause hbelow heval
  have hresult : env.edgeRound step (env.maps.edgeEntry step.pc) st =
      swap next { st₁ with cnf := cnf₃.lcnf [l] } := by
    simp only [edgeRound, hn, he, ho, hi, hl]
  rw [hresult]
  have hdefines := hedge.defines.trans hclause
  have hgrows := hdefines.grows.trans (lcnf_grows cnf₃ [l])
  have hmeaning : ∀ v, cnf₃.Models v → (l.eval v = true ↔
      (env.maps.edgeEntry step.pc).any (env.passes v (.edges step)) = true ∨
        bvValue v next = bvValue v st.prevState) := by
    intro v hv
    have h₁ := hclause.sound v hv
    rw [heval v hv, hedge.eval v h₁, hdone.guards_eval v (hedge.defines.sound v h₁), hprev]
  refine ⟨adds, ⟨hdone.ready.nextVector.grows hgrows, hdone.ready.nextCache.grows hgrows, rfl, ?_⟩,
    ?_, hdone.recorded, hdone.logged.grows hgrows⟩
  · intro v hv
    obtain ⟨hv, hunit⟩ := lcnf_models.mp hv
    obtain ⟨m, hm, htrue⟩ := clauseTrue_iff.mp hunit
    cases List.mem_singleton.mp hm
    have h₁ := hdefines.sound v hv
    rcases (hmeaning v hv).mp htrue with hany | hstay
    · exact hdone.entered v h₁ hany
    · show bvValue v next ∈ st₁.possiblyReached
      rw [hstay]
      exact hdone.reached _ (hst.reached v (hnew.grows.sound v (hdone.grows.sound v h₁)))
  · refine ((hdone.chooses.defines hdefines).lcnf hbelow
      (S := fun v ns => ∀ t, ns = [t] →
        ((env.maps.edgeEntry step.pc).any (env.passes v (.edges step)) = true ∨
          t = bvValue v st.prevState)) ?_ ?_).congr ?_
    · intro v w hvw ns h t ht
      have hpasses : env.passes w (.edges step) = env.passes v (.edges step) :=
        funext fun e => (passes_agree (r := .edges step) hstep hvw e).symm
      rw [← bvValue_agree hst.vector.below hvw, hpasses]
      exact h t ht
    · intro v hv
      rw [hmeaning v hv]
      simp
    · intro v ns
      rw [← moves_iff henv hst v ns]
      simp only [edges_moves_iff, and_assoc, forall_and]

/-- **The round without edges** excludes the step or adds nothing. -/
theorem leaveRound_spec (hst : env.Settled st) (hstep : StepBelow st.cnf.noVariables step) :
    env.RoundDone (.leave step) st
      (if isInstrumented (env.instruction step.pc) then st
        else { st with cnf := st.cnf.lcnf [step.guard.neg] }) [] := by
  have hmoves : ∀ v s t, env.Moves v (.leave step) s t ↔
      env.blocked v (.leave step) = false ∧ t = s := by
    intro v s t
    simp [Moves, MovesBy, exits]
  by_cases hinstrumented : isInstrumented (env.instruction step.pc) = true
  · rw [if_pos hinstrumented]
    refine ⟨hst, (Chooses.again hst.vector.below).congr ?_, rfl, Logged.nil⟩
    intro v ns
    simp [hmoves, blocked, hinstrumented]
  · rw [if_neg hinstrumented]
    have hgrows := lcnf_grows st.cnf [step.guard.neg]
    refine ⟨⟨hst.vector.grows hgrows, hst.cache.grows hgrows, hst.nextCache, ?_⟩, ?_, rfl,
      Logged.nil⟩
    · exact fun v hv => hst.reached v (hgrows.sound v hv)
    · refine ((Chooses.again hst.vector.below).lcnf (Literal.below_neg.mpr hstep.guard)
        (S := fun v _ => step.guard.eval v = false) ?_ ?_).congr ?_
      · intro v w hvw ns h
        rw [← hstep.guard.eval_eq hvw]
        exact h
      · intro v hv
        simp
      · intro v ns
        simp only [hmoves, blocked, hinstrumented, Bool.not_false, Bool.true_and]
        grind

end EdgeLoop

end Encoder

end FShell
