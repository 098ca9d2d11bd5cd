import FShell.Collections.SetMap
import FShell.Concepts.TargetGraph
import FShell.Evaluation.EvaluateFilter
import FShell.Solvers.Choices
import FShell.TcGeneration.TestSuiteOutput

/-!
# The Boolean encoding of an automaton

`Compute_Test_Goals_Boolean::build` adds clauses to those of the unwound
program that follow a trace automaton along the execution.  The state is a bit
vector; for every step of the equation it is moved by the target graphs that
have the location as a node, in several rounds, and then by those that have the
outgoing edge.  States without a transition in the graphs of a location never
turn up in its clauses, nor do states that no earlier step can have reached.

The iterators of the program are a type `ν` in the order of `GOTO_Lt_Compare`,
and an edge is a pair of them.  The literals that the walk of the cover clause
reads later are stored under goal state and edge (`tgToLitMap`); what
`get_satisfied_test_goals` needs is stored under the number of the step.
-/

namespace FShell

/-- `operator<` of `literalt`. -/
instance : LinearOrder Literal where
  le a b := a = b ∨ a.before b = true
  lt a b := a.before b = true
  le_refl _ := Or.inl rfl
  le_trans a b c hab hbc := by
    rcases hab with rfl | hab
    · exact hbc
    · rcases hbc with rfl | hbc
      · exact Or.inr hab
      · exact Or.inr (Literal.before_trans hab hbc)
  lt_iff_le_not_ge a b := by
    have hirrefl := Literal.before_irrefl a
    have htrans := @Literal.before_trans a b a
    grind
  le_antisymm a b hab hba := by
    have hirrefl := Literal.before_irrefl a
    have htrans := @Literal.before_trans a b a
    grind
  le_total a b := by
    have htotal := Literal.before_trichotomous a b
    grind
  toDecidableLE a b := inferInstanceAs (Decidable (a = b ∨ a.before b = true))
  toDecidableLT a b := inferInstanceAs (Decidable (a.before b = true))

/-- `bv_utilst::equal`: the literal tells whether two vectors of one width denote
the same number. -/
structure BvEqual where
  equal : Cnf → List Literal → List Literal → Literal × Cnf
  equal_names : ∀ (c : Cnf) (op0 op1 : List Literal), op0.length = op1.length →
    (∀ l ∈ op0, l.Below c.noVariables) → (∀ l ∈ op1, l.Below c.noVariables) →
    c.Names (fun v => bvValue v op0 = bvValue v op1) (equal c op0 op1)

/-- The bits in which two vectors agree. -/
def Cnf.equalBits (c : Cnf) : List Literal → List Literal → List Literal × Cnf
  | a :: op0, b :: op1 =>
      let (l, c) := c.lequal a b
      let (bits, c) := equalBits c op0 op1
      (l :: bits, c)
  | _, _ => ([], c)

theorem Cnf.equalBits_spec {c : Cnf} {op0 op1 : List Literal} (hlength : op0.length = op1.length)
    (h0 : ∀ l ∈ op0, l.Below c.noVariables) (h1 : ∀ l ∈ op1, l.Below c.noVariables) :
    Defines c (c.equalBits op0 op1).2 ∧
      (∀ l ∈ (c.equalBits op0 op1).1, l.Below (c.equalBits op0 op1).2.noVariables) ∧
      ∀ v, (c.equalBits op0 op1).2.Models v →
        (c.equalBits op0 op1).1.all (Literal.eval v) = decide (bvValue v op0 = bvValue v op1) := by
  induction op0 generalizing c op1 with
  | nil =>
      cases op1 with
      | nil => exact ⟨Defines.refl c, by simp [equalBits], by simp [equalBits]⟩
      | cons b op1 => cases hlength
  | cons a op0 ih =>
      cases op1 with
      | nil => cases hlength
      | cons b op1 =>
          have hl := lequal_names (h0 a List.mem_cons_self) (h1 b List.mem_cons_self)
          obtain ⟨hdefines, hbelow, heval⟩ := ih (Nat.succ_inj.mp hlength)
            (fun l h => (h0 l (List.mem_cons_of_mem _ h)).mono hl.defines.le)
            (fun l h => (h1 l (List.mem_cons_of_mem _ h)).mono hl.defines.le)
          simp only [equalBits]
          refine ⟨hl.defines.trans hdefines, ?_, ?_⟩
          · intro l h
            rcases List.mem_cons.mp h with rfl | h
            · exact hl.below.mono hdefines.le
            · exact hbelow l h
          · intro v hv
            rw [List.all_cons, heval v hv, hl.eval v (hdefines.sound v hv), bvValue_cons,
              bvValue_cons, Bool.eq_iff_iff, Bool.and_eq_true, decide_eq_true_eq,
              decide_eq_true_eq, beq_iff_eq]
            cases a.eval v <;> cases b.eval v <;>
              simp only [Bool.toNat_true, Bool.toNat_false, true_and, false_and, reduceCtorEq,
                false_iff] <;>
              omega

/-- `equal` as the conjunction of the bits in which the vectors agree. -/
def bitwiseEqual : BvEqual where
  equal c op0 op1 :=
    let (bits, c) := c.equalBits op0 op1
    c.landVector bits
  equal_names := by
    intro c op0 op1 hlength h0 h1
    obtain ⟨hdefines, hbelow, heval⟩ := Cnf.equalBits_spec hlength h0 h1
    have hand := Cnf.landVector_names hbelow
    refine ⟨hdefines.trans hand.defines, hand.below, ?_⟩
    intro v hv
    exact (hand.eval v hv).trans (heval v (hand.defines.sound v hv))

/-! ## The steps of the equation -/

/-- The kinds of steps that are told apart. -/
inductive StepType
  | assignment
  | assume
  | assert
  | location
  | functionCall
  | sharedRead
  | sharedWrite
  | other
  deriving DecidableEq

/-- `symex_target_equationt::SSA_stept`.  The guard has no literal when its
variable is `unused_var_no()`. -/
structure EquationStep (ν : Type) where
  pc : ν
  type : StepType
  assignmentType : AssignmentType
  guardLiteral : Option Literal

/-- What `do_step` reads of a step, with its position in the equation. -/
structure StepView (ν : Type) where
  number : Nat
  pc : ν
  guard : Literal
  gotoGuard : Literal

section Steps

variable {ν : Type} [DecidableEq ν] (instruction : ν → Instruction)

/-- The tests by which `build` skips a step on its own account. -/
def ignoredStep (step : EquationStep ν) : Bool :=
  -- cannot reach final assert(0) from this node
  step.guardLiteral.isNone || ignoreFunctionOf (instruction step.pc) ||
    ignoreInstruction (instruction step.pc) ||
    (step.type = .assignment &&
      (step.assignmentType = .hidden || step.assignmentType = .guard ||
        step.assignmentType = .phi)) ||
    step.type = .sharedWrite || step.type = .sharedRead

/-- One of the further steps that an instruction produces after its first. -/
def furtherStep (previous step : EquationStep ν) : Bool :=
  step.pc = previous.pc && previous.type = .location &&
    (step.type = .assignment || step.type = .functionCall ||
      ((step.type = .assume || step.type = .assert) && (instruction step.pc).isGoto))

/-- The literal that `guard_finder` finds behind a goto, if it finds one. -/
def guardFinder : List (EquationStep ν) → Option Literal
  | [] => none
  | step :: rest =>
      if step.type = .assignment ∧ step.assignmentType = .guard then
        rest.head?.bind EquationStep.guardLiteral
      else step.guardLiteral

/-- `goto_guard`, from the step and those behind it. -/
def gotoGuard (step : EquationStep ν) (rest : List (EquationStep ν)) : Option Literal :=
  if (instruction step.pc).isGoto ∧ step.type = .location then
    if (instruction step.pc).guard = .isTrue then some (Literal.const false).neg
    else (guardFinder rest).map Literal.neg
  else some (.const false)

/-- The loop of `build` over the equation up to the calls of `do_step`, from the step
with the given number on; `previous` is `previous_pc`. -/
def stepViews (previous : Option (EquationStep ν)) (number : Nat) :
    List (EquationStep ν) → Option (List (StepView ν))
  | [] => some []
  | step :: rest =>
      if ignoredStep instruction step || previous.any (furtherStep instruction · step) then
        stepViews previous (number + 1) rest
      else do
        let guard ← step.guardLiteral
        let gotoGuard ← gotoGuard instruction step rest
        let previous := if previous.any (·.pc = step.pc) then previous else some step
        let views ← stepViews previous (number + 1) rest
        some (⟨number, step.pc, guard, gotoGuard⟩ :: views)

end Steps

/-! ## Numbers of states -/

/-- `compact_state_numbers`: `s_map`, the position of a state in the walk over the
automaton. -/
def TraceAutomaton.compactNumber (aut : TraceAutomaton) (s : TaState) : TaState :=
  aut.states.idxOf s

/-- `compact_state_numbers`: `reverse_s_map`. -/
def TraceAutomaton.reverseNumber (aut : TraceAutomaton) (i : TaState) : TaState :=
  aut.states.getD i 0

/-- `compact_state_numbers`: `finals`. -/
def TraceAutomaton.compactFinals (aut : TraceAutomaton) : SortedSet TaState :=
  SortedSet.empty.insertAll ((aut.states.filter aut.isFinal).map aut.compactNumber)

/-- The rounds of `while (num_states >>= 1)`. -/
def halvings (n : Nat) : Nat :=
  if n / 2 = 0 then 0 else halvings (n / 2) + 1
termination_by n
decreasing_by omega

/-- `width`. -/
def TraceAutomaton.width (aut : TraceAutomaton) : Nat := 1 + halvings aut.states.length

/-! ## Target graphs by location -/

/-- The members `m_loc_to_node_target_graphs_map` and `m_loc_to_edge_target_graphs_map`.
The entry of a location in the first has one key, the node. -/
structure LocMaps (ν : Type) [LinearOrder ν] where
  nodes : SetMap ν Int
  edges : SetMap (ν ×ₗ ν) Int

section Maps

variable {ν : Type} [LinearOrder ν]

def LocMaps.empty : LocMaps ν := ⟨SetMap.empty, SetMap.empty⟩

/-- The mappings from edges and from nodes to the target graph `tgg`. -/
def LocMaps.store (maps : LocMaps ν) (g : Int) (tgg : TargetGraph ν) : LocMaps ν where
  nodes := tgg.disconnectedNodes.foldl (fun nodes n => nodes.insert n g) maps.nodes
  edges := (tgg.edges.map toLex).foldl (fun edges e => edges.insert e g) maps.edges

/-- `m_loc_to_edge_target_graphs_map.find(pc)`: the keys of the entry. -/
def LocMaps.edgeEntry (maps : LocMaps ν) (pc : ν) : List (ν ×ₗ ν) :=
  maps.edges.keys.toList.filter fun e => (ofLex e).1 = pc

/-- The transitions in the order of the two outer loops of `build`. -/
def TraceAutomaton.outEdges (aut : TraceAutomaton) : List (TaState × Int × TaState) :=
  aut.states.flatMap fun s => (aut.delta2 s).map fun e => (s, e)

/-- The loop that fills `local_target_graph_set` and the maps. -/
def collectGraphs (lookupIndex : Int → TargetGraph ν) (aut : TraceAutomaton) (maps : LocMaps ν) :
    SortedSet Int × LocMaps ν :=
  aut.outEdges.foldl
    (fun acc e =>
      if e.2.1 ∈ acc.1 then acc
      else (acc.1.insert e.2.1, acc.2.store e.2.1 (lookupIndex e.2.1)))
    (SortedSet.empty, maps)

/-- `transition_map_t`: a graph and a source state are mapped to the destinations. -/
abbrev TransitionMap := SetMap (Int ×ₗ TaState) TaState

/-- The loop that fills `transitions`. -/
def compactTransitions (aut : TraceAutomaton) : TransitionMap :=
  aut.outEdges.foldl
    (fun transitions e => transitions.insert (toLex (e.2.1, aut.compactNumber e.1))
      (aut.compactNumber e.2.2))
    SetMap.empty

/-- `transitions.find(g)->second`: sources and destinations. -/
def TransitionMap.symbol (transitions : TransitionMap) (g : Int) :
    List (TaState × List TaState) :=
  (transitions.keys.toList.filter fun k => (ofLex k).1 = g).map fun k =>
    ((ofLex k).2, (transitions.get k).toList)

end Maps

/-! ## What is written down -/

/-- `Edge_Goal`; `tg` is empty while its variable is `unused_var_no()`. -/
structure EdgeGoal where
  edgeGuard : Literal
  tg : Option Literal
  src : TaState
  dest : TaState

/-- The members that are filled when `map_tg` is set: `m_tg_to_lit_map`,
`m_step_to_trans`, `m_node_step_to_trans` and `m_node_rep_map`. -/
structure Recorded (ν : Type) [LinearOrder ν] where
  tgToLitMap : SetMap (TaState ×ₗ (ν ×ₗ ν)) Literal
  stepToTrans : List (Nat × EdgeGoal)
  nodeStepToTrans : List (Nat × EdgeGoal)
  nodeRepMap : List (Nat × Nat)

/-- The variables that `do_step` changes. -/
structure Encoding (ν : Type) [LinearOrder ν] where
  cnf : Cnf
  prevEqCache : List (TaState × Literal)
  nextEqCache : List (TaState × Literal)
  prevState : List Literal
  possiblyReached : SortedSet TaState
  recorded : Recorded ν

/-- What stays as it is while `build` calls `do_step`. -/
structure Encoder (ν : Type) [LinearOrder ν] where
  bvUtils : BvEqual
  instruction : ν → Instruction
  isGotoEdge : ν ×ₗ ν → Bool
  isTestGoalState : TaState → Bool
  mapTg : Bool
  width : Nat
  localGraphs : SortedSet Int
  transitions : TransitionMap
  reverseNumber : TaState → TaState
  maps : LocMaps ν

/-- Where transitions are added: the edge and its guard, the step, and for a node the
number of its rounds. -/
structure Site (ν : Type) where
  edge : ν ×ₗ ν
  guard : Literal
  step : Nat
  rounds : Option Nat

section Recording

variable {ν : Type} [LinearOrder ν]

/-- `m_tg_to_lit_map[state][edge].insert(l)`. -/
def Recorded.insertGoal (r : Recorded ν) (state : TaState) (edge : ν ×ₗ ν) (l : Literal) :
    Recorded ν :=
  { r with tgToLitMap := r.tgToLitMap.insert (toLex (state, edge)) l }

/-- The insertion of an `Edge_Goal`; the number of rounds of a step is inserted once. -/
def Recorded.insertTrans (r : Recorded ν) (site : Site ν) (goal : EdgeGoal) : Recorded ν :=
  match site.rounds with
  | none => { r with stepToTrans := r.stepToTrans ++ [(site.step, goal)] }
  | some rounds =>
      { r with
        nodeStepToTrans := r.nodeStepToTrans ++ [(site.step, goal)]
        nodeRepMap :=
          if r.nodeRepMap.any (·.1 = site.step) then r.nodeRepMap
          else r.nodeRepMap ++ [(site.step, rounds)] }

end Recording

namespace Encoder

variable {ν : Type} [LinearOrder ν] (env : Encoder ν)

/-! ## Adding transitions -/

/-- `make_equals`; what `state_to_bvt_lookup` keeps in `bv_cache` are constants. -/
def makeEquals (eqCache : List (TaState × Literal)) (stateVec : List Literal) (state : TaState)
    (c : Cnf) : Literal × List (TaState × Literal) × Cnf :=
  match eqCache.lookup state with
  | some l => (l, eqCache, c)
  | none =>
      let (l, c) := env.bvUtils.equal c stateVec (buildConstant state env.width)
      (l, (state, l) :: eqCache, c)

/-- The part under `if (map_tg)`, for a destination with the literal `eq`. -/
def mapGoal (site : Site ν) (src dest : TaState) (eq : Literal) (st : Encoding ν) : Encoding ν :=
  if env.mapTg then
    let unmapped := env.reverseNumber dest
    if env.isTestGoalState unmapped then
      let (land, cnf) := st.cnf.land site.guard eq
      { st with
        cnf := cnf
        recorded := (st.recorded.insertGoal unmapped site.edge land).insertTrans site
          ⟨site.guard, some land, env.reverseNumber src, unmapped⟩ }
    else
      { st with
        recorded := st.recorded.insertTrans site
          ⟨site.guard, none, env.reverseNumber src, unmapped⟩ }
  else st

/-- The loop that fills `dests`. -/
def addDests (site : Site ν) (next : List Literal) (src : TaState) :
    List TaState → Encoding ν → List Literal × Encoding ν
  | [], st => ([], st)
  | dest :: rest, st =>
      let (eq, nextEqCache, cnf) := env.makeEquals st.nextEqCache next dest st.cnf
      let st := env.mapGoal site src dest eq
        { st with
          cnf := cnf
          nextEqCache := nextEqCache
          possiblyReached := st.possiblyReached.insert dest }
      let (dests, st) := addDests site next src rest st
      (eq :: dests, st)

/-- The loops that fill `trans` with `transLits`: over the target graphs and over the transitions of
each. -/
def addTransitions (site : Site ν) (next : List Literal) :
    List (TaState × List TaState) → Encoding ν → List Literal × Encoding ν
  | [], st => ([], st)
  | (src, dests) :: rest, st =>
      if src ∈ st.possiblyReached then
        let (dests, st) := env.addDests site next src dests st
        -- (state-vec == source-state) -> new-state-vec == (one of dest states)
        let (reqSrc, prevEqCache, cnf) := env.makeEquals st.prevEqCache st.prevState src st.cnf
        let (anyDest, cnf) := cnf.lorVector dests
        let (t, cnf) := cnf.land reqSrc anyDest
        let (transLits, st) := addTransitions site next rest
          { st with cnf := cnf, prevEqCache := prevEqCache }
        (t :: transLits, st)
      else addTransitions site next rest st

/-- The swaps at the end of a round. -/
def swap (next : List Literal) (st : Encoding ν) : Encoding ν :=
  { st with prevState := next, prevEqCache := st.nextEqCache, nextEqCache := [] }

/-! ## Nodes -/

/-- `target_graphs` of a node. -/
def nodeGraphs (pc : ν) : List Int := ((env.maps.nodes.get pc).inter env.localGraphs).toList

/-- `sources`. -/
def sources (graphs : List Int) : SortedSet TaState :=
  SortedSet.empty.insertAll ((graphs.flatMap env.transitions.symbol).map Prod.fst)

/-- A node is entered under the edge from it to itself. -/
def nodeSite (step : StepView ν) : Site ν :=
  ⟨toLex (step.pc, step.pc), step.guard, step.number,
    some (env.sources (env.nodeGraphs step.pc)).toList.length⟩

/-- The body of the loop over the sources. -/
def nodeRound (step : StepView ν) (st : Encoding ν) : Encoding ν :=
  let (next, cnf) := st.cnf.newVariables env.width
  let (transLits, st) := env.addTransitions (env.nodeSite step) next
    ((env.nodeGraphs step.pc).flatMap env.transitions.symbol) { st with cnf := cnf }
  -- we can choose to do one of the edge transitions instead or
  -- must make them equal if node is not seen
  let (eq, cnf) := env.bvUtils.equal st.cnf st.prevState next
  let (anyTrans, cnf) := cnf.lorVector transLits
  let (move, cnf) := cnf.land step.guard anyTrans
  let (l, cnf) := cnf.lor eq move
  swap next { st with cnf := cnf.lcnf [l] }

/-! ## Edges -/

/-- `target_graphs` of an edge. -/
def edgeGraphs (e : ν ×ₗ ν) : List Int := ((env.maps.edges.get e).inter env.localGraphs).toList

/-- `goto_edge`, of an entry that is not empty. -/
def gotoEdge (pc : ν) (entry : List (ν ×ₗ ν)) : Option (ν ×ₗ ν) :=
  if (env.instruction pc).isGoto then
    match entry with
    | [] => none
    | first :: rest => if env.isGotoEdge first then some first else rest.head?
  else none

/-- What is conjoined to the guard of the step for the edge `e`. -/
def edgeLiteral (step : StepView ν) (gotoEdge : Option (ν ×ₗ ν)) (e : ν ×ₗ ν) : Literal :=
  if gotoEdge = some e then step.gotoGuard else step.gotoGuard.neg

/-- The part under `if (is_instrumented)`: we can choose to skip this predicate. -/
def skipPredicate (step : StepView ν) (next transLits : List Literal) (eqLiteral : Literal)
    (st : Encoding ν) : (List Literal × Literal) × Cnf :=
  if isInstrumented (env.instruction step.pc) then
    let (eq, cnf) := env.bvUtils.equal st.cnf st.prevState next
    ((transLits ++ [eq], eq), cnf)
  else ((transLits, eqLiteral), st.cnf)

/-- The loop over the edges: `edge_guards` and `eq_literal`. -/
def addEdges (step : StepView ν) (gotoEdge : Option (ν ×ₗ ν)) (next : List Literal) :
    List (ν ×ₗ ν) → Literal → Encoding ν → (List Literal × Literal) × Encoding ν
  | [], eqLiteral, st => (([], eqLiteral), st)
  | e :: rest, eqLiteral, st =>
      let (al, cnf) := st.cnf.land step.guard (edgeLiteral step gotoEdge e)
      let (transLits, st) := env.addTransitions ⟨e, al, step.number, none⟩ next
        ((env.edgeGraphs e).flatMap env.transitions.symbol) { st with cnf := cnf }
      let ((transLits, eqLiteral), cnf) := env.skipPredicate step next transLits eqLiteral st
      -- if there is no matching target graph and the node was not added by
      -- instrumentation, there is no literal and the edge must not be taken
      let (anyTrans, cnf) := cnf.lorVector transLits
      let (l, cnf) := cnf.limplies al anyTrans
      let (out, st) := addEdges step gotoEdge next rest eqLiteral { st with cnf := cnf.lcnf [l] }
      ((al :: out.1, out.2), st)

/-- The part of `do_step` for a location with outgoing edges in the map. -/
def edgeRound (step : StepView ν) (entry : List (ν ×ₗ ν)) (st : Encoding ν) : Encoding ν :=
  let (next, cnf) := st.cnf.newVariables env.width
  let ((edgeGuards, eqLiteral), st) :=
    env.addEdges step (env.gotoEdge step.pc entry) next entry (.const false) { st with cnf := cnf }
  let (edge, cnf) := st.cnf.lorVector edgeGuards
  let (eqLiteral, cnf) :=
    if !edge.isTrue && eqLiteral.isFalse then env.bvUtils.equal cnf st.prevState next
    else (eqLiteral, cnf)
  let (l, cnf) := cnf.lor edge eqLiteral
  swap next { st with cnf := cnf.lcnf [l] }

/-- `do_step`. -/
def doStep (st : Encoding ν) (step : StepView ν) : Encoding ν :=
  let st := (env.nodeRound step)^[(env.sources (env.nodeGraphs step.pc)).toList.length] st
  match env.maps.edgeEntry step.pc with
  | [] =>
      -- statement may have been added by earlier instrumentation and we
      -- don't care about it anyway; otherwise we must not take this edge
      if isInstrumented (env.instruction step.pc) then st
      else { st with cnf := st.cnf.lcnf [step.guard.neg] }
  | entry => env.edgeRound step entry st

/-- The loop that fills `finals`. -/
def addFinals : List TaState → Encoding ν → List Literal × Encoding ν
  | [], st => ([], st)
  | s :: rest, st =>
      let (eq, prevEqCache, cnf) := env.makeEquals st.prevEqCache st.prevState s st.cnf
      let (finals, st) := addFinals rest { st with cnf := cnf, prevEqCache := prevEqCache }
      (eq :: finals, st)

end Encoder

/-! ## The whole encoding -/

/-- The members that `build` changes, with the clauses of `m_equation`. -/
structure BuildMembers (ν : Type) [LinearOrder ν] where
  cnf : Cnf
  maps : LocMaps ν
  recorded : Recorded ν

/-- What `build` finds in the members that it does not change: the program, and
`lookup_index` and `is_test_goal_state` of the evaluated query. -/
structure BuildSetting (ν : Type) where
  bvUtils : BvEqual
  instruction : ν → Instruction
  isGotoEdge : ν ×ₗ ν → Bool
  lookupIndex : Int → TargetGraph ν
  isTestGoalState : TaState → Bool

namespace BuildSetting

variable {ν : Type} [LinearOrder ν] (setting : BuildSetting ν)

def encoder (aut : TraceAutomaton) (mapTg : Bool) (maps : LocMaps ν) : Encoder ν where
  bvUtils := setting.bvUtils
  instruction := setting.instruction
  isGotoEdge := setting.isGotoEdge
  isTestGoalState := setting.isTestGoalState
  mapTg := mapTg
  width := aut.width
  localGraphs := (collectGraphs setting.lookupIndex aut maps).1
  transitions := compactTransitions aut
  reverseNumber := aut.reverseNumber
  maps := (collectGraphs setting.lookupIndex aut maps).2

/-- The variables before the first step, with the automaton in state `s`. -/
def startEncoding (aut : TraceAutomaton) (s : TaState) (members : BuildMembers ν) : Encoding ν where
  cnf := members.cnf
  prevEqCache := []
  nextEqCache := []
  prevState := buildConstant (aut.compactNumber s) aut.width
  possiblyReached := SortedSet.empty.insert (aut.compactNumber s)
  recorded := members.recorded

/-- `build(aut, map_tg)` over the steps that are not skipped, with the initial state
`s`. -/
def encode (aut : TraceAutomaton) (mapTg : Bool) (s : TaState) (steps : List (StepView ν))
    (members : BuildMembers ν) : BuildMembers ν :=
  let env := setting.encoder aut mapTg members.maps
  let st := steps.foldl env.doStep (startEncoding aut s members)
  let (finals, st) := env.addFinals aut.compactFinals.toList st
  let (final, cnf) := st.cnf.lorVector finals
  ⟨cnf.lcnf [final], env.maps, st.recorded⟩

/-- The members after `do_query` has cleared them, with the clauses of the program. -/
def emptyMembers (cnf : Cnf) : BuildMembers ν :=
  ⟨cnf, LocMaps.empty, ⟨SetMap.empty, [], [], []⟩⟩

/-- `build(aut, map_tg)`; no result when a literal is missing or the automaton has no
initial state. -/
def build (aut : TraceAutomaton) (mapTg : Bool) (equation : List (EquationStep ν))
    (members : BuildMembers ν) : Option (BuildMembers ν) := do
  let steps ← stepViews setting.instruction none 0 equation
  let s ← aut.initial.head?
  some (setting.encode aut mapTg s steps members)

/-- The two calls of `build` in `do_query`: for the coverage automaton `cover` and for the
automaton `passing` of the passing clause. -/
def buildBoth (cover passing : TraceAutomaton) (equation : List (EquationStep ν)) (cnf : Cnf) :
    Option (BuildMembers ν) := do
  let members ← setting.build cover true equation (emptyMembers cnf)
  setting.build passing false equation members

end BuildSetting

end FShell
