import FShell.Evaluation.GraphInvariance
import FShell.Automata.RecursiveCalls

/-!
# Does the path enumeration return?

`dfs_build` counts the nodes that it enters through an edge of the target
graph, and stops at a node whose count equals the bound.  Nothing is counted
when it passes an instruction that is to be ignored, and no count ever equals
a bound below one.

So the enumeration returns if and only if no cycle that it can reach consists
of such steps only.
-/

namespace FShell

open Relation TraceAutomaton

section Counting

variable {ν : Type} [DecidableEq ν]

/-- `node_counts_t`. -/
abbrev NodeCounts (ν : Type) := ν → Option Int

namespace NodeCounts

/-- The counts at an initial node. -/
def start (root : ν) : NodeCounts ν := Function.update (fun _ => none) root (some 1)

/-- One more for the node that is entered. -/
def enter (nc : NodeCounts ν) (s : ν) : NodeCounts ν :=
  Function.update nc s (some ((nc s).elim 1 (· + 1)))

variable {nc : NodeCounts ν} {s : ν}

/-- Nodes are counted from one on. -/
def Positive (nc : NodeCounts ν) : Prop := ∀ s k, nc s = some k → 1 ≤ k

theorem positive_start (root : ν) : (start root).Positive := by
  intro s k hk
  by_cases hs : s = root
  · subst hs
    rw [start, Function.update_self] at hk
    cases hk
    omega
  · rw [start, Function.update_of_ne hs] at hk
    cases hk

omit [DecidableEq ν] in
theorem one_le_elim (h : nc.Positive) (s : ν) : 1 ≤ (nc s).elim 1 (· + 1) := by
  cases hs : nc s with
  | none => exact Int.le_refl 1
  | some k =>
      have hk := h s k hs
      simp only [Option.elim_some]
      omega

theorem Positive.enter (h : nc.Positive) (s : ν) : (nc.enter s).Positive := by
  intro t k hk
  by_cases ht : t = s
  · subst ht
    rw [NodeCounts.enter, Function.update_self] at hk
    cases hk
    exact one_le_elim h t
  · rw [NodeCounts.enter, Function.update_of_ne ht] at hk
    exact h t k hk

/-- Counts do not go over a bound of at least one. -/
def AtMost (bound : Int) (nc : NodeCounts ν) : Prop := ∀ s k, nc s = some k → 1 ≤ bound → k ≤ bound

theorem atMost_start (bound : Int) (root : ν) : (start root).AtMost bound := by
  intro s k hk hbound
  by_cases hs : s = root
  · subst hs
    rw [start, Function.update_self] at hk
    cases hk
    exact hbound
  · rw [start, Function.update_of_ne hs] at hk
    cases hk

theorem AtMost.enter {bound : Int} (h : nc.AtMost bound) (hs : nc s ≠ some bound) :
    (nc.enter s).AtMost bound := by
  intro t k hk hbound
  by_cases ht : t = s
  · subst ht
    rw [NodeCounts.enter, Function.update_self] at hk
    cases hk
    cases hold : nc t with
    | none => exact hbound
    | some k =>
        have hle := h t k hold hbound
        have hne : k ≠ bound := fun heq => hs (heq ▸ hold)
        simp only [Option.elim_some]
        omega
  · rw [NodeCounts.enter, Function.update_of_ne ht] at hk
    exact h t k hk hbound

end NodeCounts

/-! ## The recursion -/

namespace FlowGraph

variable (flow : FlowGraph ν) (tgg : TargetGraph ν) (bound : Int)

/-- The call that `dfs_build` makes for a successor, if it makes one. -/
def callAt (root : ν) (nc : NodeCounts ν) (s : ν) : Option (ν × NodeCounts ν) :=
  if flow.ignored root then some (s, nc)
  else if nc s = some bound ∨ (root, s) ∉ tgg.edges then none
  else some (s, nc.enter s)

/-- The calls of `dfs_build` below a call. -/
def calls (c : ν × NodeCounts ν) : List (ν × NodeCounts ν) :=
  (flow.successors c.1).filterMap (flow.callAt tgg bound c.1 c.2)

/-- A step that the enumeration takes unless the bound is met. -/
def Passes (a b : ν) : Prop :=
  b ∈ flow.successors a ∧ (flow.ignored a = true ∨ (a, b) ∈ tgg.edges)

/-- A step that the bound never stops. -/
def Uncounted (a b : ν) : Prop :=
  flow.Passes tgg a b ∧ (flow.ignored a = true ∨ bound < 1)

end FlowGraph

variable {flow : FlowGraph ν} {tgg : TargetGraph ν} {bound : Int}

section Run

variable {F P : Type} [DecidableEq F] [DecidableEq P]

/-- The loop body of `dfs_build`, around the recursive call. -/
def loopBody (flow : FlowGraph ν) (tgg : TargetGraph ν) (bound : Int)
    (build : TaState → ν → NodeCounts ν → Enumeration F P ν → Option (Enumeration F P ν))
    (state : TaState) (root : ν) (nc : NodeCounts ν) (q : Enumeration F P ν × Bool) (s : ν) :
    Option (Enumeration F P ν × Bool) :=
  if flow.ignored root then
    (build state s nc q.1).map fun en => (en, q.2 || en.1.delta2 state = [])
  else if nc s = some bound ∨ (root, s) ∉ tgg.edges then some (q.1, true)
  else
    (build (q.1.addEdge state (root, s)).1 s (nc.enter s) (q.1.addEdge state (root, s)).2).map
      fun en => (en, q.2)

/-- `dfs_build` as a recursion that may not return within `fuel` calls. -/
def runDfsBuild (flow : FlowGraph ν) (tgg : TargetGraph ν) (bound : Int) :
    Nat → TaState → ν → NodeCounts ν → Enumeration F P ν → Option (Enumeration F P ν)
  | 0, _, _, _, _ => none
  | fuel + 1, state, root, nc, en =>
      ((flow.successors root).foldlM
        (loopBody flow tgg bound (runDfsBuild flow tgg bound fuel) state root nc)
        (en, false)).map fun q => q.1.finish state q.2

/-- What `visit(Pathcov const*)` does for an initial node. -/
def runFrom (flow : FlowGraph ν) (fuel : Nat) (tgg : TargetGraph ν) (bound : Int)
    (currentInitial : TaState) (en : Enumeration F P ν) (root : ν) :
    Option (Enumeration F P ν) :=
  let iState := en.1.newState.1
  let ta := en.1.newState.2.setTrans currentInitial epsilon iState
  (runDfsBuild flow tgg bound fuel iState root (NodeCounts.start root) (ta, en.2)).map
    -- an initial state without successor is not accepting
    fun en => (en.1.clearFinal iState, en.2)

/-- The body of `visit(Pathcov const*)` with this recursion. -/
def runPathcov (flow : FlowGraph ν) (fuel : Nat) (tgg : TargetGraph ν) (bound : Int)
    (graphs : GraphTable F P ν) : Option (Enumeration F P ν) :=
  let (currentInitial, ta) := TraceAutomaton.empty.newState
  tgg.initial.foldlM (runFrom flow fuel tgg bound currentInitial)
    (ta.insertInitial currentInitial, graphs)

variable {fuel : Nat} {state : TaState} {root : ν} {nc : NodeCounts ν}
  {en en' : Enumeration F P ν}

/-- **One iteration.**  The root is ignored, the successor is blocked, or its
edge is added. -/
theorem loopBody_cases
    {build : TaState → ν → NodeCounts ν → Enumeration F P ν → Option (Enumeration F P ν)}
    {q q' : Enumeration F P ν × Bool} {s : ν}
    (h : loopBody flow tgg bound build state root nc q s = some q') :
    (flow.ignored root = true ∧ ∃ en, build state s nc q.1 = some en ∧
        q' = (en, q.2 || en.1.delta2 state = [])) ∨
      (¬ flow.ignored root = true ∧ (nc s = some bound ∨ (root, s) ∉ tgg.edges) ∧
        q' = (q.1, true)) ∨
      (¬ flow.ignored root = true ∧ nc s ≠ some bound ∧ (root, s) ∈ tgg.edges ∧
        ∃ en, build (q.1.addEdge state (root, s)).1 s (nc.enter s)
          (q.1.addEdge state (root, s)).2 = some en ∧ q' = (en, q.2)) := by
  unfold loopBody at h
  split at h
  case isTrue hignored =>
    obtain ⟨en, hen, rfl⟩ := Option.map_eq_some_iff.mp h
    exact Or.inl ⟨hignored, en, hen, rfl⟩
  case isFalse hignored =>
    split at h
    case isTrue hblocked =>
      cases h
      exact Or.inr (Or.inl ⟨hignored, hblocked, rfl⟩)
    case isFalse hblocked =>
      obtain ⟨en, hen, rfl⟩ := Option.map_eq_some_iff.mp h
      obtain ⟨hne, hedge⟩ := not_or.mp hblocked
      exact Or.inr (Or.inr ⟨hignored, hne, not_not.mp hedge, en, hen, rfl⟩)

/-- What returns is what `dfs_build` builds. -/
theorem dfsBuild_eq_of_run (h : runDfsBuild flow tgg bound fuel state root nc en = some en') :
    dfsBuild flow tgg bound fuel state root nc en = en' := by
  induction fuel generalizing state root nc en en' with
  | zero => cases h
  | succ fuel ih =>
      obtain ⟨q, hq, rfl⟩ := Option.map_eq_some_iff.mp h
      have hloop := foldl_eq_of_foldlM
        (g := fun (q : Enumeration F P ν × Bool) s =>
          if flow.ignored root then
            (dfsBuild flow tgg bound fuel state s nc q.1,
              q.2 || (dfsBuild flow tgg bound fuel state s nc q.1).1.delta2 state = [])
          else if nc s = some bound ∨ (root, s) ∉ tgg.edges then (q.1, true)
          else
            (dfsBuild flow tgg bound fuel (q.1.addEdge state (root, s)).1 s (nc.enter s)
              (q.1.addEdge state (root, s)).2, q.2)) ?_ hq
      · exact congrArg (fun q : Enumeration F P ν × Bool => q.1.finish state q.2) hloop
      · intro b s b' hb
        rcases loopBody_cases hb with ⟨hignored, e, he, rfl⟩ | ⟨hignored, hblocked, rfl⟩ |
          ⟨hignored, hne, hedge, e, he, rfl⟩
        · simp only [if_pos hignored, ih he]
        · simp only [if_neg hignored, if_pos hblocked]
        · simp only [if_neg hignored, if_neg (not_or.mpr ⟨hne, not_not.mpr hedge⟩), ih he]

theorem pathcovAutomaton_eq_of_run {graphs : GraphTable F P ν}
    (h : runPathcov flow fuel tgg bound graphs = some en) :
    pathcovAutomaton flow fuel tgg bound graphs = en := by
  refine foldl_eq_of_foldlM ?_ h
  intro b root b' hb
  obtain ⟨e, he, rfl⟩ := Option.map_eq_some_iff.mp hb
  rw [← dfsBuild_eq_of_run he]
  rfl

/-- The recursion returns once all its calls do. -/
theorem isSome_runDfsBuild :
    (runDfsBuild flow tgg bound fuel state root nc en).isSome ↔
      ReturnsWithin (flow.calls tgg bound) fuel (root, nc) := by
  induction fuel generalizing state root nc en with
  | zero => exact ⟨nofun, False.elim⟩
  | succ fuel ih =>
      have hloop : ∀ q : Enumeration F P ν × Bool, ∀ s ∈ flow.successors root,
          (loopBody flow tgg bound (runDfsBuild flow tgg bound fuel) state root nc q s).isSome ↔
            ∀ c ∈ flow.callAt tgg bound root nc s,
              ReturnsWithin (flow.calls tgg bound) fuel c := by
        intro q s _
        unfold FlowGraph.callAt loopBody
        split
        · simp [ih]
        · split
          · simp
          · simp [ih]
      have hall := isSome_foldlM_iff hloop (en, false)
      rw [runDfsBuild, Option.isSome_map, hall]
      refine ⟨?_, ?_⟩
      · intro h c hc
        obtain ⟨s, hs, hcall⟩ := List.mem_filterMap.mp hc
        exact h s hs c hcall
      · intro h s hs c hcall
        exact h c (List.mem_filterMap.mpr ⟨s, hs, hcall⟩)

theorem isSome_runPathcov {graphs : GraphTable F P ν} :
    (runPathcov flow fuel tgg bound graphs).isSome ↔
      ∀ root ∈ tgg.initial,
        ReturnsWithin (flow.calls tgg bound) fuel (root, NodeCounts.start root) := by
  refine isSome_foldlM_iff (fun en root _ => ?_) _
  rw [runFrom, Option.isSome_map]
  exact isSome_runDfsBuild

end Run

/-! ## Cycles -/

section Cycles

variable {root a b : ν} {nc : NodeCounts ν}

open FlowGraph

omit [DecidableEq ν] in
/-- A positive count equals no bound below one. -/
theorem NodeCounts.Positive.ne_bound (h : nc.Positive) (hbound : bound < 1) (s : ν) :
    nc s ≠ some bound := by
  intro hs
  have hk := h s bound hs
  omega

theorem calls_cases {c : ν × NodeCounts ν} (h : c ∈ flow.calls tgg bound (a, nc)) :
    (flow.ignored a = true ∧ c.1 ∈ flow.successors a ∧ c.2 = nc) ∨
      (flow.Passes tgg a c.1 ∧ nc c.1 ≠ some bound ∧ c.2 = nc.enter c.1) := by
  obtain ⟨s, hs, hcall⟩ := List.mem_filterMap.mp h
  unfold callAt at hcall
  split at hcall
  case isTrue hignored =>
    cases hcall
    exact Or.inl ⟨hignored, hs, rfl⟩
  case isFalse hignored =>
    split at hcall
    case isTrue hblocked => cases hcall
    case isFalse hblocked =>
      cases hcall
      obtain ⟨hne, hedge⟩ := not_or.mp hblocked
      exact Or.inr ⟨⟨hs, Or.inr (not_not.mp hedge)⟩, hne, rfl⟩

/-- A step is a call unless the bound is met. -/
theorem exists_call (h : flow.Passes tgg a b) (hne : flow.ignored a = true ∨ nc b ≠ some bound) :
    ∃ nc', (b, nc') ∈ flow.calls tgg bound (a, nc) ∧ (nc' = nc ∨ nc' = nc.enter b) := by
  obtain ⟨hsucc, hedge⟩ := h
  by_cases hignored : flow.ignored a = true
  · refine ⟨nc, List.mem_filterMap.mpr ⟨b, hsucc, ?_⟩, Or.inl rfl⟩
    rw [callAt, if_pos hignored]
  · have hedge := hedge.resolve_left hignored
    have hne := hne.resolve_left hignored
    refine ⟨nc.enter b, List.mem_filterMap.mpr ⟨b, hsucc, ?_⟩, Or.inr rfl⟩
    rw [callAt, if_neg hignored, if_neg (not_or.mpr ⟨hne, not_not.mpr hedge⟩)]

theorem positive_of_cases {nc' : NodeCounts ν} (h : nc.Positive)
    (hcases : nc' = nc ∨ nc' = nc.enter b) : nc'.Positive := by
  rcases hcases with rfl | rfl
  · exact h
  · exact h.enter b

/-- From a node on a cycle of uncounted steps there are always further calls. -/
theorem not_acc_of_cycle {c : ν × NodeCounts ν}
    (hacc : Acc (fun c' c => c' ∈ flow.calls tgg bound c) c) (hpos : c.2.Positive) :
    ¬ TransGen (flow.Uncounted tgg bound) c.1 c.1 := by
  induction hacc with
  | intro c _ ih =>
      intro hcycle
      obtain ⟨b, hstep, hback⟩ := TransGen.head'_iff.mp hcycle
      have hne : flow.ignored c.1 = true ∨ c.2 b ≠ some bound :=
        hstep.2.imp_right fun hbound => hpos.ne_bound hbound b
      obtain ⟨nc', hcall, hnc'⟩ := exists_call hstep.1 hne
      exact ih (b, nc') hcall (positive_of_cases hpos hnc') (TransGen.tail' hback hstep)

/-- Along a simple path no bound of at least one is met, and no other bound is
ever met. -/
theorem acc_of_simple_path {l : List ν}
    (hacc : Acc (fun c' c => c' ∈ flow.calls tgg bound c) (a, nc)) (hpos : nc.Positive)
    (hchain : (a :: l).IsChain (flow.Passes tgg)) (hnodup : (a :: l).Nodup)
    (hfresh : ∀ s ∈ l, nc s = none) (hb : (a :: l).getLast? = some b) :
    ∃ nc' : NodeCounts ν, nc'.Positive ∧ Acc (fun c' c => c' ∈ flow.calls tgg bound c) (b, nc') := by
  induction l generalizing a nc with
  | nil =>
      cases hb
      exact ⟨nc, hpos, hacc⟩
  | cons s l ih =>
      obtain ⟨hstep, hchain⟩ := List.isChain_cons_cons.mp hchain
      obtain ⟨_, hnodup⟩ := List.nodup_cons.mp hnodup
      have hs := hfresh s List.mem_cons_self
      have hne : nc s ≠ some bound := by
        rw [hs]
        exact nofun
      obtain ⟨nc', hcall, hnc'⟩ := exists_call hstep (Or.inr hne)
      refine ih (hacc.inv hcall) (positive_of_cases hpos hnc') hchain hnodup ?_ ?_
      · intro t ht
        have hold := hfresh t (List.mem_cons_of_mem _ ht)
        rcases hnc' with rfl | rfl
        · exact hold
        · have hts : t ≠ s := fun heq => (List.nodup_cons.mp hnodup).1 (heq ▸ ht)
          rw [NodeCounts.enter, Function.update_of_ne hts, hold]
      · rw [List.getLast?_cons_cons] at hb
        exact hb

/-- A cycle of uncounted steps that can be reached keeps the recursion going. -/
theorem no_cycle_of_acc
    (hacc : Acc (fun c' c => c' ∈ flow.calls tgg bound c) (root, NodeCounts.start root))
    (hreach : ReflTransGen (flow.Passes tgg) root a) :
    ¬ TransGen (flow.Uncounted tgg bound) a a := by
  obtain ⟨l, hchain, hnodup, hlast⟩ := exists_simple_path hreach
  have hfresh : ∀ s ∈ l, NodeCounts.start root s = none := by
    intro s hs
    have hne : s ≠ root := fun heq => (List.nodup_cons.mp hnodup).1 (heq ▸ hs)
    exact Function.update_of_ne hne _ _
  obtain ⟨nc, hpos, hacc⟩ :=
    acc_of_simple_path hacc (NodeCounts.positive_start root) hchain hnodup hfresh hlast
  exact not_acc_of_cycle hacc hpos

/-! ## Progress -/

/-- How often the nodes may be entered before the bound stops them. -/
def NodeCounts.remaining (bound : Int) (nodes : Finset ν) (nc : NodeCounts ν) : Nat :=
  ∑ s ∈ nodes, (bound - (nc s).getD 0).toNat

omit [DecidableEq ν] in
/-- With a bound below one nothing is ever counted down. -/
theorem remaining_eq_zero {nodes : Finset ν} (hpos : nc.Positive) (hbound : bound < 1) :
    nc.remaining bound nodes = 0 := by
  refine Finset.sum_eq_zero fun s _ => ?_
  cases hs : nc s with
  | none =>
      simp only [Option.getD_none]
      omega
  | some k =>
      have hk := hpos s k hs
      simp only [Option.getD_some]
      omega

theorem remaining_enter_lt {nodes : Finset ν} (hatMost : nc.AtMost bound) (hbound : 1 ≤ bound)
    (hb : b ∈ nodes) (hne : nc b ≠ some bound) :
    (nc.enter b).remaining bound nodes < nc.remaining bound nodes := by
  have hentered : (bound - ((nc.enter b) b).getD 0).toNat < (bound - (nc b).getD 0).toNat := by
    rw [NodeCounts.enter, Function.update_self]
    cases hold : nc b with
    | none =>
        simp only [Option.getD_some, Option.elim_none, Option.getD_none]
        omega
    | some k =>
        have hle := hatMost b k hold hbound
        have hlt : k ≠ bound := fun heq => hne (heq ▸ hold)
        simp only [Option.getD_some, Option.elim_some]
        omega
  refine Finset.sum_lt_sum (fun s _ => ?_) ⟨b, hb, hentered⟩
  by_cases hs : s = b
  · subst hs
    exact hentered.le
  · rw [NodeCounts.enter, Function.update_of_ne hs]

/-- Below in a graph whose steps come back to no node. -/
def Below (flow : FlowGraph ν) (tgg : TargetGraph ν) (bound : Int) (root : ν) (b a : ν) : Prop :=
  ReflTransGen (flow.Passes tgg) root a ∧ TransGen (flow.Uncounted tgg bound) a b

omit [DecidableEq ν] in
/-- Without cycles only finitely many uncounted steps follow each other. -/
theorem wellFounded_below {nodes : Finset ν}
    (hno : ∀ a, ReflTransGen (flow.Passes tgg) root a →
      ¬ TransGen (flow.Uncounted tgg bound) a a) :
    WellFounded fun b a => Below flow tgg bound root b a ∧ b ∈ nodes ∧ a ∈ nodes := by
  have hstrict : IsStrictOrder ν (Below flow tgg bound root) :=
    { irrefl := fun a h => hno a h.1 h.2
      trans := fun a b c hab hbc => ⟨hbc.1, hbc.2.trans hab.2⟩ }
  have hwf := nodes.finite_toSet.wellFoundedOn (r := Below flow tgg bound root)
  exact Set.wellFoundedOn_iff.mp hwf

/-- What holds of the calls below an initial node. -/
structure Reached (flow : FlowGraph ν) (tgg : TargetGraph ν) (bound : Int) (root : ν)
    (nodes : Finset ν) (c : ν × NodeCounts ν) : Prop where
  reach : ReflTransGen (flow.Passes tgg) root c.1
  mem : c.1 ∈ nodes
  positive : c.2.Positive
  atMost : c.2.AtMost bound

theorem Reached.call {nodes : Finset ν} (hnodes : ∀ a b, b ∈ flow.successors a → b ∈ nodes)
    {c c' : ν × NodeCounts ν} (h : Reached flow tgg bound root nodes c)
    (hcall : c' ∈ flow.calls tgg bound c) : Reached flow tgg bound root nodes c' := by
  rcases calls_cases hcall with ⟨hignored, hsucc, hnc⟩ | ⟨hstep, hne, hnc⟩
  · exact
      { reach := h.reach.tail ⟨hsucc, Or.inl hignored⟩
        mem := hnodes _ _ hsucc
        positive := hnc ▸ h.positive
        atMost := hnc ▸ h.atMost }
  · exact
      { reach := h.reach.tail hstep
        mem := hnodes _ _ hstep.1
        positive := hnc ▸ h.positive.enter _
        atMost := hnc ▸ h.atMost.enter hne }

/-- **Every call leaves less to do.** -/
theorem lex_of_call {nodes : Finset ν} (hnodes : ∀ a b, b ∈ flow.successors a → b ∈ nodes)
    {c c' : ν × NodeCounts ν} (h : Reached flow tgg bound root nodes c)
    (hcall : c' ∈ flow.calls tgg bound c) :
    Prod.Lex (· < ·) (fun b a => Below flow tgg bound root b a ∧ b ∈ nodes ∧ a ∈ nodes)
      (c'.2.remaining bound nodes, c'.1) (c.2.remaining bound nodes, c.1) := by
  have h' := h.call hnodes hcall
  have hfree : c'.2.remaining bound nodes = c.2.remaining bound nodes →
      flow.Uncounted tgg bound c.1 c'.1 →
      Prod.Lex (· < ·) (fun b a => Below flow tgg bound root b a ∧ b ∈ nodes ∧ a ∈ nodes)
        (c'.2.remaining bound nodes, c'.1) (c.2.remaining bound nodes, c.1) := by
    intro heq hstep
    rw [heq]
    exact Prod.Lex.right _ ⟨⟨h.reach, TransGen.single hstep⟩, h'.mem, h.mem⟩
  rcases calls_cases hcall with ⟨hignored, hsucc, hnc⟩ | ⟨hstep, hne, hnc⟩
  · exact hfree (by rw [hnc]) ⟨⟨hsucc, Or.inl hignored⟩, Or.inl hignored⟩
  · by_cases hbound : bound < 1
    · refine hfree ?_ ⟨hstep, Or.inr hbound⟩
      rw [remaining_eq_zero h'.positive hbound, remaining_eq_zero h.positive hbound]
    · have hlt := remaining_enter_lt h.atMost (by omega) h'.mem hne
      rw [← hnc] at hlt
      exact Prod.Lex.left _ _ hlt

theorem acc_of_no_cycle {nodes : Finset ν} (hnodes : ∀ a b, b ∈ flow.successors a → b ∈ nodes)
    (hno : ∀ a, ReflTransGen (flow.Passes tgg) root a →
      ¬ TransGen (flow.Uncounted tgg bound) a a) :
    Acc (fun c' c => c' ∈ flow.calls tgg bound c) (root, NodeCounts.start root) := by
  have hnodes' : ∀ a b, b ∈ flow.successors a → b ∈ insert root nodes :=
    fun a b hb => Finset.mem_insert_of_mem (hnodes a b hb)
  have hbelow : WellFounded fun b a =>
      Below flow tgg bound root b a ∧ b ∈ insert root nodes ∧ a ∈ insert root nodes :=
    wellFounded_below hno
  have hwf := WellFounded.prod_lex Nat.lt_wfRel.wf hbelow
  have hacc : ∀ m : Nat × ν, ∀ c, (c.2.remaining bound (insert root nodes), c.1) = m →
      Reached flow tgg bound root (insert root nodes) c →
      Acc (fun c' c => c' ∈ flow.calls tgg bound c) c := by
    intro m
    induction m using hwf.induction with
    | h m ih =>
        intro c hm hc
        subst hm
        refine Acc.intro c fun c' hc' => ?_
        exact ih _ (lex_of_call hnodes' hc hc') c' rfl (hc.call hnodes' hc')
  refine hacc _ _ rfl ?_
  exact
    { reach := ReflTransGen.refl
      mem := Finset.mem_insert_self root nodes
      positive := NodeCounts.positive_start root
      atMost := NodeCounts.atMost_start bound root }

end Cycles

end Counting

/-! ## Control flow graphs of programs -/

/-- Successors are given to instructions of the program only. -/
theorem CfgEntries.Leads.mem_locations {gf : GotoFunctions} {src dst : Location}
    (h : (CfgEntries.empty.computeEdges gf).Leads src dst) : src ∈ gf.locations := by
  rcases leads_computeEdges.mp h with hempty | ⟨f, fct, before, i, after, hfind, _, hbody, happ⟩
  · obtain ⟨jump, hjump⟩ := hempty
    exact absurd hjump List.not_mem_nil
  · rcases happ with ⟨rfl, _⟩ | hreturns
    · have hi : i ∈ fct.body := by simp [hbody]
      have hfct := GotoFunctions.find_eq_some.mp hfind
      exact GotoFunctions.mem_locations.mpr ⟨f, fct, hfct, i, hi, rfl⟩
    · obtain ⟨_, g, _, callee, last, hcallee, _, hlast, rfl, _⟩ := hreturns
      have hlast := List.mem_of_getLast? hlast
      have hcallee := GotoFunctions.find_eq_some.mp hcallee
      exact GotoFunctions.mem_locations.mpr ⟨g, callee, hcallee, last, hlast, rfl⟩

/-- The graph of `compute_edges(gf)`, with the instructions as they are
`now`. -/
def programFlow (gf now : GotoFunctions) : FlowGraph Location where
  successors := fun l => (CfgEntries.empty.computeEdges gf l).successors.map Prod.fst
  ignored := fun l => (now.instructionAt l).elim false ignoreInstruction

/-- Everywhere that control flow leads. -/
def GotoFunctions.flowNodes (gf : GotoFunctions) : Finset Location :=
  (gf.locations.flatMap (programFlow gf gf).successors).toFinset

theorem GotoFunctions.mem_flowNodes {gf now : GotoFunctions} {a b : Location}
    (h : b ∈ (programFlow gf now).successors a) : b ∈ gf.flowNodes := by
  have hleads : (CfgEntries.empty.computeEdges gf).Leads a b := by
    obtain ⟨⟨_, jump⟩, hs, rfl⟩ := List.mem_map.mp h
    exact ⟨jump, hs⟩
  exact List.mem_toFinset.mpr (List.mem_flatMap.mpr ⟨a, hleads.mem_locations, h⟩)

/-- **The enumeration returns** if and only if it can reach no cycle of
ignored instructions or, with a bound below one, no cycle at all. -/
theorem pathcov_returns_iff {F P : Type} [DecidableEq F] [DecidableEq P] (gf now : GotoFunctions)
    (tgg : TargetGraph Location) (bound : Int) (graphs : GraphTable F P Location) :
    (∃ fuel, (runPathcov (programFlow gf now) fuel tgg bound graphs).isSome) ↔
      ∀ root ∈ tgg.initial, ∀ a,
        Relation.ReflTransGen ((programFlow gf now).Passes tgg) root a →
          ¬ Relation.TransGen ((programFlow gf now).Uncounted tgg bound) a a := by
  simp only [isSome_runPathcov]
  refine ⟨?_, ?_⟩
  · intro ⟨fuel, hreturns⟩ root hroot a hreach
    exact no_cycle_of_acc (hreturns root hroot).acc hreach
  · intro hno
    have hdepth : ∀ c ∈ tgg.initial.map fun root => (root, NodeCounts.start root),
        ∃ fuel, ReturnsWithin ((programFlow gf now).calls tgg bound) fuel c := by
      intro c hc
      obtain ⟨root, hroot, rfl⟩ := List.mem_map.mp hc
      exact exists_returnsWithin_iff.mpr
        (acc_of_no_cycle (fun _ _ => GotoFunctions.mem_flowNodes) (hno root hroot))
    obtain ⟨fuel, hfuel⟩ := exists_common_bound hdepth
    exact ⟨fuel, fun root hroot => hfuel _ (List.mem_map_of_mem hroot)⟩

/-! ## A function that calls itself

`main() { if(c) main(); }`: the end of the function leads to itself. -/

def selfCall : GotoFunction where
  bodyAvailable := true
  isInlined := false
  body := [{ plainInstruction 0 .goto [2] with guard := .condition 0 },
    { plainInstruction 1 .functionCall [] with code := .functionCall (some "main") },
    plainInstruction 2 .endFunction []]
  pcs_nodup := by decide

def selfCallProgram : GotoFunctions := ⟨[("main", selfCall)], List.nodup_singleton _⟩

/-- The graph of `ID`. -/
def selfCallGraph : TargetGraph Location where
  disconnectedNodes := []
  edges := [(locationOf "main" 0, locationOf "main" 1), (locationOf "main" 0, locationOf "main" 2),
    (locationOf "main" 1, locationOf "main" 0)]
  initial := [locationOf "main" 0]

example : (filterFunctionGraph "main" (CfgEntries.empty.computeEdges selfCallProgram)
    selfCallProgram .fIdentity).map Cfa.toTargetGraph = .ok selfCallGraph := by
  decide +kernel

/-- **`PATHS(ID,1)` does not return** when it comes to the end of a function
that calls itself. -/
theorem pathcov_diverges :
    ¬ ∀ (gf : GotoFunctions) (tgg : TargetGraph Location) (bound : Int)
      (graphs : GraphTable Unit Unit Location),
      ∃ fuel, (runPathcov (programFlow gf gf) fuel tgg bound graphs).isSome := by
  intro h
  obtain ⟨fuel, hfuel⟩ := h selfCallProgram selfCallGraph 1 ⟨TargetGraphIndex.empty, []⟩
  have hreturns := isSome_runPathcov.mp hfuel (locationOf "main" 0) List.mem_cons_self
  have hstep : (programFlow selfCallProgram selfCallProgram).Passes selfCallGraph
      (locationOf "main" 0) (locationOf "main" 2) :=
    ⟨by decide +kernel, Or.inr (by decide)⟩
  have hloop : (programFlow selfCallProgram selfCallProgram).Uncounted selfCallGraph 1
      (locationOf "main" 2) (locationOf "main" 2) :=
    ⟨⟨by decide +kernel, Or.inl (by decide +kernel)⟩, Or.inl (by decide +kernel)⟩
  exact no_cycle_of_acc hreturns.acc (Relation.ReflTransGen.single hstep)
    (Relation.TransGen.single hloop)

end FShell
