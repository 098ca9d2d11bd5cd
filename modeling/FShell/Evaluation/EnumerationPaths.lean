import FShell.Evaluation.EnumerationReturns

/-!
# The words of a path enumeration

A bounded path is a sequence of edges of the target graph, from an initial
node on, that enters no node more often than the bound.  An accepted word
spells a bounded path, and every bounded path without continuation is spelled
by an accepted word.

The empty path is accepted where an initial node has both an edge that the
enumeration may take and one that it may not: the end of `dfs_build` then
gives the edge that leads to the state another target that accepts.
-/

namespace FShell

open Relation TraceAutomaton LabelledGraph

section Paths

variable {ν : Type}

/-! ## Bounded paths -/

/-- From one node to another over ignored instructions only. -/
def FlowGraph.Skips (flow : FlowGraph ν) : ν → ν → Prop :=
  ReflTransGen fun a b => flow.ignored a = true ∧ b ∈ flow.successors a

/-- Each edge starts where the one before it ended, up to ignored
instructions that are passed in between. -/
def FlowGraph.Linked (flow : FlowGraph ν) : ν → List (ν × ν) → Prop
  | _, [] => True
  | a, e :: es => flow.Skips a e.1 ∧ flow.Linked e.2 es

/-- The nodes that are entered; the start counts as one. -/
def entered (root : ν) (es : List (ν × ν)) : List ν := root :: es.map Prod.snd

/-- Where a path ends. -/
def endNode (root : ν) : List (ν × ν) → ν
  | [] => root
  | e :: es => endNode e.2 es

/-- What `Evaluate_Filter` promises of a target graph: edges are control flow
from instructions that are not ignored, and so are initial nodes. -/
structure FlowGraph.Filtered (flow : FlowGraph ν) (tgg : TargetGraph ν) : Prop where
  edges : ∀ e ∈ tgg.edges, flow.ignored e.1 = false ∧ e.2 ∈ flow.successors e.1
  initial : ∀ root ∈ tgg.initial, flow.ignored root = false

variable [DecidableEq ν]

/-- A path in the target graph that enters no node more than `k` times. -/
structure BoundedPath (flow : FlowGraph ν) (tgg : TargetGraph ν) (k : Int) (root : ν)
    (es : List (ν × ν)) : Prop where
  linked : flow.Linked root es
  edges : ∀ e ∈ es, e ∈ tgg.edges
  count : ∀ v, ((entered root es).count v : Int) ≤ k

/-- All continuations leave the target graph or exceed the bound, when the
nodes of `h` have been entered. -/
def NoContinuation (flow : FlowGraph ν) (tgg : TargetGraph ν) (k : Int) (h : List ν) (a : ν) :
    Prop :=
  ∀ b c, flow.Skips a b → flow.ignored b = false → c ∈ flow.successors b →
    (b, c) ∈ tgg.edges → k < h.count c + 1

/-- An edge that the enumeration may take first. -/
def MayEnter (tgg : TargetGraph ν) (k : Int) (root b : ν) : Prop :=
  (root, b) ∈ tgg.edges ∧ (b = root → 1 < k)

/-! ## Counts -/

/-- The counts after these nodes have been entered. -/
def NodeCounts.of (h : List ν) : NodeCounts ν := fun v => if v ∈ h then some (h.count v) else none

/-- At the start the initial node has been entered. -/
theorem NodeCounts.of_start (root : ν) : NodeCounts.start root = NodeCounts.of [root] := by
  funext v
  by_cases hv : v = root
  · subst hv
    simp [start, of]
  · simp [start, of, hv]

/-- Entering a node counts it. -/
theorem NodeCounts.of_enter (h : List ν) (s : ν) : (NodeCounts.of h).enter s = NodeCounts.of (s :: h) := by
  funext v
  by_cases hv : v = s
  · subst hv
    by_cases hmem : v ∈ h
    · simp [enter, of, hmem]
    · simp [enter, of, hmem, List.count_eq_zero_of_not_mem hmem]
  · simp [enter, of, hv, Ne.symm hv]

/-- The bound is met when entering once more would exceed it. -/
theorem NodeCounts.of_eq_bound {h : List ν} {s : ν} {k : Int} (hk : 1 ≤ k) (hle : (h.count s : Int) ≤ k) :
    NodeCounts.of h s = some k ↔ k < h.count s + 1 := by
  unfold of
  by_cases hs : s ∈ h
  · rw [if_pos hs, Option.some.injEq]
    omega
  · rw [if_neg hs, List.count_eq_zero_of_not_mem hs]
    refine ⟨nofun, ?_⟩
    intro hlt
    omega

/-- At the start only the initial node can be used up. -/
theorem start_ne_bound_iff {root b : ν} {k : Int} (hk : 1 ≤ k) :
    NodeCounts.start root b ≠ some k ↔ (b = root → 1 < k) := by
  unfold NodeCounts.start
  by_cases hb : b = root
  · subst hb
    rw [Function.update_self, ne_eq, Option.some.injEq]
    refine ⟨fun hne _ => by omega, fun hlt heq => ?_⟩
    have hlt := hlt rfl
    omega
  · rw [Function.update_of_ne hb]
    exact ⟨fun _ heq => absurd heq hb, fun _ => nofun⟩

end Paths

/-! ## What an enumeration keeps -/

section Grows

variable {F P ν : Type} [DecidableEq F] [DecidableEq P]

/-- States, transitions, accepting states and graphs are only added. -/
structure Enumeration.Grows (en en' : Enumeration F P ν) : Prop where
  initial : en'.1.initial = en.1.initial
  states : ∀ s ∈ en.1.states, s ∈ en'.1.states
  trans : ∀ e ∈ en.1.trans, e ∈ en'.1.trans
  finals : ∀ s ∈ en.1.finals, s ∈ en'.1.finals
  graphs : en.2.Extends en'.2

namespace Enumeration

variable {en en' en'' : Enumeration F P ν} {state : TaState} {e : ν × ν}

omit [DecidableEq F] [DecidableEq P] in
/-- Nothing is added. -/
theorem Grows.refl (en : Enumeration F P ν) : en.Grows en :=
  ⟨rfl, fun _ h => h, fun _ h => h, fun _ h => h, .refl _⟩

omit [DecidableEq F] [DecidableEq P] in
/-- Adding twice is adding. -/
theorem Grows.next (h : en.Grows en') (h' : en'.Grows en'') : en.Grows en'' where
  initial := h'.initial.trans h.initial
  states := fun s hs => h'.states s (h.states s hs)
  trans := fun e he => h'.trans e (h.trans e he)
  finals := fun s hs => h'.finals s (h.finals s hs)
  graphs := .trans h.graphs h'.graphs

/-! ### A new edge -/

/-- The target is a new state. -/
@[simp] theorem addEdge_fst : (en.addEdge state e).1 = en.1.slots := rfl

/-- One state more. -/
@[simp] theorem addEdge_states : (en.addEdge state e).2.1.states = en.1.states ++ [en.1.slots] := by
  simp [addEdge]

/-- The initial state stays. -/
@[simp] theorem addEdge_initial : (en.addEdge state e).2.1.initial = en.1.initial := by
  simp [addEdge]

/-- The final flags stay. -/
@[simp] theorem addEdge_finals : (en.addEdge state e).2.1.finals = en.1.finals := by
  simp [addEdge]

/-- The label of the new edge. -/
def newLabel (en : Enumeration F P ν) (e : ν × ν) : Int :=
  ((en.2.pushBack (edgeGraph e)).2.toIndex (en.2.pushBack (edgeGraph e)).1).1

/-- One transition more, under the new label. -/
theorem mem_addEdge (hstate : state ∈ en.1.states) {t : TaState × Int × TaState} :
    t ∈ (en.addEdge state e).2.1.trans ↔
      t ∈ en.1.trans ∨ t = (state, en.newLabel e, en.1.slots) := by
  have hmem := en.1.newState.2.mem_setTrans (s := state) (l := en.newLabel e) (t := en.1.slots)
    (e := t)
  refine hmem.trans (or_congr Iff.rfl ?_)
  simp [hstate]

/-- The new label stands for the edge. -/
theorem lookupGraph_newLabel (env : PathPatternEnv F P ν) :
    (en.addEdge state e).2.2.lookupGraph env (en.newLabel e) = some (edgeGraph e) :=
  ((en.2.pushBack (edgeGraph e)).2.lookupGraph_toIndex (en.2.pushBack (edgeGraph e)).1).trans
    (en.2.deref_pushBack (edgeGraph e))

/-- An edge makes the automaton grow. -/
theorem grows_addEdge : en.Grows (en.addEdge state e).2 where
  initial := addEdge_initial
  states := fun s hs => by simp [hs]
  trans := fun t ht => by
    have hmem := en.1.newState.2.mem_setTrans (s := state) (l := en.newLabel e) (t := en.1.slots)
      (e := t)
    exact hmem.mpr (Or.inl ht)
  finals := fun s hs => by simp [hs]
  graphs := edgeRelation_extends.addEdge en state e

/-! ### The end of a path -/

omit [DecidableEq F] [DecidableEq P] in
/-- The three ends of `dfs_build`: the state accepts, it gets a sibling that
does, or nothing changes. -/
theorem finish_cases (en : Enumeration F P ν) (state : TaState) (mayBeEnd : Bool) :
    (en.1.delta2 state = [] ∧ en.finish state mayBeEnd = (en.1.setFinal state, en.2)) ∨
    (en.1.delta2 state ≠ [] ∧ mayBeEnd = true ∧ ∃ l s, (s, l, state) ∈ en.1.trans ∧
      en.finish state mayBeEnd =
        ((en.1.newState.2.setTrans s l en.1.slots).setFinal en.1.slots, en.2)) ∨
    (en.1.delta2 state ≠ [] ∧ (mayBeEnd = false ∨ en.1.delta2Backwards state = []) ∧
      en.finish state mayBeEnd = en) := by
  unfold finish
  by_cases hout : en.1.delta2 state = []
  · exact Or.inl ⟨hout, if_pos hout⟩
  · rw [if_neg hout]
    cases mayBeEnd with
    | false => exact Or.inr (Or.inr ⟨hout, Or.inl rfl, rfl⟩)
    | true =>
        cases hin : en.1.delta2Backwards state with
        | nil => exact Or.inr (Or.inr ⟨hout, Or.inr rfl, rfl⟩)
        | cons inEdge rest =>
            have hmem : (inEdge.1, inEdge.2) ∈ en.1.delta2Backwards state := by
              rw [hin]
              exact List.mem_cons_self
            exact Or.inr (Or.inl ⟨hout, rfl, inEdge.1, inEdge.2, en.1.mem_delta2Backwards.mp hmem, rfl⟩)

omit [DecidableEq F] [DecidableEq P] in
/-- The end of a call makes the automaton grow. -/
theorem grows_finish (mayBeEnd : Bool) : en.Grows (en.finish state mayBeEnd) := by
  rcases en.finish_cases state mayBeEnd with ⟨_, heq⟩ | ⟨_, _, l, s, _, heq⟩ | ⟨_, _, heq⟩
  · rw [heq]
    exact ⟨by simp, fun s hs => by simp [hs], fun e he => by simpa using he,
      fun s hs => by simp [hs], .refl _⟩
  · rw [heq]
    refine ⟨by simp, fun s hs => by simp [hs], fun e he => ?_, fun s hs => by simp [hs], .refl _⟩
    rw [setFinal_trans, mem_setTrans]
    exact Or.inl he
  · rw [heq]
    exact .refl en

end Enumeration

open Enumeration

variable [DecidableEq ν] {flow : FlowGraph ν} {tgg : TargetGraph ν} {bound : Int}

/-- One iteration adds, if the recursive calls do. -/
theorem loopBody_grows
    {build : TaState → ν → NodeCounts ν → Enumeration F P ν → Option (Enumeration F P ν)}
    (hbuild : ∀ state root nc en en', build state root nc en = some en' → en.Grows en')
    {state : TaState} {root : ν} {nc : NodeCounts ν} {q q' : Enumeration F P ν × Bool} {s : ν}
    (h : loopBody flow tgg bound build state root nc q s = some q') : q.1.Grows q'.1 := by
  rcases loopBody_cases h with ⟨_, en, hen, rfl⟩ | ⟨_, _, rfl⟩ | ⟨_, _, _, en, hen, rfl⟩
  · exact hbuild _ _ _ _ _ hen
  · exact .refl q.1
  · exact grows_addEdge.next (hbuild _ _ _ _ _ hen)

/-- A call makes the automaton grow, by induction on the fuel. -/
theorem runDfsBuild_grows {fuel : Nat} : ∀ state root nc (en en' : Enumeration F P ν),
    runDfsBuild flow tgg bound fuel state root nc en = some en' → en.Grows en' := by
  induction fuel with
  | zero => exact fun _ _ _ _ _ h => nomatch h
  | succ fuel ih =>
      intro state root nc en en' h
      obtain ⟨q, hq, rfl⟩ := Option.map_eq_some_iff.mp h
      have hloop : en.Grows q.1 :=
        foldlM_induction (fun q : Enumeration F P ν × Bool => en.Grows q.1) (.refl en)
          (fun c s _ c' hc hstep => hc.next (loopBody_grows ih hstep)) hq
      exact hloop.next (grows_finish q.2)

end Grows

/-! ## Accepted words spell paths -/

section Traced

variable {F P ν : Type} [DecidableEq F] [DecidableEq P] [DecidableEq ν]

/-- The labels stand for these edges. -/
def Spells (env : PathPatternEnv F P ν) (t : GraphTable F P ν) : List Int → List (ν × ν) → Prop :=
  List.Forall₂ fun l e => t.lookupGraph env l = some (edgeGraph e)

/-- An automaton whose states, apart from the initial one, stand for bounded
paths: `trail` has the initial node and the edges.  With `strict` no state
accepts the empty path. -/
structure Traced (env : PathPatternEnv F P ν) (flow : FlowGraph ν) (tgg : TargetGraph ν) (k : Int)
    (strict : Prop) (init : TaState) (trail : TaState → ν × List (ν × ν))
    (en : Enumeration F P ν) : Prop where
  initial : en.1.initial = [init]
  live : init ∈ en.1.states
  edge : ∀ s l t, (s, l, t) ∈ en.1.trans → t ≠ init ∧
    ((s = init ∧ l = epsilon ∧ (trail t).2 = []) ∨
      (s ≠ init ∧ ∃ e, en.2.lookupGraph env l = some (edgeGraph e) ∧
        trail t = ((trail s).1, (trail s).2 ++ [e])))
  path : ∀ s ∈ en.1.states, s ≠ init →
    (trail s).1 ∈ tgg.initial ∧ BoundedPath flow tgg k (trail s).1 (trail s).2
  final : ∀ s ∈ en.1.finals, s ≠ init ∧ (strict → (trail s).2 ≠ [])

variable {env : PathPatternEnv F P ν} {flow : FlowGraph ν} {tgg : TargetGraph ν} {k : Int}
  {strict : Prop} {init : TaState} {trail : TaState → ν × List (ν × ν)}
  {en en' : Enumeration F P ν} {state : TaState}

/-- A later stage, in which old states stand for the same paths. -/
def TracedFrom (env : PathPatternEnv F P ν) (flow : FlowGraph ν) (tgg : TargetGraph ν) (k : Int)
    (strict : Prop) (init : TaState) (trail : TaState → ν × List (ν × ν))
    (en en' : Enumeration F P ν) : Prop :=
  (∀ s ∈ en.1.states, s ∈ en'.1.states) ∧
    ∃ trail', Traced env flow tgg k strict init trail' en' ∧
      ∀ s ∈ en.1.states, trail' s = trail s

omit [DecidableEq F] [DecidableEq P] in
/-- Nothing has been added. -/
theorem TracedFrom.refl (h : Traced env flow tgg k strict init trail en) :
    TracedFrom env flow tgg k strict init trail en en :=
  ⟨fun _ hs => hs, trail, h, fun _ _ => rfl⟩

omit [DecidableEq F] [DecidableEq P] in
/-- A stage after a later one. -/
theorem TracedFrom.after {en'' : Enumeration F P ν} {trail' : TaState → ν × List (ν × ν)}
    (hstates : ∀ s ∈ en.1.states, s ∈ en'.1.states)
    (hagree : ∀ s ∈ en.1.states, trail' s = trail s)
    (h : TracedFrom env flow tgg k strict init trail' en' en'') :
    TracedFrom env flow tgg k strict init trail en en'' := by
  obtain ⟨hstates', trail'', htraced, hagree'⟩ := h
  refine ⟨fun s hs => hstates' s (hstates s hs), trail'', htraced, ?_⟩
  intro s hs
  exact (hagree' s (hstates s hs)).trans (hagree s hs)

omit [DecidableEq F] [DecidableEq P] in
/-- A new state with one transition into it. -/
theorem Traced.extend (h : Traced env flow tgg k strict init trail en)
    (en' : Enumeration F P ν) (hstates : en'.1.states = en.1.states ++ [en.1.slots])
    (hinitial : en'.1.initial = en.1.initial) (hgraphs : en.2.Extends en'.2) (p : ν × List (ν × ν))
    (hp : p.1 ∈ tgg.initial ∧ BoundedPath flow tgg k p.1 p.2) {s : TaState} {l : Int}
    (hs : s ∈ en.1.states)
    (hedge : (s = init ∧ l = epsilon ∧ p.2 = []) ∨
      (s ≠ init ∧ ∃ e, en'.2.lookupGraph env l = some (edgeGraph e) ∧
        p = ((trail s).1, (trail s).2 ++ [e])))
    (htrans : ∀ t ∈ en'.1.trans, t ∈ en.1.trans ∨ t = (s, l, en.1.slots))
    (hfinals : ∀ q ∈ en'.1.finals, q ∈ en.1.finals ∨ (q = en.1.slots ∧ (strict → p.2 ≠ []))) :
    ∃ trail', Traced env flow tgg k strict init trail' en' ∧
      (∀ q ∈ en.1.states, trail' q = trail q) ∧ trail' en.1.slots = p := by
  have hold : ∀ q ∈ en.1.states, q ≠ en.1.slots :=
    fun q hq heq => en.1.slots_not_mem (heq ▸ hq)
  have hagree : ∀ q ∈ en.1.states, Function.update trail en.1.slots p q = trail q :=
    fun q hq => Function.update_of_ne (hold q hq) _ _
  have hnew : Function.update trail en.1.slots p en.1.slots = p := Function.update_self ..
  have hne : en.1.slots ≠ init := fun heq => hold init h.live heq.symm
  have htraced : Traced env flow tgg k strict init (Function.update trail en.1.slots p) en' :=
    { initial := hinitial.trans h.initial
      live := by
        rw [hstates]
        exact List.mem_append_left _ h.live
      edge := by
        intro s' l' t ht
        rcases htrans _ ht with hold' | hnew'
        · obtain ⟨hs', ht'⟩ := en.1.trans_live _ hold'
          obtain ⟨hinit, hcases⟩ := h.edge s' l' t hold'
          rw [hagree s' hs', hagree t ht']
          refine ⟨hinit, hcases.imp_right ?_⟩
          intro ⟨hs'', e, he, htrail⟩
          exact ⟨hs'', e, hgraphs.lookupGraph he, htrail⟩
        · obtain ⟨rfl, rfl, rfl⟩ := hnew'
          rw [hnew, hagree _ hs]
          exact ⟨hne, hedge⟩
      path := by
        intro q hq hinit
        rw [hstates] at hq
        rcases List.mem_append.mp hq with hq | hq
        · rw [hagree q hq]
          exact h.path q hq hinit
        · rw [List.mem_singleton.mp hq, hnew]
          exact hp
      final := by
        intro q hq
        rcases hfinals q hq with hq | ⟨rfl, hstrict⟩
        · rw [hagree q (en.1.finals_live q hq)]
          exact h.final q hq
        · rw [hnew]
          exact ⟨hne, hstrict⟩ }
  exact ⟨_, htraced, hagree, hnew⟩

/-- The path to a state goes on with one edge. -/
theorem Traced.addEdge (h : Traced env flow tgg k strict init trail en)
    (hstate : state ∈ en.1.states) (hinit : state ≠ init) {e : ν × ν}
    (hpath : BoundedPath flow tgg k (trail state).1 ((trail state).2 ++ [e])) :
    ∃ trail', Traced env flow tgg k strict init trail' (en.addEdge state e).2 ∧
      (∀ q ∈ en.1.states, trail' q = trail q) ∧
      trail' en.1.slots = ((trail state).1, (trail state).2 ++ [e]) :=
  h.extend (en.addEdge state e).2 Enumeration.addEdge_states Enumeration.addEdge_initial
    Enumeration.grows_addEdge.graphs ((trail state).1, (trail state).2 ++ [e])
    ⟨(h.path state hstate hinit).1, hpath⟩ hstate
    (Or.inr ⟨hinit, e, Enumeration.lookupGraph_newLabel env, rfl⟩)
    (fun _ ht => (Enumeration.mem_addEdge hstate).mp ht)
    (fun q hq => Or.inl (by rwa [Enumeration.addEdge_finals] at hq))

omit [DecidableEq F] [DecidableEq P] in
/-- The state that the end of `dfs_build` adds stands for the same path. -/
theorem Traced.sibling (h : Traced env flow tgg k strict init trail en)
    (hstate : state ∈ en.1.states) (hinit : state ≠ init) (hne : strict → (trail state).2 ≠ [])
    {s : TaState} {l : Int} (hin : (s, l, state) ∈ en.1.trans) :
    TracedFrom env flow tgg k strict init trail en
      ((en.1.newState.2.setTrans s l en.1.slots).setFinal en.1.slots, en.2) := by
  obtain ⟨hs, _⟩ := en.1.trans_live _ hin
  obtain ⟨_, hcases⟩ := h.edge s l state hin
  have htrans : ∀ t ∈ ((en.1.newState.2.setTrans s l en.1.slots).setFinal en.1.slots).trans,
      t ∈ en.1.trans ∨ t = (s, l, en.1.slots) := by
    intro t ht
    rw [setFinal_trans, mem_setTrans] at ht
    exact ht.imp_right fun hnew => hnew.2.2
  have hfinals : ∀ q ∈ ((en.1.newState.2.setTrans s l en.1.slots).setFinal en.1.slots).finals,
      q ∈ en.1.finals ∨ (q = en.1.slots ∧ (strict → (trail state).2 ≠ [])) := by
    intro q hq
    rw [mem_setFinal, setTrans_finals] at hq
    exact hq.imp_right fun hnew => ⟨hnew.1, hne⟩
  obtain ⟨trail', htraced, hagree, _⟩ := h.extend
    ((en.1.newState.2.setTrans s l en.1.slots).setFinal en.1.slots, en.2)
    (by simp) (by simp) (.refl _) (trail state) (h.path state hstate hinit) hs hcases htrans hfinals
  exact ⟨fun q hq => by simp [hq], trail', htraced, hagree⟩

omit [DecidableEq F] [DecidableEq P] in
/-- Other states may accept, as long as they stand for paths. -/
theorem Traced.ofFinals (h : Traced env flow tgg k strict init trail en) {ta : TraceAutomaton}
    (hstates : ta.states = en.1.states) (hinitial : ta.initial = en.1.initial)
    (htrans : ta.trans = en.1.trans)
    (hfinals : ∀ q ∈ ta.finals, q ∈ en.1.finals ∨ (q ≠ init ∧ (strict → (trail q).2 ≠ []))) :
    Traced env flow tgg k strict init trail (ta, en.2) where
  initial := hinitial.trans h.initial
  live := hstates ▸ h.live
  edge := fun s l t ht => h.edge s l t (htrans ▸ ht)
  path := fun s hs => h.path s (hstates ▸ hs)
  final := fun q hq => (hfinals q hq).elim (h.final q) id

omit [DecidableEq F] [DecidableEq P] in
/-- A state accepts the path that it stands for. -/
theorem Traced.finish (h : Traced env flow tgg k strict init trail en)
    (hstate : state ∈ en.1.states) (hinit : state ≠ init) (hne : (trail state).2 ≠ [])
    (mayBeEnd : Bool) :
    TracedFrom env flow tgg k strict init trail en (en.finish state mayBeEnd) := by
  rcases en.finish_cases state mayBeEnd with ⟨_, heq⟩ | ⟨_, _, l, s, hin, heq⟩ | ⟨_, _, heq⟩
  · rw [heq]
    refine ⟨fun s hs => by simp [hs], trail, h.ofFinals (by simp) (by simp) (by simp) ?_,
      fun _ _ => rfl⟩
    intro q hq
    rcases (en.1.mem_setFinal).mp hq with hold | ⟨rfl, _⟩
    · exact Or.inl hold
    · exact Or.inr ⟨hinit, fun _ => hne⟩
  · rw [heq]
    exact h.sibling hstate hinit (fun _ => hne) hin
  · rw [heq]
    exact .refl h

omit [DecidableEq F] [DecidableEq P] in
/-- The state of an initial node does not accept afterwards. -/
theorem Traced.finishInitial (h : Traced env flow tgg k strict init trail en)
    (hstate : state ∈ en.1.states) (hinit : state ≠ init) {mayBeEnd : Bool}
    (hne : strict → ¬ (en.1.delta2 state ≠ [] ∧ mayBeEnd = true)) :
    TracedFrom env flow tgg k strict init trail en
      ((en.finish state mayBeEnd).1.clearFinal state, (en.finish state mayBeEnd).2) := by
  rcases en.finish_cases state mayBeEnd with ⟨_, heq⟩ | ⟨hout, hend, l, s, hin, heq⟩ | ⟨_, _, heq⟩
  · rw [heq]
    refine ⟨fun s hs => by simp [hs], trail, h.ofFinals (by simp) (by simp) (by simp) ?_,
      fun _ _ => rfl⟩
    intro q hq
    rw [mem_clearFinal, mem_setFinal] at hq
    exact Or.inl (hq.1.resolve_right fun hnew => hq.2 hnew.1)
  · rw [heq]
    obtain ⟨hstates, trail', htraced, hagree⟩ :=
      h.sibling hstate hinit (fun hstrict => absurd ⟨hout, hend⟩ (hne hstrict)) hin
    exact ⟨hstates, trail', htraced.ofFinals rfl rfl rfl fun q hq => Or.inl (by simp_all), hagree⟩
  · rw [heq]
    exact ⟨fun s hs => hs, trail, h.ofFinals rfl rfl rfl fun q hq => Or.inl (by simp_all),
      fun _ _ => rfl⟩

omit [DecidableEq F] [DecidableEq P] [DecidableEq ν] in
/-- Labels of edges are visible. -/
theorem Spells.erase {t : GraphTable F P ν} {w : List Int} {es : List (ν × ν)}
    (h : Spells env t w es) : erase epsilon w = w := by
  refine List.filter_eq_self.mpr fun l hl => ?_
  have hlookup : ∃ e, t.lookupGraph env l = some (edgeGraph e) := by
    induction h with
    | nil => exact absurd hl List.not_mem_nil
    | @cons _ e _ _ he _ ih =>
        rcases List.mem_cons.mp hl with rfl | htail
        · exact ⟨e, he⟩
        · exact ih htail
  obtain ⟨e, he⟩ := hlookup
  have hne : l ≠ epsilon := by
    intro heq
    subst heq
    cases he
  simpa using hne

/-! ### The recursion -/

/-- The state stands for a path to the node, over ignored instructions at its
end. -/
structure At (flow : FlowGraph ν) (init : TaState) (trail : TaState → ν × List (ν × ν))
    (en : Enumeration F P ν) (state : TaState) (root : ν) : Prop where
  live : state ∈ en.1.states
  ne_init : state ≠ init
  skips : flow.Skips (endNode (trail state).1 (trail state).2) root

/-- The counts for a path. -/
def countsOf (p : ν × List (ν × ν)) : NodeCounts ν := NodeCounts.of (entered p.1 p.2).reverse

/-- What a recursive call keeps of a traced automaton. -/
def BuildTraced (env : PathPatternEnv F P ν) (flow : FlowGraph ν) (tgg : TargetGraph ν) (k : Int)
    (strict : Prop) (init : TaState)
    (build : TaState → ν → NodeCounts ν → Enumeration F P ν → Option (Enumeration F P ν)) : Prop :=
  ∀ trail en state root en', Traced env flow tgg k strict init trail en →
    At flow init trail en state root → (trail state).2 ≠ [] →
    build state root (countsOf (trail state)) en = some en' →
    TracedFrom env flow tgg k strict init trail en en'

omit [DecidableEq ν] in
/-- One more edge behind a linked row. -/
theorem linked_append {flow : FlowGraph ν} {a : ν} {es : List (ν × ν)} {e : ν × ν}
    (h : flow.Linked a es) (he : flow.Skips (endNode a es) e.1) : flow.Linked a (es ++ [e]) := by
  induction es generalizing a with
  | nil => exact ⟨he, trivial⟩
  | cons d es ih => exact ⟨h.1, ih h.2 he⟩

omit [DecidableEq ν] in
/-- The row ends in the new node. -/
theorem endNode_append (a : ν) (es : List (ν × ν)) (e : ν × ν) : endNode a (es ++ [e]) = e.2 := by
  induction es generalizing a with
  | nil => rfl
  | cons d es ih => exact ih d.2

omit [DecidableEq ν] in
/-- The new node is the last one entered. -/
theorem entered_append (a : ν) (es : List (ν × ν)) (e : ν × ν) :
    entered a (es ++ [e]) = entered a es ++ [e.2] := by
  simp [entered]

/-- One more edge, as long as the bound is not met. -/
theorem BoundedPath.snoc {root : ν} {es : List (ν × ν)} {e : ν × ν} (hk : 1 ≤ k)
    (h : BoundedPath flow tgg k root es) (hskips : flow.Skips (endNode root es) e.1)
    (hedge : e ∈ tgg.edges) (hne : countsOf (root, es) e.2 ≠ some k) :
    BoundedPath flow tgg k root (es ++ [e]) where
  linked := linked_append h.linked hskips
  edges := by
    intro d hd
    rcases List.mem_append.mp hd with hold | hnew
    · exact h.edges d hold
    · exact List.mem_singleton.mp hnew ▸ hedge
  count := by
    intro v
    have hv := h.count v
    rw [entered_append, List.count_append]
    by_cases heq : v = e.2
    · have hle : ((entered root es).reverse.count v : Int) ≤ k := by rwa [List.count_reverse]
      have hbound := (NodeCounts.of_eq_bound hk hle).not.mp (heq ▸ hne)
      rw [List.count_reverse] at hbound
      rw [heq] at hbound ⊢
      simp only [List.count_singleton_self, Nat.cast_add, Nat.cast_one]
      omega
    · rw [List.count_eq_zero_of_not_mem (l := [e.2]) (by simpa using heq)]
      omega

/-- The counts with one more edge. -/
theorem countsOf_snoc (p : ν × List (ν × ν)) (e : ν × ν) :
    countsOf (p.1, p.2 ++ [e]) = (countsOf p).enter e.2 := by
  unfold countsOf
  rw [NodeCounts.of_enter, entered_append, List.reverse_append]
  rfl

/-- One iteration.  A call for the same state needs that state not to stand
for the empty path. -/
theorem loopBody_traced (hk : 1 ≤ k)
    {build : TaState → ν → NodeCounts ν → Enumeration F P ν → Option (Enumeration F P ν)}
    (hbuild : BuildTraced env flow tgg k strict init build) {root s : ν}
    {q q' : Enumeration F P ν × Bool} (h : Traced env flow tgg k strict init trail q.1)
    (hat : At flow init trail q.1 state root)
    (hne : flow.ignored root = true → (trail state).2 ≠ []) (hs : s ∈ flow.successors root)
    (hstep : loopBody flow tgg k build state root (countsOf (trail state)) q s = some q') :
    TracedFrom env flow tgg k strict init trail q.1 q'.1 := by
  rcases loopBody_cases hstep with ⟨hignored, en', hen, rfl⟩ | ⟨_, _, rfl⟩ |
    ⟨_, hbound, hedge, en', hen, rfl⟩
  · have hat' : At flow init trail q.1 state s :=
      ⟨hat.live, hat.ne_init, hat.skips.tail ⟨hignored, hs⟩⟩
    exact hbuild trail q.1 state s en' h hat' (hne hignored) hen
  · exact .refl h
  · have hpath := (h.path state hat.live hat.ne_init).2.snoc (e := (root, s)) hk hat.skips hedge hbound
    obtain ⟨trail', htraced, hagree, hself⟩ := h.addEdge hat.live hat.ne_init hpath
    have hne' : (trail' q.1.1.slots).2 ≠ [] := by
      rw [hself]
      simp
    have hat' : At flow init trail' (q.1.addEdge state (root, s)).2 q.1.1.slots s :=
      { live := by simp
        ne_init := fun heq => q.1.1.slots_not_mem (heq ▸ h.live)
        skips := by
          rw [hself, endNode_append]
          exact .refl }
    have hcounts : countsOf (trail' q.1.1.slots) = (countsOf (trail state)).enter s := by
      rw [hself, countsOf_snoc]
    have hcall := hbuild trail' _ q.1.1.slots s en' htraced hat' hne' (hcounts ▸ hen)
    exact hcall.after (fun q hq => by simp [hq]) hagree

/-- All iterations. -/
theorem loop_traced (hk : 1 ≤ k)
    {build : TaState → ν → NodeCounts ν → Enumeration F P ν → Option (Enumeration F P ν)}
    (hbuild : BuildTraced env flow tgg k strict init build) {root : ν}
    {q : Enumeration F P ν × Bool} (h : Traced env flow tgg k strict init trail en)
    (hat : At flow init trail en state root)
    (hne : flow.ignored root = true → (trail state).2 ≠ [])
    (hloop : (flow.successors root).foldlM
      (loopBody flow tgg k build state root (countsOf (trail state))) (en, false) = some q) :
    TracedFrom env flow tgg k strict init trail en q.1 := by
  refine foldlM_induction
    (fun q : Enumeration F P ν × Bool => TracedFrom env flow tgg k strict init trail en q.1)
    (.refl h) ?_ hloop
  intro c s hs c' hc hstep
  obtain ⟨hstates, trail', htraced, hagree⟩ := hc
  have hsame := hagree state hat.live
  have hat' : At flow init trail' c.1 state root :=
    ⟨hstates state hat.live, hat.ne_init, hsame ▸ hat.skips⟩
  rw [← hsame] at hne hstep
  exact (loopBody_traced hk hbuild htraced hat' hne hs hstep).after hstates hagree

/-- **A call** whose state stands for a path adds states that do. -/
theorem runDfsBuild_traced (hk : 1 ≤ k) (fuel : Nat) :
    BuildTraced env flow tgg k strict init (runDfsBuild flow tgg k fuel) := by
  induction fuel with
  | zero => exact fun _ _ _ _ _ _ _ _ h => nomatch h
  | succ fuel ih =>
      intro trail en state root en' h hat hne hrun
      obtain ⟨q, hq, rfl⟩ := Option.map_eq_some_iff.mp hrun
      obtain ⟨hstates, trail', htraced, hagree⟩ := loop_traced hk ih h hat (fun _ => hne) hq
      have hsame := hagree state hat.live
      exact (htraced.finish (hstates state hat.live) hat.ne_init (hsame ▸ hne) q.2).after hstates hagree

/-! ### Initial nodes -/

/-- No initial node has both an edge that the enumeration may take and one
that it may not. -/
def AllOrNone (flow : FlowGraph ν) (tgg : TargetGraph ν) (k : Int) : Prop :=
  ∀ root ∈ tgg.initial, ¬ ((∃ b ∈ flow.successors root, MayEnter tgg k root b) ∧
    ∃ b ∈ flow.successors root, ¬ MayEnter tgg k root b)

/-- An edge is blocked where it may not be entered. -/
theorem blocked_iff {root s : ν} (hk : 1 ≤ k) :
    (NodeCounts.start root s = some k ∨ (root, s) ∉ tgg.edges) ↔ ¬ MayEnter tgg k root s := by
  have hbound : NodeCounts.start root s ≠ some k ↔ (s = root → 1 < k) := start_ne_bound_iff hk
  unfold MayEnter
  rw [← hbound]
  tauto

/-- The state of an initial node, before anything else. -/
def enterInitial (en : Enumeration F P ν) (init : TaState) : Enumeration F P ν :=
  (en.1.newState.2.setTrans init epsilon en.1.newState.1, en.2)

omit [DecidableEq F] [DecidableEq P] [DecidableEq ν] in
/-- The silent transition to a new state. -/
theorem mem_enterInitial (hinit : init ∈ en.1.states) {t : TaState × Int × TaState} :
    t ∈ (enterInitial en init).1.trans ↔ t ∈ en.1.trans ∨ t = (init, epsilon, en.1.slots) := by
  have hmem := en.1.newState.2.mem_setTrans (s := init) (l := epsilon) (t := en.1.slots) (e := t)
  refine hmem.trans (or_congr Iff.rfl ?_)
  simp [hinit]

/-- The empty path is bounded. -/
theorem boundedPath_nil {root : ν} (hk : 1 ≤ k) : BoundedPath flow tgg k root [] where
  linked := trivial
  edges := fun _ h => absurd h List.not_mem_nil
  count := by
    intro v
    have hle : [root].count v ≤ 1 := by
      by_cases hv : v = root
      · simp [hv]
      · simp [Ne.symm hv]
    simp only [entered, List.map_nil]
    omega

omit [DecidableEq F] [DecidableEq P] in
/-- The enumeration stays traced when it turns to an initial node. -/
theorem Traced.enterInitial (hk : 1 ≤ k) (h : Traced env flow tgg k strict init trail en) {root : ν}
    (hroot : root ∈ tgg.initial) :
    ∃ trail', Traced env flow tgg k strict init trail' (enterInitial en init) ∧
      (∀ q ∈ en.1.states, trail' q = trail q) ∧ trail' en.1.slots = (root, []) :=
  h.extend (FShell.enterInitial en init) (by simp [FShell.enterInitial])
    (by simp [FShell.enterInitial]) (.refl _) (root, []) ⟨hroot, boundedPath_nil hk⟩ h.live
    (Or.inl ⟨rfl, rfl, rfl⟩) (fun _ ht => (mem_enterInitial h.live).mp ht)
    (fun q hq => Or.inl (by simpa [FShell.enterInitial] using hq))

/-- The loop at an initial node: whether an end was met, and whether an edge
was added. -/
theorem initial_loop (hk : 1 ≤ k) {fuel : Nat} {root : ν} (hignored : flow.ignored root = false)
    (hstate : state ∈ en.1.states) (hout : en.1.delta2 state = []) {q : Enumeration F P ν × Bool}
    (hloop : (flow.successors root).foldlM
      (loopBody flow tgg k (runDfsBuild flow tgg k fuel) state root (NodeCounts.start root))
        (en, false) = some q) :
    (q.2 = true ↔ ∃ b ∈ flow.successors root, ¬ MayEnter tgg k root b) ∧
      (q.1.1.delta2 state ≠ [] ↔ ∃ b ∈ flow.successors root, MayEnter tgg k root b) := by
  have hcases : ∀ {c : Enumeration F P ν × Bool} {s c'}, loopBody flow tgg k (runDfsBuild flow tgg k fuel) state root
      (NodeCounts.start root) c s = some c' →
      (¬ MayEnter tgg k root s ∧ c' = (c.1, true)) ∨ (MayEnter tgg k root s ∧ c'.2 = c.2 ∧
        (c.1.addEdge state (root, s)).2.Grows c'.1) := by
    intro c s c' hstep
    rcases loopBody_cases hstep with ⟨hroot, _⟩ | ⟨_, hblocked, rfl⟩ |
      ⟨_, hne, hedge, en', hen, rfl⟩
    · exact absurd hroot (by simp [hignored])
    · exact Or.inl ⟨(blocked_iff hk).mp hblocked, rfl⟩
    · have hmay : MayEnter tgg k root s := ⟨hedge, (start_ne_bound_iff hk).mp hne⟩
      exact Or.inr ⟨hmay, rfl, runDfsBuild_grows _ _ _ _ _ hen⟩
  have hgrows : ∀ c : Enumeration F P ν × Bool, ∀ s ∈ flow.successors root, ∀ c',
      loopBody flow tgg k (runDfsBuild flow tgg k fuel) state root
        (NodeCounts.start root) c s = some c' → c.1.Grows c'.1 :=
    fun c s _ c' hstep => loopBody_grows runDfsBuild_grows hstep
  refine ⟨⟨?_, ?_⟩, ?_, ?_⟩
  · intro hend
    by_contra hnone
    have hfalse : q.2 = false := by
      refine foldlM_induction (fun q : Enumeration F P ν × Bool => q.2 = false) rfl ?_ hloop
      intro c s hs c' hc hstep
      rcases hcases hstep with ⟨hblocked, _⟩ | ⟨_, hsame, _⟩
      · exact absurd ⟨s, hs, hblocked⟩ hnone
      · exact hsame.trans hc
    rw [hfalse] at hend
    cases hend
  · intro ⟨b, hb, hblocked⟩
    obtain ⟨c, c', _, hstep, hlater⟩ := exists_iteration
      (fun c c' : Enumeration F P ν × Bool => c.2 = true → c'.2 = true) (fun _ h => h)
      (fun _ _ _ h h' hc => h' (h hc))
      (fun c s _ c' hstep hc => by
        rcases hcases hstep with ⟨_, rfl⟩ | ⟨_, hsame, _⟩
        · rfl
        · exact hsame.trans hc) hloop hb
    rcases hcases hstep with ⟨_, rfl⟩ | ⟨hmay, _⟩
    · exact hlater rfl
    · exact absurd hmay hblocked
  · intro hout'
    by_contra hnone
    have hsame : q.1 = en := by
      refine foldlM_induction (fun q : Enumeration F P ν × Bool => q.1 = en) rfl ?_ hloop
      intro c s hs c' hc hstep
      rcases hcases hstep with ⟨_, rfl⟩ | ⟨hmay, _⟩
      · exact hc
      · exact absurd ⟨s, hs, hmay⟩ hnone
    exact hout' (hsame ▸ hout)
  · intro ⟨b, hb, hmay⟩ hempty
    obtain ⟨c, c', hbefore, hstep, hafter⟩ := exists_iteration
      (fun c c' : Enumeration F P ν × Bool => c.1.Grows c'.1) (fun c => .refl c.1)
      (fun _ _ _ h h' => h.next h') hgrows hloop hb
    rcases hcases hstep with ⟨hblocked, _⟩ | ⟨_, _, hadded⟩
    · exact hblocked hmay
    · have hnew := (Enumeration.mem_addEdge (e := (root, b)) (hbefore.states state hstate)).mpr (Or.inr rfl)
      have hmem := q.1.1.mem_delta2.mpr (hafter.trans _ (hadded.trans _ hnew))
      rw [hempty] at hmem
      exact absurd hmem List.not_mem_nil

/-- What happens at an initial node. -/
theorem runFrom_cases {fuel : Nat} {root : ν} (h : runFrom flow fuel tgg k init en root = some en') :
    ∃ n q, (flow.successors root).foldlM
        (loopBody flow tgg k (runDfsBuild flow tgg k n) en.1.slots root (NodeCounts.start root))
          (enterInitial en init, false) = some q ∧
      en' = ((q.1.finish en.1.slots q.2).1.clearFinal en.1.slots, (q.1.finish en.1.slots q.2).2) := by
  obtain ⟨e, he, rfl⟩ := Option.map_eq_some_iff.mp h
  cases fuel with
  | zero => cases he
  | succ n =>
      obtain ⟨q, hq, rfl⟩ := Option.map_eq_some_iff.mp he
      exact ⟨n, q, hq, rfl⟩

omit [DecidableEq F] [DecidableEq P] [DecidableEq ν] in
/-- Turning to an initial node makes the automaton grow. -/
theorem grows_enterInitial : en.Grows (enterInitial en init) where
  initial := by simp [enterInitial]
  states := fun s hs => by simp [enterInitial, hs]
  trans := fun t ht => en.1.newState.2.mem_setTrans.mpr (Or.inl ht)
  finals := fun s hs => by simpa [enterInitial] using hs
  graphs := .refl _

omit [DecidableEq F] [DecidableEq P] [DecidableEq ν] in
/-- The new state is there. -/
theorem slots_mem_enterInitial : en.1.slots ∈ (enterInitial en init).1.states := by
  simp [enterInitial]

omit [DecidableEq F] [DecidableEq P] [DecidableEq ν] in
/-- Nothing leads from it yet. -/
theorem delta2_enterInitial (hinit : init ∈ en.1.states) :
    (enterInitial en init).1.delta2 en.1.slots = [] := by
  refine List.eq_nil_iff_forall_not_mem.mpr fun e he => ?_
  rcases (mem_enterInitial hinit).mp ((mem_delta2 _).mp he) with hold | hnew
  · exact en.1.slots_not_mem (en.1.trans_live _ hold).1
  · have heq : en.1.slots = init := congrArg Prod.fst hnew
    exact en.1.slots_not_mem (heq ▸ hinit)

/-- Only the new state stops accepting. -/
theorem runFrom_grows {fuel : Nat} {root : ν}
    (h : runFrom flow fuel tgg k init en root = some en') : en.Grows en' := by
  obtain ⟨n, q, hq, rfl⟩ := runFrom_cases h
  have hloop : (enterInitial en init).Grows q.1 :=
    foldlM_induction (fun q : Enumeration F P ν × Bool => (enterInitial en init).Grows q.1)
      (.refl _) (fun c s _ c' hc hstep => hc.next (loopBody_grows runDfsBuild_grows hstep)) hq
  have hfinish : q.1.Grows (q.1.finish en.1.slots q.2) := Enumeration.grows_finish q.2
  have hgrows := (grows_enterInitial.next hloop).next hfinish
  exact
    { initial := hgrows.initial
      states := hgrows.states
      trans := hgrows.trans
      finals := by
        intro s hs
        refine mem_clearFinal _ |>.mpr ⟨hgrows.finals s hs, ?_⟩
        exact fun heq => en.1.slots_not_mem (heq ▸ en.1.finals_live s hs)
      graphs := hgrows.graphs }

/-- The loop at an initial node keeps the automaton traced. -/
theorem initial_loop_traced (hk : 1 ≤ k) {n : Nat} {root : ν} (hroot : root ∈ tgg.initial)
    (hignored : flow.ignored root = false) (h : Traced env flow tgg k strict init trail en)
    {q : Enumeration F P ν × Bool}
    (hloop : (flow.successors root).foldlM
      (loopBody flow tgg k (runDfsBuild flow tgg k n) en.1.slots root (NodeCounts.start root))
        (enterInitial en init, false) = some q) :
    en.1.slots ≠ init ∧ en.1.slots ∈ q.1.1.states ∧ (∀ s ∈ en.1.states, s ∈ q.1.1.states) ∧
      ∃ trail', Traced env flow tgg k strict init trail' q.1 ∧
        (∀ s ∈ en.1.states, trail' s = trail s) ∧ trail' en.1.slots = (root, []) := by
  obtain ⟨trail', htraced, hagree, hself⟩ := h.enterInitial hk hroot
  have hne : en.1.slots ≠ init := fun heq => en.1.slots_not_mem (heq ▸ h.live)
  have hlive : en.1.slots ∈ (enterInitial en init).1.states := slots_mem_enterInitial
  have hat : At flow init trail' (enterInitial en init) en.1.slots root :=
    ⟨hlive, hne, by rw [hself]; exact .refl⟩
  have hcounts : countsOf (trail' en.1.slots) = NodeCounts.start root := by
    rw [hself, NodeCounts.of_start]
    rfl
  have hcalls : flow.ignored root = true → (trail' en.1.slots).2 ≠ [] := by
    intro htrue
    rw [hignored] at htrue
    cases htrue
  obtain ⟨hstates, trail'', htraced', hagree'⟩ :=
    loop_traced hk (runDfsBuild_traced hk n) htraced hat hcalls (hcounts ▸ hloop)
  refine ⟨hne, hstates _ hlive, fun s hs => hstates s (grows_enterInitial.states s hs), trail'',
    htraced', ?_, (hagree' _ hlive).trans hself⟩
  intro s hs
  exact (hagree' s (grows_enterInitial.states s hs)).trans (hagree s hs)

/-- The states that an initial node gets stand for paths from there. -/
theorem runFrom_traced (hk : 1 ≤ k) {fuel : Nat} {root : ν} (hroot : root ∈ tgg.initial)
    (hignored : flow.ignored root = false) (h : Traced env flow tgg k strict init trail en)
    (hstrict : strict → AllOrNone flow tgg k)
    (hrun : runFrom flow fuel tgg k init en root = some en') :
    TracedFrom env flow tgg k strict init trail en en' := by
  obtain ⟨n, q, hq, rfl⟩ := runFrom_cases hrun
  obtain ⟨hne, hlive, hstates, trail', htraced, hagree, _⟩ :=
    initial_loop_traced hk hroot hignored h hq
  obtain ⟨hend, hedge⟩ := initial_loop hk hignored slots_mem_enterInitial
    (delta2_enterInitial h.live) hq
  refine (htraced.finishInitial hlive hne ?_).after hstates hagree
  intro hs hboth
  exact hstrict hs root hroot ⟨hedge.mp hboth.1, hend.mp hboth.2⟩

/-- **The empty path is accepted** below an initial node with both kinds of
edges. -/
theorem exists_silent_final (hk : 1 ≤ k) {fuel : Nat} {root : ν} (hroot : root ∈ tgg.initial)
    (hignored : flow.ignored root = false) (h : Traced env flow tgg k strict init trail en)
    (hmay : ∃ b ∈ flow.successors root, MayEnter tgg k root b)
    (hblocked : ∃ b ∈ flow.successors root, ¬ MayEnter tgg k root b)
    (hrun : runFrom flow fuel tgg k init en root = some en') :
    ∃ s ∈ en'.1.finals, (init, epsilon, s) ∈ en'.1.trans := by
  obtain ⟨n, q, hq, rfl⟩ := runFrom_cases hrun
  obtain ⟨hne, hlive, _, trail', htraced, _, hself⟩ := initial_loop_traced hk hroot hignored h hq
  obtain ⟨hend, hedge⟩ := initial_loop hk hignored slots_mem_enterInitial
    (delta2_enterInitial h.live) hq
  have hout := hedge.mpr hmay
  -- the only way into the state is the silent one
  have hsource : ∀ s l, (s, l, en.1.slots) ∈ q.1.1.trans → s = init ∧ l = epsilon := by
    intro s l hin
    rcases (htraced.edge s l _ hin).2 with ⟨hs, hl, _⟩ | ⟨_, e, _, htrail⟩
    · exact ⟨hs, hl⟩
    · rw [hself] at htrail
      exact absurd (congrArg Prod.snd htrail) (by simp)
  have hloop : (enterInitial en init).Grows q.1 :=
    foldlM_induction (fun q : Enumeration F P ν × Bool => (enterInitial en init).Grows q.1)
      (.refl _) (fun c s _ c' hc hstep => hc.next (loopBody_grows runDfsBuild_grows hstep)) hq
  have hin : (init, epsilon, en.1.slots) ∈ q.1.1.trans :=
    hloop.trans _ ((mem_enterInitial h.live).mpr (Or.inr rfl))
  rcases q.1.finish_cases en.1.slots q.2 with ⟨hnone, _⟩ | ⟨_, _, l, s, hfrom, heq⟩ | ⟨_, hno, _⟩
  · exact absurd hnone hout
  · obtain ⟨rfl, rfl⟩ := hsource s l hfrom
    rw [heq]
    refine ⟨q.1.1.slots, ?_, ?_⟩
    · refine (mem_clearFinal _).mpr ⟨(mem_setFinal _).mpr (Or.inr ⟨rfl, by simp⟩), ?_⟩
      exact fun hsame => q.1.1.slots_not_mem (hsame ▸ hlive)
    · rw [clearFinal_trans, setFinal_trans, mem_setTrans]
      exact Or.inr ⟨by simp [htraced.live], by simp, rfl⟩
  · rcases hno with hfalse | hempty
    · rw [hend.mpr hblocked] at hfalse
      cases hfalse
    · have hmem := (mem_delta2Backwards _).mpr hin
      rw [hempty] at hmem
      exact absurd hmem List.not_mem_nil

omit [DecidableEq F] [DecidableEq P] in
/-- A walk that does not start in the initial state spells what it adds to the
path. -/
theorem Traced.spells (h : Traced env flow tgg k strict init trail en) {s t : TaState}
    {u : List Int} (hwalk : Walk en.1.delta s u t) (hs : s ≠ init) :
    ∃ es, Spells env en.2 (erase epsilon u) es ∧ trail t = ((trail s).1, (trail s).2 ++ es) := by
  induction hwalk with
  | nil s => exact ⟨[], .nil, by simp⟩
  | @cons s m t l u hedge _ ih =>
      obtain ⟨hm, hcases⟩ := h.edge s l m hedge
      obtain ⟨_, e, he, htrail⟩ := hcases.resolve_left fun hinit => hs hinit.1
      obtain ⟨es, hes, htarget⟩ := ih hm
      have hl : l ≠ epsilon := by
        intro heq
        subst heq
        exact absurd he nofun
      refine ⟨e :: es, ?_, ?_⟩
      · rw [show erase epsilon (l :: u) = l :: erase epsilon u by simp [erase, hl]]
        exact .cons he hes
      · rw [htarget, htrail]
        simp

omit [DecidableEq F] [DecidableEq P] in
/-- **Accepted words** spell bounded paths. -/
theorem Traced.accepts (h : Traced env flow tgg k strict init trail en) {w : List Int}
    (hw : w ∈ en.1.accepts) :
    ∃ es, Spells env en.2 w es ∧ (strict → es ≠ []) ∧
      ∃ root ∈ tgg.initial, BoundedPath flow tgg k root es := by
  obtain ⟨s, hs, t, u, ht, hwalk, rfl⟩ := hw
  rw [h.initial] at hs
  cases List.mem_singleton.mp hs
  obtain ⟨hne, hstrict⟩ := h.final t ht
  cases hwalk with
  | nil => exact absurd rfl hne
  | @cons _ m _ l u hedge tail =>
      obtain ⟨hm, hcases⟩ := h.edge _ l m hedge
      obtain ⟨_, hl, hempty⟩ := hcases.resolve_right fun hinit => hinit.1 rfl
      obtain ⟨es, hes, htrail⟩ := h.spells tail hm
      have hpath := h.path t (en.1.finals_live t ht) hne
      have hsame : (trail t).2 = es := by rw [htrail, hempty, List.nil_append]
      refine ⟨es, ?_, fun hs => hsame ▸ hstrict hs, (trail t).1, hpath.1, hsame ▸ hpath.2⟩
      rw [hl, show erase epsilon (epsilon :: u) = erase epsilon u by simp [erase]]
      exact hes

end Traced

/-! ## Paths without continuation are accepted -/

section Complete

variable {F P ν : Type} [DecidableEq F] [DecidableEq P] [DecidableEq ν]
  {env : PathPatternEnv F P ν} {flow : FlowGraph ν} {tgg : TargetGraph ν} {k : Int}
  {en en' : Enumeration F P ν} {state : TaState} {h : List ν} {root : ν}

/-- A path from a node on, when the nodes of `h` have been entered, that does
not go on. -/
structure Continues (flow : FlowGraph ν) (tgg : TargetGraph ν) (k : Int) (h : List ν) (root : ν)
    (es : List (ν × ν)) : Prop where
  linked : flow.Linked root es
  edges : ∀ e ∈ es, e ∈ tgg.edges
  count : ∀ v, ((h ++ es.map Prod.snd).count v : Int) ≤ k
  stop : NoContinuation flow tgg k (h ++ es.map Prod.snd) (endNode root es)

/-- The path behind its first edge. -/
theorem Continues.tail {e : ν × ν} {es : List (ν × ν)} (hc : Continues flow tgg k h root (e :: es)) :
    Continues flow tgg k (e.2 :: h) e.2 es := by
  have hcount : ∀ v, (e.2 :: h ++ es.map Prod.snd).count v
      = (h ++ (e :: es).map Prod.snd).count v := by
    intro v
    simp only [List.cons_append, List.map_cons, List.count_append, List.count_cons]
    omega
  exact
    { linked := hc.linked.2
      edges := fun d hd => hc.edges d (List.mem_cons_of_mem _ hd)
      count := fun v => by rw [hcount]; exact hc.count v
      stop := by
        intro b c hskips hb hsucc hedge
        rw [hcount]
        exact hc.stop b c hskips hb hsucc hedge }

/-- No node is entered more often than the bound says. -/
theorem Continues.count_le {es : List (ν × ν)} (hc : Continues flow tgg k h root es) (v : ν) :
    (h.count v : Int) ≤ k := by
  have hv := hc.count v
  rw [List.count_append] at hv
  omega

/-- What a recursive call makes acceptable. -/
structure Accepts (env : PathPatternEnv F P ν) (flow : FlowGraph ν) (tgg : TargetGraph ν) (k : Int)
    (h : List ν) (root : ν) (state : TaState) (en en' : Enumeration F P ν) : Prop where
  path : ∀ es, es ≠ [] → Continues flow tgg k h root es →
    ∃ u t, Walk en'.1.delta state u t ∧ t ∈ en'.1.finals ∧ t ∉ en.1.states ∧
      Spells env en'.2 u es
  stop : NoContinuation flow tgg k h root → en.1.delta2 state = [] →
    en'.1.delta2 state = [] ∧ state ∈ en'.1.finals

def BuildAccepts (env : PathPatternEnv F P ν) (flow : FlowGraph ν) (tgg : TargetGraph ν) (k : Int)
    (build : TaState → ν → NodeCounts ν → Enumeration F P ν → Option (Enumeration F P ν)) : Prop :=
  ∀ h root state en en', (∀ v, (h.count v : Int) ≤ k) → state ∈ en.1.states →
    build state root (NodeCounts.of h) en = some en' →
    Accepts env flow tgg k h root state en en'

omit [DecidableEq F] [DecidableEq P] [DecidableEq ν] in
/-- What is spelled stays so. -/
theorem Spells.grows {w : List Int} {es : List (ν × ν)} (hw : Spells env en.2 w es)
    (hgrows : en.Grows en') : Spells env en'.2 w es :=
  hw.imp fun _ _ he => hgrows.graphs.lookupGraph he

omit [DecidableEq F] [DecidableEq P] [DecidableEq ν] in
/-- A loop that leaves the state alone makes it accept. -/
theorem finish_stop (hstate : state ∈ en.1.states) (hout : en.1.delta2 state = []) (mayBeEnd : Bool) :
    (en.finish state mayBeEnd).1.delta2 state = [] ∧ state ∈ (en.finish state mayBeEnd).1.finals := by
  rcases en.finish_cases state mayBeEnd with ⟨_, heq⟩ | ⟨hne, _⟩ | ⟨hne, _⟩
  · rw [heq]
    refine ⟨?_, (mem_setFinal _).mpr (Or.inr ⟨rfl, hstate⟩)⟩
    rw [delta2, setFinal_trans]
    exact hout
  · exact absurd hout hne
  · exact absurd hout hne

/-- At an ignored instruction the calls for its successors do it. -/
theorem accepts_ignored
    {build : TaState → ν → NodeCounts ν → Enumeration F P ν → Option (Enumeration F P ν)}
    (hbuild : BuildAccepts env flow tgg k build)
    (hadds : ∀ state root nc en en', build state root nc en = some en' → en.Grows en')
    (hfiltered : flow.Filtered tgg) (hcount : ∀ v, (h.count v : Int) ≤ k)
    (hstate : state ∈ en.1.states) (hignored : flow.ignored root = true)
    {q : Enumeration F P ν × Bool}
    (hloop : (flow.successors root).foldlM
      (loopBody flow tgg k build state root (NodeCounts.of h)) (en, false) = some q) :
    Accepts env flow tgg k h root state en (q.1.finish state q.2) := by
  have hcall : ∀ {c : Enumeration F P ν × Bool} {s c'},
      loopBody flow tgg k build state root (NodeCounts.of h) c s = some c' →
      build state s (NodeCounts.of h) c.1 = some c'.1 := by
    intro c s c' hstep
    rcases loopBody_cases hstep with ⟨_, en', hen, rfl⟩ | ⟨hno, _⟩ | ⟨hno, _⟩
    · exact hen
    · exact absurd hignored hno
    · exact absurd hignored hno
  have hgrows : ∀ c : Enumeration F P ν × Bool, ∀ s ∈ flow.successors root, ∀ c',
      loopBody flow tgg k build state root (NodeCounts.of h) c s = some c' → c.1.Grows c'.1 :=
    fun c s _ c' hstep => loopBody_grows hadds hstep
  refine ⟨?_, ?_⟩
  · intro es hne hc
    cases es with
    | nil => exact absurd rfl hne
    | cons e es =>
        have hfirst := (hfiltered.edges e (hc.edges e List.mem_cons_self)).1
        obtain hroot | ⟨s, hs, hskips⟩ := ReflTransGen.cases_head hc.linked.1
        · rw [hroot, hfirst] at hignored
          cases hignored
        · obtain ⟨c, c', hbefore, hstep, hafter⟩ := exists_iteration
            (fun c c' : Enumeration F P ν × Bool => c.1.Grows c'.1) (fun c => .refl c.1)
            (fun _ _ _ h h' => h.next h') hgrows hloop hs.2
          have hc' : Continues flow tgg k h s (e :: es) :=
            ⟨⟨hskips, hc.linked.2⟩, hc.edges, hc.count, hc.stop⟩
          have haccepts := hbuild h s state c.1 c'.1 hcount (hbefore.states state hstate) (hcall hstep)
          obtain ⟨u, t, hwalk, ht, hnew, hspells⟩ := haccepts.path (e :: es) hne hc'
          have hfinish : q.1.Grows (q.1.finish state q.2) := Enumeration.grows_finish q.2
          have hlater := hafter.next hfinish
          exact ⟨u, t, hwalk.mono fun _ _ _ hedge => hlater.trans _ hedge, hlater.finals t ht,
            fun hold => hnew (hbefore.states t hold), hspells.grows hlater⟩
  · intro hstop hout
    have hkept : state ∈ q.1.1.states ∧ q.1.1.delta2 state = [] := by
      refine foldlM_induction
        (fun q : Enumeration F P ν × Bool => state ∈ q.1.1.states ∧ q.1.1.delta2 state = [])
        ⟨hstate, hout⟩ ?_ hloop
      intro c s hs c' hc hstep
      have hstop' : NoContinuation flow tgg k h s :=
        fun a b hskips => hstop a b (.head ⟨hignored, hs⟩ hskips)
      have haccepts := hbuild h s state c.1 c'.1 hcount hc.1 (hcall hstep)
      exact ⟨(hgrows c s hs c' hstep).states state hc.1, (haccepts.stop hstop' hc.2).1⟩
    exact finish_stop hkept.1 hkept.2 q.2

/-- At any other instruction the edges of the target graph do it. -/
theorem accepts_counted (hk : 1 ≤ k)
    {build : TaState → ν → NodeCounts ν → Enumeration F P ν → Option (Enumeration F P ν)}
    (hbuild : BuildAccepts env flow tgg k build)
    (hadds : ∀ state root nc en en', build state root nc en = some en' → en.Grows en')
    (hfiltered : flow.Filtered tgg) (hcount : ∀ v, (h.count v : Int) ≤ k)
    (hstate : state ∈ en.1.states) (hignored : flow.ignored root = false)
    {q : Enumeration F P ν × Bool}
    (hloop : (flow.successors root).foldlM
      (loopBody flow tgg k build state root (NodeCounts.of h)) (en, false) = some q) :
    Accepts env flow tgg k h root state en (q.1.finish state q.2) := by
  have hgrows : ∀ c : Enumeration F P ν × Bool, ∀ s ∈ flow.successors root, ∀ c',
      loopBody flow tgg k build state root (NodeCounts.of h) c s = some c' → c.1.Grows c'.1 :=
    fun c s _ c' hstep => loopBody_grows hadds hstep
  have hnot : ¬ flow.ignored root = true := by simp [hignored]
  refine ⟨?_, ?_⟩
  · intro es hne hc
    cases es with
    | nil => exact absurd rfl hne
    | cons e es =>
        obtain ⟨a, s⟩ := e
        obtain rfl | ⟨_, hs, _⟩ := ReflTransGen.cases_head hc.linked.1
        · have hedge := hc.edges _ List.mem_cons_self
          have hsucc := (hfiltered.edges _ hedge).2
          obtain ⟨c, c', hbefore, hstep, hafter⟩ := exists_iteration
            (fun c c' : Enumeration F P ν × Bool => c.1.Grows c'.1) (fun c => .refl c.1)
            (fun _ _ _ h h' => h.next h') hgrows hloop hsucc
          have htail := hc.tail
          have hle := htail.count_le s
          have hle' := hcount s
          rw [List.count_cons_self] at hle
          have hbound := (NodeCounts.of_eq_bound hk hle').not.mpr (by omega)
          rcases loopBody_cases hstep with ⟨hyes, _⟩ | ⟨_, hblocked, _⟩ | ⟨_, _, _, en₁, hen, rfl⟩
          · exact absurd hyes hnot
          · exact absurd hblocked (not_or.mpr ⟨hbound, not_not.mpr hedge⟩)
          · have hfinish : q.1.Grows (q.1.finish state q.2) := Enumeration.grows_finish q.2
            have hlater := hafter.next hfinish
            have hadded := hadds _ _ _ _ _ hen
            have hlive := hbefore.states state hstate
            rw [NodeCounts.of_enter] at hen
            have haccepts := hbuild _ _ _ _ _ htail.count_le (by simp) hen
            have hfresh : c.1.1.slots ∉ en.1.states :=
              fun hold => c.1.1.slots_not_mem (hbefore.states _ hold)
            obtain ⟨u, t, hwalk, ht, hnew, hspells⟩ :
                ∃ u t, Walk en₁.1.delta c.1.1.slots u t ∧ t ∈ en₁.1.finals ∧ t ∉ en.1.states ∧
                  Spells env en₁.2 u es := by
              cases es with
              | nil =>
                  have hempty : (c.1.addEdge state (root, s)).2.1.delta2 c.1.1.slots = [] := by
                    refine List.eq_nil_iff_forall_not_mem.mpr fun e he => ?_
                    rcases (Enumeration.mem_addEdge hlive).mp ((mem_delta2 _).mp he) with hold | hnew
                    · exact c.1.1.slots_not_mem (c.1.1.trans_live _ hold).1
                    · have heq : c.1.1.slots = state := congrArg Prod.fst hnew
                      exact c.1.1.slots_not_mem (heq ▸ hlive)
                  have hstop : NoContinuation flow tgg k (s :: h) s := by
                    have hstop := htail.stop
                    rwa [List.map_nil, List.append_nil] at hstop
                  exact ⟨[], _, .nil _, (haccepts.stop hstop hempty).2, hfresh, .nil⟩
              | cons d es =>
                  obtain ⟨u, t, hwalk, ht, hnew, hspells⟩ :=
                    haccepts.path (d :: es) (List.cons_ne_nil d es) htail
                  refine ⟨u, t, hwalk, ht, fun hold => hnew ?_, hspells⟩
                  exact Enumeration.grows_addEdge.states t (hbefore.states t hold)
            have hin := (Enumeration.mem_addEdge (e := (root, s)) hlive).mpr (Or.inr rfl)
            have hlabel : (c.1.addEdge state (root, s)).2.2.lookupGraph env
                (c.1.newLabel (root, s)) = some (edgeGraph (root, s)) :=
              Enumeration.lookupGraph_newLabel env
            refine ⟨c.1.newLabel (root, s) :: u, t,
              .cons (hlater.trans _ (hadded.trans _ hin)) (hwalk.mono fun _ _ _ he => hlater.trans _ he),
              hlater.finals t ht, hnew, .cons ?_ (hspells.grows hlater)⟩
            exact hlater.graphs.lookupGraph (hadded.graphs.lookupGraph hlabel)
        · exact absurd hs.1 hnot
  · intro hstop hout
    have hsame : q.1 = en := by
      refine foldlM_induction (fun q : Enumeration F P ν × Bool => q.1 = en) rfl ?_ hloop
      intro c s hs c' hc hstep
      rcases loopBody_cases hstep with ⟨hyes, _⟩ | ⟨_, _, rfl⟩ | ⟨_, hbound, hedge, _⟩
      · exact absurd hyes hnot
      · exact hc
      · have hlt := hstop root s .refl hignored hs hedge
        exact absurd ((NodeCounts.of_eq_bound hk (hcount s)).mpr hlt) hbound
    rw [← hsame] at hstate hout
    exact finish_stop hstate hout q.2

/-- **A call** makes every path from its node acceptable that does not go on. -/
theorem runDfsBuild_accepts (hk : 1 ≤ k) (hfiltered : flow.Filtered tgg) (fuel : Nat) :
    BuildAccepts env flow tgg k (runDfsBuild (F := F) (P := P) flow tgg k fuel) := by
  induction fuel with
  | zero => exact fun _ _ _ _ _ _ _ hrun => nomatch hrun
  | succ fuel ih =>
      intro h root state en en' hcount hstate hrun
      obtain ⟨q, hq, rfl⟩ := Option.map_eq_some_iff.mp hrun
      cases hignored : flow.ignored root with
      | true => exact accepts_ignored ih runDfsBuild_grows hfiltered hcount hstate hignored hq
      | false => exact accepts_counted hk ih runDfsBuild_grows hfiltered hcount hstate hignored hq

/-- Below an initial node such paths are accepted. -/
theorem runFrom_accepts (hk : 1 ≤ k) (hfiltered : flow.Filtered tgg) {fuel : Nat} {init : TaState}
    (hinit : init ∈ en.1.states) {es : List (ν × ν)} (hne : es ≠ [])
    (hpath : BoundedPath flow tgg k root es)
    (hstop : NoContinuation flow tgg k (entered root es) (endNode root es))
    (hrun : runFrom flow fuel tgg k init en root = some en') :
    ∃ w ∈ future en'.1.delta epsilon (· ∈ en'.1.finals) init, Spells env en'.2 w es := by
  obtain ⟨e, he, rfl⟩ := Option.map_eq_some_iff.mp hrun
  have hnil : BoundedPath flow tgg k root [] := boundedPath_nil hk
  have hcount : ∀ v, ([root].count v : Int) ≤ k := hnil.count
  rw [NodeCounts.of_start] at he
  have hbuild : BuildAccepts env flow tgg k (runDfsBuild flow tgg k fuel) :=
    runDfsBuild_accepts hk hfiltered fuel
  have haccepts := hbuild [root] root en.1.slots (enterInitial en init) e hcount
    slots_mem_enterInitial he
  obtain ⟨u, t, hwalk, ht, hnew, hspells⟩ :=
    haccepts.path es hne ⟨hpath.linked, hpath.edges, hpath.count, hstop⟩
  have hin : (init, epsilon, en.1.slots) ∈ e.1.trans :=
    (runDfsBuild_grows _ _ _ _ _ he).trans _ ((mem_enterInitial hinit).mpr (Or.inr rfl))
  have hfinal : t ∈ (e.1.clearFinal en.1.slots).finals := by
    refine (mem_clearFinal _).mpr ⟨ht, ?_⟩
    exact fun heq => hnew (heq ▸ slots_mem_enterInitial)
  have hvisible : erase epsilon (epsilon :: u) = u := by
    rw [show erase epsilon (epsilon :: u) = erase epsilon u by simp [erase], hspells.erase]
  exact ⟨u, ⟨t, epsilon :: u, hfinal, .cons hin hwalk, hvisible⟩, hspells⟩

/-! ## The whole enumeration -/

/-- The automaton before the first initial node. -/
def startEnumeration (graphs : GraphTable F P ν) : Enumeration F P ν :=
  (TraceAutomaton.empty.newState.2.insertInitial TraceAutomaton.empty.newState.1, graphs)

omit [DecidableEq F] [DecidableEq P] in
/-- The enumeration starts traced. -/
theorem traced_start (hnode : ν) (strict : Prop) (graphs : GraphTable F P ν) :
    Traced env flow tgg k strict TraceAutomaton.empty.newState.1 (fun _ => (hnode, []))
      (startEnumeration graphs) where
  initial := rfl
  live := List.mem_cons_self
  edge := fun _ _ _ h => absurd h List.not_mem_nil
  path := fun _ hs hne => absurd (List.mem_singleton.mp hs) hne
  final := fun _ h => absurd h List.not_mem_nil

variable (env) in
/-- The enumeration is traced at every initial node, before and after it. -/
theorem exists_traced_iteration (hfiltered : flow.Filtered tgg) (hk : 1 ≤ k)
    {graphs : GraphTable F P ν} {fuel : Nat} (hrun : runPathcov flow fuel tgg k graphs = some en)
    {root : ν} (hroot : root ∈ tgg.initial) :
    ∃ c c' : Enumeration F P ν, (∃ trail, Traced env flow tgg k (AllOrNone flow tgg k)
        TraceAutomaton.empty.newState.1 trail c) ∧
      (∃ trail, Traced env flow tgg k (AllOrNone flow tgg k)
        TraceAutomaton.empty.newState.1 trail en) ∧
      runFrom flow fuel tgg k TraceAutomaton.empty.newState.1 c root = some c' ∧ c'.Grows en := by
  have hloop : tgg.initial.foldlM (runFrom flow fuel tgg k TraceAutomaton.empty.newState.1)
      (startEnumeration graphs) = some en := hrun
  have hstep : ∀ c : Enumeration F P ν, ∀ root ∈ tgg.initial, ∀ c',
      (∃ trail, Traced env flow tgg k (AllOrNone flow tgg k) TraceAutomaton.empty.newState.1 trail c) →
      runFrom flow fuel tgg k TraceAutomaton.empty.newState.1 c root = some c' →
      ∃ trail, Traced env flow tgg k (AllOrNone flow tgg k) TraceAutomaton.empty.newState.1 trail c' := by
    intro c root hroot c' hc hc'
    obtain ⟨trail, htraced⟩ := hc
    obtain ⟨_, trail', htraced', _⟩ :=
      runFrom_traced hk hroot (hfiltered.initial root hroot) htraced id hc'
    exact ⟨trail', htraced'⟩
  obtain ⟨c, c', hbefore, hc', hafter⟩ := exists_iteration
    (fun c c' : Enumeration F P ν => c.Grows c' ∧
      ((∃ trail, Traced env flow tgg k (AllOrNone flow tgg k) TraceAutomaton.empty.newState.1 trail c) →
        ∃ trail, Traced env flow tgg k (AllOrNone flow tgg k) TraceAutomaton.empty.newState.1 trail c'))
    (fun c => ⟨.refl c, id⟩) (fun _ _ _ h h' => ⟨h.1.next h'.1, h'.2 ∘ h.2⟩)
    (fun c root hroot c' hc' => ⟨runFrom_grows hc', fun hc => hstep c root hroot c' hc hc'⟩)
    hloop hroot
  have htraced := hbefore.2 ⟨_, traced_start root _ graphs⟩
  exact ⟨c, c', htraced, hafter.2 (hstep c root hroot c' htraced hc'), hc', hafter.1⟩

/-- What the state of the start accepts, the automaton does. -/
theorem runPathcov_accepts {graphs : GraphTable F P ν} {fuel : Nat}
    (hrun : runPathcov flow fuel tgg k graphs = some en) {w : List Int}
    (hw : w ∈ future en.1.delta epsilon (· ∈ en.1.finals) TraceAutomaton.empty.newState.1) :
    w ∈ en.1.accepts := by
  have hgrows : (startEnumeration graphs).Grows en :=
    foldlM_induction (fun c : Enumeration F P ν => (startEnumeration graphs).Grows c) (.refl _)
      (fun c _ _ c' hc hc' => hc.next (runFrom_grows hc')) hrun
  refine ⟨_, ?_, hw⟩
  rw [hgrows.initial]
  exact List.mem_cons_self

/-- **Every word is a bounded path** as long as every initial node lets the
enumeration take all of its edges or none. -/
theorem runPathcov_sound (hfiltered : flow.Filtered tgg) (hk : 1 ≤ k) {graphs : GraphTable F P ν}
    {fuel : Nat} (hrun : runPathcov flow fuel tgg k graphs = some en)
    (hall : AllOrNone flow tgg k) :
    ∀ w ∈ en.1.accepts, ∃ es, Spells env en.2 w es ∧ es ≠ [] ∧
      ∃ root ∈ tgg.initial, BoundedPath flow tgg k root es := by
  intro w hw
  cases hinitial : tgg.initial with
  | nil =>
      have hloop : tgg.initial.foldlM (runFrom flow fuel tgg k TraceAutomaton.empty.newState.1)
          (startEnumeration graphs) = some en := hrun
      rw [hinitial] at hloop
      cases hloop
      obtain ⟨_, _, t, _, ht, _⟩ := hw
      exact absurd ht List.not_mem_nil
  | cons root rest =>
      have hroot : root ∈ tgg.initial := hinitial ▸ List.mem_cons_self
      obtain ⟨_, _, _, ⟨trail, htraced⟩, _⟩ :=
        exists_traced_iteration env hfiltered hk hrun hroot
      obtain ⟨es, hes, hne, hpath⟩ := htraced.accepts hw
      rw [← hinitial]
      exact ⟨es, hes, hne hall, hpath⟩

/-- **Every bounded path that goes nowhere else is a word.** -/
theorem runPathcov_complete (hfiltered : flow.Filtered tgg) (hk : 1 ≤ k)
    {graphs : GraphTable F P ν} {fuel : Nat} (hrun : runPathcov flow fuel tgg k graphs = some en) :
    ∀ root ∈ tgg.initial, ∀ es, es ≠ [] → BoundedPath flow tgg k root es →
      NoContinuation flow tgg k (entered root es) (endNode root es) →
      ∃ w ∈ en.1.accepts, Spells env en.2 w es := by
  intro root hroot es hne hpath hstop
  obtain ⟨c, c', ⟨trail, htraced⟩, _, hc', hafter⟩ :=
    exists_traced_iteration env hfiltered hk hrun hroot
  have haccepts : ∃ w ∈ future c'.1.delta epsilon (· ∈ c'.1.finals)
      TraceAutomaton.empty.newState.1, Spells env c'.2 w es :=
    runFrom_accepts hk hfiltered htraced.live hne hpath hstop hc'
  obtain ⟨w, hw, hspells⟩ := haccepts
  refine ⟨w, runPathcov_accepts hrun ?_, Spells.grows hspells hafter⟩
  exact future_mono (fun _ _ _ h => hafter.trans _ h) (fun t ht => hafter.finals t ht) _ hw

/-- **The words of `PATHS(f, k)`** are the bounded paths as long as every
initial node lets the enumeration take all of its edges or none. -/
theorem pathcov_words_iff (hfiltered : flow.Filtered tgg) (hk : 1 ≤ k) {graphs : GraphTable F P ν}
    {fuel : Nat} (hrun : runPathcov flow fuel tgg k graphs = some en) :
    ((∀ w ∈ en.1.accepts, ∃ es, Spells env en.2 w es ∧ es ≠ [] ∧
        ∃ root ∈ tgg.initial, BoundedPath flow tgg k root es) ∧
      ∀ root ∈ tgg.initial, ∀ es, es ≠ [] → BoundedPath flow tgg k root es →
        NoContinuation flow tgg k (entered root es) (endNode root es) →
        ∃ w ∈ en.1.accepts, Spells env en.2 w es) ↔ AllOrNone flow tgg k := by
  constructor
  · intro ⟨hsound, _⟩ root hroot ⟨hmay, hblocked⟩
    obtain ⟨c, c', ⟨trail, htraced⟩, _, hc', hafter⟩ :=
      exists_traced_iteration env hfiltered hk hrun hroot
    obtain ⟨s, hs, hin⟩ := exists_silent_final hk hroot (hfiltered.initial root hroot) htraced
      hmay hblocked hc'
    have hempty : [] ∈ en.1.accepts := runPathcov_accepts hrun
      ⟨s, [epsilon], hafter.finals s hs, .cons (hafter.trans _ hin) (.nil s), rfl⟩
    obtain ⟨es, hes, hne, _⟩ := hsound [] hempty
    exact hne (List.forall₂_nil_left_iff.mp hes)
  · intro hall
    exact ⟨runPathcov_sound hfiltered hk hrun hall, runPathcov_complete hfiltered hk hrun⟩

end Complete

/-! ## Two initial nodes -/

/-- One step, and then the end. -/
def oneStep : FlowGraph Nat where
  successors := fun n => if n = 0 then [1] else []
  ignored := fun _ => false

def oneEdge : TargetGraph Nat := ⟨[], [(0, 1)], [0]⟩

def oneStepWords : Enumeration (Option Bool) Empty Nat :=
  pathcovAutomaton oneStep 2 oneEdge 1 ⟨TargetGraphIndex.empty, []⟩

theorem pathcov_words_iff_oneStep :
    oneStep.Filtered oneEdge ∧ (1 : Int) ≤ 1 ∧
    runPathcov oneStep 2 oneEdge 1 ⟨TargetGraphIndex.empty, []⟩ = some oneStepWords ∧
    (((∀ w ∈ oneStepWords.1.accepts, ∃ es, Spells twoEdges oneStepWords.2 w es ∧ es ≠ [] ∧
        ∃ root ∈ oneEdge.initial, BoundedPath oneStep oneEdge 1 root es) ∧
      ∀ root ∈ oneEdge.initial, ∀ es, es ≠ [] → BoundedPath oneStep oneEdge 1 root es →
        NoContinuation oneStep oneEdge 1 (entered root es) (endNode root es) →
        ∃ w ∈ oneStepWords.1.accepts, Spells twoEdges oneStepWords.2 w es) ↔
      AllOrNone oneStep oneEdge 1) :=
  have hfiltered : oneStep.Filtered oneEdge := ⟨by decide, by decide⟩
  have hrun : runPathcov oneStep 2 oneEdge 1 ⟨TargetGraphIndex.empty, []⟩ = some oneStepWords := rfl
  ⟨hfiltered, by decide, hrun, pathcov_words_iff hfiltered (by decide) hrun⟩

/-- `main() { L: if(c) goto L; }`. -/
def loopMain : GotoFunction where
  bodyAvailable := true
  isInlined := false
  body := [{ plainInstruction 0 .goto [0] with guard := .condition 0 },
    plainInstruction 1 .endFunction []]
  pcs_nodup := by decide

def loopProgram : GotoFunctions := ⟨[("main", loopMain)], List.nodup_singleton _⟩

/-- The graph of `ID`. -/
def loopGraph : TargetGraph Location where
  disconnectedNodes := []
  edges := [(locationOf "main" 0, locationOf "main" 0), (locationOf "main" 0, locationOf "main" 1)]
  initial := [locationOf "main" 0]

example : (filterFunctionGraph "main" (CfgEntries.empty.computeEdges loopProgram)
    loopProgram .fIdentity).map Cfa.toTargetGraph = .ok loopGraph := by
  decide +kernel

/-- What filters are evaluated with. -/
def loopEnv : PathPatternEnv FilterExpr Unit Location :=
  pathPatternEnv ⟨"main", CfgEntries.empty.computeEdges loopProgram, fun _ _ _ => .error ""⟩
    ⟨loopProgram, fun _ => none, fun _ => none⟩ 0

/-- **`PATHS(ID,1)` accepts the empty path** where the program starts with a
branch to itself. -/
theorem pathcov_accepts_empty :
    ¬ ∀ (gf : GotoFunctions) (tgg : TargetGraph Location) (k : Int)
      (env : PathPatternEnv FilterExpr Unit Location) (graphs : GraphTable FilterExpr Unit Location)
      (fuel : Nat) (en : Enumeration FilterExpr Unit Location),
      (programFlow gf gf).Filtered tgg → 1 ≤ k →
      runPathcov (programFlow gf gf) fuel tgg k graphs = some en →
      (∀ w ∈ en.1.accepts, ∃ es, Spells env en.2 w es ∧ es ≠ [] ∧
        ∃ root ∈ tgg.initial, BoundedPath (programFlow gf gf) tgg k root es) ∧
      ∀ root ∈ tgg.initial, ∀ es, es ≠ [] → BoundedPath (programFlow gf gf) tgg k root es →
        NoContinuation (programFlow gf gf) tgg k (entered root es) (endNode root es) →
        ∃ w ∈ en.1.accepts, Spells env en.2 w es := by
  intro h
  have hfiltered : (programFlow loopProgram loopProgram).Filtered loopGraph :=
    ⟨by decide +kernel, by decide +kernel⟩
  have hfound : ((runPathcov (programFlow loopProgram loopProgram) 3 loopGraph 1
      (⟨TargetGraphIndex.empty, []⟩ : GraphTable FilterExpr Unit Location)).any fun en =>
        en.1.initial = [1] ∧ (1, epsilon, 4) ∈ en.1.trans ∧ 4 ∈ en.1.finals) = true := by
    decide +kernel
  obtain ⟨en, hrun, hen⟩ := (Option.any_eq_true _ _).mp hfound
  obtain ⟨hinitial, htrans, hfinal⟩ := of_decide_eq_true hen
  have hempty : [] ∈ en.1.accepts :=
    ⟨1, by rw [hinitial]; exact List.mem_cons_self, 4, [epsilon], hfinal,
      .cons htrans (.nil 4), rfl⟩
  obtain ⟨es, hes, hne, _⟩ := (h loopProgram loopGraph 1 loopEnv _ 3 en hfiltered (by decide)
    hrun).1 [] hempty
  exact hne (List.forall₂_nil_left_iff.mp hes)

end FShell
