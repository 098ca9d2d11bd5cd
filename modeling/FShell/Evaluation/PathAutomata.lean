import FShell.Concepts.SimplifyShape
import FShell.Evaluation.EnumerationPaths
import FShell.Evaluation.FilteredGraphs

/-!
# The end states of path automata

The consumers of a path automaton read its first initial state.  Every
automaton that is stored has exactly one initial and some final state as long
as no pattern of the query is one of two kinds (`Local`): a repetition without
any copy, such as `p==0`, and a path enumeration that can take no edge from
any of its initial nodes.
-/

open scoped Computability

namespace FShell

open Relation TraceAutomaton LabelledGraph

/-- One initial state, and a word that is accepted. -/
structure TraceAutomaton.Runnable (aut : TraceAutomaton) : Prop where
  initial : ∃! s, s ∈ aut.initial
  word : ∃ w, w ∈ aut.accepts

/-- A runnable automaton has a final state. -/
theorem TraceAutomaton.Runnable.final {aut : TraceAutomaton} (h : aut.Runnable) :
    ∃ s, s ∈ aut.finals := by
  obtain ⟨w, hw⟩ := h.word
  exact (exists_initial_final hw).2

/-! ## The constructions -/

section Constructions

variable {a b sub : TraceAutomaton}

/-- The image of one state is one state. -/
theorem existsUnique_image {I J : List TaState} {f : TaState → TaState}
    (hJ : ∀ q, q ∈ J ↔ ∃ s ∈ I, f s = q) (hI : ∃! s, s ∈ I) : ∃! q, q ∈ J := by
  obtain ⟨s, hs, hall⟩ := hI
  refine ⟨f s, (hJ _).mpr ⟨s, hs, rfl⟩, ?_⟩
  intro q hq
  obtain ⟨t, ht, rfl⟩ := (hJ q).mp hq
  rw [hall t ht]

/-- A copy of one initial state has one. -/
theorem copyAutomaton_initial_unique (dest : TraceAutomaton) (h : ∃! s, s ∈ a.initial) :
    ∃! q, q ∈ (copyAutomaton a dest).1.1 := by
  obtain ⟨f, hf⟩ := exists_isCopy a dest
  exact existsUnique_image hf.init h

/-- The automaton of an atom can be run. -/
theorem atomAutomaton_runnable {label : Int} (h : label ≠ epsilon) :
    (atomAutomaton TraceAutomaton.empty label).Runnable where
  initial := ⟨1, List.mem_singleton_self 1, fun _ hq => List.mem_singleton.mp hq⟩
  word := by
    have hwords : (atomAutomaton TraceAutomaton.empty label).accepts = {[label]} :=
      congrArg Ends.through (atomAutomaton_ends h)
    rw [hwords]
    exact ⟨[label], rfl⟩

/-- Alternatives can be run. -/
theorem ppAlternativeAutomaton_runnable (ha : a.Runnable) :
    (ppAlternativeAutomaton a b TraceAutomaton.empty).Runnable where
  initial := ⟨_, (mem_ppAlternativeAutomaton_initial a b).mpr rfl,
    fun _ hq => (mem_ppAlternativeAutomaton_initial a b).mp hq⟩
  word := by
    have hwords : (ppAlternativeAutomaton a b TraceAutomaton.empty).accepts =
        a.accepts + b.accepts := congrArg Ends.through (ppAlternativeAutomaton_ends a b)
    obtain ⟨w, hw⟩ := ha.word
    rw [hwords]
    exact ⟨w, Or.inl hw⟩

/-- Concatenations can be run. -/
theorem ppConcatAutomaton_runnable (ha : a.Runnable) (hb : b.Runnable) :
    (ppConcatAutomaton a b TraceAutomaton.empty).Runnable where
  initial := by
    obtain ⟨q, hq, hall⟩ := copyAutomaton_initial_unique TraceAutomaton.empty ha.initial
    exact ⟨q, (mem_ppConcatAutomaton_initial a b).mpr hq,
      fun t ht => hall t ((mem_ppConcatAutomaton_initial a b).mp ht)⟩
  word := by
    have hwords : (ppConcatAutomaton a b TraceAutomaton.empty).accepts = a.accepts * b.accepts :=
      congrArg Ends.through (ppConcatAutomaton_ends a b)
    obtain ⟨u, hu⟩ := ha.word
    obtain ⟨v, hv⟩ := hb.word
    rw [hwords]
    exact ⟨u ++ v, u, hu, v, hv, rfl⟩

/-! ### Repetitions -/

/-- The copies that are there so far have words. -/
def Copies (c : RepeatState) : Prop :=
  ∃ row, RepeatInv c row ∧ ∀ e ∈ row, ∃ w, w ∈ e.through

/-- The loop starts with no copy. -/
theorem Copies.start : Copies ⟨TraceAutomaton.empty, [], []⟩ :=
  ⟨[], RepeatInv.start, fun _ h => absurd h List.not_mem_nil⟩

/-- Glued ends lose no word. -/
theorem Shortcut.exists_glued (shortcut : Shortcut) {e : Ends Int} (h : ∃ w, w ∈ e.through) :
    ∃ w, w ∈ (shortcut.glued e).through := by
  obtain ⟨w, hw⟩ := h
  refine ⟨w, ?_⟩
  cases shortcut with
  | none => exact hw
  | forward => exact Ends.through_le_glue hw
  | both => exact Or.inl (Ends.through_le_glue hw)

/-- **One copy more.** -/
theorem Copies.append (hsub : sub.Runnable) {c : RepeatState} (h : Copies c) (shortcut : Shortcut) :
    Copies (appendCopy sub shortcut c) ∧ (appendCopy sub shortcut c).initial ≠ [] := by
  obtain ⟨row, hrow, hwords⟩ := h
  obtain ⟨s, hs, _⟩ := hsub.initial
  have happend := hrow.append ⟨s, hs⟩ shortcut
  refine ⟨⟨_, happend, ?_⟩, ?_⟩
  · intro e he
    rcases List.mem_append.mp he with he | he
    · exact hwords e he
    · rw [List.mem_singleton.mp he]
      exact shortcut.exists_glued hsub.word
  · intro hnil
    have hrow := happend.started.mp hnil
    exact List.cons_ne_nil _ _ (List.append_eq_nil_iff.mp hrow).2

/-- The loop of the lower bound. -/
theorem Copies.lower (hsub : sub.Runnable) (n : Nat) : ∀ (ub : Int) (c : RepeatState), Copies c →
    Copies (repeatLower sub n ub c).2 ∧
      (n ≠ 0 ∨ c.initial ≠ [] → (repeatLower sub n ub c).2.initial ≠ []) := by
  induction n with
  | zero => exact fun _ _ h => ⟨h, fun hc => hc.resolve_left fun hn => hn rfl⟩
  | succ n ih =>
      intro ub c h
      obtain ⟨happend, hne⟩ := h.append hsub .none
      obtain ⟨hrest, hrest'⟩ := ih (if ub ≠ -1 then ub - 1 else ub) _ happend
      exact ⟨hrest, fun _ => hrest' (Or.inr hne)⟩

/-- The loop of the upper bound. -/
theorem Copies.upper (hsub : sub.Runnable) (n : Nat) : ∀ c : RepeatState, Copies c →
    Copies (repeatUpper sub n c) ∧
      (n ≠ 0 ∨ c.initial ≠ [] → (repeatUpper sub n c).initial ≠ []) := by
  induction n with
  | zero => exact fun _ h => ⟨h, fun hc => hc.resolve_left fun hn => hn rfl⟩
  | succ n ih =>
      intro c h
      obtain ⟨happend, hne⟩ := h.append hsub .forward
      obtain ⟨hrest, hrest'⟩ := ih _ happend
      exact ⟨hrest, fun _ => hrest' (Or.inr hne)⟩

/-- A nonempty row of fragments with words has a word. -/
theorem exists_rowEnds {row : List (Ends Int)} (hne : row ≠ [])
    (hwords : ∀ e ∈ row, ∃ w, w ∈ e.through) : ∃ w, w ∈ (rowEnds row).through := by
  obtain ⟨e, es, rfl⟩ := List.exists_cons_of_ne_nil hne
  have hprod : ∀ es : List (Ends Int), (∀ e ∈ es, ∃ w, w ∈ e.through) →
      ∃ w, w ∈ (es.map Ends.through).prod := by
    intro es
    induction es with
    | nil => exact fun _ => ⟨[], rfl⟩
    | cons e es ih =>
        intro h
        obtain ⟨u, hu⟩ := h e List.mem_cons_self
        obtain ⟨v, hv⟩ := ih fun d hd => h d (List.mem_cons_of_mem _ hd)
        exact ⟨u ++ v, u, hu, v, hv, rfl⟩
  obtain ⟨u, hu⟩ := hwords e List.mem_cons_self
  obtain ⟨v, hv⟩ := hprod es fun d hd => hwords d (List.mem_cons_of_mem _ hd)
  rw [rowEnds, Ends.chain_through]
  exact ⟨u ++ v, u, hu, v, hv, rfl⟩

/-- **A repetition with some copy.** -/
theorem repeatAutomaton_runnable (hsub : sub.Runnable) {lower upper : Int}
    (hsome : 0 < lower ∨ 0 < upper ∨ upper = -1) :
    (repeatAutomaton sub lower upper TraceAutomaton.empty).Runnable := by
  obtain ⟨hlower, hlower'⟩ := Copies.start.lower hsub lower.toNat upper
  have hcopies : Copies (repeatState sub lower upper) ∧
      (repeatState sub lower upper).initial ≠ [] := by
    unfold repeatState
    dsimp only
    split
    case isTrue => exact hlower.append hsub .both
    case isFalse hinf =>
      obtain ⟨hupper, hupper'⟩ := hlower.upper hsub
        (repeatLower sub lower.toNat upper ⟨TraceAutomaton.empty, [], []⟩).1.toNat
      refine ⟨hupper, hupper' ?_⟩
      by_cases hl : lower.toNat = 0
      · refine Or.inl ?_
        rw [hl] at hinf ⊢
        simp only [repeatLower] at hinf ⊢
        omega
      · exact Or.inr (hlower' (Or.inl hl))
  obtain ⟨⟨row, hrow, hwords⟩, hne⟩ := hcopies
  obtain ⟨hclosed, hends⟩ := hrow.close
  constructor
  · obtain ⟨dest, hdest⟩ := (repeatState_initial sub lower upper).resolve_left hne
    obtain ⟨s, hs, hall⟩ := copyAutomaton_initial_unique dest hsub.initial
    rw [← hdest] at hs hall
    exact ⟨s, (hclosed s).mpr hs, fun t ht => hall t ((hclosed t).mp ht)⟩
  · have hthrough : (repeatAutomaton sub lower upper TraceAutomaton.empty).accepts =
        (rowEnds row).through := congrArg Ends.through hends
    rw [hthrough]
    exact exists_rowEnds (fun hrow' => hne (hrow.started.mpr hrow')) hwords

/-- **A repetition without copies** has no state at all. -/
theorem repeatAutomaton_no_copy {lower upper : Int}
    (hnone : ¬ (0 < lower ∨ 0 < upper ∨ upper = -1)) :
    (repeatAutomaton sub lower upper TraceAutomaton.empty).initial = [] := by
  obtain ⟨hlower, hupper⟩ : lower.toNat = 0 ∧ upper.toNat = 0 := by omega
  have hinf : upper ≠ -1 := by omega
  simp [repeatAutomaton, hlower, hupper, repeatLower, repeatUpper, hinf, swapInitial]

/-- A simplified automaton can be run. -/
theorem TraceAutomaton.Runnable.simplify (h : a.Runnable) :
    (a.simplifyAutomaton true).Runnable where
  initial := by
    obtain ⟨f, hf⟩ := a.exists_simplified_initial
    exact existsUnique_image hf h.initial
  word := by
    rw [simplifyAutomaton_accepts]
    exact h.word

/-- Without initial states there are none afterwards. -/
theorem simplifyAutomaton_initial_nil (h : a.initial = []) :
    (a.simplifyAutomaton true).initial = [] := by
  obtain ⟨f, hf⟩ := a.exists_simplified_initial
  refine List.eq_nil_iff_forall_not_mem.mpr fun q hq => ?_
  obtain ⟨s, hs, -⟩ := (hf q).mp hq
  rw [h] at hs
  exact List.not_mem_nil hs

end Constructions

/-! ## Path enumerations -/

section Enumerations

variable {F P ν : Type} [DecidableEq F] [DecidableEq P] [DecidableEq ν]
  {flow : FlowGraph ν} {tgg : TargetGraph ν} {bound : Int}

/-- From `root` the enumeration can take an edge, with these counts. -/
def FlowGraph.Enterable (flow : FlowGraph ν) (tgg : TargetGraph ν) (bound : Int)
    (nc : NodeCounts ν) (root : ν) : Prop :=
  ∃ a b, flow.Skips root a ∧ flow.ignored a = false ∧ b ∈ flow.successors a ∧
    (a, b) ∈ tgg.edges ∧ nc b ≠ some bound

/-- From the initial node `root` the enumeration can take an edge: with the
bound one, only an edge that does not lead back to `root`. -/
def FlowGraph.CanLeave (flow : FlowGraph ν) (tgg : TargetGraph ν) (bound : Int) (root : ν) :
    Prop :=
  ∃ a b, flow.Skips root a ∧ flow.ignored a = false ∧ b ∈ flow.successors a ∧
    (a, b) ∈ tgg.edges ∧ ¬ (b = root ∧ bound = 1)

variable {nc : NodeCounts ν} {root : ν} {fuel : Nat} {state : TaState}
  {en en' : Enumeration F P ν}

/-- A node can be left when something behind it can be entered. -/
theorem canLeave_iff : flow.CanLeave tgg bound root ↔
    flow.Enterable tgg bound (NodeCounts.start root) root := by
  have hcount : ∀ b, ¬ (b = root ∧ bound = 1) ↔ NodeCounts.start root b ≠ some bound := by
    intro b
    unfold NodeCounts.start
    by_cases hb : b = root
    · rw [hb, Function.update_self, ne_eq, Option.some.injEq, and_iff_right rfl]
      exact not_congr eq_comm
    · rw [Function.update_of_ne hb]
      exact ⟨fun _ => nofun, fun _ h => hb h.1⟩
  unfold FlowGraph.CanLeave FlowGraph.Enterable
  simp only [hcount]

omit [DecidableEq ν] in
/-- An ignored node is passed. -/
theorem enterable_ignored (hignored : flow.ignored root = true) :
    flow.Enterable tgg bound nc root ↔ ∃ s ∈ flow.successors root, flow.Enterable tgg bound nc s := by
  constructor
  · intro ⟨a, b, hskips, ha, hrest⟩
    rcases hskips.cases_head with rfl | ⟨s, ⟨_, hs⟩, hskips⟩
    · rw [hignored] at ha
      cases ha
    · exact ⟨s, hs, a, b, hskips, ha, hrest⟩
  · intro ⟨s, hs, a, b, hskips, hrest⟩
    exact ⟨a, b, .head ⟨hignored, hs⟩ hskips, hrest⟩

omit [DecidableEq ν] in
/-- Other nodes are left by an edge. -/
theorem enterable_not_ignored (hignored : flow.ignored root = false) :
    flow.Enterable tgg bound nc root ↔
      ∃ s ∈ flow.successors root, (root, s) ∈ tgg.edges ∧ nc s ≠ some bound := by
  constructor
  · intro ⟨a, b, hskips, _, hb, hedge, hne⟩
    rcases hskips.cases_head with rfl | ⟨s, ⟨hyes, _⟩, _⟩
    · exact ⟨b, hb, hedge, hne⟩
    · rw [hignored] at hyes
      cases hyes
  · intro ⟨s, hs, hedge, hne⟩
    exact ⟨root, s, .refl, hignored, hs, hedge, hne⟩

/-- Where no edge can be taken, the state itself is the end. -/
theorem runDfsBuild_blocked (hrun : runDfsBuild flow tgg bound fuel state root nc en = some en')
    (hstate : state ∈ en.1.states) (hout : en.1.delta2 state = [])
    (hblocked : ¬ flow.Enterable tgg bound nc root) :
    en'.1.delta2 state = [] ∧ state ∈ en'.1.finals ∧
      ∀ t ∈ en'.1.finals, t ∈ en.1.finals ∨ t = state := by
  induction fuel generalizing root en en' with
  | zero => cases hrun
  | succ fuel ih =>
      obtain ⟨q, hq, rfl⟩ := Option.map_eq_some_iff.mp hrun
      have hloop : state ∈ q.1.1.states ∧ q.1.1.delta2 state = [] ∧
          ∀ t ∈ q.1.1.finals, t ∈ en.1.finals ∨ t = state := by
        refine foldlM_induction (fun q : Enumeration F P ν × Bool => state ∈ q.1.1.states ∧
          q.1.1.delta2 state = [] ∧ ∀ t ∈ q.1.1.finals, t ∈ en.1.finals ∨ t = state)
          ⟨hstate, hout, fun _ => Or.inl⟩ ?_ hq
        intro c s hs c' hc hstep
        obtain ⟨hlive, hout, hfinals⟩ := hc
        rcases loopBody_cases hstep with ⟨hignored, e, he, rfl⟩ | ⟨_, _, rfl⟩ |
          ⟨hignored, hne, hedge, _⟩
        · have hnot : ¬ flow.Enterable tgg bound nc s :=
            fun hyes => hblocked ((enterable_ignored hignored).mpr ⟨s, hs, hyes⟩)
          obtain ⟨hout', _, hfinals'⟩ := ih he hlive hout hnot
          refine ⟨(runDfsBuild_grows _ _ _ _ _ he).states state hlive, hout', ?_⟩
          intro t ht
          rcases hfinals' t ht with hold | heq
          · exact hfinals t hold
          · exact Or.inr heq
        · exact ⟨hlive, hout, hfinals⟩
        · exact absurd ((enterable_not_ignored (Bool.not_eq_true _ ▸ hignored)).mpr
            ⟨s, hs, hedge, hne⟩) hblocked
      obtain ⟨hlive, hout, hfinals⟩ := hloop
      obtain ⟨hout', hfinal⟩ := finish_stop hlive hout q.2
      refine ⟨hout', hfinal, ?_⟩
      intro t ht
      rcases q.1.finish_cases state q.2 with ⟨_, heq⟩ | ⟨hne, _⟩ | ⟨hne, _⟩
      · rw [heq] at ht
        rcases (mem_setFinal _).mp ht with hold | ⟨rfl, _⟩
        · exact hfinals t hold
        · exact Or.inr rfl
      · exact absurd hout hne
      · exact absurd hout hne

omit [DecidableEq ν] in
/-- The new state of an added edge has no way out yet. -/
theorem delta2_addEdge {e : ν × ν} (hstate : state ∈ en.1.states) :
    (en.addEdge state e).2.1.delta2 en.1.slots = [] := by
  refine List.eq_nil_iff_forall_not_mem.mpr fun o ho => ?_
  rcases (Enumeration.mem_addEdge hstate).mp ((mem_delta2 _).mp ho) with hold | hnew
  · exact en.1.slots_not_mem (en.1.trans_live _ hold).1
  · have heq : en.1.slots = state := congrArg Prod.fst hnew
    exact en.1.slots_not_mem (heq ▸ hstate)

/-- **Where an edge can be taken, some new state accepts.** -/
theorem runDfsBuild_enterable : ∀ (fuel : Nat) (state : TaState) (root : ν) (nc : NodeCounts ν)
    (en en' : Enumeration F P ν), runDfsBuild flow tgg bound fuel state root nc en = some en' →
    state ∈ en.1.states → flow.Enterable tgg bound nc root →
    ∃ t ∈ en'.1.finals, t ∉ en.1.states ∧ ∃ u, Walk en'.1.delta state u t := by
  intro fuel
  induction fuel with
  | zero => exact fun _ _ _ _ _ hrun => nomatch hrun
  | succ fuel ih =>
      intro state root nc en en' hrun hstate henter
      obtain ⟨q, hq, rfl⟩ := Option.map_eq_some_iff.mp hrun
      have hfinish : q.1.Grows (q.1.finish state q.2) := Enumeration.grows_finish q.2
      -- the iteration of a successor, with what grows before and after it
      have hiteration : ∀ s ∈ flow.successors root, ∃ c c' : Enumeration F P ν × Bool,
          en.Grows c.1 ∧ loopBody flow tgg bound (runDfsBuild flow tgg bound fuel) state root nc c s
            = some c' ∧ c'.1.Grows (q.1.finish state q.2) := by
        intro s hs
        obtain ⟨c, c', hbefore, hstep, hafter⟩ := exists_iteration
          (fun c c' : Enumeration F P ν × Bool => c.1.Grows c'.1) (fun c => .refl c.1)
          (fun _ _ _ h h' => h.next h') (fun _ _ _ _ h => loopBody_grows runDfsBuild_grows h) hq hs
        exact ⟨c, c', hbefore, hstep, hafter.next hfinish⟩
      by_cases hignored : flow.ignored root = true
      · obtain ⟨s, hs, henter⟩ := (enterable_ignored hignored).mp henter
        obtain ⟨c, c', hbefore, hstep, hafter⟩ := hiteration s hs
        rcases loopBody_cases hstep with ⟨_, e, he, rfl⟩ | ⟨hnot, _⟩ | ⟨hnot, _⟩
        · obtain ⟨t, ht, hnew, u, hwalk⟩ :=
            ih state s nc c.1 e he (hbefore.states state hstate) henter
          exact ⟨t, hafter.finals t ht, fun hold => hnew (hbefore.states t hold), u,
            hwalk.mono fun _ _ _ hedge => hafter.trans _ hedge⟩
        · exact absurd hignored hnot
        · exact absurd hignored hnot
      · obtain ⟨s, hs, hedge, hne⟩ :=
          (enterable_not_ignored (Bool.not_eq_true _ ▸ hignored)).mp henter
        obtain ⟨c, c', hbefore, hstep, hafter⟩ := hiteration s hs
        rcases loopBody_cases hstep with ⟨hyes, _⟩ | ⟨_, hblocked, _⟩ | ⟨_, _, _, e, he, rfl⟩
        · exact absurd hyes hignored
        · exact absurd hblocked (not_or.mpr ⟨hne, not_not.mpr hedge⟩)
        · have hlive := hbefore.states state hstate
          have hslot : (c.1.addEdge state (root, s)).1 ∈ (c.1.addEdge state (root, s)).2.1.states := by
            simp
          have hfresh : ∀ t, t = c.1.1.slots ∨ t ∉ (c.1.addEdge state (root, s)).2.1.states →
              t ∉ en.1.states := by
            intro t ht hold
            have hold := hbefore.states t hold
            rcases ht with rfl | ht
            · exact c.1.1.slots_not_mem hold
            · exact ht (Enumeration.grows_addEdge.states t hold)
          have hin : (state, c.1.newLabel (root, s), c.1.1.slots) ∈ e.1.trans :=
            (runDfsBuild_grows _ _ _ _ _ he).trans _
              ((Enumeration.mem_addEdge hlive).mpr (Or.inr rfl))
          -- the new state accepts, or a state behind it does
          have hend : ∃ t ∈ e.1.finals, (t = c.1.1.slots ∨
              t ∉ (c.1.addEdge state (root, s)).2.1.states) ∧ ∃ u, Walk e.1.delta c.1.1.slots u t := by
            by_cases hgo : flow.Enterable tgg bound (nc.enter s) s
            · obtain ⟨t, ht, hnew, hwalk⟩ := ih _ _ _ _ _ he hslot hgo
              exact ⟨t, ht, Or.inr hnew, hwalk⟩
            · obtain ⟨_, hfinal, _⟩ := runDfsBuild_blocked he hslot (delta2_addEdge hlive) hgo
              exact ⟨_, hfinal, Or.inl rfl, [], .nil _⟩
          obtain ⟨t, ht, hnew, u, hwalk⟩ := hend
          exact ⟨t, hafter.finals t ht, hfresh t hnew, c.1.newLabel (root, s) :: u,
            .cons (hafter.trans _ hin) (hwalk.mono fun _ _ _ hedge => hafter.trans _ hedge)⟩

/-- One initial node from which no edge can be taken adds no end. -/
theorem runFrom_blocked {init : TaState} (hinit : init ∈ en.1.states)
    (hrun : runFrom flow fuel tgg bound init en root = some en')
    (hblocked : ¬ flow.CanLeave tgg bound root) (hfinals : en.1.finals = []) :
    en'.1.finals = [] := by
  obtain ⟨e, he, rfl⟩ := Option.map_eq_some_iff.mp hrun
  rw [canLeave_iff] at hblocked
  obtain ⟨_, _, hends⟩ := runDfsBuild_blocked he
    slots_mem_enterInitial (delta2_enterInitial hinit) hblocked
  refine List.eq_nil_iff_forall_not_mem.mpr fun t ht => ?_
  obtain ⟨ht, hne⟩ := (mem_clearFinal _).mp ht
  rcases hends t ht with hold | heq
  · have hold : t ∈ en.1.finals := by simpa [enterInitial] using hold
    rw [hfinals] at hold
    exact List.not_mem_nil hold
  · exact hne heq

/-- **An enumeration** has its one initial state; it accepts some word or,
where no edge can be taken, has no final state. -/
theorem runPathcov_ends {graphs : GraphTable F P ν}
    (hrun : runPathcov flow fuel tgg bound graphs = some en) :
    (∃! s, s ∈ en.1.initial) ∧
      ((∃ root ∈ tgg.initial, flow.CanLeave tgg bound root) → ∃ w, w ∈ en.1.accepts) ∧
      ((¬ ∃ root ∈ tgg.initial, flow.CanLeave tgg bound root) → en.1.finals = []) := by
  have hloop : tgg.initial.foldlM (runFrom flow fuel tgg bound TraceAutomaton.empty.newState.1)
      (startEnumeration graphs) = some en := hrun
  have hgrows : (startEnumeration graphs).Grows en :=
    foldlM_induction (fun c : Enumeration F P ν => (startEnumeration graphs).Grows c) (.refl _)
      (fun c _ _ c' hc hc' => hc.next (runFrom_grows hc')) hloop
  have hinitial : en.1.initial = [TraceAutomaton.empty.newState.1] := hgrows.initial
  refine ⟨?_, ?_, ?_⟩
  · rw [hinitial]
    exact ⟨_, List.mem_singleton_self _, fun _ h => List.mem_singleton.mp h⟩
  · intro ⟨root, hroot, hleave⟩
    obtain ⟨c, c', hbefore, hc', hafter⟩ := exists_iteration
      (fun c c' : Enumeration F P ν => c.Grows c') (fun c => .refl c) (fun _ _ _ h h' => h.next h')
      (fun _ _ _ _ h => runFrom_grows h) hloop hroot
    have hlive : TraceAutomaton.empty.newState.1 ∈ c.1.states := hbefore.states _ List.mem_cons_self
    obtain ⟨e, he, rfl⟩ := Option.map_eq_some_iff.mp hc'
    obtain ⟨t, ht, hnew, u, hwalk⟩ := runDfsBuild_enterable fuel _ root _
      (enterInitial c TraceAutomaton.empty.newState.1) e he slots_mem_enterInitial
      (canLeave_iff.mp hleave)
    have hin : (TraceAutomaton.empty.newState.1, epsilon, c.1.slots) ∈ e.1.trans :=
      (runDfsBuild_grows _ _ _ _ _ he).trans _ ((mem_enterInitial hlive).mpr (Or.inr rfl))
    have hfinal : t ∈ (e.1.clearFinal c.1.slots).finals := by
      refine (mem_clearFinal _).mpr ⟨ht, ?_⟩
      exact fun heq => hnew (heq ▸ slots_mem_enterInitial)
    refine ⟨erase epsilon (epsilon :: u), TraceAutomaton.empty.newState.1, ?_, t, epsilon :: u,
      hafter.finals t hfinal, ?_, rfl⟩
    · rw [hinitial]
      exact List.mem_singleton_self _
    · exact .cons (hafter.trans _ hin) (hwalk.mono fun _ _ _ hedge => hafter.trans _ hedge)
  · intro hnone
    have hempty : TraceAutomaton.empty.newState.1 ∈ en.1.states ∧ en.1.finals = [] := by
      refine foldlM_induction (fun c : Enumeration F P ν =>
        TraceAutomaton.empty.newState.1 ∈ c.1.states ∧ c.1.finals = [])
        ⟨List.mem_cons_self, rfl⟩ ?_ hloop
      intro c root hroot c' hc hc'
      refine ⟨(runFrom_grows hc').states _ hc.1, ?_⟩
      exact runFrom_blocked hc.1 hc' (fun hleave => hnone ⟨root, hroot, hleave⟩) hc.2
    exact hempty.2

end Enumerations

/-! ## The patterns of a query -/

section Patterns

variable {F P ν : Type} [DecidableEq ν] {flow : FlowGraph ν} {graph : F → TargetGraph ν}

/-- The two kinds of patterns whose automata lack an end state: repetitions
without copies, and enumerations that can take no edge. -/
def PathPattern.HasEnds (flow : FlowGraph ν) (graph : F → TargetGraph ν) : PathPattern F P → Prop
  | .atom (.pathcov f k) => ∃ root ∈ (graph f).initial, flow.CanLeave (graph f) k root
  | .atom _ => True
  | .ppAlternative _ _ => True
  | .ppConcat _ _ => True
  | .repetition _ lower upper => 0 < lower ∨ 0 < upper ∨ upper = -1

variable [DecidableEq F] [DecidableEq P]

/-- The path enumeration of the pattern, if it is one, returns. -/
def PathPattern.Returns (flow : FlowGraph ν) (fuel : Nat) (graph : F → TargetGraph ν) :
    PathPattern F P → Prop
  | .atom (.pathcov f k) =>
      ∀ graphs : GraphTable F P ν, (runPathcov flow fuel (graph f) k graphs).isSome
  | _ => True

/-- What an automaton that is stored for `n` is like. -/
structure Ending (flow : FlowGraph ν) (fuel : Nat) (graph : F → TargetGraph ν)
    (n : PathPattern F P) (aut : TraceAutomaton) : Prop where
  runnable : (∀ m ∈ n.subpatterns, m.Returns flow fuel graph ∧ m.HasEnds flow graph) →
    aut.Runnable
  lacking : n.Returns flow fuel graph → ¬ n.HasEnds flow graph →
    aut.initial = [] ∨ aut.finals = []

/-- **Every construction keeps it.** -/
theorem rules_ending {env : PathPatternEnv F P ν} {fuel : Nat}
    (hpathcov : ∀ f k graphs,
      env.pathcov f k graphs = pathcovAutomaton flow fuel (graph f) k graphs) :
    Rules env (Ending flow fuel graph) where
  label := by
    intro a label ha hlabel
    refine ⟨fun _ => atomAutomaton_runnable hlabel, fun _ hnot => absurd ?_ hnot⟩
    cases a with
    | pathcov f k => exact ha.elim
    | edgecov f => trivial
    | nodecov f => trivial
    | predicate p => trivial
  pathcov := by
    intro f k graphs
    have hrun : (PathPattern.atom (.pathcov f k) : PathPattern F P).Returns flow fuel graph →
        ∃ en : Enumeration F P ν, runPathcov flow fuel (graph f) k graphs = some en ∧
          (env.pathcov f k graphs).1 = en.1 := by
      intro hreturns
      obtain ⟨en, hen⟩ := Option.isSome_iff_exists.mp (hreturns graphs)
      refine ⟨en, hen, ?_⟩
      rw [hpathcov, pathcovAutomaton_eq_of_run hen]
    constructor
    · intro hall
      obtain ⟨hreturns, hends⟩ := hall _ (PathPattern.mem_subpatterns_self _)
      obtain ⟨en, hen, heq⟩ := hrun hreturns
      obtain ⟨hinitial, hword, -⟩ := runPathcov_ends hen
      rw [heq]
      exact ⟨hinitial, hword hends⟩
    · intro hreturns hnot
      obtain ⟨en, hen, heq⟩ := hrun hreturns
      rw [heq]
      exact Or.inr ((runPathcov_ends hen).2.2 hnot)
  ppAlternative := by
    intro ppA ppB a b ha _
    refine ⟨fun hall => ?_, fun _ hnot => absurd trivial hnot⟩
    exact ppAlternativeAutomaton_runnable (ha.runnable fun m hm =>
      hall m (List.mem_cons_of_mem _ (List.mem_append_left _ hm)))
  ppConcat := by
    intro ppA ppB a b ha hb
    refine ⟨fun hall => ?_, fun _ hnot => absurd trivial hnot⟩
    refine ppConcatAutomaton_runnable (ha.runnable fun m hm => ?_) (hb.runnable fun m hm => ?_)
    · exact hall m (List.mem_cons_of_mem _ (List.mem_append_left _ hm))
    · exact hall m (List.mem_cons_of_mem _ (List.mem_append_right _ hm))
  repetition := by
    intro pp sub lower upper hsub
    constructor
    · intro hall
      have hends := (hall _ (PathPattern.mem_subpatterns_self _)).2
      exact repeatAutomaton_runnable
        (hsub.runnable fun m hm => hall m (List.mem_cons_of_mem _ hm)) hends
    · exact fun _ hnot => Or.inl (repeatAutomaton_no_copy hnot)
  simplify := by
    intro n aut haut
    refine ⟨fun hall => (haut.runnable hall).simplify, fun hreturns hnot => ?_⟩
    exact (haut.lacking hreturns hnot).imp simplifyAutomaton_initial_nil
      simplifyAutomaton_finals_nil

end Patterns

/-- **Initial and final states.**  Every stored automaton has one initial and
some final state if and only if every repetition of the query makes a copy
and every path enumeration can take an edge. -/
theorem pathAutomata_ends_iff {P : Type} [DecidableEq P] (env : FilterEnv P) (st : FilterState P)
    (query : Query FilterExpr P) (fuel : Nat)
    (hreturns : ∀ f k, query.HasAtom (.pathcov f k) → ∀ graphs : GraphTable FilterExpr P Location,
      (runPathcov (flowGraph env st) fuel (st.get f).toTargetGraph k graphs).isSome) :
    (∀ n aut, (evaluatePathPattern (pathPatternEnv env st fuel) query).ppMap n = some aut →
      (∃! s, s ∈ aut.initial) ∧ ∃ s, s ∈ aut.finals) ↔
    ∀ n, query.HasPattern n → n.HasEnds (flowGraph env st) fun f => (st.get f).toTargetGraph := by
  have hrules : Rules (pathPatternEnv env st fuel)
      (Ending (flowGraph env st) fuel fun f => (st.get f).toTargetGraph) :=
    rules_ending fun _ _ _ => rfl
  have hending : ∀ n aut, (evaluatePathPattern (pathPatternEnv env st fuel) query).ppMap n =
      some aut → Ending (flowGraph env st) fuel (fun f => (st.get f).toTargetGraph) n aut := by
    rw [evaluatePathPattern_eq]
    exact hrules.stored _
  have hreturns' : ∀ n, query.HasPattern n →
      n.Returns (flowGraph env st) fuel fun f => (st.get f).toTargetGraph := by
    intro n hn
    cases n with
    | atom a =>
        cases a with
        | pathcov f k => exact hreturns f k hn
        | edgecov f => trivial
        | nodecov f => trivial
        | predicate p => trivial
    | ppAlternative ppA ppB => trivial
    | ppConcat ppA ppB => trivial
    | repetition pp lower upper => trivial
  constructor
  · intro hall n hn
    obtain ⟨aut, haut⟩ := Option.ne_none_iff_exists'.mp 
      ((stored_iff (pathPatternEnv env st fuel) query n).mpr hn)
    obtain ⟨⟨s, hs, _⟩, t, ht⟩ := hall n aut haut
    by_contra hnot
    rcases (hending n aut haut).lacking (hreturns' n hn) hnot with hnil | hnil
    · rw [hnil] at hs
      exact List.not_mem_nil hs
    · rw [hnil] at ht
      exact List.not_mem_nil ht
  · intro hends n aut haut
    have hstored : (evaluatePathPattern (pathPatternEnv env st fuel) query).ppMap n ≠ none := by
      rw [haut]
      exact Option.some_ne_none aut
    have hn : query.HasPattern n := (stored_iff (pathPatternEnv env st fuel) query n).mp hstored
    have hrunnable : aut.Runnable := by
      refine (hending n aut haut).runnable fun m hm => ?_
      obtain ⟨pp, hpp, hsub⟩ := hn
      have hm : query.HasPattern m := ⟨pp, hpp, PathPattern.mem_subpatterns_trans hm hsub⟩
      exact ⟨hreturns' m hm, hends m hm⟩
    exact ⟨hrunnable.initial, hrunnable.final⟩

/-! ## Two queries -/

/-- `COVER EDGES(ID) PASSING PATHS(ID,1)`. -/
def pathsQuery : Query FilterExpr Unit where
  cover := .atom (.edgecov (.filterFunction .fIdentity))
  passing := .atom (.pathcov (.filterFunction .fIdentity) 1)

def pathsState : FilterState Unit :=
  (evaluateFilter linesEnv linesProgram pathsQuery).toOption.getD
    ⟨linesProgram, fun _ => none, fun _ => none⟩

theorem pathAutomata_ends_iff_paths :
    (∀ n aut, (evaluatePathPattern (pathPatternEnv linesEnv pathsState 5) pathsQuery).ppMap n =
      some aut → (∃! s, s ∈ aut.initial) ∧ ∃ s, s ∈ aut.finals) ↔
    ∀ n, pathsQuery.HasPattern n →
      n.HasEnds (flowGraph linesEnv pathsState) fun f => (pathsState.get f).toTargetGraph := by
  refine pathAutomata_ends_iff linesEnv pathsState pathsQuery 5 ?_
  intro f k hatom graphs
  have hone : f = .filterFunction .fIdentity ∧ k = 1 := by
    simpa [Query.HasAtom, pathsQuery, CoveragePattern.pathPatterns, PathPattern.subpatterns]
      using hatom
  obtain ⟨rfl, rfl⟩ := hone
  have hreturns : (runPathcov (flowGraph linesEnv pathsState) 5
      (pathsState.get (.filterFunction .fIdentity)).toTargetGraph 1
      (⟨TargetGraphIndex.empty, []⟩ : GraphTable FilterExpr Unit Location)).isSome := by
    decide +kernel
  exact isSome_runPathcov.mpr (isSome_runPathcov.mp hreturns)

/-- `COVER EDGES(ID) PASSING EDGES(ID)==0`. -/
def zeroQuery : Query FilterExpr Unit where
  cover := .atom (.edgecov (.filterFunction .fIdentity))
  passing := .repetition (.atom (.edgecov (.filterFunction .fIdentity))) 0 0

def zeroState : FilterState Unit :=
  (evaluateFilter linesEnv linesProgram zeroQuery).toOption.getD
    ⟨linesProgram, fun _ => none, fun _ => none⟩

/-- **`EDGES(ID)==0`** gets an automaton without any state. -/
theorem pathAutomata_without_initial :
    ¬ ∀ (env : FilterEnv Unit) gf query st fuel, evaluateFilter env gf query = .ok st →
      ∀ n aut, (evaluatePathPattern (pathPatternEnv env st fuel) query).ppMap n = some aut →
        (∃! s, s ∈ aut.initial) ∧ ∃ s, s ∈ aut.finals := by
  intro h
  have hquery : evaluateFilter linesEnv linesProgram zeroQuery = .ok zeroState := rfl
  have hstored : ((evaluatePathPattern (pathPatternEnv linesEnv zeroState 0) zeroQuery).ppMap
      zeroQuery.passing).map (·.initial) = some [] := by
    decide +kernel
  obtain ⟨aut, haut, hinitial⟩ := Option.map_eq_some_iff.mp hstored
  obtain ⟨⟨s, hs, _⟩, _⟩ := h linesEnv linesProgram zeroQuery zeroState 0 hquery _ aut haut
  rw [hinitial] at hs
  exact List.not_mem_nil hs

end FShell
