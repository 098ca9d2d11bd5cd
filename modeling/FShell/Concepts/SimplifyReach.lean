import FShell.Automata.Crossing
import FShell.Concepts.SimplifyAutomaton

/-!
# Simplification, state by state

`simplify_automaton` without renumbering keeps the numbers of the states it
does not delete, so later code may hold on to them.

**Silent transitions.**  A transition of the result is a visible transition
after a row of silent ones, and a state is final when such a row leads to a
final state (`removeEpsilon_delta`, `mem_removeEpsilon_finals`).

**Dead states.**  What is deleted is unreachable or accepts nothing, and the
words that lead to the states that stay are the same (`Pruned`).
-/

open scoped Computability

namespace FShell

open LabelledGraph

namespace TraceAutomaton

/-- The words that lead from an initial state to one of `S`. -/
def reach (aut : TraceAutomaton) (S : TaState → Prop) : Language Int :=
  words aut.delta epsilon (· ∈ aut.initial) S

/-- The accepted words are those that reach a final state. -/
theorem accepts_eq_reach (aut : TraceAutomaton) : aut.accepts = aut.reach (· ∈ aut.finals) := rfl

/-- Reaching depends on the relation and the initial states. -/
theorem reach_congr {aut aut' : TraceAutomaton} {S T : TaState → Prop}
    (hdelta : aut'.delta = aut.delta) (hinitial : ∀ s, s ∈ aut'.initial ↔ s ∈ aut.initial)
    (hST : ∀ s, S s ↔ T s) : aut'.reach S = aut.reach T := by
  have hS : S = T := funext fun s => propext (hST s)
  have hI : (· ∈ aut'.initial) = (· ∈ aut.initial) := funext fun s => propext (hinitial s)
  unfold reach
  rw [hdelta, hS, hI]

/-- Some walk leads from an initial state to `s`. -/
def Reachable (aut : TraceAutomaton) (s : TaState) : Prop :=
  ∃ i ∈ aut.initial, ∃ u, Walk aut.delta i u s

/-- Some walk leads from `s` to a final state. -/
def Productive (aut : TraceAutomaton) (s : TaState) : Prop :=
  ∃ f ∈ aut.finals, ∃ u, Walk aut.delta s u f

/-- A set is reached in one of its states. -/
theorem mem_reach {aut : TraceAutomaton} {S : TaState → Prop} {w : List Int} :
    w ∈ aut.reach S ↔ ∃ s, S s ∧ w ∈ aut.reach (· = s) := by
  constructor
  · intro hw
    obtain ⟨i, hi, s, u, hs, hwalk, hu⟩ := hw
    exact ⟨s, hs, i, hi, s, u, rfl, hwalk, hu⟩
  · intro h
    obtain ⟨s, hs, i, hi, t, u, rfl, hwalk, hu⟩ := h
    exact ⟨i, hi, t, u, hs, hwalk, hu⟩

/-- A word that reaches a state shows that it is reachable. -/
theorem reachable_of_mem_reach {aut : TraceAutomaton} {s : TaState} {w : List Int}
    (hw : w ∈ aut.reach (· = s)) : aut.Reachable s := by
  obtain ⟨i, hi, t, u, rfl, hwalk, -⟩ := hw
  exact ⟨i, hi, u, hwalk⟩

/-- A reachable state is reached by a word. -/
theorem Reachable.exists_mem_reach {aut : TraceAutomaton} {s : TaState} (h : aut.Reachable s) :
    ∃ w, w ∈ aut.reach (· = s) := by
  obtain ⟨i, hi, u, hwalk⟩ := h
  exact ⟨erase epsilon u, i, hi, s, u, rfl, hwalk, rfl⟩

/-- Walks stay among live states. -/
theorem walk_live {aut : TraceAutomaton} {s t : TaState} {u : List Int}
    (hwalk : Walk aut.delta s u t) (hs : s ∈ aut.states) : t ∈ aut.states := by
  induction hwalk with
  | nil => exact hs
  | cons hedge _ ih => exact ih (aut.trans_live _ hedge).2

/-- Reachable states are live. -/
theorem Reachable.live {aut : TraceAutomaton} {s : TaState} (h : aut.Reachable s) :
    s ∈ aut.states := by
  obtain ⟨i, hi, u, hwalk⟩ := h
  exact walk_live hwalk (aut.initial_live i hi)

/-- A state with a word is productive. -/
theorem acceptsFrom_ne_zero {aut : TraceAutomaton} {s : TaState} :
    aut.acceptsFrom s ≠ 0 ↔ aut.Productive s := by
  rw [ne_zero_iff_exists]
  constructor
  · intro h
    obtain ⟨w, f, u, hf, hwalk, -⟩ := h
    exact ⟨f, hf, u, hwalk⟩
  · intro h
    obtain ⟨f, hf, u, hwalk⟩ := h
    exact ⟨erase epsilon u, f, u, hf, hwalk, rfl⟩

/-! ## Rows of silent transitions -/

/-- A row of silent transitions leads from `s` to `t`. -/
def Silent (aut : TraceAutomaton) : TaState → TaState → Prop :=
  Relation.ReflTransGen fun s t => aut.delta s epsilon t

/-- A visible transition after a row of silent ones. -/
def VisibleAfter (aut : TraceAutomaton) (s : TaState) (l : Int) (t : TaState) : Prop :=
  l ≠ epsilon ∧ ∃ r, aut.Silent s r ∧ aut.delta r l t

/-- A final state after a row of silent transitions. -/
def FinalAfter (aut : TraceAutomaton) (s : TaState) : Prop :=
  ∃ f ∈ aut.finals, aut.Silent s f

section Bypass

variable (aut : TraceAutomaton) (q : TaState)

/-- Silent rows of the visited automaton are silent rows before. -/
theorem Silent.of_bypassState {s t : TaState} (h : (aut.bypassState q).Silent s t) :
    aut.Silent s t := by
  obtain ⟨-, -, -, hdelta⟩ := aut.bypassState_spec q
  induction h with
  | refl => exact .refl
  | tail _ hedge ih =>
      rcases ((hdelta _ _ _).mp hedge).1 with hold | ⟨hsilent, -, hout⟩
      · exact ih.tail hold
      · exact (ih.tail hsilent).tail hout

/-- The visit of `q` adds no transition out of `q`. -/
theorem delta_of_bypassState {l : Int} {t : TaState} (h : (aut.bypassState q).delta q l t) :
    aut.delta q l t := by
  obtain ⟨-, -, -, hdelta⟩ := aut.bypassState_spec q
  rcases ((hdelta q l t).mp h).1 with hold | ⟨-, hne, -⟩
  · exact hold
  · exact absurd rfl hne

/-- A silent transition into `q` and one out of it are one after the visit of `q`. -/
theorem delta_past_bypassState {x z : TaState} (hxq : aut.delta x epsilon q) (hx : x ≠ q)
    (hqz : (aut.bypassState q).delta q epsilon z) : (aut.bypassState q).delta x epsilon z := by
  obtain ⟨-, -, -, hdelta⟩ := aut.bypassState_spec q
  have hkept := ((hdelta q epsilon z).mp hqz).2
  exact (hdelta x epsilon z).mpr ⟨Or.inr ⟨hxq, hx, aut.delta_of_bypassState q hqz⟩, hkept⟩

/-- **One visit keeps what can be seen from a state.**  The step at `q` is
taken together with what follows it. -/
theorem bypassState_visibleAfter (s : TaState) (l : Int) (t : TaState) :
    (aut.bypassState q).VisibleAfter s l t ↔ aut.VisibleAfter s l t := by
  obtain ⟨-, -, -, hdelta⟩ := aut.bypassState_spec q
  constructor
  · intro hall
    obtain ⟨hl, r, hsilent, hedge⟩ := hall
    rcases ((hdelta r l t).mp hedge).1 with hold | ⟨hrq, -, hout⟩
    · exact ⟨hl, r, hsilent.of_bypassState, hold⟩
    · exact ⟨hl, q, (hsilent.of_bypassState).tail hrq, hout⟩
  · intro hall
    obtain ⟨hl, r, hsilent, hedge⟩ := hall
    refine ⟨hl, ?_⟩
    -- from the visible transition backwards
    induction hsilent using Relation.ReflTransGen.head_induction_on with
    | refl => exact ⟨r, .refl, (hdelta r l t).mpr ⟨Or.inl hedge, fun h => hl h.1⟩⟩
    | @head x y hxy _ ih =>
        obtain ⟨r', hyr, hvisible⟩ := ih
        by_cases hy : y = q
        · subst hy
          by_cases hx : x = y
          · subst hx
            exact ⟨r', hyr, hvisible⟩
          · rcases Relation.ReflTransGen.cases_head hyr with rfl | ⟨z, hyz, hzr⟩
            · have hold : aut.delta y l t := aut.delta_of_bypassState y hvisible
              exact ⟨x, .refl, (hdelta x l t).mpr ⟨Or.inr ⟨hxy, hx, hold⟩, fun h => hl h.1⟩⟩
            · have hxz := aut.delta_past_bypassState y hxy hx hyz
              exact ⟨r', .head hxz hzr, hvisible⟩
        · have hxy' : (aut.bypassState q).delta x epsilon y :=
            (hdelta x epsilon y).mpr ⟨Or.inl hxy, fun h => hy h.2⟩
          exact ⟨r', .head hxy' hyr, hvisible⟩

/-- One visit keeps which states lead silently to a final one. -/
theorem bypassState_finalAfter (s : TaState) :
    (aut.bypassState q).FinalAfter s ↔ aut.FinalAfter s := by
  obtain ⟨-, -, hfinals, hdelta⟩ := aut.bypassState_spec q
  constructor
  · intro hall
    obtain ⟨f, hf, hsilent⟩ := hall
    rcases (hfinals f).mp hf with hf | ⟨hq, hfq⟩
    · exact ⟨f, hf, hsilent.of_bypassState⟩
    · exact ⟨q, hq, (hsilent.of_bypassState).tail hfq⟩
  · intro hall
    obtain ⟨f, hf, hsilent⟩ := hall
    induction hsilent using Relation.ReflTransGen.head_induction_on with
    | refl => exact ⟨f, (hfinals f).mpr (Or.inl hf), .refl⟩
    | @head x y hxy _ ih =>
        obtain ⟨f', hf', hyf⟩ := ih
        by_cases hy : y = q
        · subst hy
          by_cases hx : x = y
          · subst hx
            exact ⟨f', hf', hyf⟩
          · rcases Relation.ReflTransGen.cases_head hyf with rfl | ⟨z, hyz, hzf⟩
            · have hold : y ∈ aut.finals := by
                rcases (hfinals y).mp hf' with hold | ⟨hold, -⟩ <;> exact hold
              exact ⟨x, (hfinals x).mpr (Or.inr ⟨hold, hxy⟩), .refl⟩
            · have hxz := aut.delta_past_bypassState y hxy hx hyz
              exact ⟨f', hf', .head hxz hzf⟩
        · have hxy' : (aut.bypassState q).delta x epsilon y :=
            (hdelta x epsilon y).mpr ⟨Or.inl hxy, fun h => hy h.2⟩
          exact ⟨f', hf', .head hxy' hyf⟩

end Bypass

/-- The loop over all states keeps what can be seen. -/
theorem bypassStates_after (qs : List TaState) (aut : TraceAutomaton) :
    (∀ s l t, (qs.foldl bypassState aut).VisibleAfter s l t ↔ aut.VisibleAfter s l t) ∧
      ∀ s, (qs.foldl bypassState aut).FinalAfter s ↔ aut.FinalAfter s := by
  induction qs generalizing aut with
  | nil => exact ⟨fun _ _ _ => Iff.rfl, fun _ => Iff.rfl⟩
  | cons q qs ih =>
      obtain ⟨hvisible, hfinal⟩ := ih (aut.bypassState q)
      exact ⟨fun s l t => (hvisible s l t).trans (aut.bypassState_visibleAfter q s l t),
        fun s => (hfinal s).trans (aut.bypassState_finalAfter q s)⟩

/-- Without silent transitions a row of them is empty. -/
theorem EpsilonFree.silent_eq {aut : TraceAutomaton} (h : aut.EpsilonFree) {s t : TaState}
    (hst : aut.Silent s t) : s = t := by
  rcases Relation.ReflTransGen.cases_head hst with heq | ⟨r, hsr, -⟩
  · exact heq
  · exact absurd rfl (h _ hsr)

/-- **The transitions after the first loop.** -/
theorem removeEpsilon_delta (aut : TraceAutomaton) (s : TaState) (l : Int) (t : TaState) :
    aut.removeEpsilon.delta s l t ↔ aut.VisibleAfter s l t := by
  have hfree := aut.removeEpsilon_epsilonFree
  rw [← (bypassStates_after aut.states aut).1 s l t]
  constructor
  · intro hedge
    exact ⟨hfree _ hedge, s, .refl, hedge⟩
  · intro h
    obtain ⟨-, r, hsilent, hedge⟩ := h
    have hsr : s = r := hfree.silent_eq hsilent
    exact hsr ▸ hedge

/-- Final afterwards is what had a silent way to a final state. -/
theorem mem_removeEpsilon_finals (aut : TraceAutomaton) (s : TaState) :
    s ∈ aut.removeEpsilon.finals ↔ aut.FinalAfter s := by
  have hfree := aut.removeEpsilon_epsilonFree
  rw [← (bypassStates_after aut.states aut).2 s]
  constructor
  · intro hs
    exact ⟨s, hs, .refl⟩
  · intro h
    obtain ⟨f, hf, hsilent⟩ := h
    have hsf : s = f := hfree.silent_eq hsilent
    exact hsf ▸ hf

/-- No state is deleted. -/
theorem removeEpsilon_states (aut : TraceAutomaton) : aut.removeEpsilon.states = aut.states :=
  (bypassStates_spec aut.states aut).1

/-- The initial states stay. -/
theorem removeEpsilon_initial (aut : TraceAutomaton) :
    aut.removeEpsilon.initial = aut.initial :=
  (bypassStates_spec aut.states aut).2.1

/-- Every state keeps its language. -/
theorem removeEpsilon_acceptsFrom (aut : TraceAutomaton) (s : TaState) :
    aut.removeEpsilon.acceptsFrom s = aut.acceptsFrom s :=
  (bypassStates_spec aut.states aut).2.2.1 s

/-- No slot is taken. -/
theorem bypassEdge_slots (q : TaState) (aut : TraceAutomaton) (i : TaState) :
    (bypassEdge q aut i).slots = aut.slots := by
  unfold bypassEdge
  dsimp only
  split_ifs <;> simp

/-- No slot is taken by the loop. -/
theorem bypassLoop_slots (q : TaState) (fuel : Nat) (aut : TraceAutomaton) :
    (bypassLoop q fuel aut).slots = aut.slots := by
  induction fuel generalizing aut with
  | zero => rfl
  | succ fuel ih =>
      unfold bypassLoop
      split
      next => rfl
      next i _ => exact (ih _).trans (bypassEdge_slots q aut i)

/-- No slot is taken by all loops. -/
theorem removeEpsilon_slots (aut : TraceAutomaton) : aut.removeEpsilon.slots = aut.slots := by
  have hstates : ∀ (qs : List TaState) (a : TraceAutomaton),
      (qs.foldl bypassState a).slots = a.slots := by
    intro qs
    induction qs with
    | nil => exact fun _ => rfl
    | cons q qs ih => exact fun a => (ih _).trans (bypassLoop_slots q _ a)
  exact hstates aut.states aut

/-! ## Deleting dead states -/

/-- `out` is what is left of `aut` when dead states are deleted. -/
structure Pruned (aut out : TraceAutomaton) : Prop where
  slots : out.slots = aut.slots
  states : ∀ s ∈ out.states, s ∈ aut.states
  initial : ∀ s, s ∈ out.initial ↔ s ∈ aut.initial
  finals : ∀ s, s ∈ out.finals ↔ s ∈ aut.finals ∧ s ∈ out.states
  delta : ∀ s l t, out.delta s l t ↔ aut.delta s l t ∧ s ∈ out.states ∧ t ∈ out.states
  reach : ∀ S : TaState → Prop, (∀ s, S s → s ∈ out.states) → out.reach S = aut.reach S
  acceptsFrom : ∀ s ∈ out.states, out.acceptsFrom s = aut.acceptsFrom s
  deleted : ∀ s ∈ aut.states, s ∉ out.states →
    s ∉ aut.initial ∧ (aut.reach (· = s) = 0 ∨ aut.acceptsFrom s = 0)

namespace Pruned

/-- Nothing is pruned. -/
theorem refl (aut : TraceAutomaton) : Pruned aut aut where
  slots := rfl
  states := fun _ h => h
  initial := fun _ => Iff.rfl
  finals := fun s => ⟨fun h => ⟨h, aut.finals_live s h⟩, And.left⟩
  delta := fun _ _ _ => ⟨fun h => ⟨h, aut.trans_live _ h⟩, And.left⟩
  reach := fun _ _ => rfl
  acceptsFrom := fun _ _ => rfl
  deleted := fun _ hs hn => absurd hs hn

/-- Pruned twice is pruned. -/
theorem trans {a b c : TraceAutomaton} (hab : Pruned a b) (hbc : Pruned b c) : Pruned a c where
  slots := hbc.slots.trans hab.slots
  states := fun s hs => hab.states s (hbc.states s hs)
  initial := fun s => (hbc.initial s).trans (hab.initial s)
  finals := by
    intro s
    rw [hbc.finals s, hab.finals s]
    exact ⟨fun h => ⟨h.1.1, h.2⟩, fun h => ⟨⟨h.1, hbc.states s h.2⟩, h.2⟩⟩
  delta := by
    intro s l t
    rw [hbc.delta s l t, hab.delta s l t]
    exact ⟨fun h => ⟨h.1.1, h.2⟩,
      fun h => ⟨⟨h.1, hbc.states s h.2.1, hbc.states t h.2.2⟩, h.2⟩⟩
  reach := fun S hS => (hbc.reach S hS).trans (hab.reach S fun s hs => hbc.states s (hS s hs))
  acceptsFrom := fun s hs => (hbc.acceptsFrom s hs).trans (hab.acceptsFrom s (hbc.states s hs))
  deleted := by
    intro s hs hn
    by_cases hmid : s ∈ b.states
    · obtain ⟨hinitial, hdead⟩ := hbc.deleted s hmid hn
      refine ⟨fun h => hinitial ((hab.initial s).mpr h), ?_⟩
      rw [hab.reach (· = s) (fun t ht => ht ▸ hmid), hab.acceptsFrom s hmid] at hdead
      exact hdead
    · exact hab.deleted s hs hmid

end Pruned

/-- No slot is freed. -/
theorem withoutState_slots (aut : TraceAutomaton) (es : List (TaState × Int × TaState))
    (s : TaState) : (aut.withoutState es s).slots = aut.slots := by
  have hdel : ∀ a : TraceAutomaton,
      (es.foldl (fun aut e => aut.delTrans e.1 e.2.1 e.2.2) a).slots = a.slots := by
    induction es with
    | nil => exact fun _ => rfl
    | cons e es ih => exact fun a => ih _
  exact hdel aut

/-- A state that nothing leads into, or that is not final and leads nowhere,
is on no way to another state. -/
theorem withoutState_pruned {aut : TraceAutomaton} {es : List (TaState × Int × TaState)}
    {s : TaState} (hes : ∀ e ∈ es, e.1 = s ∨ e.2.2 = s) (hinit : s ∉ aut.initial)
    (hdead : (∀ q l, ¬ aut.delta q l s) ∨ ((∀ l t, ¬ aut.delta s l t) ∧ s ∉ aut.finals)) :
    Pruned aut (aut.withoutState es s) where
  slots := aut.withoutState_slots es s
  states := fun q hq => ((aut.withoutState_states es s q).mp hq).1
  initial := by
    intro q
    rw [aut.withoutState_initial es s q]
    exact ⟨And.left, fun hq => ⟨hq, fun heq => hinit (heq ▸ hq)⟩⟩
  finals := by
    intro q
    rw [aut.withoutState_finals es s q, aut.withoutState_states es s q]
    exact ⟨fun h => ⟨h.1, aut.finals_live q h.1, h.2⟩, fun h => ⟨h.1, h.2.2⟩⟩
  delta := by
    intro q l t
    rw [aut.withoutState_states es s q, aut.withoutState_states es s t]
    refine (withoutState_trans hes (q, l, t)).trans ?_
    exact ⟨fun h => ⟨h.1, ⟨(aut.trans_live _ h.1).1, h.2.1⟩, (aut.trans_live _ h.1).2, h.2.2⟩,
      fun h => ⟨h.1, h.2.1.2, h.2.2.2⟩⟩
  reach := by
    intro S hS
    have hne : ∀ q, S q → q ≠ s := fun q hq => ((aut.withoutState_states es s q).mp (hS q hq)).2
    have hdead' : (∀ q l, ¬ aut.delta q l s) ∨ ((∀ l t, ¬ aut.delta s l t) ∧ ¬ S s) :=
      hdead.imp id fun h => ⟨h.1, fun hs => hne s hs rfl⟩
    have hfuture : ∀ q, q ≠ s →
        future (aut.withoutState es s).delta epsilon S q = future aut.delta epsilon S q :=
      fun q hq => withoutState_future hes hdead' (fun f => ⟨fun h => ⟨h, hne f h⟩, And.left⟩) hq
    apply le_antisymm
    · apply words_le
      intro q hq
      obtain ⟨hold, hqs⟩ := (aut.withoutState_initial es s q).mp hq
      exact (hfuture q hqs).le.trans (future_le_words hold)
    · apply words_le
      intro q hq
      have hqs : q ≠ s := fun heq => hinit (heq ▸ hq)
      exact (hfuture q hqs).ge.trans
        (future_le_words ((aut.withoutState_initial es s q).mpr ⟨hq, hqs⟩))
  acceptsFrom := fun q hq =>
    withoutState_acceptsFrom hes hdead ((aut.withoutState_states es s q).mp hq).2
  deleted := by
    intro q hq hn
    have heq : q = s := by
      by_contra hne
      exact hn ((aut.withoutState_states es s q).mpr ⟨hq, hne⟩)
    subst heq
    refine ⟨hinit, ?_⟩
    rcases hdead with hin | ⟨hout, hfin⟩
    · left
      apply words_eq_zero
      intro x hx
      apply future_unreachable
      · intro y l z hedge hz
        exact hin y l (hz ▸ hedge)
      · intro hxq
        exact hinit (hxq ▸ hx)
    · right
      exact future_stuck hout hfin

/-- One round of the work list prunes. -/
theorem pruneStep_pruned (p : PruneState) (state : TaState) (queue : List TaState) :
    Pruned p.aut (pruneStep p state queue).aut := by
  rcases pruneStep_cases p state queue with ⟨_, h⟩ | ⟨hinit, hin, h⟩ | ⟨hinit, hout, hfin, h⟩
  · rw [h]
    exact Pruned.refl _
  · rw [h]
    exact withoutState_pruned (outEdges_touch p.aut state) hinit (Or.inl hin)
  · rw [h]
    exact withoutState_pruned (inEdges_touch p.aut state) hinit (Or.inr ⟨hout, hfin⟩)

/-- All rounds of the work list prune. -/
theorem prune_pruned (fuel : Nat) (p : PruneState) : Pruned p.aut (prune fuel p).aut := by
  induction fuel generalizing p with
  | zero => exact Pruned.refl _
  | succ fuel ih =>
      unfold prune
      split
      next => exact Pruned.refl _
      next state queue _ => exact (pruneStep_pruned p state queue).trans (ih _)

/-- Losing duplicates is pruning. -/
theorem removeDuplicateEdges_pruned (aut : TraceAutomaton) :
    Pruned aut aut.removeDuplicateEdges := by
  obtain ⟨hslots, hstates, hinitial, hfinals, _, _⟩ := aut.removeDuplicateEdges_spec
  have hdelta := aut.removeDuplicateEdges_delta
  refine ⟨hslots, fun s hs => hstates ▸ hs, fun s => by rw [hinitial], ?_, ?_, ?_, ?_, ?_⟩
  · intro s
    rw [hfinals, hstates]
    exact ⟨fun h => ⟨h, aut.finals_live s h⟩, And.left⟩
  · intro s l t
    rw [hdelta, hstates]
    exact ⟨fun h => ⟨h, aut.trans_live _ h⟩, And.left⟩
  · intro S _
    exact reach_congr hdelta (fun s => by rw [hinitial]) fun _ => Iff.rfl
  · intro s _
    rw [acceptsFrom, acceptsFrom, hdelta, hfinals]
  · intro s hs hn
    exact absurd (hstates.symm ▸ hs) hn

/-- **Simplification without renumbering** is the removal of the silent
transitions, and of dead states and repeated transitions after it. -/
theorem simplifyAutomaton_pruned (aut : TraceAutomaton) :
    Pruned aut.removeEpsilon (aut.simplifyAutomaton false) := by
  have hdead : Pruned aut.removeEpsilon aut.removeEpsilon.removeDeadStates :=
    prune_pruned _ ⟨aut.removeEpsilon, aut.removeEpsilon.states, []⟩
  exact hdead.trans (removeDuplicateEdges_pruned _)

end TraceAutomaton

end FShell
