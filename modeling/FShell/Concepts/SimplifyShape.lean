import FShell.Concepts.SimplifyReach

/-!
# The shape of a simplified automaton

The worklist of `simplify_automaton` is empty in the end, so every state that
is left is initial, or has a way into it and is final or has a way out
(`simplifyAutomaton_trim`).  Nothing is left of an automaton without final
states but its initial states and what runs in circles.
-/

namespace FShell

open LabelledGraph

namespace TraceAutomaton

variable {aut out : TraceAutomaton} {f : TaState → TaState}

/-- The worklist loop would take out nothing. -/
def Trim (aut : TraceAutomaton) : Prop := ∀ s ∈ aut.states, aut.Stays s

/-! ## The worklist -/

/-- What holds in every round: the states that would go are in the queue. -/
structure PruneInv (p : PruneState) : Prop where
  stays : ∀ s ∈ p.aut.states, s ∉ p.queue → p.aut.Stays s
  dead : ∀ s ∈ p.dead, s ∉ p.aut.states

/-- Taking out a state spares those that no deleted transition touches. -/
theorem Stays.withoutState {es : List (TaState × Int × TaState)} {q s : TaState}
    (hes : ∀ e ∈ es, e.1 = q ∨ e.2.2 = q) (h : aut.Stays s) (hs : s ≠ q)
    (hin : ∀ l, ¬ aut.delta q l s) (hout : ∀ l, ¬ aut.delta s l q) :
    (aut.withoutState es q).Stays s := by
  have hdelta : ∀ a l b, aut.delta a l b → a ≠ q → b ≠ q → (aut.withoutState es q).delta a l b :=
    fun a l b hedge ha hb => (withoutState_trans hes _).mpr ⟨hedge, ha, hb⟩
  rcases h with hinit | ⟨⟨t, l, hedge⟩, hleft⟩
  · exact Or.inl ((withoutState_initial aut es q s).mpr ⟨hinit, hs⟩)
  · have ht : t ≠ q := fun heq => hin l (heq ▸ hedge)
    refine Or.inr ⟨⟨t, l, hdelta t l s hedge ht hs⟩, ?_⟩
    rcases hleft with hfinal | ⟨k, u, hedge'⟩
    · exact Or.inl ((withoutState_finals aut es q s).mpr ⟨hfinal, hs⟩)
    · have hu : u ≠ q := fun heq => hout k (heq ▸ hedge')
      exact Or.inr ⟨k, u, hdelta s k u hedge' hs hu⟩

/-- **One round.** -/
theorem PruneInv.step {p : PruneState} {state : TaState} {queue : List TaState}
    (h : PruneInv p) (hqueue : p.queue = state :: queue) :
    PruneInv (pruneStep p state queue) := by
  have hold : ∀ s ∈ p.aut.states, s ≠ state → s ∉ queue → p.aut.Stays s := by
    intro s hs hne hnot
    refine h.stays s hs ?_
    rw [hqueue, List.mem_cons, not_or]
    exact ⟨hne, hnot⟩
  rcases pruneStep_cases p state queue with ⟨hstate, hstep⟩ | ⟨_, hin, hstep⟩ | ⟨_, hout, _, hstep⟩
  · rw [hstep]
    refine ⟨?_, h.dead⟩
    intro s hs hnot
    by_cases hne : s = state
    · subst hne
      rcases hstate with hdead | hstays
      · exact absurd hs (h.dead s hdead)
      · exact hstays
    · exact hold s hs hne hnot
  · rw [hstep]
    constructor
    · intro s hs hnot
      obtain ⟨hs, hne⟩ := (withoutState_states _ _ _ s).mp hs
      obtain ⟨hnot, htarget⟩ := not_or.mp (List.mem_append.not.mp hnot)
      refine (hold s hs hne hnot).withoutState (outEdges_touch p.aut state) hne ?_ fun l => hin s l
      intro l hedge
      exact htarget (List.mem_map.mpr ⟨(l, s), p.aut.mem_delta2.mpr hedge, rfl⟩)
    · intro s hs hlive
      obtain ⟨hlive, hne⟩ := (withoutState_states _ _ _ s).mp hlive
      exact h.dead s ((List.mem_cons.mp hs).resolve_left hne) hlive
  · rw [hstep]
    constructor
    · intro s hs hnot
      obtain ⟨hs, hne⟩ := (withoutState_states _ _ _ s).mp hs
      obtain ⟨hnot, hsource⟩ := not_or.mp (List.mem_append.not.mp hnot)
      refine (hold s hs hne hnot).withoutState (inEdges_touch p.aut state) hne (fun l => hout l s) ?_
      intro l hedge
      exact hsource (List.mem_map.mpr ⟨(l, s), p.aut.mem_delta2Backwards.mpr hedge, rfl⟩)
    · intro s hs hlive
      obtain ⟨hlive, hne⟩ := (withoutState_states _ _ _ s).mp hlive
      exact h.dead s ((List.mem_cons.mp hs).resolve_left hne) hlive

theorem PruneInv.prune (fuel : Nat) {p : PruneState} (h : PruneInv p) :
    PruneInv (TraceAutomaton.prune fuel p) := by
  induction fuel generalizing p with
  | zero => exact h
  | succ fuel ih =>
      unfold TraceAutomaton.prune
      split
      next => exact h
      next state queue hqueue => exact ih (h.step hqueue)

/-- **No dead state is left.** -/
theorem removeDeadStates_trim (aut : TraceAutomaton) : aut.removeDeadStates.Trim := by
  have hstart : PruneInv ⟨aut, aut.states, []⟩ :=
    ⟨fun s hs hnot => absurd hs hnot, fun s hs => absurd hs List.not_mem_nil⟩
  have hempty := prune_queue (aut.states.length + aut.trans.length) ⟨aut, aut.states, []⟩ le_rfl
  intro s hs
  refine (hstart.prune _).stays s hs ?_
  rw [hempty]
  exact List.not_mem_nil

/-- After the queue has run empty more fuel changes nothing. -/
theorem prune_eq_of_queue_nil {fuel more : Nat} (hle : fuel ≤ more) {p : PruneState}
    (h : (TraceAutomaton.prune fuel p).queue = []) :
    TraceAutomaton.prune more p = TraceAutomaton.prune fuel p := by
  have hdone : ∀ (n : Nat) (p : PruneState), p.queue = [] → TraceAutomaton.prune n p = p := by
    intro n p hp
    cases n with
    | zero => rfl
    | succ n =>
        unfold TraceAutomaton.prune
        rw [hp]
  induction fuel generalizing more p with
  | zero => exact hdone more p h
  | succ fuel ih =>
      obtain ⟨more, rfl⟩ := Nat.exists_eq_succ_of_ne_zero (by omega : more ≠ 0)
      unfold TraceAutomaton.prune at h ⊢
      split
      next => rfl
      next state queue hq =>
          rw [hq] at h
          exact ih (by omega) h

/-- **The fixpoint of the dead-state removal.**  The worklist runs empty, what
is deleted lies on no path from an initial to a final state, and what is left
has the transitions that keep it. -/
theorem removeDeadStates_fixpoint (aut : TraceAutomaton) :
    (∀ fuel, aut.states.length + aut.trans.length ≤ fuel →
      (TraceAutomaton.prune fuel ⟨aut, aut.states, []⟩).queue = [] ∧
      (TraceAutomaton.prune fuel ⟨aut, aut.states, []⟩).aut = aut.removeDeadStates) ∧
    (∀ s ∈ aut.removeDeadStates.states, s ∈ aut.states) ∧
    (∀ s ∈ aut.states, s ∉ aut.removeDeadStates.states →
      ¬ ∃ i ∈ aut.initial, ∃ f ∈ aut.finals, ∃ u v, Walk aut.delta i u s ∧ Walk aut.delta s v f) ∧
    (∀ s ∈ aut.removeDeadStates.states, s ∉ aut.removeDeadStates.initial →
      ∃ t l, aut.removeDeadStates.delta t l s) ∧
    ∀ s ∈ aut.removeDeadStates.states, s ∉ aut.removeDeadStates.initial →
      s ∉ aut.removeDeadStates.finals → ∃ l t, aut.removeDeadStates.delta s l t := by
  have hpruned : Pruned aut aut.removeDeadStates := prune_pruned _ ⟨aut, aut.states, []⟩
  have htrim := aut.removeDeadStates_trim
  refine ⟨fun fuel hfuel => ?_, hpruned.states, ?_, ?_, ?_⟩
  · have hempty := prune_queue (aut.states.length + aut.trans.length) ⟨aut, aut.states, []⟩ le_rfl
    have hsame := prune_eq_of_queue_nil hfuel hempty
    rw [hsame]
    exact ⟨hempty, rfl⟩
  · intro s hs hgone h
    obtain ⟨i, hi, f, hf, u, v, hto, hfrom⟩ := h
    obtain ⟨-, hunreachable | hstuck⟩ := hpruned.deleted s hs hgone
    · obtain ⟨w, hw⟩ := Reachable.exists_mem_reach ⟨i, hi, u, hto⟩
      rw [hunreachable] at hw
      exact hw
    · exact acceptsFrom_ne_zero.mpr ⟨f, hf, v, hfrom⟩ hstuck
  · intro s hs hinit
    exact ((htrim s hs).resolve_left hinit).1
  · intro s hs hinit hfinal
    exact ((htrim s hs).resolve_left hinit).2.resolve_left hfinal

/-! ## The whole function -/

theorem Renamed.trim (h : Renamed aut out f) (htrim : aut.Trim) : out.Trim := by
  intro q hq
  obtain ⟨s, hs, rfl⟩ := (h.states q).mp hq
  rcases htrim s hs with hinit | ⟨⟨t, l, hedge⟩, hleft⟩
  · exact Or.inl ((h.initial _).mpr ⟨s, hinit, rfl⟩)
  · refine Or.inr ⟨⟨f t, l, (h.trans _).mpr ⟨_, hedge, rfl⟩⟩, ?_⟩
    rcases hleft with hfinal | ⟨k, u, hedge'⟩
    · exact Or.inl ((h.finals _).mpr ⟨s, hfinal, rfl⟩)
    · exact Or.inr ⟨k, f u, (h.trans _).mpr ⟨_, hedge', rfl⟩⟩

theorem removeDuplicateEdges_trim (h : aut.Trim) : aut.removeDuplicateEdges.Trim := by
  obtain ⟨_, hstates, hinitial, hfinals, _, _⟩ := aut.removeDuplicateEdges_spec
  intro s hs
  have hstays := h s (hstates ▸ hs)
  rw [Stays] at hstays ⊢
  rwa [hinitial, hfinals, removeDuplicateEdges_delta]

theorem simplifyAutomaton_true (aut : TraceAutomaton) :
    aut.simplifyAutomaton true = (aut.simplifyAutomaton false).compactify := rfl

/-- **A simplified automaton is trim.** -/
theorem simplifyAutomaton_trim (aut : TraceAutomaton) (compact : Bool) :
    (aut.simplifyAutomaton compact).Trim := by
  have hfalse : (aut.simplifyAutomaton false).Trim :=
    removeDuplicateEdges_trim (removeDeadStates_trim _)
  cases compact with
  | false => exact hfalse
  | true =>
      obtain ⟨f, hf⟩ := (aut.simplifyAutomaton false).compactify_renamed
      exact hf.trim hfalse

/-- The initial states stay, with new numbers. -/
theorem exists_simplified_initial (aut : TraceAutomaton) :
    ∃ f : TaState → TaState, ∀ q, q ∈ (aut.simplifyAutomaton true).initial ↔
      ∃ s ∈ aut.initial, f s = q := by
  obtain ⟨f, hf⟩ := (aut.simplifyAutomaton false).compactify_renamed
  refine ⟨f, fun q => ?_⟩
  have hinitial : ∀ s, s ∈ (aut.simplifyAutomaton false).initial ↔ s ∈ aut.initial := by
    intro s
    rw [(simplifyAutomaton_pruned aut).initial s, removeEpsilon_initial]
  rw [simplifyAutomaton_true, hf.initial]
  simp only [hinitial]

/-- An automaton without final states gets none. -/
theorem simplifyAutomaton_finals_nil (h : aut.finals = []) :
    (aut.simplifyAutomaton true).finals = [] := by
  obtain ⟨f, hf⟩ := (aut.simplifyAutomaton false).compactify_renamed
  refine List.eq_nil_iff_forall_not_mem.mpr fun q hq => ?_
  obtain ⟨s, hs, -⟩ := (hf.finals q).mp hq
  obtain ⟨hs, -⟩ := ((simplifyAutomaton_pruned aut).finals s).mp hs
  obtain ⟨t, ht, -⟩ := (mem_removeEpsilon_finals aut s).mp hs
  rw [h] at ht
  exact List.not_mem_nil ht

end TraceAutomaton

end FShell
