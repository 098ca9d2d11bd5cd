import FShell.Evaluation.EvaluateCoveragePattern

/-!
# Attaching an automaton behind the current states

`copy_from_path_pattern` in one statement for both of its branches.  The new
states are a region that is entered from the current states only, on the
proper words of what is attached; a current state stays final exactly when
the empty word is attached (`Attached`).  What follows is the deletion of
dead states (`copyFromPathPattern_spec`).
-/

open scoped Computability

namespace FShell

open LabelledGraph TraceAutomaton

namespace TraceAutomaton

/-- The language that `copy_from_path_pattern` attaches.  The short cut does
not look at the final flags. -/
def attachedWords (ta : TraceAutomaton) : Language Int :=
  if ta.isSingleEdge then {[ta.firstLabel]} else ta.accepts

/-- `mid` is `aut` with an automaton for `l` behind the states of `cur`. -/
structure Attached (aut : TraceAutomaton) (cur : List TaState) (mid : TraceAutomaton)
    (l : Language Int) : Prop where
  slots_le : aut.slots ≤ mid.slots
  states : ∀ s ∈ aut.states, s ∈ mid.states
  old_states : ∀ s < aut.slots, s ∈ mid.states → s ∈ aut.states
  initial : mid.initial = aut.initial
  visible : mid.EpsilonFree
  crossing : ∃ C, Crossing mid.delta aut.delta (aut.slots ≤ ·)
      (fun s => s ∈ cur ∧ s ∈ aut.states) C ∧
    wordsFrom mid.delta epsilon C (fun s => s ∈ mid.finals ∧ aut.slots ≤ s) = proper l
  finals : ∀ s < aut.slots, s ∈ mid.finals ↔
    (s ∈ aut.finals ∧ s ∉ cur) ∨ (s ∈ cur ∧ s ∈ aut.states ∧ [] ∈ l)

/-! ## The short cut -/

/-- The automaton after the short cut. -/
def attachEdge (aut : TraceAutomaton) (cur : List TaState) (l : Int) : TraceAutomaton :=
  (aut.newState.2.setFinal aut.slots).connectAll cur l aut.slots

theorem attachEdge_delta {aut : TraceAutomaton} {cur : List TaState} {l : Int}
    (hcur : ∀ s ∈ cur, s < aut.slots) {s : TaState} {k : Int} {u : TaState} :
    (aut.attachEdge cur l).delta s k u ↔
      aut.delta s k u ∨ (s ∈ cur ∧ s ∈ aut.states ∧ k = l ∧ u = aut.slots) := by
  rw [attachEdge, connectAll_delta]
  have hdelta : (aut.newState.2.setFinal aut.slots).delta s k u ↔ aut.delta s k u := by
    simp [delta]
  rw [hdelta]
  refine or_congr_right ?_
  simp only [setFinal_states, newState_states, List.mem_append, List.mem_singleton]
  constructor
  · intro h
    obtain ⟨hs, hlive, -, hk, hu⟩ := h
    refine ⟨hs, ?_, hk, hu⟩
    cases hlive with
    | inl hlive => exact hlive
    | inr heq => exact absurd (hcur s hs) (heq ▸ Nat.lt_irrefl _)
  · intro h
    obtain ⟨hs, hlive, hk, hu⟩ := h
    exact ⟨hs, Or.inl hlive, Or.inr trivial, hk, hu⟩

theorem attachEdge_finals {aut : TraceAutomaton} {cur : List TaState} {l : Int}
    (hcur : ∀ s ∈ cur, s < aut.slots) {s : TaState} :
    s ∈ (aut.attachEdge cur l).finals ↔ (s ∈ aut.finals ∧ s ∉ cur) ∨ s = aut.slots := by
  rw [attachEdge, mem_connectAll_finals]
  simp only [mem_setFinal, newState_finals, newState_states, List.mem_append,
    List.mem_singleton]
  have hnew : aut.slots ∉ cur := fun h => Nat.lt_irrefl _ (hcur _ h)
  grind

/-- **The short cut attaches one letter.** -/
theorem attachEdge_attached {aut : TraceAutomaton} {cur : List TaState} {l : Int}
    (hvisible : aut.EpsilonFree) (hl : l ≠ epsilon) (hcur : ∀ s ∈ cur, s < aut.slots) :
    Attached aut cur (aut.attachEdge cur l) {[l]} where
  slots_le := by simp [attachEdge]
  states := by
    intro s hs
    simp [attachEdge, hs]
  old_states := by
    intro s hlt hs
    have hs' : s ∈ aut.states ∨ s = aut.slots := by simpa [attachEdge] using hs
    cases hs' with
    | inl h => exact h
    | inr h => exact absurd hlt (h ▸ Nat.lt_irrefl _)
  initial := by simp [attachEdge]
  visible := by
    intro e he
    cases (attachEdge_delta hcur).mp he with
    | inl hold => exact hvisible e hold
    | inr hnew => exact hnew.2.2.1 ▸ hl
  crossing := by
    have hstuck : ∀ a z, ¬ (aut.attachEdge cur l).delta aut.slots a z := by
      intro a z hedge
      cases (attachEdge_delta hcur).mp hedge with
      | inl hold => exact aut.slots_not_mem (aut.trans_live _ hold).1
      | inr hnew => exact aut.slots_not_mem hnew.2.1
    refine ⟨fun a z => a = l ∧ z = aut.slots, ?_, ?_⟩
    · constructor
      · intro x a z hx hedge
        cases (attachEdge_delta hcur).mp hedge with
        | inl hold => exact absurd (aut.states_lt x (aut.trans_live _ hold).1) (Nat.not_lt.mpr hx)
        | inr hnew => exact absurd (aut.states_lt x hnew.2.1) (Nat.not_lt.mpr hx)
      · intro x a z _
        rw [attachEdge_delta hcur, ← and_assoc]
      · intro x a z _ hedge
        exact Nat.not_le.mpr (aut.states_lt z (aut.trans_live _ hedge).2)
      · intro a z hz
        exact hz.2 ▸ Nat.le_refl _
      · intro x hx
        exact Nat.not_le.mpr (aut.states_lt x hx.2)
    · have hfinal : aut.slots ∈ (aut.attachEdge cur l).finals ∧ aut.slots ≤ aut.slots :=
        ⟨(attachEdge_finals hcur).mpr (Or.inr rfl), Nat.le_refl _⟩
      have hone := future_stuck_target (ε := epsilon)
        (F := fun s => s ∈ (aut.attachEdge cur l).finals ∧ aut.slots ≤ s) hstuck hfinal
      ext w
      constructor
      · intro hw
        obtain ⟨a, z, ⟨rfl, rfl⟩, hw⟩ := hw
        rw [hone, mul_one, letter_visible hl] at hw
        refine ⟨hw, ?_⟩
        intro heq
        subst heq
        cases hw
      · intro hw
        refine ⟨l, aut.slots, ⟨rfl, rfl⟩, ?_⟩
        rw [hone, mul_one, letter_visible hl]
        exact hw.1
  finals := by
    intro s hlt
    rw [attachEdge_finals hcur]
    have hne : s ≠ aut.slots := Nat.ne_of_lt hlt
    have hnil : [] ∉ ({[l]} : Language Int) := fun h => by cases h
    simp [hne, hnil]

/-! ## The copy -/

/-- The automaton before it is simplified: a copy of `ta`, linked. -/
def attachCopy (aut : TraceAutomaton) (cur : List TaState) (ta : TraceAutomaton) :
    TraceAutomaton :=
  let r := copyAutomaton ta aut
  (r.2.connectAll cur epsilon (r.1.1.headD 0)).setFinalAll r.1.2

section AttachCopy

variable {aut ta : TraceAutomaton} {cur : List TaState} {f : TaState → TaState} {i : TaState}

theorem head_init (hcopy : IsCopy ta aut (copyAutomaton ta aut) f)
    (hi : ∀ s, s ∈ ta.initial ↔ s = i) : (copyAutomaton ta aut).1.1.headD 0 = f i := by
  have hmem : f i ∈ (copyAutomaton ta aut).1.1 := (hcopy.init (f i)).mpr ⟨i, (hi i).mpr rfl, rfl⟩
  have hall : ∀ q ∈ (copyAutomaton ta aut).1.1, q = f i := by
    intro q hq
    obtain ⟨s, hs, heq⟩ := (hcopy.init q).mp hq
    rw [← heq, (hi s).mp hs]
  cases hinit : (copyAutomaton ta aut).1.1 with
  | nil => rw [hinit] at hmem; cases hmem
  | cons q qs => exact hall q (by rw [hinit]; exact List.mem_cons_self)

theorem mem_of_initial (hi : ∀ s, s ∈ ta.initial ↔ s = i) : i ∈ ta.states :=
  ta.initial_live i ((hi i).mpr rfl)

theorem attachCopy_delta (hcopy : IsCopy ta aut (copyAutomaton ta aut) f)
    (hi : ∀ s, s ∈ ta.initial ↔ s = i) {s : TaState} {k : Int} {u : TaState} :
    (aut.attachCopy cur ta).delta s k u ↔
      (copyAutomaton ta aut).2.delta s k u ∨
        (s ∈ cur ∧ s ∈ (copyAutomaton ta aut).2.states ∧ k = epsilon ∧ u = f i) := by
  have hlive : f i ∈ (copyAutomaton ta aut).2.states :=
    (hcopy.states _).mpr (Or.inr ⟨i, mem_of_initial hi, rfl⟩)
  have hdelta : (aut.attachCopy cur ta).delta s k u ↔
      ((copyAutomaton ta aut).2.connectAll cur epsilon (f i)).delta s k u := by
    simp only [attachCopy, delta, setFinalAll_trans, head_init hcopy hi]
  rw [hdelta, connectAll_delta]
  refine or_congr_right ?_
  simp [hlive]

theorem attachCopy_finals (hcopy : IsCopy ta aut (copyAutomaton ta aut) f) {s : TaState} :
    s ∈ (aut.attachCopy cur ta).finals ↔
      (s ∈ aut.finals ∧ s ∉ cur) ∨ ∃ t ∈ ta.finals, f t = s := by
  simp only [attachCopy]
  rw [mem_setFinalAll, mem_connectAll_finals, connectAll_states, hcopy.finals, hcopy.final]
  refine or_congr_right ?_
  constructor
  · exact And.left
  · intro h
    obtain ⟨t, ht, heq⟩ := h
    exact ⟨⟨t, ht, heq⟩, (hcopy.states s).mpr (Or.inr ⟨t, ta.finals_live t ht, heq⟩)⟩

theorem attachCopy_states : (aut.attachCopy cur ta).states = (copyAutomaton ta aut).2.states := by
  simp [attachCopy]

/-- A state of the result below the old slots is an old state. -/
theorem old_of_lt (hcopy : IsCopy ta aut (copyAutomaton ta aut) f) {s : TaState}
    (hs : s ∈ (copyAutomaton ta aut).2.states) (hlt : s < aut.slots) : s ∈ aut.states := by
  cases (hcopy.states s).mp hs with
  | inl h => exact h
  | inr h =>
      obtain ⟨t, ht, rfl⟩ := h
      exact absurd hlt (Nat.not_lt.mpr (hcopy.above t ht))

/-- Transitions out of an image. -/
theorem attachCopy_delta_image (hcopy : IsCopy ta aut (copyAutomaton ta aut) f)
    (hi : ∀ s, s ∈ ta.initial ↔ s = i) (hcur : ∀ s ∈ cur, s < aut.slots) {s : TaState}
    (hs : s ∈ ta.states) (k : Int) (u : TaState) :
    (aut.attachCopy cur ta).delta (f s) k u ↔ ∃ t, ta.delta s k t ∧ f t = u := by
  rw [attachCopy_delta hcopy hi, hcopy.delta_image hs]
  constructor
  · intro h
    cases h with
    | inl h => exact h
    | inr h =>
        exact absurd (hcur _ h.1) (Nat.not_lt.mpr (hcopy.above s hs))
  · exact Or.inl

/-- Transitions out of an old state. -/
theorem attachCopy_delta_old (hcopy : IsCopy ta aut (copyAutomaton ta aut) f)
    (hi : ∀ s, s ∈ ta.initial ↔ s = i) {s : TaState} (hlt : s < aut.slots) (k : Int) (u : TaState) :
    (aut.attachCopy cur ta).delta s k u ↔
      aut.delta s k u ∨ (s ∈ cur ∧ s ∈ aut.states ∧ k = epsilon ∧ u = f i) := by
  rw [attachCopy_delta hcopy hi]
  constructor
  · intro h
    cases h with
    | inl h =>
        have hs := old_of_lt hcopy ((copyAutomaton ta aut).2.trans_live _ h).1 hlt
        exact Or.inl ((hcopy.delta_old hs k u).mp h)
    | inr h => exact Or.inr ⟨h.1, old_of_lt hcopy h.2.1 hlt, h.2.2⟩
  · intro h
    cases h with
    | inl h => exact Or.inl ((hcopy.delta_old (aut.trans_live _ h).1 k u).mpr h)
    | inr h => exact Or.inr ⟨h.1, (hcopy.states s).mpr (Or.inl h.2.1), h.2.2⟩

/-- The copy is left by no transition. -/
theorem attachCopy_closed (hcopy : IsCopy ta aut (copyAutomaton ta aut) f)
    (hi : ∀ s, s ∈ ta.initial ↔ s = i) (hcur : ∀ s ∈ cur, s < aut.slots) {s : TaState} {k : Int}
    {u : TaState} (hs : aut.slots ≤ s) (hedge : (aut.attachCopy cur ta).delta s k u) :
    aut.slots ≤ u := by
  have hlive := ((aut.attachCopy cur ta).trans_live _ hedge).1
  rw [attachCopy_states] at hlive
  cases (hcopy.states s).mp hlive with
  | inl hold =>
      exact absurd (aut.states_lt s hold) (Nat.not_lt.mpr hs)
  | inr himage =>
      obtain ⟨t, ht, rfl⟩ := himage
      obtain ⟨v, hv, rfl⟩ := (attachCopy_delta_image hcopy hi hcur ht k u).mp hedge
      exact hcopy.above v (ta.trans_live _ hv).2

theorem attachCopy_silent_closed (hcopy : IsCopy ta aut (copyAutomaton ta aut) f)
    (hi : ∀ s, s ∈ ta.initial ↔ s = i) (hcur : ∀ s ∈ cur, s < aut.slots) {s u : TaState}
    (hs : aut.slots ≤ s) (hsilent : (aut.attachCopy cur ta).Silent s u) : aut.slots ≤ u := by
  induction hsilent with
  | refl => exact hs
  | tail _ hedge ih => exact attachCopy_closed hcopy hi hcur ih hedge

/-- The copy accepts from its start what `ta` accepts. -/
theorem attachCopy_acceptsFrom (hcopy : IsCopy ta aut (copyAutomaton ta aut) f)
    (hi : ∀ s, s ∈ ta.initial ↔ s = i) (hcur : ∀ s ∈ cur, s < aut.slots) :
    (aut.attachCopy cur ta).acceptsFrom (f i) = ta.accepts := by
  have hstart : (aut.attachCopy cur ta).acceptsFrom (f i) = ta.acceptsFrom i := by
    refine future_map (P := (· ∈ ta.states)) (fun _ _ _ _ hedge => (ta.trans_live _ hedge).2)
      (fun _ l q hs => attachCopy_delta_image hcopy hi hcur hs l q) ?_ (mem_of_initial hi)
    intro t ht
    rw [attachCopy_finals hcopy]
    constructor
    · exact fun h => Or.inr ⟨t, h, rfl⟩
    · intro h
      cases h with
      | inl h => exact absurd (aut.finals_live _ h.1) (hcopy.fresh t ht)
      | inr h =>
          obtain ⟨u, hu, heq⟩ := h
          exact hcopy.injective u (ta.finals_live u hu) t ht heq ▸ hu
  rw [hstart]
  ext w
  constructor
  · exact fun hw => ⟨i, (hi i).mpr rfl, hw⟩
  · intro hw
    obtain ⟨s, hs, hw⟩ := hw
    exact (hi s).mp hs ▸ hw

/-- A row of silent transitions from an old state stays there or enters the
copy at its start. -/
theorem attachCopy_silent_old (hcopy : IsCopy ta aut (copyAutomaton ta aut) f)
    (hi : ∀ s, s ∈ ta.initial ↔ s = i) (hvisible : aut.EpsilonFree) {s u : TaState}
    (hlt : s < aut.slots) :
    (aut.attachCopy cur ta).Silent s u ↔
      s = u ∨ (s ∈ cur ∧ s ∈ aut.states ∧ (aut.attachCopy cur ta).Silent (f i) u) := by
  constructor
  · intro hsilent
    cases Relation.ReflTransGen.cases_head hsilent with
    | inl heq => exact Or.inl heq
    | inr h =>
        obtain ⟨r, hedge, hrest⟩ := h
        cases (attachCopy_delta_old hcopy hi hlt _ _).mp hedge with
        | inl hold => exact absurd rfl (hvisible _ hold)
        | inr hlink => exact Or.inr ⟨hlink.1, hlink.2.1, hlink.2.2.2 ▸ hrest⟩
  · intro h
    rcases h with rfl | ⟨hs, hlive, hrest⟩
    · exact .refl
    · exact .head ((attachCopy_delta_old hcopy hi hlt _ _).mpr (Or.inr ⟨hs, hlive, rfl, rfl⟩))
        hrest

theorem attachCopy_visible_old (hcopy : IsCopy ta aut (copyAutomaton ta aut) f)
    (hi : ∀ s, s ∈ ta.initial ↔ s = i) (hvisible : aut.EpsilonFree) {s u : TaState} {k : Int}
    (hlt : s < aut.slots) :
    (aut.attachCopy cur ta).VisibleAfter s k u ↔
      aut.delta s k u ∨
        ((s ∈ cur ∧ s ∈ aut.states) ∧ (aut.attachCopy cur ta).VisibleAfter (f i) k u) := by
  constructor
  · intro h
    obtain ⟨hk, r, hsilent, hedge⟩ := h
    rcases (attachCopy_silent_old hcopy hi hvisible hlt).mp hsilent with rfl | ⟨hs, hlive, hrest⟩
    · cases (attachCopy_delta_old hcopy hi hlt _ _).mp hedge with
      | inl hold => exact Or.inl hold
      | inr hlink => exact absurd hlink.2.2.1 hk
    · exact Or.inr ⟨⟨hs, hlive⟩, hk, r, hrest, hedge⟩
  · intro h
    rcases h with hold | ⟨⟨hs, hlive⟩, hk, r, hrest, hedge⟩
    · exact ⟨hvisible _ hold, s, .refl, (attachCopy_delta_old hcopy hi hlt _ _).mpr (Or.inl hold)⟩
    · exact ⟨hk, r, (attachCopy_silent_old hcopy hi hvisible hlt).mpr (Or.inr ⟨hs, hlive, hrest⟩),
        hedge⟩

/-- **The copy attaches the language of `ta`.** -/
theorem attachCopy_attached (hi : ∀ s, s ∈ ta.initial ↔ s = i) (hvisible : aut.EpsilonFree)
    (hcur : ∀ s ∈ cur, s < aut.slots) :
    Attached aut cur (aut.attachCopy cur ta).removeEpsilon ta.accepts := by
  obtain ⟨f, hcopy⟩ := exists_isCopy ta aut
  have hfree := (aut.attachCopy cur ta).removeEpsilon_epsilonFree
  have hstart : aut.slots ≤ f i := hcopy.above i (mem_of_initial hi)
  have hclosed : ∀ x a z, aut.slots ≤ x →
      (aut.attachCopy cur ta).removeEpsilon.delta x a z → aut.slots ≤ z := by
    intro x a z hx hedge
    obtain ⟨-, r, hsilent, hlast⟩ := (removeEpsilon_delta _ x a z).mp hedge
    exact attachCopy_closed hcopy hi hcur
      (attachCopy_silent_closed hcopy hi hcur hx hsilent) hlast
  have hwords : (aut.attachCopy cur ta).removeEpsilon.acceptsFrom (f i) = ta.accepts := by
    rw [removeEpsilon_acceptsFrom, attachCopy_acceptsFrom hcopy hi hcur]
  constructor
  · rw [removeEpsilon_slots]
    simpa [attachCopy] using hcopy.slots_le
  · intro s hs
    rw [removeEpsilon_states, attachCopy_states]
    exact (hcopy.states s).mpr (Or.inl hs)
  · intro s hlt hs
    rw [removeEpsilon_states, attachCopy_states] at hs
    exact old_of_lt hcopy hs hlt
  · rw [removeEpsilon_initial]
    simpa [attachCopy] using hcopy.initial
  · exact hfree
  · refine ⟨(aut.attachCopy cur ta).removeEpsilon.delta (f i), ?_, ?_⟩
    · constructor
      · exact hclosed
      · intro x a z hx
        rw [removeEpsilon_delta, removeEpsilon_delta,
          attachCopy_visible_old hcopy hi hvisible (Nat.not_le.mp hx)]
      · intro x a z _ hedge
        exact Nat.not_le.mpr (aut.states_lt z (aut.trans_live _ hedge).2)
      · exact fun a z hedge => hclosed _ a z hstart hedge
      · intro x hx
        exact Nat.not_le.mpr (aut.states_lt x hx.2)
    · rw [wordsFrom_edges fun a z hedge => hfree _ hedge, ← hwords, acceptsFrom]
      congr 1
      refine future_congr (P := (aut.slots ≤ ·)) hclosed (fun _ _ _ _ => Iff.rfl) ?_ hstart
      intro y hy
      exact ⟨And.left, fun h => ⟨h, hy⟩⟩
  · intro s hlt
    have hnil : [] ∈ ta.accepts ↔ (aut.attachCopy cur ta).FinalAfter (f i) := by
      rw [← mem_removeEpsilon_finals, ← hwords]
      constructor
      · intro h
        rcases future_cases h with ⟨hfinal, -⟩ | ⟨a, z, hedge, hword⟩
        · exact hfinal
        · rw [letter_visible (hfree _ hedge)] at hword
          obtain ⟨u, rfl, v, -, huv⟩ := hword
          cases huv
      · exact fun h => one_le_future h rfl
    rw [mem_removeEpsilon_finals, hnil]
    constructor
    · intro h
      obtain ⟨q, hq, hsilent⟩ := h
      rcases (attachCopy_silent_old hcopy hi hvisible hlt).mp hsilent with rfl | ⟨hs, hlive, hrest⟩
      · rcases (attachCopy_finals hcopy).mp hq with hold | ⟨t, ht, rfl⟩
        · exact Or.inl hold
        · exact absurd hlt (Nat.not_lt.mpr (hcopy.above t (ta.finals_live t ht)))
      · exact Or.inr ⟨hs, hlive, q, hq, hrest⟩
    · intro h
      rcases h with hold | ⟨hs, hlive, q, hq, hrest⟩
      · exact ⟨s, (attachCopy_finals hcopy).mpr (Or.inl hold), .refl⟩
      · exact ⟨q, hq, (attachCopy_silent_old hcopy hi hvisible hlt).mpr
          (Or.inr ⟨hs, hlive, hrest⟩)⟩

end AttachCopy

end TraceAutomaton

/-! ## `copy_from_path_pattern` -/

/-- The general path: what `copy_from_path_pattern` does when it does not take
the short cut. -/
def CoverageState.attachSimplified (st : CoverageState) (ta : TraceAutomaton) : CoverageState :=
  let r := copyAutomaton ta st.testGoalAutomaton
  let linked := r.2.connectAll st.currentFinal epsilon (r.1.1.headD 0)
  -- previously set final states
  let exFinal := linked.states.filter linked.isFinal
  let aut := (linked.setFinalAll r.1.2).simplifyAutomaton false
  let currentFinal := aut.states.filter fun s => aut.isFinal s ∧ s ∉ exFinal
  CoverageState.recordFinal ⟨aut, currentFinal, st.allTestGoalStates⟩

theorem copyFromPathPattern_of_not_single {st : CoverageState} {ta : TraceAutomaton}
    (h : ¬ ta.isSingleEdge = true) : (st.copyFromPathPattern ta).2 = st.attachSimplified ta := by
  simp [CoverageState.copyFromPathPattern, h, CoverageState.attachSimplified]

/-- The copy is attached and dead states are deleted; the new current states
are the final states that were not final before. -/
theorem attachSimplified_spec {st : CoverageState} {ta : TraceAutomaton} {i : TaState}
    (hi : ∀ s, s ∈ ta.initial ↔ s = i) (hvisible : st.testGoalAutomaton.EpsilonFree)
    (hcur : ∀ s ∈ st.currentFinal, s < st.testGoalAutomaton.slots) :
    ∃ mid, Attached st.testGoalAutomaton st.currentFinal mid ta.accepts ∧
      Pruned mid (st.attachSimplified ta).testGoalAutomaton ∧
      ∀ s, s ∈ (st.attachSimplified ta).currentFinal ↔
        s ∈ (st.attachSimplified ta).testGoalAutomaton.finals ∧
          ¬ (s ∈ st.testGoalAutomaton.finals ∧ s ∉ st.currentFinal) := by
  have haut : (st.attachSimplified ta).testGoalAutomaton =
      (st.testGoalAutomaton.attachCopy st.currentFinal ta).simplifyAutomaton false := rfl
  rw [haut]
  refine ⟨_, attachCopy_attached hi hvisible hcur, simplifyAutomaton_pruned _, ?_⟩
  intro s
  have hcur' : s ∈ (st.attachSimplified ta).currentFinal ↔
      s ∈ ((st.testGoalAutomaton.attachCopy st.currentFinal ta).simplifyAutomaton false).finals ∧
        ¬ (s ∈ ((copyAutomaton ta st.testGoalAutomaton).2.connectAll st.currentFinal epsilon
          ((copyAutomaton ta st.testGoalAutomaton).1.1.headD 0)).finals) := by
    simp only [CoverageState.attachSimplified, attachCopy, CoverageState.recordFinal,
      List.mem_filter, isFinal_iff, decide_eq_true_eq]
    rw [← and_assoc, and_iff_right_of_imp (finals_live _ s), and_iff_right_of_imp (finals_live _ s)]
  obtain ⟨f, hcopy⟩ := exists_isCopy ta st.testGoalAutomaton
  rw [hcur', mem_connectAll_finals, hcopy.finals]

/-- A stored automaton that `copy_from_path_pattern` is written for: it has
one initial state, and one of the short cut leaves its first state on a
visible label. -/
def TraceAutomaton.Attachable (ta : TraceAutomaton) : Prop :=
  (∃ i, ta.initial = [i]) ∧ (ta.isSingleEdge → ta.firstLabel ≠ epsilon)

/-- **One atom.**  The automaton is attached and dead states are deleted; the
new current states are the final states that were not final before. -/
theorem copyFromPathPattern_spec {st : CoverageState} {ta : TraceAutomaton}
    (hta : ta.Attachable) (hvisible : st.testGoalAutomaton.EpsilonFree)
    (hcur : ∀ s ∈ st.currentFinal, s < st.testGoalAutomaton.slots) :
    ∃ mid, Attached st.testGoalAutomaton st.currentFinal mid ta.attachedWords ∧
      Pruned mid (st.copyFromPathPattern ta).2.testGoalAutomaton ∧
      ∀ s, s ∈ (st.copyFromPathPattern ta).2.currentFinal ↔
        s ∈ (st.copyFromPathPattern ta).2.testGoalAutomaton.finals ∧
          ¬ (s ∈ st.testGoalAutomaton.finals ∧ s ∉ st.currentFinal) := by
  obtain ⟨⟨i, hi⟩, hlabel⟩ := hta
  by_cases hsingle : ta.isSingleEdge
  · have hst : (st.copyFromPathPattern ta).2.testGoalAutomaton =
          st.testGoalAutomaton.attachEdge st.currentFinal ta.firstLabel ∧
        (st.copyFromPathPattern ta).2.currentFinal = [st.testGoalAutomaton.slots] := by
      simp [CoverageState.copyFromPathPattern, hsingle, attachEdge]
    rw [hst.1, hst.2, attachedWords, if_pos hsingle]
    refine ⟨_, attachEdge_attached hvisible (hlabel hsingle) hcur, Pruned.refl _, ?_⟩
    intro s
    rw [attachEdge_finals hcur, List.mem_singleton]
    constructor
    · intro h
      refine ⟨Or.inr h, ?_⟩
      intro hold
      exact st.testGoalAutomaton.slots_not_mem (st.testGoalAutomaton.finals_live _ (h ▸ hold.1))
    · intro h
      cases h.1 with
      | inl hold => exact absurd hold h.2
      | inr hnew => exact hnew
  · rw [copyFromPathPattern_of_not_single hsingle, attachedWords, if_neg hsingle]
    have hi' : ∀ s, s ∈ ta.initial ↔ s = i := by
      intro s
      rw [hi, List.mem_singleton]
    exact attachSimplified_spec hi' hvisible hcur

end FShell
