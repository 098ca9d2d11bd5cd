import FShell.Automata.Ends
import FShell.Concepts.SimplifyAutomaton

/-!
# The automata of the path pattern operators

What the visits of `Evaluate_Path_Pattern` build from the automata of the
operands (`ppAlternativeAutomaton`, `ppConcatAutomaton`, `repeatAutomaton`),
and the four languages at the ends of the result.

An alternative gets fresh end states.  A concatenation keeps the outer ends
of its operands.  A repetition is a row of copies; an optional or unbounded
one puts its shortcuts on the ends of the copy itself, so the loops that the
copy has there become words of the repetition (`repeatAutomaton_ends`).
-/

open scoped Computability

namespace FShell

open LabelledGraph TraceAutomaton

namespace TraceAutomaton

/-- The words at the ends of an automaton. -/
def ends (aut : TraceAutomaton) : Ends Int :=
  endsOf aut.delta epsilon (· ∈ aut.initial) (· ∈ aut.finals)

/-- The nested loops that set a silent transition from every state of `ss`
to every state of `ts`. -/
def linkAll (aut : TraceAutomaton) (ss ts : List TaState) : TraceAutomaton :=
  aut.setTransAll (ss.flatMap fun s => ts.map fun t => (s, epsilon, t))

end TraceAutomaton

/-- The automaton of an atom: an initial state, a final state and one
transition. -/
def atomAutomaton (currentAut : TraceAutomaton) (label : Int) : TraceAutomaton :=
  let (currentInitial, aut) := currentAut.newState
  let aut := aut.insertInitial currentInitial
  let (currentFinal, aut) := aut.newState
  let aut := aut.setFinal currentFinal
  aut.setTrans currentInitial label currentFinal

/-- The automaton of `PP_Alternative`. -/
def ppAlternativeAutomaton (a b currentAut : TraceAutomaton) : TraceAutomaton :=
  let (aInitFinal, aut) := copyAutomaton a currentAut
  let (bInitFinal, aut) := copyAutomaton b aut
  let (currentInitial, aut) := aut.newState
  let aut := aut.insertInitial currentInitial
  let (currentFinal, aut) := aut.newState
  let aut := aut.setFinal currentFinal
  let aut := aut.linkAll [currentInitial] aInitFinal.1
  let aut := aut.linkAll aInitFinal.2 [currentFinal]
  let aut := aut.linkAll [currentInitial] bInitFinal.1
  aut.linkAll bInitFinal.2 [currentFinal]

/-- The automaton of `PP_Concat`. -/
def ppConcatAutomaton (a b currentAut : TraceAutomaton) : TraceAutomaton :=
  let (aInitFinal, aut) := copyAutomaton a currentAut
  let (bInitFinal, aut) := copyAutomaton b aut
  let aut := aut.swapInitial aInitFinal.1
  let aut := aut.setFinalAll bInitFinal.2
  aut.linkAll aInitFinal.2 bInitFinal.1

/-- The variables of the loops of `visit(Repeat)`. -/
structure RepeatState where
  aut : TraceAutomaton
  initial : List TaState
  final : List TaState

/-- The shortcuts that a copy gets before it is appended: none, from its
initial to its final states, or both ways. -/
inductive Shortcut
  | none
  | forward
  | both

/-- The loops over `sub_init_final` that set the shortcuts. -/
def Shortcut.apply (shortcut : Shortcut) (aut : TraceAutomaton)
    (initFinal : List TaState × List TaState) : TraceAutomaton :=
  match shortcut with
  | .none => aut
  | .forward => aut.linkAll initFinal.1 initFinal.2
  | .both => (aut.linkAll initFinal.1 initFinal.2).linkAll initFinal.2 initFinal.1

/-- One more copy of the repeated automaton. -/
def appendCopy (sub : TraceAutomaton) (shortcut : Shortcut) (c : RepeatState) : RepeatState :=
  let (subInitFinal, aut) := copyAutomaton sub c.aut
  let aut := shortcut.apply aut subInitFinal
  if c.initial = [] then ⟨aut, subInitFinal.1, subInitFinal.2⟩
  else ⟨aut.linkAll c.final subInitFinal.1, c.initial, subInitFinal.2⟩

/-- `while (lb > 0)`; the upper bound counts down with the lower one. -/
def repeatLower (sub : TraceAutomaton) : Nat → Int → RepeatState → Int × RepeatState
  | 0, ub, c => (ub, c)
  | lb + 1, ub, c =>
      repeatLower sub lb (if ub ≠ -1 then ub - 1 else ub) (appendCopy sub .none c)

/-- `while (ub > 0)`. -/
def repeatUpper (sub : TraceAutomaton) : Nat → RepeatState → RepeatState
  | 0, c => c
  | ub + 1, c => repeatUpper sub ub (appendCopy sub .forward c)

/-- The automaton of `Repeat`. -/
def repeatAutomaton (sub : TraceAutomaton) (lb ub : Int) (currentAut : TraceAutomaton) :
    TraceAutomaton :=
  let (ub, c) := repeatLower sub lb.toNat ub ⟨currentAut, [], []⟩
  let c := if ub = -1 then appendCopy sub .both c else repeatUpper sub ub.toNat c
  (c.aut.swapInitial c.initial).setFinalAll c.final

/-! ## The ends of the constructed automata -/

namespace TraceAutomaton

variable {aut : TraceAutomaton} {ss ts : List TaState}

/-- The words through the ends are the accepted ones. -/
theorem ends_through (aut : TraceAutomaton) : aut.ends.through = aut.accepts := rfl

/-- An automaton that accepts some word has an initial and a final state. -/
theorem exists_initial_final {w : List Int} (hw : w ∈ aut.accepts) :
    (∃ s, s ∈ aut.initial) ∧ ∃ f, f ∈ aut.finals := by
  obtain ⟨s, hs, f, _, hf, _⟩ := hw
  exact ⟨⟨s, hs⟩, ⟨f, hf⟩⟩

/-- Links add no state. -/
@[simp] theorem linkAll_states : (aut.linkAll ss ts).states = aut.states :=
  setTransAll_states _ aut
/-- Links take no slot. -/
@[simp] theorem linkAll_slots : (aut.linkAll ss ts).slots = aut.slots :=
  setTransAll_slots _ aut
/-- Links change no initial state. -/
@[simp] theorem linkAll_initial : (aut.linkAll ss ts).initial = aut.initial :=
  setTransAll_initial _ aut
/-- Links change no final flag. -/
@[simp] theorem linkAll_finals : (aut.linkAll ss ts).finals = aut.finals :=
  setTransAll_finals _ aut

/-- Linking live states builds the silent edges between them. -/
theorem linkAll_delta (hss : ∀ s ∈ ss, s ∈ aut.states) (hts : ∀ t ∈ ts, t ∈ aut.states) :
    (aut.linkAll ss ts).delta = bridge aut.delta epsilon (· ∈ ss) (· ∈ ts) := by
  funext s l t
  simp only [delta, linkAll, mem_setTransAll, bridge, List.mem_flatMap, List.mem_map,
    eq_iff_iff]
  refine or_congr_right ?_
  constructor
  · intro h
    obtain ⟨⟨s', hs', t', ht', heq⟩, _⟩ := h
    simp only [Prod.mk.injEq] at heq
    obtain ⟨rfl, rfl, rfl⟩ := heq
    exact ⟨hs', rfl, ht'⟩
  · intro h
    obtain ⟨hs, hl, ht⟩ := h
    exact ⟨⟨s, hs, t, ht, by rw [hl]⟩, hss s hs, hts t ht⟩

end TraceAutomaton

namespace IsCopy

variable {src dest : TraceAutomaton}
  {r : (List TaState × List TaState) × TraceAutomaton} {f : TaState → TaState}
  {A B : TaState → Prop}

/-- Between images there are the words of the source. -/
theorem words_image (h : IsCopy src dest r f) {A' B' : TaState → Prop}
    (hAlive : ∀ s, A s → s ∈ src.states) (hBlive : ∀ s, B s → s ∈ src.states)
    (hA : ∀ q, A' q ↔ ∃ s, A s ∧ f s = q) (hB : ∀ q, B' q ↔ ∃ s, B s ∧ f s = q) :
    words r.2.delta epsilon A' B' = words src.delta epsilon A B := by
  have htarget : ∀ t ∈ src.states, (B t ↔ B' (f t)) := by
    intro t ht
    rw [hB]
    constructor
    · exact fun hBt => ⟨t, hBt, rfl⟩
    · intro ⟨u, hu, heq⟩
      exact h.injective u (hBlive u hu) t ht heq ▸ hu
  apply le_antisymm
  · refine words_le fun q hq => ?_
    obtain ⟨s, hs, rfl⟩ := (hA q).mp hq
    rw [h.future_image htarget (hAlive s hs)]
    exact future_le_words hs
  · refine words_le fun s hs => ?_
    rw [← h.future_image htarget (hAlive s hs)]
    exact future_le_words ((hA _).mpr ⟨s, hs, rfl⟩)

/-- Copying leaves the words of the old part alone. -/
theorem words_old (h : IsCopy src dest r f) (hA : ∀ s, A s → s ∈ dest.states) :
    words r.2.delta epsilon A B = words dest.delta epsilon A B := by
  apply le_antisymm
  · exact words_le fun s hs => (h.future_old B (hA s hs)).le.trans (future_le_words hs)
  · exact words_le fun s hs => (h.future_old B (hA s hs)).ge.trans (future_le_words hs)

/-- No walk leads from the old states into the copy. -/
theorem words_old_image (h : IsCopy src dest r f) (hA : ∀ s, A s → s ∈ dest.states)
    (hB : ∀ q, B q → ∃ t ∈ src.states, f t = q) : words r.2.delta epsilon A B = 0 :=
  words_eq_zero fun s hs => h.future_old_image (hA s hs) hB

/-- No walk leads from the copy into the old states. -/
theorem words_image_old (h : IsCopy src dest r f)
    (hA : ∀ q, A q → ∃ s ∈ src.states, f s = q) (hB : ∀ q, B q → q ∈ dest.states) :
    words r.2.delta epsilon A B = 0 := by
  refine words_eq_zero fun q hq => ?_
  obtain ⟨s, hs, rfl⟩ := hA q hq
  exact h.future_image_old hs hB

end IsCopy

/-- A part of an automaton between two sets of live states. -/
structure Fragment (aut : TraceAutomaton) (I F : List TaState) (e : Ends Int) : Prop where
  entry_live : ∀ s ∈ I, s ∈ aut.states
  exit_live : ∀ s ∈ F, s ∈ aut.states
  ends_eq : endsOf aut.delta epsilon (· ∈ I) (· ∈ F) = e

/-- What a copy adds: a fragment with the ends of the source, apart from all
older fragments, which stay as they are. -/
structure CopySpec (src dest : TraceAutomaton)
    (r : (List TaState × List TaState) × TraceAutomaton) : Prop where
  new : Fragment r.2 r.1.1 r.1.2 src.ends
  states : ∀ s ∈ dest.states, s ∈ r.2.states
  initial : r.2.initial = dest.initial
  finals : r.2.finals = dest.finals
  nonempty : (∃ s, s ∈ src.initial) → r.1.1 ≠ []
  old : ∀ I F e, Fragment dest I F e → Fragment r.2 I F e
  old_new : ∀ A B : List TaState, (∀ s ∈ A, s ∈ dest.states) → (∀ s ∈ B, s ∈ r.1.1 ∨ s ∈ r.1.2) →
    words r.2.delta epsilon (· ∈ A) (· ∈ B) = 0
  new_old : ∀ A B : List TaState, (∀ s ∈ A, s ∈ r.1.1 ∨ s ∈ r.1.2) → (∀ s ∈ B, s ∈ dest.states) →
    words r.2.delta epsilon (· ∈ A) (· ∈ B) = 0

/-- What a copy is, as one structure. -/
theorem copyAutomaton_spec (src dest : TraceAutomaton) :
    CopySpec src dest (copyAutomaton src dest) := by
  obtain ⟨f, hf⟩ := exists_isCopy src dest
  have hinit : ∀ q, q ∈ (copyAutomaton src dest).1.1 ↔ ∃ s, s ∈ src.initial ∧ f s = q := hf.init
  have hfinal : ∀ q, q ∈ (copyAutomaton src dest).1.2 ↔ ∃ s, s ∈ src.finals ∧ f s = q := hf.final
  have hends : ∀ q, q ∈ (copyAutomaton src dest).1.1 ∨ q ∈ (copyAutomaton src dest).1.2 →
      ∃ s ∈ src.states, f s = q := by
    intro q hq
    rcases hq with hq | hq
    · obtain ⟨s, hs, heq⟩ := (hinit q).mp hq
      exact ⟨s, src.initial_live s hs, heq⟩
    · obtain ⟨s, hs, heq⟩ := (hfinal q).mp hq
      exact ⟨s, src.finals_live s hs, heq⟩
  have hlive : ∀ q, (∃ s ∈ src.states, f s = q) → q ∈ (copyAutomaton src dest).2.states :=
    fun q hq => (hf.states q).mpr (Or.inr hq)
  constructor
  · constructor
    · exact fun q hq => hlive q (hends q (Or.inl hq))
    · exact fun q hq => hlive q (hends q (Or.inr hq))
    · ext1
      · exact hf.words_image src.initial_live src.initial_live hinit hinit
      · exact hf.words_image src.initial_live src.finals_live hinit hfinal
      · exact hf.words_image src.finals_live src.initial_live hfinal hinit
      · exact hf.words_image src.finals_live src.finals_live hfinal hfinal
  · exact fun s hs => (hf.states s).mpr (Or.inl hs)
  · exact hf.initial
  · exact hf.finals
  · intro ⟨s, hs⟩ hnil
    have hmem := (hinit (f s)).mpr ⟨s, hs, rfl⟩
    rw [hnil] at hmem
    exact List.not_mem_nil hmem
  · intro I F e h
    constructor
    · exact fun s hs => (hf.states s).mpr (Or.inl (h.entry_live s hs))
    · exact fun s hs => (hf.states s).mpr (Or.inl (h.exit_live s hs))
    · rw [← h.ends_eq]
      ext1
      · exact hf.words_old h.entry_live
      · exact hf.words_old h.entry_live
      · exact hf.words_old h.exit_live
      · exact hf.words_old h.exit_live
  · intro A B hA hB
    exact hf.words_old_image hA fun q hq => hends q (hB q hq)
  · intro A B hA hB
    exact hf.words_image_old (fun q hq => hends q (hA q hq)) hB

/-- Shortcuts within a fragment. -/
def Shortcut.glued (shortcut : Shortcut) (e : Ends Int) : Ends Int :=
  match shortcut with
  | .none => e
  | .forward => e.glue
  | .both => e.glue.glueBack

/-- A shortcut adds no state. -/
@[simp] theorem Shortcut.apply_states (shortcut : Shortcut) (aut : TraceAutomaton)
    (initFinal : List TaState × List TaState) :
    (shortcut.apply aut initFinal).states = aut.states := by
  cases shortcut with
  | none => rfl
  | forward => exact linkAll_states
  | both => exact linkAll_states.trans linkAll_states

/-- A shortcut changes no initial state. -/
@[simp] theorem Shortcut.apply_initial (shortcut : Shortcut) (aut : TraceAutomaton)
    (initFinal : List TaState × List TaState) :
    (shortcut.apply aut initFinal).initial = aut.initial := by
  cases shortcut with
  | none => rfl
  | forward => exact linkAll_initial
  | both => exact linkAll_initial.trans linkAll_initial

/-- A shortcut changes no final flag. -/
@[simp] theorem Shortcut.apply_finals (shortcut : Shortcut) (aut : TraceAutomaton)
    (initFinal : List TaState × List TaState) :
    (shortcut.apply aut initFinal).finals = aut.finals := by
  cases shortcut with
  | none => rfl
  | forward => exact linkAll_finals
  | both => exact linkAll_finals.trans linkAll_finals

/-- A shortcut glues the ends of a fragment. -/
theorem Shortcut.apply_fragment (shortcut : Shortcut) {aut : TraceAutomaton}
    {initFinal : List TaState × List TaState} {e : Ends Int}
    (h : Fragment aut initFinal.1 initFinal.2 e) :
    Fragment (shortcut.apply aut initFinal) initFinal.1 initFinal.2 (shortcut.glued e) := by
  have hforward : Fragment (aut.linkAll initFinal.1 initFinal.2) initFinal.1 initFinal.2
      e.glue := by
    refine ⟨?_, ?_, ?_⟩
    · simpa using h.entry_live
    · simpa using h.exit_live
    · rw [linkAll_delta h.entry_live h.exit_live, endsOf_glue, h.ends_eq]
  cases shortcut with
  | none => exact h
  | forward => exact hforward
  | both =>
      refine ⟨?_, ?_, ?_⟩
      · simpa [Shortcut.apply] using h.entry_live
      · simpa [Shortcut.apply] using h.exit_live
      · rw [Shortcut.apply, linkAll_delta hforward.exit_live hforward.entry_live,
          endsOf_glueBack, hforward.ends_eq, Shortcut.glued]

/-- Shortcuts leave unrelated words alone: no word leads from `A` to the ends
of the fragment, or none leads from there to `B`. -/
theorem Shortcut.apply_words (shortcut : Shortcut) {aut : TraceAutomaton}
    {initFinal : List TaState × List TaState} {e : Ends Int}
    (h : Fragment aut initFinal.1 initFinal.2 e) {A B : TaState → Prop}
    (hzero : (words aut.delta epsilon A (· ∈ initFinal.1) = 0 ∧
        words aut.delta epsilon A (· ∈ initFinal.2) = 0) ∨
      (words aut.delta epsilon (· ∈ initFinal.1) B = 0 ∧
        words aut.delta epsilon (· ∈ initFinal.2) B = 0)) :
    words (shortcut.apply aut initFinal).delta epsilon A B = words aut.delta epsilon A B := by
  have hforward : ∀ A B : TaState → Prop,
      words aut.delta epsilon A (· ∈ initFinal.1) = 0 ∨
        words aut.delta epsilon (· ∈ initFinal.2) B = 0 →
      words (aut.linkAll initFinal.1 initFinal.2).delta epsilon A B =
        words aut.delta epsilon A B := by
    intro A B hAB
    rw [linkAll_delta h.entry_live h.exit_live]
    rcases hAB with hA | hB
    · exact words_bridge_of_left _ _ _ hA
    · exact words_bridge_of_right _ _ _ hB
  cases shortcut with
  | none => rfl
  | forward => exact hforward A B (hzero.imp And.left And.right)
  | both =>
      have hlive : ∀ s ∈ initFinal.2, s ∈ (aut.linkAll initFinal.1 initFinal.2).states := by
        simpa using h.exit_live
      have hlive' : ∀ s ∈ initFinal.1, s ∈ (aut.linkAll initFinal.1 initFinal.2).states := by
        simpa using h.entry_live
      rw [Shortcut.apply, linkAll_delta hlive hlive']
      rcases hzero with ⟨hI, hF⟩ | ⟨hI, hF⟩
      · rw [words_bridge_of_left _ _ _ ((hforward A _ (Or.inl hI)).trans hF)]
        exact hforward A B (Or.inl hI)
      · rw [words_bridge_of_right _ _ _ ((hforward _ B (Or.inr hF)).trans hI)]
        exact hforward A B (Or.inr hF)

/-! ## The ends of the operators -/

/-- The automaton of an atom has one transition. -/
theorem atomAutomaton_trans (label : Int) :
    (atomAutomaton TraceAutomaton.empty label).trans = [(1, label, 2)] := rfl
/-- It starts in its first state. -/
theorem atomAutomaton_initial (label : Int) :
    (atomAutomaton TraceAutomaton.empty label).initial = [1] := rfl
/-- It ends in its second state. -/
theorem atomAutomaton_finals (label : Int) :
    (atomAutomaton TraceAutomaton.empty label).finals = [2] := rfl

/-- An atom accepts its label. -/
theorem atomAutomaton_ends {label : Int} (hlabel : label ≠ epsilon) :
    (atomAutomaton TraceAutomaton.empty label).ends = Ends.plain {[label]} := by
  have hdelta : ∀ s l t, (atomAutomaton TraceAutomaton.empty label).delta s l t ↔
      s = 1 ∧ l = label ∧ t = 2 := by
    intro s l t
    simp [delta, atomAutomaton_trans]
  have hstuck : ∀ a z, ¬ (atomAutomaton TraceAutomaton.empty label).delta 2 a z := by
    intro a z hedge
    exact absurd ((hdelta 2 a z).mp hedge).1 (by decide)
  have hexit : future (atomAutomaton TraceAutomaton.empty label).delta epsilon (· = 2) 2 = 1 :=
    future_stuck_target hstuck rfl
  have hback : future (atomAutomaton TraceAutomaton.empty label).delta epsilon (· = 1) 2 = 0 :=
    future_stuck hstuck (by decide)
  have hthrough : future (atomAutomaton TraceAutomaton.empty label).delta epsilon (· = 2) 1 =
      {[label]} := by
    have hword : letter epsilon label *
        future (atomAutomaton TraceAutomaton.empty label).delta epsilon (· = 2) 2 = {[label]} := by
      rw [hexit, mul_one, letter_visible hlabel]
    apply le_antisymm
    · intro w hw
      rcases future_cases hw with ⟨hF, _⟩ | ⟨a, z, hedge, hw⟩
      · exact absurd hF (by decide)
      · obtain ⟨_, rfl, rfl⟩ := (hdelta 1 a z).mp hedge
        exact hword.le hw
    · exact hword.ge.trans (letter_mul_future_le ((hdelta 1 label 2).mpr ⟨rfl, rfl, rfl⟩))
  have hentry : future (atomAutomaton TraceAutomaton.empty label).delta epsilon (· = 1) 1 = 1 := by
    refine le_antisymm ?_ (one_le_future rfl)
    intro w hw
    rcases future_cases hw with ⟨_, rfl⟩ | ⟨a, z, hedge, hw⟩
    · exact Language.nil_mem_one
    · obtain ⟨_, _, rfl⟩ := (hdelta 1 a z).mp hedge
      rw [hback, mul_zero] at hw
      exact hw.elim
  unfold TraceAutomaton.ends
  rw [atomAutomaton_initial, atomAutomaton_finals]
  simp only [endsOf, List.mem_singleton, words_single, hthrough, hback, hentry, hexit, Ends.plain]

/-- An alternative has one initial state, the first of the two fresh ones. -/
theorem mem_ppAlternativeAutomaton_initial (a b : TraceAutomaton) {s : TaState} :
    s ∈ (ppAlternativeAutomaton a b TraceAutomaton.empty).initial ↔
      s = (copyAutomaton b (copyAutomaton a TraceAutomaton.empty).2).2.slots := by
  have hA := (copyAutomaton_spec a TraceAutomaton.empty).initial
  have hB := (copyAutomaton_spec b (copyAutomaton a TraceAutomaton.empty).2).initial
  have hnone : (copyAutomaton b (copyAutomaton a TraceAutomaton.empty).2).2.initial = [] :=
    hB.trans hA
  simp only [ppAlternativeAutomaton, linkAll_initial, setFinal_initial, newState_initial,
    insertInitial, mem_swapInitial, List.mem_insert_iff, hnone, List.not_mem_nil, or_false,
    newState_states, newState_fst, List.mem_append, List.mem_singleton]
  exact and_iff_left_of_imp Or.inr

/-- A concatenation has the initial states of its first operand. -/
theorem mem_ppConcatAutomaton_initial (a b : TraceAutomaton) {s : TaState} :
    s ∈ (ppConcatAutomaton a b TraceAutomaton.empty).initial ↔
      s ∈ (copyAutomaton a TraceAutomaton.empty).1.1 := by
  have hA := (copyAutomaton_spec a TraceAutomaton.empty).new.entry_live
  have hB := (copyAutomaton_spec b (copyAutomaton a TraceAutomaton.empty).2).states
  simp only [ppConcatAutomaton]
  rw [linkAll_initial, setFinalAll_initial, mem_swapInitial]
  exact and_iff_left_of_imp fun hs => hB s (hA s hs)

/-- **Alternatives** have fresh ends. -/
theorem ppAlternativeAutomaton_ends (a b : TraceAutomaton) :
    (ppAlternativeAutomaton a b TraceAutomaton.empty).ends =
      Ends.plain (a.accepts + b.accepts) := by
  have hA := copyAutomaton_spec a TraceAutomaton.empty
  have hB := copyAutomaton_spec b (copyAutomaton a TraceAutomaton.empty).2
  obtain ⟨rA, hrA⟩ : ∃ r, r = copyAutomaton a TraceAutomaton.empty := ⟨_, rfl⟩
  obtain ⟨rB, hrB⟩ : ∃ r, r = copyAutomaton b rA.2 := ⟨_, rfl⟩
  rw [← hrA] at hA hB
  rw [← hrB] at hB
  have hfirst : Fragment rB.2 rA.1.1 rA.1.2 a.ends := hB.old _ _ _ hA.new
  have hsecond : Fragment rB.2 rB.1.1 rB.1.2 b.ends := hB.new
  -- the two fresh states have numbers that no state of the copies has
  obtain ⟨i, hi⟩ : ∃ i, i = rB.2.slots := ⟨_, rfl⟩
  obtain ⟨f, hf⟩ : ∃ f, f = rB.2.slots + 1 := ⟨_, rfl⟩
  have hidead : i ∉ rB.2.states := hi ▸ rB.2.slots_not_mem
  have hfdead : f ∉ rB.2.states := by
    intro h
    exact absurd (rB.2.states_lt f h) (Nat.not_lt.mpr (hf ▸ Nat.le_succ _))
  have hne : i ≠ f := by omega
  obtain ⟨aut, haut⟩ : ∃ aut, aut =
      ((rB.2.newState.2.insertInitial i).newState.2.setFinal f) := ⟨_, rfl⟩
  have hstates : ∀ s, s ∈ aut.states ↔ s ∈ rB.2.states ∨ s = i ∨ s = f := by
    intro s
    simp [haut, hi, hf]
  have hnewDelta : aut.delta = rB.2.delta := by
    apply delta_eq_of_trans
    simp [haut]
  have haut0 : ppAlternativeAutomaton a b TraceAutomaton.empty =
      (((aut.linkAll [i] rA.1.1).linkAll rA.1.2 [f]).linkAll [i] rB.1.1).linkAll rB.1.2 [f] := by
    simp only [ppAlternativeAutomaton, ← hrA, ← hrB, haut, hi, hf, newState_fst,
      insertInitial_slots, newState_slots]
  have hlive : ∀ s, (s ∈ rA.1.1 ∨ s ∈ rA.1.2) ∨ (s ∈ rB.1.1 ∨ s ∈ rB.1.2) ∨ s ∈ [i] ∨ s ∈ [f] →
      s ∈ aut.states := by
    intro s hs
    rw [hstates]
    rcases hs with (hs | hs) | (hs | hs) | hs | hs
    · exact Or.inl (hfirst.entry_live s hs)
    · exact Or.inl (hfirst.exit_live s hs)
    · exact Or.inl (hsecond.entry_live s hs)
    · exact Or.inl (hsecond.exit_live s hs)
    · exact Or.inr (Or.inl (List.mem_singleton.mp hs))
    · exact Or.inr (Or.inr (List.mem_singleton.mp hs))
  have hdelta : (ppAlternativeAutomaton a b TraceAutomaton.empty).delta =
      bridge (bridge rB.2.delta epsilon (· = i) (fun s => s ∈ rA.1.1 ∨ s ∈ rB.1.1)) epsilon
        (fun s => s ∈ rA.1.2 ∨ s ∈ rB.1.2) (· = f) := by
    rw [haut0, linkAll_delta, linkAll_delta, linkAll_delta, linkAll_delta, hnewDelta]
    · funext s l t
      simp only [bridge, List.mem_singleton, eq_iff_iff]
      grind
    all_goals
      intro s hs
      simpa using hlive s (by tauto)
  have hempty : rB.2.finals = [] := by
    rw [hB.finals, hA.finals]
    rfl
  have hinitial : ∀ s, s ∈ (ppAlternativeAutomaton a b TraceAutomaton.empty).initial ↔ s = i := by
    intro s
    rw [mem_ppAlternativeAutomaton_initial, ← hrA, ← hrB, hi]
  have hfinals : ∀ s, s ∈ (ppAlternativeAutomaton a b TraceAutomaton.empty).finals ↔ s = f := by
    intro s
    simp only [haut0, linkAll_finals, haut, mem_setFinal, newState_finals,
      insertInitial_finals, hempty, List.not_mem_nil, false_or, newState_states,
      insertInitial_states, insertInitial_slots, newState_slots, List.mem_append,
      List.mem_singleton]
    exact and_iff_left_of_imp fun _ => Or.inr hf
  have hedgeLive : ∀ s l t, rB.2.delta s l t → s ∈ rB.2.states ∧ t ∈ rB.2.states :=
    fun s l t hedge => rB.2.trans_live _ hedge
  have hends : (ppAlternativeAutomaton a b TraceAutomaton.empty).ends =
      Ends.plain (words rB.2.delta epsilon (fun s => s ∈ rA.1.1 ∨ s ∈ rB.1.1)
        (fun s => s ∈ rA.1.2 ∨ s ∈ rB.1.2)) := by
    unfold TraceAutomaton.ends
    rw [hdelta]
    simp only [hinitial, hfinals]
    apply endsOf_fresh _ _ hne
    · exact fun s l hedge => hidead (hedgeLive s l i hedge).2
    · exact fun l t hedge => hidead (hedgeLive i l t hedge).1
    · exact fun s l hedge => hfdead (hedgeLive s l f hedge).2
    · exact fun l t hedge => hfdead (hedgeLive f l t hedge).1
    · exact fun h => hidead (h.elim (hfirst.entry_live i) (hsecond.entry_live i))
    · exact fun h => hfdead (h.elim (hfirst.entry_live f) (hsecond.entry_live f))
    · exact fun h => hidead (h.elim (hfirst.exit_live i) (hsecond.exit_live i))
    · exact fun h => hfdead (h.elim (hfirst.exit_live f) (hsecond.exit_live f))
  have hA' : words rB.2.delta epsilon (· ∈ rA.1.1) (· ∈ rA.1.2) = a.accepts :=
    congrArg Ends.through hfirst.ends_eq
  have hB' : words rB.2.delta epsilon (· ∈ rB.1.1) (· ∈ rB.1.2) = b.accepts :=
    congrArg Ends.through hsecond.ends_eq
  have hAB : words rB.2.delta epsilon (· ∈ rA.1.1) (· ∈ rB.1.2) = 0 :=
    hB.old_new _ _ hA.new.entry_live fun s hs => Or.inr hs
  have hBA : words rB.2.delta epsilon (· ∈ rB.1.1) (· ∈ rA.1.2) = 0 :=
    hB.new_old _ _ (fun s hs => Or.inl hs) hA.new.exit_live
  rw [hends, words_or_left, words_or_right, words_or_right, hA', hB', hAB, hBA, add_zero, zero_add]

/-- **Concatenations** keep the outer ends of their operands. -/
theorem ppConcatAutomaton_ends (a b : TraceAutomaton) :
    (ppConcatAutomaton a b TraceAutomaton.empty).ends = a.ends.seq b.ends := by
  have hA := copyAutomaton_spec a TraceAutomaton.empty
  have hB := copyAutomaton_spec b (copyAutomaton a TraceAutomaton.empty).2
  obtain ⟨rA, hrA⟩ : ∃ r, r = copyAutomaton a TraceAutomaton.empty := ⟨_, rfl⟩
  obtain ⟨rB, hrB⟩ : ∃ r, r = copyAutomaton b rA.2 := ⟨_, rfl⟩
  rw [← hrA] at hA hB
  rw [← hrB] at hB
  have hfirst : Fragment rB.2 rA.1.1 rA.1.2 a.ends := hB.old _ _ _ hA.new
  have hsecond : Fragment rB.2 rB.1.1 rB.1.2 b.ends := hB.new
  have hdelta : (ppConcatAutomaton a b TraceAutomaton.empty).delta =
      bridge rB.2.delta epsilon (· ∈ rA.1.2) (· ∈ rB.1.1) := by
    simp only [ppConcatAutomaton, ← hrA, ← hrB]
    rw [linkAll_delta (by simpa using hfirst.exit_live) (by simpa using hsecond.entry_live)]
    exact congrArg (fun d => bridge d epsilon (· ∈ rA.1.2) (· ∈ rB.1.1))
      (delta_eq_of_trans (by rw [setFinalAll_trans, swapInitial_trans]))
  have hinitial : ∀ s, s ∈ (ppConcatAutomaton a b TraceAutomaton.empty).initial ↔ s ∈ rA.1.1 := by
    intro s
    rw [mem_ppConcatAutomaton_initial, ← hrA]
  have hfinals : ∀ s, s ∈ (ppConcatAutomaton a b TraceAutomaton.empty).finals ↔ s ∈ rB.1.2 := by
    intro s
    simp only [ppConcatAutomaton, ← hrA, ← hrB]
    rw [linkAll_finals, mem_setFinalAll, swapInitial_finals, hB.finals, hA.finals]
    simp only [TraceAutomaton.empty, List.not_mem_nil, false_or, swapInitial_states]
    exact and_iff_left_of_imp (hsecond.exit_live s)
  have hends : (ppConcatAutomaton a b TraceAutomaton.empty).ends =
      endsOf (bridge rB.2.delta epsilon (· ∈ rA.1.2) (· ∈ rB.1.1)) epsilon (· ∈ rA.1.1)
        (· ∈ rB.1.2) := by
    unfold TraceAutomaton.ends
    rw [hdelta]
    simp only [hinitial, hfinals]
  rw [hends, endsOf_seq, hfirst.ends_eq, hsecond.ends_eq]
  · exact hB.old_new _ _ hA.new.entry_live fun s hs => Or.inr hs
  · exact hB.new_old _ _ (fun s hs => Or.inl hs) hA.new.entry_live
  · exact hB.new_old _ _ (fun s hs => Or.inl hs) hA.new.exit_live
  · exact hB.new_old _ _ (fun s hs => Or.inr hs) hA.new.entry_live
  · exact hB.new_old _ _ (fun s hs => Or.inr hs) hA.new.exit_live

/-! ## Repetitions -/

/-- The fragments of a row of copies. -/
def repeatRow (e : Ends Int) (lb ub : Int) : List (Ends Int) :=
  List.replicate lb.toNat e ++
    if ub = -1 then [e.glue.glueBack] else List.replicate (ub - lb).toNat e.glue

/-- A row of linked fragments; no fragment, no word. -/
def rowEnds : List (Ends Int) → Ends Int
  | [] => ⟨0, 0, 0, 0⟩
  | e :: es => e.chain es

/-- One more copy behind a row. -/
theorem rowEnds_concat {row : List (Ends Int)} (hrow : row ≠ []) (e : Ends Int) :
    rowEnds (row ++ [e]) = (rowEnds row).seq e := by
  cases row with
  | nil => exact absurd rfl hrow
  | cons d ds => exact d.chain_concat e ds

/-- The row that has been built so far. -/
structure RepeatInv (c : RepeatState) (row : List (Ends Int)) : Prop where
  fragment : Fragment c.aut c.initial c.final (rowEnds row)
  started : c.initial = [] ↔ row = []
  no_initial : c.aut.initial = []
  no_finals : c.aut.finals = []

/-- The loop starts with no copy. -/
theorem RepeatInv.start : RepeatInv ⟨TraceAutomaton.empty, [], []⟩ [] := by
  have hnone : words TraceAutomaton.empty.delta epsilon (· ∈ ([] : List TaState))
      (· ∈ ([] : List TaState)) = 0 :=
    words_eq_zero fun s hs => absurd hs List.not_mem_nil
  refine ⟨⟨?_, ?_, ?_⟩, Iff.intro (fun _ => rfl) (fun _ => rfl), rfl, rfl⟩
  · exact fun s hs => absurd hs List.not_mem_nil
  · exact fun s hs => absurd hs List.not_mem_nil
  · ext1 <;> exact hnone

/-- **One copy more.** -/
theorem RepeatInv.append {sub : TraceAutomaton} {c : RepeatState} {row : List (Ends Int)}
    (hsub : ∃ s, s ∈ sub.initial) (h : RepeatInv c row) (shortcut : Shortcut) :
    RepeatInv (appendCopy sub shortcut c) (row ++ [shortcut.glued sub.ends]) := by
  have hcopy := copyAutomaton_spec sub c.aut
  obtain ⟨r, hr⟩ : ∃ r, r = copyAutomaton sub c.aut := ⟨_, rfl⟩
  rw [← hr] at hcopy
  have hnew := shortcut.apply_fragment hcopy.new
  have hold : Fragment r.2 c.initial c.final (rowEnds row) := hcopy.old _ _ _ h.fragment
  -- no word leads from the row into the copy or back, with the shortcuts or without
  have hout : ∀ A : List TaState, (∀ s ∈ A, s ∈ c.aut.states) → ∀ B : TaState → Prop,
      words (shortcut.apply r.2 r.1).delta epsilon (· ∈ A) B =
        words r.2.delta epsilon (· ∈ A) B := by
    intro A hA B
    exact shortcut.apply_words hcopy.new (Or.inl
      ⟨hcopy.old_new A _ hA fun s hs => Or.inl hs, hcopy.old_new A _ hA fun s hs => Or.inr hs⟩)
  have hback : ∀ B : List TaState, (∀ s ∈ B, s ∈ c.aut.states) → ∀ A : TaState → Prop,
      words (shortcut.apply r.2 r.1).delta epsilon A (· ∈ B) =
        words r.2.delta epsilon A (· ∈ B) := by
    intro B hB A
    exact shortcut.apply_words hcopy.new (Or.inr
      ⟨hcopy.new_old _ B (fun s hs => Or.inl hs) hB, hcopy.new_old _ B (fun s hs => Or.inr hs) hB⟩)
  have hrow : Fragment (shortcut.apply r.2 r.1) c.initial c.final (rowEnds row) := by
    refine ⟨?_, ?_, ?_⟩
    · simpa using hold.entry_live
    · simpa using hold.exit_live
    · rw [← hold.ends_eq]
      ext1
      · exact hout _ h.fragment.entry_live _
      · exact hout _ h.fragment.entry_live _
      · exact hout _ h.fragment.exit_live _
      · exact hout _ h.fragment.exit_live _
  have hnonempty : r.1.1 ≠ [] := hcopy.nonempty hsub
  by_cases hstart : c.initial = []
  · have hrowNil : row = [] := h.started.mp hstart
    have happend : appendCopy sub shortcut c = ⟨shortcut.apply r.2 r.1, r.1.1, r.1.2⟩ := by
      simp only [appendCopy, ← hr, if_pos hstart]
    rw [happend, hrowNil]
    refine ⟨hnew, ?_, ?_, ?_⟩
    · simp [hnonempty]
    · simpa [hcopy.initial] using h.no_initial
    · simpa [hcopy.finals] using h.no_finals
  · have hrowCons : row ≠ [] := fun hrow => hstart (h.started.mpr hrow)
    have happend : appendCopy sub shortcut c =
        ⟨(shortcut.apply r.2 r.1).linkAll c.final r.1.1, c.initial, r.1.2⟩ := by
      simp only [appendCopy, ← hr, if_neg hstart]
    rw [happend]
    refine ⟨⟨?_, ?_, ?_⟩, ?_, ?_, ?_⟩
    · simpa using hrow.entry_live
    · simpa using hnew.exit_live
    · rw [linkAll_delta hrow.exit_live hnew.entry_live, endsOf_seq, hrow.ends_eq, hnew.ends_eq,
        rowEnds_concat hrowCons]
      · rw [hout _ h.fragment.entry_live]
        exact hcopy.old_new _ _ h.fragment.entry_live fun s hs => Or.inr hs
      · rw [hback _ h.fragment.entry_live]
        exact hcopy.new_old _ _ (fun s hs => Or.inl hs) h.fragment.entry_live
      · rw [hback _ h.fragment.exit_live]
        exact hcopy.new_old _ _ (fun s hs => Or.inl hs) h.fragment.exit_live
      · rw [hback _ h.fragment.entry_live]
        exact hcopy.new_old _ _ (fun s hs => Or.inr hs) h.fragment.entry_live
      · rw [hback _ h.fragment.exit_live]
        exact hcopy.new_old _ _ (fun s hs => Or.inr hs) h.fragment.exit_live
    · simp [hstart]
    · simpa [hcopy.initial] using h.no_initial
    · simpa [hcopy.finals] using h.no_finals

/-- The first loop appends plain copies and counts both bounds down. -/
theorem repeatLower_spec {sub : TraceAutomaton} (hsub : ∃ s, s ∈ sub.initial) (n : Nat) :
    ∀ (ub : Int) (c : RepeatState) (row : List (Ends Int)), ub = -1 ∨ (n : Int) ≤ ub →
      RepeatInv c row →
      (repeatLower sub n ub c).1 = (if ub = -1 then -1 else ub - n) ∧
      RepeatInv (repeatLower sub n ub c).2 (row ++ List.replicate n sub.ends) := by
  induction n with
  | zero =>
      intro ub c row _ h
      refine ⟨?_, by simpa [repeatLower] using h⟩
      simp only [repeatLower]
      split <;> omega
  | succ n ih =>
      intro ub c row hub h
      have hstep := h.append hsub .none
      obtain ⟨hcount, hrow⟩ := ih (if ub ≠ -1 then ub - 1 else ub) _ _ (by split <;> omega) hstep
      constructor
      · simp only [repeatLower]
        rw [hcount]
        split <;> split <;> omega
      · simpa [repeatLower, List.replicate_succ, Shortcut.glued] using hrow

/-- The last loop appends optional copies. -/
theorem repeatUpper_spec {sub : TraceAutomaton} (hsub : ∃ s, s ∈ sub.initial) (n : Nat) :
    ∀ (c : RepeatState) (row : List (Ends Int)), RepeatInv c row →
      RepeatInv (repeatUpper sub n c) (row ++ List.replicate n sub.ends.glue) := by
  induction n with
  | zero =>
      intro c row h
      simpa [repeatUpper] using h
  | succ n ih =>
      intro c row h
      have hrow := ih _ _ (h.append hsub .forward)
      simpa [repeatUpper, List.replicate_succ, Shortcut.glued] using hrow

/-- The copies of a repetition. -/
def repeatState (sub : TraceAutomaton) (lb ub : Int) : RepeatState :=
  let p := repeatLower sub lb.toNat ub ⟨TraceAutomaton.empty, [], []⟩
  if p.1 = -1 then appendCopy sub .both p.2 else repeatUpper sub p.1.toNat p.2

/-- The automaton is the state behind the loops, with its end sets. -/
theorem repeatAutomaton_eq (sub : TraceAutomaton) (lb ub : Int) :
    repeatAutomaton sub lb ub TraceAutomaton.empty =
      ((repeatState sub lb ub).aut.swapInitial (repeatState sub lb ub).initial).setFinalAll
        (repeatState sub lb ub).final := rfl

/-- The initial states are those of the first copy. -/
def FirstCopy (sub : TraceAutomaton) (c : RepeatState) : Prop :=
  c.initial = [] ∨ ∃ dest, c.initial = (copyAutomaton sub dest).1.1

/-- Another copy leaves the first one first. -/
theorem FirstCopy.append {sub : TraceAutomaton} {c : RepeatState} (h : FirstCopy sub c)
    (shortcut : Shortcut) : FirstCopy sub (appendCopy sub shortcut c) := by
  unfold appendCopy
  dsimp only
  split
  · exact Or.inr ⟨_, rfl⟩
  · exact h

/-- So does the loop of the lower bound. -/
theorem FirstCopy.lower {sub : TraceAutomaton} (n : Nat) : ∀ (ub : Int) (c : RepeatState),
    FirstCopy sub c → FirstCopy sub (repeatLower sub n ub c).2 := by
  induction n with
  | zero => exact fun _ _ h => h
  | succ n ih => exact fun ub c h => ih _ _ (h.append .none)

/-- So does the loop of the upper bound. -/
theorem FirstCopy.upper {sub : TraceAutomaton} (n : Nat) : ∀ c : RepeatState,
    FirstCopy sub c → FirstCopy sub (repeatUpper sub n c) := by
  induction n with
  | zero => exact fun _ h => h
  | succ n ih => exact fun c h => ih _ (h.append .forward)

/-- The initial states are those of the first copy. -/
theorem repeatState_initial (sub : TraceAutomaton) (lb ub : Int) :
    FirstCopy sub (repeatState sub lb ub) := by
  have hstart : FirstCopy sub ⟨TraceAutomaton.empty, [], []⟩ := Or.inl rfl
  have hlower := hstart.lower lb.toNat ub
  unfold repeatState
  dsimp only
  split
  · exact hlower.append .both
  · exact hlower.upper _

/-- Making the ends of the row the initial and final states. -/
theorem RepeatInv.close {c : RepeatState} {row : List (Ends Int)} (h : RepeatInv c row) :
    (∀ s, s ∈ ((c.aut.swapInitial c.initial).setFinalAll c.final).initial ↔ s ∈ c.initial) ∧
      ((c.aut.swapInitial c.initial).setFinalAll c.final).ends = rowEnds row := by
  have hinitial : ∀ s, s ∈ ((c.aut.swapInitial c.initial).setFinalAll c.final).initial ↔
      s ∈ c.initial := by
    intro s
    rw [setFinalAll_initial, mem_swapInitial]
    exact and_iff_left_of_imp (h.fragment.entry_live s)
  have hfinals : ∀ s, s ∈ ((c.aut.swapInitial c.initial).setFinalAll c.final).finals ↔
      s ∈ c.final := by
    intro s
    rw [mem_setFinalAll, swapInitial_finals, h.no_finals, swapInitial_states]
    simp only [List.not_mem_nil, false_or]
    exact and_iff_left_of_imp (h.fragment.exit_live s)
  have hdelta : ((c.aut.swapInitial c.initial).setFinalAll c.final).delta = c.aut.delta := by
    apply delta_eq_of_trans
    rw [setFinalAll_trans, swapInitial_trans]
  refine ⟨hinitial, ?_⟩
  rw [← h.fragment.ends_eq]
  unfold TraceAutomaton.ends
  rw [hdelta]
  simp only [hinitial, hfinals]

/-- **Repetitions** are rows of copies with shortcuts on their own ends. -/
theorem repeatAutomaton_ends {sub : TraceAutomaton} {lb ub : Int}
    (hsub : ∃ s, s ∈ sub.initial) (hlb : 0 ≤ lb) (hub : ub = -1 ∨ lb ≤ ub) :
    (repeatAutomaton sub lb ub TraceAutomaton.empty).ends = rowEnds (repeatRow sub.ends lb ub) := by
  obtain ⟨hcount, hlower⟩ := repeatLower_spec hsub lb.toNat ub _ _ (by omega) RepeatInv.start
  have hinv : RepeatInv (repeatState sub lb ub) (repeatRow sub.ends lb ub) := by
    unfold repeatState
    obtain ⟨p, hp⟩ : ∃ p, p = repeatLower sub lb.toNat ub ⟨TraceAutomaton.empty, [], []⟩ := ⟨_, rfl⟩
    rw [← hp] at hcount hlower
    rw [← hp, repeatRow]
    dsimp only
    by_cases hinf : ub = -1
    · rw [if_pos hinf] at hcount ⊢
      rw [if_pos hcount]
      exact hlower.append hsub .both
    · rw [if_neg hinf] at hcount ⊢
      rw [if_neg (by omega), show (ub - lb).toNat = p.1.toNat by omega]
      exact repeatUpper_spec hsub _ _ _ hlower
  rw [repeatAutomaton_eq]
  exact hinv.close.2

end FShell
