import FShell.Automata.Walk

/-!
# Trace automata

`fql/concepts/trace_automaton.cpp` over the container
`NFA_mmap_backedge<Target_Graph_Index>` of ASTL.  An automaton is a set of
states, a set of initial states, final flags and labelled transitions; the
label `-1` is the silent one.  `states` lists the live states in the order in
which `begin()`/`end()` walk them and `slots` is the size of ASTL's state
vector, the number the next state gets.  The multimaps keep one entry for
every `set_trans`, so `trans` may list a transition several times.

The fields that end in `_live` say that flags and transitions only mention
live states.  ASTL has no defined behaviour for a dead one, and the
operations below leave the automaton alone there.
-/

namespace FShell

open LabelledGraph

/-- A state number (`ta_state_t`). -/
abbrev TaState := Nat

/-- `Target_Graph_Index::epsilon`. -/
def epsilon : Int := -1

/-- A trace automaton (`trace_automaton_t`). -/
structure TraceAutomaton where
  slots : Nat
  states : List TaState
  initial : List TaState
  finals : List TaState
  trans : List (TaState × Int × TaState)
  states_nodup : states.Nodup
  states_lt : ∀ s ∈ states, s < slots
  initial_live : ∀ s ∈ initial, s ∈ states
  finals_live : ∀ s ∈ finals, s ∈ states
  trans_live : ∀ e ∈ trans, e.1 ∈ states ∧ e.2.2 ∈ states

namespace TraceAutomaton

/-- The freshly constructed automaton; slot 0 is ASTL's null state. -/
def empty : TraceAutomaton where
  slots := 1
  states := []
  initial := []
  finals := []
  trans := []
  states_nodup := List.nodup_nil
  states_lt := by simp
  initial_live := by simp
  finals_live := by simp
  trans_live := by simp

/-- `new_state()`: the number of the new state and the automaton with it. -/
def newState (aut : TraceAutomaton) : TaState × TraceAutomaton :=
  (aut.slots,
    { aut with
      slots := aut.slots + 1
      states := aut.states ++ [aut.slots]
      states_nodup := by
        refine List.nodup_append.mpr ⟨aut.states_nodup, List.nodup_singleton _, ?_⟩
        intro a ha b hb heq
        subst heq
        exact absurd (aut.states_lt a ha) (by simp_all)
      states_lt := by
        intro s hs
        rcases List.mem_append.mp hs with hs | hs
        · exact Nat.lt_succ_of_lt (aut.states_lt s hs)
        · simp_all
      initial_live := fun s hs => List.mem_append_left _ (aut.initial_live s hs)
      finals_live := fun s hs => List.mem_append_left _ (aut.finals_live s hs)
      trans_live := fun e he =>
        ⟨List.mem_append_left _ (aut.trans_live e he).1,
          List.mem_append_left _ (aut.trans_live e he).2⟩ })

/-- `set_trans(s, l, t)`; a transition that is there already is there once more. -/
def setTrans (aut : TraceAutomaton) (s : TaState) (l : Int) (t : TaState) : TraceAutomaton :=
  if h : s ∈ aut.states ∧ t ∈ aut.states then
    { aut with
      trans := aut.trans ++ [(s, l, t)]
      trans_live := by
        intro e he
        rcases List.mem_append.mp he with he | he
        · exact aut.trans_live e he
        · exact List.mem_singleton.mp he ▸ h }
  else aut

/-- `del_trans(s, l, t)`: the first of the entries for it goes. -/
def delTrans (aut : TraceAutomaton) (s : TaState) (l : Int) (t : TaState) : TraceAutomaton :=
  { aut with
    trans := aut.trans.erase (s, l, t)
    trans_live := fun e he => aut.trans_live e (List.mem_of_mem_erase he) }

/-- `del_state(s)`: the state goes with its flags and transitions. -/
def delState (aut : TraceAutomaton) (s : TaState) : TraceAutomaton :=
  { aut with
    states := aut.states.filter (· ≠ s)
    initial := aut.initial.filter (· ≠ s)
    finals := aut.finals.filter (· ≠ s)
    trans := aut.trans.filter (fun e => e.1 ≠ s ∧ e.2.2 ≠ s)
    states_nodup := aut.states_nodup.filter _
    states_lt := fun q hq => aut.states_lt q (List.mem_filter.mp hq).1
    initial_live := by
      intro q hq
      simp only [List.mem_filter] at hq ⊢
      exact ⟨aut.initial_live q hq.1, hq.2⟩
    finals_live := by
      intro q hq
      simp only [List.mem_filter] at hq ⊢
      exact ⟨aut.finals_live q hq.1, hq.2⟩
    trans_live := by
      intro e he
      simp only [List.mem_filter, decide_eq_true_eq] at he ⊢
      exact ⟨⟨(aut.trans_live e he.1).1, he.2.1⟩, ⟨(aut.trans_live e he.1).2, he.2.2⟩⟩ }

/-- `final(s) = 1`. -/
def setFinal (aut : TraceAutomaton) (s : TaState) : TraceAutomaton :=
  if h : s ∈ aut.states then
    { aut with
      finals := aut.finals.insert s
      finals_live := by
        intro q hq
        rcases List.mem_insert_iff.mp hq with rfl | hq
        · exact h
        · exact aut.finals_live q hq }
  else aut

/-- `final(s) = 0`. -/
def clearFinal (aut : TraceAutomaton) (s : TaState) : TraceAutomaton :=
  { aut with
    finals := aut.finals.filter (· ≠ s)
    finals_live := fun q hq => aut.finals_live q (List.mem_filter.mp hq).1 }

/-- The test `final(s)`. -/
def isFinal (aut : TraceAutomaton) (s : TaState) : Bool := s ∈ aut.finals

/-- `initial().swap(set)`. -/
def swapInitial (aut : TraceAutomaton) (set : List TaState) : TraceAutomaton :=
  { aut with
    initial := set.filter (· ∈ aut.states)
    initial_live := fun s hs => by simpa using (List.mem_filter.mp hs).2 }

/-- `initial().insert(s)`. -/
def insertInitial (aut : TraceAutomaton) (s : TaState) : TraceAutomaton :=
  aut.swapInitial (aut.initial.insert s)

/-- `delta2(s)`: labels and targets of the outgoing transitions, as a snapshot. -/
def delta2 (aut : TraceAutomaton) (s : TaState) : List (Int × TaState) :=
  aut.trans.filterMap (fun e => if e.1 = s then some e.2 else none)

/-- `delta2_backwards(s)`: labels and sources of the incoming transitions. -/
def delta2Backwards (aut : TraceAutomaton) (s : TaState) : List (Int × TaState) :=
  aut.trans.filterMap (fun e => if e.2.2 = s then some (e.2.1, e.1) else none)

/-- `state_count()`. -/
def stateCount (aut : TraceAutomaton) : Nat := aut.states.length

/-- `trans_count()`. -/
def transCount (aut : TraceAutomaton) : Nat := aut.trans.length

/-- The loops `for (...) set_trans(...)` over a precomputed list. -/
def setTransAll (aut : TraceAutomaton) (es : List (TaState × Int × TaState)) :
    TraceAutomaton :=
  es.foldl (fun aut e => aut.setTrans e.1 e.2.1 e.2.2) aut

/-- The loops `for (...) final(*iter) = 1`. -/
def setFinalAll (aut : TraceAutomaton) (set : List TaState) : TraceAutomaton :=
  set.foldl setFinal aut

/-- The loops `for (...) del_state(*iter)`. -/
def delStateAll (aut : TraceAutomaton) (set : List TaState) : TraceAutomaton :=
  set.foldl delState aut

/-- The transition relation. -/
def delta (aut : TraceAutomaton) (s : TaState) (l : Int) (t : TaState) : Prop :=
  (s, l, t) ∈ aut.trans

instance (aut : TraceAutomaton) (s : TaState) (l : Int) (t : TaState) :
    Decidable (aut.delta s l t) :=
  inferInstanceAs (Decidable (_ ∈ _))

/-- The relation depends on the list of transitions only. -/
theorem delta_eq_of_trans {aut aut' : TraceAutomaton} (h : aut.trans = aut'.trans) :
    aut.delta = aut'.delta := by
  unfold delta
  rw [h]

/-- The words that lead from `s` to a final state, silent labels erased. -/
def acceptsFrom (aut : TraceAutomaton) (s : TaState) : Language Int :=
  future aut.delta epsilon (· ∈ aut.finals) s

/-- The accepted language: labels of the walks from an initial to a final
state, silent labels erased. -/
def accepts (aut : TraceAutomaton) : Language Int :=
  {w | ∃ s ∈ aut.initial, w ∈ aut.acceptsFrom s}

/-- Every transition carries a visible label. -/
def EpsilonFree (aut : TraceAutomaton) : Prop := ∀ e ∈ aut.trans, e.2.1 ≠ epsilon

/-! ## What each operation changes -/

section Operations

variable (aut : TraceAutomaton) {s t : TaState} {l : Int} {e : TaState × Int × TaState}

/-- The new state is the next slot. -/
@[simp] theorem newState_fst : aut.newState.1 = aut.slots := rfl
/-- A new state takes one slot. -/
@[simp] theorem newState_slots : aut.newState.2.slots = aut.slots + 1 := rfl
/-- The new state is the last one. -/
@[simp] theorem newState_states : aut.newState.2.states = aut.states ++ [aut.slots] := rfl
/-- A new state is not initial. -/
@[simp] theorem newState_initial : aut.newState.2.initial = aut.initial := rfl
/-- A new state is not final. -/
@[simp] theorem newState_finals : aut.newState.2.finals = aut.finals := rfl
/-- A new state has no transitions. -/
@[simp] theorem newState_trans : aut.newState.2.trans = aut.trans := rfl

/-- The next slot is no state yet. -/
theorem slots_not_mem : aut.slots ∉ aut.states := fun h => (aut.states_lt _ h).false

/-- A transition takes no slot. -/
@[simp] theorem setTrans_slots : (aut.setTrans s l t).slots = aut.slots := by
  unfold setTrans; split <;> rfl
/-- A transition adds no state. -/
@[simp] theorem setTrans_states : (aut.setTrans s l t).states = aut.states := by
  unfold setTrans; split <;> rfl
/-- A transition changes no initial state. -/
@[simp] theorem setTrans_initial : (aut.setTrans s l t).initial = aut.initial := by
  unfold setTrans; split <;> rfl
/-- A transition changes no final flag. -/
@[simp] theorem setTrans_finals : (aut.setTrans s l t).finals = aut.finals := by
  unfold setTrans; split <;> rfl

/-- The transitions after `set_trans`: one more, between live states. -/
theorem mem_setTrans :
    e ∈ (aut.setTrans s l t).trans ↔
      e ∈ aut.trans ∨ (s ∈ aut.states ∧ t ∈ aut.states ∧ e = (s, l, t)) := by
  unfold setTrans
  split
  next h => simp only [List.mem_append, List.mem_singleton]; tauto
  next h => tauto

/-- Deleting a transition frees no slot. -/
@[simp] theorem delTrans_slots : (aut.delTrans s l t).slots = aut.slots := rfl
/-- Deleting a transition deletes no state. -/
@[simp] theorem delTrans_states : (aut.delTrans s l t).states = aut.states := rfl
/-- Deleting a transition changes no initial state. -/
@[simp] theorem delTrans_initial : (aut.delTrans s l t).initial = aut.initial := rfl
/-- Deleting a transition changes no final flag. -/
@[simp] theorem delTrans_finals : (aut.delTrans s l t).finals = aut.finals := rfl

/-- The other transitions stay. -/
theorem mem_delTrans_of_ne (he : e ≠ (s, l, t)) :
    e ∈ (aut.delTrans s l t).trans ↔ e ∈ aut.trans :=
  List.mem_erase_of_ne he

/-- Slots are not used again. -/
@[simp] theorem delState_slots : (aut.delState s).slots = aut.slots := rfl
/-- The other states stay. -/
@[simp] theorem mem_delState_states : t ∈ (aut.delState s).states ↔ t ∈ aut.states ∧ t ≠ s := by
  simp [delState]
/-- The other initial states stay. -/
@[simp] theorem mem_delState_initial :
    t ∈ (aut.delState s).initial ↔ t ∈ aut.initial ∧ t ≠ s := by
  simp [delState]
/-- The other final flags stay. -/
@[simp] theorem mem_delState_finals :
    t ∈ (aut.delState s).finals ↔ t ∈ aut.finals ∧ t ≠ s := by
  simp [delState]

/-- The transitions that do not touch the state stay. -/
theorem mem_delState :
    e ∈ (aut.delState s).trans ↔ e ∈ aut.trans ∧ e.1 ≠ s ∧ e.2.2 ≠ s := by
  simp [delState]

/-- A final flag takes no slot. -/
@[simp] theorem setFinal_slots : (aut.setFinal s).slots = aut.slots := by
  unfold setFinal; split <;> rfl
/-- A final flag changes no state. -/
@[simp] theorem setFinal_states : (aut.setFinal s).states = aut.states := by
  unfold setFinal; split <;> rfl
/-- A final flag changes no initial state. -/
@[simp] theorem setFinal_initial : (aut.setFinal s).initial = aut.initial := by
  unfold setFinal; split <;> rfl
/-- A final flag changes no transition. -/
@[simp] theorem setFinal_trans : (aut.setFinal s).trans = aut.trans := by
  unfold setFinal; split <;> rfl

/-- A live state becomes final, the flags of the others stay. -/
@[simp] theorem mem_setFinal :
    t ∈ (aut.setFinal s).finals ↔ t ∈ aut.finals ∨ (t = s ∧ s ∈ aut.states) := by
  unfold setFinal
  split
  next h => simp only [List.mem_insert_iff]; tauto
  next h => tauto

/-- Clearing a flag frees no slot. -/
@[simp] theorem clearFinal_slots : (aut.clearFinal s).slots = aut.slots := rfl
/-- Clearing a flag deletes no state. -/
@[simp] theorem clearFinal_states : (aut.clearFinal s).states = aut.states := rfl
/-- Clearing a flag changes no initial state. -/
@[simp] theorem clearFinal_initial : (aut.clearFinal s).initial = aut.initial := rfl
/-- Clearing a flag changes no transition. -/
@[simp] theorem clearFinal_trans : (aut.clearFinal s).trans = aut.trans := rfl
/-- The flags of the other states stay. -/
@[simp] theorem mem_clearFinal :
    t ∈ (aut.clearFinal s).finals ↔ t ∈ aut.finals ∧ t ≠ s := by
  simp [clearFinal]

/-- Other initial states take no slot. -/
@[simp] theorem swapInitial_slots (set : List TaState) :
    (aut.swapInitial set).slots = aut.slots := rfl
/-- Other initial states change no state. -/
@[simp] theorem swapInitial_states (set : List TaState) :
    (aut.swapInitial set).states = aut.states := rfl
/-- Other initial states change no final flag. -/
@[simp] theorem swapInitial_finals (set : List TaState) :
    (aut.swapInitial set).finals = aut.finals := rfl
/-- Other initial states change no transition. -/
@[simp] theorem swapInitial_trans (set : List TaState) :
    (aut.swapInitial set).trans = aut.trans := rfl
/-- The initial states are the live ones of the set. -/
@[simp] theorem mem_swapInitial {set : List TaState} :
    t ∈ (aut.swapInitial set).initial ↔ t ∈ set ∧ t ∈ aut.states := by
  simp [swapInitial]

/-- An initial state more changes no state. -/
@[simp] theorem insertInitial_states : (aut.insertInitial s).states = aut.states := rfl
/-- An initial state more takes no slot. -/
@[simp] theorem insertInitial_slots : (aut.insertInitial s).slots = aut.slots := rfl
/-- An initial state more changes no final flag. -/
@[simp] theorem insertInitial_finals : (aut.insertInitial s).finals = aut.finals := rfl
/-- An initial state more changes no transition. -/
@[simp] theorem insertInitial_trans : (aut.insertInitial s).trans = aut.trans := rfl

/-- The test reads the flag. -/
@[simp] theorem isFinal_iff : aut.isFinal s = true ↔ s ∈ aut.finals := by
  simp [isFinal]

/-- `delta2` lists the outgoing transitions. -/
@[simp] theorem mem_delta2 : (l, t) ∈ aut.delta2 s ↔ (s, l, t) ∈ aut.trans := by
  simp [delta2]

/-- `delta2_backwards` lists the incoming transitions. -/
@[simp] theorem mem_delta2Backwards :
    (l, t) ∈ aut.delta2Backwards s ↔ (t, l, s) ∈ aut.trans := by
  simp [delta2Backwards]

end Operations

/-! ## The loops -/

section Loops

variable (es : List (TaState × Int × TaState)) (set : List TaState)

/-- An empty list adds nothing. -/
@[simp] theorem setTransAll_nil (aut : TraceAutomaton) : aut.setTransAll [] = aut := rfl
/-- The loop adds the first transition, then the others. -/
@[simp] theorem setTransAll_cons (aut : TraceAutomaton) (e : TaState × Int × TaState) :
    aut.setTransAll (e :: es) = (aut.setTrans e.1 e.2.1 e.2.2).setTransAll es := rfl

/-- The loop takes no slot. -/
@[simp] theorem setTransAll_slots (aut : TraceAutomaton) :
    (aut.setTransAll es).slots = aut.slots := by
  induction es generalizing aut with
  | nil => rfl
  | cons e es ih => simp [ih]

/-- The loop changes no state. -/
@[simp] theorem setTransAll_states (aut : TraceAutomaton) :
    (aut.setTransAll es).states = aut.states := by
  induction es generalizing aut with
  | nil => rfl
  | cons e es ih => simp [ih]

/-- The loop changes no initial state. -/
@[simp] theorem setTransAll_initial (aut : TraceAutomaton) :
    (aut.setTransAll es).initial = aut.initial := by
  induction es generalizing aut with
  | nil => rfl
  | cons e es ih => simp [ih]

/-- The loop changes no final flag. -/
@[simp] theorem setTransAll_finals (aut : TraceAutomaton) :
    (aut.setTransAll es).finals = aut.finals := by
  induction es generalizing aut with
  | nil => rfl
  | cons e es ih => simp [ih]

/-- The loop adds what is listed between live states. -/
theorem mem_setTransAll (aut : TraceAutomaton) {e : TaState × Int × TaState} :
    e ∈ (aut.setTransAll es).trans ↔
      e ∈ aut.trans ∨ (e ∈ es ∧ e.1 ∈ aut.states ∧ e.2.2 ∈ aut.states) := by
  induction es generalizing aut with
  | nil => simp
  | cons d es ih =>
      rw [setTransAll_cons, ih, mem_setTrans, setTrans_states, List.mem_cons]
      constructor
      · intro hx
        rcases hx with (h | ⟨hs, ht, rfl⟩) | ⟨h, hs, ht⟩
        · exact Or.inl h
        · exact Or.inr ⟨Or.inl rfl, hs, ht⟩
        · exact Or.inr ⟨Or.inr h, hs, ht⟩
      · intro hx
        rcases hx with h | ⟨rfl | h, hs, ht⟩
        · exact Or.inl (Or.inl h)
        · exact Or.inl (Or.inr ⟨hs, ht, rfl⟩)
        · exact Or.inr ⟨h, hs, ht⟩

/-- An empty set flags nothing. -/
@[simp] theorem setFinalAll_nil (aut : TraceAutomaton) : aut.setFinalAll [] = aut := rfl
/-- The loop flags the first state, then the others. -/
@[simp] theorem setFinalAll_cons (aut : TraceAutomaton) (s : TaState) :
    aut.setFinalAll (s :: set) = (aut.setFinal s).setFinalAll set := rfl

/-- The loop takes no slot. -/
@[simp] theorem setFinalAll_slots (aut : TraceAutomaton) :
    (aut.setFinalAll set).slots = aut.slots := by
  induction set generalizing aut with
  | nil => rfl
  | cons s set ih => simp [ih]

/-- The loop changes no state. -/
@[simp] theorem setFinalAll_states (aut : TraceAutomaton) :
    (aut.setFinalAll set).states = aut.states := by
  induction set generalizing aut with
  | nil => rfl
  | cons s set ih => simp [ih]

/-- The loop changes no initial state. -/
@[simp] theorem setFinalAll_initial (aut : TraceAutomaton) :
    (aut.setFinalAll set).initial = aut.initial := by
  induction set generalizing aut with
  | nil => rfl
  | cons s set ih => simp [ih]

/-- The loop changes no transition. -/
@[simp] theorem setFinalAll_trans (aut : TraceAutomaton) :
    (aut.setFinalAll set).trans = aut.trans := by
  induction set generalizing aut with
  | nil => rfl
  | cons s set ih => simp [ih]

/-- The loop flags the live states of the set. -/
theorem mem_setFinalAll (aut : TraceAutomaton) {t : TaState} :
    t ∈ (aut.setFinalAll set).finals ↔ t ∈ aut.finals ∨ (t ∈ set ∧ t ∈ aut.states) := by
  induction set generalizing aut with
  | nil => simp
  | cons s set ih =>
      rw [setFinalAll_cons, ih, mem_setFinal, setFinal_states, List.mem_cons]
      constructor
      · intro hx
        rcases hx with (h | ⟨rfl, hs⟩) | ⟨h, hs⟩
        · exact Or.inl h
        · exact Or.inr ⟨Or.inl rfl, hs⟩
        · exact Or.inr ⟨Or.inr h, hs⟩
      · intro hx
        rcases hx with h | ⟨rfl | h, hs⟩
        · exact Or.inl (Or.inl h)
        · exact Or.inl (Or.inr ⟨rfl, hs⟩)
        · exact Or.inr ⟨h, hs⟩

/-- The loop deletes the states of the set and no others. -/
theorem mem_delStateAll_states (aut : TraceAutomaton) {t : TaState} :
    t ∈ (aut.delStateAll set).states ↔ t ∈ aut.states ∧ t ∉ set := by
  induction set generalizing aut with
  | nil => simp [delStateAll]
  | cons s set ih =>
      have h := ih (aut.delState s)
      simp only [delStateAll, List.foldl_cons] at h ⊢
      rw [h, mem_delState_states]
      simp [and_assoc]

end Loops

end TraceAutomaton

end FShell
