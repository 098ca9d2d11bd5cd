import FShell.Evaluation.AttachPattern
import FShell.Evaluation.PathPatternLanguage

/-!
# The language of the test-goal automaton

Two languages go with a visited pattern.  `denote` is spelled on the ways to
the current states that the visit leaves behind, and this is what a
concatenation continues with.  `flagged` is spelled on the ways to those of
them that are still final: the right operand of an alternative takes the
final flags of the states that both operands start from, and with them the
empty word of the left operand.

**One visit.**  `Grown` says what a visit does to the automaton: old states
keep the words that lead to them, and the new current states are reached on
the two languages behind the old ones.  Visits compose (`Grown.seq`,
`Grown.alt`).

**Deleted states.**  An operand without words makes the states before it
dead, and they are deleted while an alternative still holds on to them.
`Undisturbed` excludes this.
-/

open scoped Computability

namespace FShell

open LabelledGraph TraceAutomaton

/-- What the visitor relies on between two visits. -/
structure CoverInv (aut : TraceAutomaton) (cur : List TaState) : Prop where
  visible : aut.EpsilonFree
  no_entry : ∀ s l t, aut.delta s l t → t ∉ aut.initial
  below : ∀ s ∈ cur, s < aut.slots
  safe : ∀ s ∈ cur, aut.Reachable s → s ∈ aut.initial ∨ aut.Productive s

/-- The current states that are reached will not be deleted, whatever happens
to their final flags: they are initial or lead to another final state. -/
def Held (aut : TraceAutomaton) (cur : List TaState) : Prop :=
  ∀ s ∈ cur, aut.Reachable s →
    s ∈ aut.initial ∨ ∃ f ∈ aut.finals, f ∉ cur ∧ ∃ u, Walk aut.delta s u f

/-- What a visit makes of `aut` and the current states `cur`: the new current
states are reached on `d`, those with a final flag on `e`. -/
structure Grown (aut : TraceAutomaton) (cur : List TaState) (aut' : TraceAutomaton)
    (cur' : List TaState) (d e : Language Int) : Prop where
  le : e ≤ d
  slots_le : aut.slots ≤ aut'.slots
  initial : ∀ s, s ∈ aut'.initial ↔ s ∈ aut.initial
  states_old : ∀ s < aut.slots, s ∈ aut'.states → s ∈ aut.states
  reach_old : ∀ s < aut.slots, s ∈ aut'.states → aut'.reach (· = s) = aut.reach (· = s)
  safe : d ≠ 0 → ∀ s, aut.Reachable s → s ∈ aut.initial ∨ aut.Productive s →
    s ∈ aut'.states ∧ (s ∈ aut'.initial ∨ aut'.Productive s)
  anchored : ∀ s u f, aut.Reachable s → f ∈ aut.finals → f ∉ cur → Walk aut.delta s u f →
    s ∈ aut'.states ∧ Walk aut'.delta s u f
  current : ∀ s ∈ cur', s ∈ cur ∨ aut.slots ≤ s
  reach_new : aut'.reach (fun s => s ∈ cur' ∧ s ∉ cur) = aut.reach (· ∈ cur) * proper d
  accept_new : aut'.reach (fun s => s ∈ cur' ∧ s ∉ cur ∧ s ∈ aut'.finals) =
    aut.reach (· ∈ cur) * proper e
  stays : ∀ s ∈ cur, aut.Reachable s → (s ∈ cur' ↔ [] ∈ d)
  stays_final : ∀ s ∈ cur, aut.Reachable s → (s ∈ aut'.finals ↔ [] ∈ e)
  final_new : ∀ s ∈ aut'.finals, s ∈ cur' ∨ (s ∈ aut.finals ∧ s ∉ cur)
  final_old : ∀ s ∈ aut.finals, s ∉ cur → aut.Reachable s → s ∈ aut'.finals
  delta_old : ∀ s l t, aut.delta s l t → s ∈ aut'.states → t ∈ aut'.states → aut'.delta s l t
  leads : ¬ d ≤ 1 → ∀ s ∈ cur, aut.Reachable s →
    ∃ t, t ∈ cur' ∧ aut.slots ≤ t ∧ ∃ u, Walk aut'.delta s u t
  holds : ¬ e ≤ 1 → ∀ s ∈ cur, aut.Reachable s →
    ∃ f, f ∈ aut'.finals ∧ aut.slots ≤ f ∧ ∃ u, Walk aut'.delta s u f

/-! ## One atom -/

section Atom

variable {aut mid aut' : TraceAutomaton} {cur cur' : List TaState} {l : Language Int}

namespace TraceAutomaton

/-- A walk to an initial state that nothing enters is empty. -/
theorem walk_to_initial (hentry : ∀ s l t, aut.delta s l t → t ∉ aut.initial) {s t : TaState}
    {u : List Int} (hwalk : Walk aut.delta s u t) (ht : t ∈ aut.initial) : s = t := by
  induction hwalk with
  | nil => rfl
  | cons hedge _ ih => exact absurd (ih ht ▸ ht) (hentry _ _ _ hedge)

/-- The old states are reached by the same words. -/
theorem Attached.reach_old (h : Attached aut cur mid l) {S : TaState → Prop}
    (hS : ∀ s, S s → s < aut.slots) : mid.reach S = aut.reach S := by
  obtain ⟨C, hcross, -⟩ := h.crossing
  have hinitial : ∀ s, s ∈ mid.initial → ¬ aut.slots ≤ s := by
    intro s hs
    rw [h.initial] at hs
    exact Nat.not_le.mpr (aut.states_lt s (aut.initial_live s hs))
  have hwords := hcross.words_old (ε := epsilon) hinitial
    (fun s hs => Nat.not_le.mpr (hS s hs))
  rw [reach, hwords, h.initial, reach]

/-- The new final states are reached by a word to a current state and an attached one. -/
theorem Attached.reach_new (h : Attached aut cur mid l) :
    mid.reach (fun s => s ∈ mid.finals ∧ aut.slots ≤ s) = aut.reach (· ∈ cur) * proper l := by
  obtain ⟨C, hcross, hwords⟩ := h.crossing
  have hinitial : ∀ s, s ∈ mid.initial → ¬ aut.slots ≤ s := by
    intro s hs
    rw [h.initial] at hs
    exact Nat.not_le.mpr (aut.states_lt s (aut.initial_live s hs))
  have hcur : aut.reach (· ∈ cur) = aut.reach fun s => s ∈ cur ∧ s ∈ aut.states := by
    ext w
    rw [mem_reach, mem_reach]
    constructor
    · intro hw
      obtain ⟨s, hs, hw⟩ := hw
      exact ⟨s, ⟨hs, (reachable_of_mem_reach hw).live⟩, hw⟩
    · intro hw
      obtain ⟨s, hs, hw⟩ := hw
      exact ⟨s, hs.1, hw⟩
  have hnew := hcross.words_new (ε := epsilon)
    (F := fun s => s ∈ mid.finals ∧ aut.slots ≤ s) hinitial (fun s hs => hs.2)
  rw [hwords, h.initial] at hnew
  rw [hcur, reach, h.initial, hnew, reach]

/-- What was reachable stays so. -/
theorem Attached.reachable (h : Attached aut cur mid l) {s : TaState} (hs : aut.Reachable s) :
    mid.Reachable s := by
  obtain ⟨w, hw⟩ := hs.exists_mem_reach
  have hlt : ∀ t, t = s → t < aut.slots := fun t ht => ht ▸ aut.states_lt s hs.live
  rw [← h.reach_old hlt] at hw
  exact reachable_of_mem_reach hw

/-- Transitions of the old part are still there. -/
theorem Attached.edge (h : Attached aut cur mid l) {s t : TaState} {k : Int}
    (hedge : aut.delta s k t) : mid.delta s k t := by
  obtain ⟨C, hcross, -⟩ := h.crossing
  have hlt := aut.states_lt s (aut.trans_live _ hedge).1
  exact (hcross.old s k t (Nat.not_le.mpr hlt)).mpr (Or.inl hedge)

/-- Walks stay. -/
theorem Attached.walk (h : Attached aut cur mid l) {s t : TaState} {u : List Int}
    (hwalk : Walk aut.delta s u t) : Walk mid.delta s u t :=
  hwalk.mono fun _ _ _ hedge => h.edge hedge

/-- Some word that is not empty leads from a current state to a new final one. -/
theorem Attached.leads (h : Attached aut cur mid l) (hl : ¬ l ≤ 1) {s : TaState}
    (hs : s ∈ cur) (hlive : s ∈ aut.states) :
    ∃ f, f ∈ mid.finals ∧ aut.slots ≤ f ∧ ∃ u, Walk mid.delta s u f := by
  obtain ⟨C, hcross, hwords⟩ := h.crossing
  obtain ⟨w, hw⟩ := ne_zero_iff_exists.mp fun hzero => hl (proper_eq_zero.mp hzero)
  rw [← hwords] at hw
  obtain ⟨a, z, hz, hword⟩ := hw
  obtain ⟨v, ⟨f, u, hf, hwalk, -⟩, -⟩ := mem_letter_mul.mp hword
  have hlt := aut.states_lt s hlive
  have hedge : mid.delta s a z :=
    (hcross.old s a z (Nat.not_le.mpr hlt)).mpr (Or.inr ⟨⟨hs, hlive⟩, hz⟩)
  exact ⟨f, hf.1, hf.2, a :: u, Walk.cons hedge hwalk⟩

/-- A current state leads to a final one if some word is attached. -/
theorem Attached.productive_current (h : Attached aut cur mid l) (hl : l ≠ 0) {s : TaState}
    (hs : s ∈ cur) (hlive : s ∈ aut.states) : mid.Productive s := by
  have hlt := aut.states_lt s hlive
  obtain ⟨w, hw⟩ := ne_zero_iff_exists.mp hl
  by_cases hnil : w = []
  · subst hnil
    exact ⟨s, (h.finals s hlt).mpr (Or.inr ⟨hs, hlive, hw⟩), [], Walk.nil s⟩
  · obtain ⟨f, hf, -, u, hwalk⟩ := h.leads (fun hle => hnil (hle hw)) hs hlive
    exact ⟨f, hf, u, hwalk⟩

/-- Attaching some word keeps every state that leads to a final one. -/
theorem Attached.productive (h : Attached aut cur mid l) (hl : l ≠ 0) {s : TaState}
    (hprod : aut.Productive s) : mid.Productive s := by
  obtain ⟨f, hf, u, hwalk⟩ := hprod
  have hlive := aut.finals_live f hf
  by_cases hcur : f ∈ cur
  · obtain ⟨g, hg, v, hrest⟩ := h.productive_current hl hcur hlive
    exact ⟨g, hg, u ++ v, (h.walk hwalk).append hrest⟩
  · exact ⟨f, (h.finals f (aut.states_lt f hlive)).mpr (Or.inl ⟨hf, hcur⟩), u, h.walk hwalk⟩

/-- Reachable states are reached further on. -/
theorem Reachable.walk {aut : TraceAutomaton} {s t : TaState} {u : List Int}
    (hs : aut.Reachable s) (hwalk : Walk aut.delta s u t) : aut.Reachable t := by
  obtain ⟨i, hi, v, hleft⟩ := hs
  exact ⟨i, hi, v ++ u, hleft.append hwalk⟩

/-- Pruning keeps a state that is initial or has a word. -/
theorem Pruned.kept (h : Pruned mid aut') {s : TaState} (hs : mid.Reachable s)
    (hsafe : s ∈ mid.initial ∨ mid.Productive s) :
    s ∈ aut'.states ∧ (s ∈ aut'.initial ∨ aut'.Productive s) := by
  have hlive : s ∈ aut'.states := by
    by_contra hdeleted
    obtain ⟨hinitial, hdead⟩ := h.deleted s hs.live hdeleted
    rcases hsafe with hstart | hprod
    · exact hinitial hstart
    · rcases hdead with hreach | haccept
      · obtain ⟨w, hw⟩ := hs.exists_mem_reach
        rw [hreach] at hw
        exact hw
      · exact acceptsFrom_ne_zero.mpr hprod haccept
  refine ⟨hlive, ?_⟩
  cases hsafe with
  | inl hstart => exact Or.inl ((h.initial s).mpr hstart)
  | inr hprod =>
      right
      rw [← acceptsFrom_ne_zero, h.acceptsFrom s hlive]
      exact acceptsFrom_ne_zero.mpr hprod

/-- Pruning keeps final states. -/
theorem Pruned.final_kept (h : Pruned mid aut') {s : TaState} (hs : mid.Reachable s)
    (hfinal : s ∈ mid.finals) : s ∈ aut'.finals :=
  (h.finals s).mpr ⟨hfinal, (h.kept hs (Or.inr ⟨s, hfinal, [], Walk.nil s⟩)).1⟩

/-- Walks to a final state do not meet a deleted state. -/
theorem Pruned.walk (h : Pruned mid aut') {s f : TaState} {u : List Int}
    (hwalk : Walk mid.delta s u f) (hs : mid.Reachable s) (hf : f ∈ mid.finals) :
    Walk aut'.delta s u f := by
  induction hwalk with
  | nil => exact Walk.nil _
  | @cons s t f a u hedge htail ih =>
      have ht := hs.walk (Walk.cons hedge (Walk.nil t))
      have hskept := (h.kept hs (Or.inr ⟨f, hf, a :: u, Walk.cons hedge htail⟩)).1
      have htkept := (h.kept ht (Or.inr ⟨f, hf, u, htail⟩)).1
      exact Walk.cons ((h.delta s a t).mpr ⟨hedge, hskept, htkept⟩) (ih ht hf)

/-- The words to final states do not suffer from the deletions. -/
theorem Pruned.reach_finals (h : Pruned mid aut') (S : TaState → Prop) :
    aut'.reach (fun s => s ∈ aut'.finals ∧ S s) = mid.reach fun s => s ∈ mid.finals ∧ S s := by
  rw [h.reach _ fun s hs => aut'.finals_live s hs.1]
  ext w
  rw [mem_reach, mem_reach]
  constructor
  · intro hw
    obtain ⟨s, hs, hw⟩ := hw
    exact ⟨s, ⟨((h.finals s).mp hs.1).1, hs.2⟩, hw⟩
  · intro hw
    obtain ⟨s, hs, hw⟩ := hw
    exact ⟨s, ⟨h.final_kept (reachable_of_mem_reach hw) hs.1, hs.2⟩, hw⟩

end TraceAutomaton

/-- **One atom.** -/
theorem Grown.of_attached (hinv : CoverInv aut cur) (hatt : Attached aut cur mid l)
    (hpruned : Pruned mid aut')
    (hcur' : ∀ s, s ∈ cur' ↔ s ∈ aut'.finals ∧ ¬ (s ∈ aut.finals ∧ s ∉ cur)) :
    Grown aut cur aut' cur' l l := by
  have hnew : ∀ s, (s ∈ cur' ∧ s ∉ cur) ↔ s ∈ aut'.finals ∧ aut.slots ≤ s := by
    intro s
    rw [hcur' s]
    constructor
    · intro h
      obtain ⟨⟨hfinal, hnotold⟩, hs⟩ := h
      refine ⟨hfinal, Nat.not_lt.mp fun hlt => ?_⟩
      rcases (hatt.finals s hlt).mp ((hpruned.finals s).mp hfinal).1 with hold | hcur
      · exact hnotold hold
      · exact hs hcur.1
    · intro h
      obtain ⟨hfinal, hge⟩ := h
      refine ⟨⟨hfinal, fun hold => ?_⟩, fun hs => ?_⟩
      · exact Nat.not_lt.mpr hge (aut.states_lt s (aut.finals_live s hold.1))
      · exact Nat.not_lt.mpr hge (hinv.below s hs)
  have hleads : ¬ l ≤ 1 → ∀ s ∈ cur, aut.Reachable s →
      ∃ f, f ∈ aut'.finals ∧ aut.slots ≤ f ∧ ∃ u, Walk aut'.delta s u f := by
    intro hl s hs hreach
    obtain ⟨f, hf, hge, u, hwalk⟩ := hatt.leads hl hs hreach.live
    have hmid := hatt.reachable hreach
    exact ⟨f, hpruned.final_kept (hmid.walk hwalk) hf, hge, u, hpruned.walk hwalk hmid hf⟩
  have hstays : ∀ s ∈ cur, aut.Reachable s → (s ∈ aut'.finals ↔ [] ∈ l) := by
    intro s hs hreach
    have hlt := aut.states_lt s hreach.live
    constructor
    · intro hfinal
      rcases (hatt.finals s hlt).mp ((hpruned.finals s).mp hfinal).1 with hold | hcur
      · exact absurd hs hold.2
      · exact hcur.2.2
    · intro hnil
      exact hpruned.final_kept (hatt.reachable hreach)
        ((hatt.finals s hlt).mpr (Or.inr ⟨hs, hreach.live, hnil⟩))
  constructor
  · exact le_refl l
  · rw [hpruned.slots]
    exact hatt.slots_le
  · intro s
    rw [hpruned.initial s, hatt.initial]
  · exact fun s hlt hlive => hatt.old_states s hlt (hpruned.states s hlive)
  · intro s hlt hlive
    have hone : ∀ t, t = s → t < aut.slots := fun t ht => ht ▸ hlt
    have hkept : ∀ t, t = s → t ∈ aut'.states := fun t ht => ht ▸ hlive
    rw [hpruned.reach _ hkept, hatt.reach_old hone]
  · intro hsafe s hreach hs
    apply hpruned.kept (hatt.reachable hreach)
    rw [hatt.initial]
    cases hs with
    | inl hstart => exact Or.inl hstart
    | inr hprod => exact Or.inr (hatt.productive hsafe hprod)
  · intro s u f hreach hf hcur hwalk
    have hmid := hatt.walk hwalk
    have hflive := aut.states_lt f (aut.finals_live f hf)
    have hfmid := (hatt.finals f hflive).mpr (Or.inl ⟨hf, hcur⟩)
    exact ⟨(hpruned.kept (hatt.reachable hreach) (Or.inr ⟨f, hfmid, u, hmid⟩)).1,
      hpruned.walk hmid (hatt.reachable hreach) hfmid⟩
  · intro s hs
    by_cases hcur : s ∈ cur
    · exact Or.inl hcur
    · exact Or.inr ((hnew s).mp ⟨hs, hcur⟩).2
  · have hset : (fun s => s ∈ cur' ∧ s ∉ cur) = fun s => s ∈ aut'.finals ∧ aut.slots ≤ s :=
      funext fun s => propext (hnew s)
    rw [hset, hpruned.reach_finals, hatt.reach_new]
  · have hset : (fun s => s ∈ cur' ∧ s ∉ cur ∧ s ∈ aut'.finals) =
        fun s => s ∈ aut'.finals ∧ aut.slots ≤ s := by
      funext s
      rw [← and_assoc, hnew s, and_iff_left_of_imp And.left]
    rw [hset, hpruned.reach_finals, hatt.reach_new]
  · intro s hs hreach
    rw [← hstays s hs hreach, hcur' s]
    exact and_iff_left fun hold => hold.2 hs
  · exact hstays
  · intro s hfinal
    by_cases hold : s ∈ aut.finals ∧ s ∉ cur
    · exact Or.inr hold
    · exact Or.inl ((hcur' s).mpr ⟨hfinal, hold⟩)
  · intro s hfinal hcur hreach
    exact hpruned.final_kept (hatt.reachable hreach)
      ((hatt.finals s (aut.states_lt s hreach.live)).mpr (Or.inl ⟨hfinal, hcur⟩))
  · intro s k t hedge hs ht
    exact (hpruned.delta s k t).mpr ⟨hatt.edge hedge, hs, ht⟩
  · intro hl s hs hreach
    obtain ⟨f, hf, hge, u, hwalk⟩ := hleads hl s hs hreach
    exact ⟨f, ((hnew f).mpr ⟨hf, hge⟩).1, hge, u, hwalk⟩
  · exact hleads

/-- The invariant holds behind an attached automaton. -/
theorem CoverInv.of_attached (hinv : CoverInv aut cur) (hatt : Attached aut cur mid l)
    (hpruned : Pruned mid aut')
    (hcur' : ∀ s, s ∈ cur' ↔ s ∈ aut'.finals ∧ ¬ (s ∈ aut.finals ∧ s ∉ cur)) :
    CoverInv aut' cur' where
  visible := by
    intro e he
    exact hatt.visible e ((hpruned.delta e.1 e.2.1 e.2.2).mp he).1
  no_entry := by
    intro s k t hedge ht
    obtain ⟨C, hcross, -⟩ := hatt.crossing
    rw [hpruned.initial, hatt.initial] at ht
    have hlt := aut.states_lt t (aut.initial_live t ht)
    have hmid := ((hpruned.delta s k t).mp hedge).1
    by_cases hs : aut.slots ≤ s
    · exact Nat.not_le.mpr hlt (hcross.new_closed s k t hs hmid)
    · rcases (hcross.old s k t hs).mp hmid with hold | ⟨-, hnew⟩
      · exact hinv.no_entry s k t hold ht
      · exact Nat.not_le.mpr hlt (hcross.target k t hnew)
  below := by
    intro s hs
    exact aut'.states_lt s (aut'.finals_live s ((hcur' s).mp hs).1)
  safe := by
    intro s hs _
    exact Or.inr ⟨s, ((hcur' s).mp hs).1, [], Walk.nil s⟩

end Atom

/-! ## Visits in a row and side by side -/

namespace TraceAutomaton

/-- Two sets of states. -/
theorem reach_or (aut : TraceAutomaton) (S T : TaState → Prop) :
    aut.reach (fun s => S s ∨ T s) = aut.reach S + aut.reach T := words_or_right _

/-- The same set of states. -/
theorem reach_subset {aut : TraceAutomaton} {S T : TaState → Prop} (h : ∀ s, S s ↔ T s) :
    aut.reach S = aut.reach T := reach_congr rfl (fun _ => Iff.rfl) h

end TraceAutomaton

namespace Grown

variable {a b c : TraceAutomaton} {curA curB curC : List TaState} {d₁ e₁ d₂ e₂ : Language Int}

/-- No new word leads to an old state. -/
theorem reach_old_le (h : Grown a curA b curB d₁ e₁) {s : TaState} (hlt : s < a.slots)
    {w : List Int} (hw : w ∈ b.reach (· = s)) : w ∈ a.reach (· = s) := by
  rw [← h.reach_old s hlt (reachable_of_mem_reach hw).live]
  exact hw

/-- An old state was reachable before. -/
theorem reachable_old (h : Grown a curA b curB d₁ e₁) {s : TaState} (hlt : s < a.slots)
    (hs : b.Reachable s) : a.Reachable s := by
  obtain ⟨w, hw⟩ := hs.exists_mem_reach
  exact reachable_of_mem_reach (h.reach_old_le hlt hw)

/-- An old state that is kept stays reachable. -/
theorem reachable_kept (h : Grown a curA b curB d₁ e₁) {s : TaState} (hs : a.Reachable s)
    (hlive : s ∈ b.states) : b.Reachable s := by
  obtain ⟨w, hw⟩ := hs.exists_mem_reach
  rw [← h.reach_old s (a.states_lt s hs.live) hlive] at hw
  exact reachable_of_mem_reach hw

/-- **Old states as a whole.**  Where states that are reached are kept, the
words to a set of old states are the same before and after. -/
theorem reach_eq (h : Grown a curA b curB d₁ e₁) {S : TaState → Prop}
    (hS : ∀ s, S s → s < a.slots) (hkept : ∀ s, S s → a.Reachable s → s ∈ b.states) :
    b.reach S = a.reach S := by
  ext w
  rw [mem_reach, mem_reach]
  constructor
  · intro hw
    obtain ⟨s, hs, hw⟩ := hw
    exact ⟨s, hs, h.reach_old_le (hS s hs) hw⟩
  · intro hw
    obtain ⟨s, hs, hw⟩ := hw
    refine ⟨s, hs, ?_⟩
    rw [h.reach_old s (hS s hs) (hkept s hs (reachable_of_mem_reach hw))]
    exact hw

/-- Attaching behind states that are held keeps every state as well. -/
theorem safe_of (h : Grown a curA b curB d₁ e₁) (hA : CoverInv a curA)
    (hsafe : d₁ ≠ 0 ∨ Held a curA) {s : TaState} (hreach : a.Reachable s)
    (hs : s ∈ a.initial ∨ a.Productive s) :
    s ∈ b.states ∧ (s ∈ b.initial ∨ b.Productive s) := by
  have hinitial : s ∈ a.initial → s ∈ b.states ∧ (s ∈ b.initial ∨ b.Productive s) := by
    intro hs
    have hb := (h.initial s).mpr hs
    exact ⟨b.initial_live s hb, Or.inl hb⟩
  have hanchored : ∀ f ∈ a.finals, f ∉ curA → ∀ u, Walk a.delta s u f →
      s ∈ b.states ∧ (s ∈ b.initial ∨ b.Productive s) := by
    intro f hf hcur u hwalk
    obtain ⟨hlive, hwalk'⟩ := h.anchored s u f hreach hf hcur hwalk
    exact ⟨hlive, Or.inr ⟨f, h.final_old f hf hcur (hreach.walk hwalk), u, hwalk'⟩⟩
  rcases hsafe with hd | hheld
  · exact h.safe hd s hreach hs
  · rcases hs with hs | ⟨f, hf, u, hwalk⟩
    · exact hinitial hs
    · by_cases hcur : f ∈ curA
      · rcases hheld f hcur (hreach.walk hwalk) with hfstart | ⟨g, hg, hgcur, v, hrest⟩
        · exact hinitial (walk_to_initial hA.no_entry hwalk hfstart ▸ hfstart)
        · exact hanchored g hg hgcur (u ++ v) (hwalk.append hrest)
      · exact hanchored f hf hcur u hwalk

/-- The current states of an earlier moment still satisfy the invariant. -/
theorem keepsInv (h : Grown a curA b curB d₁ e₁) (hA : CoverInv a curA) (hB : CoverInv b curB)
    (hsafe : d₁ ≠ 0 ∨ Held a curA) : CoverInv b curA where
  visible := hB.visible
  no_entry := hB.no_entry
  below := fun s hs => Nat.lt_of_lt_of_le (hA.below s hs) h.slots_le
  safe := by
    intro s hs hreach
    have hreachA := h.reachable_old (hA.below s hs) hreach
    exact (h.safe_of hA hsafe hreachA (hA.safe s hs hreachA)).2

/-- What is held stays held. -/
theorem held_kept (h : Grown a curA b curB d₁ e₁) (hA : CoverInv a curA)
    (hheld : Held a curA) : Held b curA := by
  intro s hs hreach
  have hreachA := h.reachable_old (hA.below s hs) hreach
  rcases hheld s hs hreachA with hstart | ⟨f, hf, hcur, u, hwalk⟩
  · exact Or.inl ((h.initial s).mpr hstart)
  · exact Or.inr ⟨f, h.final_old f hf hcur (hreachA.walk hwalk), hcur, u,
      (h.anchored s u f hreachA hf hcur hwalk).2⟩

/-- A word that is not empty, and ends in a final state, holds the states that
it was attached to. -/
theorem held_of_flagged (h : Grown a curA b curB d₁ e₁) (hA : CoverInv a curA)
    (he : ¬ e₁ ≤ 1) : Held b curA := by
  intro s hs hreach
  obtain ⟨f, hf, hge, u, hwalk⟩ := h.holds he s hs (h.reachable_old (hA.below s hs) hreach)
  refine Or.inr ⟨f, hf, ?_, u, hwalk⟩
  intro hcur
  exact Nat.not_lt.mpr hge (hA.below f hcur)

/-- What the visit left behind is held if it was held before and only the
empty word was attached, or if no word was. -/
theorem held_next (h : Grown a curA b curB d₁ e₁) (hA : CoverInv a curA)
    (hd : d₁ = 0 ∨ (Held a curA ∧ d₁ ≤ 1)) : Held b curB := by
  intro s hs hreach
  have hproper : proper d₁ = 0 := by
    rw [proper_eq_zero]
    rcases hd with rfl | ⟨-, hle⟩
    · exact bot_le
    · exact hle
  by_cases hcur : s ∈ curA
  · have hreachA := h.reachable_old (hA.below s hcur) hreach
    rcases hd with rfl | ⟨hheld, -⟩
    · exact ((h.stays s hcur hreachA).mp hs).elim
    · rcases h.held_kept hA hheld s hcur hreach with hstart | ⟨f, hf, hfcur, u, hwalk⟩
      · exact Or.inl hstart
      · -- the final state is not a new one, since no new one is reached
        refine Or.inr ⟨f, hf, ?_, u, hwalk⟩
        intro hfB
        obtain ⟨w, hw⟩ := (hreach.walk hwalk).exists_mem_reach
        have hnew : w ∈ b.reach fun s => s ∈ curB ∧ s ∉ curA :=
          mem_reach.mpr ⟨f, ⟨hfB, hfcur⟩, hw⟩
        rw [h.reach_new, hproper, mul_zero] at hnew
        exact hnew.elim
  · obtain ⟨w, hw⟩ := hreach.exists_mem_reach
    have hnew : w ∈ b.reach fun s => s ∈ curB ∧ s ∉ curA := mem_reach.mpr ⟨s, ⟨hs, hcur⟩, hw⟩
    rw [h.reach_new, hproper, mul_zero] at hnew
    exact hnew.elim

/-- Walks stay when the states are kept that are initial or lead to a final
one. -/
theorem walk_kept (h : Grown a curA b curB d₁ e₁)
    (hentry : ∀ s l t, a.delta s l t → t ∉ a.initial)
    (hkept : ∀ s, a.Reachable s → s ∈ a.initial ∨ a.Productive s → s ∈ b.states)
    {s t : TaState} {u : List Int} (hwalk : Walk a.delta s u t) (hs : a.Reachable s)
    (ht : t ∈ a.initial ∨ a.Productive t) : Walk b.delta s u t := by
  have hsafe : ∀ {s u}, Walk a.delta s u t → s ∈ a.initial ∨ a.Productive s := by
    intro s u hwalk
    rcases ht with hstart | ⟨f, hf, v, hrest⟩
    · exact Or.inl (walk_to_initial hentry hwalk hstart ▸ hstart)
    · exact Or.inr ⟨f, hf, u ++ v, hwalk.append hrest⟩
  induction hwalk with
  | nil => exact Walk.nil _
  | @cons s m t k u hedge htail ih =>
      have hm := hs.walk (Walk.cons hedge (Walk.nil m))
      have hslive := hkept s hs (hsafe (Walk.cons hedge htail))
      have hmlive := hkept m hm (hsafe htail)
      exact Walk.cons (h.delta_old s k m hedge hslive hmlive) (ih hm ht hsafe)

/-- The words to the new current states. -/
theorem reach_current (h : Grown a curA b curB d₁ e₁) (hA : CoverInv a curA) :
    b.reach (· ∈ curB) = a.reach (· ∈ curA) * d₁ := by
  ext w
  rw [mem_reach]
  constructor
  · intro hw
    obtain ⟨s, hs, hw⟩ := hw
    by_cases hcur : s ∈ curA
    · have hold := h.reach_old_le (hA.below s hcur) hw
      have hnil := (h.stays s hcur (reachable_of_mem_reach hold)).mp hs
      exact ⟨w, mem_reach.mpr ⟨s, hcur, hold⟩, [], hnil, List.append_nil w⟩
    · have hnew : w ∈ b.reach fun s => s ∈ curB ∧ s ∉ curA := mem_reach.mpr ⟨s, ⟨hs, hcur⟩, hw⟩
      rw [h.reach_new] at hnew
      exact mul_le_mul_right proper_le _ hnew
  · intro hw
    obtain ⟨u, hu, v, hv, rfl⟩ := hw
    by_cases hnil : v = []
    · subst hnil
      obtain ⟨s, hs, hu⟩ := mem_reach.mp hu
      have hreach := reachable_of_mem_reach hu
      have hd : d₁ ≠ 0 := ne_zero_iff_exists.mpr ⟨[], hv⟩
      have hkept := (h.safe hd s hreach (hA.safe s hs hreach)).1
      refine ⟨s, (h.stays s hs hreach).mpr hv, ?_⟩
      simp only [List.append_nil]
      rw [h.reach_old s (hA.below s hs) hkept]
      exact hu
    · have hnew : u ++ v ∈ a.reach (· ∈ curA) * proper d₁ := ⟨u, hu, v, ⟨hv, hnil⟩, rfl⟩
      rw [← h.reach_new] at hnew
      obtain ⟨s, hs, hw⟩ := mem_reach.mp hnew
      exact ⟨s, hs.1, hw⟩

/-- A current state that stays one is still reached. -/
theorem stays_reachable (h : Grown a curA b curB d₁ e₁) (hA : CoverInv a curA) {s : TaState}
    (hs : s ∈ curA) (hreach : a.Reachable s) (hcur : s ∈ curB) : b.Reachable s := by
  have hd : d₁ ≠ 0 := ne_zero_iff_exists.mpr ⟨[], (h.stays s hs hreach).mp hcur⟩
  exact h.reachable_kept hreach (h.safe hd s hreach (hA.safe s hs hreach)).1

/-- A current state that was not one before is new. -/
theorem new_of_notMem (h : Grown a curA b curB d₁ e₁) {s : TaState} (hs : s ∈ curB)
    (hcur : s ∉ curA) : a.slots ≤ s := (h.current s hs).resolve_left hcur

/-- The part of the current states that a second visit keeps. -/
private theorem reach_kept_current (h₂ : Grown b curB c curC d₂ e₂) (hB : CoverInv b curB)
    {S T : TaState → Prop} {k l m : Language Int} (hm : m ≤ d₂) (hS : ∀ s, S s → s ∈ curB)
    (hT : ∀ s ∈ curB, b.Reachable s → (T s ↔ [] ∈ m)) (hl : b.reach S = k * l) :
    c.reach (fun s => S s ∧ T s) = k * onlyIf ([] ∈ m) l := by
  have hfixed : c.reach (fun s => S s ∧ T s) = onlyIf ([] ∈ m) (b.reach S) := by
    ext w
    rw [mem_reach]
    constructor
    · intro hw
      obtain ⟨s, ⟨hs, ht⟩, hw⟩ := hw
      have hold := h₂.reach_old_le (hB.below s (hS s hs)) hw
      exact ⟨(hT s (hS s hs) (reachable_of_mem_reach hold)).mp ht, mem_reach.mpr ⟨s, hs, hold⟩⟩
    · intro hw
      obtain ⟨hnil, hw⟩ := hw
      obtain ⟨s, hs, hw⟩ := mem_reach.mp hw
      have hreach := reachable_of_mem_reach hw
      have hd₂ : d₂ ≠ 0 := ne_zero_iff_exists.mpr ⟨[], hm hnil⟩
      have hkept := (h₂.safe hd₂ s hreach (hB.safe s (hS s hs) hreach)).1
      refine ⟨s, ⟨hs, (hT s (hS s hs) hreach).mpr hnil⟩, ?_⟩
      rw [h₂.reach_old s (hB.below s (hS s hs)) hkept]
      exact hw
  rw [hfixed, hl]
  ext w
  constructor
  · intro hw
    obtain ⟨hnil, u, hu, v, hv, rfl⟩ := hw
    exact ⟨u, hu, v, ⟨hnil, hv⟩, rfl⟩
  · intro hw
    obtain ⟨u, hu, v, ⟨hnil, hv⟩, rfl⟩ := hw
    exact ⟨hnil, u, hu, v, hv, rfl⟩

/-- Two steps add no state below the first numbers. -/
theorem states_before {cur : List TaState} (h₁ : Grown a curA b curB d₁ e₁)
    (h₂ : Grown b cur c curC d₂ e₂) : ∀ s < a.slots, s ∈ c.states → s ∈ a.states := by
  intro s hlt hlive
  exact h₁.states_old s hlt (h₂.states_old s (Nat.lt_of_lt_of_le hlt h₁.slots_le) hlive)

/-- Nor do they lead to such a state in another way. -/
theorem reach_before {cur : List TaState} (h₁ : Grown a curA b curB d₁ e₁)
    (h₂ : Grown b cur c curC d₂ e₂) :
    ∀ s < a.slots, s ∈ c.states → c.reach (· = s) = a.reach (· = s) := by
  intro s hlt hlive
  have hltB := Nat.lt_of_lt_of_le hlt h₁.slots_le
  rw [h₂.reach_old s hltB hlive, h₁.reach_old s hlt (h₂.states_old s hltB hlive)]

/-- Both keep the transitions between states that stay. -/
theorem delta_before {cur : List TaState} (h₁ : Grown a curA b curB d₁ e₁)
    (h₂ : Grown b cur c curC d₂ e₂) :
    ∀ s l t, a.delta s l t → s ∈ c.states → t ∈ c.states → c.delta s l t := by
  intro s l t hedge hs ht
  have hlive := a.trans_live _ hedge
  have hold : ∀ x ∈ a.states, x ∈ c.states → x ∈ b.states := fun x hx hc =>
    h₂.states_old x (Nat.lt_of_lt_of_le (a.states_lt x hx) h₁.slots_le) hc
  exact h₂.delta_old s l t
    (h₁.delta_old s l t hedge (hold s hlive.1 hs) (hold t hlive.2 ht)) hs ht

/-- Words in a row lead from a current state to a new one, where those of the
second visit do. -/
private theorem leads_seq (h₁ : Grown a curA b curB d₁ e₁) (h₂ : Grown b curB c curC d₂ e₂)
    (hA : CoverInv a curA) (hB : CoverInv b curB) {m : Language Int} {T : TaState → Prop}
    (hm : m ≤ d₂) (hstay : [] ∈ m → ∀ t ∈ curB, b.Reachable t → T t)
    (hnew : ¬ m ≤ 1 → ∀ t ∈ curB, b.Reachable t →
      ∃ f, T f ∧ b.slots ≤ f ∧ ∃ u, Walk c.delta t u f)
    (hne : ¬ d₁ * m ≤ 1) {s : TaState} (hs : s ∈ curA) (hreach : a.Reachable s) :
    ∃ f, T f ∧ a.slots ≤ f ∧ ∃ u, Walk c.delta s u f := by
  have hd₁ : d₁ ≠ 0 := by
    intro heq
    rw [heq, zero_mul] at hne
    exact hne bot_le
  have hm₀ : m ≠ 0 := by
    intro heq
    rw [heq, mul_zero] at hne
    exact hne bot_le
  have hd₂ : d₂ ≠ 0 := fun heq => hm₀ (le_antisymm (hm.trans heq.le) bot_le)
  have hnil : ∀ {l : Language Int}, l ≠ 0 → l ≤ 1 → [] ∈ l := by
    intro l hl hle
    obtain ⟨w, hw⟩ := ne_zero_iff_exists.mp hl
    have hempty : w = [] := hle hw
    exact hempty ▸ hw
  by_cases hone : d₁ ≤ 1
  · -- the state itself stays
    have hcur := (h₁.stays s hs hreach).mpr (hnil hd₁ hone)
    have hmne : ¬ m ≤ 1 := by
      intro hle
      exact hne ((mul_le_mul' hone hle).trans (mul_one 1).le)
    obtain ⟨f, hf, hge, u, hwalk⟩ := hnew hmne s hcur (h₁.stays_reachable hA hs hreach hcur)
    exact ⟨f, hf, h₁.slots_le.trans hge, u, hwalk⟩
  · obtain ⟨t, ht, hge, u, hwalk⟩ := h₁.leads hone s hs hreach
    have hsB := h₁.reachable_kept hreach (h₁.safe hd₁ s hreach (hA.safe s hs hreach)).1
    have htB := hsB.walk hwalk
    have hwalk' : Walk c.delta s u t :=
      h₂.walk_kept hB.no_entry (fun x hx hsafe => (h₂.safe hd₂ x hx hsafe).1) hwalk hsB
        (hB.safe t ht htB)
    by_cases hmone : m ≤ 1
    · exact ⟨t, hstay (hnil hm₀ hmone) t ht htB, hge, u, hwalk'⟩
    · obtain ⟨f, hf, hgeB, v, hrest⟩ := hnew hmone t ht htB
      exact ⟨f, hf, h₁.slots_le.trans hgeB, u ++ v, hwalk'.append hrest⟩

/-- **Concatenation.** -/
theorem seq (h₁ : Grown a curA b curB d₁ e₁) (h₂ : Grown b curB c curC d₂ e₂)
    (hA : CoverInv a curA) (hB : CoverInv b curB) :
    Grown a curA c curC (d₁ * d₂) (d₁ * e₂) := by
  have hnew : ∀ s, s ∈ curC → s ∉ curB → s ∉ curA := by
    intro s hs hcur hcurA
    exact Nat.not_lt.mpr (h₂.new_of_notMem hs hcur)
      (Nat.lt_of_lt_of_le (hA.below s hcurA) h₁.slots_le)
  have hold : ∀ s ∈ curA, s ∈ curC → s ∈ curB := by
    intro s hs hcur
    by_contra hcurB
    exact hnew s hcur hcurB hs
  constructor
  · exact mul_le_mul_right h₂.le d₁
  · exact h₁.slots_le.trans h₂.slots_le
  · exact fun s => (h₂.initial s).trans (h₁.initial s)
  · exact h₁.states_before h₂
  · exact h₁.reach_before h₂
  · intro hd s hreach hs
    have hd₁ : d₁ ≠ 0 := by
      intro heq
      subst heq
      exact hd (zero_mul d₂)
    have hd₂ : d₂ ≠ 0 := by
      intro heq
      subst heq
      exact hd (mul_zero d₁)
    obtain ⟨hlive, hsB⟩ := h₁.safe hd₁ s hreach hs
    exact h₂.safe hd₂ s (h₁.reachable_kept hreach hlive) hsB
  · intro s u f hreach hf hcur hwalk
    obtain ⟨hlive, hwalkB⟩ := h₁.anchored s u f hreach hf hcur hwalk
    have hfreach := hreach.walk hwalk
    have hfB := h₁.final_old f hf hcur hfreach
    refine h₂.anchored s u f (h₁.reachable_kept hreach hlive) hfB ?_ hwalkB
    intro hfcur
    exact Nat.not_lt.mpr (h₁.new_of_notMem hfcur hcur) (a.states_lt f hfreach.live)
  · intro s hs
    rcases h₂.current s hs with hcur | hge
    · exact h₁.current s hcur
    · exact Or.inr (h₁.slots_le.trans hge)
  · have hset : ∀ s, (s ∈ curC ∧ s ∉ curA) ↔
        (s ∈ curC ∧ s ∉ curB) ∨ ((s ∈ curB ∧ s ∉ curA) ∧ s ∈ curC) := by
      intro s
      have hcurrent := hnew s
      grind
    rw [reach_subset hset, reach_or, h₂.reach_new, h₁.reach_current hA,
      reach_kept_current h₂ hB le_rfl (fun s hs => hs.1) h₂.stays h₁.reach_new, proper_mul,
      mul_add, mul_assoc]
  · have hset : ∀ s, (s ∈ curC ∧ s ∉ curA ∧ s ∈ c.finals) ↔
        (s ∈ curC ∧ s ∉ curB ∧ s ∈ c.finals) ∨
          ((s ∈ curB ∧ s ∉ curA) ∧ (s ∈ curC ∧ s ∈ c.finals)) := by
      intro s
      have hcurrent := hnew s
      grind
    have hT : ∀ s ∈ curB, b.Reachable s → ((s ∈ curC ∧ s ∈ c.finals) ↔ [] ∈ e₂) := by
      intro s hs hreach
      rw [h₂.stays s hs hreach, h₂.stays_final s hs hreach]
      exact and_iff_right_of_imp fun h => h₂.le h
    rw [reach_subset hset, reach_or, h₂.accept_new, h₁.reach_current hA,
      reach_kept_current h₂ hB h₂.le (fun s hs => hs.1) hT h₁.reach_new, proper_mul,
      mul_add, mul_assoc]
  · intro s hs hreach
    rw [nil_mem_mul, ← h₁.stays s hs hreach]
    constructor
    · intro hcur
      have hcurB := hold s hs hcur
      exact ⟨hcurB, (h₂.stays s hcurB (h₁.stays_reachable hA hs hreach hcurB)).mp hcur⟩
    · intro h
      exact (h₂.stays s h.1 (h₁.stays_reachable hA hs hreach h.1)).mpr h.2
  · intro s hs hreach
    rw [nil_mem_mul, ← h₁.stays s hs hreach]
    constructor
    · intro hfinal
      have hcurB : s ∈ curB := by
        rcases h₂.final_new s hfinal with hcur | ⟨hfB, -⟩
        · exact hold s hs hcur
        · exact (h₁.stays s hs hreach).mpr (h₁.le ((h₁.stays_final s hs hreach).mp hfB))
      exact ⟨hcurB, (h₂.stays_final s hcurB (h₁.stays_reachable hA hs hreach hcurB)).mp hfinal⟩
    · intro h
      exact (h₂.stays_final s h.1 (h₁.stays_reachable hA hs hreach h.1)).mpr h.2
  · intro s hfinal
    rcases h₂.final_new s hfinal with hcur | ⟨hfB, hcurB⟩
    · exact Or.inl hcur
    · exact Or.inr ((h₁.final_new s hfB).resolve_left hcurB)
  · intro s hf hcur hreach
    have hfB := h₁.final_old s hf hcur hreach
    have hlive := b.finals_live s hfB
    refine h₂.final_old s hfB ?_ (h₁.reachable_kept hreach hlive)
    intro hcurB
    exact Nat.not_lt.mpr (h₁.new_of_notMem hcurB hcur) (a.states_lt s hreach.live)
  · exact h₁.delta_before h₂
  · intro hne s hs hreach
    exact leads_seq h₁ h₂ hA hB le_rfl (fun hnil t ht htB => (h₂.stays t ht htB).mpr hnil)
      h₂.leads hne hs hreach
  · intro hne s hs hreach
    exact leads_seq h₁ h₂ hA hB h₂.le (fun hnil t ht htB => (h₂.stays_final t ht htB).mpr hnil)
      h₂.holds hne hs hreach

/-- A state that the left operand of an alternative keeps is kept by the
right one. -/
private theorem kept_side (h₁ : Grown a curA b curB d₁ e₁) (h₂ : Grown b curA c curC d₂ e₂)
    (hA : CoverInv a curA) (hB : CoverInv b curA)
    (hsafe : d₂ ≠ 0 ∨ Held b curA ∨ [] ∉ e₁) {s : TaState} (hreach : b.Reachable s)
    (hs : s ∈ b.initial ∨ b.Productive s) :
    s ∈ c.states ∧ (s ∈ c.initial ∨ c.Productive s) := by
  rcases hsafe with hd | hheld | hnil
  · exact h₂.safe hd s hreach hs
  · exact h₂.safe_of hB (Or.inr hheld) hreach hs
  · rcases hs with hs | ⟨f, hf, u, hwalk⟩
    · have hc := (h₂.initial s).mpr hs
      exact ⟨c.initial_live s hc, Or.inl hc⟩
    · have hfreach := hreach.walk hwalk
      have hcur : f ∉ curA := by
        intro hcur
        exact hnil ((h₁.stays_final f hcur (h₁.reachable_old (hA.below f hcur) hfreach)).mp hf)
      obtain ⟨hlive, hwalk'⟩ := h₂.anchored s u f hreach hf hcur hwalk
      exact ⟨hlive, Or.inr ⟨f, h₂.final_old f hf hcur hfreach, u, hwalk'⟩⟩

/-- **Alternative.**  The right operand starts from the current states that
the left one started from. -/
theorem alt (h₁ : Grown a curA b curB d₁ e₁) (h₂ : Grown b curA c curC d₂ e₂)
    (hA : CoverInv a curA) (hB : CoverInv b curB) (hsafe₁ : d₁ ≠ 0 ∨ Held a curA)
    (hsafe₂ : d₂ ≠ 0 ∨ Held b curA ∨ [] ∉ e₁) :
    Grown a curA c (curC ∪ curB) (d₁ + d₂) (proper e₁ + e₂) := by
  have hBA := h₁.keepsInv hA hB hsafe₁
  have hkept : ∀ s, b.Reachable s → s ∈ b.initial ∨ b.Productive s →
      s ∈ c.states ∧ (s ∈ c.initial ∨ c.Productive s) := fun s hreach hs =>
    h₁.kept_side h₂ hA hBA hsafe₂ hreach hs
  have hreachA : b.reach (· ∈ curA) = a.reach (· ∈ curA) :=
    h₁.reach_eq hA.below fun s hs hreach => (h₁.safe_of hA hsafe₁ hreach (hA.safe s hs hreach)).1
  have hreachB : ∀ S : TaState → Prop, (∀ s, S s → s ∈ curB) → c.reach S = b.reach S :=
    fun S hS => h₂.reach_eq (fun s hs => hB.below s (hS s hs)) fun s hs hreach =>
      (hkept s hreach (hB.safe s (hS s hs) hreach)).1
  have hcurB : ∀ s, s ∈ curB → s ∉ curA → s ∉ curC := by
    intro s hs hcur hcurC
    exact Nat.not_lt.mpr (h₂.new_of_notMem hcurC hcur) (hB.below s hs)
  constructor
  · exact add_le_add (proper_le.trans h₁.le) h₂.le
  · exact h₁.slots_le.trans h₂.slots_le
  · exact fun s => (h₂.initial s).trans (h₁.initial s)
  · exact h₁.states_before h₂
  · exact h₁.reach_before h₂
  · intro _ s hreach hs
    obtain ⟨hlive, hsB⟩ := h₁.safe_of hA hsafe₁ hreach hs
    exact hkept s (h₁.reachable_kept hreach hlive) hsB
  · intro s u f hreach hf hcur hwalk
    obtain ⟨hlive, hwalkB⟩ := h₁.anchored s u f hreach hf hcur hwalk
    exact h₂.anchored s u f (h₁.reachable_kept hreach hlive)
      (h₁.final_old f hf hcur (hreach.walk hwalk)) hcur hwalkB
  · intro s hs
    rcases List.mem_union_iff.mp hs with hs | hs
    · rcases h₂.current s hs with hcur | hge
      · exact Or.inl hcur
      · exact Or.inr (h₁.slots_le.trans hge)
    · exact h₁.current s hs
  · have hset : ∀ s, (s ∈ curC ∪ curB ∧ s ∉ curA) ↔
        (s ∈ curB ∧ s ∉ curA) ∨ (s ∈ curC ∧ s ∉ curA) := by
      intro s
      rw [List.mem_union_iff]
      grind
    rw [reach_subset hset, reach_or, hreachB _ fun s hs => hs.1, h₁.reach_new, h₂.reach_new,
      hreachA, proper_add, mul_add]
  · have hfinal : ∀ s, (s ∈ curB ∧ s ∉ curA) ∧ b.Reachable s →
        (s ∈ c.finals ↔ s ∈ b.finals) := by
      intro s hs
      constructor
      · intro hf
        rcases h₂.final_new s hf with hcur | ⟨hfB, -⟩
        · exact absurd hcur (hcurB s hs.1.1 hs.1.2)
        · exact hfB
      · exact fun hf => h₂.final_old s hf hs.1.2 hs.2
    have hset : ∀ s, (s ∈ curC ∪ curB ∧ s ∉ curA ∧ s ∈ c.finals) ↔
        (s ∈ curB ∧ s ∉ curA ∧ s ∈ c.finals) ∨ (s ∈ curC ∧ s ∉ curA ∧ s ∈ c.finals) := by
      intro s
      rw [List.mem_union_iff]
      grind
    have hleft : c.reach (fun s => s ∈ curB ∧ s ∉ curA ∧ s ∈ c.finals) =
        b.reach fun s => s ∈ curB ∧ s ∉ curA ∧ s ∈ b.finals := by
      rw [hreachB _ fun s hs => hs.1]
      ext w
      rw [mem_reach, mem_reach]
      constructor
      · intro hw
        obtain ⟨s, ⟨hs, hcur, hf⟩, hw⟩ := hw
        exact ⟨s, ⟨hs, hcur, (hfinal s ⟨⟨hs, hcur⟩, reachable_of_mem_reach hw⟩).mp hf⟩, hw⟩
      · intro hw
        obtain ⟨s, ⟨hs, hcur, hf⟩, hw⟩ := hw
        exact ⟨s, ⟨hs, hcur, (hfinal s ⟨⟨hs, hcur⟩, reachable_of_mem_reach hw⟩).mpr hf⟩, hw⟩
    have hproper : proper (proper e₁ + e₂) = proper e₁ + proper e₂ := by
      rw [proper_add, proper_proper]
    rw [reach_subset hset, reach_or, hleft, h₁.accept_new, h₂.accept_new, hreachA, hproper,
      mul_add]
  · intro s hs hreach
    have hB' := h₁.reachable_kept hreach (h₁.safe_of hA hsafe₁ hreach (hA.safe s hs hreach)).1
    rw [List.mem_union_iff, h₂.stays s hs hB', h₁.stays s hs hreach]
    exact or_comm
  · intro s hs hreach
    have hB' := h₁.reachable_kept hreach (h₁.safe_of hA hsafe₁ hreach (hA.safe s hs hreach)).1
    rw [h₂.stays_final s hs hB']
    exact (or_iff_right nil_notMem_proper).symm
  · intro s hf
    rcases h₂.final_new s hf with hcur | ⟨hfB, hs⟩
    · exact Or.inl (List.mem_union_iff.mpr (Or.inl hcur))
    · rcases h₁.final_new s hfB with hcur | hold
      · exact Or.inl (List.mem_union_iff.mpr (Or.inr hcur))
      · exact Or.inr hold
  · intro s hf hcur hreach
    have hfB := h₁.final_old s hf hcur hreach
    exact h₂.final_old s hfB hcur (h₁.reachable_kept hreach (b.finals_live s hfB))
  · exact h₁.delta_before h₂
  · intro hne s hs hreach
    have hsB := h₁.reachable_kept hreach (h₁.safe_of hA hsafe₁ hreach (hA.safe s hs hreach)).1
    by_cases hone : d₁ ≤ 1
    · have hd₂ : ¬ d₂ ≤ 1 := fun hle => hne (add_le hone hle)
      obtain ⟨t, ht, hge, u, hwalk⟩ := h₂.leads hd₂ s hs hsB
      exact ⟨t, List.mem_union_iff.mpr (Or.inl ht), h₁.slots_le.trans hge, u, hwalk⟩
    · obtain ⟨t, ht, hge, u, hwalk⟩ := h₁.leads hone s hs hreach
      have hwalk' := h₂.walk_kept hB.no_entry (fun x hx hsafe => (hkept x hx hsafe).1) hwalk hsB
        (hB.safe t ht (hsB.walk hwalk))
      exact ⟨t, List.mem_union_iff.mpr (Or.inr ht), hge, u, hwalk'⟩
  · intro hne s hs hreach
    have hsB := h₁.reachable_kept hreach (h₁.safe_of hA hsafe₁ hreach (hA.safe s hs hreach)).1
    by_cases hone : e₁ ≤ 1
    · have he₂ : ¬ e₂ ≤ 1 := fun hle => hne (add_le (proper_le.trans hone) hle)
      obtain ⟨f, hf, hge, u, hwalk⟩ := h₂.holds he₂ s hs hsB
      exact ⟨f, hf, h₁.slots_le.trans hge, u, hwalk⟩
    · obtain ⟨f, hf, hge, u, hwalk⟩ := h₁.holds hone s hs hreach
      have hcur : f ∉ curA := fun hcur => Nat.not_lt.mpr hge (hA.below f hcur)
      exact ⟨f, h₂.final_old f hf hcur (hsB.walk hwalk), hge, u,
        (h₂.anchored s u f hsB hf hcur hwalk).2⟩

/-- The invariant behind an alternative. -/
theorem alt_inv (h₁ : Grown a curA b curB d₁ e₁) (h₂ : Grown b curA c curC d₂ e₂)
    (hA : CoverInv a curA) (hB : CoverInv b curB) (hC : CoverInv c curC)
    (hsafe₁ : d₁ ≠ 0 ∨ Held a curA) (hsafe₂ : d₂ ≠ 0 ∨ Held b curA ∨ [] ∉ e₁) :
    CoverInv c (curC ∪ curB) where
  visible := hC.visible
  no_entry := hC.no_entry
  below := by
    intro s hs
    rcases List.mem_union_iff.mp hs with hs | hs
    · exact hC.below s hs
    · exact Nat.lt_of_lt_of_le (hB.below s hs) h₂.slots_le
  safe := by
    intro s hs hreach
    rcases List.mem_union_iff.mp hs with hs | hs
    · exact hC.safe s hs hreach
    · have hreachB := h₂.reachable_old (hB.below s hs) hreach
      exact (h₁.kept_side h₂ hA (h₁.keepsInv hA hB hsafe₁) hsafe₂ hreachB
        (hB.safe s hs hreachB)).2

end Grown

/-! ## Whole patterns -/

namespace CoveragePattern

variable {F P : Type} (lang : PathPattern F P → Language Int)

/-- The words of a pattern whose last state keeps its final flag. -/
def flagged : CoveragePattern F P → Language Int
  | atom a => lang (.atom a)
  | quote pp => lang pp
  | cpAlternative cpA cpB => proper cpA.flagged + cpB.flagged
  | cpConcat cpA cpB => cpA.denote lang * cpB.flagged

/-- No operand makes the visitor use a deleted state.  Without words it leads
to the deletion of the states behind which it is visited, unless they are
held: they are initial, or an operand beside it has a word there that is not
empty. -/
def Undisturbed : CoveragePattern F P → Prop → Prop
  | atom _, _ => True
  | quote _, _ => True
  | cpAlternative cpA cpB, held =>
      cpA.Undisturbed held ∧ cpB.Undisturbed (held ∨ ¬ cpA.flagged lang ≤ 1) ∧
        (held ∨ cpA.denote lang ≠ 0) ∧
        (held ∨ ¬ cpA.flagged lang ≤ 1 ∨ cpB.denote lang ≠ 0 ∨ [] ∉ cpA.flagged lang)
  | cpConcat cpA cpB, held =>
      cpA.Undisturbed held ∧
        cpB.Undisturbed (cpA.denote lang = 0 ∨ (held ∧ cpA.denote lang ≤ 1))

end CoveragePattern

section Visits

variable {F P : Type} {get : PathPattern F P → TraceAutomaton}

/-- The language that a visit attaches for a path pattern. -/
def attachedBy (get : PathPattern F P → TraceAutomaton) (pp : PathPattern F P) : Language Int :=
  (get pp).attachedWords

/-- A leaf attaches its automaton. -/
private theorem grown_atom {st : CoverageState} {ta : TraceAutomaton} (hta : ta.Attachable)
    (hinv : CoverInv st.testGoalAutomaton st.currentFinal) :
    Grown st.testGoalAutomaton st.currentFinal (st.copyFromPathPattern ta).2.testGoalAutomaton
        (st.copyFromPathPattern ta).2.currentFinal ta.attachedWords ta.attachedWords ∧
      CoverInv (st.copyFromPathPattern ta).2.testGoalAutomaton
        (st.copyFromPathPattern ta).2.currentFinal := by
  obtain ⟨mid, hatt, hpruned, hcur⟩ := copyFromPathPattern_spec hta hinv.visible hinv.below
  exact ⟨Grown.of_attached hinv hatt hpruned hcur, CoverInv.of_attached hinv hatt hpruned hcur⟩

/-- **Any pattern, from any current states.** -/
theorem visitCoveragePattern_grown (cp : CoveragePattern F P) (st : CoverageState)
    {held : Prop} (hinv : CoverInv st.testGoalAutomaton st.currentFinal)
    (hheld : held → Held st.testGoalAutomaton st.currentFinal)
    (hatt : ∀ pp ∈ cp.pathPatterns, (get pp).Attachable)
    (hund : cp.Undisturbed (attachedBy get) held) :
    Grown st.testGoalAutomaton st.currentFinal
        (visitCoveragePattern get cp st).2.testGoalAutomaton
        (visitCoveragePattern get cp st).2.currentFinal
        (cp.denote (attachedBy get)) (cp.flagged (attachedBy get)) ∧
      CoverInv (visitCoveragePattern get cp st).2.testGoalAutomaton
        (visitCoveragePattern get cp st).2.currentFinal := by
  induction cp generalizing st held with
  | atom a => exact grown_atom (hatt _ (List.mem_singleton_self _)) hinv
  | quote pp => exact grown_atom (hatt _ (List.mem_singleton_self _)) hinv
  | cpAlternative cpA cpB ihA ihB =>
      obtain ⟨hundA, hundB, hwordsA, hwordsB⟩ := hund
      obtain ⟨hA, hinvA⟩ :=
        ihA st hinv hheld (fun pp hpp => hatt pp (List.mem_append_left _ hpp)) hundA
      have hsafe₁ : cpA.denote (attachedBy get) ≠ 0 ∨
          Held st.testGoalAutomaton st.currentFinal := by
        rcases hwordsA with hs | hd
        · exact Or.inr (hheld hs)
        · exact Or.inl hd
      have hheldB : held ∨ ¬ cpA.flagged (attachedBy get) ≤ 1 →
          Held (visitCoveragePattern get cpA st).2.testGoalAutomaton st.currentFinal := by
        intro hs
        rcases hs with hs | he
        · exact hA.held_kept hinv (hheld hs)
        · exact hA.held_of_flagged hinv he
      have hsafe₂ : cpB.denote (attachedBy get) ≠ 0 ∨
          Held (visitCoveragePattern get cpA st).2.testGoalAutomaton st.currentFinal ∨
            [] ∉ cpA.flagged (attachedBy get) := by
        rcases hwordsB with hs | he | hd | hnil
        · exact Or.inr (Or.inl (hheldB (Or.inl hs)))
        · exact Or.inr (Or.inl (hheldB (Or.inr he)))
        · exact Or.inl hd
        · exact Or.inr (Or.inr hnil)
      have hinvB := hA.keepsInv hinv hinvA hsafe₁
      obtain ⟨hB, hinvC⟩ :=
        ihB { (visitCoveragePattern get cpA st).2 with currentFinal := st.currentFinal } hinvB
          hheldB (fun pp hpp => hatt pp (List.mem_append_right _ hpp)) hundB
      exact ⟨hA.alt hB hinv hinvA hsafe₁ hsafe₂, hA.alt_inv hB hinv hinvA hinvC hsafe₁ hsafe₂⟩
  | cpConcat cpA cpB ihA ihB =>
      obtain ⟨hundA, hundB⟩ := hund
      obtain ⟨hA, hinvA⟩ :=
        ihA st hinv hheld (fun pp hpp => hatt pp (List.mem_append_left _ hpp)) hundA
      have hheldB : (cpA.denote (attachedBy get) = 0 ∨
            (held ∧ cpA.denote (attachedBy get) ≤ 1)) →
          Held (visitCoveragePattern get cpA st).2.testGoalAutomaton
            (visitCoveragePattern get cpA st).2.currentFinal := by
        intro hs
        exact hA.held_next hinv (hs.imp id fun h => ⟨hheld h.1, h.2⟩)
      obtain ⟨hB, hinvB⟩ :=
        ihB (visitCoveragePattern get cpA st).2 hinvA hheldB
          (fun pp hpp => hatt pp (List.mem_append_right _ hpp)) hundB
      exact ⟨hA.seq hB hinv hinvA, hinvB⟩

/-- The automaton that `visit(Query)` starts with. -/
theorem coverStart (old : TraceAutomaton) :
    let q := (old.delStateAll old.states).newState
    let aut := (q.2.insertInitial q.1).setFinal q.1
    aut.trans = [] ∧ (∀ s, s ∈ aut.initial ↔ s = q.1) ∧ (∀ s, s ∈ aut.finals ↔ s = q.1) ∧
      q.1 < aut.slots := by
  intro q aut
  have hstates : ∀ s, s ∉ (old.delStateAll old.states).states := by
    intro s hs
    rw [mem_delStateAll_states] at hs
    exact hs.2 hs.1
  have htrans : (old.delStateAll old.states).trans = [] :=
    List.eq_nil_iff_forall_not_mem.mpr fun e he =>
      hstates _ ((old.delStateAll old.states).trans_live e he).1
  have hinitial : ∀ s, s ∉ (old.delStateAll old.states).initial := fun s hs =>
    hstates s ((old.delStateAll old.states).initial_live s hs)
  have hfinals : ∀ s, s ∉ (old.delStateAll old.states).finals := fun s hs =>
    hstates s ((old.delStateAll old.states).finals_live s hs)
  have hlive : q.1 ∈ q.2.states := List.mem_append_right _ (List.mem_singleton_self _)
  refine ⟨?_, ?_, ?_, ?_⟩
  · simpa [aut, q] using htrans
  · intro s
    simp only [aut, setFinal_initial, insertInitial, mem_swapInitial, List.mem_insert_iff]
    constructor
    · intro h
      exact h.1.resolve_right (hinitial s)
    · intro heq
      subst heq
      exact ⟨Or.inl rfl, hlive⟩
  · intro s
    simp only [aut, mem_setFinal, insertInitial_finals, insertInitial_states]
    constructor
    · intro h
      rcases h with h | h
      · exact absurd h (hfinals s)
      · exact h.1
    · intro heq
      subst heq
      exact Or.inr ⟨rfl, hlive⟩
  · simp [aut, q]

/-- **The automaton of a cover clause** accepts the flagged words. -/
theorem visitCover_accepts {cover : CoveragePattern F P} {old : TraceAutomaton}
    (hatt : ∀ pp ∈ cover.pathPatterns, (get pp).Attachable)
    (hund : cover.Undisturbed (attachedBy get) True) :
    (visitCover get cover old).2.testGoalAutomaton.accepts = cover.flagged (attachedBy get) := by
  obtain ⟨htrans, hinitial, hfinals, hlt⟩ := coverStart old
  let q := (old.delStateAll old.states).newState.1
  let aut := ((old.delStateAll old.states).newState.2.insertInitial q).setFinal q
  have hno : ∀ s l t, ¬ aut.delta s l t := by
    intro s l t hedge
    rw [delta, htrans] at hedge
    cases hedge
  have hcur : ∀ s, s ∈ [q] ↔ s = q := fun s => List.mem_singleton
  have hinv : CoverInv aut [q] := by
    constructor
    · intro e he
      exact absurd he (hno e.1 e.2.1 e.2.2)
    · exact fun s l t hedge => absurd hedge (hno s l t)
    · exact fun s hs => (hcur s).mp hs ▸ hlt
    · exact fun s hs _ => Or.inl ((hinitial s).mpr ((hcur s).mp hs))
  have hheld : Held aut [q] := fun s hs _ => Or.inl ((hinitial s).mpr ((hcur s).mp hs))
  have hone : aut.reach (· ∈ [q]) = 1 := by
    apply le_antisymm
    · intro w hw
      obtain ⟨i, hi, s, u, hs, hwalk, rfl⟩ := hw
      cases hwalk with
      | nil => rfl
      | cons hedge _ => exact absurd hedge (hno _ _ _)
    · exact one_le_words ((hinitial q).mpr rfl) ((hcur q).mpr rfl)
  have hreach : aut.Reachable q := ⟨q, (hinitial q).mpr rfl, [], Walk.nil q⟩
  obtain ⟨hgrown, -⟩ := visitCoveragePattern_grown cover ⟨aut, [q], []⟩ hinv
    (fun _ => hheld) hatt hund
  have hfinalq := hgrown.stays_final q ((hcur q).mpr rfl) hreach
  have hnew := hgrown.accept_new
  rw [hone, one_mul] at hnew
  change (visitCoveragePattern get cover ⟨aut, [q], []⟩).2.testGoalAutomaton.accepts = _
  rw [accepts_eq_reach]
  ext w
  rw [mem_reach]
  constructor
  · intro hw
    obtain ⟨s, hf, hw⟩ := hw
    by_cases hs : s = q
    · subst hs
      have hold := hgrown.reach_old_le hlt hw
      have hnil : w ∈ aut.reach (· ∈ [q]) := mem_reach.mpr ⟨q, (hcur q).mpr rfl, hold⟩
      rw [hone] at hnil
      cases hnil
      exact hfinalq.mp hf
    · have hs' : s ∉ [q] := fun h => hs ((hcur s).mp h)
      have hcurrent := (hgrown.final_new s hf).resolve_right fun h => hs ((hfinals s).mp h.1)
      have hmem := hnew.le (mem_reach.mpr ⟨s, ⟨hcurrent, hs', hf⟩, hw⟩)
      exact hmem.1
  · intro hw
    by_cases hnil : w = []
    · subst hnil
      have hinit := (hgrown.initial q).mpr ((hinitial q).mpr rfl)
      exact ⟨q, hfinalq.mpr hw, q, hinit, q, [], rfl, Walk.nil q, rfl⟩
    · have hmem : w ∈ proper (cover.flagged (attachedBy get)) := ⟨hw, hnil⟩
      rw [← hnew] at hmem
      obtain ⟨s, hs, hword⟩ := mem_reach.mp hmem
      exact ⟨s, hs.2.2, hword⟩

/-- Where the left operand of an alternative accepts the empty word, the
right one does. -/
def CoveragePattern.KeepsEmpty (lang : PathPattern F P → Language Int) :
    CoveragePattern F P → Prop
  | .atom _ => True
  | .quote _ => True
  | .cpAlternative cpA cpB =>
      cpA.KeepsEmpty lang ∧ cpB.KeepsEmpty lang ∧
        ([] ∈ cpA.denote lang → [] ∈ cpB.denote lang)
  | .cpConcat _ cpB => cpB.KeepsEmpty lang

/-- Then no word loses its final flag. -/
theorem CoveragePattern.KeepsEmpty.flagged_eq_denote {lang : PathPattern F P → Language Int}
    {cp : CoveragePattern F P} (h : cp.KeepsEmpty lang) : cp.flagged lang = cp.denote lang := by
  induction cp with
  | atom a => rfl
  | quote pp => rfl
  | cpAlternative cpA cpB ihA ihB =>
      obtain ⟨hA, hB, hempty⟩ := h
      simp only [flagged, denote, ihA hA, ihB hB]
      ext w
      constructor
      · intro hw
        exact hw.imp And.left id
      · intro hw
        by_cases hnil : w = []
        · subst hnil
          exact Or.inr (hw.elim hempty id)
        · exact hw.imp (fun hA => ⟨hA, hnil⟩) id
  | cpConcat cpA cpB _ ihB => simp only [flagged, denote, ihB h]

/-! ## What the short cut relies on -/

/-- An automaton of the short cut is one edge: its initial state is not final,
and its transition leads from there to a final state. -/
def TraceAutomaton.EdgeEnds (ta : TraceAutomaton) : Prop :=
  ta.isSingleEdge → (∀ s ∈ ta.initial, s ∉ ta.finals) ∧
    ∀ e ∈ ta.trans, e.1 ∈ ta.initial ∧ e.2.2 ∈ ta.finals

instance (ta : TraceAutomaton) : Decidable ta.EdgeEnds :=
  inferInstanceAs (Decidable (_ → _ ∧ _))

/-- The transition of an automaton of the short cut. -/
theorem TraceAutomaton.exists_edge {ta : TraceAutomaton} (hsingle : ta.isSingleEdge)
    (hlabel : ta.firstLabel ≠ epsilon) : ∃ s t, ta.trans = [(s, ta.firstLabel, t)] := by
  have hcount : ta.stateCount = 2 ∧ ta.transCount = 1 := of_decide_eq_true hsingle
  obtain ⟨e, he⟩ := List.length_eq_one_iff.mp hcount.2
  cases hfirst : ta.states.head?.bind fun s => (ta.delta2 s).head? with
  | none => exact absurd (by rw [firstLabel, hfirst]; rfl) hlabel
  | some d =>
      have hlab : ta.firstLabel = d.1 := by rw [firstLabel, hfirst]; rfl
      obtain ⟨s, -, hd⟩ := Option.bind_eq_some_iff.mp hfirst
      have hmem : (s, d.1, d.2) ∈ ta.trans := ta.mem_delta2.mp (List.mem_of_head? hd)
      rw [he, List.mem_singleton] at hmem
      exact ⟨s, d.2, by rw [he, hlab, hmem]⟩

/-- **The short cut is right** exactly for automata that are one edge. -/
theorem TraceAutomaton.attachedWords_eq_iff {ta : TraceAutomaton} (hta : ta.Attachable) :
    ta.attachedWords = ta.accepts ↔ ta.EdgeEnds := by
  by_cases hsingle : ta.isSingleEdge
  · have hlabel := hta.2 hsingle
    obtain ⟨s, t, htrans⟩ := exists_edge hsingle hlabel
    have hvisible : ta.EpsilonFree := by
      intro e he
      rw [htrans, List.mem_singleton] at he
      rw [he]
      exact hlabel
    have hedge : ∀ {x l y}, ta.delta x l y → x = s ∧ l = ta.firstLabel ∧ y = t := by
      intro x l y h
      rw [delta, htrans, List.mem_singleton] at h
      simpa using h
    rw [attachedWords, if_pos hsingle]
    constructor
    · intro heq _
      have hword : [ta.firstLabel] ∈ ta.accepts := heq.le rfl
      obtain ⟨i, hi, f, hf, hwalk⟩ := hvisible.mem_accepts.mp hword
      refine ⟨?_, ?_⟩
      · intro x hx hfinal
        have hnil : [] ∈ ta.accepts := hvisible.mem_accepts.mpr ⟨x, hx, x, hfinal, Walk.nil x⟩
        have hempty : [] = [ta.firstLabel] := heq.ge hnil
        exact List.cons_ne_nil _ _ hempty.symm
      · intro e he
        rw [htrans, List.mem_singleton] at he
        cases hwalk with
        | cons hfirst hrest =>
            cases hrest with
            | nil =>
                obtain ⟨rfl, -, rfl⟩ := hedge hfirst
                rw [he]
                exact ⟨hi, hf⟩
    · intro hends
      obtain ⟨hinitial, htarget⟩ := hends hsingle
      obtain ⟨hs, ht⟩ := htarget (s, ta.firstLabel, t) (by rw [htrans]; exact List.mem_singleton_self _)
      have hfirst : ta.delta s ta.firstLabel t := by
        rw [delta, htrans]
        exact List.mem_singleton_self _
      apply le_antisymm
      · intro w hw
        have hword : w = [ta.firstLabel] := hw
        rw [hword]
        exact hvisible.mem_accepts.mpr ⟨s, hs, t, ht, Walk.cons hfirst (Walk.nil t)⟩
      · intro w hw
        obtain ⟨i, hi, f, hf, hwalk⟩ := hvisible.mem_accepts.mp hw
        cases hwalk with
        | nil => exact absurd hf (hinitial i hi)
        | cons hstep hrest =>
            obtain ⟨-, rfl, rfl⟩ := hedge hstep
            cases hrest with
            | nil => rfl
            | cons hagain _ =>
                -- the final state would be the initial one
                obtain ⟨hback, -, -⟩ := hedge hagain
                rw [hback] at ht
                exact absurd ht (hinitial s hs)
  · rw [attachedWords, if_neg hsingle]
    exact ⟨fun _ h => absurd h hsingle, fun _ => rfl⟩

/-! ## The cover clause -/

namespace CoveragePattern

/-- A pattern and everything below it, path patterns apart. -/
def subpatterns : CoveragePattern F P → List (CoveragePattern F P)
  | atom a => [atom a]
  | quote pp => [quote pp]
  | cpAlternative cpA cpB => cpAlternative cpA cpB :: (cpA.subpatterns ++ cpB.subpatterns)
  | cpConcat cpA cpB => cpConcat cpA cpB :: (cpA.subpatterns ++ cpB.subpatterns)

variable {lang lang' : PathPattern F P → Language Int} {cp m : CoveragePattern F P}

/-- A pattern is below itself. -/
theorem mem_subpatterns_self (cp : CoveragePattern F P) : cp ∈ cp.subpatterns := by
  cases cp with
  | atom a => exact List.mem_singleton_self _
  | quote pp => exact List.mem_singleton_self _
  | cpAlternative cpA cpB => exact List.mem_cons_self
  | cpConcat cpA cpB => exact List.mem_cons_self

/-- What is below has no other leaves. -/
theorem pathPatterns_below (hm : m ∈ cp.subpatterns) :
    ∀ pp ∈ m.pathPatterns, pp ∈ cp.pathPatterns := by
  induction cp with
  | atom a =>
      rw [List.mem_singleton.mp hm]
      exact fun pp hpp => hpp
  | quote pp =>
      rw [List.mem_singleton.mp hm]
      exact fun pp hpp => hpp
  | cpAlternative cpA cpB ihA ihB =>
      intro pp hpp
      rcases List.mem_cons.mp hm with rfl | hm
      · exact hpp
      · exact List.mem_append.mpr ((List.mem_append.mp hm).imp (ihA · pp hpp) (ihB · pp hpp))
  | cpConcat cpA cpB ihA ihB =>
      intro pp hpp
      rcases List.mem_cons.mp hm with rfl | hm
      · exact hpp
      · exact List.mem_append.mpr ((List.mem_append.mp hm).imp (ihA · pp hpp) (ihB · pp hpp))

/-- Every path pattern of a clause is a leaf of it. -/
theorem exists_leaf {pp : PathPattern F P} (hpp : pp ∈ cp.pathPatterns) :
    ∃ m ∈ cp.subpatterns, (∀ lang : PathPattern F P → Language Int, m.denote lang = lang pp) ∧
      (∀ lang : PathPattern F P → Language Int, m.flagged lang = lang pp) ∧
      ∀ (lang : PathPattern F P → Language Int) (held : Prop), m.Undisturbed lang held := by
  induction cp with
  | atom a =>
      rw [List.mem_singleton.mp hpp]
      exact ⟨_, List.mem_singleton_self _, fun _ => rfl, fun _ => rfl, fun _ _ => trivial⟩
  | quote qq =>
      rw [List.mem_singleton.mp hpp]
      exact ⟨_, List.mem_singleton_self _, fun _ => rfl, fun _ => rfl, fun _ _ => trivial⟩
  | cpAlternative cpA cpB ihA ihB =>
      rcases List.mem_append.mp hpp with hpp | hpp
      · obtain ⟨m, hm, hleaf⟩ := ihA hpp
        exact ⟨m, List.mem_cons_of_mem _ (List.mem_append_left _ hm), hleaf⟩
      · obtain ⟨m, hm, hleaf⟩ := ihB hpp
        exact ⟨m, List.mem_cons_of_mem _ (List.mem_append_right _ hm), hleaf⟩
  | cpConcat cpA cpB ihA ihB =>
      rcases List.mem_append.mp hpp with hpp | hpp
      · obtain ⟨m, hm, hleaf⟩ := ihA hpp
        exact ⟨m, List.mem_cons_of_mem _ (List.mem_append_left _ hm), hleaf⟩
      · obtain ⟨m, hm, hleaf⟩ := ihB hpp
        exact ⟨m, List.mem_cons_of_mem _ (List.mem_append_right _ hm), hleaf⟩

/-- The flagged words depend on the languages of the leaves. -/
theorem flagged_congr (h : ∀ pp ∈ cp.pathPatterns, lang pp = lang' pp) :
    cp.flagged lang = cp.flagged lang' := by
  induction cp with
  | atom a => exact h _ (List.mem_singleton_self _)
  | quote pp => exact h _ (List.mem_singleton_self _)
  | cpAlternative cpA cpB ihA ihB =>
      have hA := ihA fun pp hpp => h pp (List.mem_append_left _ hpp)
      have hB := ihB fun pp hpp => h pp (List.mem_append_right _ hpp)
      simp only [flagged, hA, hB]
  | cpConcat cpA cpB _ ihB =>
      have hA := denote_congr fun pp hpp => h pp (List.mem_append_left _ hpp)
      have hB := ihB fun pp hpp => h pp (List.mem_append_right _ hpp)
      simp only [flagged, hA, hB]

/-- So does whether a deleted state is used. -/
theorem undisturbed_congr {held : Prop} (h : ∀ pp ∈ cp.pathPatterns, lang pp = lang' pp) :
    cp.Undisturbed lang held ↔ cp.Undisturbed lang' held := by
  induction cp generalizing held with
  | atom a => exact Iff.rfl
  | quote pp => exact Iff.rfl
  | cpAlternative cpA cpB ihA ihB =>
      have hA : ∀ pp ∈ cpA.pathPatterns, lang pp = lang' pp :=
        fun pp hpp => h pp (List.mem_append_left _ hpp)
      have hB : ∀ pp ∈ cpB.pathPatterns, lang pp = lang' pp :=
        fun pp hpp => h pp (List.mem_append_right _ hpp)
      simp only [Undisturbed, ihA hA, ihB hB, denote_congr hA, denote_congr hB, flagged_congr hA]
  | cpConcat cpA cpB ihA ihB =>
      have hA : ∀ pp ∈ cpA.pathPatterns, lang pp = lang' pp :=
        fun pp hpp => h pp (List.mem_append_left _ hpp)
      have hB : ∀ pp ∈ cpB.pathPatterns, lang pp = lang' pp :=
        fun pp hpp => h pp (List.mem_append_right _ hpp)
      simp only [Undisturbed, ihA hA, ihB hB, denote_congr hA]

/-- An operand that is held anyway is left alone too. -/
theorem Undisturbed.mono {held held' : Prop} (h : cp.Undisturbed lang held)
    (himp : held → held') : cp.Undisturbed lang held' := by
  induction cp generalizing held held' with
  | atom a => trivial
  | quote pp => trivial
  | cpAlternative cpA cpB ihA ihB =>
      obtain ⟨hA, hB, hwordsA, hwordsB⟩ := h
      exact ⟨ihA hA himp, ihB hB (Or.imp_left himp), hwordsA.imp_left himp,
        hwordsB.imp_left himp⟩
  | cpConcat cpA cpB ihA ihB =>
      obtain ⟨hA, hB⟩ := h
      exact ⟨ihA hA himp, ihB hB (Or.imp_right (And.imp_left himp))⟩

/-- What a pattern leaves alone, its operands leave alone as clauses of their
own. -/
theorem Undisturbed.below {held : Prop} (h : cp.Undisturbed lang held)
    (hm : m ∈ cp.subpatterns) : m.Undisturbed lang True := by
  induction cp generalizing held with
  | atom a => exact (List.mem_singleton.mp hm) ▸ trivial
  | quote pp => exact (List.mem_singleton.mp hm) ▸ trivial
  | cpAlternative cpA cpB ihA ihB =>
      rcases List.mem_cons.mp hm with rfl | hm
      · exact h.mono fun _ => trivial
      · rcases List.mem_append.mp hm with hm | hm
        · exact ihA h.1 hm
        · exact ihB h.2.1 hm
  | cpConcat cpA cpB ihA ihB =>
      rcases List.mem_cons.mp hm with rfl | hm
      · exact h.mono fun _ => trivial
      · rcases List.mem_append.mp hm with hm | hm
        · exact ihA h.1 hm
        · exact ihB h.2 hm

/-- Where no pattern below loses a word, no alternative loses the empty one. -/
theorem keepsEmpty_of_flagged_eq
    (h : ∀ m ∈ cp.subpatterns, m.flagged lang = m.denote lang) : cp.KeepsEmpty lang := by
  induction cp with
  | atom a => trivial
  | quote pp => trivial
  | cpAlternative cpA cpB ihA ihB =>
      have hA : ∀ m ∈ cpA.subpatterns, m.flagged lang = m.denote lang :=
        fun m hm => h m (List.mem_cons_of_mem _ (List.mem_append_left _ hm))
      have hB : ∀ m ∈ cpB.subpatterns, m.flagged lang = m.denote lang :=
        fun m hm => h m (List.mem_cons_of_mem _ (List.mem_append_right _ hm))
      refine ⟨ihA hA, ihB hB, ?_⟩
      intro hnil
      have heq := h _ (mem_subpatterns_self _)
      have hkept : [] ∈ (cpAlternative cpA cpB).flagged lang := heq.ge (Or.inl hnil)
      rw [← hB cpB cpB.mem_subpatterns_self]
      exact hkept.elim (fun hproper => absurd rfl hproper.2) id
  | cpConcat cpA cpB _ ihB =>
      exact ihB fun m hm => h m (List.mem_cons_of_mem _ (List.mem_append_right _ hm))

end CoveragePattern

variable {ν : Type}

/-- What the visitor relies on: the automata that are stored have one initial
state, those of the short cut are one edge with a visible label, no operand
makes it use a deleted state, and no alternative loses the empty word of its
left operand. -/
structure CoveragePattern.Sound (get : PathPattern F P → TraceAutomaton)
    (lang : PathPattern F P → Language Int) (cover : CoveragePattern F P) : Prop where
  attachable : ∀ pp ∈ cover.pathPatterns, (get pp).Attachable
  edges : ∀ pp ∈ cover.pathPatterns, (get pp).EdgeEnds
  undisturbed : cover.Undisturbed lang True
  keepsEmpty : cover.KeepsEmpty lang

/-- For such a clause every visit attaches the language of its pattern. -/
theorem CoveragePattern.Sound.accepts {lang : PathPattern F P → Language Int}
    {cover : CoveragePattern F P} (h : cover.Sound get lang)
    (hlang : ∀ pp ∈ cover.pathPatterns, (get pp).accepts = lang pp) (old : TraceAutomaton) :
    (visitCover get cover old).2.testGoalAutomaton.accepts = cover.denote lang := by
  have hattached : ∀ pp ∈ cover.pathPatterns, attachedBy get pp = lang pp := by
    intro pp hpp
    rw [← hlang pp hpp]
    exact (attachedWords_eq_iff (h.attachable pp hpp)).mpr (h.edges pp hpp)
  have hund := (CoveragePattern.undisturbed_congr hattached).mpr h.undisturbed
  rw [visitCover_accepts h.attachable hund, CoveragePattern.flagged_congr hattached,
    h.keepsEmpty.flagged_eq_denote]

/-- Conversely, where the visitor uses no deleted state, it needs the rest:
an automaton of the short cut that is no edge is wrong as a clause of its own,
and so is an alternative that loses the empty word. -/
theorem CoveragePattern.sound_of_accepts {lang : PathPattern F P → Language Int}
    {cover : CoveragePattern F P} (hatt : ∀ pp ∈ cover.pathPatterns, (get pp).Attachable)
    (hund : cover.Undisturbed lang True)
    (hlang : ∀ pp ∈ cover.pathPatterns, (get pp).accepts = lang pp) {old : TraceAutomaton}
    (haccepts : ∀ m ∈ cover.subpatterns,
      (visitCover get m old).2.testGoalAutomaton.accepts = m.denote lang) :
    cover.Sound get lang := by
  have hattached : ∀ pp ∈ cover.pathPatterns, attachedBy get pp = lang pp := by
    intro pp hpp
    obtain ⟨m, hm, hdenote, hflagged, hleaf⟩ := CoveragePattern.exists_leaf hpp
    have hword := haccepts m hm
    rwa [visitCover_accepts (fun qq hqq => hatt qq (CoveragePattern.pathPatterns_below hm qq hqq))
      (hleaf _ _), hflagged, hdenote] at hword
  refine ⟨hatt, ?_, hund, ?_⟩
  · intro pp hpp
    exact (attachedWords_eq_iff (hatt pp hpp)).mp ((hattached pp hpp).trans (hlang pp hpp).symm)
  · apply CoveragePattern.keepsEmpty_of_flagged_eq
    intro m hm
    have hbelow := CoveragePattern.pathPatterns_below hm
    have hsame : ∀ pp ∈ m.pathPatterns, attachedBy get pp = lang pp :=
      fun pp hpp => hattached pp (hbelow pp hpp)
    have hword := haccepts m hm
    rwa [visitCover_accepts (fun pp hpp => hatt pp (hbelow pp hpp))
      ((CoveragePattern.undisturbed_congr hsame).mpr (hund.below hm)),
      CoveragePattern.flagged_congr hsame] at hword

variable [DecidableEq F] [DecidableEq P] [DecidableEq ν]

end Visits

end FShell
