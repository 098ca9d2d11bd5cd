import FShell.Concepts.CopyAutomaton

/-!
# Simplification of trace automata

`simplify_automaton` in its four phases.

1.  `removeEpsilon` visits the states one by one and replaces every silent
    transition into the visited state by copies of its outgoing transitions
    and of its final flag.  One visit keeps the words accepted from every
    state (`bypassState_acceptsFrom`) and leaves no silent transition into
    the visited state; later visits create silent transitions only to where
    the visited state already has one, so none comes back
    (`removeEpsilon_epsilonFree`).
2.  `removeDeadStates` deletes non-initial states without incoming and
    non-final states without outgoing transitions with a worklist.
3.  `removeDuplicateEdges` leaves one entry of each transition.
4.  `compactify` copies the automaton out and back to renumber it.
-/

namespace FShell

open LabelledGraph

namespace TraceAutomaton

/-- The source of the incoming silent transition that the iterator is at.  The
silent label comes first in the multimap, and what was treated is deleted. -/
def silentSource (aut : TraceAutomaton) (q : TaState) : Option TaState :=
  ((aut.delta2Backwards q).find? fun e => e.1 = epsilon).map Prod.snd

/-- One silent transition from `i` into the visited state `q`. -/
def bypassEdge (q : TaState) (aut : TraceAutomaton) (i : TaState) : TraceAutomaton :=
  -- self-loops are discarded, the others re-routed
  let aut :=
    if i ≠ q then aut.setTransAll ((aut.delta2 q).map fun o => (i, o.1, o.2)) else aut
  let aut := if aut.isFinal q then aut.setFinal i else aut
  aut.delTrans i epsilon q

/-- The loop over the incoming transitions, for `fuel` rounds at most.  A
silent self-loop of `q` is re-routed as well, to a transition into `q` that
comes up later in the same loop. -/
def bypassLoop (q : TaState) : Nat → TraceAutomaton → TraceAutomaton
  | 0, aut => aut
  | fuel + 1, aut =>
      match aut.silentSource q with
      | none => aut
      | some i => bypassLoop q fuel (bypassEdge q aut i)

/-- The visit of one state in the first loop of `simplify_automaton`. -/
def bypassState (aut : TraceAutomaton) (q : TaState) : TraceAutomaton :=
  let entries := (aut.delta2Backwards q).length
  bypassLoop q (entries + entries * entries) aut

/-- The first loop of `simplify_automaton`. -/
def removeEpsilon (aut : TraceAutomaton) : TraceAutomaton :=
  aut.states.foldl bypassState aut

/-- The variables of the worklist loop. -/
structure PruneState where
  aut : TraceAutomaton
  queue : List TaState
  dead : List TaState

/-- The body of the worklist loop for the popped `state`; `queue` is what
remains of the queue. -/
def pruneStep (p : PruneState) (state : TaState) (queue : List TaState) : PruneState :=
  if state ∈ p.dead then { p with queue := queue }
  else
    let inEdges := p.aut.delta2Backwards state
    let outEdges := p.aut.delta2 state
    if state ∈ p.aut.initial then { p with queue := queue }
    else if inEdges.isEmpty then
      { aut := (outEdges.foldl (fun aut o => aut.delTrans state o.1 o.2) p.aut).delState state
        queue := queue ++ outEdges.map Prod.snd
        dead := state :: p.dead }
    else if outEdges.isEmpty then
      if p.aut.isFinal state then { p with queue := queue }
      else
        { aut := (inEdges.foldl (fun aut i => aut.delTrans i.2 i.1 state) p.aut).delState state
          queue := queue ++ inEdges.map Prod.snd
          dead := state :: p.dead }
    else { p with queue := queue }

/-- `while (!queue.empty())`, at most `fuel` times. -/
def prune : Nat → PruneState → PruneState
  | 0, p => p
  | fuel + 1, p =>
      match p.queue with
      | [] => p
      | state :: queue => prune fuel (pruneStep p state queue)

/-- The second phase.  Every round but the last takes a state from the queue
and every state put back costs a transition, which bounds the rounds. -/
def removeDeadStates (aut : TraceAutomaton) : TraceAutomaton :=
  (prune (aut.states.length + aut.trans.length) ⟨aut, aut.states, []⟩).aut

/-- One state of the third loop, with the set `seen_edges`. -/
def removeDuplicatesAt (aut : TraceAutomaton) (s : TaState) : TraceAutomaton :=
  ((aut.delta2 s).foldl (fun (p : TraceAutomaton × List (Int × TaState)) o =>
    if o ∈ p.2 then (p.1.delTrans s o.1 o.2, p.2) else (p.1, o :: p.2)) (aut, [])).1

/-- The third loop of `simplify_automaton`. -/
def removeDuplicateEdges (aut : TraceAutomaton) : TraceAutomaton :=
  aut.states.foldl removeDuplicatesAt aut

/-- The renumbering: back up into `clone`, clear entirely, copy back. -/
def compactify (aut : TraceAutomaton) : TraceAutomaton :=
  let r := copyAutomaton aut empty
  let clone := (r.2.swapInitial r.1.1).setFinalAll r.1.2
  let r2 := copyAutomaton clone (aut.delStateAll aut.states)
  (r2.2.swapInitial r2.1.1).setFinalAll r2.1.2

/-- `simplify_automaton(aut, compact)`. -/
def simplifyAutomaton (aut : TraceAutomaton) (compact : Bool) : TraceAutomaton :=
  let aut := aut.removeEpsilon.removeDeadStates.removeDuplicateEdges
  if compact then aut.compactify else aut

/-! ## Visiting one state -/

section Bypass

variable (aut : TraceAutomaton) (q : TaState)

/-- The sources of the silent transitions into `q`, in the order of the loop. -/
def silentSources : List TaState :=
  aut.trans.filterMap fun e => if e.2 = (epsilon, q) then some e.1 else none

variable {aut q}

/-- The sources of the silent transitions into a state. -/
@[simp] theorem mem_silentSources {i : TaState} :
    i ∈ aut.silentSources q ↔ (i, epsilon, q) ∈ aut.trans := by
  simp [silentSources]

/-- The loop takes the first of them. -/
theorem silentSource_eq : aut.silentSource q = (aut.silentSources q).head? := by
  unfold silentSource silentSources delta2Backwards
  induction aut.trans with
  | nil => rfl
  | cons e es ih =>
      obtain ⟨s, l, t⟩ := e
      by_cases ht : t = q
      · by_cases hl : l = epsilon
        · simp [ht, hl]
        · simpa [ht, hl] using ih
      · simpa [ht] using ih

/-- There are at most as many as transitions into the state. -/
theorem silentSources_length_le :
    (aut.silentSources q).length ≤ (aut.delta2Backwards q).length := by
  unfold silentSources delta2Backwards
  induction aut.trans with
  | nil => exact Nat.le_refl 0
  | cons e es ih =>
      obtain ⟨s, l, t⟩ := e
      by_cases ht : t = q
      · by_cases hl : l = epsilon
        · simpa [ht, hl] using ih
        · simpa [ht, hl] using Nat.le_succ_of_le ih
      · simpa [ht] using ih

/-- The automaton in the middle of a visit of `q`, when silent transitions
from the states of `done` have been treated. -/
structure BypassInv (aut : TraceAutomaton) (q : TaState) (done : List TaState)
    (a : TraceAutomaton) : Prop where
  states : a.states = aut.states
  initial : a.initial = aut.initial
  finals : ∀ s, s ∈ a.finals ↔ s ∈ aut.finals ∨ (q ∈ aut.finals ∧ s ∈ done)
  trans : ∀ s l t, ¬ (l = epsilon ∧ t = q) →
    ((s, l, t) ∈ a.trans ↔
      (s, l, t) ∈ aut.trans ∨ (s ∈ done ∧ s ≠ q ∧ (q, l, t) ∈ aut.trans))
  silent : ∀ s, (s, epsilon, q) ∈ a.trans → (s, epsilon, q) ∈ aut.trans
  done_silent : ∀ s ∈ done, (s, epsilon, q) ∈ aut.trans
  rest : ∀ s, (s, epsilon, q) ∈ aut.trans → s ∈ done ∨ (s, epsilon, q) ∈ a.trans

/-- A silent transition from `i`: what it adds. -/
private theorem mem_bypassEdge {i s : TaState} {l : Int} {t : TaState} (hi : i ∈ aut.states)
    (hne : (s, l, t) ≠ (i, epsilon, q)) :
    (s, l, t) ∈ (bypassEdge q aut i).trans ↔
      (s, l, t) ∈ aut.trans ∨ (s = i ∧ i ≠ q ∧ (q, l, t) ∈ aut.trans) := by
  have hout : (s, l, t) ∈ (aut.delta2 q).map (fun o => (i, o.1, o.2)) ↔
      s = i ∧ (q, l, t) ∈ aut.trans := by
    rw [List.mem_map]
    constructor
    · intro ⟨o, ho, heq⟩
      obtain ⟨k, u⟩ := o
      simp only [Prod.mk.injEq] at heq
      obtain ⟨rfl, rfl, rfl⟩ := heq
      exact ⟨rfl, (aut.mem_delta2).mp ho⟩
    · intro ⟨hs, hmem⟩
      exact ⟨(l, t), (aut.mem_delta2).mpr hmem, by rw [hs]⟩
  have hflag : ∀ b : TraceAutomaton,
      (if b.isFinal q = true then b.setFinal i else b).trans = b.trans := by
    intro b
    split
    · exact b.setFinal_trans
    · rfl
  simp only [bypassEdge, mem_delTrans_of_ne _ hne, hflag]
  by_cases hself : i = q
  · simp [hself]
  · rw [if_pos hself, mem_setTransAll, hout]
    refine or_congr_right ?_
    constructor
    · intro ⟨⟨hs, hmem⟩, _⟩
      exact ⟨hs, hself, hmem⟩
    · intro ⟨hs, _, hmem⟩
      exact ⟨⟨hs, hmem⟩, hs ▸ hi, (aut.trans_live _ hmem).2⟩

/-- Only the source of a silent transition can gain the final flag. -/
private theorem bypassEdge_flags (a : TraceAutomaton) (q i : TaState) :
    (bypassEdge q a i).states = a.states ∧
    (bypassEdge q a i).initial = a.initial ∧
    ∀ s, s ∈ (bypassEdge q a i).finals ↔
      s ∈ a.finals ∨ (q ∈ a.finals ∧ s = i ∧ i ∈ a.states) := by
  obtain ⟨b, hb, hst, hin, hfin⟩ : ∃ b : TraceAutomaton,
      b = (if i ≠ q then a.setTransAll ((a.delta2 q).map fun o => (i, o.1, o.2)) else a) ∧
      b.states = a.states ∧ b.initial = a.initial ∧ b.finals = a.finals := by
    refine ⟨_, rfl, ?_⟩
    split <;> simp
  simp only [bypassEdge, delTrans_states, delTrans_initial, delTrans_finals, ← hb]
  by_cases hq : b.isFinal q = true
  · have hqfin : q ∈ a.finals := hfin ▸ b.isFinal_iff.mp hq
    rw [if_pos hq]
    refine ⟨(b.setFinal_states).trans hst, (b.setFinal_initial).trans hin, fun s => ?_⟩
    rw [mem_setFinal, hfin, hst]
    tauto
  · have hqfin : q ∉ a.finals := fun h => hq (b.isFinal_iff.mpr (hfin ▸ h))
    rw [if_neg hq]
    refine ⟨hst, hin, fun s => ?_⟩
    rw [hfin]
    tauto

/-- One silent transition more. -/
theorem BypassInv.step {done : List TaState} {a : TraceAutomaton} {i : TaState}
    (h : BypassInv aut q done a) (hi : (i, epsilon, q) ∈ a.trans) :
    BypassInv aut q (i :: done) (bypassEdge q a i) := by
  have hold : (i, epsilon, q) ∈ aut.trans := h.silent i hi
  have hlive : i ∈ a.states := (a.trans_live _ hi).1
  obtain ⟨hstates, hinitial, hfinals⟩ := bypassEdge_flags a q i
  have hkept : ∀ s, s ≠ i →
      ((s, epsilon, q) ∈ (bypassEdge q a i).trans ↔ (s, epsilon, q) ∈ a.trans) := by
    intro s hs
    have hne : (s, epsilon, q) ≠ (i, epsilon, q) := fun heq => hs (Prod.mk.inj heq).1
    rw [mem_bypassEdge hlive hne]
    exact ⟨fun hmem => hmem.resolve_right fun hnew => hs hnew.1, Or.inl⟩
  refine ⟨hstates.trans h.states, hinitial.trans h.initial, ?_, ?_, ?_, ?_, ?_⟩
  · intro s
    rw [hfinals, h.finals s, h.finals q, List.mem_cons]
    tauto
  · intro s l t hlt
    have hne : (s, l, t) ≠ (i, epsilon, q) :=
      fun heq => hlt (Prod.mk.inj (Prod.mk.inj heq).2)
    rw [mem_bypassEdge hlive hne, h.trans s l t hlt, h.trans q l t hlt, List.mem_cons]
    constructor
    · intro hx
      rcases hx with (hmem | ⟨hs, hq, hmem⟩) | ⟨rfl, hq, hmem | ⟨-, hqq, -⟩⟩
      · exact Or.inl hmem
      · exact Or.inr ⟨Or.inr hs, hq, hmem⟩
      · exact Or.inr ⟨Or.inl rfl, hq, hmem⟩
      · exact absurd rfl hqq
    · intro hx
      rcases hx with hmem | ⟨rfl | hs, hq, hmem⟩
      · exact Or.inl (Or.inl hmem)
      · exact Or.inr ⟨rfl, hq, Or.inl hmem⟩
      · exact Or.inl (Or.inr ⟨hs, hq, hmem⟩)
  · intro s hs
    by_cases hsi : s = i
    · exact hsi ▸ hold
    · exact h.silent s ((hkept s hsi).mp hs)
  · intro s hs
    rcases List.mem_cons.mp hs with rfl | hs
    · exact hold
    · exact h.done_silent s hs
  · intro s hs
    by_cases hsi : s = i
    · exact Or.inl (hsi ▸ List.mem_cons_self)
    · rcases h.rest s hs with hd | hmem
      · exact Or.inl (List.mem_cons_of_mem _ hd)
      · exact Or.inr ((hkept s hsi).mpr hmem)

/-- The rounds that the loop still takes: a source other than `q` costs one
round more for every self-loop that comes after it. -/
def roundsLeft (q : TaState) : List TaState → Nat
  | [] => 0
  | i :: is => roundsLeft q is + 1 + if i = q then 0 else is.count q

/-- Sources that are added are rounds that are left. -/
theorem roundsLeft_append_replicate (is : List TaState) {i : TaState} (hi : i ≠ q) (n : Nat) :
    roundsLeft q (is ++ List.replicate n i) = roundsLeft q is + n := by
  induction is with
  | nil =>
      induction n with
      | zero => rfl
      | succ n ih =>
          have hcount : (List.replicate n i).count q = 0 :=
            List.count_eq_zero.mpr fun h => hi (List.eq_of_mem_replicate h).symm
          rw [List.nil_append] at ih ⊢
          simp only [List.replicate_succ, roundsLeft, ih, if_neg hi, hcount]
          omega
  | cons j js ih =>
      have hcount : (List.replicate n i).count q = 0 :=
        List.count_eq_zero.mpr fun h => hi (List.eq_of_mem_replicate h).symm
      simp only [List.cons_append, roundsLeft, ih, List.count_append, hcount, Nat.add_zero]
      omega

/-- A bound on the rounds. -/
theorem roundsLeft_le (is : List TaState) :
    roundsLeft q is ≤ is.length + is.length * is.length := by
  induction is with
  | nil => exact Nat.le_refl 0
  | cons i is ih =>
      have hcount : (if i = q then 0 else is.count q) ≤ is.length := by
        split
        · exact Nat.zero_le _
        · exact List.count_le_length
      rw [roundsLeft, List.length_cons]
      nlinarith

/-- What a bypass adds to the sources. -/
theorem silentSources_setTransAll (i : TaState) (os : List (Int × TaState))
    (hlive : i ∈ aut.states ∧ ∀ o ∈ os, o.2 ∈ aut.states) :
    (aut.setTransAll (os.map fun o => (i, o.1, o.2))).silentSources q =
      aut.silentSources q ++ List.replicate (os.count (epsilon, q)) i := by
  induction os generalizing aut with
  | nil => simp
  | cons o os ih =>
      obtain ⟨l, t⟩ := o
      have hadd : (aut.setTrans i l t).trans = aut.trans ++ [(i, l, t)] := by
        rw [setTrans, dif_pos ⟨hlive.1, hlive.2 (l, t) List.mem_cons_self⟩]
      have hone : (aut.setTrans i l t).silentSources q =
          aut.silentSources q ++ if (l, t) = (epsilon, q) then [i] else [] := by
        simp only [silentSources, hadd, List.filterMap_append]
        by_cases hlt : (l, t) = (epsilon, q)
        · simp [hlt]
        · simp [hlt]
      rw [List.map_cons, setTransAll_cons, ih ⟨by simpa using hlive.1, fun o ho => by
        simpa using hlive.2 o (List.mem_cons_of_mem _ ho)⟩, hone, List.append_assoc,
        List.count_cons]
      by_cases hlt : (l, t) = (epsilon, q)
      · simp [hlt, List.replicate_succ]
      · simp [hlt]

/-- The deleted transition is no source any more. -/
theorem silentSources_delTrans (i : TaState) :
    (aut.delTrans i epsilon q).silentSources q = (aut.silentSources q).erase i := by
  simp only [silentSources, delTrans]
  induction aut.trans with
  | nil => rfl
  | cons e es ih =>
      obtain ⟨s, l, t⟩ := e
      rw [List.erase_cons]
      by_cases hlt : (l, t) = (epsilon, q)
      · obtain ⟨rfl, rfl⟩ := Prod.mk.inj hlt
        by_cases hs : s = i
        · simp [hs]
        · simp [hs, ih]
      · have hne : ((s, l, t) == (i, epsilon, q)) = false := by
          simpa using fun _ hl ht => hlt (by rw [hl, ht])
        simp [hne, hlt, ih]

/-- The self-loops of `q` are what is re-routed into `q` again. -/
theorem count_delta2_self : (aut.delta2 q).count (epsilon, q) = (aut.silentSources q).count q := by
  unfold delta2 silentSources
  induction aut.trans with
  | nil => rfl
  | cons e es ih =>
      obtain ⟨s, l, t⟩ := e
      by_cases hs : s = q
      · by_cases hlt : (l, t) = (epsilon, q)
        · simp [hs, hlt, ih]
        · have hne : ¬ ((l, t) == (epsilon, q)) = true := by simpa using hlt
          simp [hs, hlt, ih]
      · by_cases hlt : (l, t) = (epsilon, q)
        · simp [hs, hlt, ih]
        · simp [hs, hlt, ih]

/-- **Progress.** -/
theorem roundsLeft_bypassEdge {i : TaState} {is : List TaState}
    (hsources : aut.silentSources q = i :: is) :
    roundsLeft q ((bypassEdge q aut i).silentSources q) < roundsLeft q (aut.silentSources q) := by
  have hi : (i, epsilon, q) ∈ aut.trans := mem_silentSources.mp (hsources ▸ List.mem_cons_self)
  have hflag : ∀ b : TraceAutomaton,
      (if b.isFinal q = true then b.setFinal i else b).silentSources q = b.silentSources q := by
    intro b
    split
    · simp [silentSources]
    · rfl
  have hlive : i ∈ aut.states ∧ ∀ o ∈ aut.delta2 q, o.2 ∈ aut.states :=
    ⟨(aut.trans_live _ hi).1, fun o ho => (aut.trans_live _ (aut.mem_delta2.mp ho)).2⟩
  rw [bypassEdge, silentSources_delTrans, hflag, hsources]
  by_cases hq : i = q
  · simp [hq, hsources, roundsLeft]
  · rw [if_pos hq, silentSources_setTransAll i _ hlive, count_delta2_self, hsources,
      List.cons_append, List.erase_cons_head, roundsLeft_append_replicate is hq, roundsLeft,
      if_neg hq, List.count_cons_of_ne hq]
    omega

/-- The loop runs until no silent transition leads into `q`. -/
theorem BypassInv.loop {done : List TaState} {a : TraceAutomaton} {fuel : Nat}
    (h : BypassInv aut q done a) (hfuel : roundsLeft q (a.silentSources q) ≤ fuel) :
    ∃ done', BypassInv aut q done' (bypassLoop q fuel a) ∧
      ∀ s, (s, epsilon, q) ∉ (bypassLoop q fuel a).trans := by
  have hnone : ∀ b : TraceAutomaton, b.silentSources q = [] → ∀ s, (s, epsilon, q) ∉ b.trans := by
    intro b hb s hs
    have hmem := mem_silentSources.mpr hs
    rw [hb] at hmem
    cases hmem
  induction fuel generalizing done a with
  | zero =>
      refine ⟨done, h, hnone _ ?_⟩
      cases hsources : a.silentSources q with
      | nil => exact hsources
      | cons i is =>
          rw [hsources, roundsLeft] at hfuel
          omega
  | succ fuel ih =>
      rw [bypassLoop, silentSource_eq]
      cases hsources : a.silentSources q with
      | nil => exact ⟨done, h, hnone a hsources⟩
      | cons i is =>
          have hi : (i, epsilon, q) ∈ a.trans :=
            mem_silentSources.mp (hsources ▸ List.mem_cons_self)
          have hless := roundsLeft_bypassEdge hsources
          exact ih (h.step hi) (by omega)

variable (aut q)

/-- **One visit.**  Silent transitions into `q` are replaced by copies of
its outgoing transitions and its final flag. -/
theorem bypassState_spec :
    (aut.bypassState q).states = aut.states ∧
    (aut.bypassState q).initial = aut.initial ∧
    (∀ s, s ∈ (aut.bypassState q).finals ↔
      s ∈ aut.finals ∨ (q ∈ aut.finals ∧ aut.delta s epsilon q)) ∧
    (∀ s l t, (aut.bypassState q).delta s l t ↔
      (aut.delta s l t ∨ (aut.delta s epsilon q ∧ s ≠ q ∧ aut.delta q l t)) ∧
        ¬ (l = epsilon ∧ t = q)) := by
  have hstart : BypassInv aut q [] aut :=
    ⟨rfl, rfl, by simp, by simp, fun _ hs => hs, by simp, fun _ hs => Or.inr hs⟩
  have hfuel : roundsLeft q (aut.silentSources q) ≤
      (aut.delta2Backwards q).length +
        (aut.delta2Backwards q).length * (aut.delta2Backwards q).length := by
    have hlen := aut.silentSources_length_le (q := q)
    have hrounds := roundsLeft_le (q := q) (aut.silentSources q)
    have hsq := Nat.mul_le_mul hlen hlen
    omega
  obtain ⟨done, hinv, hnone⟩ := hstart.loop hfuel
  have hdone : ∀ s, s ∈ done ↔ aut.delta s epsilon q :=
    fun s => ⟨hinv.done_silent s, fun hs => (hinv.rest s hs).resolve_right (hnone s)⟩
  refine ⟨hinv.states, hinv.initial, fun s => ?_, fun s l t => ?_⟩
  · rw [← hdone s]
    exact hinv.finals s
  · rw [← hdone s]
    by_cases hlt : l = epsilon ∧ t = q
    · obtain ⟨rfl, rfl⟩ := hlt
      exact ⟨fun hs => absurd hs (hnone s), fun h => absurd ⟨rfl, rfl⟩ h.2⟩
    · exact (hinv.trans s l t hlt).trans ⟨fun h => ⟨h, hlt⟩, And.left⟩

/-- One visit keeps the words accepted from every state. -/
theorem bypassState_acceptsFrom (s : TaState) :
    (aut.bypassState q).acceptsFrom s = aut.acceptsFrom s := by
  obtain ⟨_, _, hfinals, hdelta⟩ := aut.bypassState_spec q
  apply le_antisymm
  · -- every new transition and flag abbreviates a silent step into `q`
    refine future_le ?_ ?_ s
    · intro f hf
      rcases (hfinals f).mp hf with hf | ⟨hq, hedge⟩
      · exact one_le_future hf
      · exact (one_le_future hq).trans (future_le_of_silent hedge)
    · intro x l z hedge
      rcases ((hdelta x l z).mp hedge).1 with hold | ⟨hsilent, _, hout⟩
      · exact letter_mul_future_le hold
      · exact (letter_mul_future_le hout).trans (future_le_of_silent hsilent)
  · refine future_le ?_ ?_ s
    · intro f hf
      exact one_le_future ((hfinals f).mpr (Or.inl hf))
    · intro x l z hedge
      by_cases hdel : l = epsilon ∧ z = q
      · -- a deleted transition: what `q` accepts now, its source accepts too
        obtain ⟨rfl, rfl⟩ := hdel
        rw [letter_silent, one_mul]
        intro w hw
        rcases future_cases hw with ⟨hz, rfl⟩ | ⟨l, t, hout, hword⟩
        · have hzold : z ∈ aut.finals := by
            rcases (hfinals z).mp hz with hz | ⟨hz, _⟩ <;> exact hz
          exact one_le_future ((hfinals x).mpr (Or.inr ⟨hzold, hedge⟩)) Language.nil_mem_one
        · obtain ⟨hor, hkept⟩ := (hdelta z l t).mp hout
          have hold : aut.delta z l t := by
            rcases hor with hold | ⟨_, hne, _⟩
            · exact hold
            · exact absurd rfl hne
          by_cases hself : x = z
          · subst hself
            exact letter_mul_future_le hout hword
          · exact letter_mul_future_le
              ((hdelta x l t).mpr ⟨Or.inr ⟨hedge, hself, hold⟩, hkept⟩) hword
      · exact letter_mul_future_le ((hdelta x l z).mpr ⟨Or.inl hedge, hdel⟩)

/-- A visit removes the silent transitions into `q` and creates none into a
state that has none. -/
theorem bypassState_no_silent {r : TaState}
    (hr : r = q ∨ ∀ s, ¬ aut.delta s epsilon r) (s : TaState) :
    ¬ (aut.bypassState q).delta s epsilon r := by
  intro hedge
  obtain ⟨_, _, _, hdelta⟩ := aut.bypassState_spec q
  obtain ⟨hor, hkept⟩ := (hdelta s epsilon r).mp hedge
  rcases hr with rfl | hnone
  · exact hkept ⟨rfl, rfl⟩
  · rcases hor with hold | ⟨_, _, hout⟩
    · exact hnone s hold
    · exact hnone q hout

end Bypass

/-! ## Phase 1: the silent transitions -/

/-- What a run of visits preserves. -/
theorem bypassStates_spec (qs : List TaState) (aut : TraceAutomaton) :
    (qs.foldl bypassState aut).states = aut.states ∧
    (qs.foldl bypassState aut).initial = aut.initial ∧
    (∀ s, (qs.foldl bypassState aut).acceptsFrom s = aut.acceptsFrom s) ∧
    (∀ r, (r ∈ qs ∨ ∀ s, ¬ aut.delta s epsilon r) →
      ∀ s, ¬ (qs.foldl bypassState aut).delta s epsilon r) := by
  induction qs generalizing aut with
  | nil =>
      refine ⟨rfl, rfl, fun _ => rfl, ?_⟩
      intro r hr
      exact hr.resolve_left List.not_mem_nil
  | cons q qs ih =>
      obtain ⟨hstates, hinitial, hwords, hsilent⟩ := ih (aut.bypassState q)
      obtain ⟨hst, hin, _, _⟩ := aut.bypassState_spec q
      refine ⟨hstates.trans hst, hinitial.trans hin,
        fun s => (hwords s).trans (aut.bypassState_acceptsFrom q s), ?_⟩
      intro r hr s
      refine hsilent r ?_ s
      rcases hr with hr | hnone
      · rcases List.mem_cons.mp hr with rfl | hr
        · exact Or.inr (aut.bypassState_no_silent r (Or.inl rfl))
        · exact Or.inl hr
      · exact Or.inr (aut.bypassState_no_silent q (Or.inr hnone))

/-- No silent transition is left. -/
theorem removeEpsilon_epsilonFree (aut : TraceAutomaton) : aut.removeEpsilon.EpsilonFree := by
  obtain ⟨hstates, _, _, hsilent⟩ := bypassStates_spec aut.states aut
  intro e he hl
  obtain ⟨s, l, t⟩ := e
  have hlive : t ∈ aut.states := hstates ▸ (aut.removeEpsilon.trans_live _ he).2
  exact hsilent t (Or.inl hlive) s (hl ▸ he)

/-- The erased language stays. -/
theorem removeEpsilon_accepts (aut : TraceAutomaton) :
    aut.removeEpsilon.accepts = aut.accepts := by
  obtain ⟨_, hinitial, hwords, _⟩ := bypassStates_spec aut.states aut
  ext w
  simp only [accepts, removeEpsilon]
  exact exists_congr fun s => by rw [hinitial, hwords s]

/-! ## Phase 2: the dead states -/

section DeadStates

/-- Deleting transitions one by one: only transitions go. -/
private theorem foldl_delTrans (es : List (TaState × Int × TaState)) (aut : TraceAutomaton) :
    (es.foldl (fun aut e => aut.delTrans e.1 e.2.1 e.2.2) aut).states = aut.states ∧
    (es.foldl (fun aut e => aut.delTrans e.1 e.2.1 e.2.2) aut).initial = aut.initial ∧
    (es.foldl (fun aut e => aut.delTrans e.1 e.2.1 e.2.2) aut).finals = aut.finals ∧
    (es.foldl (fun aut e => aut.delTrans e.1 e.2.1 e.2.2) aut).trans = aut.trans.diff es := by
  induction es generalizing aut with
  | nil => simp
  | cons d es ih =>
      obtain ⟨h1, h2, h3, h4⟩ := ih (aut.delTrans d.1 d.2.1 d.2.2)
      refine ⟨h1, h2, h3, ?_⟩
      rw [List.foldl_cons, h4, List.diff_cons]
      rfl

/-- The automaton left when a dead state is taken out. -/
def withoutState (aut : TraceAutomaton) (es : List (TaState × Int × TaState)) (s : TaState) :
    TraceAutomaton :=
  (es.foldl (fun aut e => aut.delTrans e.1 e.2.1 e.2.2) aut).delState s

/-- The other states stay. -/
theorem withoutState_states (aut : TraceAutomaton) (es : List (TaState × Int × TaState))
    (s q : TaState) : q ∈ (aut.withoutState es s).states ↔ q ∈ aut.states ∧ q ≠ s := by
  rw [withoutState, mem_delState_states, (foldl_delTrans es aut).1]

/-- The other initial states stay. -/
theorem withoutState_initial (aut : TraceAutomaton) (es : List (TaState × Int × TaState))
    (s q : TaState) : q ∈ (aut.withoutState es s).initial ↔ q ∈ aut.initial ∧ q ≠ s := by
  rw [withoutState, mem_delState_initial, (foldl_delTrans es aut).2.1]

/-- The other final flags stay. -/
theorem withoutState_finals (aut : TraceAutomaton) (es : List (TaState × Int × TaState))
    (s q : TaState) : q ∈ (aut.withoutState es s).finals ↔ q ∈ aut.finals ∧ q ≠ s := by
  rw [withoutState, mem_delState_finals, (foldl_delTrans es aut).2.2.1]

/-- The transitions deleted beforehand touch `s`, so deleting the state
alone would remove the same ones. -/
theorem withoutState_trans {aut : TraceAutomaton} {es : List (TaState × Int × TaState)}
    {s : TaState} (hes : ∀ e ∈ es, e.1 = s ∨ e.2.2 = s) (e : TaState × Int × TaState) :
    e ∈ (aut.withoutState es s).trans ↔ e ∈ aut.trans ∧ e.1 ≠ s ∧ e.2.2 ≠ s := by
  rw [withoutState, mem_delState, (foldl_delTrans es aut).2.2.2]
  constructor
  · intro ⟨hmem, hends⟩
    exact ⟨List.diff_subset _ _ hmem, hends⟩
  · intro ⟨hmem, hsrc, htgt⟩
    refine ⟨List.mem_diff_of_mem hmem fun hin => ?_, hsrc, htgt⟩
    rcases hes e hin with h | h
    · exact hsrc h
    · exact htgt h

/-- The transitions the step deletes for `s`. -/
theorem outEdges_touch (aut : TraceAutomaton) (s : TaState) :
    ∀ e ∈ (aut.delta2 s).map (fun o => (s, o.1, o.2)), e.1 = s ∨ e.2.2 = s := by
  intro e he
  obtain ⟨o, _, rfl⟩ := List.mem_map.mp he
  exact Or.inl rfl

/-- The transitions into a state touch it. -/
theorem inEdges_touch (aut : TraceAutomaton) (s : TaState) :
    ∀ e ∈ (aut.delta2Backwards s).map (fun i => (i.2, i.1, s)), e.1 = s ∨ e.2.2 = s := by
  intro e he
  obtain ⟨o, _, rfl⟩ := List.mem_map.mp he
  exact Or.inr rfl

/-- A state that the worklist loop leaves in: initial, or with a way into it,
and either final or with a way out. -/
def Stays (aut : TraceAutomaton) (s : TaState) : Prop :=
  s ∈ aut.initial ∨
    ((∃ t l, aut.delta t l s) ∧ (s ∈ aut.finals ∨ ∃ l t, aut.delta s l t))

/-- **What one round can do**: drop the popped state, or delete it because
nothing leads into it or nothing leads out of it. -/
theorem pruneStep_cases (p : PruneState) (state : TaState) (queue : List TaState) :
    ((state ∈ p.dead ∨ p.aut.Stays state) ∧
      pruneStep p state queue = { p with queue := queue }) ∨
    (state ∉ p.aut.initial ∧ (∀ s l, ¬ p.aut.delta s l state) ∧
      pruneStep p state queue =
        { aut := p.aut.withoutState ((p.aut.delta2 state).map fun o => (state, o.1, o.2)) state
          queue := queue ++ (p.aut.delta2 state).map Prod.snd
          dead := state :: p.dead }) ∨
    (state ∉ p.aut.initial ∧ (∀ l t, ¬ p.aut.delta state l t) ∧ state ∉ p.aut.finals ∧
      pruneStep p state queue =
        { aut := p.aut.withoutState
            ((p.aut.delta2Backwards state).map fun i => (i.2, i.1, state)) state
          queue := queue ++ (p.aut.delta2Backwards state).map Prod.snd
          dead := state :: p.dead }) := by
  unfold pruneStep
  by_cases hdead : state ∈ p.dead
  · exact Or.inl ⟨Or.inl hdead, by simp [hdead]⟩
  by_cases hinit : state ∈ p.aut.initial
  · exact Or.inl ⟨Or.inr (Or.inl hinit), by simp [hinit]⟩
  by_cases hin : p.aut.delta2Backwards state = []
  · refine Or.inr (Or.inl ⟨hinit, ?_, ?_⟩)
    · intro s l hedge
      have := (p.aut.mem_delta2Backwards).mpr hedge
      simp [hin] at this
    · simp [hdead, hinit, hin, withoutState, List.foldl_map]
  have hentered : ∃ t l, p.aut.delta t l state := by
    obtain ⟨e, es, hes⟩ := List.exists_cons_of_ne_nil hin
    exact ⟨e.2, e.1, p.aut.mem_delta2Backwards.mp (hes ▸ List.mem_cons_self)⟩
  by_cases hout : p.aut.delta2 state = []
  · by_cases hfin : state ∈ p.aut.finals
    · exact Or.inl ⟨Or.inr (Or.inr ⟨hentered, Or.inl hfin⟩), by simp [hin, hout, hfin, isFinal]⟩
    · refine Or.inr (Or.inr ⟨hinit, ?_, hfin, ?_⟩)
      · intro l t hedge
        have := (p.aut.mem_delta2).mpr hedge
        simp [hout] at this
      · simp [hdead, hinit, hin, hout, hfin, isFinal, withoutState, List.foldl_map]
  · obtain ⟨o, os, hos⟩ := List.exists_cons_of_ne_nil hout
    have hleft : ∃ l t, p.aut.delta state l t :=
      ⟨o.1, o.2, p.aut.mem_delta2.mp (hos ▸ List.mem_cons_self)⟩
    exact Or.inl ⟨Or.inr (Or.inr ⟨hentered, Or.inr hleft⟩), by simp [hin, hout]⟩

/-- Taking out a state that nothing leads into, or that is no target and
leads nowhere, keeps the words that lead from the other states to targets. -/
theorem withoutState_future {aut : TraceAutomaton} {es : List (TaState × Int × TaState)}
    {s : TaState} {S T : TaState → Prop} (hes : ∀ e ∈ es, e.1 = s ∨ e.2.2 = s)
    (hdead : (∀ q l, ¬ aut.delta q l s) ∨ ((∀ l t, ¬ aut.delta s l t) ∧ ¬ S s))
    (htarget : ∀ f, T f ↔ S f ∧ f ≠ s) {q : TaState} (hq : q ≠ s) :
    future (aut.withoutState es s).delta epsilon T q = future aut.delta epsilon S q := by
  apply le_antisymm
  · exact future_mono (fun x l z hedge => ((withoutState_trans hes _).mp hedge).1)
      (fun f hf => ((htarget f).mp hf).1) q
  · rcases hdead with hin | ⟨hout, hfin⟩
    · -- no walk from another state meets `s`
      refine le_of_eq (future_congr (P := (· ≠ s)) ?_ ?_ ?_ hq)
      · intro x l z _ hedge hz
        exact hin x l (hz ▸ hedge)
      · intro x l z hx
        constructor
        · intro hedge
          exact (withoutState_trans hes _).mpr ⟨hedge, hx, fun hz => hin x l (hz ▸ hedge)⟩
        · intro hedge
          exact ((withoutState_trans hes _).mp hedge).1
      · intro f hf
        rw [htarget f]
        exact ⟨fun h => ⟨h, hf⟩, fun h => h.1⟩
    · -- no target is reached from `s`
      have h := future_le (R := aut.delta) (ε := epsilon) (F := S)
        (L := fun x => if x = s then 0 else
          future (aut.withoutState es s).delta epsilon T x) ?_ ?_ q
      · rwa [if_neg hq] at h
      · intro f hf
        have hfs : f ≠ s := fun heq => hfin (heq ▸ hf)
        rw [if_neg hfs]
        exact one_le_future ((htarget f).mpr ⟨hf, hfs⟩)
      · intro x l z hedge
        have hx : x ≠ s := fun heq => hout l z (heq ▸ hedge)
        rw [if_neg hx]
        by_cases hz : z = s
        · rw [if_pos hz, mul_zero]
          exact bot_le
        · rw [if_neg hz]
          exact letter_mul_future_le ((withoutState_trans hes _).mpr ⟨hedge, hx, hz⟩)

/-- A dead state is not missed by the others. -/
theorem withoutState_acceptsFrom {aut : TraceAutomaton}
    {es : List (TaState × Int × TaState)} {s : TaState}
    (hes : ∀ e ∈ es, e.1 = s ∨ e.2.2 = s)
    (hdead : (∀ q l, ¬ aut.delta q l s) ∨ ((∀ l t, ¬ aut.delta s l t) ∧ s ∉ aut.finals))
    {q : TaState} (hq : q ≠ s) : (aut.withoutState es s).acceptsFrom q = aut.acceptsFrom q :=
  withoutState_future hes hdead (aut.withoutState_finals es s) hq

/-- Nor by the automaton. -/
theorem withoutState_accepts {aut : TraceAutomaton}
    {es : List (TaState × Int × TaState)} {s : TaState}
    (hes : ∀ e ∈ es, e.1 = s ∨ e.2.2 = s) (hinit : s ∉ aut.initial)
    (hdead : (∀ q l, ¬ aut.delta q l s) ∨ ((∀ l t, ¬ aut.delta s l t) ∧ s ∉ aut.finals)) :
    (aut.withoutState es s).accepts = aut.accepts := by
  ext w
  constructor
  · intro ⟨q, hq, hw⟩
    obtain ⟨hq, hne⟩ := (aut.withoutState_initial es s q).mp hq
    exact ⟨q, hq, withoutState_acceptsFrom hes hdead hne ▸ hw⟩
  · intro ⟨q, hq, hw⟩
    have hne : q ≠ s := fun heq => hinit (heq ▸ hq)
    exact ⟨q, (aut.withoutState_initial es s q).mpr ⟨hq, hne⟩,
      (withoutState_acceptsFrom hes hdead hne).symm ▸ hw⟩

/-- One round keeps the language and adds no transition. -/
theorem pruneStep_language (p : PruneState) (state : TaState) (queue : List TaState) :
    (pruneStep p state queue).aut.accepts = p.aut.accepts ∧
      ∀ e ∈ (pruneStep p state queue).aut.trans, e ∈ p.aut.trans := by
  rcases pruneStep_cases p state queue with ⟨_, h⟩ | ⟨hinit, hin, h⟩ | ⟨hinit, hout, hfin, h⟩
  · rw [h]
    exact ⟨rfl, fun _ he => he⟩
  · rw [h]
    have hes := outEdges_touch p.aut state
    exact ⟨withoutState_accepts hes hinit (Or.inl hin),
      fun e he => ((withoutState_trans hes e).mp he).1⟩
  · rw [h]
    have hes := inEdges_touch p.aut state
    exact ⟨withoutState_accepts hes hinit (Or.inr ⟨hout, hfin⟩),
      fun e he => ((withoutState_trans hes e).mp he).1⟩

/-- Pruning keeps the language and adds no transition. -/
theorem prune_language (fuel : Nat) (p : PruneState) :
    (prune fuel p).aut.accepts = p.aut.accepts ∧
      ∀ e ∈ (prune fuel p).aut.trans, e ∈ p.aut.trans := by
  induction fuel generalizing p with
  | zero => exact ⟨rfl, fun _ he => he⟩
  | succ fuel ih =>
      unfold prune
      split
      next => exact ⟨rfl, fun _ he => he⟩
      next state queue _ =>
          obtain ⟨haccepts, htrans⟩ := ih (pruneStep p state queue)
          obtain ⟨hstep, hsub⟩ := pruneStep_language p state queue
          exact ⟨haccepts.trans hstep, fun e he => hsub e (htrans e he)⟩

/-- The deleted transitions pay for the states put back into the queue. -/
private theorem withoutState_trans_length {aut : TraceAutomaton}
    {es : List (TaState × Int × TaState)} {s : TaState} (hes : es.Sublist aut.trans) :
    (aut.withoutState es s).trans.length + es.length ≤ aut.trans.length := by
  have hperm : (es ++ aut.trans.diff es).Perm aut.trans :=
    List.subperm_append_diff_self_of_count_le fun e _ => hes.count_le e
  have hkept : (aut.withoutState es s).trans.length ≤ (aut.trans.diff es).length := by
    rw [← (foldl_delTrans es aut).2.2.2]
    exact List.length_filter_le _ _
  have hlen := hperm.length_eq
  rw [List.length_append] at hlen
  omega

/-- The outgoing transitions are some of all. -/
private theorem outEdges_sublist (aut : TraceAutomaton) (s : TaState) :
    ((aut.delta2 s).map fun o => (s, o.1, o.2)).Sublist aut.trans := by
  unfold delta2
  induction aut.trans with
  | nil => exact List.Sublist.refl _
  | cons e es ih =>
      obtain ⟨s', l, t⟩ := e
      by_cases he : s' = s
      · simpa [he] using ih
      · simpa [he] using ih.cons (s', l, t)

/-- The incoming transitions are some of all. -/
private theorem inEdges_sublist (aut : TraceAutomaton) (s : TaState) :
    ((aut.delta2Backwards s).map fun i => (i.2, i.1, s)).Sublist aut.trans := by
  unfold delta2Backwards
  induction aut.trans with
  | nil => exact List.Sublist.refl _
  | cons e es ih =>
      obtain ⟨s', l, t⟩ := e
      by_cases he : t = s
      · simpa [he] using ih
      · simpa [he] using ih.cons (s', l, t)

/-- **Progress.**  A round takes a state from the queue and never puts more
states back than it deletes transitions. -/
theorem pruneStep_measure (p : PruneState) (state : TaState) (queue : List TaState) :
    (pruneStep p state queue).queue.length + (pruneStep p state queue).aut.trans.length ≤
      queue.length + p.aut.trans.length := by
  rcases pruneStep_cases p state queue with ⟨_, h⟩ | ⟨_, _, h⟩ | ⟨_, _, _, h⟩
  · rw [h]
  · have hlen := withoutState_trans_length (s := state) (outEdges_sublist p.aut state)
    rw [h]
    simp only [List.length_append, List.length_map] at hlen ⊢
    omega
  · have hlen := withoutState_trans_length (s := state) (inEdges_sublist p.aut state)
    rw [h]
    simp only [List.length_append, List.length_map] at hlen ⊢
    omega

/-- Enough fuel empties the queue: the loop of the source ends. -/
theorem prune_queue (fuel : Nat) (p : PruneState)
    (hfuel : p.queue.length + p.aut.trans.length ≤ fuel) : (prune fuel p).queue = [] := by
  induction fuel generalizing p with
  | zero =>
      have hlen : p.queue.length = 0 := by omega
      exact List.length_eq_zero_iff.mp hlen
  | succ fuel ih =>
      unfold prune
      split
      next h => exact h
      next state queue h =>
          apply ih
          have hmeasure := pruneStep_measure p state queue
          rw [h, List.length_cons] at hfuel
          omega

end DeadStates

/-! ## Phases 3 and 4 -/

/-- The third loop at one state, when `os` is what remains of its transitions
and `seen` the set `seen_edges`: one entry of each transition is left. -/
private theorem removeDuplicates_loop (s : TaState) (os seen : List (Int × TaState))
    (aut : TraceAutomaton)
    (hcount : ∀ o, aut.trans.count (s, o) = os.count o + if o ∈ seen then 1 else 0) :
    let out := (os.foldl (fun (p : TraceAutomaton × List (Int × TaState)) o =>
      if o ∈ p.2 then (p.1.delTrans s o.1 o.2, p.2) else (p.1, o :: p.2)) (aut, seen)).1
    out.slots = aut.slots ∧ out.states = aut.states ∧ out.initial = aut.initial ∧
      out.finals = aut.finals ∧ (∀ e, e ∈ out.trans ↔ e ∈ aut.trans) ∧
      (∀ o, out.trans.count (s, o) ≤ 1) ∧
      ∀ e, e.1 ≠ s → out.trans.count e = aut.trans.count e := by
  induction os generalizing seen aut with
  | nil =>
      refine ⟨rfl, rfl, rfl, rfl, fun _ => Iff.rfl, fun o => ?_, fun _ _ => rfl⟩
      have h := hcount o
      simp only [List.count_nil, List.foldl_nil] at h ⊢
      split at h <;> omega
  | cons o os ih =>
      rw [List.foldl_cons]
      by_cases ho : o ∈ seen
      · have herase : ∀ e, (aut.delTrans s o.1 o.2).trans.count e =
            aut.trans.count e - if e = (s, o) then 1 else 0 := by
          intro e
          simp only [delTrans, List.count_erase, beq_iff_eq, eq_comm (a := e)]
        have hrest : ∀ o', (aut.delTrans s o.1 o.2).trans.count (s, o') =
            os.count o' + if o' ∈ seen then 1 else 0 := by
          intro o'
          rw [herase, hcount o', List.count_cons]
          by_cases heq : o = o'
          · simp [← heq, ho]
          · have hne : ¬ (s, o') = (s, o) := fun h => heq (Prod.mk.inj h).2.symm
            simp [heq, hne]
        obtain ⟨h1, h2, h3, h4, h5, h6, h7⟩ := ih seen (aut.delTrans s o.1 o.2) hrest
        rw [if_pos ho]
        refine ⟨h1, h2, h3, h4, fun e => (h5 e).trans ?_, h6, fun e he => ?_⟩
        · -- of a repeated transition an entry remains
          rw [← List.count_pos_iff, ← List.count_pos_iff, herase]
          have h := hcount o
          rw [List.count_cons_self, if_pos ho] at h
          by_cases heo : e = (s, o)
          · rw [heo, if_pos rfl]
            omega
          · rw [if_neg heo, Nat.sub_zero]
        · rw [h7 e he, herase, if_neg fun heq => he (by rw [heq]), Nat.sub_zero]
      · rw [if_neg ho]
        refine ih (o :: seen) aut fun o' => ?_
        rw [hcount o', List.count_cons]
        by_cases heq : o = o'
        · simp [← heq, ho]
        · have hne : ¬ o' = o := fun h => heq h.symm
          simp [heq, hne]

/-- `delta2` lists a transition as often as it is there. -/
private theorem count_delta2 (aut : TraceAutomaton) (s : TaState) (o : Int × TaState) :
    (aut.delta2 s).count o = aut.trans.count (s, o) := by
  unfold delta2
  induction aut.trans with
  | nil => rfl
  | cons e es ih =>
      obtain ⟨t, o'⟩ := e
      by_cases ht : t = s
      · simp [ht, List.count_cons, ih]
      · simp [ht, ih]

/-- One state loses its duplicates. -/
private theorem removeDuplicatesAt_spec (aut : TraceAutomaton) (s : TaState) :
    let out := aut.removeDuplicatesAt s
    out.slots = aut.slots ∧ out.states = aut.states ∧ out.initial = aut.initial ∧
      out.finals = aut.finals ∧ (∀ e, e ∈ out.trans ↔ e ∈ aut.trans) ∧
      (∀ o, out.trans.count (s, o) ≤ 1) ∧
      ∀ e, e.1 ≠ s → out.trans.count e = aut.trans.count e :=
  removeDuplicates_loop s (aut.delta2 s) [] aut fun o => by simp [count_delta2]

/-- **The third loop** drops repetitions of transitions and nothing else. -/
theorem removeDuplicateEdges_spec (aut : TraceAutomaton) :
    aut.removeDuplicateEdges.slots = aut.slots ∧
    aut.removeDuplicateEdges.states = aut.states ∧
    aut.removeDuplicateEdges.initial = aut.initial ∧
    aut.removeDuplicateEdges.finals = aut.finals ∧
    (∀ e, e ∈ aut.removeDuplicateEdges.trans ↔ e ∈ aut.trans) ∧
    aut.removeDuplicateEdges.trans.Nodup := by
  have hloop : ∀ (ss : List TaState) (a : TraceAutomaton),
      let out := ss.foldl removeDuplicatesAt a
      out.slots = a.slots ∧ out.states = a.states ∧ out.initial = a.initial ∧
        out.finals = a.finals ∧ (∀ e, e ∈ out.trans ↔ e ∈ a.trans) ∧
        ∀ e, (e.1 ∈ ss ∨ a.trans.count e ≤ 1) → out.trans.count e ≤ 1 := by
    intro ss
    induction ss with
    | nil => exact fun a => ⟨rfl, rfl, rfl, rfl, fun _ => Iff.rfl, fun _ he => by simpa using he⟩
    | cons s ss ih =>
        intro a
        obtain ⟨h1, h2, h3, h4, h5, h6⟩ := ih (a.removeDuplicatesAt s)
        obtain ⟨g1, g2, g3, g4, g5, gone, gother⟩ := a.removeDuplicatesAt_spec s
        refine ⟨h1.trans g1, h2.trans g2, h3.trans g3, h4.trans g4,
          fun e => (h5 e).trans (g5 e), fun e he => h6 e ?_⟩
        by_cases hes : e.1 = s
        · exact Or.inr (hes ▸ gone e.2)
        · rcases he with he | he
          · exact Or.inl ((List.mem_cons.mp he).resolve_left hes)
          · exact Or.inr (gother e hes ▸ he)
  obtain ⟨h1, h2, h3, h4, h5, h6⟩ := hloop aut.states aut
  refine ⟨h1, h2, h3, h4, h5, List.nodup_iff_count_le_one.mpr fun e => h6 e ?_⟩
  by_cases he : e ∈ aut.trans
  · exact Or.inl (aut.trans_live e he).1
  · exact Or.inr (by rw [List.count_eq_zero.mpr he]; exact Nat.zero_le 1)

/-- The relation stays. -/
theorem removeDuplicateEdges_delta (aut : TraceAutomaton) :
    aut.removeDuplicateEdges.delta = aut.delta := by
  obtain ⟨_, _, _, _, htrans, _⟩ := aut.removeDuplicateEdges_spec
  funext s l t
  exact propext (htrans (s, l, t))

/-- The language stays. -/
theorem removeDuplicateEdges_accepts (aut : TraceAutomaton) :
    aut.removeDuplicateEdges.accepts = aut.accepts := by
  obtain ⟨_, _, hinitial, hfinals, _, _⟩ := aut.removeDuplicateEdges_spec
  unfold accepts acceptsFrom
  rw [hinitial, removeDuplicateEdges_delta, hfinals]

/-- `f` renames the states of `aut` to those of `out`. -/
structure Renamed (aut out : TraceAutomaton) (f : TaState → TaState) : Prop where
  injective : ∀ s ∈ aut.states, ∀ t ∈ aut.states, f s = f t → s = t
  states : ∀ q, q ∈ out.states ↔ ∃ s ∈ aut.states, f s = q
  trans : ∀ e, e ∈ out.trans ↔ ∃ d ∈ aut.trans, e = (f d.1, d.2.1, f d.2.2)
  initial : ∀ q, q ∈ out.initial ↔ ∃ s ∈ aut.initial, f s = q
  finals : ∀ q, q ∈ out.finals ↔ ∃ s ∈ aut.finals, f s = q

namespace Renamed

variable {aut mid out : TraceAutomaton} {f g : TaState → TaState}

/-- Final states go to final states. -/
theorem mem_finals (h : Renamed aut out f) {s : TaState} (hs : s ∈ aut.states) :
    f s ∈ out.finals ↔ s ∈ aut.finals := by
  rw [h.finals]
  constructor
  · intro ⟨t, ht, heq⟩
    exact h.injective t (aut.finals_live t ht) s hs heq ▸ ht
  · exact fun hs => ⟨s, hs, rfl⟩

/-- The transitions of an image are images. -/
theorem delta_image (h : Renamed aut out f) {s : TaState} (hs : s ∈ aut.states) (l : Int)
    (q : TaState) : out.delta (f s) l q ↔ ∃ t, aut.delta s l t ∧ f t = q := by
  constructor
  · intro hedge
    obtain ⟨⟨s', l', t⟩, hd, heq⟩ := (h.trans _).mp hedge
    simp only [Prod.mk.injEq] at heq
    obtain ⟨hsource, rfl, rfl⟩ := heq
    obtain rfl := h.injective s hs s' (aut.trans_live _ hd).1 hsource
    exact ⟨t, hd, rfl⟩
  · intro ⟨t, hedge, heq⟩
    exact (h.trans _).mpr ⟨_, hedge, by rw [heq]⟩

/-- Renaming twice. -/
theorem comp (h : Renamed aut mid f) (h' : Renamed mid out g) : Renamed aut out (g ∘ f) where
  injective := by
    intro s hs t ht heq
    have hs' := (h.states (f s)).mpr ⟨s, hs, rfl⟩
    have ht' := (h.states (f t)).mpr ⟨t, ht, rfl⟩
    exact h.injective s hs t ht (h'.injective _ hs' _ ht' heq)
  states := by
    intro q
    simp only [h'.states, h.states, Function.comp, exists_exists_and_eq_and]
  trans := by
    intro e
    simp only [h'.trans, h.trans, Function.comp]
    constructor
    · intro ⟨_, ⟨d, hd, rfl⟩, heq⟩
      exact ⟨d, hd, heq⟩
    · intro ⟨d, hd, heq⟩
      exact ⟨_, ⟨d, hd, rfl⟩, heq⟩
  initial := by
    intro q
    simp only [h'.initial, h.initial, Function.comp, exists_exists_and_eq_and]
  finals := by
    intro q
    simp only [h'.finals, h.finals, Function.comp, exists_exists_and_eq_and]

/-- A state accepts what its image accepts. -/
theorem acceptsFrom (h : Renamed aut out f) {s : TaState} (hs : s ∈ aut.states) :
    out.acceptsFrom (f s) = aut.acceptsFrom s :=
  future_map (P := (· ∈ aut.states)) (fun _ _ _ _ hedge => (aut.trans_live _ hedge).2)
    (fun _ l q hs => h.delta_image hs l q) (fun _ ht => (h.mem_finals ht).symm) hs

/-- The language stays. -/
theorem accepts (h : Renamed aut out f) : out.accepts = aut.accepts := by
  ext w
  constructor
  · intro ⟨q, hq, hw⟩
    obtain ⟨s, hs, rfl⟩ := (h.initial q).mp hq
    exact ⟨s, hs, h.acceptsFrom (aut.initial_live s hs) ▸ hw⟩
  · intro ⟨s, hs, hw⟩
    exact ⟨f s, (h.initial _).mpr ⟨s, hs, rfl⟩, (h.acceptsFrom (aut.initial_live s hs)).symm ▸ hw⟩

/-- Renaming brings no label. -/
theorem labels (h : Renamed aut out f) : ∀ e ∈ out.trans, ∃ d ∈ aut.trans, d.2.1 = e.2.1 := by
  intro e he
  obtain ⟨d, hd, rfl⟩ := (h.trans e).mp he
  exact ⟨d, hd, rfl⟩

end Renamed

/-- A copy into an automaton without states, made initial and final where
the source is, is the source with other numbers. -/
theorem copy_renamed (src dest : TraceAutomaton) (hempty : ∀ q, q ∉ dest.states) :
    ∃ f, Renamed src (((copyAutomaton src dest).2.swapInitial
      (copyAutomaton src dest).1.1).setFinalAll (copyAutomaton src dest).1.2) f := by
  obtain ⟨f, hf⟩ := exists_isCopy src dest
  have himage : ∀ s ∈ src.states, f s ∈ (copyAutomaton src dest).2.states :=
    fun s hs => (hf.states _).mpr (Or.inr ⟨s, hs, rfl⟩)
  refine ⟨f, hf.injective, ?_, ?_, ?_, ?_⟩
  · intro q
    rw [setFinalAll_states, swapInitial_states, hf.states]
    exact ⟨fun h => h.resolve_left (hempty q), Or.inr⟩
  · intro e
    rw [setFinalAll_trans, swapInitial_trans, hf.trans]
    exact ⟨fun h => h.resolve_left fun he => hempty _ (dest.trans_live e he).1, Or.inr⟩
  · intro q
    rw [setFinalAll_initial, mem_swapInitial, hf.init]
    constructor
    · exact And.left
    · intro ⟨s, hs, heq⟩
      exact ⟨⟨s, hs, heq⟩, heq ▸ himage s (src.initial_live s hs)⟩
  · intro q
    rw [mem_setFinalAll, swapInitial_finals, swapInitial_states, hf.finals, hf.final]
    constructor
    · intro h
      rcases h with h | h
      · exact absurd (dest.finals_live q h) (hempty q)
      · exact h.1
    · intro ⟨s, hs, heq⟩
      exact Or.inr ⟨⟨s, hs, heq⟩, heq ▸ himage s (src.finals_live s hs)⟩

/-- **The renumbering.** -/
theorem compactify_renamed (aut : TraceAutomaton) : ∃ f, Renamed aut aut.compactify f := by
  obtain ⟨f, hf⟩ := copy_renamed aut empty (fun q hq => by simp [empty] at hq)
  obtain ⟨g, hg⟩ := copy_renamed
    (((copyAutomaton aut empty).2.swapInitial (copyAutomaton aut empty).1.1).setFinalAll
      (copyAutomaton aut empty).1.2)
    (aut.delStateAll aut.states) (fun q hq => by
      rw [mem_delStateAll_states] at hq
      exact hq.2 hq.1)
  exact ⟨g ∘ f, hf.comp hg⟩

/-- Compact numbers keep the language. -/
theorem compactify_accepts (aut : TraceAutomaton) :
    aut.compactify.accepts = aut.accepts ∧
      ∀ e ∈ aut.compactify.trans, ∃ d ∈ aut.trans, d.2.1 = e.2.1 := by
  obtain ⟨f, hf⟩ := aut.compactify_renamed
  exact ⟨hf.accepts, hf.labels⟩

/-! ## The whole function -/

/-- In an automaton without silent transitions nothing is erased. -/
theorem EpsilonFree.mem_accepts {aut : TraceAutomaton} (h : aut.EpsilonFree) {w : List Int} :
    w ∈ aut.accepts ↔ ∃ s ∈ aut.initial, ∃ f ∈ aut.finals, Walk aut.delta s w f := by
  have herase : ∀ {s f : TaState} {u : List Int}, Walk aut.delta s u f →
      erase epsilon u = u := by
    intro s f u hwalk
    induction hwalk with
    | nil => rfl
    | @cons s t f a u hedge _ ih =>
        have hne : a ≠ epsilon := h _ hedge
        simp only [erase, ne_eq, hne, not_false_eq_true, decide_true,
          List.filter_cons_of_pos] at ih ⊢
        rw [ih]
  constructor
  · intro h
    obtain ⟨s, hs, f, u, hf, hwalk, hu⟩ := h
    exact ⟨s, hs, f, hf, (herase hwalk).symm.trans hu ▸ hwalk⟩
  · intro h
    obtain ⟨s, hs, f, hf, hwalk⟩ := h
    exact ⟨s, hs, f, w, hf, hwalk, herase hwalk⟩

/-- The result has no silent transition. -/
theorem simplifyAutomaton_epsilonFree (aut : TraceAutomaton) (compact : Bool) :
    (aut.simplifyAutomaton compact).EpsilonFree := by
  have hfree : aut.removeEpsilon.removeDeadStates.EpsilonFree := by
    intro e he
    exact aut.removeEpsilon_epsilonFree e ((prune_language _ _).2 e he)
  obtain ⟨_, _, _, _, hdedup, _⟩ := aut.removeEpsilon.removeDeadStates.removeDuplicateEdges_spec
  rw [simplifyAutomaton]
  split
  · intro e he
    obtain ⟨d, hd, hde⟩ := (compactify_accepts _).2 e he
    exact hde ▸ hfree d ((hdedup d).mp hd)
  · exact fun e he => hfree e ((hdedup e).mp he)

/-- The result has the erased language. -/
theorem simplifyAutomaton_accepts (aut : TraceAutomaton) (compact : Bool) :
    (aut.simplifyAutomaton compact).accepts = aut.accepts := by
  have hdead : aut.removeEpsilon.removeDeadStates.accepts = aut.accepts :=
    ((prune_language _ _).1).trans aut.removeEpsilon_accepts
  have hdedup := aut.removeEpsilon.removeDeadStates.removeDuplicateEdges_accepts
  rw [simplifyAutomaton]
  split
  · exact (compactify_accepts _).1.trans (hdedup.trans hdead)
  · exact hdedup.trans hdead

/-- Simplification invents no label. -/
theorem simplifyAutomaton_labels (aut : TraceAutomaton) (compact : Bool) :
    ∀ e ∈ (aut.simplifyAutomaton compact).trans, ∃ d ∈ aut.trans, d.2.1 = e.2.1 := by
  have hsilent : ∀ (qs : List TaState) (a : TraceAutomaton),
      ∀ e ∈ (qs.foldl bypassState a).trans, ∃ d ∈ a.trans, d.2.1 = e.2.1 := by
    intro qs
    induction qs with
    | nil => exact fun a e he => ⟨e, he, rfl⟩
    | cons q qs ih =>
        intro a e he
        obtain ⟨d, hd, hde⟩ := ih (a.bypassState q) e he
        obtain ⟨_, _, _, hdelta⟩ := a.bypassState_spec q
        rcases ((hdelta d.1 d.2.1 d.2.2).mp hd).1 with hold | ⟨_, _, hout⟩
        · exact ⟨d, hold, hde⟩
        · exact ⟨(q, d.2.1, d.2.2), hout, hde⟩
  have hdead : ∀ e ∈ aut.removeEpsilon.removeDeadStates.trans, ∃ d ∈ aut.trans, d.2.1 = e.2.1 :=
    fun e he => hsilent aut.states aut e ((prune_language _ _).2 e he)
  obtain ⟨_, _, _, _, hdedup, _⟩ := aut.removeEpsilon.removeDeadStates.removeDuplicateEdges_spec
  rw [simplifyAutomaton]
  split
  · intro e he
    obtain ⟨d, hd, hde⟩ := (compactify_accepts _).2 e he
    obtain ⟨c, hc, hcd⟩ := hdead d ((hdedup d).mp hd)
    exact ⟨c, hc, hcd.trans hde⟩
  · exact fun e he => hdead e ((hdedup e).mp he)

/-- **Simplification preserves the language and removes every silent
transition.**  For either value of the flag no transition of the result is
silent, and its walks spell exactly the words that the given automaton
accepts once the silent label is erased. -/
theorem simplifyAutomaton_correct (aut : TraceAutomaton) (compact : Bool) :
    (∀ e ∈ (aut.simplifyAutomaton compact).trans, e.2.1 ≠ epsilon) ∧
    ∀ w : List Int,
      (∃ s ∈ (aut.simplifyAutomaton compact).initial,
        ∃ f ∈ (aut.simplifyAutomaton compact).finals,
          Walk (aut.simplifyAutomaton compact).delta s w f) ↔
      ∃ s ∈ aut.initial, ∃ f ∈ aut.finals, ∃ u,
        Walk aut.delta s u f ∧ u.filter (· ≠ epsilon) = w := by
  have hfree := aut.simplifyAutomaton_epsilonFree compact
  refine ⟨hfree, fun w => ?_⟩
  rw [← hfree.mem_accepts, simplifyAutomaton_accepts]
  constructor
  · intro ⟨s, hs, f, u, hf, hwalk, hu⟩
    exact ⟨s, hs, f, hf, u, hwalk, hu⟩
  · intro ⟨s, hs, f, hf, u, hwalk, hu⟩
    exact ⟨s, hs, f, u, hf, hwalk, hu⟩

end TraceAutomaton

end FShell
