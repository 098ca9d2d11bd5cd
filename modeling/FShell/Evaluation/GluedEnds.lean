import FShell.Ast.Pattern
import FShell.Evaluation.PatternAutomata

/-!
# The words that the glue spells

`glued` follows the constructions through a pattern and computes the four
languages at its ends: those of the stored automaton for a pattern that
already has one, and those of the construction otherwise.  The glued words
always contain the language of a regular pattern
(`Regular.denote_le_glued`).
-/

open scoped Computability

namespace FShell

open LabelledGraph TraceAutomaton

variable {F P : Type}

/-- The ends that the construction gives to a pattern when the patterns of
`known` already have an automaton. -/
def PathPattern.glued (atomLang : EcpAtom F P → Language Int)
    (known : PathPattern F P → Option TraceAutomaton) : PathPattern F P → Ends Int
  | .atom a => ((known (.atom a)).map TraceAutomaton.ends).getD (Ends.plain (atomLang a))
  | .ppAlternative ppA ppB =>
      ((known (.ppAlternative ppA ppB)).map TraceAutomaton.ends).getD
        (Ends.plain ((ppA.glued atomLang known).through + (ppB.glued atomLang known).through))
  | .ppConcat ppA ppB =>
      ((known (.ppConcat ppA ppB)).map TraceAutomaton.ends).getD
        ((ppA.glued atomLang known).seq (ppB.glued atomLang known))
  | .repetition pp lower upper =>
      ((known (.repetition pp lower upper)).map TraceAutomaton.ends).getD
        (rowEnds (repeatRow (pp.glued atomLang known) lower upper))

namespace PathPattern

variable {f g : EcpAtom F P → Language Int}
  {known known' : PathPattern F P → Option TraceAutomaton}

theorem glued_of_known {n : PathPattern F P} {aut : TraceAutomaton} (h : known n = some aut) :
    n.glued f known = aut.ends := by
  cases n with
  | atom a => simp [glued, h]
  | ppAlternative ppA ppB => simp [glued, h]
  | ppConcat ppA ppB => simp [glued, h]
  | repetition pp lower upper => simp [glued, h]

/-- Storing automata with the right ends changes nothing. -/
theorem glued_congr {n : PathPattern F P}
    (hatom : ∀ a, atom a ∈ n.subpatterns → f a = g a)
    (hknown : ∀ m ∈ n.subpatterns, known' m = known m ∨
      (known m = none ∧ ∃ aut, known' m = some aut ∧ aut.ends = m.glued f known)) :
    n.glued g known' = n.glued f known := by
  -- at a newly stored pattern the claim is what `hknown` says
  have hnew : ∀ m : PathPattern F P, (∃ aut, known' m = some aut ∧ aut.ends = m.glued f known) →
      m.glued g known' = m.glued f known := by
    intro m ⟨aut, haut, hends⟩
    rw [glued_of_known haut, hends]
  induction n with
  | atom a =>
      rcases hknown _ (mem_subpatterns_self _) with hsame | ⟨_, h⟩
      · simp only [glued, hsame, hatom a (mem_subpatterns_self _)]
      · exact hnew _ h
  | ppAlternative ppA ppB ihA ihB =>
      rcases hknown _ (mem_subpatterns_self _) with hsame | ⟨_, h⟩
      · have hA := ihA (fun a ha => hatom a (List.mem_cons_of_mem _ (List.mem_append_left _ ha)))
          fun m hm => hknown m (List.mem_cons_of_mem _ (List.mem_append_left _ hm))
        have hB := ihB (fun a ha => hatom a (List.mem_cons_of_mem _ (List.mem_append_right _ ha)))
          fun m hm => hknown m (List.mem_cons_of_mem _ (List.mem_append_right _ hm))
        simp only [glued, hsame, hA, hB]
      · exact hnew _ h
  | ppConcat ppA ppB ihA ihB =>
      rcases hknown _ (mem_subpatterns_self _) with hsame | ⟨_, h⟩
      · have hA := ihA (fun a ha => hatom a (List.mem_cons_of_mem _ (List.mem_append_left _ ha)))
          fun m hm => hknown m (List.mem_cons_of_mem _ (List.mem_append_left _ hm))
        have hB := ihB (fun a ha => hatom a (List.mem_cons_of_mem _ (List.mem_append_right _ ha)))
          fun m hm => hknown m (List.mem_cons_of_mem _ (List.mem_append_right _ hm))
        simp only [glued, hsame, hA, hB]
      · exact hnew _ h
  | repetition pp lower upper ih =>
      rcases hknown _ (mem_subpatterns_self _) with hsame | ⟨_, h⟩
      · have hp := ih (fun a ha => hatom a (List.mem_cons_of_mem _ ha))
          fun m hm => hknown m (List.mem_cons_of_mem _ hm)
        simp only [glued, hsame, hp]
      · exact hnew _ h

/-- The row of a regular repetition is not empty and its fragments have
states at their ends. -/
theorem repeatRow_live {e : Ends Int} {lower upper : Int} (he : e.Live) (hlower : 0 ≤ lower)
    (hupper : upper = -1 ∨ (lower ≤ upper ∧ 0 < upper)) :
    repeatRow e lower upper ≠ [] ∧ ∀ d ∈ repeatRow e lower upper, d.Live := by
  constructor
  · intro hnil
    have hlen := congrArg List.length hnil
    by_cases hinf : upper = -1
    · simp [repeatRow, hinf] at hlen
    · simp only [repeatRow, if_neg hinf, List.length_append, List.length_replicate,
        List.length_nil] at hlen
      omega
  · intro d hd
    rcases List.mem_append.mp hd with hd | hd
    · exact (List.eq_of_mem_replicate hd).symm ▸ he
    · split at hd
      · exact (List.mem_singleton.mp hd).symm ▸ he.glue.glueBack
      · exact (List.eq_of_mem_replicate hd).symm ▸ he.glue

theorem rowEnds_live {row : List (Ends Int)} (hrow : row ≠ []) (h : ∀ d ∈ row, d.Live) :
    (rowEnds row).Live := by
  cases row with
  | nil => exact absurd rfl hrow
  | cons e es =>
      exact (h e List.mem_cons_self).chain fun d hd => h d (List.mem_cons_of_mem _ hd)

theorem rowEnds_through {row : List (Ends Int)} (hrow : row ≠ []) :
    (rowEnds row).through = (row.map Ends.through).prod := by
  cases row with
  | nil => exact absurd rfl hrow
  | cons e es => rw [rowEnds, e.chain_through, List.map_cons, List.prod_cons]

/-- Regular patterns get states at both ends. -/
theorem Regular.glued_live {n : PathPattern F P} (hn : n.Regular)
    (hlive : ∀ m ∈ n.subpatterns, ∀ aut, known m = some aut → aut.ends.Live) :
    (n.glued f known).Live := by
  induction n with
  | atom a =>
      rcases hstored : known (atom a) with _ | aut
      · simp only [glued, hstored]
        exact Ends.plain_live _
      · rw [glued_of_known hstored]
        exact hlive _ (mem_subpatterns_self _) aut hstored
  | ppAlternative ppA ppB _ _ =>
      rcases hstored : known (ppAlternative ppA ppB) with _ | aut
      · simp only [glued, hstored]
        exact Ends.plain_live _
      · rw [glued_of_known hstored]
        exact hlive _ (mem_subpatterns_self _) aut hstored
  | ppConcat ppA ppB ihA ihB =>
      rcases hstored : known (ppConcat ppA ppB) with _ | aut
      · simp only [glued, hstored]
        have hA := ihA hn.1 fun m hm =>
          hlive m (List.mem_cons_of_mem _ (List.mem_append_left _ hm))
        have hB := ihB hn.2 fun m hm =>
          hlive m (List.mem_cons_of_mem _ (List.mem_append_right _ hm))
        exact hA.seq hB
      · rw [glued_of_known hstored]
        exact hlive _ (mem_subpatterns_self _) aut hstored
  | repetition pp lower upper ih =>
      rcases hstored : known (repetition pp lower upper) with _ | aut
      · simp only [glued, hstored]
        have hp := ih hn.1 fun m hm => hlive m (List.mem_cons_of_mem _ hm)
        obtain ⟨hrow, hfragments⟩ := repeatRow_live hp hn.2.1 hn.2.2
        exact rowEnds_live hrow hfragments
      · rw [glued_of_known hstored]
        exact hlive _ (mem_subpatterns_self _) aut hstored

/-- A row contains the repetitions that it is made for. -/
theorem repeatLanguage_le_rowEnds {e : Ends Int} {l : Language Int} {lower upper : Int}
    (he : e.Live) (hl : l ≤ e.through) (hlower : 0 ≤ lower)
    (hupper : upper = -1 ∨ (lower ≤ upper ∧ 0 < upper)) :
    repeatLanguage l lower upper ≤ (rowEnds (repeatRow e lower upper)).through := by
  intro w hw
  obtain ⟨n, hn, hbound, hw⟩ := hw
  obtain ⟨k, rfl⟩ : ∃ k, n = lower.toNat + k := ⟨n - lower.toNat, by omega⟩
  have hmandatory : l ^ lower.toNat ≤ e.through ^ lower.toNat := pow_le_pow_left' hl _
  have hstep : l ^ k ≤ e.glue.through ^ k :=
    pow_le_pow_left' (hl.trans Ends.through_le_glue) k
  have hrest : l ^ k ≤ ((if upper = -1 then [e.glue.glueBack] else
      List.replicate (upper - lower).toNat e.glue).map Ends.through).prod := by
    by_cases hinf : upper = -1
    · simp only [hinf, if_true, List.map_cons, List.map_nil, List.prod_singleton]
      calc l ^ k ≤ e.glue.through ^ k := hstep
        _ ≤ e.glue.through∗ := pow_le_kstar
        _ ≤ e.glue.glueBack.through := Ends.kstar_le_glueBack he.one_le_glue
    · simp only [if_neg hinf, List.map_replicate, List.prod_replicate]
      calc l ^ k ≤ e.glue.through ^ k := hstep
        _ ≤ e.glue.through ^ (upper - lower).toNat :=
            pow_le_pow_right' he.one_le_glue (by omega)
  have hrow : l ^ (lower.toNat + k) ≤ (rowEnds (repeatRow e lower upper)).through := by
    rw [rowEnds_through (repeatRow_live he hlower hupper).1, repeatRow, List.map_append,
      List.prod_append, List.map_replicate, List.prod_replicate, pow_add]
    exact mul_le_mul' hmandatory hrest
  exact hrow hw

/-- **The glued words contain the language**, when those of the stored
operands do. -/
theorem Regular.denote_le_glued {n : PathPattern F P} (hn : n.Regular)
    (hlive : ∀ m ∈ n.subpatterns, ∀ aut, known m = some aut → aut.ends.Live)
    (hlower : ∀ m ∈ n.subpatterns, ∀ aut, known m = some aut → m.denote f ≤ aut.accepts) :
    n.denote f ≤ (n.glued f known).through := by
  induction n with
  | atom a =>
      rcases hstored : known (atom a) with _ | aut
      · simp only [glued, hstored]
        exact le_rfl
      · rw [glued_of_known hstored]
        exact hlower _ (mem_subpatterns_self _) aut hstored
  | ppAlternative ppA ppB ihA ihB =>
      rcases hstored : known (ppAlternative ppA ppB) with _ | aut
      · simp only [glued, hstored]
        have hA := ihA hn.1
          (fun m hm => hlive m (List.mem_cons_of_mem _ (List.mem_append_left _ hm)))
          fun m hm => hlower m (List.mem_cons_of_mem _ (List.mem_append_left _ hm))
        have hB := ihB hn.2
          (fun m hm => hlive m (List.mem_cons_of_mem _ (List.mem_append_right _ hm)))
          fun m hm => hlower m (List.mem_cons_of_mem _ (List.mem_append_right _ hm))
        exact add_le_add hA hB
      · rw [glued_of_known hstored]
        exact hlower _ (mem_subpatterns_self _) aut hstored
  | ppConcat ppA ppB ihA ihB =>
      rcases hstored : known (ppConcat ppA ppB) with _ | aut
      · simp only [glued, hstored]
        have hA := ihA hn.1
          (fun m hm => hlive m (List.mem_cons_of_mem _ (List.mem_append_left _ hm)))
          fun m hm => hlower m (List.mem_cons_of_mem _ (List.mem_append_left _ hm))
        have hB := ihB hn.2
          (fun m hm => hlive m (List.mem_cons_of_mem _ (List.mem_append_right _ hm)))
          fun m hm => hlower m (List.mem_cons_of_mem _ (List.mem_append_right _ hm))
        exact mul_le_mul' hA hB
      · rw [glued_of_known hstored]
        exact hlower _ (mem_subpatterns_self _) aut hstored
  | repetition pp lower upper ih =>
      rcases hstored : known (repetition pp lower upper) with _ | aut
      · simp only [glued, hstored]
        have hsub : ∀ m ∈ pp.subpatterns, m ∈ (repetition pp lower upper).subpatterns :=
          fun m hm => List.mem_cons_of_mem _ hm
        have hp := ih hn.1 (fun m hm => hlive m (hsub m hm)) fun m hm => hlower m (hsub m hm)
        have hpLive : (pp.glued f known).Live :=
          Regular.glued_live hn.1 fun m hm => hlive m (hsub m hm)
        exact repeatLanguage_le_rowEnds hpLive hp hn.2.1 hn.2.2
      · rw [glued_of_known hstored]
        exact hlower _ (mem_subpatterns_self _) aut hstored

/-! ## Loops at the ends of an operand -/

/-- The words `loops`, in the place of optional copies of an operand with the
language `l`, add nothing to the repetition. -/
def HarmlessLoops (l loops : Language Int) (lower upper : Int) : Prop :=
  if upper = -1 then l ^ lower.toNat * l∗ * loops ≤ l ^ lower.toNat * l∗
  else l ^ lower.toNat * (l + loops) ^ (upper - lower).toNat ≤ repeatLanguage l lower upper

theorem repeatLanguage_unbounded {l : Language Int} {lower : Int} (hlower : 0 ≤ lower) :
    repeatLanguage l lower (-1) = l ^ lower.toNat * l∗ := by
  ext w
  constructor
  · intro hw
    obtain ⟨n, hn, -, hw⟩ := hw
    obtain ⟨k, rfl⟩ : ∃ k, n = lower.toNat + k := ⟨n - lower.toNat, by omega⟩
    rw [pow_add] at hw
    have hle : l ^ lower.toNat * l ^ k ≤ l ^ lower.toNat * l∗ :=
      mul_le_mul' le_rfl pow_le_kstar
    exact hle hw
  · intro hw
    obtain ⟨u, hu, v, hv, rfl⟩ := hw
    rw [Language.kstar_eq_iSup_pow] at hv
    obtain ⟨k, hk⟩ := Language.mem_iSup.mp hv
    refine ⟨lower.toNat + k, by omega, Or.inl rfl, ?_⟩
    rw [pow_add]
    exact ⟨u, hu, v, hk, rfl⟩

/-- In an unbounded repetition the loops may come at any place behind the
copies that are not optional. -/
theorem mul_kstar_add_le_iff {m l loops : Language Int} :
    m * (l + loops)∗ ≤ m * l∗ ↔ m * l∗ * loops ≤ m * l∗ := by
  constructor
  · intro h
    have hmono : l∗ ≤ (l + loops)∗ := kstar_mono le_sup_left
    calc m * l∗ * loops ≤ m * (l + loops)∗ * (l + loops) :=
          mul_le_mul' (mul_le_mul' le_rfl hmono) le_sup_right
      _ = m * ((l + loops)∗ * (l + loops)) := mul_assoc _ _ _
      _ ≤ m * (l + loops)∗ := mul_le_mul' le_rfl kstar_mul_le_kstar
      _ ≤ m * l∗ := h
  · intro h
    have hl : m * l∗ * l ≤ m * l∗ := by
      rw [mul_assoc]
      exact mul_le_mul' le_rfl kstar_mul_le_kstar
    have hstep : m * l∗ * (l + loops) ≤ m * l∗ := by
      rw [mul_add]
      exact add_le hl h
    have hm : m ≤ m * l∗ := by
      calc m = m * 1 := (mul_one m).symm
        _ ≤ m * l∗ := mul_le_mul' le_rfl one_le_kstar
    exact (mul_le_mul' hm le_rfl).trans (mul_kstar_le_self hstep)

/-- **What a row of copies spells** is the repetition if and only if the loops
at the ends of the operand are harmless. -/
theorem rowEnds_eq_iff {e : Ends Int} {lower upper : Int} (he : e.Live) (hlower : 0 ≤ lower)
    (hupper : upper = -1 ∨ (lower ≤ upper ∧ 0 < upper)) :
    (rowEnds (repeatRow e lower upper)).through = repeatLanguage e.through lower upper ↔
      HarmlessLoops e.through e.loops lower upper := by
  have hrow : (rowEnds (repeatRow e lower upper)).through = e.through ^ lower.toNat *
      ((if upper = -1 then [e.glue.glueBack] else
        List.replicate (upper - lower).toNat e.glue).map Ends.through).prod := by
    rw [rowEnds_through (repeatRow_live he hlower hupper).1, repeatRow, List.map_append,
      List.prod_append, List.map_replicate, List.prod_replicate]
  have hle := repeatLanguage_le_rowEnds he le_rfl hlower hupper
  have hiff : (rowEnds (repeatRow e lower upper)).through = repeatLanguage e.through lower upper ↔
      (rowEnds (repeatRow e lower upper)).through ≤ repeatLanguage e.through lower upper :=
    ⟨fun h => h.le, fun h => le_antisymm h hle⟩
  rw [hiff, hrow, HarmlessLoops]
  by_cases hinf : upper = -1
  · subst hinf
    simp only [if_true, List.map_cons, List.map_nil, List.prod_singleton]
    rw [Ends.glueBack_through he.one_le_glue, Ends.glue_through,
      repeatLanguage_unbounded hlower]
    exact mul_kstar_add_le_iff
  · simp only [if_neg hinf, List.map_replicate, List.prod_replicate, Ends.glue_through]

/-! ## Operands without loops at their ends -/

/-- The automaton of the pattern carries no loop at its end states. -/
def LoopFree : PathPattern F P → Prop
  | atom _ => True
  | ppAlternative _ _ => True
  | ppConcat ppA ppB => ppA.LoopFree ∧ ppB.LoopFree
  | repetition _ _ _ => False

/-- Only such patterns are repeated. -/
def PlainOperands : PathPattern F P → Prop
  | atom _ => True
  | ppAlternative ppA ppB => ppA.PlainOperands ∧ ppB.PlainOperands
  | ppConcat ppA ppB => ppA.PlainOperands ∧ ppB.PlainOperands
  | repetition pp _ _ => pp.PlainOperands ∧ pp.LoopFree

/-- Every optional copy contributes a word or nothing. -/
private theorem mem_optional_pow {l : Language Int} {k : Nat} :
    ∀ {w : List Int}, w ∈ (1 + l) ^ k → ∃ n, n ≤ k ∧ w ∈ l ^ n := by
  induction k with
  | zero => exact fun hw => ⟨0, le_rfl, hw⟩
  | succ k ih =>
      intro w hw
      rw [pow_succ] at hw
      obtain ⟨u, hu, v, hv, rfl⟩ := hw
      obtain ⟨n, hn, hun⟩ := ih hu
      rcases hv with hv | hv
      · refine ⟨n, by omega, ?_⟩
        have hnil : v = [] := hv
        simpa [hnil] using hun
      · exact ⟨n + 1, by omega, by rw [pow_succ]; exact ⟨u, hun, v, hv, rfl⟩⟩

/-- The empty word alone is harmless. -/
theorem harmlessLoops_one {l : Language Int} {lower upper : Int} (hlower : 0 ≤ lower)
    (hupper : upper = -1 ∨ (lower ≤ upper ∧ 0 < upper)) : HarmlessLoops l 1 lower upper := by
  unfold HarmlessLoops
  split_ifs with hinf
  · exact (mul_one _).le
  · intro w hw
    obtain ⟨u, hu, v, hv, rfl⟩ := hw
    rw [add_comm] at hv
    obtain ⟨k, hk, hv⟩ := mem_optional_pow hv
    refine ⟨lower.toNat + k, by omega, Or.inr (by omega), ?_⟩
    rw [pow_add]
    exact ⟨u, hu, v, hv, rfl⟩

/-- A row of copies without loops spells the repetitions and nothing else. -/
theorem rowEnds_plain {l : Language Int} {lower upper : Int} (hlower : 0 ≤ lower)
    (hupper : upper = -1 ∨ (lower ≤ upper ∧ 0 < upper)) :
    (rowEnds (repeatRow (Ends.plain l) lower upper)).through = repeatLanguage l lower upper := by
  apply (rowEnds_eq_iff (Ends.plain_live l) hlower hupper).mpr
  rw [Ends.plain_loops]
  exact harmlessLoops_one hlower hupper

/-- **Without loops at the ends of repeated operands the glue spells the
language**, for a pattern that is built from scratch. -/
theorem Regular.glued_of_plainOperands {n : PathPattern F P} (hn : n.Regular)
    (hplain : n.PlainOperands) (hfresh : ∀ m ∈ n.subpatterns, known m = none) :
    (n.glued f known).through = n.denote f ∧
      (n.LoopFree → n.glued f known = Ends.plain (n.denote f)) := by
  induction n with
  | atom a =>
      have hself := hfresh _ (mem_subpatterns_self _)
      have hglued : (atom a).glued f known = Ends.plain (f a) := by simp [glued, hself]
      rw [hglued]
      exact ⟨rfl, fun _ => rfl⟩
  | ppAlternative ppA ppB ihA ihB =>
      have hself := hfresh _ (mem_subpatterns_self _)
      obtain ⟨hA, _⟩ := ihA hn.1 hplain.1 fun m hm =>
        hfresh m (List.mem_cons_of_mem _ (List.mem_append_left _ hm))
      obtain ⟨hB, _⟩ := ihB hn.2 hplain.2 fun m hm =>
        hfresh m (List.mem_cons_of_mem _ (List.mem_append_right _ hm))
      have hglued : (ppAlternative ppA ppB).glued f known =
          Ends.plain (ppA.denote f + ppB.denote f) := by
        simp [glued, hself, hA, hB]
      rw [hglued]
      exact ⟨rfl, fun _ => rfl⟩
  | ppConcat ppA ppB ihA ihB =>
      have hself := hfresh _ (mem_subpatterns_self _)
      obtain ⟨hA, hfreeA⟩ := ihA hn.1 hplain.1 fun m hm =>
        hfresh m (List.mem_cons_of_mem _ (List.mem_append_left _ hm))
      obtain ⟨hB, hfreeB⟩ := ihB hn.2 hplain.2 fun m hm =>
        hfresh m (List.mem_cons_of_mem _ (List.mem_append_right _ hm))
      have hglued : (ppConcat ppA ppB).glued f known =
          (ppA.glued f known).seq (ppB.glued f known) := by
        simp [glued, hself]
      rw [hglued]
      constructor
      · simp only [Ends.seq, hA, hB, denote]
      · intro hfree
        rw [hfreeA hfree.1, hfreeB hfree.2]
        rfl
  | repetition pp lower upper ih =>
      have hself := hfresh _ (mem_subpatterns_self _)
      obtain ⟨_, hfree⟩ := ih hn.1 hplain.1 fun m hm =>
        hfresh m (List.mem_cons_of_mem _ hm)
      have hglued : (repetition pp lower upper).glued f known =
          rowEnds (repeatRow (Ends.plain (pp.denote f)) lower upper) := by
        simp [glued, hself, hfree hplain.2]
      rw [hglued]
      exact ⟨rowEnds_plain hn.2.1 hn.2.2, fun h => h.elim⟩

end PathPattern

end FShell
