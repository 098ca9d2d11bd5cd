import FShell.Evaluation.EvaluateFilter
import FShell.Solvers.Cnf

/-!
# Edge guards

`do_step` computes for a step of an instruction one literal for every edge of
the instruction.  Which of them is the jump of a goto, it finds out from
location numbers and from what lies in between, after predicates have been
inserted; the literal of the jump has the inverted guard of a later step, the
others have the guard itself.

That guard belongs to the instruction after the goto: it is the path condition
of falling through, and where the goto jumps to the next instruction,
`merge_gotos` has joined the jump with it before the step is made.

Instructions other than gotos are taken to have one edge, and their edges all
get the guard of the step (`identifiesEdge_iff`).
-/

namespace FShell

/-! ## The program around a step -/

/-- An instruction of a program whose control flow graph was computed, with the
program as it is after predicates were inserted. -/
structure EdgeSetting where
  gf : GotoFunctions
  f : String
  fct : GotoFunction
  i : Instruction
  inBody : InBody gf f fct i
  /-- `goto_convert` closes every function. -/
  ends : ∃ last, fct.body.getLast? = some last ∧ last.type = .endFunction
  singleTarget : i.isGoto → ∃ t, i.targets = [t] ∧ t ∈ fct.body.map Instruction.pc
  /-- The instrumented body. -/
  body : List Instruction
  original : (body.filter fun j => !isInstrumented j).map Instruction.pc =
    fct.body.map Instruction.pc
  /-- `location_number`, after `update()`. -/
  number : Location → Nat
  increasing : (body.map fun j => number (locationOf f j.pc)).Pairwise (· < ·)
  /-- The destinations of the edges that `m_loc_to_edge_target_graphs_map` has for
  the instruction, in the order of `CFAEdge_Lt_Compare`. -/
  entry : List Location
  sorted : entry.Pairwise fun a b =>
    (ofLex a).1 < (ofLex b).1 ∨ ((ofLex a).1 = (ofLex b).1 ∧ number a < number b)
  mem_entry : ∀ l, l ∈ entry ↔ (CfgEntries.empty.computeEdges gf).Leads (locationOf f i.pc) l

/-- What `do_step` reads of a step: the guard of the step that it finds behind it
is read for a conditional goto only. -/
structure GuardedStep where
  isLocation : Bool
  guardLiteral : Literal
  laterGuard : Literal

namespace EdgeSetting

variable (s : EdgeSetting)

/-- The location of the instruction. -/
def here : Location := locationOf s.f s.i.pc

/-! ## The computed literals -/

/-- The loop of `is_goto_edge`; no result when it runs past the end. -/
def instrumentationOnly (f : String) (dest : Location) : List Instruction → Option Bool
  | [] => none
  | j :: rest =>
      if locationOf f j.pc = dest then some true
      else if isInstrumented j then instrumentationOnly f dest rest
      else some false

/-- The instructions after the source. -/
def following : List Instruction := (s.body.dropWhile fun j => j.pc ≠ s.i.pc).tail

/-- `GOTO_Transformation::is_goto_edge(edge)`. -/
def isGotoEdge (dest : Location) : Option Bool :=
  if !s.i.isGoto then some false
  else if s.i.guard = .isTrue then some true
  else if s.number dest < s.number s.here then some true
  else (instrumentationOnly s.f dest s.following).map fun b => !b

/-- `goto_guard`. -/
def gotoGuard (step : GuardedStep) : Literal :=
  if s.i.isGoto ∧ step.isLocation then
    (if s.i.guard = .isTrue then .const false else step.laterGuard).neg
  else .const false

/-- `goto_edge`; no result when an empty entry is looked into. -/
def gotoEdge : Option (Option Location) :=
  if s.i.isGoto then
    match s.entry with
    | [] => none
    | first :: rest => (s.isGotoEdge first).map fun ige => if ige then some first else rest.head?
  else some none

/-- The loop over the edges.  For every edge it also adds the transitions of the
automaton to the clauses. -/
def edgeGuards (transitions : Location → Cnf → Cnf) (guard gotoGuard : Literal)
    (gotoEdge : Option Location) : List Location → Cnf → List (Location × Literal) × Cnf
  | [], c => ([], c)
  | e :: rest, c =>
      let (al, c) := c.land guard (if gotoEdge = some e then gotoGuard else gotoGuard.neg)
      let (more, c) := edgeGuards transitions guard gotoGuard gotoEdge rest (transitions e c)
      ((e, al) :: more, c)

/-- The literals `al` of the edges of a step. -/
def doStepGuards (transitions : Location → Cnf → Cnf) (step : GuardedStep) (c : Cnf) :
    Option (List (Location × Literal) × Cnf) :=
  s.gotoEdge.map fun e =>
    edgeGuards transitions step.guardLiteral (s.gotoGuard step) e s.entry c

/-! ## The edge that is taken -/

/-- A goto with a constant guard has no choice. -/
def Branches (taken : Bool) : Prop :=
  s.i.isGoto → (s.i.guard = .isTrue → taken = true) ∧ (s.i.guard = .isFalse → taken = false)

/-- The goto jumps to the instruction after it. -/
def JumpsToNext : Prop := ∃ j, Consecutive s.fct.body s.i j ∧ j.pc ∈ s.i.targets

/-- The guard that is read is the path condition of the instruction after the goto. -/
def ReadsFallThrough (step : GuardedStep) (v : Assignment) (taken : Bool) : Prop :=
  s.i.isGoto → s.i.guard ≠ .isTrue →
    (step.laterGuard.eval v = true ↔
      step.guardLiteral.eval v = true ∧ (taken = false ∨ s.JumpsToNext))

/-- The destination of the edge that is taken: a goto jumps or falls through, and
every other instruction goes to one of its successors. -/
inductive Takes (taken : Bool) : Location → Prop
  | jump {t : Nat} (hgoto : s.i.isGoto) (htaken : taken = true) (ht : t ∈ s.i.targets) :
      Takes taken (locationOf s.f t)
  | next {j : Instruction} (hgoto : s.i.isGoto) (htaken : taken = false)
      (hnext : Consecutive s.fct.body s.i j) : Takes taken (locationOf s.f j.pc)
  | other {l : Location} (hgoto : s.i.isGoto = false)
      (hl : (CfgEntries.empty.computeEdges s.gf).Leads s.here l) : Takes taken l

/-- What else is done only adds variables and clauses. -/
def OnlyAdds (transitions : Location → Cnf → Cnf) : Prop :=
  ∀ e c, c.noVariables ≤ (transitions e c).noVariables ∧
    ∀ v, (transitions e c).Models v → c.Models v

/-- The destinations of the edges whose literal is true. -/
def trueEdges (v : Assignment) (lits : List (Location × Literal)) : List Location :=
  (lits.filter fun p => p.2.eval v).map Prod.fst

/-- **What the literals are for.**  In every valuation, the literal of the edge taken
is the only true one when the guard is true, and none is true otherwise. -/
def IdentifiesEdge : Prop :=
  ∀ (transitions : Location → Cnf → Cnf) (step : GuardedStep) (c : Cnf), OnlyAdds transitions →
    step.guardLiteral.Below c.noVariables → step.laterGuard.Below c.noVariables →
    (s.i.isGoto → step.isLocation) →
    ∃ out, s.doStepGuards transitions step c = some out ∧
      ∀ v, out.2.Models v →
        (step.guardLiteral.eval v = false → trueEdges v out.1 = []) ∧
        ∀ taken edge, s.Branches taken → s.ReadsFallThrough step v taken → s.Takes taken edge →
          step.guardLiteral.eval v = true → trueEdges v out.1 = [edge]

/-- At most one edge leaves the instruction. -/
def SingleEdge : Prop :=
  ∀ l l', (CfgEntries.empty.computeEdges s.gf).Leads s.here l →
    (CfgEntries.empty.computeEdges s.gf).Leads s.here l' → l = l'

/-! ## The values of the literals -/

section Values

variable {transitions : Location → Cnf → Cnf} {guard gotoGuard : Literal}
  {gotoEdge : Option Location} {v : Assignment}

theorem guardOf_below {e : Location} {n : Nat} (hgoto : gotoGuard.Below n) :
    (if gotoEdge = some e then gotoGuard else gotoGuard.neg).Below n := by
  split_ifs
  · exact hgoto
  · exact Literal.below_neg.mpr hgoto

theorem edgeGuards_sound (hadds : OnlyAdds transitions) (entry : List Location) (c : Cnf)
    (hguard : guard.Below c.noVariables) (hgoto : gotoGuard.Below c.noVariables)
    (hv : (edgeGuards transitions guard gotoGuard gotoEdge entry c).2.Models v) :
    c.Models v ∧
      trueEdges v (edgeGuards transitions guard gotoGuard gotoEdge entry c).1 =
        entry.filter fun e =>
          guard.eval v && (if gotoEdge = some e then gotoGuard.eval v else !gotoGuard.eval v) := by
  induction entry generalizing c with
  | nil => exact ⟨hv, rfl⟩
  | cons e rest ih =>
      have hnames := Cnf.land_names (b := if gotoEdge = some e then gotoGuard else gotoGuard.neg)
        hguard (guardOf_below hgoto)
      obtain ⟨hle, hsound⟩ := hadds e (c.land guard (if gotoEdge = some e then gotoGuard
        else gotoGuard.neg)).2
      have hbelow := hnames.defines.le.trans hle
      obtain ⟨hrest, htail⟩ := ih _ (hguard.mono hbelow) (hgoto.mono hbelow) hv
      have hland := hsound v hrest
      refine ⟨hnames.defines.sound v hland, ?_⟩
      have hal := hnames.eval v hland
      rw [apply_ite (Literal.eval v), Literal.eval_neg] at hal
      rw [List.filter_cons, ← hal, ← htail, edgeGuards, trueEdges, List.filter_cons]
      split_ifs <;> rfl

/-- Every valuation of the guards is one of the clauses with the literals. -/
theorem edgeGuards_defines (entry : List Location) (c : Cnf) (hguard : guard.Below c.noVariables)
    (hgoto : gotoGuard.Below c.noVariables) :
    Cnf.Defines c (edgeGuards (fun _ c => c) guard gotoGuard gotoEdge entry c).2 := by
  induction entry generalizing c with
  | nil => exact Cnf.Defines.refl c
  | cons e rest ih =>
      have hnames := Cnf.land_names (b := if gotoEdge = some e then gotoGuard else gotoGuard.neg)
        hguard (guardOf_below hgoto)
      exact hnames.defines.trans (ih _ (hguard.mono hnames.defines.le)
        (hgoto.mono hnames.defines.le))

end Values

variable {s} {step : GuardedStep} {v : Assignment}

theorem gotoGuard_below {n : Nat} (h : step.laterGuard.Below n) :
    (s.gotoGuard step).Below n := by
  unfold gotoGuard
  split_ifs
  · exact Literal.below_neg.mpr (Literal.below_const _ _)
  · exact Literal.below_neg.mpr h
  · exact Literal.below_const _ _

/-! ## Which edge is the jump -/

theorem pcs_nodup (s : EdgeSetting) : (s.body.map Instruction.pc).Nodup := by
  rw [List.Nodup, List.pairwise_map]
  refine (List.pairwise_map.mp s.increasing).imp ?_
  intro a b hlt heq
  rw [heq] at hlt
  exact lt_irrefl _ hlt

/-- Nothing but instrumentation was inserted between the instruction and the next. -/
theorem exists_split {j : Instruction} (hnext : Consecutive s.fct.body s.i j) :
    ∃ before i' between j' rest, s.body = before ++ i' :: (between ++ j' :: rest) ∧
      i'.pc = s.i.pc ∧ j'.pc = j.pc ∧ (∀ k ∈ between, isInstrumented k = true) ∧
      isInstrumented j' = false := by
  obtain ⟨before, after, hsplit⟩ := hnext
  have horiginal := s.original
  rw [hsplit, List.map_append, List.map_cons, List.map_cons, List.map_eq_append_iff] at horiginal
  obtain ⟨kept, kept', hkept, -, htail⟩ := horiginal
  obtain ⟨i', kept₁, rfl, hi, htail⟩ := List.map_eq_cons_iff.mp htail
  obtain ⟨j', kept₂, rfl, hj, -⟩ := List.map_eq_cons_iff.mp htail
  obtain ⟨body₁, body₂, hbody, -, hrest⟩ := List.filter_eq_append_iff.mp hkept
  obtain ⟨skipped, body₃, rfl, -, -, hrest⟩ := List.filter_eq_cons_iff.mp hrest
  obtain ⟨between, rest, rfl, hbetween, hplain, -⟩ := List.filter_eq_cons_iff.mp hrest
  refine ⟨body₁ ++ skipped, i', between, j', rest, ?_, hi, hj, ?_, ?_⟩
  · rw [hbody, List.append_assoc]
  · intro k hk
    simpa using hbetween k hk
  · simpa using hplain

/-- The loop over the instructions up to the next one of the program. -/
theorem instrumentationOnly_append {f : String} {dest : Location} {between : List Instruction}
    (hbetween : ∀ k ∈ between, isInstrumented k = true ∧ locationOf f k.pc ≠ dest)
    (rest : List Instruction) :
    instrumentationOnly f dest (between ++ rest) = instrumentationOnly f dest rest := by
  induction between with
  | nil => rfl
  | cons k between ih =>
      obtain ⟨hinstrumented, hne⟩ := hbetween k List.mem_cons_self
      rw [List.cons_append, instrumentationOnly, if_neg hne, if_pos hinstrumented]
      exact ih fun k' hk' => hbetween k' (List.mem_cons_of_mem _ hk')

/-- An inserted instruction is none of the original ones. -/
theorem ne_of_instrumented {k : Instruction} {t : Nat} (hk : k ∈ s.body)
    (hinstrumented : isInstrumented k = true) (ht : t ∈ s.fct.body.map Instruction.pc) :
    locationOf s.f k.pc ≠ locationOf s.f t := by
  intro heq
  rw [← (locationOf_inj.mp heq).2, ← s.original, List.mem_map] at ht
  obtain ⟨k', hk', hpc⟩ := ht
  obtain ⟨hmem, hplain⟩ := List.mem_filter.mp hk'
  obtain rfl : k' = k := List.inj_on_of_nodup_map s.pcs_nodup hmem hk hpc
  simp [hinstrumented] at hplain

theorem following_eq {before rest : List Instruction} {i' : Instruction}
    (hbody : s.body = before ++ i' :: rest) (hi : i'.pc = s.i.pc) : s.following = rest := by
  have hnd := s.pcs_nodup
  rw [hbody, List.map_append, List.map_cons] at hnd
  have hbefore : ∀ k ∈ before, (decide (k.pc ≠ s.i.pc)) = true := by
    intro k hk
    have hne := (List.nodup_append.mp hnd).2.2 k.pc (List.mem_map_of_mem hk) i'.pc
      List.mem_cons_self
    rw [hi] at hne
    exact decide_eq_true hne
  rw [following, hbody, List.dropWhile_append_of_pos hbefore,
    List.dropWhile_cons_of_neg (by simpa using hi), List.tail_cons]

/-- The loop stops at the next instruction of the program. -/
theorem instrumentationOnly_following {j : Instruction} {t : Nat}
    (hnext : Consecutive s.fct.body s.i j) (ht : t ∈ s.fct.body.map Instruction.pc) :
    instrumentationOnly s.f (locationOf s.f t) s.following = some (decide (j.pc = t)) := by
  obtain ⟨before, i', between, j', rest, hbody, hi, hj, hbetween, hplain⟩ := exists_split hnext
  have hne : ∀ k ∈ between, isInstrumented k = true ∧ locationOf s.f k.pc ≠ locationOf s.f t := by
    intro k hk
    exact ⟨hbetween k hk, ne_of_instrumented (by simp [hbody, hk]) (hbetween k hk) ht⟩
  rw [following_eq hbody hi, instrumentationOnly_append hne, instrumentationOnly, hplain, hj]
  by_cases heq : j.pc = t <;> simp [heq]

theorem number_lt_next {j : Instruction} (hnext : Consecutive s.fct.body s.i j) :
    s.number s.here < s.number (locationOf s.f j.pc) := by
  obtain ⟨before, i', between, j', rest, hbody, hi, hj, -, -⟩ := exists_split hnext
  have hincreasing := s.increasing
  rw [hbody, List.map_append, List.map_cons, List.map_append, List.map_cons] at hincreasing
  have htail := (List.pairwise_append.mp hincreasing).2.1
  rw [here, ← hi, ← hj]
  exact (List.pairwise_cons.mp htail).1 _ (by simp)

/-- **The jump is told from the fall-through.**  Only a jump to the next instruction
is not taken for one. -/
theorem isGotoEdge_eq {j : Instruction} {t : Nat} (hgoto : s.i.isGoto)
    (hguard : s.i.guard ≠ .isTrue) (hnext : Consecutive s.fct.body s.i j)
    (ht : t ∈ s.fct.body.map Instruction.pc) :
    s.isGotoEdge (locationOf s.f t) = some (decide (j.pc ≠ t)) := by
  rw [isGotoEdge, hgoto, if_neg (by simp), if_neg hguard, instrumentationOnly_following hnext ht]
  split_ifs with hlt
  · have hne : j.pc ≠ t := by
      intro heq
      subst heq
      exact lt_asymm hlt (number_lt_next hnext)
    simp [hne]
  · simp

/-! ## The entries of a goto -/

/-- A goto is not the last instruction. -/
theorem exists_next (hgoto : s.i.isGoto) : ∃ j, Consecutive s.fct.body s.i j := by
  obtain ⟨before, after, hsplit⟩ := List.append_of_mem s.inBody.mem
  cases hafter : after with
  | cons j rest => exact ⟨j, before, rest, by rw [hsplit, hafter]⟩
  | nil =>
      obtain ⟨last, hlast, hend⟩ := s.ends
      have hself := (GotoFunction.getLast?_iff hsplit).mpr (by rw [hafter]; rfl)
      obtain rfl : s.i = last := Option.some.inj (hself.symm.trans hlast)
      simp [Instruction.isGoto, hend] at hgoto

theorem mem_entry_goto {j : Instruction} {t : Nat} (hgoto : s.i.isGoto)
    (hnext : Consecutive s.fct.body s.i j) (htargets : s.i.targets = [t])
    (ht : t ∈ s.fct.body.map Instruction.pc) {l : Location} :
    l ∈ s.entry ↔
      (s.i.guard ≠ .isTrue ∧ l = locationOf s.f j.pc) ∨ l = locationOf s.f t := by
  obtain ⟨before, after, hsplit⟩ := List.append_of_mem s.inBody.mem
  have hhead := (GotoFunction.consecutive_iff hsplit).mp hnext
  have hlast : ¬ CalledFrom s.gf s.f s.fct s.i l := by
    intro h
    obtain ⟨hlast, -⟩ := h
    rw [GotoFunction.getLast?_iff hsplit, hhead] at hlast
    cases hlast
  have hkinds : s.i.isStartThread = false ∧ s.i.isFunctionCall = false ∧
      s.i.isReturn = false ∧ s.i.isOrdinary = false := by
    have hk := s.i.kinds
    simp only [hgoto, Bool.true_eq_false, false_and, or_false, true_and] at hk
    exact hk
  have hjumps : CfgEntries.Jumps s.f s.fct.body s.i l ↔ l = locationOf s.f t := by
    simp only [CfgEntries.Jumps, htargets, List.mem_singleton, exists_eq_left, ht, true_and]
  obtain ⟨hthread, hcall, hreturn, hordinary⟩ := hkinds
  rw [s.mem_entry, leads_iff s.inBody hsplit, or_iff_left hlast, CfgEntries.Own,
    CfgEntries.Agreed, hhead, hjumps]
  simp only [hgoto, hthread, hcall, hreturn, hordinary, Bool.false_eq_true, false_and, or_false,
    true_and, Option.map_some, Option.some.injEq, eq_comm (a := l)]

theorem entry_nodup (s : EdgeSetting) : s.entry.Nodup := by
  refine s.sorted.imp ?_
  intro a b hlt heq
  subst heq
  rcases hlt with hlt | ⟨-, hlt⟩ <;> exact lt_irrefl _ hlt

/-- The entry of a goto that always jumps. -/
theorem gotoEdge_unconditional {t : Nat} (hgoto : s.i.isGoto) (hguard : s.i.guard = .isTrue)
    (hentry : ∀ l, l ∈ s.entry ↔ l = locationOf s.f t) :
    s.gotoEdge = some (some (locationOf s.f t)) := by
  cases hlist : s.entry with
  | nil => exact absurd ((hentry _).mpr rfl) (by simp [hlist])
  | cons first rest =>
      have hfirst := (hentry first).mp (by simp [hlist])
      simp [gotoEdge, isGotoEdge, hgoto, hguard, hlist, hfirst]

/-- The entry of a goto that may fall through: its own edge is found, whichever comes
first, and none where the jump leads to the next instruction. -/
theorem gotoEdge_conditional {j : Instruction} {t : Nat} (hgoto : s.i.isGoto)
    (hguard : s.i.guard ≠ .isTrue) (hnext : Consecutive s.fct.body s.i j)
    (ht : t ∈ s.fct.body.map Instruction.pc)
    (hentry : ∀ l, l ∈ s.entry ↔ l = locationOf s.f j.pc ∨ l = locationOf s.f t) :
    s.gotoEdge = some (if j.pc = t then none else some (locationOf s.f t)) := by
  have hj : j.pc ∈ s.fct.body.map Instruction.pc := by
    obtain ⟨b, a, hsplit⟩ := hnext
    simp [hsplit]
  cases hlist : s.entry with
  | nil => exact absurd ((hentry _).mpr (Or.inr rfl)) (by simp [hlist])
  | cons first rest =>
      have hnd := s.entry_nodup
      rw [hlist, List.nodup_cons] at hnd
      simp only [hlist, List.mem_cons] at hentry
      rw [gotoEdge, if_pos hgoto, hlist]
      dsimp only
      by_cases hfirst : first = locationOf s.f j.pc
      · -- the fall-through comes first, so the jump is what remains
        rw [hfirst, isGotoEdge_eq hgoto hguard hnext hj]
        have hhead : rest.head? = if j.pc = t then none else some (locationOf s.f t) := by
          cases rest with
          | nil =>
              have hone := (hentry (locationOf s.f t)).mpr (Or.inr rfl)
              simp only [List.not_mem_nil, or_false, hfirst, locationOf_inj, true_and] at hone
              simp [hone]
          | cons second rest =>
              have hsecond := (hentry second).mp (by simp)
              have hne : second ≠ locationOf s.f j.pc := by
                intro heq
                subst heq
                exact hnd.1 (by simp [hfirst])
              have hjump := hsecond.resolve_left hne
              have hjt : j.pc ≠ t := by
                intro heq
                subst heq
                exact hne hjump
              simp [hjump, hjt]
        simp [hhead]
      · have hjump := ((hentry first).mp (Or.inl rfl)).resolve_left hfirst
        have hjt : j.pc ≠ t := by
          intro heq
          subst heq
          exact hfirst hjump
        rw [hjump, isGotoEdge_eq hgoto hguard hnext ht]
        simp [hjt]

/-! ## The edge that the literals name -/

theorem filter_eq_singleton {α : Type} [DecidableEq α] {p : α → Bool} {l : List α} {a : α}
    (hnd : l.Nodup) (ha : a ∈ l) (hp : ∀ b ∈ l, p b = true ↔ b = a) : l.filter p = [a] := by
  have hbeq : l.filter p = l.filter (· == a) := by
    refine List.filter_congr ?_
    intro b hb
    rw [Bool.eq_iff_iff, hp b hb, beq_iff_eq]
  rw [hbeq, List.filter_beq, List.count_eq_one_of_mem hnd ha, List.replicate_one]

theorem consecutive_unique {j j' : Instruction} (h : Consecutive s.fct.body s.i j)
    (h' : Consecutive s.fct.body s.i j') : j' = j := by
  obtain ⟨before, after, hsplit⟩ := List.append_of_mem s.inBody.mem
  rw [GotoFunction.consecutive_iff hsplit] at h h'
  exact Option.some.inj (h'.symm.trans h)

/-- It is enough to look at the values that the loop gives to the entries. -/
theorem identifiesEdge_of {ge : Option Location} (hge : s.gotoEdge = some ge)
    (hvalue : ∀ (step : GuardedStep) v taken edge, (s.i.isGoto → step.isLocation) →
      s.Branches taken → s.ReadsFallThrough step v taken → s.Takes taken edge →
      step.guardLiteral.eval v = true →
      edge ∈ s.entry ∧ ∀ e ∈ s.entry, (if ge = some e then (s.gotoGuard step).eval v
        else !(s.gotoGuard step).eval v) = true ↔ e = edge) : s.IdentifiesEdge := by
  intro transitions step c hadds hguard hlater hlocation
  refine ⟨_, by rw [doStepGuards, hge]; rfl, ?_⟩
  intro v hv
  have hlits := (edgeGuards_sound hadds s.entry c hguard (gotoGuard_below hlater) hv).2
  refine ⟨?_, ?_⟩
  · intro hfalse
    rw [hlits, hfalse]
    simp
  · intro taken edge hbranches hreads htakes htrue
    obtain ⟨hedge, hentries⟩ := hvalue step v taken edge hlocation hbranches hreads htakes htrue
    rw [hlits, htrue]
    refine filter_eq_singleton s.entry_nodup hedge ?_
    intro e he
    rw [Bool.true_and, hentries e he]

theorem identifiesEdge_goto (hgoto : s.i.isGoto) : s.IdentifiesEdge := by
  obtain ⟨j, hnext⟩ := exists_next hgoto
  obtain ⟨t, htargets, ht⟩ := s.singleTarget hgoto
  have hentry {l : Location} := mem_entry_goto (l := l) hgoto hnext htargets ht
  by_cases hguard : s.i.guard = .isTrue
  · have hentry' : ∀ l, l ∈ s.entry ↔ l = locationOf s.f t := by
      intro l
      rw [hentry, hguard]
      simp
    refine identifiesEdge_of (gotoEdge_unconditional hgoto hguard hentry') ?_
    intro step v taken edge hlocation hbranches _ htakes _
    obtain rfl : taken = true := (hbranches hgoto).1 hguard
    obtain rfl : edge = locationOf s.f t := by
      cases htakes with
      | jump _ _ ht' =>
          rw [htargets, List.mem_singleton] at ht'
          rw [ht']
      | next _ hfalse _ => cases hfalse
      | other hno _ => simp [hgoto] at hno
    refine ⟨(hentry' _).mpr rfl, ?_⟩
    intro e he
    simp [(hentry' e).mp he, gotoGuard, hgoto, hlocation hgoto, hguard, Literal.neg]
  · have hentry' : ∀ l, l ∈ s.entry ↔ l = locationOf s.f j.pc ∨ l = locationOf s.f t := by
      intro l
      rw [hentry, and_iff_right hguard]
    refine identifiesEdge_of (gotoEdge_conditional hgoto hguard hnext ht hentry') ?_
    intro step v taken edge hlocation _ hreads htakes htrue
    have hlater := hreads hgoto hguard
    have hgg : (s.gotoGuard step).eval v = !step.laterGuard.eval v := by
      simp [gotoGuard, hgoto, hlocation hgoto, hguard]
    have hmerged : s.JumpsToNext ↔ j.pc = t := by
      constructor
      · intro hx
        obtain ⟨j', hj', hmem⟩ := hx
        rw [htargets, List.mem_singleton] at hmem
        rw [← consecutive_unique hnext hj', hmem]
      · intro heq
        subst heq
        exact ⟨j, hnext, by simp [htargets]⟩
    have hedge : edge = if taken then locationOf s.f t else locationOf s.f j.pc := by
      cases htakes with
      | jump _ htaken ht' =>
          rw [htargets, List.mem_singleton] at ht'
          rw [htaken, if_pos rfl, ht']
      | next _ htaken hnext' =>
          rw [htaken, consecutive_unique hnext hnext', if_neg Bool.false_ne_true]
      | other hno _ => simp [hgoto] at hno
    refine ⟨?_, ?_⟩
    · rw [hentry', hedge]
      split_ifs
      · exact Or.inr rfl
      · exact Or.inl rfl
    intro e he
    rw [hmerged, and_iff_right htrue] at hlater
    rw [hgg, hedge]
    by_cases hjt : j.pc = t
    · -- both branches go on at the next instruction, whose guard has them joined
      have hall : e = locationOf s.f t := by
        rcases (hentry' e).mp he with rfl | rfl <;> simp [hjt]
      simp [hall, hjt, hlater.mpr (Or.inr hjt)]
    · have hdistinct : locationOf s.f t ≠ locationOf s.f j.pc := by
        rw [ne_eq, locationOf_inj]
        exact fun h => hjt h.2.symm
      simp only [hjt, or_false] at hlater
      rcases (hentry' e).mp he with rfl | rfl
      · cases taken <;> simp_all
      · cases taken <;> simp_all

/-- An instruction with a single edge gives it the guard of the step. -/
theorem identifiesEdge_single (hgoto : s.i.isGoto = false) (hsingle : s.SingleEdge) :
    s.IdentifiesEdge := by
  have hge : s.gotoEdge = some none := by simp [gotoEdge, hgoto]
  refine identifiesEdge_of hge ?_
  intro step v taken edge _ _ _ htakes _
  cases htakes with
  | jump hyes _ _ => simp [hgoto] at hyes
  | next hyes _ _ => simp [hgoto] at hyes
  | other _ hl =>
      refine ⟨(s.mem_entry edge).mpr hl, ?_⟩
      intro e he
      simp [gotoGuard, hgoto, hsingle e edge ((s.mem_entry e).mp he) hl]

/-- Several edges of an instruction that is no goto have literals of the same value. -/
theorem singleEdge_of_identifies (hgoto : s.i.isGoto = false) (h : s.IdentifiesEdge) :
    s.SingleEdge := by
  intro l l' hl hl'
  have hadds : OnlyAdds fun _ c => c := fun _ c => ⟨le_refl _, fun _ hv => hv⟩
  let step : GuardedStep := ⟨true, .const true, .const true⟩
  obtain ⟨out, hout, hall⟩ := h (fun _ c => c) step Cnf.empty hadds trivial trivial fun _ => rfl
  have hge : s.gotoEdge = some none := by simp [gotoEdge, hgoto]
  rw [doStepGuards, hge, Option.map_some, Option.some.injEq] at hout
  have hgoto' : (s.gotoGuard step).Below Cnf.empty.noVariables := gotoGuard_below trivial
  have hdefines : Cnf.Defines Cnf.empty (edgeGuards (fun _ c => c) step.guardLiteral
      (s.gotoGuard step) none s.entry Cnf.empty).2 := edgeGuards_defines _ _ trivial hgoto'
  obtain ⟨v, -, hmodels⟩ := hdefines.complete
    (fun _ hclause => absurd hclause List.not_mem_nil) (fun _ => true)
    (fun _ hclause => absurd hclause List.not_mem_nil)
  rw [hout] at hmodels
  have hnogoto {P : Prop} : s.i.isGoto = true → P := by simp [hgoto]
  have htakes {edge : Location} (hedge : (CfgEntries.empty.computeEdges s.gf).Leads s.here edge) :=
    (hall _ hmodels).2 true edge hnogoto hnogoto (Takes.other hgoto hedge) rfl
  exact List.singleton_inj.mp ((htakes hl).symm.trans (htakes hl'))

end EdgeSetting

/-- **When the literals identify the edge taken.**  Gotos have two edges that are told
apart; every other instruction must not have more than one. -/
theorem identifiesEdge_iff (s : EdgeSetting) :
    s.IdentifiesEdge ↔ s.i.isGoto = true ∨ s.SingleEdge := by
  constructor
  · intro h
    cases hgoto : s.i.isGoto with
    | true => exact Or.inl rfl
    | false => exact Or.inr (EdgeSetting.singleEdge_of_identifies hgoto h)
  · intro h
    cases hgoto : s.i.isGoto with
    | true => exact EdgeSetting.identifiesEdge_goto hgoto
    | false =>
        rw [hgoto, or_iff_right Bool.false_ne_true] at h
        exact EdgeSetting.identifiesEdge_single hgoto h

/-! ## A thread

The start-thread instruction of `asyncMain` has itself and the thread as edges. -/

/-- The edges of the start-thread instruction, nothing being instrumented. -/
def startThreadStep : EdgeSetting where
  gf := asyncProgram
  f := "main"
  fct := asyncMain
  i := plainInstruction 0 .startThread [2]
  inBody := ⟨rfl, rfl, by decide⟩
  ends := ⟨_, rfl, rfl⟩
  singleTarget := fun h => absurd h (by decide)
  body := asyncMain.body
  original := by decide
  number := fun l => (ofLex l).2
  increasing := by decide
  entry := [locationOf "main" 0, locationOf "main" 2]
  sorted := by decide
  mem_entry := by
    intro l
    have hsuccessors : (CfgEntries.empty.computeEdges asyncProgram
        (locationOf "main" 0)).successors =
          [(locationOf "main" 0, false), (locationOf "main" 2, true)] := by
      decide +kernel
    simp [CfgEntries.Leads, plainInstruction, hsuccessors, eq_comm]

/-- **A start-thread step makes two literals true.** -/
theorem startThread_not_identified : ¬ ∀ s : EdgeSetting, s.IdentifiesEdge := by
  intro h
  have hsingle := EdgeSetting.singleEdge_of_identifies rfl (h startThreadStep)
  have hself := (startThreadStep.mem_entry (locationOf "main" 0)).mp (by decide)
  have hthread := (startThreadStep.mem_entry (locationOf "main" 2)).mp (by decide)
  have heq := hsingle _ _ hself hthread
  simp at heq

end FShell
