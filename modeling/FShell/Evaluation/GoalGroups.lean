import FShell.Evaluation.IdMap

/-!
# What the goal groups stand for

The goals of a coverage pattern are Boolean functions: the literals of its
atoms, all goals of both operands of an alternative, and the conjunctions of
a goal of either operand for a concatenation.

**Outside and inside alternatives.**  Inside an alternative the current group
holds the goals of the pattern.  Outside it holds those of the last operand
only, and the conjunctions are the products of all groups opened so far.
Both are one statement, `VisitedGoals`, about the groups that a visit adds.
-/

namespace FShell

/-- A Boolean function of the variables of the solver. -/
abbrev BoolFun := Assignment → Bool

/-- Both sets have the same functions, up to assignments that are no models
of `c`. -/
structure SameOn (c : Cnf) (S T : Set BoolFun) : Prop where
  left : ∀ f ∈ S, ∃ g ∈ T, ∀ v, c.Models v → f v = g v
  right : ∀ g ∈ T, ∃ f ∈ S, ∀ v, c.Models v → f v = g v

/-- The conjunctions of a function of `S` with one of `T`. -/
def conj (S T : Set BoolFun) : Set BoolFun := Set.image2 (fun f g v => f v && g v) S T

namespace SameOn

variable {c d : Cnf} {S T U V : Set BoolFun}

theorem refl (c : Cnf) (S : Set BoolFun) : SameOn c S S where
  left := fun f hf => ⟨f, hf, fun _ _ => rfl⟩
  right := fun g hg => ⟨g, hg, fun _ _ => rfl⟩

theorem symm (h : SameOn c S T) : SameOn c T S where
  left := by
    intro g hg
    obtain ⟨f, hf, heq⟩ := h.right g hg
    exact ⟨f, hf, fun v hv => (heq v hv).symm⟩
  right := by
    intro f hf
    obtain ⟨g, hg, heq⟩ := h.left f hf
    exact ⟨g, hg, fun v hv => (heq v hv).symm⟩

/-- It is enough to find the functions of each set in the other. -/
theorem of_subset (hST : ∀ f ∈ S, ∃ g ∈ T, ∀ v, c.Models v → f v = g v)
    (hTS : ∀ g ∈ T, ∃ f ∈ S, ∀ v, c.Models v → g v = f v) : SameOn c S T where
  left := hST
  right := by
    intro g hg
    obtain ⟨f, hf, heq⟩ := hTS g hg
    exact ⟨f, hf, fun v hv => (heq v hv).symm⟩

theorem trans (h : SameOn c S T) (h' : SameOn c T U) : SameOn c S U := by
  apply of_subset
  · intro f hf
    obtain ⟨g, hg, hfg⟩ := h.left f hf
    obtain ⟨k, hk, hgk⟩ := h'.left g hg
    exact ⟨k, hk, fun v hv => (hfg v hv).trans (hgk v hv)⟩
  · intro k hk
    obtain ⟨g, hg, hgk⟩ := h'.symm.left k hk
    obtain ⟨f, hf, hfg⟩ := h.symm.left g hg
    exact ⟨f, hf, fun v hv => (hgk v hv).trans (hfg v hv)⟩

/-- Later clauses have fewer models. -/
theorem mono (h : SameOn c S T) (hcd : Cnf.Defines c d) : SameOn d S T where
  left := by
    intro f hf
    obtain ⟨g, hg, heq⟩ := h.left f hf
    exact ⟨g, hg, fun v hv => heq v (hcd.sound v hv)⟩
  right := by
    intro g hg
    obtain ⟨f, hf, heq⟩ := h.right g hg
    exact ⟨f, hf, fun v hv => heq v (hcd.sound v hv)⟩

theorem union (h : SameOn c S T) (h' : SameOn c U V) : SameOn c (S ∪ U) (T ∪ V) := by
  apply of_subset
  · intro f hf
    rcases hf with hf | hf
    · obtain ⟨g, hg, heq⟩ := h.left f hf
      exact ⟨g, Or.inl hg, heq⟩
    · obtain ⟨g, hg, heq⟩ := h'.left f hf
      exact ⟨g, Or.inr hg, heq⟩
  · intro g hg
    rcases hg with hg | hg
    · obtain ⟨f, hf, heq⟩ := h.symm.left g hg
      exact ⟨f, Or.inl hf, heq⟩
    · obtain ⟨f, hf, heq⟩ := h'.symm.left g hg
      exact ⟨f, Or.inr hf, heq⟩

theorem conj (h : SameOn c S T) (h' : SameOn c U V) :
    SameOn c (FShell.conj S U) (FShell.conj T V) := by
  apply of_subset
  · intro f hf
    obtain ⟨s, hs, u, hu, rfl⟩ := hf
    obtain ⟨t, ht, hst⟩ := h.left s hs
    obtain ⟨w, hw, huw⟩ := h'.left u hu
    exact ⟨_, Set.mem_image2_of_mem ht hw, fun v hv => congrArg₂ and (hst v hv) (huw v hv)⟩
  · intro f hf
    obtain ⟨t, ht, w, hw, rfl⟩ := hf
    obtain ⟨s, hs, hts⟩ := h.symm.left t ht
    obtain ⟨u, hu, hwu⟩ := h'.symm.left w hw
    exact ⟨_, Set.mem_image2_of_mem hs hu, fun v hv => congrArg₂ and (hts v hv) (hwu v hv)⟩

end SameOn

/-- The functions of the literals of a group. -/
def literalsOf (lits : List Literal) : Set BoolFun :=
  {f | ∃ l ∈ lits, f = fun v => l.eval v}

/-- The conjunction of every row. -/
def conjunctions (rows : List (List Literal)) : Set BoolFun :=
  {f | ∃ row ∈ rows, f = fun v => row.all (Literal.eval v)}

/-- The conjunctions of one literal per group. -/
def products (groups : List TestGoals) : Set BoolFun :=
  conjunctions (combinations (groups.map TestGoals.toList))

theorem products_singleton (goals : TestGoals) : products [goals] = literalsOf goals.toList := by
  ext f
  simp only [products, conjunctions, literalsOf, combinations, List.map_cons, List.map_nil,
    Set.mem_ofPred_eq, List.mem_flatMap, List.mem_singleton]
  constructor
  · intro h
    obtain ⟨row, ⟨l, hl, rfl⟩, rfl⟩ := h
    exact ⟨l, hl, by simp⟩
  · intro h
    obtain ⟨l, hl, rfl⟩ := h
    exact ⟨[l], ⟨l, hl, rfl⟩, by simp⟩

theorem products_append (xs ys : List TestGoals) :
    products (xs ++ ys) = conj (products xs) (products ys) := by
  ext f
  rw [products, List.map_append]
  constructor
  · intro h
    obtain ⟨row, hrow, rfl⟩ := h
    obtain ⟨rowX, hX, rowY, hY, rfl⟩ := mem_combinations_append.mp hrow
    exact ⟨_, ⟨rowX, hX, rfl⟩, _, ⟨rowY, hY, rfl⟩, by simp⟩
  · intro h
    obtain ⟨g, ⟨rowX, hX, rfl⟩, k, ⟨rowY, hY, rfl⟩, rfl⟩ := h
    exact ⟨rowX ++ rowY, mem_combinations_append.mpr ⟨rowX, hX, rowY, hY, rfl⟩, by simp⟩

theorem literalsOf_insertAll (goals : TestGoals) (lits : List Literal) :
    literalsOf (goals.insertAll lits).toList = literalsOf lits ∪ literalsOf goals.toList := by
  ext f
  simp only [literalsOf, TestGoals.mem_insertAll, Set.mem_union, Set.mem_ofPred_eq]
  grind

/-! ## Visits -/

section Visits

variable {F P : Type} (env : AtomVisitor F P)

/-- The literals that `do_atom` inserts for a node. -/
def atomLiterals (n : CoveragePattern F P) (tgStates : List TaState)
    (epsilonPermitted makeSingle : Bool) (cnf : Cnf) : List Literal :=
  (env.doAtom n tgStates epsilonPermitted makeSingle cnf).1.map Prod.fst

/-- The goals of a coverage pattern.  An atom has the literals that
`do_atom` inserts when the walk from `st` reaches it. -/
def denoteGoals {cp : CoveragePattern F P} (states : TestGoalStates cp) (st : GoalTables) :
    Set BoolFun :=
  match states with
  | @TestGoalStates.atom _ _ a tgStates =>
      literalsOf (atomLiterals env (.atom a) tgStates false (makeSingle a) st.cnf)
  | @TestGoalStates.quote _ _ pp tgStates =>
      literalsOf (atomLiterals env (.quote pp) tgStates true true st.cnf)
  | .cpAlternative _ childA childB =>
      let st := { st with altNesting := st.altNesting + 1 }
      denoteGoals childA st ∪
        denoteGoals childB { visitGoals env childA st with testGoals := TestGoals.empty }
  | .cpConcat _ childA childB =>
      conj (denoteGoals childA st) (denoteGoals childB (visitGoals env childA st).nextOperand)

/-- What a visit from `st`, with an empty current group, leaves behind. -/
structure VisitedGoals {cp : CoveragePattern F P} (states : TestGoalStates cp)
    (st out : GoalTables) : Prop where
  defines : Cnf.Defines st.cnf out.cnf
  nesting : out.altNesting = st.altNesting
  below : ∀ l ∈ out.testGoals.toList, l.Below out.cnf.noVariables
  groups : ∃ opened, out.closedGroups = st.closedGroups ++ opened ∧
    (st.altNesting ≠ 0 → opened = []) ∧
    SameOn out.cnf (products (opened ++ [out.testGoals])) (denoteGoals env states st)

variable {env}

/-- Inside an alternative no group is opened, and the current one has the
goals. -/
theorem VisitedGoals.of_current {cp : CoveragePattern F P} {states : TestGoalStates cp}
    {st out : GoalTables} (defines : Cnf.Defines st.cnf out.cnf)
    (nesting : out.altNesting = st.altNesting)
    (below : ∀ l ∈ out.testGoals.toList, l.Below out.cnf.noVariables)
    (closed : out.closedGroups = st.closedGroups)
    (goals : SameOn out.cnf (literalsOf out.testGoals.toList) (denoteGoals env states st)) :
    VisitedGoals env states st out where
  defines := defines
  nesting := nesting
  below := below
  groups := ⟨[], by simp [closed], fun _ => rfl, by simpa [products_singleton] using goals⟩

theorem VisitedGoals.closed {cp : CoveragePattern F P} {states : TestGoalStates cp}
    {st out : GoalTables} (h : VisitedGoals env states st out) (hnest : st.altNesting ≠ 0) :
    out.closedGroups = st.closedGroups := by
  obtain ⟨opened, hclosed, hopened, -⟩ := h.groups
  simpa [hopened hnest] using hclosed

theorem VisitedGoals.current {cp : CoveragePattern F P} {states : TestGoalStates cp}
    {st out : GoalTables} (h : VisitedGoals env states st out) (hnest : st.altNesting ≠ 0) :
    SameOn out.cnf (literalsOf out.testGoals.toList) (denoteGoals env states st) := by
  obtain ⟨opened, -, hopened, hsame⟩ := h.groups
  simpa [hopened hnest, products_singleton] using hsame

variable (env)

/-- `do_atom` from an empty group. -/
theorem doAtom_spec (n : CoveragePattern F P) (tgStates : List TaState)
    (epsilonPermitted makeSingle : Bool) {st : GoalTables}
    (hvars : env.cnf.noVariables ≤ st.cnf.noVariables) (hempty : st.testGoals = TestGoals.empty) :
    let out := doAtom env n tgStates epsilonPermitted makeSingle st
    Cnf.Defines st.cnf out.cnf ∧ out.altNesting = st.altNesting ∧
      (∀ l ∈ out.testGoals.toList, l.Below out.cnf.noVariables) ∧
      out.closedGroups = st.closedGroups ∧
      SameOn out.cnf (literalsOf out.testGoals.toList)
        (literalsOf (atomLiterals env n tgStates epsilonPermitted makeSingle st.cnf)) := by
  have hdefines := env.defines n tgStates epsilonPermitted makeSingle st.cnf hvars
  have hbelow := env.below n tgStates epsilonPermitted makeSingle st.cnf hvars
  have hsame := SameOn.refl (env.doAtom n tgStates epsilonPermitted makeSingle st.cnf).2
    (literalsOf (atomLiterals env n tgStates epsilonPermitted makeSingle st.cnf))
  simp only [doAtom]
  rw [GoalTables.foldl_storeGoal]
  refine ⟨hdefines, rfl, ?_, rfl, ?_⟩
  · intro l hl
    rw [TestGoals.mem_insertAll, hempty] at hl
    obtain ⟨entry, hentry, rfl⟩ : ∃ entry ∈ _, Prod.fst entry = l := by simpa using hl
    exact hbelow entry hentry
  · rw [literalsOf_insertAll, hempty]
    have hnone : literalsOf TestGoals.empty.toList = ∅ := by simp [literalsOf]
    rw [hnone, Set.union_empty]
    exact hsame

/-- The conjunctions of pairs of literals. -/
def pairConjunctions (pairs : List (Literal × Literal)) : Set BoolFun :=
  {f | ∃ pair ∈ pairs, f = fun v => pair.1.eval v && pair.2.eval v}

/-- A literal that names the first conjunction stands for it. -/
theorem insert_same {c : Cnf} {goals : TestGoals} {sg : Literal} {pair : Literal × Literal}
    {rest : List (Literal × Literal)}
    (hsg : ∀ v, c.Models v → sg.eval v = (pair.1.eval v && pair.2.eval v)) :
    SameOn c (literalsOf (goals.insert sg).toList ∪ pairConjunctions rest)
      (literalsOf goals.toList ∪ pairConjunctions (pair :: rest)) := by
  apply SameOn.of_subset
  · intro f h
    rcases h with ⟨l, hl, rfl⟩ | ⟨p, hp, rfl⟩
    · rcases TestGoals.mem_insert.mp hl with rfl | hl
      · exact ⟨_, Or.inr ⟨pair, List.mem_cons_self, rfl⟩, hsg⟩
      · exact ⟨_, Or.inl ⟨l, hl, rfl⟩, fun _ _ => rfl⟩
    · exact ⟨_, Or.inr ⟨p, List.mem_cons_of_mem _ hp, rfl⟩, fun _ _ => rfl⟩
  · intro f h
    rcases h with ⟨l, hl, rfl⟩ | ⟨p, hp, rfl⟩
    · exact ⟨_, Or.inl ⟨l, TestGoals.mem_insert.mpr (Or.inr hl), rfl⟩, fun _ _ => rfl⟩
    · rcases List.mem_cons.mp hp with rfl | hp
      · exact ⟨_, Or.inl ⟨sg, TestGoals.mem_insert.mpr (Or.inl rfl), rfl⟩,
          fun v hv => (hsg v hv).symm⟩
      · exact ⟨_, Or.inr ⟨p, hp, rfl⟩, fun _ _ => rfl⟩

/-- **The loop over pairs** adds the conjunction of each. -/
theorem foldl_landPair (pairs : List (Literal × Literal)) (st : GoalTables)
    (hpairs : ∀ pair ∈ pairs, pair.1.Below st.cnf.noVariables ∧ pair.2.Below st.cnf.noVariables)
    (hgoals : ∀ l ∈ st.testGoals.toList, l.Below st.cnf.noVariables) :
    let out := pairs.foldl GoalTables.landPair st
    Cnf.Defines st.cnf out.cnf ∧ out.altNesting = st.altNesting ∧
      (∀ l ∈ out.testGoals.toList, l.Below out.cnf.noVariables) ∧
      out.closedGroups = st.closedGroups ∧
      SameOn out.cnf (literalsOf out.testGoals.toList)
        (literalsOf st.testGoals.toList ∪ pairConjunctions pairs) := by
  induction pairs generalizing st with
  | nil =>
      have hnone : pairConjunctions [] = ∅ := by simp [pairConjunctions]
      refine ⟨Cnf.Defines.refl _, rfl, hgoals, rfl, ?_⟩
      rw [hnone, Set.union_empty]
      exact SameOn.refl _ _
  | cons pair rest ih =>
      have hpair := hpairs pair List.mem_cons_self
      have hland := Cnf.land_names hpair.1 hpair.2
      have hle := hland.defines.le
      have hrest := ih (st.landPair pair)
      simp only [GoalTables.landPair_cnf, GoalTables.landPair_testGoals,
        GoalTables.landPair_altNesting, GoalTables.landPair_closedGroups] at hrest
      obtain ⟨hdefines, hnesting, hbelow, hclosed, hsame⟩ := hrest
        (fun p hp => ⟨(hpairs p (List.mem_cons_of_mem _ hp)).1.mono hle,
          (hpairs p (List.mem_cons_of_mem _ hp)).2.mono hle⟩)
        (by
          intro l hl
          rcases TestGoals.mem_insert.mp hl with rfl | hl
          · exact hland.below
          · exact (hgoals l hl).mono hle)
      refine ⟨hland.defines.trans hdefines, hnesting, hbelow, hclosed, hsame.trans ?_⟩
      exact insert_same fun v hv => hland.eval v (hdefines.sound v hv)

theorem pairConjunctions_product (xs ys : List Literal) :
    pairConjunctions (xs ×ˢ ys) = conj (literalsOf xs) (literalsOf ys) := by
  ext f
  constructor
  · intro h
    obtain ⟨pair, hpair, rfl⟩ := h
    have hmem := List.mem_product.mp hpair
    exact ⟨_, ⟨pair.1, hmem.1, rfl⟩, _, ⟨pair.2, hmem.2, rfl⟩, rfl⟩
  · intro h
    obtain ⟨g, ⟨l, hl, rfl⟩, k, ⟨m, hm, rfl⟩, rfl⟩ := h
    exact ⟨(l, m), List.mem_product.mpr ⟨hl, hm⟩, rfl⟩

/-- **Visits** leave the goals of the pattern. -/
theorem visitGoals_spec {cp : CoveragePattern F P} (states : TestGoalStates cp)
    {st : GoalTables} (hvars : env.cnf.noVariables ≤ st.cnf.noVariables)
    (hempty : st.testGoals = TestGoals.empty) :
    VisitedGoals env states st (visitGoals env states st) := by
  induction states generalizing st with
  | atom tgStates =>
      obtain ⟨hdefines, hnesting, hbelow, hclosed, hsame⟩ :=
        doAtom_spec env _ tgStates false (makeSingle _) hvars hempty
      exact .of_current hdefines hnesting hbelow hclosed hsame
  | quote tgStates =>
      obtain ⟨hdefines, hnesting, hbelow, hclosed, hsame⟩ :=
        doAtom_spec env _ tgStates true true hvars hempty
      exact .of_current hdefines hnesting hbelow hclosed hsame
  | cpAlternative tgStates childA childB ihA ihB =>
      let inner : GoalTables := { st with altNesting := st.altNesting + 1 }
      let outA := visitGoals env childA inner
      let outB := visitGoals env childB { outA with testGoals := TestGoals.empty }
      have hnest : inner.altNesting ≠ 0 := Nat.succ_ne_zero _
      have hA : VisitedGoals env childA inner outA := ihA hvars hempty
      have hnestA : outA.altNesting ≠ 0 := by
        rw [hA.nesting]
        exact hnest
      have hB : VisitedGoals env childB { outA with testGoals := TestGoals.empty } outB :=
        ihB (Nat.le_trans hvars hA.defines.le) rfl
      rw [visitGoals]
      apply VisitedGoals.of_current
      · exact hA.defines.trans hB.defines
      · change outB.altNesting - 1 = st.altNesting
        rw [hB.nesting]
        exact congrArg (· - 1) hA.nesting
      · intro l hl
        rcases TestGoals.mem_insertAll.mp hl with hl | hl
        · exact (hA.below l hl).mono hB.defines.le
        · exact hB.below l hl
      · exact (hB.closed hnestA).trans (hA.closed hnest)
      · change SameOn outB.cnf (literalsOf (outB.testGoals.insertAll outA.testGoals.toList).toList) _
        rw [literalsOf_insertAll, denoteGoals]
        exact ((hA.current hnest).mono hB.defines).union (hB.current hnestA)
  | cpConcat tgStates childA childB ihA ihB =>
      let outA := visitGoals env childA st
      let outB := visitGoals env childB outA.nextOperand
      have hA : VisitedGoals env childA st outA := ihA hvars hempty
      have hnext : outA.nextOperand.cnf = outA.cnf ∧
          outA.nextOperand.altNesting = outA.altNesting ∧
          outA.nextOperand.testGoals = TestGoals.empty := by
        unfold GoalTables.nextOperand
        split_ifs <;> exact ⟨rfl, rfl, rfl⟩
      have hB : VisitedGoals env childB outA.nextOperand outB := by
        apply ihB _ hnext.2.2
        rw [hnext.1]
        exact Nat.le_trans hvars hA.defines.le
      have hdefines : Cnf.Defines outA.cnf outB.cnf := hnext.1 ▸ hB.defines
      have hnesting : outB.altNesting = st.altNesting :=
        hB.nesting.trans (hnext.2.1.trans hA.nesting)
      rw [visitGoals]
      change VisitedGoals env _ st
        (if outB.altNesting ≠ 0 then
          { outB with testGoals := TestGoals.empty }.landAll outA.testGoals outB.testGoals
        else outB)
      by_cases hnest : st.altNesting = 0
      · -- the groups of both operands, with the last one of the first in between
        have hflat : ¬outB.altNesting ≠ 0 := by simp [hnesting, hnest]
        have hgroup : outA.nextOperand.closedGroups = outA.closedGroups ++ [outA.testGoals] := by
          rw [GoalTables.nextOperand, if_pos (hA.nesting.trans hnest)]
        obtain ⟨openedA, hclosedA, -, hsameA⟩ := hA.groups
        obtain ⟨openedB, hclosedB, -, hsameB⟩ := hB.groups
        rw [if_neg hflat]
        refine ⟨hA.defines.trans hdefines, hnesting, hB.below,
          openedA ++ [outA.testGoals] ++ openedB, ?_, fun h => absurd hnest h, ?_⟩
        · rw [hclosedB, hgroup, hclosedA]
          simp
        · rw [List.append_assoc, products_append, denoteGoals]
          exact (hsameA.mono hdefines).conj hsameB
      · -- the current group is multiplied out
        have hnestA : outA.altNesting ≠ 0 := by rwa [hA.nesting]
        have hnestB : outB.altNesting ≠ 0 := by rwa [hnesting]
        have hgroup : outA.nextOperand.closedGroups = outA.closedGroups := by
          rw [GoalTables.nextOperand, if_neg hnestA]
        have hnestNext : outA.nextOperand.altNesting ≠ 0 := by rwa [hnext.2.1]
        obtain ⟨hland, hlandNesting, hlandBelow, hlandClosed, hlandSame⟩ :=
          foldl_landPair (outA.testGoals.toList ×ˢ outB.testGoals.toList)
            { outB with testGoals := TestGoals.empty }
            (fun pair hpair =>
              ⟨(hA.below _ (List.mem_product.mp hpair).1).mono hdefines.le,
                hB.below _ (List.mem_product.mp hpair).2⟩)
            (fun l hl => absurd hl List.not_mem_nil)
        rw [if_pos hnestB]
        apply VisitedGoals.of_current
        · exact (hA.defines.trans hdefines).trans hland
        · exact hlandNesting.trans hnesting
        · exact hlandBelow
        · exact hlandClosed.trans ((hB.closed hnestNext).trans (hgroup.trans (hA.closed hnest)))
        · apply hlandSame.trans
          have hnone : literalsOf TestGoals.empty.toList = ∅ := by simp [literalsOf]
          have hcurrent := ((hA.current hnest).mono hdefines).conj (hB.current hnestNext)
          change SameOn _ (literalsOf TestGoals.empty.toList ∪ pairConjunctions _) _
          rw [hnone, Set.empty_union, pairConjunctions_product, denoteGoals]
          exact hcurrent.mono hland

end Visits

/-! ## The cover clause -/

/-- What `visit(Query)` computes. -/
structure QueryGoals where
  tables : GoalTables
  idMap : List (List Literal)
  skips : List Nat

section Cover

variable {F P : Type} (env : AtomVisitor F P)

/-- `visit(Query)`. -/
def visitQuery {cover : CoveragePattern F P} (states : TestGoalStates cover) :
    Option QueryGoals :=
  let tables := visitGoals env states (GoalTables.start env.cnf)
  (makeIdMap tables.testGoalGroups).map fun idMap =>
    { tables := tables
      idMap := idMap
      skips := makeSkips tables.testGoalGroups }

/-- **The id map represents the cover clause.**  The conjunctions of its rows
are the goals of the pattern, in every model of the clauses at the end; these
define new literals only.  Its rows are the combinations of one literal per
group, each of them once. -/
theorem visitQuery_idMap {cover : CoveragePattern F P} (states : TestGoalStates cover) :
    ∃ out, visitQuery env states = some out ∧
      Cnf.Defines env.cnf out.tables.cnf ∧
      SameOn out.tables.cnf (conjunctions out.idMap)
        (denoteGoals env states (GoalTables.start env.cnf)) ∧
      (∀ row, List.Forall₂ (fun l g => l ∈ g.toList) row out.tables.testGoalGroups →
        out.idMap.count row = 1) ∧
      ∀ row ∈ out.idMap, List.Forall₂ (fun l g => l ∈ g.toList) row out.tables.testGoalGroups := by
  let tables := visitGoals env states (GoalTables.start env.cnf)
  have hvisit : VisitedGoals env states (GoalTables.start env.cnf) tables :=
    visitGoals_spec env states (Nat.le_refl _) rfl
  have hne : tables.testGoalGroups ≠ [] := by simp [GoalTables.testGoalGroups]
  have hrows : ∀ row, row ∈ combinations (tables.testGoalGroups.map TestGoals.toList) ↔
      List.Forall₂ (fun l g => l ∈ g.toList) row tables.testGoalGroups := by
    intro row
    rw [mem_combinations, List.forall₂_map_right_iff]
  have hnodup : (combinations (tables.testGoalGroups.map TestGoals.toList)).Nodup := by
    apply nodup_combinations
    intro lits hlits
    obtain ⟨g, -, rfl⟩ := List.mem_map.mp hlits
    exact g.nodup
  refine ⟨⟨tables, combinations (tables.testGoalGroups.map TestGoals.toList),
    makeSkips tables.testGoalGroups⟩, ?_, hvisit.defines, ?_, ?_, ?_⟩
  · simp only [visitQuery]
    rw [makeIdMap_eq hne]
    rfl
  · obtain ⟨opened, hclosed, -, hsame⟩ := hvisit.groups
    have hgroups : tables.testGoalGroups = opened ++ [tables.testGoals] :=
      congrArg (· ++ [tables.testGoals]) hclosed
    rw [← hgroups] at hsame
    exact hsame
  · intro row hrow
    exact List.count_eq_one_of_mem hnodup ((hrows row).mpr hrow)
  · intro row hrow
    exact (hrows row).mp hrow

end Cover

end FShell
