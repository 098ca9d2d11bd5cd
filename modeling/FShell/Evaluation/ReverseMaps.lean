import FShell.Evaluation.AtomGoals
import FShell.Evaluation.SatisfiedGoals

/-!
# The reverse maps

The walk over the cover clause writes down for every literal which disjunctions it
belongs to, and for every operand which conjunctions.  `get_satisfied_test_goals`
goes through these maps in the other direction: from literals that were earned on a
run to the goals of the id map.

**Soundness** of an entry is a statement about models (`TablesSound`).  **Completeness**
is one about sets of literals: if a set has a name for every goal of a list and is
closed under the recorded conjunctions, then it contains a row (`visitGoals_row`).
-/

namespace FShell

open Cnf

/-- Every member of the first list has a partner in the second. -/
theorem exists_right_of_forall₂ {α β : Type} {R : α → β → Prop} {xs : List α} {ys : List β}
    (h : List.Forall₂ R xs ys) {x : α} (hx : x ∈ xs) : ∃ y ∈ ys, R x y := by
  induction h with
  | nil => cases hx
  | cons hxy _ ih =>
      rcases List.mem_cons.mp hx with rfl | hx
      · exact ⟨_, List.mem_cons_self, hxy⟩
      · obtain ⟨y, hy, hR⟩ := ih hx
        exact ⟨y, List.mem_cons_of_mem _ hy, hR⟩

namespace GoalTables

variable {st : GoalTables} {entries : List (Literal × List Literal)} {l x a b sg : Literal}

theorem mem_storeMapping {set : List Literal} {orMap : List (Literal × Literal)} :
    (l, x) ∈ set.foldl (fun orMap l => orMap.insert (l, a)) orMap ↔
      (l ∈ set ∧ x = a) ∨ (l, x) ∈ orMap := by
  induction set generalizing orMap with
  | nil => simp
  | cons m set ih =>
      rw [List.foldl_cons, ih, List.mem_insert_iff, Prod.mk.injEq, List.mem_cons]
      grind

/-- Every literal of a goal leads to the name of the goal. -/
theorem mem_foldl_storeGoal :
    (l, x) ∈ (entries.foldl storeGoal st).reverseOrMap ↔
      (∃ entry ∈ entries, l ∈ entry.2 ∧ x = entry.1) ∨ (l, x) ∈ st.reverseOrMap := by
  induction entries generalizing st with
  | nil => simp
  | cons entry entries ih =>
      rw [List.foldl_cons, ih, storeGoal]
      dsimp only
      rw [mem_storeMapping, List.exists_mem_cons_iff, or_left_comm, or_assoc]

@[simp] theorem foldl_storeGoal_reverseAndMap :
    (entries.foldl storeGoal st).reverseAndMap = st.reverseAndMap := by
  rw [foldl_storeGoal]

@[simp] theorem landPair_reverseOrMap (pair : Literal × Literal) :
    (st.landPair pair).reverseOrMap = st.reverseOrMap := by
  unfold landPair insertAnd
  dsimp only
  split_ifs <;> rfl

theorem mem_landPair_reverseAndMap {pair : Literal × Literal} {e : Literal × Literal × Literal} :
    e ∈ (st.landPair pair).reverseAndMap ↔
      e = (pair.2, (st.cnf.land pair.1 pair.2).1, pair.1) ∨
        e = (pair.1, (st.cnf.land pair.1 pair.2).1, pair.2) ∨ e ∈ st.reverseAndMap := by
  unfold landPair insertAnd
  dsimp only
  split_ifs <;> simp only [List.mem_insert_iff]

theorem foldl_landPair_reverseOrMap (pairs : List (Literal × Literal)) :
    (pairs.foldl landPair st).reverseOrMap = st.reverseOrMap := by
  induction pairs generalizing st with
  | nil => rfl
  | cons pair pairs ih => rw [List.foldl_cons, ih, landPair_reverseOrMap]

theorem foldl_landPair_closedGroups (pairs : List (Literal × Literal)) :
    (pairs.foldl landPair st).closedGroups = st.closedGroups := by
  induction pairs generalizing st with
  | nil => rfl
  | cons pair pairs ih => rw [List.foldl_cons, ih, landPair_closedGroups]

/-- Nothing is taken out again. -/
theorem foldl_landPair_subset (pairs : List (Literal × Literal)) :
    (∀ l ∈ st.testGoals.toList, l ∈ (pairs.foldl landPair st).testGoals.toList) ∧
      st.reverseAndMap ⊆ (pairs.foldl landPair st).reverseAndMap := by
  induction pairs generalizing st with
  | nil => exact ⟨fun _ h => h, fun _ h => h⟩
  | cons pair pairs ih =>
      rw [List.foldl_cons]
      obtain ⟨hgoals, hmap⟩ := @ih (st.landPair pair)
      constructor
      · intro l hl
        apply hgoals
        rw [landPair_testGoals, TestGoals.mem_insert]
        exact Or.inr hl
      · intro e he
        exact hmap (mem_landPair_reverseAndMap.mpr (Or.inr (Or.inr he)))

/-- Every pair leaves a conjunction and its entry. -/
theorem mem_foldl_landPair {pairs : List (Literal × Literal)} (h : (a, b) ∈ pairs) :
    ∃ c : Cnf, (c.land a b).1 ∈ (pairs.foldl landPair st).testGoals.toList ∧
      (a, (c.land a b).1, b) ∈ (pairs.foldl landPair st).reverseAndMap := by
  induction pairs generalizing st with
  | nil => cases h
  | cons pair pairs ih =>
      rw [List.foldl_cons]
      rcases List.mem_cons.mp h with rfl | h
      · obtain ⟨hgoals, hmap⟩ := @foldl_landPair_subset (st.landPair (a, b)) pairs
        refine ⟨st.cnf, hgoals _ ?_, hmap ?_⟩
        · rw [landPair_testGoals, TestGoals.mem_insert]
          exact Or.inl rfl
        · exact mem_landPair_reverseAndMap.mpr (Or.inr (Or.inl rfl))
      · exact ih h

end GoalTables

/-- A conjunction is known with its operands as soon as it is when it is no constant. -/
theorem Cnf.land_known {K : Literal → Prop} {c : Cnf} {a b : Literal} (hfalse : ¬K (.const false))
    (ha : K a) (hb : K b) (hland : (c.land a b).1.isConstant = false → K (c.land a b).1) :
    K (c.land a b).1 := by
  unfold land at hland ⊢
  split_ifs at hland ⊢ with _ _ haf hbf
  · exact hb
  · exact ha
  · rw [Literal.isFalse_iff.mp haf] at ha
    exact absurd ha hfalse
  · rw [Literal.isFalse_iff.mp hbf] at hb
    exact absurd hb hfalse
  · exact ha
  · exact hland rfl

namespace StoredGoals

variable {ν : Type} [LinearOrder ν] {goals : StoredGoals ν} {F P : Type}

/-! ## What an entry says -/

variable (goals) in
/-- In every model a disjunction that a literal leads to is a goal with this literal, and a
conjunction has the value of its operands. -/
structure TablesSound (st : GoalTables) : Prop where
  orMap : ∀ l x, (l, x) ∈ st.reverseOrMap →
    ∃ g, l ∈ goals.goalSet g ∧ ∀ v, st.cnf.Models v → x.eval v = goals.holds g v
  andMap : ∀ a sg b, (a, sg, b) ∈ st.reverseAndMap →
    ∀ v, st.cnf.Models v → sg.eval v = (a.eval v && b.eval v)

namespace TablesSound

theorem start (c : Cnf) : goals.TablesSound (GoalTables.start c) :=
  ⟨fun _ _ h => absurd h List.not_mem_nil, fun _ _ _ h => absurd h List.not_mem_nil⟩

/-- Later clauses have fewer models. -/
theorem mono {st st' : GoalTables} (h : goals.TablesSound st) (hdefines : Defines st.cnf st'.cnf)
    (hor : st'.reverseOrMap = st.reverseOrMap) (hand : st'.reverseAndMap = st.reverseAndMap) :
    goals.TablesSound st' where
  orMap := by
    intro l x hmem
    obtain ⟨g, hl, heval⟩ := h.orMap l x (hor ▸ hmem)
    exact ⟨g, hl, fun v hv => heval v (hdefines.sound v hv)⟩
  andMap := fun a sg b hmem v hv => h.andMap a sg b (hand ▸ hmem) v (hdefines.sound v hv)

theorem atom {st : GoalTables} (h : goals.TablesSound st) (n : CoveragePattern F P)
    (tgStates : List TaState) (epsilonPermitted makeSingle : Bool)
    (hvars : goals.cnf.noVariables ≤ st.cnf.noVariables) :
    goals.TablesSound
      (FShell.doAtom (goals.atomVisitor F P) n tgStates epsilonPermitted makeSingle st) := by
  have hinserts := doAtom_inserts tgStates makeSingle hvars
  have hcnf := doAtom_cnf (goals.atomVisitor F P) n tgStates epsilonPermitted makeSingle st
  have hold : goals.TablesSound { st with cnf := (goals.doAtom tgStates makeSingle st.cnf).2 } :=
    h.mono hinserts.defines rfl rfl
  constructor
  · intro l x hmem
    rw [hcnf]
    rcases GoalTables.mem_foldl_storeGoal.mp hmem with ⟨entry, hentry, hl, rfl⟩ | hmem
    · obtain ⟨g, -, hset, -, heval⟩ := exists_right_of_forall₂ hinserts.named hentry
      exact ⟨g, hset ▸ hl, heval⟩
    · exact hold.orMap l x hmem
  · intro a sg b hmem
    rw [hcnf]
    apply hold.andMap a sg b
    rwa [FShell.doAtom, GoalTables.foldl_storeGoal_reverseAndMap] at hmem

theorem landPairs {st : GoalTables} (h : goals.TablesSound st) (pairs : List (Literal × Literal))
    (hpairs : ∀ pair ∈ pairs, pair.1.Below st.cnf.noVariables ∧ pair.2.Below st.cnf.noVariables) :
    goals.TablesSound (pairs.foldl GoalTables.landPair st) := by
  induction pairs generalizing st with
  | nil => exact h
  | cons pair pairs ih =>
      obtain ⟨ha, hb⟩ := hpairs pair List.mem_cons_self
      have hland := land_names ha hb
      have hold : goals.TablesSound { st with cnf := (st.cnf.land pair.1 pair.2).2 } :=
        h.mono hland.defines rfl rfl
      rw [List.foldl_cons]
      apply ih
      · constructor
        · intro l x hmem
          rw [GoalTables.landPair_reverseOrMap] at hmem
          rw [GoalTables.landPair_cnf]
          exact hold.orMap l x hmem
        · intro a sg b hmem v hv
          rw [GoalTables.landPair_cnf] at hv
          rcases GoalTables.mem_landPair_reverseAndMap.mp hmem with heq | heq | hmem
          · cases heq
            rw [hland.eval v hv, Bool.and_comm]
          · cases heq
            exact hland.eval v hv
          · exact hold.andMap a sg b hmem v hv
      · intro p hp
        obtain ⟨h₁, h₂⟩ := hpairs p (List.mem_cons_of_mem _ hp)
        rw [GoalTables.landPair_cnf]
        exact ⟨h₁.mono hland.defines.le, h₂.mono hland.defines.le⟩

/-- **Every entry that the walk over a pattern makes is sound.** -/
theorem visitGoals {cp : CoveragePattern F P} (states : TestGoalStates cp) {st : GoalTables}
    (h : goals.TablesSound st) (hvars : goals.cnf.noVariables ≤ st.cnf.noVariables)
    (hempty : st.testGoals = TestGoals.empty) :
    goals.TablesSound (visitGoals (goals.atomVisitor F P) states st) := by
  induction states generalizing st with
  | atom tgStates => exact h.atom _ tgStates _ _ hvars
  | quote tgStates => exact h.atom _ tgStates _ _ hvars
  | cpAlternative tgStates childA childB ihA ihB =>
      let env := goals.atomVisitor F P
      let inner : GoalTables := { st with altNesting := st.altNesting + 1 }
      let outA := FShell.visitGoals env childA inner
      let outB := FShell.visitGoals env childB { outA with testGoals := TestGoals.empty }
      have hA : VisitedGoals env childA inner outA := visitGoals_spec env childA hvars hempty
      have hinner : goals.TablesSound inner := h.mono (Defines.refl _) rfl rfl
      have houtA : goals.TablesSound outA := ihA hinner hvars hempty
      have houtB : goals.TablesSound outB :=
        ihB (houtA.mono (Defines.refl _) rfl rfl) (Nat.le_trans hvars hA.defines.le) rfl
      exact houtB.mono (Defines.refl _) rfl rfl
  | cpConcat tgStates childA childB ihA ihB =>
      have hA := visitGoals_spec (goals.atomVisitor F P) childA hvars hempty
      have houtA := ihA h hvars hempty
      have hnext : ∀ st : GoalTables, st.nextOperand.cnf = st.cnf ∧
          st.nextOperand.reverseOrMap = st.reverseOrMap ∧
          st.nextOperand.reverseAndMap = st.reverseAndMap ∧
          st.nextOperand.testGoals = TestGoals.empty := by
        intro st
        unfold GoalTables.nextOperand
        split_ifs <;> exact ⟨rfl, rfl, rfl, rfl⟩
      obtain ⟨hcnf, hor, hand, hgoals⟩ :=
        hnext (FShell.visitGoals (goals.atomVisitor F P) childA st)
      have hle : goals.cnf.noVariables ≤
          (FShell.visitGoals (goals.atomVisitor F P) childA st).nextOperand.cnf.noVariables :=
        hcnf.symm ▸ Nat.le_trans hvars hA.defines.le
      have hB := visitGoals_spec (goals.atomVisitor F P) childB hle hgoals
      have houtB := ihB (houtA.mono (hcnf.symm ▸ Defines.refl _) hor hand) hle hgoals
      rw [FShell.visitGoals]
      split_ifs
      · apply landPairs
        · exact houtB.mono (Defines.refl _) rfl rfl
        · intro pair hpair
          obtain ⟨hp₁, hp₂⟩ := List.mem_product.mp hpair
          exact ⟨(hA.below _ hp₁).mono (hcnf ▸ hB.defines.le), hB.below _ hp₂⟩
      · exact houtB

end TablesSound

/-! ## Rows of known literals -/

/-- All entries of the reverse maps are among the given ones. -/
structure MapsWithin (orMap : List (Literal × Literal)) (andMap : List (Literal × Literal × Literal))
    (st : GoalTables) : Prop where
  or : st.reverseOrMap ⊆ orMap
  and : st.reverseAndMap ⊆ andMap

section Rows

variable {c : Cnf} {orMap : List (Literal × Literal)}
  {andMap : List (Literal × Literal × Literal)}
  {Event : ν ×ₗ ν → TaState → Prop} {K : Literal → Prop} {st out : GoalTables}

theorem MapsWithin.nextOperand (h : MapsWithin orMap andMap st.nextOperand) :
    MapsWithin orMap andMap st := by
  unfold GoalTables.nextOperand at h
  split_ifs at h <;> exact ⟨h.or, h.and⟩

theorem MapsWithin.landAll {xs ys : TestGoals} (h : MapsWithin orMap andMap (st.landAll xs ys)) :
    MapsWithin orMap andMap st where
  or := by
    have hor := h.or
    rwa [GoalTables.landAll, GoalTables.foldl_landPair_reverseOrMap] at hor
  and := fun _ he => h.and ((GoalTables.foldl_landPair_subset _).2 he)

theorem MapsWithin.atom {n : CoveragePattern F P} {tgStates : List TaState}
    {epsilonPermitted makeSingle : Bool}
    (h : MapsWithin orMap andMap
      (FShell.doAtom (goals.atomVisitor F P) n tgStates epsilonPermitted makeSingle st)) :
    MapsWithin orMap andMap st where
  or := fun _ he => h.or (GoalTables.mem_foldl_storeGoal.mpr (Or.inr he))
  and := by
    have hand := h.and
    rwa [FShell.doAtom, GoalTables.foldl_storeGoal_reverseAndMap] at hand

/-- A visit takes nothing out of the maps. -/
theorem MapsWithin.visit {cp : CoveragePattern F P} {states : TestGoalStates cp}
    (h : MapsWithin orMap andMap (visitGoals (goals.atomVisitor F P) states st)) :
    MapsWithin orMap andMap st := by
  induction states generalizing st with
  | atom tgStates => exact h.atom
  | quote tgStates => exact h.atom
  | cpAlternative tgStates childA childB ihA ihB =>
      have houtB : MapsWithin orMap andMap (visitGoals (goals.atomVisitor F P) childB
          { visitGoals (goals.atomVisitor F P) childA
              { st with altNesting := st.altNesting + 1 } with
            testGoals := TestGoals.empty }) := ⟨h.or, h.and⟩
      have houtA := ihB houtB
      have hinner := @ihA { st with altNesting := st.altNesting + 1 } ⟨houtA.or, houtA.and⟩
      exact ⟨hinner.or, hinner.and⟩
  | cpConcat tgStates childA childB ihA ihB =>
      apply ihA
      apply MapsWithin.nextOperand
      apply ihB
      rw [visitGoals] at h
      split_ifs at h
      · have hland := h.landAll
        exact ⟨hland.or, hland.and⟩
      · exact h

variable (goals) in
/-- A set of literals that has, for every event with stored literals, the names of the goals
of one of them, and is closed under conjunctions, which have their values in the models of
`c`. -/
structure Knows (c : Cnf) (orMap : List (Literal × Literal))
    (andMap : List (Literal × Literal × Literal)) (Event : ν ×ₗ ν → TaState → Prop)
    (K : Literal → Prop) : Prop where
  const_true : K (.const true)
  const_false : ¬K (.const false)
  event : ∀ e t, Event e t → goals.literals (toLex (t, e)) ≠ [] →
    ∃ l ∈ goals.literals (toLex (t, e)), ∀ x, (l, x) ∈ orMap → K x
  conjunction : ∀ a sg b, (a, sg, b) ∈ andMap → sg.isConstant = false → K a → K b → K sg
  value : ∀ a sg b, (a, sg, b) ∈ andMap → ∀ v, c.Models v → sg.eval v = (a.eval v && b.eval v)

variable (c K) in
/-- The group has a known literal for the function. -/
def HasLiteral (group : TestGoals) (f : BoolFun) : Prop :=
  ∃ x ∈ group.toList, K x ∧ ∀ v, c.Models v → x.eval v = f v

/-- The name of a goal that is met is inserted and known. -/
theorem Knows.atom (h : goals.Knows c orMap andMap Event K) {tgStates : List TaState}
    {makeSingle : Bool} {n : CoveragePattern F P} {epsilonPermitted : Bool}
    (hvars : goals.cnf.noVariables ≤ st.cnf.noVariables)
    (hmaps : MapsWithin orMap andMap
      (FShell.doAtom (goals.atomVisitor F P) n tgStates epsilonPermitted makeSingle st))
    (hsound : ∀ v, c.Models v →
      (FShell.doAtom (goals.atomVisitor F P) n tgStates epsilonPermitted makeSingle st).cnf.Models v)
    {g : AtomGoal ν} (hg : g ∈ goals.atomGoals tgStates makeSingle) (hmet : g.Met Event) :
    HasLiteral c K (FShell.doAtom (goals.atomVisitor F P) n tgStates epsilonPermitted
      makeSingle st).testGoals fun v => [g].all fun g => goals.holds g v := by
  have hinserts := doAtom_inserts tgStates makeSingle hvars
  obtain ⟨entry, hentry, hset, hinitial, heval⟩ := exists_right_of_forall₂ hinserts.named.flip hg
  rw [doAtom_cnf] at hsound
  refine ⟨entry.1, ?_, ?_, fun v hv => by simpa using heval v (hsound v hv)⟩
  · unfold FShell.doAtom
    dsimp only
    rw [GoalTables.foldl_storeGoal, TestGoals.mem_insertAll]
    exact Or.inl (List.mem_map_of_mem hentry)
  · rcases hmet with htrue | ⟨key, hkey, hevent⟩
    · rw [hinitial htrue]
      exact h.const_true
    · have hne := (mem_selected.mp (entries_selected hg key hkey)).2
      obtain ⟨l, hl, hnames⟩ := h.event _ _ hevent hne
      apply hnames
      apply hmaps.or
      refine GoalTables.mem_foldl_storeGoal.mpr (Or.inl ⟨entry, hentry, ?_, rfl⟩)
      rw [hset]
      exact List.mem_append_right _ (List.mem_flatMap.mpr ⟨key, hkey, hl⟩)

/-- Two known literals have a known conjunction. -/
theorem Knows.landAll (h : goals.Knows c orMap andMap Event K) {xs ys : TestGoals}
    {f g : BoolFun} (hmaps : MapsWithin orMap andMap (st.landAll xs ys))
    (hx : HasLiteral c K xs f) (hy : HasLiteral c K ys g) :
    HasLiteral c K (st.landAll xs ys).testGoals fun v => f v && g v := by
  obtain ⟨x, hx, hKx, hf⟩ := hx
  obtain ⟨y, hy, hKy, hg⟩ := hy
  obtain ⟨d, hmem, hentry⟩ :=
    @GoalTables.mem_foldl_landPair st _ _ _ (List.mem_product.mpr ⟨hx, hy⟩)
  refine ⟨_, hmem, land_known h.const_false hKx hKy ?_, ?_⟩
  · exact fun hconst => h.conjunction _ _ _ (hmaps.and hentry) hconst hKx hKy
  · intro v hv
    rw [h.value _ _ _ (hmaps.and hentry) v hv, hf v hv, hg v hv]

variable (c K) in
/-- The groups that were opened after `st`, with the current one, have a row of known
literals for the function. -/
def HasRow (st out : GoalTables) (f : BoolFun) : Prop :=
  ∃ opened, out.closedGroups = st.closedGroups ++ opened ∧
    ∃ row ∈ combinations ((opened ++ [out.testGoals]).map TestGoals.toList),
      (∀ l ∈ row, K l) ∧ ∀ v, c.Models v → row.all (Literal.eval v) = f v

/-- No group was opened. -/
theorem hasRow_iff_current {f : BoolFun} (hclosed : out.closedGroups = st.closedGroups) :
    HasRow c K st out f ↔ HasLiteral c K out.testGoals f := by
  constructor
  · rintro ⟨opened, heq, row, hrow, hK, heval⟩
    rw [hclosed, List.self_eq_append_right] at heq
    subst heq
    simp only [List.nil_append, List.map_cons, List.map_nil, combinations, List.mem_flatMap,
      List.mem_singleton] at hrow
    obtain ⟨x, hx, rfl⟩ := hrow
    exact ⟨x, hx, hK x List.mem_cons_self, by simpa using heval⟩
  · rintro ⟨x, hx, hK, heval⟩
    exact ⟨[], by simp [hclosed], [x], by simpa [combinations] using hx, by simpa using hK,
      by simpa using heval⟩

/-- The groups of the second operand come behind those of the first. -/
theorem HasRow.append {mid : GoalTables} {f g : BoolFun} (h : HasRow c K st mid f)
    (h' : HasRow c K mid.nextOperand out g) (hnest : mid.altNesting = 0) :
    HasRow c K st out fun v => f v && g v := by
  obtain ⟨opened, hclosed, row, hrow, hK, hf⟩ := h
  obtain ⟨opened', hclosed', row', hrow', hK', hg⟩ := h'
  refine ⟨opened ++ [mid.testGoals] ++ opened', ?_, row ++ row', ?_, ?_, ?_⟩
  · rw [hclosed', GoalTables.nextOperand, if_pos hnest, hclosed]
    simp
  · rw [List.append_assoc, List.map_append]
    exact mem_combinations_append.mpr ⟨row, hrow, row', hrow', rfl⟩
  · intro l hl
    exact (List.mem_append.mp hl).elim (hK l) (hK' l)
  · intro v hv
    rw [List.all_append, hf v hv, hg v hv]

theorem doAtom_closedGroups (n : CoveragePattern F P) (tgStates : List TaState)
    (epsilonPermitted makeSingle : Bool) (st : GoalTables) :
    (FShell.doAtom (goals.atomVisitor F P) n tgStates epsilonPermitted makeSingle st).closedGroups =
      st.closedGroups := by
  unfold FShell.doAtom
  dsimp only
  rw [GoalTables.foldl_storeGoal]

/-- **Goals that are met have a row of known literals.** -/
theorem Knows.visitGoals (h : goals.Knows c orMap andMap Event K) {cp : CoveragePattern F P}
    (states : TestGoalStates cp) (hvars : goals.cnf.noVariables ≤ st.cnf.noVariables)
    (hempty : st.testGoals = TestGoals.empty)
    (hmaps : MapsWithin orMap andMap (visitGoals (goals.atomVisitor F P) states st))
    (hsound : ∀ v, c.Models v → (visitGoals (goals.atomVisitor F P) states st).cnf.Models v)
    {gs : List (AtomGoal ν)} (hgs : gs ∈ goals.patternGoals states)
    (hmet : ∀ g ∈ gs, g.Met Event) :
    HasRow c K st (visitGoals (goals.atomVisitor F P) states st)
      fun v => gs.all fun g => goals.holds g v := by
  induction states generalizing st gs with
  | atom tgStates =>
      obtain ⟨g, hg, rfl⟩ := List.mem_map.mp hgs
      apply (hasRow_iff_current (doAtom_closedGroups _ _ _ _ st)).mpr
      exact h.atom hvars hmaps hsound hg (hmet g List.mem_cons_self)
  | quote tgStates =>
      obtain ⟨g, hg, rfl⟩ := List.mem_map.mp hgs
      apply (hasRow_iff_current (doAtom_closedGroups _ _ _ _ st)).mpr
      exact h.atom hvars hmaps hsound hg (hmet g List.mem_cons_self)
  | cpAlternative tgStates childA childB ihA ihB =>
      let env := goals.atomVisitor F P
      let inner : GoalTables := { st with altNesting := st.altNesting + 1 }
      let outA := FShell.visitGoals env childA inner
      let mid : GoalTables := { outA with testGoals := TestGoals.empty }
      let outB := FShell.visitGoals env childB mid
      have hnest : inner.altNesting ≠ 0 := Nat.succ_ne_zero _
      have hA : VisitedGoals env childA inner outA := visitGoals_spec env childA hvars hempty
      have hle : goals.cnf.noVariables ≤ mid.cnf.noVariables := Nat.le_trans hvars hA.defines.le
      have hB : VisitedGoals env childB mid outB := visitGoals_spec env childB hle rfl
      have hnestA : outA.altNesting ≠ 0 := hA.nesting.symm ▸ hnest
      have houtB : MapsWithin orMap andMap outB := ⟨hmaps.or, hmaps.and⟩
      have houtA : MapsWithin orMap andMap outA := ⟨houtB.visit.or, houtB.visit.and⟩
      have hclosed : outB.closedGroups = st.closedGroups :=
        (hB.closed hnestA).trans (hA.closed hnest)
      refine (hasRow_iff_current ?_).mpr ?_
      · exact hclosed
      change HasLiteral c K (outB.testGoals.insertAll outA.testGoals.toList) _
      rcases List.mem_append.mp hgs with hgs | hgs
      · have hrow : HasRow c K inner outA fun v => gs.all fun g => goals.holds g v :=
          @ihA inner hvars hempty houtA (fun v hv => hB.defines.sound v (hsound v hv)) gs hgs hmet
        obtain ⟨x, hx, hK⟩ := (hasRow_iff_current (hA.closed hnest)).mp hrow
        exact ⟨x, TestGoals.mem_insertAll.mpr (Or.inl hx), hK⟩
      · have hrow : HasRow c K mid outB fun v => gs.all fun g => goals.holds g v :=
          @ihB mid hle rfl houtB hsound gs hgs hmet
        obtain ⟨x, hx, hK⟩ := (hasRow_iff_current (hB.closed hnestA)).mp hrow
        exact ⟨x, TestGoals.mem_insertAll.mpr (Or.inr hx), hK⟩
  | cpConcat tgStates childA childB ihA ihB =>
      let env := goals.atomVisitor F P
      let outA := FShell.visitGoals env childA st
      let outB := FShell.visitGoals env childB outA.nextOperand
      have hA : VisitedGoals env childA st outA := visitGoals_spec env childA hvars hempty
      have hnext : outA.nextOperand.cnf = outA.cnf ∧
          outA.nextOperand.altNesting = outA.altNesting ∧
          outA.nextOperand.testGoals = TestGoals.empty := by
        unfold GoalTables.nextOperand
        split_ifs <;> exact ⟨rfl, rfl, rfl⟩
      have hle : goals.cnf.noVariables ≤ outA.nextOperand.cnf.noVariables :=
        hnext.1.symm ▸ Nat.le_trans hvars hA.defines.le
      have hB : VisitedGoals env childB outA.nextOperand outB :=
        visitGoals_spec env childB hle hnext.2.2
      have hflat : outB.altNesting = st.altNesting :=
        hB.nesting.trans (hnext.2.1.trans hA.nesting)
      obtain ⟨gsA, hgsA, hgs⟩ := List.mem_flatMap.mp hgs
      obtain ⟨gsB, hgsB, rfl⟩ := List.mem_map.mp hgs
      have hmetA : ∀ g ∈ gsA, g.Met Event := fun g hg => hmet g (List.mem_append_left _ hg)
      have hmetB : ∀ g ∈ gsB, g.Met Event := fun g hg => hmet g (List.mem_append_right _ hg)
      have hresult : FShell.visitGoals env (.cpConcat tgStates childA childB) st =
          if outB.altNesting ≠ 0 then
            { outB with testGoals := TestGoals.empty }.landAll outA.testGoals outB.testGoals
          else outB := rfl
      have hfun : (fun v => (gsA ++ gsB).all fun g => goals.holds g v) =
          fun v => (gsA.all fun g => goals.holds g v) && gsB.all fun g => goals.holds g v := by
        simp only [List.all_append]
      obtain ⟨-, hdefinesB, hland⟩ :=
        visitGoals_concat_defines env tgStates childA childB hvars hempty
      have hsoundB : ∀ v, c.Models v → outB.cnf.Models v :=
        fun v hv => hland.sound v (hsound v hv)
      have hsoundA : ∀ v, c.Models v → outA.cnf.Models v :=
        fun v hv => hdefinesB.sound v (hsoundB v hv)
      rw [hresult] at hmaps ⊢
      rw [hfun]
      by_cases hnest : st.altNesting = 0
      · have hplain : ¬outB.altNesting ≠ 0 := by simp [hflat, hnest]
        rw [if_neg hplain] at hmaps ⊢
        exact (ihA hvars hempty hmaps.visit.nextOperand hsoundA hgsA hmetA).append
          (ihB hle hnext.2.2 hmaps hsoundB hgsB hmetB) (hA.nesting.trans hnest)
      · have hnestNext : outA.nextOperand.altNesting ≠ 0 := by rwa [hnext.2.1, hA.nesting]
        have hgroup : outA.nextOperand.closedGroups = outA.closedGroups := by
          rw [GoalTables.nextOperand, if_neg (by rwa [hA.nesting])]
        rw [if_pos (by rwa [hflat])] at hmaps ⊢
        have houtB : MapsWithin orMap andMap outB := ⟨hmaps.landAll.or, hmaps.landAll.and⟩
        have hlandClosed : ({ outB with testGoals := TestGoals.empty }.landAll outA.testGoals
            outB.testGoals).closedGroups = st.closedGroups := by
          rw [GoalTables.landAll, GoalTables.foldl_landPair_closedGroups]
          exact (hB.closed hnestNext).trans (hgroup.trans (hA.closed hnest))
        apply (hasRow_iff_current hlandClosed).mpr
        apply h.landAll hmaps
        · exact (hasRow_iff_current (hA.closed hnest)).mp
            (ihA hvars hempty houtB.visit.nextOperand hsoundA hgsA hmetA)
        · exact (hasRow_iff_current (hB.closed hnestNext)).mp
            (ihB hle hnext.2.2 houtB hsoundB hgsB hmetB)

end Rows

end StoredGoals

end FShell
