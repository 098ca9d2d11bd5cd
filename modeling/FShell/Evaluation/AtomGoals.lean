import FShell.Evaluation.GoalGroups
import FShell.Evaluation.GoalLiterals

/-!
# The goals of the atoms

`Compute_Test_Goals_Boolean::do_atom` makes the test goals of an atom from the
literals that `build` has stored.  Each edge on which a goal state of the atom is
entered is a goal of its own, unless a single goal is asked for: then the
disjunction of all of them is, which is true from the start if some goal state is
initial.

**Patterns.**  A goal of the whole pattern is a list of atom goals, which is true
when all of them are (`StoredGoals.denoteGoals_same`).
-/

namespace FShell

open Cnf

/-- What the walk over the cover clause finds in the members, with the initial states of the
coverage automaton. -/
structure StoredGoals (ν : Type) [LinearOrder ν] where
  cnf : Cnf
  initial : List TaState
  recorded : Recorded ν
  below : ∀ key, ∀ l ∈ recorded.tgToLitMap.get key, l.Below cnf.noVariables

/-- What a goal of an atom asks for: nothing when a goal state is initial, or else that one of
the states is entered on its edge. -/
structure AtomGoal (ν : Type) where
  initial : Bool
  entries : List (TaState ×ₗ (ν ×ₗ ν))

/-- The goal is met by the events `P`, edges with the states behind them. -/
def AtomGoal.Met {ν : Type} (g : AtomGoal ν) (P : ν ×ₗ ν → TaState → Prop) : Prop :=
  g.initial = true ∨ ∃ key ∈ g.entries, P (ofLex key).2 (ofLex key).1

namespace StoredGoals

variable {ν : Type} [LinearOrder ν] (goals : StoredGoals ν)

/-- The literals that are stored under a state and an edge. -/
def literals (key : TaState ×ₗ (ν ×ₗ ν)) : List Literal :=
  (goals.recorded.tgToLitMap.get key).toList

/-- `selected`, with the edges of each entry. -/
def selected (tgStates : List TaState) : List (TaState ×ₗ (ν ×ₗ ν)) :=
  tgStates.flatMap fun s => goals.recorded.tgToLitMap.keys.toList.filter fun k => (ofLex k).1 = s

/-- `has_initial`. -/
def hasInitial (tgStates : List TaState) : Bool := tgStates.any fun s => s ∈ goals.initial

/-- The loops over `selected`: the goals that are inserted, and `set` at the end. -/
def atomLoop (makeSingle : Bool) : List (TaState ×ₗ (ν ×ₗ ν)) → List Literal → Cnf →
    (List (Literal × List Literal) × List Literal) × Cnf
  | [], set, c => (([], set), c)
  | key :: rest, set, c =>
      let set := set ++ goals.literals key
      if !makeSingle && !set.isEmpty then
        let (tg, c) := c.lorVector set
        let ((entries, last), c) := atomLoop makeSingle rest [] c
        (((tg, set) :: entries, last), c)
      else atomLoop makeSingle rest set c

/-- `do_atom(n, epsilon_permitted, make_single)`. -/
def doAtom (tgStates : List TaState) (makeSingle : Bool) (c : Cnf) :
    List (Literal × List Literal) × Cnf :=
  let set := if goals.hasInitial tgStates then [Literal.const true] else []
  let ((entries, set), c) := goals.atomLoop makeSingle (goals.selected tgStates) set c
  if set.isEmpty then (entries, c)
  else
    let (tg, c) := c.lorVector set
    (entries ++ [(tg, set)], c)

/-! ## What the goals ask for -/

/-- The goals of an atom. -/
def atomGoals (tgStates : List TaState) (makeSingle : Bool) : List (AtomGoal ν) :=
  match makeSingle, goals.selected tgStates with
  | true, selected =>
      if goals.hasInitial tgStates || !selected.isEmpty then
        [⟨goals.hasInitial tgStates, selected⟩]
      else []
  | false, [] => if goals.hasInitial tgStates then [⟨true, []⟩] else []
  | false, key :: rest => ⟨goals.hasInitial tgStates, [key]⟩ :: rest.map fun k => ⟨false, [k]⟩

/-- The literals that a goal is the disjunction of. -/
def goalSet (g : AtomGoal ν) : List Literal :=
  (if g.initial then [Literal.const true] else []) ++ g.entries.flatMap goals.literals

/-- The goal as a Boolean function. -/
def holds (g : AtomGoal ν) (v : Assignment) : Bool := (goals.goalSet g).any (Literal.eval v)

/-- The goals of a coverage pattern: lists of goals of its atoms. -/
def patternGoals {F P : Type} {cp : CoveragePattern F P} :
    TestGoalStates cp → List (List (AtomGoal ν))
  | @TestGoalStates.atom _ _ a tgStates =>
      (goals.atomGoals tgStates (makeSingle a)).map fun g => [g]
  | .quote tgStates => (goals.atomGoals tgStates true).map fun g => [g]
  | .cpAlternative _ childA childB => patternGoals childA ++ patternGoals childB
  | .cpConcat _ childA childB =>
      (patternGoals childA).flatMap fun gs => (patternGoals childB).map (gs ++ ·)

/-! ## The loop over the entries -/

variable {goals} {c : Cnf} {tgStates : List TaState} {makeSingle : Bool}

theorem mem_selected {key : TaState ×ₗ (ν ×ₗ ν)} :
    key ∈ goals.selected tgStates ↔ (ofLex key).1 ∈ tgStates ∧ goals.literals key ≠ [] := by
  have hkeys : key ∈ goals.recorded.tgToLitMap.keys ↔ goals.literals key ≠ [] := by
    rw [SetMap.mem_keys]
    constructor
    · rintro ⟨l, hl⟩
      exact List.ne_nil_of_mem hl
    · exact fun h => List.exists_mem_of_ne_nil _ h
  simp only [selected, List.mem_flatMap, List.mem_filter, SortedSet.mem_toList, hkeys,
    decide_eq_true_eq]
  constructor
  · rintro ⟨s, hs, hne, rfl⟩
    exact ⟨hs, hne⟩
  · rintro ⟨hs, hne⟩
    exact ⟨_, hs, hne, rfl⟩

theorem literals_below {key : TaState ×ₗ (ν ×ₗ ν)} (hc : goals.cnf.noVariables ≤ c.noVariables) :
    ∀ l ∈ goals.literals key, l.Below c.noVariables :=
  fun l hl => (goals.below key l hl).mono hc

theorem goalSet_below (g : AtomGoal ν) (hc : goals.cnf.noVariables ≤ c.noVariables) :
    ∀ l ∈ goals.goalSet g, l.Below c.noVariables := by
  intro l hl
  rcases List.mem_append.mp hl with hl | hl
  · split_ifs at hl
    · rw [List.mem_singleton.mp hl]
      exact Literal.below_const _ _
    · cases hl
  · obtain ⟨key, -, hl⟩ := List.mem_flatMap.mp hl
    exact literals_below hc l hl

/-- A disjunction with the constant `true` is constant. -/
theorem lorVector_true {bv : List Literal} (h : .const true ∈ bv) :
    (c.lorVector bv).1 = .const true := by
  unfold lorVector
  split
  · cases h
  · exact (List.mem_singleton.mp h).symm
  · rename_i a b
    rcases List.mem_cons.mp h with rfl | h
    · simp [lor, Literal.isFalse, Literal.isTrue]
    · rw [← List.mem_singleton.mp h]
      unfold lor
      split_ifs with ha hb htrue
      · rfl
      · cases hb
      · exact Literal.isTrue_iff.mp htrue
      · rfl
      · cases ‹¬(Literal.const true).isTrue = true› rfl
      · cases ‹¬(Literal.const true).isTrue = true› rfl
  · rw [if_pos (List.any_eq_true.mpr ⟨_, h, rfl⟩)]

variable (goals) in
/-- The literals that are inserted are names of the goals. -/
structure Inserts (c : Cnf) (gs : List (AtomGoal ν)) (entries : List (Literal × List Literal))
    (d : Cnf) : Prop where
  defines : Defines c d
  below : ∀ entry ∈ entries, entry.1.Below d.noVariables
  named : List.Forall₂ (fun entry g => entry.2 = goals.goalSet g ∧
    (g.initial = true → entry.1 = .const true) ∧
    ∀ v, d.Models v → entry.1.eval v = goals.holds g v) entries gs

theorem Inserts.nil (c : Cnf) : goals.Inserts c [] [] c :=
  ⟨Defines.refl c, by simp, List.Forall₂.nil⟩

/-- A goal, and those after it. -/
theorem Inserts.cons {g : AtomGoal ν} {gs : List (AtomGoal ν)}
    {entries : List (Literal × List Literal)} {d : Cnf}
    (hc : goals.cnf.noVariables ≤ c.noVariables)
    (h : goals.Inserts (c.lorVector (goals.goalSet g)).2 gs entries d) :
    goals.Inserts c (g :: gs) (((c.lorVector (goals.goalSet g)).1, goals.goalSet g) :: entries) d := by
  have hlor := lorVector_names (goalSet_below g hc)
  refine ⟨hlor.defines.trans h.defines, ?_, List.Forall₂.cons ⟨rfl, ?_, ?_⟩ h.named⟩
  · intro entry hentry
    rcases List.mem_cons.mp hentry with rfl | hentry
    · exact hlor.below.mono h.defines.le
    · exact h.below entry hentry
  · intro hinitial
    apply lorVector_true
    simp [goalSet, hinitial]
  · intro v hv
    exact hlor.eval v (h.defines.sound v hv)

/-- A single goal. -/
theorem Inserts.single (g : AtomGoal ν) (hc : goals.cnf.noVariables ≤ c.noVariables) :
    goals.Inserts c [g] [((c.lorVector (goals.goalSet g)).1, goals.goalSet g)]
      (c.lorVector (goals.goalSet g)).2 :=
  Inserts.cons hc (Inserts.nil _)

/-- All literals are collected for a single goal. -/
theorem atomLoop_single (keys : List (TaState ×ₗ (ν ×ₗ ν))) (set : List Literal) (c : Cnf) :
    goals.atomLoop true keys set c = (([], set ++ keys.flatMap goals.literals), c) := by
  induction keys generalizing set with
  | nil => simp [atomLoop]
  | cons key rest ih => simp [atomLoop, ih]

/-- Every entry is a goal of its own, and nothing is left over. -/
theorem atomLoop_each {keys : List (TaState ×ₗ (ν ×ₗ ν))}
    (hkeys : ∀ key ∈ keys, goals.literals key ≠ []) (hc : goals.cnf.noVariables ≤ c.noVariables) :
    ∃ entries d, goals.atomLoop false keys [] c = ((entries, []), d) ∧
      goals.Inserts c (keys.map fun k => ⟨false, [k]⟩) entries d := by
  induction keys generalizing c with
  | nil => exact ⟨[], c, rfl, Inserts.nil c⟩
  | cons key rest ih =>
      have hset : goals.goalSet ⟨false, [key]⟩ = goals.literals key := by simp [goalSet]
      have hle : goals.cnf.noVariables ≤ (c.lorVector (goals.literals key)).2.noVariables :=
        Nat.le_trans hc (lorVector_names (literals_below hc)).defines.le
      obtain ⟨entries, d, hloop, hinserts⟩ :=
        ih (fun k hk => hkeys k (List.mem_cons_of_mem _ hk)) hle
      have hne := hkeys key List.mem_cons_self
      refine ⟨((c.lorVector (goals.literals key)).1, goals.literals key) :: entries, d, ?_, ?_⟩
      · simp [atomLoop, hne, hloop]
      · rw [← hset] at hinserts
        have hcons := Inserts.cons hc hinserts
        rw [hset] at hcons
        exact hcons

/-- **The goals of an atom.** -/
theorem doAtom_inserts (tgStates : List TaState) (makeSingle : Bool)
    (hc : goals.cnf.noVariables ≤ c.noVariables) :
    goals.Inserts c (goals.atomGoals tgStates makeSingle)
      (goals.doAtom tgStates makeSingle c).1 (goals.doAtom tgStates makeSingle c).2 := by
  have hkeys : ∀ key ∈ goals.selected tgStates, goals.literals key ≠ [] :=
    fun key hkey => (mem_selected.mp hkey).2
  unfold doAtom atomGoals
  cases makeSingle with
  | true =>
      have hset : (if goals.hasInitial tgStates then [Literal.const true] else []) ++
          (goals.selected tgStates).flatMap goals.literals =
            goals.goalSet ⟨goals.hasInitial tgStates, goals.selected tgStates⟩ := rfl
      simp only [atomLoop_single, hset]
      have hempty : (goals.goalSet ⟨goals.hasInitial tgStates, goals.selected tgStates⟩).isEmpty =
          !(goals.hasInitial tgStates || !(goals.selected tgStates).isEmpty) := by
        rw [← hset]
        cases hselected : goals.selected tgStates with
        | nil => cases goals.hasInitial tgStates <;> simp
        | cons key rest =>
            have hne := hkeys key (by simp [hselected])
            cases goals.hasInitial tgStates <;> simp [hne]
      by_cases hgoal : (goals.hasInitial tgStates || !(goals.selected tgStates).isEmpty) = true
      · simp only [hempty, hgoal, Bool.not_true, Bool.false_eq_true, if_false, if_true,
          List.nil_append]
        exact Inserts.single _ hc
      · rw [Bool.not_eq_true] at hgoal
        simp only [hempty, hgoal, Bool.not_false, if_true, Bool.false_eq_true, if_false]
        exact Inserts.nil c
  | false =>
      cases hselected : goals.selected tgStates with
      | nil =>
          cases hinitial : goals.hasInitial tgStates with
          | true => exact Inserts.single ⟨true, []⟩ hc
          | false => exact Inserts.nil c
      | cons key rest =>
          rw [hselected] at hkeys
          have hset : (if goals.hasInitial tgStates then [Literal.const true] else []) ++
              goals.literals key = goals.goalSet ⟨goals.hasInitial tgStates, [key]⟩ := by
            simp [goalSet]
          have hne : goals.goalSet ⟨goals.hasInitial tgStates, [key]⟩ ≠ [] := by
            rw [← hset]
            simp [hkeys key List.mem_cons_self]
          have hlor := lorVector_names (goalSet_below ⟨goals.hasInitial tgStates, [key]⟩ hc)
          obtain ⟨entries, d, hloop, hinserts⟩ := atomLoop_each
            (fun k hk => hkeys k (List.mem_cons_of_mem _ hk)) (Nat.le_trans hc hlor.defines.le)
          have hcons := Inserts.cons hc hinserts
          simpa [atomLoop, hset, hne, hloop] using hcons

/-! ## The walk over the cover clause -/

variable (F P : Type)

variable (goals) in
/-- `Compute_Test_Goals_Boolean` as a subclass of `Compute_Test_Goals`. -/
def atomVisitor : AtomVisitor F P where
  cnf := goals.cnf
  doAtom := fun _ tgStates _ makeSingle c => goals.doAtom tgStates makeSingle c
  defines := fun _ tgStates _ makeSingle _ hc => (doAtom_inserts tgStates makeSingle hc).defines
  below := fun _ tgStates _ makeSingle _ hc => (doAtom_inserts tgStates makeSingle hc).below

variable {F P}

variable (goals) in
/-- The goals of a pattern as Boolean functions. -/
def patternFunctions {cp : CoveragePattern F P} (states : TestGoalStates cp) : Set BoolFun :=
  {f | ∃ gs ∈ goals.patternGoals states, f = fun v => gs.all fun g => goals.holds g v}

theorem Inserts.same {gs : List (AtomGoal ν)} {entries : List (Literal × List Literal)} {d : Cnf}
    (h : goals.Inserts c gs entries d) :
    SameOn d (literalsOf (entries.map Prod.fst))
      {f | ∃ g ∈ gs, f = fun v => [g].all fun g => goals.holds g v} := by
  have hnamed := h.named
  clear h
  induction hnamed with
  | nil => apply SameOn.of_subset <;> simp [literalsOf]
  | @cons entry g entries gs hhead _ ih =>
      apply SameOn.of_subset
      · rintro f ⟨l, hl, rfl⟩
        rcases List.mem_cons.mp hl with rfl | hl
        · exact ⟨_, ⟨g, List.mem_cons_self, rfl⟩, by simpa using hhead.2.2⟩
        · obtain ⟨_, ⟨g', hg', rfl⟩, heq⟩ := ih.left _ ⟨l, hl, rfl⟩
          exact ⟨_, ⟨g', List.mem_cons_of_mem _ hg', rfl⟩, heq⟩
      · rintro f ⟨g', hg', rfl⟩
        rcases List.mem_cons.mp hg' with rfl | hg'
        · refine ⟨_, ⟨entry.1, List.mem_cons_self, rfl⟩, ?_⟩
          simpa using fun v hv => (hhead.2.2 v hv).symm
        · obtain ⟨_, ⟨l, hl, rfl⟩, heq⟩ := ih.right _ ⟨g', hg', rfl⟩
          exact ⟨_, ⟨l, List.mem_cons_of_mem _ hl, rfl⟩, fun v hv => (heq v hv).symm⟩

theorem patternFunctions_atom (tgStates : List TaState) (makeSingle : Bool) :
    {f : BoolFun | ∃ gs ∈ (goals.atomGoals tgStates makeSingle).map fun g => [g],
        f = fun v => gs.all fun g => goals.holds g v} =
      {f | ∃ g ∈ goals.atomGoals tgStates makeSingle,
        f = fun v => [g].all fun g => goals.holds g v} := by
  ext f
  simp

theorem patternFunctions_concat {cpA cpB : CoveragePattern F P} (tgStates : List TaState)
    (childA : TestGoalStates cpA) (childB : TestGoalStates cpB) :
    goals.patternFunctions (.cpConcat tgStates childA childB) =
      conj (goals.patternFunctions childA) (goals.patternFunctions childB) := by
  ext f
  constructor
  · rintro ⟨gs, hgs, rfl⟩
    simp only [patternGoals, List.mem_flatMap, List.mem_map] at hgs
    obtain ⟨gsA, hA, gsB, hB, rfl⟩ := hgs
    refine ⟨_, ⟨gsA, hA, rfl⟩, _, ⟨gsB, hB, rfl⟩, ?_⟩
    simp
  · rintro ⟨_, ⟨gsA, hA, rfl⟩, _, ⟨gsB, hB, rfl⟩, rfl⟩
    refine ⟨gsA ++ gsB, ?_, ?_⟩
    · simp only [patternGoals, List.mem_flatMap, List.mem_map]
      exact ⟨gsA, hA, gsB, hB, rfl⟩
    · simp

theorem patternFunctions_alternative {cpA cpB : CoveragePattern F P} (tgStates : List TaState)
    (childA : TestGoalStates cpA) (childB : TestGoalStates cpB) :
    goals.patternFunctions (.cpAlternative tgStates childA childB) =
      goals.patternFunctions childA ∪ goals.patternFunctions childB := by
  ext f
  simp only [patternFunctions, patternGoals, List.mem_append, Set.mem_union, Set.mem_ofPred_eq]
  grind

section Visit

variable (env : AtomVisitor F P)

theorem doAtom_cnf (n : CoveragePattern F P) (tgStates : List TaState)
    (epsilonPermitted makeSingle : Bool) (st : GoalTables) :
    (FShell.doAtom env n tgStates epsilonPermitted makeSingle st).cnf =
      (env.doAtom n tgStates epsilonPermitted makeSingle st.cnf).2 := by
  unfold FShell.doAtom
  dsimp only
  rw [GoalTables.foldl_storeGoal]

/-- The id map lists the combinations of the groups. -/
theorem visitQuery_eq {cover : CoveragePattern F P} (states : TestGoalStates cover) :
    let tables := visitGoals env states (GoalTables.start env.cnf)
    visitQuery env states = some ⟨tables,
      combinations (tables.testGoalGroups.map TestGoals.toList),
      makeSkips tables.testGoalGroups⟩ := by
  intro tables
  have hne : tables.testGoalGroups ≠ [] := by simp [GoalTables.testGoalGroups]
  simp only [visitQuery]
  rw [makeIdMap_eq hne]
  rfl

theorem visitQuery_products {cover : CoveragePattern F P} {states : TestGoalStates cover}
    {out : QueryGoals} (h : visitQuery env states = some out) :
    Defines env.cnf out.tables.cnf ∧
      SameOn out.tables.cnf (conjunctions out.idMap)
        (denoteGoals env states (GoalTables.start env.cnf)) := by
  rw [visitQuery_eq] at h
  cases h
  have hvisit : VisitedGoals env states (GoalTables.start env.cnf)
      (visitGoals env states (GoalTables.start env.cnf)) :=
    visitGoals_spec env states (Nat.le_refl _) rfl
  obtain ⟨opened, hclosed, -, hsame⟩ := hvisit.groups
  refine ⟨hvisit.defines, ?_⟩
  have hgroups : (visitGoals env states (GoalTables.start env.cnf)).testGoalGroups =
      opened ++ [(visitGoals env states (GoalTables.start env.cnf)).testGoals] :=
    congrArg (· ++ [_]) hclosed
  rw [← hgroups] at hsame
  exact hsame

/-- Multiplying out defines literals only. -/
theorem visitGoals_concat_defines {cpA cpB : CoveragePattern F P} (tgStates : List TaState)
    (childA : TestGoalStates cpA) (childB : TestGoalStates cpB) {st : GoalTables}
    (hvars : env.cnf.noVariables ≤ st.cnf.noVariables) (hempty : st.testGoals = TestGoals.empty) :
    Defines st.cnf (visitGoals env childA st).cnf ∧
      Defines (visitGoals env childA st).cnf
        (visitGoals env childB (visitGoals env childA st).nextOperand).cnf ∧
      Defines (visitGoals env childB (visitGoals env childA st).nextOperand).cnf
        (visitGoals env (.cpConcat tgStates childA childB) st).cnf := by
  have hA := visitGoals_spec env childA hvars hempty
  have hnext : (visitGoals env childA st).nextOperand.cnf = (visitGoals env childA st).cnf ∧
      (visitGoals env childA st).nextOperand.testGoals = TestGoals.empty := by
    unfold GoalTables.nextOperand
    split_ifs <;> exact ⟨rfl, rfl⟩
  have hB := visitGoals_spec env childB
    (hnext.1.symm ▸ Nat.le_trans hvars hA.defines.le) hnext.2
  have hdefines : Defines (visitGoals env childA st).cnf
      (visitGoals env childB (visitGoals env childA st).nextOperand).cnf := hnext.1 ▸ hB.defines
  refine ⟨hA.defines, hdefines, ?_⟩
  rw [visitGoals]
  change Defines _ (if _ then _ else _ : GoalTables).cnf
  split_ifs
  · have hpairs := (foldl_landPair
      ((visitGoals env childA st).testGoals.toList ×ˢ
        (visitGoals env childB (visitGoals env childA st).nextOperand).testGoals.toList)
      { visitGoals env childB (visitGoals env childA st).nextOperand with
        testGoals := TestGoals.empty }
      (fun pair hpair => ⟨(hA.below _ (List.mem_product.mp hpair).1).mono hdefines.le,
        hB.below _ (List.mem_product.mp hpair).2⟩)
      (fun l hl => absurd hl List.not_mem_nil)).1
    exact hpairs
  · exact Defines.refl _

end Visit

/-- **The goals of a pattern are the conjunctions of goals of its atoms.** -/
theorem denoteGoals_same {cp : CoveragePattern F P} (states : TestGoalStates cp) {st : GoalTables}
    (hvars : goals.cnf.noVariables ≤ st.cnf.noVariables) (hempty : st.testGoals = TestGoals.empty) :
    SameOn (visitGoals (goals.atomVisitor F P) states st).cnf
      (denoteGoals (goals.atomVisitor F P) states st) (goals.patternFunctions states) := by
  induction states generalizing st with
  | @atom a tgStates =>
      have hsame := (doAtom_inserts (c := st.cnf) tgStates (makeSingle a) hvars).same
      rw [visitGoals, doAtom_cnf]
      rw [← patternFunctions_atom] at hsame
      exact hsame
  | @quote pp tgStates =>
      have hsame := (doAtom_inserts (c := st.cnf) tgStates true hvars).same
      rw [visitGoals, doAtom_cnf]
      rw [← patternFunctions_atom] at hsame
      exact hsame
  | cpAlternative tgStates childA childB ihA ihB =>
      let env := goals.atomVisitor F P
      let inner : GoalTables := { st with altNesting := st.altNesting + 1 }
      let outA : GoalTables := { visitGoals env childA inner with testGoals := TestGoals.empty }
      have hA : VisitedGoals env childA inner (visitGoals env childA inner) :=
        visitGoals_spec env childA hvars hempty
      have hle : goals.cnf.noVariables ≤ outA.cnf.noVariables := Nat.le_trans hvars hA.defines.le
      have hB : VisitedGoals env childB outA (visitGoals env childB outA) :=
        visitGoals_spec env childB hle rfl
      have hsameA : SameOn (visitGoals env childA inner).cnf (denoteGoals env childA inner)
          (goals.patternFunctions childA) := ihA hvars hempty
      rw [visitGoals, patternFunctions_alternative]
      exact (hsameA.mono hB.defines).union (ihB hle rfl)
  | cpConcat tgStates childA childB ihA ihB =>
      obtain ⟨hA, hB, hland⟩ :=
        visitGoals_concat_defines (goals.atomVisitor F P) tgStates childA childB hvars hempty
      have hnext : (visitGoals (goals.atomVisitor F P) childA st).nextOperand.cnf =
          (visitGoals (goals.atomVisitor F P) childA st).cnf ∧
          (visitGoals (goals.atomVisitor F P) childA st).nextOperand.testGoals =
            TestGoals.empty := by
        unfold GoalTables.nextOperand
        split_ifs <;> exact ⟨rfl, rfl⟩
      have hsameB := ihB (hnext.1.symm ▸ Nat.le_trans hvars hA.le) hnext.2
      rw [denoteGoals, patternFunctions_concat]
      exact (((ihA hvars hempty).mono hB).conj hsameB).mono hland

/-- The entries of the goals of an atom have literals. -/
theorem entries_selected {g : AtomGoal ν} (hg : g ∈ goals.atomGoals tgStates makeSingle) :
    ∀ key ∈ g.entries, key ∈ goals.selected tgStates := by
  intro key hkey
  unfold atomGoals at hg
  split at hg
  · split_ifs at hg
    · rw [List.mem_singleton.mp hg] at hkey
      exact hkey
    · cases hg
  · split_ifs at hg
    · rw [List.mem_singleton.mp hg] at hkey
      cases hkey
    · cases hg
  · rename_i first rest heq
    rw [heq]
    rcases List.mem_cons.mp hg with rfl | hg
    · exact List.mem_singleton.mp hkey ▸ List.mem_cons_self
    · obtain ⟨k, hk, rfl⟩ := List.mem_map.mp hg
      exact List.mem_cons_of_mem _ (List.mem_singleton.mp hkey ▸ hk)

theorem literals_of_patternGoals {cp : CoveragePattern F P} {states : TestGoalStates cp}
    {gs : List (AtomGoal ν)} (hgs : gs ∈ goals.patternGoals states) :
    ∀ g ∈ gs, ∀ key ∈ g.entries, goals.literals key ≠ [] := by
  induction states generalizing gs with
  | atom tgStates =>
      obtain ⟨g', hg', rfl⟩ := List.mem_map.mp hgs
      intro g hg key hkey
      rw [List.mem_singleton.mp hg] at hkey
      exact (mem_selected.mp (entries_selected hg' key hkey)).2
  | quote tgStates =>
      obtain ⟨g', hg', rfl⟩ := List.mem_map.mp hgs
      intro g hg key hkey
      rw [List.mem_singleton.mp hg] at hkey
      exact (mem_selected.mp (entries_selected hg' key hkey)).2
  | cpAlternative tgStates childA childB ihA ihB =>
      exact (List.mem_append.mp hgs).elim ihA ihB
  | cpConcat tgStates childA childB ihA ihB =>
      obtain ⟨gsA, hA, hgs⟩ := List.mem_flatMap.mp hgs
      obtain ⟨gsB, hB, rfl⟩ := List.mem_map.mp hgs
      intro g hg
      rcases List.mem_append.mp hg with hg | hg
      · exact ihA hA g hg
      · exact ihB hB g hg

theorem holds_iff {g : AtomGoal ν} {v : Assignment} :
    goals.holds g v = true ↔
      g.initial = true ∨ ∃ key ∈ g.entries, ∃ l ∈ goals.literals key, l.eval v = true := by
  simp only [holds, goalSet, List.any_append, Bool.or_eq_true, List.any_eq_true, List.mem_flatMap]
  cases g.initial
  · simp only [Bool.false_eq_true, if_false, false_or]
    grind
  · simp

end StoredGoals

end FShell
