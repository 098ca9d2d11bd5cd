import FShell.Ast.Pattern
import FShell.Concepts.TraceAutomaton
import FShell.Solvers.Cnf

/-!
# Computing test goals

`Compute_Test_Goals` walks the cover clause once the program and the
automata are encoded.  A concatenation outside every alternative opens a
new group of goals, one inside an alternative multiplies its operands out
into conjunctions, and the id map lists the combinations of one goal per
group.
-/

namespace FShell

/-- `test_goals_t`, a set of literals, in the order of its iterators. -/
structure TestGoals where
  toList : List Literal
  sorted : toList.Pairwise fun a b => a.before b = true

namespace TestGoals

def empty : TestGoals := ⟨[], List.Pairwise.nil⟩

/-- The position of `l` among sorted literals. -/
def insertList (l : Literal) : List Literal → List Literal
  | [] => [l]
  | m :: rest =>
      if l = m then m :: rest
      else if l.before m then l :: m :: rest
      else m :: insertList l rest

/-- Inserting brings one literal. -/
theorem mem_insertList {l k : Literal} {lits : List Literal} :
    k ∈ insertList l lits ↔ k = l ∨ k ∈ lits := by
  induction lits with
  | nil => simp [insertList]
  | cons m rest ih =>
      rw [insertList]
      split_ifs <;> grind

/-- Inserting keeps the order. -/
theorem insertList_sorted {l : Literal} {lits : List Literal}
    (h : lits.Pairwise fun a b => a.before b = true) :
    (insertList l lits).Pairwise fun a b => a.before b = true := by
  induction lits with
  | nil => exact List.pairwise_singleton _ l
  | cons m rest ih =>
      rw [List.pairwise_cons] at h
      rw [insertList]
      split_ifs with heq hlt
      · exact List.pairwise_cons.mpr h
      · rw [List.pairwise_cons]
        refine ⟨?_, List.pairwise_cons.mpr h⟩
        intro k hk
        rcases List.mem_cons.mp hk with rfl | hk
        · exact hlt
        · exact Literal.before_trans hlt (h.1 k hk)
      · rw [List.pairwise_cons]
        refine ⟨?_, ih h.2⟩
        intro k hk
        rcases mem_insertList.mp hk with rfl | hk
        · have htotal := Literal.before_trichotomous k m
          simpa [heq, hlt] using htotal
        · exact h.1 k hk

def insert (goals : TestGoals) (l : Literal) : TestGoals :=
  ⟨insertList l goals.toList, insertList_sorted goals.sorted⟩

/-- `insert(lits.begin(), lits.end())`. -/
def insertAll (goals : TestGoals) (lits : List Literal) : TestGoals := lits.foldl insert goals

/-- A set has no literal twice. -/
theorem nodup (goals : TestGoals) : goals.toList.Nodup := by
  apply goals.sorted.imp
  intro a b hab heq
  rw [heq, Literal.before_irrefl] at hab
  cases hab

/-- The empty set has no literals. -/
@[simp] theorem toList_empty : empty.toList = [] := rfl

/-- The literals after `insert`. -/
@[simp] theorem mem_insert {goals : TestGoals} {l k : Literal} :
    k ∈ (goals.insert l).toList ↔ k = l ∨ k ∈ goals.toList := mem_insertList

/-- The literals after `insert(first, last)`. -/
@[simp] theorem mem_insertAll {goals : TestGoals} {lits : List Literal} {k : Literal} :
    k ∈ (goals.insertAll lits).toList ↔ k ∈ lits ∨ k ∈ goals.toList := by
  induction lits generalizing goals with
  | nil => simp [insertAll]
  | cons m rest ih =>
      have hrest : k ∈ ((goals.insert m).insertAll rest).toList ↔
          k ∈ rest ∨ k ∈ (goals.insert m).toList := ih
      rw [mem_insert] at hrest
      rw [List.mem_cons, or_assoc, or_left_comm, ← hrest]
      rfl

end TestGoals

/-- `Test_Goal_States`.  The pattern `m_cp` is an index, so that the children
are always those of the node that is visited. -/
inductive TestGoalStates {F P : Type} : CoveragePattern F P → Type
  | atom {a : EcpAtom F P} (tgStates : List TaState) : TestGoalStates (.atom a)
  | quote {pp : PathPattern F P} (tgStates : List TaState) : TestGoalStates (.quote pp)
  | cpAlternative {cpA cpB : CoveragePattern F P} (tgStates : List TaState)
      (childA : TestGoalStates cpA) (childB : TestGoalStates cpB) :
      TestGoalStates (.cpAlternative cpA cpB)
  | cpConcat {cpA cpB : CoveragePattern F P} (tgStates : List TaState)
      (childA : TestGoalStates cpA) (childB : TestGoalStates cpB) :
      TestGoalStates (.cpConcat cpA cpB)

/-- The virtual member `do_atom` of a subclass.  From the node, its test-goal
states and the flags `epsilon_permitted` and `make_single` it computes the
literals to insert, each with the literals it is the disjunction of.  Those
are literals of `cnf`, the clauses of the encoded program and automata, and
only `lor` adds to the clauses. -/
structure AtomVisitor (F P : Type) where
  cnf : Cnf
  doAtom : CoveragePattern F P → List TaState → Bool → Bool → Cnf →
    List (Literal × List Literal) × Cnf
  defines : ∀ n tgStates epsilonPermitted makeSingle c, cnf.noVariables ≤ c.noVariables →
    Cnf.Defines c (doAtom n tgStates epsilonPermitted makeSingle c).2
  below : ∀ n tgStates epsilonPermitted makeSingle c, cnf.noVariables ≤ c.noVariables →
    ∀ entry ∈ (doAtom n tgStates epsilonPermitted makeSingle c).1,
      entry.1.Below (doAtom n tgStates epsilonPermitted makeSingle c).2.noVariables

/-- The members that the walk changes.  `m_test_goals` points at the last of
the `m_test_goal_groups`, which is kept apart from the ones before it. -/
structure GoalTables where
  cnf : Cnf
  closedGroups : List TestGoals
  testGoals : TestGoals
  altNesting : Nat
  andMap : List (Literal × Literal × Literal)
  reverseAndMap : List (Literal × Literal × Literal)
  reverseOrMap : List (Literal × Literal)

namespace GoalTables

/-- The members as `do_query` leaves them, and the first group. -/
def start (cnf : Cnf) : GoalTables := ⟨cnf, [], TestGoals.empty, 0, [], [], []⟩

/-- `m_test_goal_groups`. -/
def testGoalGroups (st : GoalTables) : List TestGoals := st.closedGroups ++ [st.testGoals]

/-- What happens between the operands of a concatenation: the goals are those
of a new group, or they are swapped out inside an alternative. -/
def nextOperand (st : GoalTables) : GoalTables :=
  if st.altNesting = 0 then
    { st with closedGroups := st.closedGroups ++ [st.testGoals], testGoals := TestGoals.empty }
  else { st with testGoals := TestGoals.empty }

/-- Inserting the goal `tg`, and the entries of `m_reverse_or_map` that
`store_mapping` makes for the literals of `set`. -/
def storeGoal (st : GoalTables) (entry : Literal × List Literal) : GoalTables :=
  { st with
    testGoals := st.testGoals.insert entry.1
    reverseOrMap := entry.2.foldl (fun orMap l => orMap.insert (l, entry.1)) st.reverseOrMap }

/-- `m_and_map.insert(make_pair(sg, make_pair(a, b)))`: an entry that is there
stays. -/
def insertAnd (st : GoalTables) (sg a b : Literal) : GoalTables :=
  if st.andMap.any (·.1 = sg) then st
  else { st with andMap := st.andMap ++ [(sg, a, b)] }

/-- One round of the inner loop of `visit(CP_Concat)`. -/
def landPair (st : GoalTables) (pair : Literal × Literal) : GoalTables :=
  let (sg, cnf) := st.cnf.land pair.1 pair.2
  let st := { st with cnf := cnf }
  let st := if pair.1.isConstant || pair.2.isConstant then st else st.insertAnd sg pair.1 pair.2
  { st with
    reverseAndMap :=
      (st.reverseAndMap.insert (pair.1, sg, pair.2)).insert (pair.2, sg, pair.1)
    testGoals := st.testGoals.insert sg }

/-- Both loops of `visit(CP_Concat)`. -/
def landAll (st : GoalTables) (backup backup2 : TestGoals) : GoalTables :=
  (backup.toList ×ˢ backup2.toList).foldl landPair st

/-- Inserting goals changes the current group and `m_reverse_or_map` only. -/
theorem foldl_storeGoal (entries : List (Literal × List Literal)) (st : GoalTables) :
    entries.foldl storeGoal st =
      { st with
        testGoals := st.testGoals.insertAll (entries.map Prod.fst)
        reverseOrMap := (entries.foldl storeGoal st).reverseOrMap } := by
  induction entries generalizing st with
  | nil => rfl
  | cons entry rest ih =>
      rw [List.foldl_cons, ih]
      rfl

/-- A pair brings the gate of its conjunction. -/
@[simp] theorem landPair_cnf (st : GoalTables) (pair : Literal × Literal) :
    (st.landPair pair).cnf = (st.cnf.land pair.1 pair.2).2 := by
  unfold landPair insertAnd
  dsimp only
  split_ifs <;> rfl

/-- A pair closes no group. -/
@[simp] theorem landPair_closedGroups (st : GoalTables) (pair : Literal × Literal) :
    (st.landPair pair).closedGroups = st.closedGroups := by
  unfold landPair insertAnd
  dsimp only
  split_ifs <;> rfl

/-- A pair leaves the nesting alone. -/
@[simp] theorem landPair_altNesting (st : GoalTables) (pair : Literal × Literal) :
    (st.landPair pair).altNesting = st.altNesting := by
  unfold landPair insertAnd
  dsimp only
  split_ifs <;> rfl

/-- A pair brings its conjunction as a goal. -/
@[simp] theorem landPair_testGoals (st : GoalTables) (pair : Literal × Literal) :
    (st.landPair pair).testGoals = st.testGoals.insert (st.cnf.land pair.1 pair.2).1 := by
  unfold landPair insertAnd
  dsimp only
  split_ifs <;> rfl

end GoalTables

section Visitor

variable {F P : Type} (env : AtomVisitor F P)

/-- `do_atom(n, epsilon_permitted, make_single)`. -/
def doAtom (n : CoveragePattern F P) (tgStates : List TaState)
    (epsilonPermitted makeSingle : Bool) (st : GoalTables) : GoalTables :=
  let (entries, cnf) := env.doAtom n tgStates epsilonPermitted makeSingle st.cnf
  entries.foldl GoalTables.storeGoal { st with cnf := cnf }

/-- The flag `make_single` that the visit of an atom passes. -/
def makeSingle : EcpAtom F P → Bool
  | .edgecov _ => false
  | .nodecov _ => false
  | .pathcov _ _ => false
  | .predicate _ => true

/-- The visits of coverage patterns. -/
def visitGoals {cp : CoveragePattern F P} (states : TestGoalStates cp) (st : GoalTables) :
    GoalTables :=
  match states with
  | @TestGoalStates.atom _ _ a tgStates => doAtom env (.atom a) tgStates false (makeSingle a) st
  | @TestGoalStates.quote _ _ pp tgStates => doAtom env (.quote pp) tgStates true true st
  | .cpAlternative _ childA childB =>
      let st := { st with altNesting := st.altNesting + 1 }
      let st := visitGoals childA st
      let backup := st.testGoals
      let st := visitGoals childB { st with testGoals := TestGoals.empty }
      { st with
        testGoals := st.testGoals.insertAll backup.toList
        altNesting := st.altNesting - 1 }
  | .cpConcat _ childA childB =>
      let st := visitGoals childA st
      let backup := st.testGoals
      let st := visitGoals childB st.nextOperand
      if st.altNesting ≠ 0 then
        { st with testGoals := TestGoals.empty }.landAll backup st.testGoals
      else st

end Visitor

end FShell
