import FShell.Solvers.BvUtils
import FShell.TcGeneration.ConstraintStrengthening

/-!
# Minimisation of a test suite

`Test_Suite_Minimization::minimize` gives every test case a variable, demands
of every goal the disjunction of the test cases that cover it, adds the
variables up with a tree of adders and asks a solver for sums below a bound
that is tightened to the sum of each answer.  The bound is a vector of fresh
variables whose signs are flipped so that assuming all of them assumes the
number.
-/

namespace FShell

/-! ## The encoding -/

/-- One goal of a test case: the variable of the test case goes to the map, or
into the disjunction that is there. -/
def coverGoal (tcVar : Literal) (st : List (Nat × Literal) × Cnf) (id : Nat) :
    List (Nat × Literal) × Cnf :=
  match st.1.lookup id with
  | none => (st.1.orderedInsert (fun a b => a.1 ≤ b.1) (id, tcVar), st.2)
  | some l =>
      let o := st.2.lor l tcVar
      (st.1.map fun entry => if entry.1 = id then (id, o.1) else entry, o.2)

/-- The variables of `minimize` in the loop over the suite; an iterator is a
position. -/
structure SuiteEncoding where
  cnf : Cnf
  setCover : List (Nat × Literal)
  tcLitMap : List (Literal × Nat)
  sumOperands : List (List Literal)

/-- One round of the loop over the suite. -/
def encodeTestCase (st : SuiteEncoding) (tc : TestCase × Nat) : SuiteEncoding :=
  let tcVar := st.cnf.newVariable
  let covered := tc.1.goals.foldl (coverGoal tcVar.1) (st.setCover, tcVar.2)
  { cnf := covered.2
    setCover := covered.1
    tcLitMap := if st.tcLitMap.any fun entry => entry.1 = tcVar.1 then st.tcLitMap
      else st.tcLitMap ++ [(tcVar.1, tc.2)]
    sumOperands := st.sumOperands ++ [[tcVar.1]] }

def encodeSuite (suite : List TestCase) : SuiteEncoding :=
  suite.zipIdx.foldl encodeTestCase ⟨Cnf.empty, [], [], []⟩

section Adders

variable (u : BvUtils)

/-- One round of the fan-in adder: the operands are added two by two. -/
def addPairs (newWidth : Nat) (c : Cnf) : List (List Literal) → List (List Literal) × Cnf
  | op0 :: op1 :: rest =>
      let sum := u.add c (zeroExtension op0 newWidth) (zeroExtension op1 newWidth)
      let next := addPairs newWidth sum.2 rest
      (sum.1 :: next.1, next.2)
  | [op] => ([zeroExtension op newWidth], c)
  | [] => ([], c)

theorem length_addPairs (newWidth : Nat) (c : Cnf) (ops : List (List Literal)) :
    (addPairs u newWidth c ops).1.length = (ops.length + 1) / 2 := by
  fun_induction addPairs u newWidth c ops with
  | case1 c op0 op1 rest sum next ih =>
      simp only [List.length_cons]
      rw [ih]
      omega
  | case2 c op => simp
  | case3 c => simp

/-- The fan-in adder: rounds until one operand is left. -/
def fanInAdder (c : Cnf) (ops : List (List Literal)) : List Literal × Cnf :=
  if 1 < ops.length then
    let next := addPairs u ((ops.headD []).length + 1) c ops
    fanInAdder next.2 next.1
  else (ops.headD [], c)
termination_by ops.length
decreasing_by
  rw [length_addPairs]
  omega

/-- Fresh variables, one for each bit. -/
def freshVector (c : Cnf) : Nat → List Literal × Cnf
  | 0 => ([], c)
  | width + 1 =>
      let bit := c.newVariable
      let rest := freshVector bit.2 width
      (bit.1 :: rest.1, rest.2)

/-- What the loop of `minimize` works with. -/
structure MinimizationProblem where
  cnf : Cnf
  sum : List Literal
  upperBound : List Literal

/-- The sum of the operands, and fresh variables for a bound above it. -/
def boundSum (c : Cnf) (ops : List (List Literal)) : MinimizationProblem :=
  let sum := fanInAdder u c ops
  let upperBound := freshVector sum.2 sum.1.length
  let less := u.unsignedLessThan upperBound.2 sum.1 upperBound.1
  { cnf := less.2.lcnf [less.1]
    sum := sum.1
    upperBound := upperBound.1 }

/-- Each test goal must be covered by at least one test case. -/
def SuiteEncoding.covering (st : SuiteEncoding) : Cnf :=
  st.cnf.lcnfAll (st.setCover.map fun entry => [entry.2])

/-- `minimize`, up to the copy for the solver. -/
def encodeProblem (st : SuiteEncoding) : MinimizationProblem :=
  boundSum u st.covering st.sumOperands

end Adders

/-! ## The search -/

/-- `literalt::sign`. -/
def Literal.sign : Literal → Bool
  | .const value => value
  | .var _ sign => sign

/-- `literalt::operator^=`. -/
def Literal.flipIf (l : Literal) (b : Bool) : Literal :=
  if b then l.neg else l

/-- The literals of the bound with the signs that assume a number. -/
def assumeBound (upperBound boundConstant : List Literal) : List Literal :=
  List.zipWith (fun l c => l.flipIf (l.sign != c.isFalse)) upperBound boundConstant

/-- The loop of `minimize`, for `fuel` rounds at most: the number of test cases
and the last assignment. -/
def tighten (solver : SatSolver) (p : MinimizationProblem) :
    Nat → Nat → List Literal → Nat → Option Assignment → Option (Nat × Option Assignment)
  | 0, _, _, _, _ => none
  | fuel + 1, call, upperBound, numTcs, best =>
      if numTcs > 1 then
        let upperBound := assumeBound upperBound (buildConstant numTcs upperBound.length)
        match solver.solve call p.cnf.copyTo upperBound with
        | none => some (numTcs, best)
        | some v => tighten solver p fuel (call + 1) upperBound (bvValue v p.sum) (some v)
      else some (numTcs, best)

/-- The final loop: the test cases whose literal is false are erased. -/
def eraseFalse (tcLitMap : List (Literal × Nat)) (best : Option Assignment)
    (suite : List TestCase) : List TestCase :=
  (suite.zipIdx.filter fun tc => !tcLitMap.any fun entry =>
    entry.2 = tc.2 && best.elim false fun v => !entry.1.eval v).map Prod.fst

/-- `minimize`, with at most `fuel` rounds of the loop. -/
def minimize (u : BvUtils) (solver : SatSolver) (fuel : Nat) (suite : List TestCase) :
    Option (List TestCase) :=
  if suite.length ≤ 1 then some suite
  else
    let st := encodeSuite suite
    let p := encodeProblem u st
    (tighten solver p fuel 0 p.upperBound suite.length none).map fun found =>
      if found.1 < suite.length then eraseFalse st.tcLitMap found.2 suite else suite

end FShell
