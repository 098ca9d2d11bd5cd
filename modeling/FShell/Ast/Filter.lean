import Mathlib

/-!
# Filter expressions

The filter nodes of `fql/ast`.  As with patterns, equality of expressions
stands for equality of the node pointers.
-/

namespace FShell

/-- `Filter_Function`, with the arguments that its `filter_function_t` uses.
The types of `F_STMTTYPE` are the bits of `stmt_type_t`. -/
inductive FilterFunction
  | fIdentity
  | fFile (s : String)
  | fLine (n : Int)
  | fColumn (n : Int)
  | fFunc (s : String)
  | fLabel (s : String)
  | fCall (s : String)
  | fCalls
  | fEntry (s : String)
  | fExit (s : String)
  | fExpr (s : String)
  | fRegexp (s : String)
  | fBasicblockentry
  | fConditionedge
  | fDecisionedge
  | fConditiongraph
  | fDef (s : String)
  | fUse (s : String)
  | fStmttype (types : Nat)
  deriving DecidableEq

/-- `Filter_Expr`. -/
inductive FilterExpr
  | filterFunction (f : FilterFunction)
  | filterCompose (filterExprA filterExprB : FilterExpr)
  | filterIntersection (filterExprA filterExprB : FilterExpr)
  | filterSetminus (filterExprA filterExprB : FilterExpr)
  | filterUnion (filterExprA filterExprB : FilterExpr)
  deriving DecidableEq

/-- The bits of `stmt_type_t`, and how they are written. -/
def stmtTypes : List (Nat × String) :=
  [(0, "IF"), (1, "FOR"), (2, "WHILE"), (3, "SWITCH"), (4, "?:"), (5, "ASSERT")]

/-- The edges that an expression stands for once every filter function has a
set of them. -/
def FilterExpr.edgeSet {ε : Type} (primitive : FilterFunction → Set ε) : FilterExpr → Set ε
  | filterFunction f => primitive f
  | filterCompose a b => a.edgeSet primitive ∩ b.edgeSet primitive
  | filterIntersection a b => a.edgeSet primitive ∩ b.edgeSet primitive
  | filterSetminus a b => a.edgeSet primitive \ b.edgeSet primitive
  | filterUnion a b => a.edgeSet primitive ∪ b.edgeSet primitive

/-- The expression and all below it. -/
def FilterExpr.subexpressions : FilterExpr → List FilterExpr
  | filterFunction f => [filterFunction f]
  | filterCompose a b => filterCompose a b :: (a.subexpressions ++ b.subexpressions)
  | filterIntersection a b => filterIntersection a b :: (a.subexpressions ++ b.subexpressions)
  | filterSetminus a b => filterSetminus a b :: (a.subexpressions ++ b.subexpressions)
  | filterUnion a b => filterUnion a b :: (a.subexpressions ++ b.subexpressions)

end FShell
