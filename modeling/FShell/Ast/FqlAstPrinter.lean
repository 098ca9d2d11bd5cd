import FShell.Ast.Filter
import FShell.Ast.Pattern

/-!
# Printing patterns

`FQL_AST_Printer`: the characters that it writes to its stream.
-/

namespace FShell

/-- `m_os << n` for an `int`. -/
def printInt (n : Int) : List Char :=
  if n < 0 then '-' :: Nat.toDigits 10 n.natAbs else Nat.toDigits 10 n.natAbs

/-- A filter function with an argument. -/
def printCall (name : String) (arg : List Char) : List Char :=
  name.toList ++ '(' :: (arg ++ [')'])

/-- An argument between single quotes. -/
def quoted (s : String) : List Char := '\'' :: (s.toList ++ ['\''])

/-- The loop over the bits of `types`. -/
def printStmttypes (types : Nat) : List Char :=
  [','].intercalate ((stmtTypes.filter fun t => types.testBit t.1).map fun t => t.2.toList)

/-- `visit(Filter_Function const*)`. -/
def FilterFunction.print : FilterFunction → List Char
  | fIdentity => "ID".toList
  | fFile s => printCall "@FILE" (quoted s)
  | fLine n => printCall "@LINE" (printInt n)
  | fColumn n => printCall "@COLUMN" (printInt n)
  | fFunc s => printCall "@FUNC" s.toList
  | fLabel s => printCall "@LABEL" s.toList
  | fCall s => printCall "@CALL" s.toList
  | fCalls => "@CALLS".toList
  | fEntry s => printCall "@ENTRY" s.toList
  | fExit s => printCall "@EXIT" s.toList
  | fExpr s => printCall "@EXPR" (quoted s)
  | fRegexp s => printCall "@REGEXP" (quoted s)
  | fBasicblockentry => "@BASICBLOCKENTRY".toList
  | fConditionedge => "@CONDITIONEDGE".toList
  | fDecisionedge => "@DECISIONEDGE".toList
  | fConditiongraph => "@CONDITIONGRAPH".toList
  | fDef s => printCall "@DEF" s.toList
  | fUse s => printCall "@USE" s.toList
  | fStmttype types => printCall "@STMTTYPE" (printStmttypes types)

/-- Two printed operands between parentheses. -/
def printInfix (operator : Char) (a b : List Char) : List Char :=
  '(' :: (a ++ operator :: (b ++ [')']))

/-- The visits of filter expressions. -/
def FilterExpr.print : FilterExpr → List Char
  | filterFunction f => f.print
  | filterCompose a b => printCall "COMPOSE" (a.print ++ ',' :: b.print)
  | filterIntersection a b => printInfix '&' a.print b.print
  | filterSetminus a b => printCall "SETMINUS" (a.print ++ ',' :: b.print)
  | filterUnion a b => printInfix '|' a.print b.print

section Patterns

variable {P : Type} (printPredicate : P → List Char)

/-- The visits of atoms. -/
def EcpAtom.print : EcpAtom FilterExpr P → List Char
  | edgecov f => printCall "EDGES" f.print
  | nodecov f => printCall "NODES" f.print
  | pathcov f bound => printCall "PATHS" (f.print ++ ',' :: printInt bound)
  | predicate p => '{' :: (printPredicate p ++ ['}'])

/-- The visits of path patterns. -/
def PathPattern.print : PathPattern FilterExpr P → List Char
  | atom a => a.print printPredicate
  | ppAlternative ppA ppB => printInfix '+' ppA.print ppB.print
  | ppConcat ppA ppB => printInfix '.' ppA.print ppB.print
  | repetition pp lower upper =>
      let bounds :=
        if upper = -1 then
          if lower = 0 then ['*'] else ">=".toList ++ printInt lower
        else "<=".toList ++ printInt upper
      '(' :: (pp.print ++ (bounds ++ [')']))

/-- The visits of coverage patterns. -/
def CoveragePattern.print : CoveragePattern FilterExpr P → List Char
  | atom a => a.print printPredicate
  | quote pp => '"' :: (pp.print printPredicate ++ ['"'])
  | cpAlternative cpA cpB => printInfix '+' cpA.print cpB.print
  | cpConcat cpA cpB => printInfix '.' cpA.print cpB.print

end Patterns

end FShell
