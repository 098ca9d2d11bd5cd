import FShell.Ast.FqlNode
import FShell.Parser.Lexer

/-!
# The query parser

The automaton of the grammar in `parser.yy`.  A control state says which
symbol is about to be read or has just been reduced, and holds the rest of the
stack as what is to be done with that symbol.  As in the automaton that bison
builds, a token is only asked for where it decides something, and a state that
can reduce does so on every token that it cannot shift.  So an error is found
after all these reductions: the action of `Query` has run before the parser
sees that the text goes on.

In `( Filter )` the filter may be one between parentheses or the atom of a
pattern between parentheses; shifting comes first and makes it a filter.

A semantic action creates nodes and moves nodes between `intermediates` and
`needs_cleanup`; the steps emit these effects as events.  The parser for C
expressions is a parameter: it gives a predicate or fails.
-/

namespace FShell.Fql

variable {P : Type}

/-- What the semantic actions do besides computing their value. -/
inductive Event (P : Type)
  | create (n : FqlNode P)
  | inUse (n : FqlNode P)
  | needsCleanup (n : FqlNode P)
  | clear

/-! ## The stack -/

/-- What a coverage pattern, or a part of one, is for. -/
inductive CoverCont (P : Type)
  | clause (scope : Option FilterExpr) (startAnchor : Option (PathPattern FilterExpr P))
  | alternative (a : CoveragePattern FilterExpr P) (k : CoverCont P)
  | concat (a : CoveragePattern FilterExpr P) (k : CoverCont P)
  | next (a : CoveragePattern FilterExpr P) (k : CoverCont P)
  | parenthesis (k : CoverCont P)

/-- What a path pattern, or a part of one, is for. -/
inductive PathCont (P : Type)
  | clause (scope : Option FilterExpr) (cover : CoveragePattern FilterExpr P)
      (startAnchor : Option (PathPattern FilterExpr P))
  | quote (k : CoverCont P)
  | alternative (a : PathPattern FilterExpr P) (k : PathCont P)
  | concat (a : PathPattern FilterExpr P) (k : PathCont P)
  | next (a : PathPattern FilterExpr P) (k : PathCont P)
  | parenthesis (k : PathCont P)

/-- What an atom is for. -/
inductive AtomCont (P : Type)
  | cover (k : CoverCont P)
  | path (k : PathCont P)

/-- What a filter is for. -/
inductive FilterCont (P : Type)
  | scope
  | atom (k : AtomCont P)
  | nodecov (k : AtomCont P)
  | edgecov (k : AtomCont P)
  | pathcov (k : AtomCont P)
  | parenthesis (k : FilterCont P)
  | negation (k : FilterCont P)
  | union (a : FilterExpr) (k : FilterCont P)
  | intersection (a : FilterExpr) (k : FilterCont P)
  | setminusFirst (k : FilterCont P)
  | setminusSecond (a : FilterExpr) (k : FilterCont P)
  | composeFirst (k : FilterCont P)
  | composeSecond (a : FilterExpr) (k : FilterCont P)

/-! ## Control states -/

/-- The filter functions with an argument between parentheses. -/
inductive ArgFunction
  | file
  | line
  | column
  | func
  | label
  | call
  | entry
  | exit
  | defined
  | used
  deriving DecidableEq

/-- The filter function, when the token can be its argument. -/
def ArgFunction.apply : ArgFunction → Token → Option FilterFunction
  | file, .tokQuotedString s => some (.fFile s)
  | line, .tokNatNumber n => some (.fLine n)
  | column, .tokNatNumber n => some (.fColumn n)
  | func, .tokCIdent s => some (.fFunc s)
  | label, .tokCIdent s => some (.fLabel s)
  | call, .tokCIdent s => some (.fCall s)
  | entry, .tokCIdent s => some (.fEntry s)
  | exit, .tokCIdent s => some (.fExit s)
  | defined, .tokCIdent s => some (.fDef s)
  | used, .tokCIdent s => some (.fUse s)
  | _, _ => none

/-- The operators with a number behind a path pattern. -/
inductive RepeatOperator
  | greaterOrEq
  | eq
  | lessOrEq
  deriving DecidableEq

/-- `Path_Pattern_Factor` with such an operator. -/
def RepeatOperator.apply (pp : PathPattern FilterExpr P) (n : Int) :
    RepeatOperator → PathPattern FilterExpr P
  | greaterOrEq => .repetition pp n (-1)
  | eq => .repetition pp n n
  | lessOrEq => .repetition pp 0 n

/-- The states of the parser. -/
inductive Control (P : Type)
  | start
  | gotScope (scope : Option FilterExpr)
  | coverAnchor (scope : Option FilterExpr)
  | coverFactor (k : CoverCont P)
  | gotCoverFactor (v : CoveragePattern FilterExpr P) (k : CoverCont P)
  | gotCoverTerm (v : CoveragePattern FilterExpr P) (k : CoverCont P)
  | gotCover (v : CoveragePattern FilterExpr P) (k : CoverCont P)
  | gotCoverClause (scope : Option FilterExpr) (cover : CoveragePattern FilterExpr P)
  | passingAnchor (scope : Option FilterExpr) (cover : CoveragePattern FilterExpr P)
  | pathFactor (k : PathCont P)
  | gotPathFactor (v : PathPattern FilterExpr P) (k : PathCont P)
  | repeatBound (operator : RepeatOperator) (v : PathPattern FilterExpr P) (k : PathCont P)
  | gotPathTerm (v : PathPattern FilterExpr P) (k : PathCont P)
  | gotPath (v : PathPattern FilterExpr P) (k : PathCont P)
  | gotQuery (q : ParsedQuery P)
  | opening (k : FilterCont P)
  | filter (k : FilterCont P)
  | gotFilter (f : FilterExpr) (k : FilterCont P)
  | functionOpening (f : ArgFunction) (k : FilterCont P)
  | functionArgument (f : ArgFunction) (k : FilterCont P)
  | functionClosing (f : FilterFunction) (k : FilterCont P)
  | stmttypeOpening (k : FilterCont P)
  | stmttype (types : Nat) (k : FilterCont P)
  | gotStmttypes (types : Nat) (k : FilterCont P)
  | pathcovBound (f : FilterExpr) (k : AtomCont P)
  | pathcovClosing (f : FilterExpr) (bound : Int) (k : AtomCont P)

/-! ## Semantic actions -/

/-- `FQL_CREATE_FF0(F_IDENTITY)`. -/
def idFilter : FilterExpr := .filterFunction .fIdentity

/-- The value of `MAKE_ID_STAR`. -/
def idStar : PathPattern FilterExpr P := .repetition (.atom (.edgecov idFilter)) 0 (-1)

/-- The nodes that `MAKE_ID_STAR` creates. -/
def makeIdStar : List (Event P) :=
  [.create (.filterExpr idFilter), .create (.ecpAtom (.edgecov idFilter)), .create (pathNode idStar)]

/-- `$$ = FQL_CREATE...; IN_USE($1); ...; needs_cleanup.insert($$);`. -/
def build (result : FqlNode P) (operands : List (FqlNode P)) : List (Event P) :=
  .create result :: (operands.map .inUse ++ [.needsCleanup result])

/-- An anchor that is absent: `$$ = MAKE_ID_STAR; needs_cleanup.insert($$);`. -/
def emptyAnchor : List (Event P) := makeIdStar ++ [.needsCleanup (pathNode idStar)]

/-- The value of `Cover` from its pattern and its anchors. -/
def coverValue (startAnchor : Option (PathPattern FilterExpr P))
    (cp : CoveragePattern FilterExpr P) (endAnchor : Option (PathPattern FilterExpr P)) :
    CoveragePattern FilterExpr P :=
  let ended := match endAnchor with
    | some pp => .cpConcat cp (.quote pp)
    | none => cp
  match startAnchor with
  | some pp => .cpConcat (.quote pp) ended
  | none => ended

/-- `Cover: TOK_COVER Start_Anchor Coverage_Pattern End_Anchor`. -/
def coverEvents (startAnchor : Option (PathPattern FilterExpr P))
    (cp : CoveragePattern FilterExpr P) (endAnchor : Option (PathPattern FilterExpr P)) :
    List (Event P) :=
  (match endAnchor with
    | some pp => [.create (.coveragePattern (.quote pp)),
        .create (coverNode (coverValue none cp endAnchor)), .inUse (pathNode pp)]
    | none => []) ++
  (match startAnchor with
    | some pp => [.create (.coveragePattern (.quote pp)),
        .create (coverNode (coverValue startAnchor cp endAnchor)), .inUse (pathNode pp)]
    | none => []) ++
  [.inUse (coverNode cp), .needsCleanup (coverNode (coverValue startAnchor cp endAnchor))]

/-- The value of `Passing` from its pattern and its anchors. -/
def passingValue (startAnchor : Option (PathPattern FilterExpr P))
    (pp : PathPattern FilterExpr P) (endAnchor : Option (PathPattern FilterExpr P)) :
    PathPattern FilterExpr P :=
  let ended := match endAnchor with
    | some anchor => .ppConcat pp anchor
    | none => pp
  match startAnchor with
  | some anchor => .ppConcat anchor ended
  | none => ended

/-- `Passing: TOK_PASSING Start_Anchor Path_Pattern End_Anchor`. -/
def passingEvents (startAnchor : Option (PathPattern FilterExpr P))
    (pp : PathPattern FilterExpr P) (endAnchor : Option (PathPattern FilterExpr P)) :
    List (Event P) :=
  (match endAnchor with
    | some anchor => [.create (pathNode (passingValue none pp endAnchor)), .inUse (pathNode anchor)]
    | none => []) ++
  (match startAnchor with
    | some anchor =>
        [.create (pathNode (passingValue startAnchor pp endAnchor)), .inUse (pathNode anchor)]
    | none => []) ++
  [.inUse (pathNode pp), .needsCleanup (pathNode (passingValue startAnchor pp endAnchor))]

/-- `Query: Scope Cover Passing`. -/
def queryEvents (q : ParsedQuery P) : List (Event P) := [.create (.query q), .clear]

/-- `Coverage_Pattern_Term TOK_NEXT Coverage_Pattern_Factor`. -/
def coverNext (a b : CoveragePattern FilterExpr P) : CoveragePattern FilterExpr P :=
  .cpConcat a (.cpConcat (.quote idStar) b)

/-- The effects of its action. -/
def coverNextEvents (a b : CoveragePattern FilterExpr P) : List (Event P) :=
  makeIdStar ++ [.create (.coveragePattern (.quote idStar)),
    .create (.coveragePattern (.cpConcat (.quote idStar) b))] ++
  build (.coveragePattern (coverNext a b)) [coverNode a, coverNode b]

/-- `Path_Pattern_Term TOK_NEXT Path_Pattern_Factor`. -/
def pathNext (a b : PathPattern FilterExpr P) : PathPattern FilterExpr P :=
  .ppConcat a (.ppConcat idStar b)

/-- The effects of its action. -/
def pathNextEvents (a b : PathPattern FilterExpr P) : List (Event P) :=
  makeIdStar ++ [.create (.pathPattern (.ppConcat idStar b))] ++
  build (.pathPattern (pathNext a b)) [pathNode a, pathNode b]

/-- A filter with operands. -/
def buildFilter (f : FilterExpr) (operands : List FilterExpr) : List (Event P) :=
  build (.filterExpr f) (operands.map .filterExpr)

/-- `TOK_NOT TOK_L_PARENTHESIS Filter TOK_R_PARENTHESIS`. -/
def negationEvents (f : FilterExpr) : List (Event P) :=
  .create (.filterExpr idFilter) :: buildFilter (.filterSetminus idFilter f) [f]

/-! ## Tokens -/

/-- What a state does on a token. -/
inductive Reaction (P : Type)
  | shift (c : Control P) (events : List (Event P))
  | reduce (c : Control P) (events : List (Event P))
  | accept (q : ParsedQuery P)
  | syntaxError
  | predicateError

open Reaction

/-- An atom goes on as a factor of the pattern around it. -/
def gotAtom (a : EcpAtom FilterExpr P) : AtomCont P → Control P
  | .cover k => .gotCoverFactor (.atom a) k
  | .path k => .gotPathFactor (.atom a) k

/-- An atom made of a filter. -/
def buildAtom (a : EcpAtom FilterExpr P) (f : FilterExpr) : List (Event P) :=
  build (.ecpAtom a) [.filterExpr f]

/-- The states that reduce without a token. -/
def Control.reduction : Control P → Option (Control P × List (Event P))
  | gotFilter f (.intersection a k) =>
      some (gotFilter (.filterIntersection a f) k, buildFilter (.filterIntersection a f) [a, f])
  | gotCoverFactor v (.concat a k) =>
      some (gotCoverTerm (.cpConcat a v) k,
        build (.coveragePattern (.cpConcat a v)) [coverNode a, coverNode v])
  | gotCoverFactor v (.next a k) => some (gotCoverTerm (coverNext a v) k, coverNextEvents a v)
  | gotCoverFactor v k => some (gotCoverTerm v k, [])
  | _ => none

/-- A filter function that is complete. -/
def gotFunction (f : FilterFunction) (k : FilterCont P) : Reaction P :=
  shift (.gotFilter (.filterFunction f) k) (buildFilter (.filterFunction f) [])

/-- The token at the start of a `Filter` that is none between parentheses. -/
def startFilter (k : FilterCont P) : Token → Reaction P
  | .tokIdentity => gotFunction .fIdentity k
  | .tokFile => shift (.functionOpening .file k) []
  | .tokLine => shift (.functionOpening .line k) []
  | .tokLineAbbrev n => gotFunction (.fLine n) k
  | .tokColumn => shift (.functionOpening .column k) []
  | .tokFunc => shift (.functionOpening .func k) []
  | .tokLabel => shift (.functionOpening .label k) []
  | .tokCall => shift (.functionOpening .call k) []
  | .tokCalls => gotFunction .fCalls k
  | .tokEntry => shift (.functionOpening .entry k) []
  | .tokExit => shift (.functionOpening .exit k) []
  | .tokBasicblockentry => gotFunction .fBasicblockentry k
  | .tokConditionedge => gotFunction .fConditionedge k
  | .tokDef => shift (.functionOpening .defined k) []
  | .tokUse => shift (.functionOpening .used k) []
  | .tokStmttype => shift (.stmttypeOpening k) []
  | .tokNot => shift (.opening (.negation k)) []
  | .tokSetminus => shift (.opening (.setminusFirst k)) []
  | .tokCompose => shift (.opening (.composeFirst k)) []
  | _ => syntaxError

/-- The token at the start of an `ECP_Atom` that is no predicate. -/
def startAtom (k : AtomCont P) : Token → Reaction P
  | .tokNodecov => shift (.opening (.nodecov k)) []
  | .tokEdgecov => shift (.opening (.edgecov k)) []
  | .tokPathcov => shift (.opening (.pathcov k)) []
  | t => startFilter (.atom k) t

/-- `Predicate: TOK_ARBITRARY_PRED`. -/
def gotPredicate (k : AtomCont P) : Option P → Reaction P
  | some p =>
      shift (gotAtom (.predicate p) k)
        [.create (.ecpAtom (.predicate p)), .needsCleanup (.ecpAtom (.predicate p))]
  | none => predicateError

/-- What a `Filter` becomes on a token that does not extend it. -/
def endFilter (f : FilterExpr) : FilterCont P → Token → Reaction P
  | .scope, _ => reduce (.gotScope (some f)) []
  | .atom (.cover (.parenthesis k)), .tokRParenthesis => shift (.gotFilter f (.atom (.cover k))) []
  | .atom (.path (.parenthesis k)), .tokRParenthesis => shift (.gotFilter f (.atom (.path k))) []
  | .atom k, _ => reduce (gotAtom (.edgecov f) k) (buildAtom (.edgecov f) f)
  | .nodecov k, .tokRParenthesis => shift (gotAtom (.nodecov f) k) (buildAtom (.nodecov f) f)
  | .edgecov k, .tokRParenthesis => shift (gotAtom (.edgecov f) k) (buildAtom (.edgecov f) f)
  | .pathcov k, .tokComma => shift (.pathcovBound f k) []
  | .parenthesis k, .tokRParenthesis => shift (.gotFilter f k) []
  | .negation k, .tokRParenthesis =>
      shift (.gotFilter (.filterSetminus idFilter f) k) (negationEvents f)
  | .union a k, _ =>
      reduce (.gotFilter (.filterUnion a f) k) (buildFilter (.filterUnion a f) [a, f])
  | .setminusFirst k, .tokComma => shift (.filter (.setminusSecond f k)) []
  | .setminusSecond a k, .tokRParenthesis =>
      shift (.gotFilter (.filterSetminus a f) k) (buildFilter (.filterSetminus a f) [a, f])
  | .composeFirst k, .tokComma => shift (.filter (.composeSecond f k)) []
  | .composeSecond a k, .tokRParenthesis =>
      shift (.gotFilter (.filterCompose a f) k) (buildFilter (.filterCompose a f) [a, f])
  | _, _ => syntaxError

/-- The token behind a `Filter`; `&` binds more tightly than `|`. -/
def afterFilter (f : FilterExpr) (k : FilterCont P) : Token → Reaction P
  | .tokTgintersect => shift (.filter (.intersection f k)) []
  | .tokTgunion =>
      match k with
      | .union _ _ => endFilter f k .tokTgunion
      | _ => shift (.filter (.union f k)) []
  | t => endFilter f k t

/-- What a `Coverage_Pattern_Term` becomes. -/
def endCoverTerm (v : CoveragePattern FilterExpr P) : CoverCont P → Reaction P
  | .alternative a k =>
      reduce (.gotCover (.cpAlternative a v) k)
        (build (.coveragePattern (.cpAlternative a v)) [coverNode a, coverNode v])
  | k => reduce (.gotCover v k) []

/-- `Cover` is complete. -/
def endCover (scope : Option FilterExpr) (startAnchor : Option (PathPattern FilterExpr P))
    (v : CoveragePattern FilterExpr P) (endAnchor : Option (PathPattern FilterExpr P)) : Control P :=
  .gotCoverClause scope (coverValue startAnchor v endAnchor)

/-- The token behind a `Coverage_Pattern`. -/
def afterCover (v : CoveragePattern FilterExpr P) (k : CoverCont P) (t : Token) : Reaction P :=
  match k, t with
  | _, .tokAlternative => shift (.coverFactor (.alternative v k)) []
  | .clause scope startAnchor, .tokEnd =>
      shift (endCover scope startAnchor v none) (coverEvents startAnchor v none)
  | .clause scope startAnchor, _ =>
      reduce (endCover scope startAnchor v (some idStar))
        (emptyAnchor ++ coverEvents startAnchor v (some idStar))
  | .parenthesis k, .tokRParenthesis => shift (.gotCoverFactor v k) []
  | _, _ => syntaxError

/-- What a `Path_Pattern_Factor` becomes. -/
def endPathFactor (v : PathPattern FilterExpr P) : PathCont P → Reaction P
  | .concat a k =>
      reduce (.gotPathTerm (.ppConcat a v) k)
        (build (.pathPattern (.ppConcat a v)) [pathNode a, pathNode v])
  | .next a k => reduce (.gotPathTerm (pathNext a v) k) (pathNextEvents a v)
  | k => reduce (.gotPathTerm v k) []

/-- What a `Path_Pattern_Term` becomes. -/
def endPathTerm (v : PathPattern FilterExpr P) : PathCont P → Reaction P
  | .alternative a k =>
      reduce (.gotPath (.ppAlternative a v) k)
        (build (.pathPattern (.ppAlternative a v)) [pathNode a, pathNode v])
  | k => reduce (.gotPath v k) []

/-- `Passing` and with it the query is complete. -/
def endPassing (scope : Option FilterExpr) (cover : CoveragePattern FilterExpr P)
    (startAnchor : Option (PathPattern FilterExpr P)) (v : PathPattern FilterExpr P)
    (endAnchor : Option (PathPattern FilterExpr P)) : ParsedQuery P :=
  ⟨scope, cover, passingValue startAnchor v endAnchor⟩

/-- The token behind a `Path_Pattern`. -/
def afterPath (v : PathPattern FilterExpr P) (k : PathCont P) (t : Token) : Reaction P :=
  match k, t with
  | _, .tokAlternative => shift (.pathFactor (.alternative v k)) []
  | .clause scope cover startAnchor, .tokEnd =>
      shift (.gotQuery (endPassing scope cover startAnchor v none))
        (passingEvents startAnchor v none ++ queryEvents (endPassing scope cover startAnchor v none))
  | .clause scope cover startAnchor, _ =>
      reduce (.gotQuery (endPassing scope cover startAnchor v (some idStar)))
        (emptyAnchor ++ passingEvents startAnchor v (some idStar) ++
          queryEvents (endPassing scope cover startAnchor v (some idStar)))
  | .quote k, .tokDblquote =>
      shift (.gotCoverFactor (.quote v) k) (build (.coveragePattern (.quote v)) [pathNode v])
  | .parenthesis k, .tokRParenthesis => shift (.gotPathFactor v k) []
  | _, _ => syntaxError

/-- `Path_Pattern_Factor TOK_KLEENE` and the productions with a bound. -/
def gotRepeat (pp repetition : PathPattern FilterExpr P) (k : PathCont P) : Reaction P :=
  shift (.gotPathFactor repetition k) (build (pathNode repetition) [pathNode pp])

/-- The statement type of a token, as its bit. -/
def stmttypeBit : Token → Option Nat
  | .tokSttIf => some 0
  | .tokSttFor => some 1
  | .tokSttWhile => some 2
  | .tokSttSwitch => some 3
  | .tokSttCondop => some 4
  | .tokSttAssert => some 5
  | _ => none

variable (parsePredicate : String → Option P)

/-- What a state does on a token. -/
def Control.onToken (c : Control P) (t : Token) : Reaction P :=
  match c, t with
  | start, .tokIn => shift (filter .scope) []
  | start, _ => reduce (gotScope none) []
  | gotScope scope, .tokCover => shift (coverAnchor scope) []
  | coverAnchor scope, .tokStart => shift (coverFactor (.clause scope none)) []
  | coverAnchor scope, _ => reduce (coverFactor (.clause scope (some idStar))) emptyAnchor
  | coverFactor k, .tokLParenthesis => shift (coverFactor (.parenthesis k)) []
  | coverFactor k, .tokDblquote => shift (pathFactor (.quote k)) []
  | coverFactor k, .tokArbitraryPred s => gotPredicate (.cover k) (parsePredicate s)
  | coverFactor k, t => startAtom (.cover k) t
  | gotCoverTerm v k, .tokConcat => shift (coverFactor (.concat v k)) []
  | gotCoverTerm v k, .tokNext => shift (coverFactor (.next v k)) []
  | gotCoverTerm v k, _ => endCoverTerm v k
  | gotCover v k, t => afterCover v k t
  | gotCoverClause scope cover, .tokPassing => shift (passingAnchor scope cover) []
  | gotCoverClause scope cover, _ =>
      reduce (gotQuery ⟨scope, cover, idStar⟩) (emptyAnchor ++ queryEvents ⟨scope, cover, idStar⟩)
  | passingAnchor scope cover, .tokStart => shift (pathFactor (.clause scope cover none)) []
  | passingAnchor scope cover, _ =>
      reduce (pathFactor (.clause scope cover (some idStar))) emptyAnchor
  | pathFactor k, .tokLParenthesis => shift (pathFactor (.parenthesis k)) []
  | pathFactor k, .tokArbitraryPred s => gotPredicate (.path k) (parsePredicate s)
  | pathFactor k, t => startAtom (.path k) t
  | gotPathFactor v k, .tokKleene => gotRepeat v (.repetition v 0 (-1)) k
  | gotPathFactor v k, .tokGreaterOrEq => shift (repeatBound .greaterOrEq v k) []
  | gotPathFactor v k, .tokEq => shift (repeatBound .eq v k) []
  | gotPathFactor v k, .tokLessOrEq => shift (repeatBound .lessOrEq v k) []
  | gotPathFactor v k, _ => endPathFactor v k
  | repeatBound operator v k, .tokNatNumber n => gotRepeat v (operator.apply v n) k
  | gotPathTerm v k, .tokConcat => shift (pathFactor (.concat v k)) []
  | gotPathTerm v k, .tokNext => shift (pathFactor (.next v k)) []
  | gotPathTerm v k, _ => endPathTerm v k
  | gotPath v k, t => afterPath v k t
  | gotQuery q, .endOfInput => accept q
  | opening k, .tokLParenthesis => shift (filter k) []
  | filter k, .tokLParenthesis => shift (filter (.parenthesis k)) []
  | filter k, t => startFilter k t
  | gotFilter f k, t => afterFilter f k t
  | functionOpening f k, .tokLParenthesis => shift (functionArgument f k) []
  | functionArgument f k, t =>
      match f.apply t with
      | some g => shift (functionClosing g k) []
      | none => syntaxError
  | functionClosing f k, .tokRParenthesis => gotFunction f k
  | stmttypeOpening k, .tokLParenthesis => shift (stmttype 0 k) []
  | stmttype types k, t =>
      match stmttypeBit t with
      | some bit => shift (gotStmttypes (types ||| 1 <<< bit) k) []
      | none => syntaxError
  | gotStmttypes types k, .tokComma => shift (stmttype types k) []
  | gotStmttypes types k, .tokRParenthesis => gotFunction (.fStmttype types) k
  | pathcovBound f k, .tokNatNumber n => shift (pathcovClosing f n k) []
  | pathcovClosing f bound k, .tokRParenthesis =>
      shift (gotAtom (.pathcov f bound) k) (buildAtom (.pathcov f bound) f)
  | _, _ => syntaxError

/-! ## Steps -/

/-- How a parse ends: with a query, with a call of `yyerror`, in the catch-all
rule of the scanner, or with an error that is thrown on a number or a
predicate. -/
inductive Outcome (P : Type)
  | accepted (q : ParsedQuery P)
  | grammarError
  | unexpectedCharacter
  | numberOutOfRange
  | predicateError
  deriving DecidableEq

/-- The parser with its scanner and the token that it looks ahead at. -/
structure Parsing (P : Type) where
  control : Control P
  lexer : LexerState
  lookahead : Option Token

/-- A parse that goes on or has ended. -/
inductive Config (P : Type)
  | running (c : Parsing P)
  | done (outcome : Outcome P)

/-- A token is asked for. -/
def Parsing.read (c : Parsing P) : Config P :=
  match c.lexer.scan with
  | .token t l => .running ⟨c.control, l, some t⟩
  | .skipped l => .running ⟨c.control, l, none⟩
  | .unexpectedCharacter => .done .unexpectedCharacter
  | .numberOutOfRange => .done .numberOutOfRange

/-- The reaction to the token that is looked at. -/
def Parsing.react (c : Parsing P) (t : Token) : Reaction P → Config P × List (Event P)
  | shift control events => (.running ⟨control, c.lexer, none⟩, events)
  | reduce control events => (.running ⟨control, c.lexer, some t⟩, events)
  | accept q => (.done (.accepted q), [])
  | syntaxError => (.done .grammarError, [])
  | predicateError => (.done .predicateError, [])

/-- A step in a state that does not reduce by itself. -/
def Parsing.advance (c : Parsing P) : Config P × List (Event P) :=
  match c.lookahead with
  | none => (c.read, [])
  | some t => c.react t (c.control.onToken parsePredicate t)

/-- A step of the parser. -/
def Parsing.step (c : Parsing P) : Config P × List (Event P) :=
  match c.control.reduction with
  | some (control, events) => (.running { c with control := control }, events)
  | none => c.advance parsePredicate

end FShell.Fql
