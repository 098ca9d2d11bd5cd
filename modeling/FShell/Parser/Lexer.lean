import Mathlib

/-!
# The query lexer

The scanner that `lexer.ll` describes.  In each start condition some of the
rules are active; the longest match wins, and among equally long ones the rule
that comes first.  Letters match without regard to case.

The scanner is lazy: it reads one token when the parser asks for one, so an
error further on is only found once everything before it has been parsed.
-/

namespace FShell.Fql

/-- The start conditions; only `stmttype` is exclusive. -/
inductive StartCondition
  | initial
  | queryScope
  | queryCover
  | queryPassing
  | stmttype
  deriving DecidableEq, Repr

/-- The tokens that some production uses, those of the productions that are
commented out, and `$end`. -/
inductive Token
  | tokLParenthesis
  | tokRParenthesis
  | tokComma
  | tokIdentity
  | tokFile
  | tokLine
  | tokLineAbbrev (n : Int)
  | tokColumn
  | tokFunc
  | tokLabel
  | tokCall
  | tokCalls
  | tokEntry
  | tokExit
  | tokExpr
  | tokRegexp
  | tokBasicblockentry
  | tokConditionedge
  | tokDecisionedge
  | tokConditiongraph
  | tokDef
  | tokUse
  | tokStmttype
  | tokSttIf
  | tokSttFor
  | tokSttWhile
  | tokSttSwitch
  | tokSttCondop
  | tokSttAssert
  | tokNot
  | tokTgunion
  | tokTgintersect
  | tokSetminus
  | tokCompose
  | tokArbitraryPred (s : String)
  | tokNodecov
  | tokEdgecov
  | tokPathcov
  | tokDepcov
  | tokNext
  | tokConcat
  | tokAlternative
  | tokKleene
  | tokDblquote
  | tokGreaterOrEq
  | tokEq
  | tokLessOrEq
  | tokStart
  | tokEnd
  | tokIn
  | tokCover
  | tokPassing
  | tokCIdent (s : String)
  | tokQuotedString (s : String)
  | tokNatNumber (n : Int)
  | endOfInput
  deriving DecidableEq, Repr

/-! ## Patterns -/

/-- The regular expressions of the rules. -/
inductive Pattern
  | text (s : String)
  | lineAbbrev
  | arbitraryPred
  | cIdent
  | quotedString
  | natNumber
  | blank
  | comment
  | anyCharacter
  deriving DecidableEq

/-- The characters start with the text, letters in either case. -/
def startsWith : List Char → List Char → Bool
  | [], _ => true
  | _ :: _, [] => false
  | a :: text, b :: input => (a.toLower == b.toLower) && startsWith text input

/-- `[_a-zA-Z]`. -/
def isIdentFirst (c : Char) : Bool := c == '_' || c.isAlpha

/-- `[_a-zA-Z0-9]`. -/
def isIdentRest (c : Char) : Bool := c == '_' || c.isAlphanum

/-- `[^\{\}]`. -/
def isPredCharacter (c : Char) : Bool := c != '\x7b' && c != '\x7d'

/-- How many of the first characters satisfy the condition. -/
def spanLength (p : Char → Bool) : List Char → Nat
  | [] => 0
  | c :: input => if p c then spanLength p input + 1 else 0

/-- One or more characters that satisfy the condition. -/
def matchSome (p : Char → Bool) (input : List Char) : Option Nat :=
  if spanLength p input = 0 then none else some (spanLength p input)

/-- Characters that satisfy the condition up to a closing one, from behind
the opening character on. -/
def matchClosed (p : Char → Bool) (close : Char) (input : List Char) : Option Nat :=
  if (input.drop (spanLength p input)).head? = some close then some (spanLength p input + 2)
  else none

/-- The length of the longest match at the start of the input. -/
def Pattern.matchLength : Pattern → List Char → Option Nat
  | text s, input => if startsWith s.toList input then some s.toList.length else none
  | lineAbbrev, '@' :: input => (matchSome Char.isDigit input).map (· + 1)
  | arbitraryPred, '\x7b' :: input =>
      if spanLength isPredCharacter input = 0 then none else matchClosed isPredCharacter '\x7d' input
  | cIdent, c :: input => if isIdentFirst c then some (spanLength isIdentRest input + 1) else none
  | quotedString, '\'' :: input => matchClosed (· != '\'') '\'' input
  | natNumber, input => matchSome Char.isDigit input
  | blank, c :: _ => if c = ' ' ∨ c = '\t' ∨ c = '\n' then some 1 else none
  | comment, '/' :: '/' :: input => some (spanLength (· != '\n') input + 2)
  | anyCharacter, c :: _ => if c = '\n' then none else some 1
  | _, _ => none

/-! ## Rules -/

/-- What a rule does with the text that it matched. -/
inductive Action
  | noop
  | token (t : Token)
  | begin (start : StartCondition) (t : Token)
  | beginStmttype
  | endStmttype
  | lineAbbrev
  | arbitraryPred
  | cIdent
  | quotedString
  | natNumber
  | unexpectedCharacter

/-- A rule of the scanner. -/
structure Rule where
  starts : List StartCondition
  pattern : Pattern
  action : Action

section Rules

open StartCondition Token

/-- `<*>`. -/
def anyStart : List StartCondition := [initial, queryScope, queryCover, queryPassing, stmttype]

/-- No start condition is named: all that are not exclusive. -/
def inclusive : List StartCondition := [initial, queryScope, queryCover, queryPassing]

/-- `<query_scope,query_cover,query_passing>`. -/
def inQuery : List StartCondition := [queryScope, queryCover, queryPassing]

/-- `<query_cover,query_passing>`. -/
def inPatterns : List StartCondition := [queryCover, queryPassing]

/-- A rule for a fixed text. -/
def word (starts : List StartCondition) (s : String) (t : Token) : Rule :=
  ⟨starts, .text s, .token t⟩

/-- The rules, in their order. -/
def rules : List Rule :=
  [⟨inclusive, .blank, .noop⟩,
   ⟨inclusive, .comment, .noop⟩,
   word anyStart "(" tokLParenthesis,
   word inclusive ")" tokRParenthesis,
   ⟨[stmttype], .text ")", .endStmttype⟩,
   word anyStart "," tokComma,
   word inPatterns "ID" tokIdentity,
   word inQuery "@FILE" tokFile,
   word inPatterns "@LINE" tokLine,
   ⟨inPatterns, .lineAbbrev, .lineAbbrev⟩,
   word inPatterns "@COLUMN" tokColumn,
   word inQuery "@FUNC" tokFunc,
   word inPatterns "@LABEL" tokLabel,
   word inPatterns "@CALL" tokCall,
   word inPatterns "@CALLS" tokCalls,
   word inPatterns "@ENTRY" tokEntry,
   word inPatterns "@EXIT" tokExit,
   word inPatterns "@EXPR" tokExpr,
   word inPatterns "@REGEXP" tokRegexp,
   word inPatterns "@BASICBLOCKENTRY" tokBasicblockentry,
   word inPatterns "@CONDITIONEDGE" tokConditionedge,
   word inPatterns "@DECISIONEDGE" tokDecisionedge,
   word inPatterns "@CONDITIONGRAPH" tokConditiongraph,
   word inPatterns "@DEF" tokDef,
   word inPatterns "@USE" tokUse,
   ⟨inPatterns, .text "@STMTTYPE", .beginStmttype⟩,
   word [stmttype] "IF" tokSttIf,
   word [stmttype] "FOR" tokSttFor,
   word [stmttype] "WHILE" tokSttWhile,
   word [stmttype] "SWITCH" tokSttSwitch,
   word [stmttype] "?:" tokSttCondop,
   word [stmttype] "ASSERT" tokSttAssert,
   word inQuery "NOT" tokNot,
   word inQuery "|" tokTgunion,
   word inQuery "&" tokTgintersect,
   word inQuery "SETMINUS" tokSetminus,
   word inQuery "COMPOSE" tokCompose,
   ⟨inQuery, .arbitraryPred, .arbitraryPred⟩,
   word inPatterns "NODES" tokNodecov,
   word inPatterns "EDGES" tokEdgecov,
   word inPatterns "PATHS" tokPathcov,
   word inPatterns "DEPS" tokDepcov,
   word inPatterns "->" tokNext,
   word inPatterns "." tokConcat,
   word inPatterns "+" tokAlternative,
   word inPatterns "*" tokKleene,
   word inPatterns "\"" tokDblquote,
   word inPatterns ">=" tokGreaterOrEq,
   word inPatterns "==" tokEq,
   word inPatterns "<=" tokLessOrEq,
   word inPatterns "^" tokStart,
   word inPatterns "$" tokEnd,
   ⟨[initial], .text "IN", .begin queryScope tokIn⟩,
   ⟨[initial, queryScope], .text "COVER", .begin queryCover tokCover⟩,
   ⟨[queryCover], .text "PASSING", .begin queryPassing tokPassing⟩,
   ⟨inQuery, .cIdent, .cIdent⟩,
   ⟨inQuery, .quotedString, .quotedString⟩,
   ⟨inPatterns, .natNumber, .natNumber⟩,
   ⟨anyStart, .anyCharacter, .unexpectedCharacter⟩]

end Rules

/-- The longest match of the rules that are active, the first of them when
there are several. -/
def longest (start : StartCondition) (input : List Char) : List Rule → Option (Nat × Action)
  | [] => none
  | rule :: rules =>
      match if start ∈ rule.starts then rule.pattern.matchLength input else none,
          longest start input rules with
      | none, best => best
      | some n, none => some (n, rule.action)
      | some n, some (m, action) => if n < m then some (m, action) else some (n, rule.action)

/-! ## Scanning -/

/-- The scanner between two tokens. -/
structure LexerState where
  start : StartCondition
  backupState : StartCondition
  input : List Char

/-- What scanning comes to: a token; text that was skipped; the catch-all
rule; or a number that does not fit a `long`. -/
inductive Scan
  | token (t : Token) (l : LexerState)
  | skipped (l : LexerState)
  | unexpectedCharacter
  | numberOutOfRange

/-- The number that decimal digits stand for. -/
def digitsValue (digits : List Char) : Nat :=
  digits.foldl (fun n c => 10 * n + (c.toNat - '0'.toNat)) 0

/-- `strtol` on decimal digits, assigned to an `int`: nothing when the value
is out of the range of a `long` of 64 bits. -/
def strtol (digits : List Char) : Option Int :=
  if digitsValue digits < 2 ^ 63 then some ((digitsValue digits : Int).bmod (2 ^ 32)) else none

/-- The text between the first and the last character. -/
def inner (text : List Char) : String := String.ofList text.tail.dropLast

/-- A token with a number, or the failure of the range check. -/
def numberToken (t : Int → Token) (l : LexerState) : Option Int → Scan
  | some n => .token (t n) l
  | none => .numberOutOfRange

/-- A rule's action on the text that it matched. -/
def Action.perform (text : List Char) (l : LexerState) : Action → Scan
  | noop => .skipped l
  | token t => .token t l
  | begin start t => .token t { l with start := start }
  | beginStmttype => .token .tokStmttype { l with start := .stmttype, backupState := l.start }
  | endStmttype => .token .tokRParenthesis { l with start := l.backupState }
  | lineAbbrev => numberToken .tokLineAbbrev l (strtol text.tail)
  | arbitraryPred => .token (.tokArbitraryPred (inner text)) l
  | cIdent => .token (.tokCIdent (String.ofList text)) l
  | quotedString => .token (.tokQuotedString (inner text)) l
  | natNumber => numberToken .tokNatNumber l (strtol text)
  | unexpectedCharacter => .unexpectedCharacter

/-- What `yylex` does next.  A newline that no rule matches is echoed. -/
def LexerState.scan (l : LexerState) : Scan :=
  match l.input, longest l.start l.input rules with
  | [], _ => .token .endOfInput l
  | _ :: input, none => .skipped { l with input := input }
  | _ :: _, some (n, action) =>
      action.perform (l.input.take n) { l with input := l.input.drop n }

end FShell.Fql
