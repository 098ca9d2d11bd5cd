import FShell.Parser.QueryParser
import FShell.Command.CommandProcessing

/-!
# Numbers in queries and commands

Three rules read a number: natural numbers and `@NUMBER` in queries, and
natural numbers in commands.  All of them call `strtol`, which returns a
`long`, assign the result to the `int` of the token, and look at `errno`.

**Two limits.**  `errno` reports values that do not fit a `long`, and the
assignment keeps the lower half of those that do not fit an `int`.  Between
the two limits a token carries another number than the one that was written
(`numberRule_exact_iff`), and it may be the `-1` that stands for unbounded
repetition.
-/

namespace FShell.Fql

open FShell.Command

/-- `errno`, as far as the rules tell its values apart. -/
inductive Errno
  | cleared
  | einval
  | erange
  | other (code : Nat)
  deriving DecidableEq

/-- `strtol(digits, 0, 10)` on decimal digits: the `long` that it returns and
`errno` after it. -/
def strtolLong (errno : Errno) (digits : List Char) : Int × Errno :=
  if digitsValue digits < 2 ^ 63 then (digitsValue digits, errno) else (2 ^ 63 - 1, .erange)

/-- What the three rules do with the digits; `thrown` makes the exception. -/
def readNumber (thrown : String → SessionError) (errno : Errno) (digits : List Char) :
    Except SessionError Int :=
  let (value, errno) := strtolLong errno digits
  -- the assignment to `yylval.NUMBER`
  let number := value.bmod (2 ^ 32)
  if errno = .einval then .error (thrown "Invalid number")
  else if errno = .erange then .error (thrown "Number out of range")
  else .ok number

/-- The rule `TOK_NAT_NUMBER` of the query lexer. -/
def tokNatNumber (errno : Errno) (yytext : List Char) : Except SessionError Int :=
  readNumber .queryProcessing errno yytext

/-- The rule `TOK_LINE_ABBREV` of the query lexer. -/
def tokLineAbbrev (errno : Errno) (yytext : List Char) : Except SessionError Int :=
  readNumber .queryProcessing errno yytext.tail

/-- The rule `TOK_NAT_NUMBER` of the command lexer. -/
def commandTokNatNumber (errno : Errno) (yytext : List Char) : Except SessionError Int :=
  readNumber .commandProcessing errno yytext

/-! ## What the rules deliver -/

section ReadNumber

variable {thrown : String → SessionError} {digits : List Char}

/-- The value of the digits, in the decimal system. -/
theorem digitsValue_eq_ofDigits (digits : List Char) :
    digitsValue digits = Nat.ofDigits 10 (digits.reverse.map fun c => c.toNat - '0'.toNat) := by
  induction digits using List.reverseRecOn with
  | nil => rfl
  | append_singleton digits c ih =>
      have hstep : digitsValue (digits ++ [c]) = 10 * digitsValue digits + (c.toNat - '0'.toNat) := by
        simp [digitsValue]
      rw [hstep, ih, List.reverse_append, List.reverse_singleton, List.singleton_append,
        List.map_cons, Nat.ofDigits_cons, Nat.add_comm]

theorem bmod_eq_self_iff {n : Nat} (h : n < 2 ^ 63) :
    (n : Int).bmod (2 ^ 32) = n ↔ n < 2 ^ 31 := by
  rw [Int.bmod_def]
  constructor
  · intro heq
    split at heq <;> omega
  · intro hlt
    rw [if_pos (by omega)]
    omega

theorem readNumber_of_lt (h : digitsValue digits < 2 ^ 63) :
    readNumber thrown .cleared digits = .ok ((digitsValue digits : Int).bmod (2 ^ 32)) := by
  simp only [readNumber, strtolLong, if_pos h, reduceCtorEq, if_false]

theorem readNumber_of_le (h : 2 ^ 63 ≤ digitsValue digits) :
    readNumber thrown .cleared digits = .error (thrown "Number out of range") := by
  simp only [readNumber, strtolLong, if_neg (Nat.not_lt.mpr h), reduceCtorEq, if_false, if_true]

/-- **The number is delivered or rejected** outside the gap between the limits
of `int` and `long`, and nowhere else. -/
theorem readNumber_exact_iff :
    (readNumber thrown .cleared digits = .ok (digitsValue digits) ∨
        readNumber thrown .cleared digits = .error (thrown "Number out of range")) ↔
      digitsValue digits < 2 ^ 31 ∨ 2 ^ 63 ≤ digitsValue digits := by
  by_cases hlong : digitsValue digits < 2 ^ 63
  · rw [readNumber_of_lt hlong]
    simp only [Except.ok.injEq, reduceCtorEq, or_false, bmod_eq_self_iff hlong]
    omega
  · rw [readNumber_of_le (Nat.not_lt.mp hlong)]
    simp only [reduceCtorEq, false_or, true_iff]
    omega

end ReadNumber

/-- The scanner of queries runs these rules with `errno` cleared. -/
theorem perform_natNumber (text : List Char) (l : LexerState) :
    Action.natNumber.perform text l =
      match tokNatNumber .cleared text with
      | .ok n => .token (.tokNatNumber n) l
      | .error _ => .numberOutOfRange := by
  by_cases hlong : digitsValue text < 2 ^ 63
  · rw [Action.perform, strtol, if_pos hlong, tokNatNumber, readNumber_of_lt hlong]
    rfl
  · rw [Action.perform, strtol, if_neg hlong, tokNatNumber, readNumber_of_le (Nat.not_lt.mp hlong)]
    rfl

theorem perform_lineAbbrev (text : List Char) (l : LexerState) :
    Action.lineAbbrev.perform text l =
      match tokLineAbbrev .cleared text with
      | .ok n => .token (.tokLineAbbrev n) l
      | .error _ => .numberOutOfRange := by
  by_cases hlong : digitsValue text.tail < 2 ^ 63
  · rw [Action.perform, strtol, if_pos hlong, tokLineAbbrev, readNumber_of_lt hlong]
    rfl
  · rw [Action.perform, strtol, if_neg hlong, tokLineAbbrev, readNumber_of_le (Nat.not_lt.mp hlong)]
    rfl

/-! ## The three rules and who uses their tokens -/

/-- `[0-9]+`. -/
structure Digits where
  chars : List Char
  ne_nil : chars ≠ []
  isDigit : ∀ c ∈ chars, c.isDigit = true

/-- The number that was written. -/
def Digits.value (digits : Digits) : Nat := digitsValue digits.chars

inductive NumberRule
  | natNumber
  | lineAbbrev
  | commandNatNumber

namespace NumberRule

/-- The text that the rule matches. -/
def yytext (digits : Digits) : NumberRule → List Char
  | natNumber => digits.chars
  | lineAbbrev => '@' :: digits.chars
  | commandNatNumber => digits.chars

def action : NumberRule → Errno → List Char → Except SessionError Int
  | natNumber => tokNatNumber
  | lineAbbrev => tokLineAbbrev
  | commandNatNumber => commandTokNatNumber

/-- The exception of the range check. -/
def outOfRange : NumberRule → SessionError
  | natNumber => .queryProcessing "Number out of range"
  | lineAbbrev => .queryProcessing "Number out of range"
  | commandNatNumber => .commandProcessing "Number out of range"

/-- What the grammars make of a token with the number `n` is what `value`
stands for: the bounds of a repetition, of which the upper one is not the
`-1` of an unbounded one; a path bound; lines and columns; the options. -/
def UsedAs (value n : Int) : NumberRule → Prop
  | natNumber =>
      (∀ (P : Type) (v : PathPattern FilterExpr P),
        RepeatOperator.greaterOrEq.apply v n = .repetition v value (-1) ∧
        RepeatOperator.eq.apply v n = .repetition v value value ∧
        RepeatOperator.lessOrEq.apply v n = .repetition v 0 value) ∧
      n ≠ -1 ∧
      (∀ (P : Type) (parsePredicate : String → Option P) (f : FilterExpr) (k : AtomCont P),
        (Control.pathcovBound f k).onToken parsePredicate (.tokNatNumber n) =
          .shift (.pathcovClosing f value k) []) ∧
      ArgFunction.line.apply (.tokNatNumber n) = some (.fLine value) ∧
      ArgFunction.column.apply (.tokNatNumber n) = some (.fColumn value)
  | lineAbbrev =>
      ∀ (P : Type) (k : FilterCont P),
        startFilter k (.tokLineAbbrev n) = gotFunction (.fLine value) k
  | commandNatNumber =>
      ∀ (Ω L : Type) (w : World Ω L) (ω : Ω) (s : CommandState L),
        ((processCommand w ω s (.setLimitCount n)).result = .ok .done →
          (processCommand w ω s (.setLimitCount n)).state.limit = value) ∧
        ((processCommand w ω s (.setMultipleCoverage n)).result = .ok .done →
          (processCommand w ω s (.setMultipleCoverage n)).state.multipleCoverage = value)

/-- The rule delivers the value of the digits or rejects them as out of range,
and what is delivered is used as that value. -/
def Exact (rule : NumberRule) (digits : Digits) : Prop :=
  (rule.action .cleared (rule.yytext digits) = .ok digits.value ∨
    rule.action .cleared (rule.yytext digits) = .error rule.outOfRange) ∧
  ∀ n, rule.action .cleared (rule.yytext digits) = .ok n → rule.UsedAs digits.value n

theorem usedAs_self (rule : NumberRule) (value : Nat) : rule.UsedAs value value := by
  cases rule with
  | natNumber =>
      refine ⟨fun P v => ⟨rfl, rfl, rfl⟩, ?_, fun P parsePredicate f k => rfl, rfl, rfl⟩
      omega
  | lineAbbrev => exact fun P k => rfl
  | commandNatNumber =>
      intro Ω L w ω s
      constructor
      · intro hresult
        simp only [processCommand] at hresult ⊢
        split at hresult
        next h => rw [if_pos h]
        next => cases hresult
      · intro hresult
        simp only [processCommand] at hresult ⊢
        split at hresult
        next h => rw [if_pos h]
        next => cases hresult

theorem action_exact_iff (rule : NumberRule) (digits : Digits) :
    (rule.action .cleared (rule.yytext digits) = .ok digits.value ∨
        rule.action .cleared (rule.yytext digits) = .error rule.outOfRange) ↔
      digits.value < 2 ^ 31 ∨ 2 ^ 63 ≤ digits.value := by
  cases rule <;> exact readNumber_exact_iff

end NumberRule

/-- **Number tokens denote their decimal value** if and only if it fits an
`int` or does not fit a `long`. -/
theorem numberRule_exact_iff (rule : NumberRule) (digits : Digits) :
    rule.Exact digits ↔ digits.value < 2 ^ 31 ∨ 2 ^ 63 ≤ digits.value := by
  rw [← rule.action_exact_iff digits]
  refine ⟨And.left, fun h => ⟨h, fun n hn => ?_⟩⟩
  rcases h with h | h
  · rw [h] at hn
    cases hn
    exact rule.usedAs_self digits.value
  · rw [h] at hn
    cases hn

/-- The digits of `2 ^ 32 - 1`. -/
def maxUnsigned : Digits :=
  ⟨['4', '2', '9', '4', '9', '6', '7', '2', '9', '5'], by decide, by simp⟩

/-- **`a <= 4294967295` is `a*`.** -/
theorem lessOrEq_maxUnsigned_unbounded :
    tokNatNumber .cleared maxUnsigned.chars = .ok (-1) ∧
    (∀ v : PathPattern FilterExpr Empty,
      RepeatOperator.lessOrEq.apply v (-1) = .repetition v 0 (-1)) ∧
    ¬ ∀ (rule : NumberRule) (digits : Digits), rule.Exact digits := by
  have hvalue : digitsValue maxUnsigned.chars = 4294967295 := by decide
  have htoken : tokNatNumber .cleared maxUnsigned.chars = .ok (-1) := by
    rw [tokNatNumber, readNumber_of_lt (by rw [hvalue]; decide), hvalue]
    rfl
  refine ⟨htoken, fun v => rfl, fun h => ?_⟩
  exact ((h .natNumber maxUnsigned).2 (-1) htoken).2.1 rfl

end FShell.Fql
