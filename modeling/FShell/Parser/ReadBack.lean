import FShell.Parser.Scanning

/-!
# Reading printed patterns

What the parser makes of the texts that `FQL_AST_Printer` writes.  `Reads`
follows a text from one control state to another, token by token; the printed
operands of a node are read by induction on the pattern, and the characters
between them are single tokens.

A printed pattern need not be read as itself.  A negative number is written
with a sign, for which there is no token; of a repetition with an upper bound
the lower bound is not written; and `ID` is no token in an `IN` clause.
-/

namespace FShell.Fql

variable {P : Type} (parsePredicate : String → Option P)

/-! ## Steps -/

/-- The parser goes on. -/
def Config.Step (c d : Config P) : Prop :=
  ∃ p events, c = .running p ∧ p.step parsePredicate = (d, events)

/-- The parser comes to `d`. -/
abbrev Leads : Config P → Config P → Prop := Relation.ReflTransGen (Config.Step parsePredicate)

/-- A token that is looked at in `c` is shifted, and `d` is the state then. -/
inductive Shifts (t : Token) : Control P → Control P → Prop
  | shift {c d : Control P} {events : List (Event P)} (hred : c.reduction = none)
      (h : c.onToken parsePredicate t = .shift d events) : Shifts t c d
  | reduce {c c₁ d : Control P} {events : List (Event P)} (hred : c.reduction = none)
      (h : c.onToken parsePredicate t = .reduce c₁ events) (hrest : Shifts t c₁ d) : Shifts t c d
  | reduction {c c₁ d : Control P} {events : List (Event P)}
      (h : c.reduction = some (c₁, events)) (hrest : Shifts t c₁ d) : Shifts t c d

/-- What reading a text comes to: a control state in front of the rest, or a
failure. -/
def ReadsTo (start : StartCondition) (rest : List Char) : Option (Control P) → Config P → Prop
  | some d, cfg => ∃ backup, cfg = .running ⟨d, ⟨start, backup, rest⟩, none⟩
  | none, cfg => ∃ outcome, cfg = .done outcome ∧ ∀ q, outcome ≠ .accepted q

/-- From `c` on the parser reads `text`, unless an identifier goes on behind
it. -/
def Reads (start : StartCondition) (c : Control P) (text : List Char)
    (result : Option (Control P)) : Prop :=
  ∀ backup rest, Delimited rest → ∃ cfg,
    Leads parsePredicate (.running ⟨c, ⟨start, backup, text ++ rest⟩, none⟩) cfg ∧
      ReadsTo start rest result cfg

/-- The outcome from here on. -/
def Config.outcome : Config P → Outcome P
  | running p => (p.run parsePredicate).1
  | done outcome => outcome

variable {parsePredicate}

/-- The outcome does not depend on how far the parser has got. -/
theorem Config.Step.outcome_eq {c d : Config P} (h : c.Step parsePredicate d) :
    c.outcome parsePredicate = d.outcome parsePredicate := by
  obtain ⟨p, events, rfl, hstep⟩ := h
  cases d with
  | running q => rw [outcome, outcome, Parsing.run_running hstep]
  | done outcome => rw [Config.outcome, Config.outcome, Parsing.run_done hstep]

/-- What leads to a configuration has its outcome. -/
theorem Leads.outcome_eq {c d : Config P} (h : Leads parsePredicate c d) :
    c.outcome parsePredicate = d.outcome parsePredicate := by
  induction h with
  | refl => rfl
  | tail _ hstep ih => rw [ih, hstep.outcome_eq]

/-- One step leads on. -/
theorem Leads.of_step {p : Parsing P} {d : Config P} {events : List (Event P)}
    (h : p.step parsePredicate = (d, events)) : Leads parsePredicate (.running p) d :=
  Relation.ReflTransGen.single ⟨p, events, rfl, h⟩

/-- A token is shifted. -/
theorem step_of_shift {c d : Control P} {l : LexerState} {t : Token} {events : List (Event P)}
    (hred : c.reduction = none) (h : c.onToken parsePredicate t = .shift d events) :
    Parsing.step parsePredicate ⟨c, l, some t⟩ = (.running ⟨d, l, none⟩, events) := by
  simp only [Parsing.step, hred, Parsing.advance, h, Parsing.react]

/-- A token makes the parser reduce. -/
theorem step_of_reduce {c d : Control P} {l : LexerState} {t : Token} {events : List (Event P)}
    (hred : c.reduction = none) (h : c.onToken parsePredicate t = .reduce d events) :
    Parsing.step parsePredicate ⟨c, l, some t⟩ = (.running ⟨d, l, some t⟩, events) := by
  simp only [Parsing.step, hred, Parsing.advance, h, Parsing.react]

/-- A step that asks for a token. -/
theorem step_of_scan {c : Control P} {l l' : LexerState} {t : Token} (hred : c.reduction = none)
    (hscan : l.scan = .token t l') :
    Parsing.step parsePredicate ⟨c, l, none⟩ = (.running ⟨c, l', some t⟩, []) := by
  simp only [Parsing.step, hred, Parsing.advance, Parsing.read, hscan]

/-- The parser reduces without a token. -/
theorem step_of_reduction {c d : Control P} {events : List (Event P)} {l : LexerState}
    {lookahead : Option Token} (h : c.reduction = some (d, events)) :
    Parsing.step parsePredicate ⟨c, l, lookahead⟩ = (.running ⟨d, l, lookahead⟩, events) := by
  simp only [Parsing.step, h]

/-- What is shifted is taken off the lookahead. -/
theorem Shifts.leads {t : Token} {c d : Control P} (h : Shifts parsePredicate t c d)
    (l : LexerState) :
    Leads parsePredicate (.running ⟨c, l, some t⟩) (.running ⟨d, l, none⟩) := by
  induction h with
  | shift hred h => exact Leads.of_step (step_of_shift hred h)
  | reduce hred h _ ih => exact (Leads.of_step (step_of_reduce hred h)).trans ih
  | reduction h _ ih => exact (Leads.of_step (step_of_reduction h)).trans ih

/-- What is scanned and shifted. -/
theorem Shifts.leads_of_scan {t : Token} {c d : Control P} (h : Shifts parsePredicate t c d)
    {l l' : LexerState} (hscan : l.scan = .token t l') :
    Leads parsePredicate (.running ⟨c, l, none⟩) (.running ⟨d, l', none⟩) := by
  induction h with
  | shift hred h =>
      exact (Leads.of_step (step_of_scan hred hscan)).trans ((Shifts.shift hred h).leads l')
  | reduce hred h hrest _ =>
      exact (Leads.of_step (step_of_scan hred hscan)).trans ((Shifts.reduce hred h hrest).leads l')
  | reduction h _ ih => exact (Leads.of_step (step_of_reduction h)).trans ih

/-! ## Reading a text -/

/-- The character is a token, whatever follows it. -/
def IsToken (start : StartCondition) (x : Char) (t : Token) : Prop :=
  ∀ backup rest, LexerState.scan ⟨start, backup, x :: rest⟩ = .token t ⟨start, backup, rest⟩

/-- The word is a token, unless an identifier goes on behind it. -/
def IsWordToken (start : StartCondition) (word : List Char) (t : Token) : Prop :=
  ∀ backup rest, Delimited rest →
    LexerState.scan ⟨start, backup, word ++ rest⟩ = .token t ⟨start, backup, rest⟩

section

variable {start : StartCondition} {c d : Control P} {text : List Char} {t : Token}
  {result : Option (Control P)}

/-- Nothing is read. -/
theorem Reads.nil : Reads parsePredicate start c [] (some c) :=
  fun backup _ _ => ⟨_, Relation.ReflTransGen.refl, backup, rfl⟩

/-- Characters that are a token together, and what follows them. -/
theorem Reads.characters {front : List Char}
    (hfront : ∀ backup rest, LexerState.scan ⟨start, backup, front ++ rest⟩ =
      .token t ⟨start, backup, rest⟩)
    (hshift : Shifts parsePredicate t c d) (h : Reads parsePredicate start d text result) :
    Reads parsePredicate start c (front ++ text) result := by
  intro backup rest hrest
  obtain ⟨cfg, hleads, hto⟩ := h backup rest hrest
  refine ⟨cfg, ?_, hto⟩
  rw [List.append_assoc]
  exact (hshift.leads_of_scan (hfront backup (text ++ rest))).trans hleads

/-- A character, and what follows it. -/
theorem Reads.character {x : Char} (hx : IsToken start x t)
    (hshift : Shifts parsePredicate t c d) (h : Reads parsePredicate start d text result) :
    Reads parsePredicate start c (x :: text) result :=
  @Reads.characters _ _ _ _ _ text t result [x] hx hshift h

/-- A word, and what follows it. -/
theorem Reads.word {x : Char} {word : List Char} (hword : IsWordToken start word t)
    (hx : isIdentRest x = false) (hshift : Shifts parsePredicate t c d)
    (h : Reads parsePredicate start d (x :: text) result) :
    Reads parsePredicate start c (word ++ x :: text) result := by
  intro backup rest hrest
  obtain ⟨cfg, hleads, hto⟩ := h backup rest hrest
  refine ⟨cfg, ?_, hto⟩
  rw [List.append_assoc]
  exact (hshift.leads_of_scan (hword backup _ (delimited_cons hx))).trans hleads

/-- A word at the end of the text. -/
theorem Reads.lastWord {word : List Char} (hword : IsWordToken start word t)
    (hshift : Shifts parsePredicate t c d) :
    Reads parsePredicate start c word (some d) :=
  fun backup rest hrest => ⟨_, hshift.leads_of_scan (hword backup rest hrest), backup, rfl⟩

/-- A text that is read, and what follows it. -/
theorem Reads.append {α : Type} {x : Char} {front : List Char} {value : Option α}
    {got : α → Control P} {next : α → Option (Control P)} (hx : isIdentRest x = false)
    (h : Reads parsePredicate start c front (value.map got))
    (hnext : ∀ v ∈ value, Reads parsePredicate start (got v) (x :: text) (next v)) :
    Reads parsePredicate start c (front ++ x :: text) (value.bind next) := by
  intro backup rest hrest
  obtain ⟨cfg, hleads, hto⟩ := h backup (x :: text ++ rest) (delimited_cons hx)
  rw [List.append_assoc]
  cases value with
  | none => exact ⟨cfg, hleads, hto⟩
  | some v =>
      obtain ⟨backup', rfl⟩ := hto
      obtain ⟨cfg', hleads', hto'⟩ := hnext v rfl backup' rest hrest
      exact ⟨cfg', hleads.trans hleads', hto'⟩

/-- The scanner fails. -/
theorem Reads.fail (hred : c.reduction = none)
    (hscan : ∀ backup rest, LexerState.scan ⟨start, backup, text ++ rest⟩ = .unexpectedCharacter) :
    Reads parsePredicate start c text none := by
  intro backup rest _
  have hstep : Parsing.step parsePredicate ⟨c, ⟨start, backup, text ++ rest⟩, none⟩ =
      (.done .unexpectedCharacter, []) := by
    simp only [Parsing.step, hred, Parsing.advance, Parsing.read, hscan]
  exact ⟨_, Leads.of_step hstep, _, rfl, nofun⟩

section

variable {α β γ : Type} {oa : Option α} {ob : Option β} {a b : List Char} {x y : Char}
  {tx ty : Token} {got₁ second : α → Control P}

/-- An operand and the character behind it. -/
theorem Reads.operand {got : α → Control P} (hx : isIdentRest x = false)
    (htoken : IsToken start x tx) (h : Reads parsePredicate start c a (oa.map got₁))
    (hshift : ∀ v, Shifts parsePredicate tx (got₁ v) (got v)) :
    Reads parsePredicate start c (a ++ [x]) (oa.map got) := by
  have hnext : ∀ v ∈ oa, Reads parsePredicate start (got₁ v) [x] (some (got v)) :=
    fun v _ => Reads.character htoken (hshift v) Reads.nil
  have hreads := Reads.append hx h hnext
  rwa [Option.map_eq_bind]

/-- Two operands, with a character behind each of them. -/
theorem Reads.operands {f : α → β → γ} {got : γ → Control P} {got₂ : α → β → Control P}
    (hx : isIdentRest x = false) (hy : isIdentRest y = false)
    (htokenx : IsToken start x tx) (htokeny : IsToken start y ty)
    (ha : Reads parsePredicate start c a (oa.map got₁))
    (hshiftx : ∀ v, Shifts parsePredicate tx (got₁ v) (second v))
    (hb : ∀ v, Reads parsePredicate start (second v) b (ob.map (got₂ v)))
    (hshifty : ∀ v w, Shifts parsePredicate ty (got₂ v w) (got (f v w))) :
    Reads parsePredicate start c (a ++ x :: (b ++ [y]))
      ((oa.bind fun v => ob.map (f v)).map got) := by
  have hnext : ∀ v ∈ oa, Reads parsePredicate start (got₁ v) (x :: (b ++ [y]))
      (ob.map fun w => got (f v w)) :=
    fun v _ => Reads.character htokenx (hshiftx v)
      (Reads.operand hy htokeny (hb v) (hshifty v))
  have hreads := Reads.append hx ha hnext
  have hmap : (oa.bind fun v => ob.map fun w => got (f v w)) =
      (oa.bind fun v => ob.map (f v)).map got := by
    cases oa with
    | none => rfl
    | some v => cases ob <;> rfl
  rwa [← hmap]

end

end

/-! ## What is read back -/

/-- The numbers of a 32-bit `int`. -/
def IsInt (n : Int) : Prop := -2 ^ 31 ≤ n ∧ n < 2 ^ 31

/-- A printed number. -/
def readBackInt (n : Int) : Option Int := if n < 0 then none else some n

/-- A printed filter function. -/
def readBackFunction (start : StartCondition) : FilterFunction → Option FilterFunction
  | .fIdentity => if start = .queryScope then none else some .fIdentity
  | .fLine n => (readBackInt n).map .fLine
  | .fColumn n => (readBackInt n).map .fColumn
  | f => some f

/-- A printed filter. -/
def readBackFilter (start : StartCondition) : FilterExpr → Option FilterExpr
  | .filterFunction f => (readBackFunction start f).map .filterFunction
  | .filterCompose a b =>
      (readBackFilter start a).bind fun a => (readBackFilter start b).map (.filterCompose a)
  | .filterIntersection a b =>
      (readBackFilter start a).bind fun a => (readBackFilter start b).map (.filterIntersection a)
  | .filterSetminus a b =>
      (readBackFilter start a).bind fun a => (readBackFilter start b).map (.filterSetminus a)
  | .filterUnion a b =>
      (readBackFilter start a).bind fun a => (readBackFilter start b).map (.filterUnion a)

/-- The filter functions that the scanner has tokens for. -/
def FunctionIn (start : StartCondition) : FilterFunction → Prop
  | .fIdentity => True
  | .fFile s => '\'' ∉ s.toList
  | .fFunc s => IsIdentifier start s
  | .fLine n | .fColumn n => start ∈ inPatterns ∧ IsInt n
  | .fLabel s | .fCall s | .fEntry s | .fExit s | .fDef s | .fUse s =>
      start ∈ inPatterns ∧ IsIdentifier start s
  | .fCalls | .fBasicblockentry | .fConditionedge => start ∈ inPatterns
  | .fStmttype types => start ∈ inPatterns ∧ 0 < types ∧ types < 64
  | .fExpr _ | .fRegexp _ | .fDecisionedge | .fConditiongraph => False

/-- The filters that the parser delivers in a clause. -/
def FilterIn (start : StartCondition) : FilterExpr → Prop
  | .filterFunction f => FunctionIn start f
  | .filterCompose a b | .filterIntersection a b | .filterSetminus a b | .filterUnion a b =>
      FilterIn start a ∧ FilterIn start b

/-! ### Filter functions -/

/-- How a filter function with an argument is written. -/
def ArgFunction.name : ArgFunction → List Char
  | file => "@FILE".toList
  | line => "@LINE".toList
  | column => "@COLUMN".toList
  | func => "@FUNC".toList
  | label => "@LABEL".toList
  | call => "@CALL".toList
  | entry => "@ENTRY".toList
  | exit => "@EXIT".toList
  | defined => "@DEF".toList
  | used => "@USE".toList

/-- Its token. -/
def ArgFunction.token : ArgFunction → Token
  | file => .tokFile
  | line => .tokLine
  | column => .tokColumn
  | func => .tokFunc
  | label => .tokLabel
  | call => .tokCall
  | entry => .tokEntry
  | exit => .tokExit
  | defined => .tokDef
  | used => .tokUse

/-- Where there is such a token. -/
def ArgFunction.starts : ArgFunction → List StartCondition
  | file => inQuery
  | func => inQuery
  | _ => inPatterns

/-- The name of a function is a word. -/
theorem ArgFunction.name_isWord (f : ArgFunction) : IsWord f.name := by
  cases f <;> exact isWord_cons rfl

/-- Its own rule has the longest match. -/
theorem ArgFunction.longest_name {f : ArgFunction} {start : StartCondition}
    (hstart : start ∈ f.starts) :
    longest start f.name rules = some (f.name.length, .token f.token) := by
  cases f <;>
    simp only [starts, inQuery, inPatterns, List.mem_cons, List.not_mem_nil, or_false] at hstart <;>
    (rcases hstart with rfl | rfl | rfl <;> rfl)

section

variable {start : StartCondition}

/-- A word is read as the token of its rule. -/
theorem isWordToken {word : List Char} {t : Token} (hword : IsWord word)
    (hlongest : longest start word rules = some (word.length, .token t)) :
    IsWordToken start word t :=
  fun _ _ hrest => scan_token hword hlongest hrest

/-- An opening parenthesis is read. -/
theorem isToken_lParenthesis : IsToken start '(' .tokLParenthesis := by
  intro backup rest
  cases start <;> rfl

/-- A comma is read. -/
theorem isToken_comma : IsToken start ',' .tokComma := by
  intro backup rest
  cases start <;> rfl

variable (hstart : start ∈ inQuery)

include hstart

/-- A closing parenthesis is read. -/
theorem isToken_rParenthesis : IsToken start ')' .tokRParenthesis := by
  intro backup rest
  rcases mem_inQuery_iff.mp hstart with rfl | rfl | rfl <;> rfl

/-- A bar is read. -/
theorem isToken_tgunion : IsToken start '|' .tokTgunion := by
  intro backup rest
  rcases mem_inQuery_iff.mp hstart with rfl | rfl | rfl <;> rfl

/-- An ampersand is read. -/
theorem isToken_tgintersect : IsToken start '&' .tokTgintersect := by
  intro backup rest
  rcases mem_inQuery_iff.mp hstart with rfl | rfl | rfl <;> rfl

variable {k : FilterCont P}

/-- A filter function with an argument. -/
theorem reads_argFunction {f : ArgFunction} {arg : List Char} {value : Option FilterFunction}
    (hf : start ∈ f.starts)
    (harg : Reads parsePredicate start (.functionArgument f k) arg
      (value.map fun g => .functionClosing g k)) :
    Reads parsePredicate start (.filter k) (f.name ++ '(' :: (arg ++ [')']))
      (value.map fun g => .gotFilter (.filterFunction g) k) := by
  have hname : IsWordToken start f.name f.token :=
    isWordToken f.name_isWord (ArgFunction.longest_name hf)
  have hopen : Shifts parsePredicate f.token (.filter k) (.functionOpening f k) := by
    cases f <;> exact Shifts.shift rfl rfl
  have hargument : Shifts parsePredicate .tokLParenthesis (.functionOpening f k)
      (.functionArgument f k) := Shifts.shift rfl rfl
  refine Reads.word hname rfl hopen (Reads.character isToken_lParenthesis hargument ?_)
  exact Reads.operand rfl (isToken_rParenthesis hstart) harg fun g => Shifts.shift rfl rfl

omit hstart in
/-- The argument of a filter function. -/
theorem shifts_argument {f : ArgFunction} {t : Token} {g : FilterFunction}
    (hg : f.apply t = some g) :
    Shifts parsePredicate t (.functionArgument f k) (.functionClosing g k) := by
  have hshift : (Control.functionArgument f k).onToken parsePredicate t =
      .shift (.functionClosing g k) [] := by
    simp only [Control.onToken, hg]
  exact Shifts.shift rfl hshift

omit hstart in
/-- An identifier between the parentheses of a function. -/
theorem reads_identifier {f : ArgFunction} {s : String} {g : FilterFunction}
    (hs : IsIdentifier start s) (hg : f.apply (.tokCIdent s) = some g) :
    Reads parsePredicate start (.functionArgument f k) s.toList
      ((some g).map fun g => .functionClosing g k) := by
  have hword : IsWordToken start s.toList (.tokCIdent s) :=
    fun _ _ hrest => scan_identifier hs hrest
  exact Reads.lastWord hword (shifts_argument hg)

omit hstart in
/-- A number there. -/
theorem reads_int {c : Control P} {got : Int → Control P} {n : Int} (hn : IsInt n)
    (hpatterns : start ∈ inPatterns) (hred : c.reduction = none)
    (hshift : Shifts parsePredicate (.tokNatNumber n) c (got n)) :
    Reads parsePredicate start c (printInt n) ((readBackInt n).map got) := by
  unfold readBackInt
  split_ifs with hneg
  · exact Reads.fail hred fun backup rest => scan_negative hpatterns hneg
  · have hword : IsWordToken start (printInt n) (.tokNatNumber n) := fun _ _ hrest =>
      scan_natNumber hpatterns (Int.not_lt.mp hneg) hn.2 hrest
    exact Reads.lastWord hword hshift

/-- A text between single quotes. -/
theorem reads_quoted {s : String} (hs : '\'' ∉ s.toList) :
    Reads parsePredicate start (.functionArgument .file k) (quoted s)
      ((some (FilterFunction.fFile s)).map fun g => .functionClosing g k) := by
  have hword : IsWordToken start (quoted s) (.tokQuotedString s) := fun _ _ _ => scan_quoted hstart hs
  exact Reads.lastWord hword (Shifts.shift rfl rfl)

end

/-! ### Statement types -/

section

variable {start : StartCondition} {k : FilterCont P}

/-- The statement types are scanned in their own start condition. -/
theorem scan_stmttype : ∀ t ∈ stmtTypes, ∃ token, stmttypeBit token = some t.1 ∧
    ∀ backup rest, LexerState.scan ⟨.stmttype, backup, t.2.toList ++ rest⟩ =
      .token token ⟨.stmttype, backup, rest⟩ := by
  intro t ht
  simp only [stmtTypes, List.mem_cons, List.not_mem_nil, or_false] at ht
  rcases ht with rfl | rfl | rfl | rfl | rfl | rfl
  · exact ⟨.tokSttIf, rfl, fun _ _ => rfl⟩
  · exact ⟨.tokSttFor, rfl, fun _ _ => rfl⟩
  · exact ⟨.tokSttWhile, rfl, fun _ _ => rfl⟩
  · exact ⟨.tokSttSwitch, rfl, fun _ _ => rfl⟩
  · exact ⟨.tokSttCondop, rfl, fun _ _ => rfl⟩
  · exact ⟨.tokSttAssert, rfl, fun _ _ => rfl⟩

/-- The statement types of a list, one after the other. -/
def orStmttypes (ts : List (Nat × String)) (types : Nat) : Nat :=
  ts.foldl (fun types t => types ||| 1 <<< t.1) types

/-- The list of statement types is read to its closing parenthesis. -/
theorem leads_stmttypes {ts : List (Nat × String)} (hne : ts ≠ [])
    (hts : ∀ t ∈ ts, t ∈ stmtTypes) (types : Nat) (rest : List Char) :
    Leads parsePredicate
      (.running ⟨.stmttype types k, ⟨.stmttype, start,
        [','].intercalate (ts.map fun t => t.2.toList) ++ ')' :: rest⟩, none⟩)
      (.running ⟨.gotFilter (.filterFunction (.fStmttype (orStmttypes ts types))) k,
        ⟨start, start, rest⟩, none⟩) := by
  induction ts generalizing types with
  | nil => exact absurd rfl hne
  | cons t ts ih =>
      obtain ⟨token, hbit, hscan⟩ := scan_stmttype t (hts t List.mem_cons_self)
      have hshift : Shifts parsePredicate token (.stmttype types k)
          (.gotStmttypes (types ||| 1 <<< t.1) k) := by
        have honToken : (Control.stmttype types k).onToken parsePredicate token =
            .shift (.gotStmttypes (types ||| 1 <<< t.1) k) [] := by
          simp only [Control.onToken, hbit]
        exact Shifts.shift rfl honToken
      cases ts with
      | nil =>
          have hclose : Shifts parsePredicate .tokRParenthesis
              (.gotStmttypes (types ||| 1 <<< t.1) k)
              (.gotFilter (.filterFunction (.fStmttype (types ||| 1 <<< t.1))) k) :=
            Shifts.shift rfl rfl
          have hscanClose : LexerState.scan ⟨.stmttype, start, ')' :: rest⟩ =
              .token .tokRParenthesis ⟨start, start, rest⟩ := rfl
          rw [List.map_singleton, List.intercalate_singleton]
          exact (hshift.leads_of_scan (hscan start (')' :: rest))).trans
            (hclose.leads_of_scan hscanClose)
      | cons t' ts =>
          have hcomma : Shifts parsePredicate .tokComma
              (.gotStmttypes (types ||| 1 <<< t.1) k) (.stmttype (types ||| 1 <<< t.1) k) :=
            Shifts.shift rfl rfl
          have hrest := ih (List.cons_ne_nil t' ts) (fun s hs => hts s (List.mem_cons_of_mem _ hs))
            (types ||| 1 <<< t.1)
          rw [List.map_cons, List.map_cons, List.intercalate_cons_cons, List.append_assoc,
            List.append_assoc]
          refine (hshift.leads_of_scan (hscan start _)).trans ?_
          exact (hcomma.leads_of_scan (isToken_comma start _)).trans hrest

/-- The bits that are set are those that are listed. -/
theorem orStmttypes_filter : ∀ types < 64,
    orStmttypes (stmtTypes.filter fun t => types.testBit t.1) 0 = types := by
  decide

/-- Some statement type is listed. -/
theorem stmtTypes_filter_ne_nil : ∀ types < 64, 0 < types →
    (stmtTypes.filter fun t => types.testBit t.1) ≠ [] := by
  decide

/-- A call in front of other text. -/
theorem printCall_append (name : String) (arg rest : List Char) :
    printCall name arg ++ rest = name.toList ++ '(' :: (arg ++ ')' :: rest) := by
  simp only [printCall, List.append_assoc, List.cons_append, List.nil_append]

/-- The word that switches to statement types. -/
theorem scan_stmttypeWord (hpatterns : start ∈ inPatterns) (backup : StartCondition)
    (rest : List Char) :
    LexerState.scan ⟨start, backup, "@STMTTYPE".toList ++ '(' :: rest⟩ =
      .token .tokStmttype ⟨.stmttype, start, '(' :: rest⟩ := by
  have hlongest : longest start "@STMTTYPE".toList rules =
      some ("@STMTTYPE".toList.length, .beginStmttype) := by
    rcases mem_inPatterns_iff.mp hpatterns with rfl | rfl <;> rfl
  have hword : IsWord "@STMTTYPE".toList := isWord_cons rfl
  rw [scan_word hword hlongest (delimited_cons rfl), Action.perform]

/-- The statement types are read back. -/
theorem reads_stmttype {types : Nat} (hpatterns : start ∈ inPatterns) (hpos : 0 < types)
    (hlt : types < 64) :
    Reads parsePredicate start (.filter k) (FilterFunction.fStmttype types).print
      (some (.gotFilter (.filterFunction (.fStmttype types)) k)) := by
  intro backup rest _
  have hopen : Shifts parsePredicate .tokStmttype (.filter k) (.stmttypeOpening k) :=
    Shifts.shift rfl rfl
  have hparen : Shifts parsePredicate .tokLParenthesis (.stmttypeOpening k) (.stmttype 0 k) :=
    Shifts.shift rfl rfl
  have hlist : Leads parsePredicate
      (.running ⟨.stmttype 0 k, ⟨.stmttype, start, printStmttypes types ++ ')' :: rest⟩, none⟩)
      (.running ⟨.gotFilter (.filterFunction (.fStmttype types)) k, ⟨start, start, rest⟩, none⟩) := by
    have hleads := @leads_stmttypes P parsePredicate start k _
      (stmtTypes_filter_ne_nil types hlt hpos) (fun t ht => List.mem_of_mem_filter ht) 0 rest
    rw [orStmttypes_filter types hlt] at hleads
    exact hleads
  have hprint : (FilterFunction.fStmttype types).print ++ rest =
      "@STMTTYPE".toList ++ '(' :: (printStmttypes types ++ ')' :: rest) :=
    printCall_append _ _ _
  refine ⟨_, ?_, start, rfl⟩
  rw [hprint]
  refine (hopen.leads_of_scan (scan_stmttypeWord hpatterns backup _)).trans ?_
  exact (hparen.leads_of_scan (isToken_lParenthesis start _)).trans hlist

end

/-! ### Filters -/

section

variable {start : StartCondition} (hstart : start ∈ inQuery)

include hstart

omit hstart in
/-- A filter function without an argument. -/
theorem reads_plainFunction {word : List Char} {t : Token} {f : FilterFunction} (k : FilterCont P)
    (hword : IsWordToken start word t)
    (hshift : Shifts parsePredicate t (.filter k) (.gotFilter (.filterFunction f) k)) :
    Reads parsePredicate start (.filter k) word
      ((some f).map fun g => .gotFilter (.filterFunction g) k) :=
  Reads.lastWord hword hshift

/-- `ID` is an identifier in an `IN` clause. -/
theorem reads_identity (k : FilterCont P) :
    Reads parsePredicate start (.filter k) "ID".toList
      ((readBackFunction start .fIdentity).map fun g => .gotFilter (.filterFunction g) k) := by
  have hword : IsWord "ID".toList := isWord_cons rfl
  rcases mem_inQuery_iff.mp hstart with rfl | rfl | rfl
  · intro backup rest hrest
    have hscan := @scan_word .queryScope backup _ rest .cIdent hword rfl hrest
    have hshown : Parsing.step parsePredicate
        ⟨.filter k, ⟨.queryScope, backup, rest⟩, some (.tokCIdent "ID")⟩ =
        (.done .grammarError, []) := rfl
    refine ⟨_, (Leads.of_step (step_of_scan rfl hscan)).trans (Leads.of_step hshown), _, rfl, ?_⟩
    rintro q ⟨⟩
  · exact reads_plainFunction k (isWordToken hword rfl) (Shifts.shift rfl rfl)
  · exact reads_plainFunction k (isWordToken hword rfl) (Shifts.shift rfl rfl)

omit hstart in
/-- The tokens of the other functions without an argument. -/
theorem isWordToken_plain (hpatterns : start ∈ inPatterns) :
    IsWordToken start "@CALLS".toList .tokCalls ∧
      IsWordToken start "@BASICBLOCKENTRY".toList .tokBasicblockentry ∧
      IsWordToken start "@CONDITIONEDGE".toList .tokConditionedge := by
  rcases mem_inPatterns_iff.mp hpatterns with rfl | rfl
  · exact ⟨isWordToken (isWord_cons rfl) rfl, isWordToken (isWord_cons rfl) rfl,
      isWordToken (isWord_cons rfl) rfl⟩
  · exact ⟨isWordToken (isWord_cons rfl) rfl, isWordToken (isWord_cons rfl) rfl,
      isWordToken (isWord_cons rfl) rfl⟩

/-- A function of a number. -/
theorem reads_intFunction {f : ArgFunction} {n : Int} {g : Int → FilterFunction}
    (k : FilterCont P) (hf : start ∈ f.starts) (hpatterns : start ∈ inPatterns) (hn : IsInt n)
    (hg : f.apply (.tokNatNumber n) = some (g n)) :
    Reads parsePredicate start (.filter k) (f.name ++ '(' :: (printInt n ++ [')']))
      (((readBackInt n).map g).map fun g => .gotFilter (.filterFunction g) k) := by
  have harg := @reads_int P parsePredicate start (.functionArgument f k)
    (fun n => .functionClosing (g n) k) n hn hpatterns rfl (shifts_argument hg)
  refine reads_argFunction hstart hf ?_
  rw [Option.map_map]
  exact harg

/-- The filter functions. -/
theorem reads_function {f : FilterFunction} (hf : FunctionIn start f) (k : FilterCont P) :
    Reads parsePredicate start (.filter k) f.print
      ((readBackFunction start f).map fun g => .gotFilter (.filterFunction g) k) := by
  cases f with
  | fIdentity => exact reads_identity hstart k
  | fFile s => exact reads_argFunction hstart (f := .file) hstart (reads_quoted hstart hf)
  | fLine n => exact reads_intFunction hstart (f := .line) k hf.1 hf.1 hf.2 rfl
  | fColumn n => exact reads_intFunction hstart (f := .column) k hf.1 hf.1 hf.2 rfl
  | fFunc s => exact reads_argFunction hstart (f := .func) hstart (reads_identifier hf rfl)
  | fLabel s => exact reads_argFunction hstart (f := .label) hf.1 (reads_identifier hf.2 rfl)
  | fCall s => exact reads_argFunction hstart (f := .call) hf.1 (reads_identifier hf.2 rfl)
  | fCalls => exact reads_plainFunction k (isWordToken_plain hf).1 (Shifts.shift rfl rfl)
  | fEntry s => exact reads_argFunction hstart (f := .entry) hf.1 (reads_identifier hf.2 rfl)
  | fExit s => exact reads_argFunction hstart (f := .exit) hf.1 (reads_identifier hf.2 rfl)
  | fExpr s => exact hf.elim
  | fRegexp s => exact hf.elim
  | fBasicblockentry =>
      exact reads_plainFunction k (isWordToken_plain hf).2.1 (Shifts.shift rfl rfl)
  | fConditionedge =>
      exact reads_plainFunction k (isWordToken_plain hf).2.2 (Shifts.shift rfl rfl)
  | fDecisionedge => exact hf.elim
  | fConditiongraph => exact hf.elim
  | fDef s => exact reads_argFunction hstart (f := .defined) hf.1 (reads_identifier hf.2 rfl)
  | fUse s => exact reads_argFunction hstart (f := .used) hf.1 (reads_identifier hf.2 rfl)
  | fStmttype types => exact reads_stmttype hf.1 hf.2.1 hf.2.2

/-- `SETMINUS` is read. -/
theorem isWordToken_setminus : IsWordToken start "SETMINUS".toList .tokSetminus := by
  rcases mem_inQuery_iff.mp hstart with rfl | rfl | rfl <;> exact isWordToken (isWord_cons rfl) rfl

/-- `COMPOSE` is read. -/
theorem isWordToken_compose : IsWordToken start "COMPOSE".toList .tokCompose := by
  rcases mem_inQuery_iff.mp hstart with rfl | rfl | rfl <;> exact isWordToken (isWord_cons rfl) rfl

omit hstart in
/-- A call with two arguments. -/
theorem printCall_pair (name : String) (x : Char) (a b : List Char) :
    printCall name (a ++ x :: b) = name.toList ++ '(' :: (a ++ x :: (b ++ [')'])) := by
  simp only [printCall, List.append_assoc, List.cons_append]

/-- **Filters are read operand by operand.** -/
theorem reads_filter {f : FilterExpr} (hf : FilterIn start f) (k : FilterCont P) :
    Reads parsePredicate start (.filter k) f.print
      ((readBackFilter start f).map fun g => .gotFilter g k) := by
  have hclose := isToken_rParenthesis hstart
  induction f generalizing k with
  | filterFunction f =>
      have hreads := @reads_function P parsePredicate start hstart f hf k
      rw [readBackFilter, Option.map_map]
      exact hreads
  | filterCompose a b iha ihb =>
      have hopen : Shifts parsePredicate .tokCompose (.filter k) (.opening (.composeFirst k)) :=
        Shifts.shift rfl rfl
      have hparen : Shifts parsePredicate .tokLParenthesis (.opening (.composeFirst k))
          (.filter (.composeFirst k)) := Shifts.shift rfl rfl
      rw [FilterExpr.print, printCall_pair, readBackFilter]
      refine Reads.word (isWordToken_compose hstart) rfl hopen
        (Reads.character isToken_lParenthesis hparen ?_)
      exact Reads.operands rfl rfl isToken_comma hclose (iha hf.1 (.composeFirst k))
        (fun v => Shifts.shift rfl rfl) (fun v => ihb hf.2 (.composeSecond v k))
        (fun v w => Shifts.shift rfl rfl)
  | filterSetminus a b iha ihb =>
      have hopen : Shifts parsePredicate .tokSetminus (.filter k) (.opening (.setminusFirst k)) :=
        Shifts.shift rfl rfl
      have hparen : Shifts parsePredicate .tokLParenthesis (.opening (.setminusFirst k))
          (.filter (.setminusFirst k)) := Shifts.shift rfl rfl
      rw [FilterExpr.print, printCall_pair, readBackFilter]
      refine Reads.word (isWordToken_setminus hstart) rfl hopen
        (Reads.character isToken_lParenthesis hparen ?_)
      exact Reads.operands rfl rfl isToken_comma hclose (iha hf.1 (.setminusFirst k))
        (fun v => Shifts.shift rfl rfl) (fun v => ihb hf.2 (.setminusSecond v k))
        (fun v w => Shifts.shift rfl rfl)
  | filterIntersection a b iha ihb =>
      have hparen : Shifts parsePredicate .tokLParenthesis (.filter k) (.filter (.parenthesis k)) :=
        Shifts.shift rfl rfl
      rw [FilterExpr.print, printInfix, readBackFilter]
      refine Reads.character isToken_lParenthesis hparen ?_
      exact Reads.operands rfl rfl (isToken_tgintersect hstart) hclose (iha hf.1 (.parenthesis k))
        (fun v => Shifts.shift rfl rfl) (fun v => ihb hf.2 (.intersection v (.parenthesis k)))
        (fun v w => Shifts.reduction rfl (Shifts.shift rfl rfl))
  | filterUnion a b iha ihb =>
      have hparen : Shifts parsePredicate .tokLParenthesis (.filter k) (.filter (.parenthesis k)) :=
        Shifts.shift rfl rfl
      rw [FilterExpr.print, printInfix, readBackFilter]
      refine Reads.character isToken_lParenthesis hparen ?_
      exact Reads.operands rfl rfl (isToken_tgunion hstart) hclose (iha hf.1 (.parenthesis k))
        (fun v => Shifts.shift rfl rfl) (fun v => ihb hf.2 (.union v (.parenthesis k)))
        (fun v w => Shifts.reduce rfl rfl (Shifts.shift rfl rfl))

end

end FShell.Fql
