import FShell.Parser.ReadQueries

/-!
# What the parser accepts

The identifiers, numbers and filter functions of an accepted query are those
of tokens that the scanner delivers in the clause where they stand.  The
invariant of a parse says so of everything on the stack, and of the start
condition that the scanner is in: it depends on the control state and on the
token that is looked at.
-/

namespace FShell.Fql

variable {P : Type}

/-! ## Tokens -/

/-- What is known of a token that is scanned in the start condition `s` with
`b` stored, where the scanner is in `s'` with `b'` stored afterwards. -/
def Scanned (s b s' b' : StartCondition) : Token → Prop
  | .tokIn => s' = .queryScope
  | .tokCover => s' = .queryCover
  | .tokPassing => s' = .queryPassing
  | .tokStmttype => s ∈ inPatterns ∧ s' = .stmttype ∧ b' = s
  | .tokRParenthesis => (s = .stmttype ∧ s' = b) ∨ (s ≠ .stmttype ∧ s' = s)
  | .tokCIdent name => IsIdentifier s name ∧ s' = s
  | .tokQuotedString text => '\'' ∉ text.toList ∧ s' = s
  | .tokNatNumber n | .tokLineAbbrev n => s ∈ inPatterns ∧ IsInt n ∧ s' = s
  | .tokIdentity | .tokLine | .tokColumn | .tokLabel | .tokCall | .tokCalls | .tokEntry | .tokExit
  | .tokBasicblockentry | .tokConditionedge | .tokDef | .tokUse => s ∈ inPatterns ∧ s' = s
  | .tokFile | .tokFunc => s ∈ inQuery ∧ s' = s
  | _ => s' = s ∧ b' = b

/-- A number that is stored fits. -/
theorem isInt_of_strtol {digits : List Char} {n : Int} (h : strtol digits = some n) : IsInt n := by
  unfold strtol at h
  split_ifs at h
  have hn : (digitsValue digits : Int).bmod (2 ^ 32) = n := Option.some.inj h
  have hlower := @Int.le_bmod (digitsValue digits : Int) (2 ^ 32) (by decide)
  have hupper := @Int.bmod_lt (digitsValue digits : Int) (2 ^ 32) (by decide)
  rw [hn] at hlower hupper
  exact ⟨by omega, by omega⟩

/-- A number token carries a number. -/
theorem numberToken_token {t : Token} {f : Int → Token} {l l' : LexerState} {n : Option Int}
    (h : numberToken f l n = .token t l') : ∃ m, n = some m ∧ t = f m ∧ l' = l := by
  cases n with
  | none => cases h
  | some m =>
      cases h
      exact ⟨m, rfl, rfl, rfl⟩

/-! ### Matched texts -/

/-- A span has fitting characters. -/
theorem of_mem_take_spanLength {p : Char → Bool} {text : List Char} :
    ∀ c ∈ text.take (spanLength p text), p c = true := by
  induction text with
  | nil => exact nofun
  | cons d text ih =>
      intro c hc
      unfold spanLength at hc
      split_ifs at hc with hd
      · rcases List.mem_cons.mp hc with rfl | hc
        · exact hd
        · exact ih c hc
      · cases hc

/-- Behind a span nothing fits. -/
theorem head_drop_spanLength {p : Char → Bool} {text : List Char} :
    ∀ c ∈ (text.drop (spanLength p text)).head?, p c = false := by
  induction text with
  | nil => exact nofun
  | cons d text ih =>
      intro c hc
      unfold spanLength at hc
      split_ifs at hc with hd
      · exact ih c hc
      · cases hc
        exact Bool.not_eq_true _ ▸ hd

/-- A span is part of the text. -/
theorem spanLength_le {p : Char → Bool} {text : List Char} : spanLength p text ≤ text.length := by
  induction text with
  | nil => exact le_rfl
  | cons d text ih =>
      simp only [spanLength, List.length_cons]
      split_ifs <;> omega

/-- The text of an identifier, with the one rule that reads it. -/
theorem isIdentifier_of_longest {start : StartCondition} {input : List Char} {n : Nat}
    (hmatch : Pattern.cIdent.matchLength input = some n)
    (h : longest start input rules = some (n, .cIdent)) :
    IsIdentifier start (String.ofList (input.take n)) := by
  cases input with
  | nil => cases hmatch
  | cons c text =>
      rw [Pattern.matchLength] at hmatch
      split_ifs at hmatch with hfirst
      cases hmatch
      have hc : isIdentRest c = true := by
        simp only [isIdentFirst, isIdentRest, Char.isAlphanum, Bool.or_eq_true] at hfirst ⊢
        exact hfirst.imp_right Or.inl
      have hword : IsWord ((c :: text).take (spanLength isIdentRest text + 1)) :=
        ⟨fun d hd => Or.inl (by cases hd; exact hc), List.cons_ne_nil _ _, of_mem_take_spanLength⟩
      have hrest : Delimited ((c :: text).drop (spanLength isIdentRest text + 1)) :=
        head_drop_spanLength
      have hsplit := List.take_append_drop (spanLength isIdentRest text + 1) (c :: text)
      have hlongest := @longest_append start _ _ hword hrest
      rw [hsplit, h] at hlongest
      have hlength : ((c :: text).take (spanLength isIdentRest text + 1)).length =
          spanLength isIdentRest text + 1 := by
        exact List.length_take_of_le (Nat.succ_le_succ spanLength_le)
      rw [IsIdentifier, String.toList_ofList]
      exact ⟨hword, by rw [← hlongest, hlength]⟩

/-- There is no quote in a text between quotes. -/
theorem quote_notMem_of_match {input : List Char} {n : Nat}
    (hmatch : Pattern.quotedString.matchLength input = some n) :
    '\'' ∉ (inner (input.take n)).toList := by
  unfold Pattern.matchLength at hmatch
  split at hmatch <;> try contradiction
  rename_i text _
  unfold matchClosed at hmatch
  split_ifs at hmatch with hclose
  cases hmatch
  have hlast : text.take (spanLength (· != '\'') text + 1) =
      text.take (spanLength (· != '\'') text) ++ ['\''] := by
    rw [List.take_add_one, ← List.head?_drop, hclose, Option.toList_some]
  rw [List.take_succ_cons, inner, List.tail_cons, hlast, List.dropLast_concat, String.toList_ofList]
  intro hmem
  have hquote := of_mem_take_spanLength '\'' hmem
  cases hquote

/-- A rule and the text that it matches, the longest of all. -/
structure Rule.Wins (rule : Rule) (l : LexerState) (n : Nat) : Prop where
  start : l.start ∈ rule.starts
  matched : rule.pattern.matchLength l.input = some n
  longest : longest l.start l.input rules = some (n, rule.action)

/-- What the rules deliver, one after the other. -/
theorem Rule.Wins.scanned {rule : Rule} {l l' : LexerState} {n : Nat} {t : Token}
    (h : rule.Wins l n) (hmem : rule ∈ rules)
    (hscan : rule.action.perform (l.input.take n) { l with input := l.input.drop n } =
      .token t l') :
    Scanned l.start l.backupState l'.start l'.backupState t := by
  have hinclusive : l.start ∈ inclusive → l.start ≠ .stmttype := by
    intro hstart heq
    rw [heq] at hstart
    revert hstart
    decide
  rw [rules] at hmem
  iterate 59
    obtain rfl | hmem := List.mem_cons.mp hmem
    · first
      | -- nothing is delivered
        cases hscan; done
      | -- a fixed token
        cases hscan
        first
        | exact rfl
        | exact ⟨rfl, rfl⟩
        | exact ⟨h.start, rfl⟩
        | exact ⟨h.start, rfl, rfl⟩
        | exact Or.inr ⟨hinclusive h.start, rfl⟩
        | exact Or.inl ⟨List.mem_singleton.mp h.start, rfl⟩
        | exact ⟨isIdentifier_of_longest h.matched h.longest, rfl⟩
        | exact ⟨quote_notMem_of_match h.matched, rfl⟩
      | -- a number
        obtain ⟨m, hm, rfl, rfl⟩ := numberToken_token hscan
        exact ⟨h.start, isInt_of_strtol hm, rfl⟩
  cases hmem

/-- What is known of a token that has been scanned. -/
theorem scanned_of_scan {l l' : LexerState} {t : Token} (h : l.scan = .token t l') :
    Scanned l.start l.backupState l'.start l'.backupState t := by
  cases hinput : l.input with
  | nil =>
      rw [LexerState.scan_nil hinput] at h
      cases h
      exact ⟨rfl, rfl⟩
  | cons c input =>
      have hne : l.input ≠ [] := hinput ▸ List.cons_ne_nil c input
      cases hlongest : longest l.start l.input rules with
      | none =>
          unfold LexerState.scan at h
          rw [hlongest, hinput] at h
          cases h
      | some best =>
          obtain ⟨n, action⟩ := best
          rw [scan_of_longest hne hlongest] at h
          obtain ⟨rule, hmem, hstart, hmatch, rfl⟩ := longest_mem hlongest
          exact Rule.Wins.scanned ⟨hstart, hmatch, hlongest⟩ hmem h

/-! ## The stack -/

/-- The filter of an `IN` clause is one of such a clause. -/
def ScopeIn (scope : Option FilterExpr) : Prop := ∀ f ∈ scope, FilterIn .queryScope f

/-- What is on the stack below a coverage pattern. -/
def CoverCont.In : CoverCont P → Prop
  | clause scope anchor => ScopeIn scope ∧ ∀ pp ∈ anchor, pp = idStar
  | alternative a k | concat a k | next a k => CoverIn .queryCover a ∧ k.In
  | parenthesis k => k.In

/-- The clause that a path pattern is in. -/
def PathCont.start : PathCont P → StartCondition
  | clause _ _ _ => .queryPassing
  | quote _ => .queryCover
  | alternative _ k | concat _ k | next _ k | parenthesis k => k.start

/-- What is on the stack below a path pattern. -/
def PathCont.In : PathCont P → Prop
  | clause scope cover anchor =>
      ScopeIn scope ∧ CoverIn .queryCover cover ∧ ∀ pp ∈ anchor, pp = idStar
  | quote k => k.In
  | alternative a k | concat a k | next a k => PathIn k.start a ∧ k.In
  | parenthesis k => k.In

/-- The clause that an atom is in. -/
def AtomCont.start : AtomCont P → StartCondition
  | cover _ => .queryCover
  | path k => k.start

/-- What is on the stack below an atom. -/
def AtomCont.In : AtomCont P → Prop
  | cover k => k.In
  | path k => k.In

/-- The clause that a filter is in. -/
def FilterCont.start : FilterCont P → StartCondition
  | scope => .queryScope
  | atom k | nodecov k | edgecov k | pathcov k => k.start
  | parenthesis k | negation k | union _ k | intersection _ k | setminusFirst k | setminusSecond _ k
  | composeFirst k | composeSecond _ k => k.start

/-- What is on the stack below a filter. -/
def FilterCont.In : FilterCont P → Prop
  | scope => True
  | atom k | nodecov k | edgecov k | pathcov k => k.In
  | parenthesis k | negation k | setminusFirst k | composeFirst k => k.In
  | union a k | intersection a k | setminusSecond a k | composeSecond a k =>
      FilterIn k.start a ∧ k.In

/-- Everything on the stack comes from tokens of its clause. -/
def Control.In : Control P → Prop
  | start => True
  | gotScope scope | coverAnchor scope => ScopeIn scope
  | coverFactor k => k.In
  | gotCoverFactor v k | gotCoverTerm v k | gotCover v k => CoverIn .queryCover v ∧ k.In
  | gotCoverClause scope cover | passingAnchor scope cover =>
      ScopeIn scope ∧ CoverIn .queryCover cover
  | pathFactor k => k.In
  | gotPathFactor v k | repeatBound _ v k | gotPathTerm v k | gotPath v k =>
      PathIn k.start v ∧ k.In
  | gotQuery q => QueryIn q
  | opening k | filter k => k.In
  | gotFilter f k | pathcovBound f k => FilterIn k.start f ∧ k.In
  | functionOpening f k | functionArgument f k => k.start ∈ f.starts ∧ k.In
  | functionClosing f k => FunctionIn k.start f ∧ k.In
  | stmttypeOpening k => k.start ∈ inPatterns ∧ k.In
  | stmttype types k => types < 64 ∧ k.start ∈ inPatterns ∧ k.In
  | gotStmttypes types k => 0 < types ∧ types < 64 ∧ k.start ∈ inPatterns ∧ k.In
  | pathcovClosing f bound k => (FilterIn k.start f ∧ IsInt bound) ∧ k.In

/-- Where the scanner is when the next token is asked for. -/
def Control.Expects (s b : StartCondition) : Control P → Prop
  | start => s = .initial
  | gotScope scope => s = if scope.isSome then .queryScope else .initial
  | coverAnchor _ | coverFactor _ | gotCoverFactor _ _ | gotCoverTerm _ _ | gotCover _ _
  | gotCoverClause _ _ => s = .queryCover
  | passingAnchor _ _ => s = .queryPassing
  | pathFactor k | gotPathFactor _ k | repeatBound _ _ k | gotPathTerm _ k | gotPath _ k =>
      s = k.start
  | gotQuery _ => True
  | opening k | filter k | gotFilter _ k | functionOpening _ k | functionArgument _ k
  | functionClosing _ k => s = k.start
  | stmttypeOpening k | stmttype _ k | gotStmttypes _ k => s = .stmttype ∧ b = k.start
  | pathcovBound _ k | pathcovClosing _ _ k => s = k.start

/-- The reaction keeps to the clauses; `s` and `b` belong to the token, `s'`
and `b'` come after it. -/
def Reaction.Keeps (s b s' b' : StartCondition) : Reaction P → Prop
  | shift c _ => c.In ∧ c.Expects s' b'
  | reduce c _ => c.In ∧ c.Expects s b
  | accept q => QueryIn q
  | syntaxError => True
  | predicateError => True

/-- `ID*` may stand in every clause. -/
theorem pathIn_idStar (start : StartCondition) :
    PathIn start (idStar : PathPattern FilterExpr P) :=
  ⟨trivial, ⟨by decide, by decide⟩, ⟨by decide, by decide⟩, Or.inl rfl⟩

/-- A clause starts in a condition of its own. -/
theorem PathCont.start_mem (k : PathCont P) : k.start ∈ inPatterns := by
  induction k with
  | clause scope cover anchor => exact (by decide : StartCondition.queryPassing ∈ inPatterns)
  | quote k => exact (by decide : StartCondition.queryCover ∈ inPatterns)
  | alternative a k ih => exact ih
  | concat a k ih => exact ih
  | next a k ih => exact ih
  | parenthesis k ih => exact ih

/-- Atoms stand in patterns. -/
theorem AtomCont.start_mem (k : AtomCont P) : k.start ∈ inPatterns := by
  cases k with
  | cover k => exact (by decide : StartCondition.queryCover ∈ inPatterns)
  | path k => exact k.start_mem

/-- Filters stand in queries. -/
theorem FilterCont.start_mem (k : FilterCont P) : k.start ∈ inQuery := by
  induction k with
  | scope => exact (by decide : StartCondition.queryScope ∈ inQuery)
  | atom k | nodecov k | edgecov k | pathcov k => exact mem_inQuery_of_inPatterns k.start_mem
  | parenthesis k ih | negation k ih | setminusFirst k ih | composeFirst k ih => exact ih
  | union a k ih | intersection a k ih | setminusSecond a k ih | composeSecond a k ih => exact ih

/-- The clauses are no statement types. -/
theorem ne_stmttype_of_mem {s : StartCondition} (h : s ∈ inQuery) : s ≠ .stmttype := by
  rintro rfl
  revert h
  decide

section

variable {s b s' b' : StartCondition}

/-- An atom goes on in its clause. -/
theorem gotAtom_in {a : EcpAtom FilterExpr P} {k : AtomCont P} (ha : AtomIn k.start a) (hk : k.In) :
    (gotAtom a k).In := by
  cases k with
  | cover k => exact ⟨ha, hk⟩
  | path k => exact ⟨ha, hk⟩

/-- What is expected behind an atom. -/
theorem gotAtom_expects {a : EcpAtom FilterExpr P} {k : AtomCont P} (hs : s = k.start) :
    (gotAtom a k).Expects s b := by
  cases k with
  | cover k => exact hs
  | path k => exact hs

/-- The token at the start of a filter. -/
theorem startFilter_keeps {k : FilterCont P} {t : Token} (hk : k.In)
    (ht : Scanned k.start b s' b' t) : (startFilter k t).Keeps k.start b s' b' := by
  cases t with
  | tokIdentity => exact ⟨⟨trivial, hk⟩, ht.2⟩
  | tokFile | tokFunc => exact ⟨⟨ht.1, hk⟩, ht.2⟩
  | tokLine | tokColumn | tokLabel | tokCall | tokEntry | tokExit | tokDef | tokUse =>
      exact ⟨⟨ht.1, hk⟩, ht.2⟩
  | tokLineAbbrev n => exact ⟨⟨⟨ht.1, ht.2.1⟩, hk⟩, ht.2.2⟩
  | tokCalls | tokBasicblockentry | tokConditionedge => exact ⟨⟨ht.1, hk⟩, ht.2⟩
  | tokStmttype => exact ⟨⟨ht.1, hk⟩, ht.2⟩
  | tokNot | tokSetminus | tokCompose => exact ⟨hk, ht.1⟩
  | _ => trivial

/-- The token at the start of an atom. -/
theorem startAtom_keeps {k : AtomCont P} {t : Token} (hk : k.In)
    (ht : Scanned k.start b s' b' t) : (startAtom k t).Keeps k.start b s' b' := by
  cases t with
  | tokNodecov | tokEdgecov | tokPathcov => exact ⟨hk, ht.1⟩
  | _ => exact startFilter_keeps (k := .atom k) hk ht

/-- Behind a predicate the invariant holds. -/
theorem gotPredicate_keeps {k : AtomCont P} {p : Option P} (hk : k.In) (hs : s' = k.start) :
    (gotPredicate k p).Keeps s b s' b' := by
  cases p with
  | none => trivial
  | some p => exact ⟨gotAtom_in trivial hk, gotAtom_expects hs⟩

/-- A parenthesis outside of a list of statement types. -/
theorem Scanned.rParenthesis (hs : s ∈ inQuery) (ht : Scanned s b s' b' .tokRParenthesis) :
    s' = s :=
  ht.elim (fun h => absurd h.1 (ne_stmttype_of_mem hs)) And.right

/-- The token behind a filter. -/
theorem endFilter_keeps {f : FilterExpr} {k : FilterCont P} {t : Token}
    (hf : FilterIn k.start f) (hk : k.In) (ht : Scanned k.start b s' b' t) :
    (endFilter f k t).Keeps k.start b s' b' := by
  unfold endFilter
  split
  case h_1 => exact ⟨fun g hg => Option.some.inj hg ▸ hf, rfl⟩
  case h_2 | h_3 => exact ⟨⟨hf, hk⟩, Scanned.rParenthesis (FilterCont.start_mem _) ht⟩
  case h_4 => exact ⟨gotAtom_in hf hk, gotAtom_expects rfl⟩
  case h_5 | h_6 =>
      exact ⟨gotAtom_in hf hk, gotAtom_expects
        (Scanned.rParenthesis (mem_inQuery_of_inPatterns (AtomCont.start_mem _)) ht)⟩
  case h_7 => exact ⟨⟨hf, hk⟩, ht.1⟩
  case h_8 => exact ⟨⟨hf, hk⟩, Scanned.rParenthesis (FilterCont.start_mem _) ht⟩
  case h_9 =>
      exact ⟨⟨⟨trivial, hf⟩, hk⟩, Scanned.rParenthesis (FilterCont.start_mem _) ht⟩
  case h_10 => exact ⟨⟨⟨hk.1, hf⟩, hk.2⟩, rfl⟩
  case h_11 | h_13 => exact ⟨⟨hf, hk⟩, ht.1⟩
  case h_12 | h_14 =>
      exact ⟨⟨⟨hk.1, hf⟩, hk.2⟩, Scanned.rParenthesis (FilterCont.start_mem _) ht⟩
  case h_15 => trivial

/-- The token behind a filter, with the operators. -/
theorem afterFilter_keeps {f : FilterExpr} {k : FilterCont P} {t : Token}
    (hf : FilterIn k.start f) (hk : k.In) (ht : Scanned k.start b s' b' t) :
    (afterFilter f k t).Keeps k.start b s' b' := by
  unfold afterFilter
  split
  · exact ⟨⟨hf, hk⟩, ht.1⟩
  · split
    · exact endFilter_keeps hf hk ht
    · exact ⟨⟨hf, hk⟩, ht.1⟩
  · exact endFilter_keeps hf hk ht

/-! ### Coverage patterns -/

/-- At the end of a term of the cover clause. -/
theorem endCoverTerm_keeps {v : CoveragePattern FilterExpr P} {k : CoverCont P}
    (hv : CoverIn .queryCover v) (hk : k.In) :
    (endCoverTerm v k).Keeps .queryCover b s' b' := by
  unfold endCoverTerm
  split
  · exact ⟨⟨⟨hk.1, hv⟩, hk.2⟩, rfl⟩
  · exact ⟨⟨hv, hk⟩, rfl⟩

/-- The anchors of a clause stand for any path. -/
theorem coverValue_in {startAnchor endAnchor : Option (PathPattern FilterExpr P)}
    {v : CoveragePattern FilterExpr P} (hv : CoverIn .queryCover v)
    (hstart : ∀ pp ∈ startAnchor, pp = idStar) (hend : ∀ pp ∈ endAnchor, pp = idStar) :
    CoverIn .queryCover (coverValue startAnchor v endAnchor) := by
  have hanchor : ∀ anchor : Option (PathPattern FilterExpr P), (∀ pp ∈ anchor, pp = idStar) →
      ∀ pp ∈ anchor, PathIn .queryCover pp := by
    intro anchor hanchor pp hpp
    rw [hanchor pp hpp]
    exact pathIn_idStar _
  cases startAnchor with
  | none =>
      cases endAnchor with
      | none => exact hv
      | some pp => exact ⟨hv, hanchor _ hend pp rfl⟩
  | some pp =>
      cases endAnchor with
      | none => exact ⟨hanchor _ hstart pp rfl, hv⟩
      | some pp' => exact ⟨hanchor _ hstart pp rfl, hv, hanchor _ hend pp' rfl⟩

/-- What the passing clause delivers. -/
theorem passingValue_in {startAnchor endAnchor : Option (PathPattern FilterExpr P)}
    {v : PathPattern FilterExpr P} (hv : PathIn .queryPassing v)
    (hstart : ∀ pp ∈ startAnchor, pp = idStar) (hend : ∀ pp ∈ endAnchor, pp = idStar) :
    PathIn .queryPassing (passingValue startAnchor v endAnchor) := by
  have hanchor : ∀ anchor : Option (PathPattern FilterExpr P), (∀ pp ∈ anchor, pp = idStar) →
      ∀ pp ∈ anchor, PathIn .queryPassing pp := by
    intro anchor hanchor pp hpp
    rw [hanchor pp hpp]
    exact pathIn_idStar _
  cases startAnchor with
  | none =>
      cases endAnchor with
      | none => exact hv
      | some pp => exact ⟨hv, hanchor _ hend pp rfl⟩
  | some pp =>
      cases endAnchor with
      | none => exact ⟨hanchor _ hstart pp rfl, hv⟩
      | some pp' => exact ⟨hanchor _ hstart pp rfl, hv, hanchor _ hend pp' rfl⟩

/-- The token behind a coverage pattern. -/
theorem afterCover_keeps {v : CoveragePattern FilterExpr P} {k : CoverCont P} {t : Token}
    (hv : CoverIn .queryCover v) (hk : k.In) (ht : Scanned .queryCover b s' b' t) :
    (afterCover v k t).Keeps .queryCover b s' b' := by
  unfold afterCover
  split
  case h_1 => exact ⟨⟨hv, hk⟩, ht.1⟩
  case h_2 => exact ⟨⟨hk.1, coverValue_in hv hk.2 nofun⟩, ht.1⟩
  case h_3 =>
      have hend : ∀ pp ∈ some idStar, pp = (idStar : PathPattern FilterExpr P) :=
        fun pp hpp => (Option.some.inj hpp).symm
      exact ⟨⟨hk.1, coverValue_in hv hk.2 hend⟩, rfl⟩
  case h_4 => exact ⟨⟨hv, hk⟩, Scanned.rParenthesis (by decide) ht⟩
  case h_5 => trivial

/-! ### Path patterns -/

/-- At the end of a factor. -/
theorem endPathFactor_keeps {v : PathPattern FilterExpr P} {k : PathCont P}
    (hv : PathIn k.start v) (hk : k.In) : (endPathFactor v k).Keeps k.start b s' b' := by
  unfold endPathFactor
  split
  · exact ⟨⟨⟨hk.1, hv⟩, hk.2⟩, rfl⟩
  · exact ⟨⟨⟨hk.1, pathIn_idStar _, hv⟩, hk.2⟩, rfl⟩
  · exact ⟨⟨hv, hk⟩, rfl⟩

/-- At the end of a term of a path pattern. -/
theorem endPathTerm_keeps {v : PathPattern FilterExpr P} {k : PathCont P}
    (hv : PathIn k.start v) (hk : k.In) : (endPathTerm v k).Keeps k.start b s' b' := by
  unfold endPathTerm
  split
  · exact ⟨⟨⟨hk.1, hv⟩, hk.2⟩, rfl⟩
  · exact ⟨⟨hv, hk⟩, rfl⟩

/-- The token behind a path pattern. -/
theorem afterPath_keeps {v : PathPattern FilterExpr P} {k : PathCont P} {t : Token}
    (hv : PathIn k.start v) (hk : k.In) (ht : Scanned k.start b s' b' t) :
    (afterPath v k t).Keeps k.start b s' b' := by
  unfold afterPath
  split
  case h_1 => exact ⟨⟨hv, hk⟩, ht.1⟩
  case h_2 =>
      have hend : ∀ pp ∈ none, pp = (idStar : PathPattern FilterExpr P) := nofun
      exact ⟨⟨hk.1, hk.2.1, passingValue_in hv hk.2.2 hend⟩, trivial⟩
  case h_3 =>
      have hend : ∀ pp ∈ some idStar, pp = (idStar : PathPattern FilterExpr P) :=
        fun pp hpp => (Option.some.inj hpp).symm
      exact ⟨⟨hk.1, hk.2.1, passingValue_in hv hk.2.2 hend⟩, trivial⟩
  case h_4 => exact ⟨⟨hv, hk⟩, ht.1⟩
  case h_5 =>
      exact ⟨⟨hv, hk⟩, Scanned.rParenthesis (mem_inQuery_of_inPatterns (PathCont.start_mem _)) ht⟩
  case h_6 => trivial

/-! ## Reactions -/

/-- There are six statement types. -/
theorem stmttypeBit_lt {t : Token} {bit : Nat} (h : stmttypeBit t = some bit) : bit < 6 := by
  cases t <;> cases h <;> decide

/-- A token of a statement type leaves the scanner where it is. -/
theorem Scanned.stmttype {t : Token} {bit : Nat} (h : stmttypeBit t = some bit)
    (ht : Scanned s b s' b' t) : s' = s ∧ b' = b := by
  cases t <;> first | exact ht | cases h

/-- The argument of a filter function. -/
theorem functionIn_of_apply {f : ArgFunction} {t : Token} {g : FilterFunction}
    (hf : s ∈ f.starts) (hg : f.apply t = some g) (ht : Scanned s b s' b' t) :
    FunctionIn s g ∧ s' = s := by
  cases f <;> cases t <;> first | cases hg; done | skip
  all_goals
    cases hg
    first
    | exact ⟨ht.1, ht.2⟩
    | exact ⟨⟨hf, ht.2.1⟩, ht.2.2⟩
    | exact ⟨⟨hf, ht.1⟩, ht.2⟩

/-- The bounds that an operator makes of a number. -/
theorem pathIn_apply {v : PathPattern FilterExpr P} {n : Int} (operator : RepeatOperator)
    (hv : PathIn s v) (hn : IsInt n) : PathIn s (operator.apply v n) := by
  have hzero : IsInt 0 := ⟨by decide, by decide⟩
  have hunbounded : IsInt (-1) := ⟨by decide, by decide⟩
  cases operator with
  | greaterOrEq => exact ⟨hv, hn, hunbounded, Or.inr (Or.inl rfl)⟩
  | eq => exact ⟨hv, hn, hn, Or.inr (Or.inr rfl)⟩
  | lessOrEq => exact ⟨hv, hzero, hn, Or.inl rfl⟩

/-- **Every reaction keeps to the clauses.** -/
theorem onToken_keeps {parsePredicate : String → Option P} {c : Control P} {t : Token}
    (hc : c.In) (hs : c.Expects s b) (ht : Scanned s b s' b' t) :
    (c.onToken parsePredicate t).Keeps s b s' b' := by
  cases c with
  | start =>
      cases t with
      | tokIn => exact ⟨trivial, ht⟩
      | _ => exact ⟨nofun, hs⟩
  | gotScope scope =>
      cases t with
      | tokCover => exact ⟨hc, ht⟩
      | _ => trivial
  | coverAnchor scope =>
      have hanchor : ∀ pp ∈ some idStar, pp = (idStar : PathPattern FilterExpr P) :=
        fun pp hpp => (Option.some.inj hpp).symm
      cases t with
      | tokStart => exact ⟨⟨hc, nofun⟩, ht.1.trans hs⟩
      | _ => exact ⟨⟨hc, hanchor⟩, hs⟩
  | coverFactor k =>
      have hs' : s = .queryCover := hs
      subst hs'
      cases t with
      | tokLParenthesis => exact ⟨hc, ht.1⟩
      | tokDblquote => exact ⟨hc, ht.1⟩
      | tokArbitraryPred text => exact @gotPredicate_keeps _ _ _ _ _ (.cover k) _ hc ht.1
      | _ => exact @startAtom_keeps _ _ _ _ (.cover k) _ hc ht
  | gotCoverFactor v k => trivial
  | gotCoverTerm v k =>
      have hs' : s = .queryCover := hs
      subst hs'
      cases t with
      | tokConcat => exact ⟨hc, ht.1⟩
      | tokNext => exact ⟨hc, ht.1⟩
      | _ => exact endCoverTerm_keeps hc.1 hc.2
  | gotCover v k =>
      have hs' : s = .queryCover := hs
      subst hs'
      exact afterCover_keeps hc.1 hc.2 ht
  | gotCoverClause scope cover =>
      cases t with
      | tokPassing => exact ⟨hc, ht⟩
      | _ => exact ⟨⟨hc.1, hc.2, pathIn_idStar _⟩, trivial⟩
  | passingAnchor scope cover =>
      have hanchor : ∀ pp ∈ some idStar, pp = (idStar : PathPattern FilterExpr P) :=
        fun pp hpp => (Option.some.inj hpp).symm
      cases t with
      | tokStart => exact ⟨⟨hc.1, hc.2, nofun⟩, ht.1.trans hs⟩
      | _ => exact ⟨⟨hc.1, hc.2, hanchor⟩, hs⟩
  | pathFactor k =>
      have hs' : s = k.start := hs
      subst hs'
      cases t with
      | tokLParenthesis => exact ⟨hc, ht.1⟩
      | tokArbitraryPred text => exact @gotPredicate_keeps _ _ _ _ _ (.path k) _ hc ht.1
      | _ => exact @startAtom_keeps _ _ _ _ (.path k) _ hc ht
  | gotPathFactor v k =>
      have hs' : s = k.start := hs
      subst hs'
      have hzero : IsInt 0 := ⟨by decide, by decide⟩
      have hunbounded : IsInt (-1) := ⟨by decide, by decide⟩
      cases t with
      | tokKleene => exact ⟨⟨⟨hc.1, hzero, hunbounded, Or.inl rfl⟩, hc.2⟩, ht.1⟩
      | tokGreaterOrEq | tokEq | tokLessOrEq => exact ⟨hc, ht.1⟩
      | _ => exact endPathFactor_keeps hc.1 hc.2
  | repeatBound operator v k =>
      cases t with
      | tokNatNumber n => exact ⟨⟨pathIn_apply operator hc.1 ht.2.1, hc.2⟩, ht.2.2.trans hs⟩
      | _ => trivial
  | gotPathTerm v k =>
      have hs' : s = k.start := hs
      subst hs'
      cases t with
      | tokConcat => exact ⟨hc, ht.1⟩
      | tokNext => exact ⟨hc, ht.1⟩
      | _ => exact endPathTerm_keeps hc.1 hc.2
  | gotPath v k =>
      have hs' : s = k.start := hs
      subst hs'
      exact afterPath_keeps hc.1 hc.2 ht
  | gotQuery q =>
      cases t with
      | endOfInput => exact hc
      | _ => trivial
  | opening k =>
      cases t with
      | tokLParenthesis => exact ⟨hc, ht.1.trans hs⟩
      | _ => trivial
  | filter k =>
      have hs' : s = k.start := hs
      subst hs'
      cases t with
      | tokLParenthesis => exact ⟨hc, ht.1⟩
      | _ => exact startFilter_keeps hc ht
  | gotFilter f k =>
      have hs' : s = k.start := hs
      subst hs'
      exact afterFilter_keeps hc.1 hc.2 ht
  | functionOpening f k =>
      cases t with
      | tokLParenthesis => exact ⟨hc, ht.1.trans hs⟩
      | _ => trivial
  | functionArgument f k =>
      have hs' : s = k.start := hs
      subst hs'
      simp only [Control.onToken]
      split
      · rename_i g hg
        have hfunction := functionIn_of_apply hc.1 hg ht
        exact ⟨⟨hfunction.1, hc.2⟩, hfunction.2⟩
      · trivial
  | functionClosing f k =>
      have hs' : s = k.start := hs
      subst hs'
      cases t with
      | tokRParenthesis => exact ⟨hc, Scanned.rParenthesis k.start_mem ht⟩
      | _ => trivial
  | stmttypeOpening k =>
      cases t with
      | tokLParenthesis =>
          exact ⟨⟨by decide, hc.1, hc.2⟩, ht.1.trans hs.1, ht.2.trans hs.2⟩
      | _ => trivial
  | stmttype types k =>
      simp only [Control.onToken]
      split
      · rename_i bit hbit
        have hlt := stmttypeBit_lt hbit
        have hstay := Scanned.stmttype hbit ht
        have hbit : 1 <<< bit < 2 ^ 6 := by
          rw [Nat.one_shiftLeft]
          exact Nat.pow_lt_pow_right (by omega) hlt
        have hbound : types ||| 1 <<< bit < 2 ^ 6 := Nat.or_lt_two_pow hc.1 hbit
        have hpos : 0 < types ||| 1 <<< bit :=
          lt_of_lt_of_le (by rw [Nat.one_shiftLeft]; exact Nat.two_pow_pos bit) Nat.right_le_or
        exact ⟨⟨hpos, hbound, hc.2⟩, hstay.1.trans hs.1, hstay.2.trans hs.2⟩
      · trivial
  | gotStmttypes types k =>
      cases t with
      | tokComma => exact ⟨hc.2, ht.1.trans hs.1, ht.2.trans hs.2⟩
      | tokRParenthesis =>
          obtain ⟨_, hback⟩ | ⟨hne, _⟩ := ht
          · exact ⟨⟨⟨hc.2.2.1, hc.1, hc.2.1⟩, hc.2.2.2⟩, hback.trans hs.2⟩
          · exact absurd hs.1 hne
      | _ => trivial
  | pathcovBound f k =>
      cases t with
      | tokNatNumber n => exact ⟨⟨⟨hc.1, ht.2.1⟩, hc.2⟩, ht.2.2.trans hs⟩
      | _ => trivial
  | pathcovClosing f bound k =>
      have hs' : s = k.start := hs
      subst hs'
      cases t with
      | tokRParenthesis =>
          exact ⟨gotAtom_in hc.1 hc.2,
            gotAtom_expects (Scanned.rParenthesis (mem_inQuery_of_inPatterns k.start_mem) ht)⟩
      | _ => trivial

/-- A reduction without a token keeps to them too. -/
theorem reduction_keeps {c d : Control P} {events : List (Event P)} (hc : c.In)
    (h : c.reduction = some (d, events)) : d.In ∧ (c.Expects s b → d.Expects s b) := by
  unfold Control.reduction at h
  split at h <;> cases h
  · exact ⟨⟨⟨hc.2.1, hc.1⟩, hc.2.2⟩, id⟩
  · exact ⟨⟨⟨hc.2.1, hc.1⟩, hc.2.2⟩, id⟩
  · exact ⟨⟨⟨hc.2.1, pathIn_idStar _, hc.1⟩, hc.2.2⟩, id⟩
  · exact ⟨hc, id⟩

/-! ## Runs -/

/-- What is skipped leaves the scanner where it is. -/
theorem skipped_of_scan {l l' : LexerState} (h : l.scan = .skipped l') :
    l'.start = l.start ∧ l'.backupState = l.backupState := by
  unfold LexerState.scan at h
  split at h
  · cases h
  · cases h
    exact ⟨rfl, rfl⟩
  · rename_i n action _ _
    cases action with
    | noop =>
        cases h
        exact ⟨rfl, rfl⟩
    | lineAbbrev =>
        unfold Action.perform at h
        cases hn : strtol (l.input.take n).tail <;> rw [hn] at h <;> cases h
    | natNumber =>
        unfold Action.perform at h
        cases hn : strtol (l.input.take n) <;> rw [hn] at h <;> cases h
    | _ => cases h

/-- The parser has kept to the clauses; the token that it looks at was scanned
where one was expected. -/
structure Parsing.In (c : Parsing P) : Prop where
  control : c.control.In
  expects : c.lookahead = none → c.control.Expects c.lexer.start c.lexer.backupState
  scanned : ∀ t ∈ c.lookahead, ∃ s b, c.control.Expects s b ∧
    Scanned s b c.lexer.start c.lexer.backupState t

/-- What is kept of a parse, going on or ended. -/
def Config.In : Config P → Prop
  | .running c => c.In
  | .done outcome => ∀ q, outcome = .accepted q → QueryIn q

/-- Reading a token keeps the invariant. -/
theorem Parsing.read_in {c : Parsing P} (hc : c.In) (hnone : c.lookahead = none) : c.read.In := by
  have hexpects := hc.expects hnone
  unfold Parsing.read
  split
  · rename_i t l hscan
    refine ⟨hc.control, nofun, fun t' ht' => ?_⟩
    cases ht'
    exact ⟨_, _, hexpects, scanned_of_scan hscan⟩
  · rename_i l hscan
    obtain ⟨hstart, hbackup⟩ := skipped_of_scan hscan
    refine ⟨hc.control, fun _ => ?_, nofun⟩
    rw [hstart, hbackup]
    exact hexpects
  · exact nofun
  · exact nofun

/-- **A step keeps to the clauses.** -/
theorem Parsing.step_in {parsePredicate : String → Option P} {c : Parsing P} (hc : c.In) :
    (c.step parsePredicate).1.In := by
  unfold Parsing.step
  split
  · rename_i control events hred
    have hkeeps := fun s b => @reduction_keeps P s b _ _ _ hc.control hred
    refine ⟨(hkeeps .initial .initial).1, fun hnone => (hkeeps _ _).2 (hc.expects hnone), ?_⟩
    intro t ht
    obtain ⟨s, b, hexpects, hscanned⟩ := hc.scanned t ht
    exact ⟨s, b, (hkeeps s b).2 hexpects, hscanned⟩
  · unfold Parsing.advance
    split
    · rename_i hnone
      exact Parsing.read_in hc hnone
    · rename_i t ht
      obtain ⟨s, b, hexpects, hscanned⟩ := hc.scanned t ht
      have hkeeps := @onToken_keeps P s b _ _ parsePredicate _ _ hc.control hexpects hscanned
      unfold Parsing.react
      split
      · rename_i control events hreaction
        rw [hreaction] at hkeeps
        exact ⟨hkeeps.1, fun _ => hkeeps.2, nofun⟩
      · rename_i control events hreaction
        rw [hreaction] at hkeeps
        refine ⟨hkeeps.1, nofun, fun t' ht' => ?_⟩
        cases ht'
        exact ⟨s, b, hkeeps.2, hscanned⟩
      · rename_i q hreaction
        rw [hreaction] at hkeeps
        intro q' hq'
        cases hq'
        exact hkeeps
      · exact nofun
      · exact nofun

/-- What a run from such a state ends with. -/
theorem Parsing.run_in {parsePredicate : String → Option P} {c : Parsing P} (hc : c.In)
    {q : ParsedQuery P} (h : (c.run parsePredicate).1 = .accepted q) : QueryIn q := by
  induction c using Parsing.run.induct parsePredicate with
  | case1 c outcome events hstep =>
      have hin := @Parsing.step_in P parsePredicate c hc
      rw [hstep] at hin
      rw [Parsing.run_done hstep] at h
      exact hin q h
  | case2 c c' events hstep _ ih =>
      have hin := @Parsing.step_in P parsePredicate c hc
      rw [hstep] at hin
      rw [Parsing.run_running hstep] at h
      exact ih hin h

end

end FShell.Fql
