import FShell.Parser.QueryParser

/-!
# Runs of the parser

Every parse ends.  A token that is read takes a character off the input, the
token that is looked at is shifted once, and between two shifts every reduction
brings the control state closer to one that shifts.  `Parsing.run` follows the
steps to the outcome and collects the events.
-/

namespace FShell.Fql

variable {P : Type}

/-! ## The measure -/

/-- The work of the token that is looked at. -/
def lookaheadWeight : Option Token → Nat
  | none => 1
  | some .endOfInput => 0
  | some _ => 2

/-- The work of the tokens that are left. -/
def Parsing.tokenWeight (c : Parsing P) : Nat :=
  3 * c.lexer.input.length + lookaheadWeight c.lookahead

/-- The operators that wait for their second filter. -/
def FilterCont.operators : FilterCont P → Nat
  | union _ k => k.operators + 1
  | intersection _ k => k.operators + 1
  | _ => 0

/-- A bound on the reductions that come before the next shift. -/
def Control.weight : Control P → Nat
  | start => 1
  | coverAnchor _ => 1
  | gotCoverFactor _ _ => 6
  | gotCoverTerm _ _ => 5
  | gotCover _ _ => 4
  | gotCoverClause _ _ => 3
  | passingAnchor _ _ => 1
  | gotPathFactor _ _ => 6
  | gotPathTerm _ _ => 5
  | gotPath _ _ => 4
  | gotQuery _ => 2
  | gotFilter _ k => k.operators + 7
  | _ => 0

/-- The weight behind an atom. -/
theorem weight_gotAtom (a : EcpAtom FilterExpr P) (k : AtomCont P) : (gotAtom a k).weight = 6 := by
  cases k with
  | cover k => rfl
  | path k => rfl

/-! ## Scanning takes characters -/

/-- A match is not empty. -/
theorem matchSome_pos {p : Char → Bool} {input : List Char} {n : Nat}
    (h : matchSome p input = some n) : 0 < n := by
  unfold matchSome at h
  split_ifs at h with hzero
  have hn : spanLength p input = n := Option.some.inj h
  omega

/-- A closed match is not empty. -/
theorem matchClosed_pos {p : Char → Bool} {close : Char} {input : List Char} {n : Nat}
    (h : matchClosed p close input = some n) : 0 < n := by
  unfold matchClosed at h
  split_ifs at h
  have hn : spanLength p input + 2 = n := Option.some.inj h
  omega

/-- The texts of the rules are not empty. -/
def Pattern.Proper : Pattern → Prop
  | text s => 0 < s.toList.length
  | _ => True

instance (p : Pattern) : Decidable p.Proper := by
  unfold Pattern.Proper
  split <;> infer_instance

/-- A match is not empty. -/
theorem Pattern.matchLength_pos {p : Pattern} (hp : p.Proper) {input : List Char} {n : Nat}
    (h : p.matchLength input = some n) : 0 < n := by
  unfold matchLength at h
  split at h
  · split_ifs at h
    exact Option.some.inj h ▸ hp
  · obtain ⟨m, _, rfl⟩ := Option.map_eq_some_iff.mp h
    exact Nat.succ_pos m
  · split_ifs at h
    exact matchClosed_pos h
  · split_ifs at h
    exact Option.some.inj h ▸ Nat.succ_pos _
  · exact matchClosed_pos h
  · exact matchSome_pos h
  · split_ifs at h
    exact Option.some.inj h ▸ Nat.one_pos
  · exact Option.some.inj h ▸ Nat.succ_pos _
  · split_ifs at h
    exact Option.some.inj h ▸ Nat.one_pos
  · cases h

/-- No rule matches the empty text. -/
theorem rules_proper : ∀ rule ∈ rules, rule.pattern.Proper := by decide +kernel

/-- The longest match is not empty. -/
theorem longest_pos {start : StartCondition} {input : List Char} {rs : List Rule} {n : Nat}
    {action : Action} (hrs : ∀ rule ∈ rs, rule.pattern.Proper)
    (h : longest start input rs = some (n, action)) : 0 < n := by
  induction rs generalizing n action with
  | nil => cases h
  | cons rule rs ih =>
      have hrest : ∀ m a, longest start input rs = some (m, a) → 0 < m :=
        fun _ _ => ih fun r hr => hrs r (List.mem_cons_of_mem _ hr)
      unfold longest at h
      split at h
      · exact hrest _ _ h
      · rename_i m hm hnone
        split_ifs at hm
        have hpos := Pattern.matchLength_pos (hrs rule List.mem_cons_self) hm
        cases h
        exact hpos
      · rename_i m m' action' hm hbest
        split_ifs at hm
        have hpos := Pattern.matchLength_pos (hrs rule List.mem_cons_self) hm
        have hpos' := hrest _ _ hbest
        split_ifs at h
        · cases h
          exact hpos'
        · cases h
          exact hpos

/-- The scanner after it has read something. -/
def Scan.lexer : Scan → Option LexerState
  | token _ l => some l
  | skipped l => some l
  | unexpectedCharacter => none
  | numberOutOfRange => none

/-- A number takes no further input. -/
theorem numberToken_input {t : Int → Token} {l l' : LexerState} {n : Option Int}
    (h : (numberToken t l n).lexer = some l') : l'.input = l.input := by
  cases n with
  | none => cases h
  | some n =>
      cases h
      rfl

/-- An action leaves the input that it was given. -/
theorem Action.perform_input {text : List Char} {l l' : LexerState} {action : Action}
    (h : (action.perform text l).lexer = some l') : l'.input = l.input := by
  cases action with
  | lineAbbrev => exact numberToken_input h
  | natNumber => exact numberToken_input h
  | _ =>
      cases h
      try rfl

/-- At the end of the input there is nothing but `$end`. -/
theorem LexerState.scan_nil {l : LexerState} (h : l.input = []) : l.scan = .token .endOfInput l := by
  unfold scan
  rw [h]

/-- Elsewhere scanning takes characters. -/
theorem LexerState.scan_input {l l' : LexerState} (h : l.scan.lexer = some l')
    (hinput : l.input ≠ []) : l'.input.length < l.input.length := by
  unfold scan at h
  split at h
  · rename_i _ hnil
    exact absurd hnil hinput
  · rename_i c input hcons _
    cases h
    rw [hcons]
    exact Nat.lt_succ_self _
  · rename_i c input n action hcons hlongest
    have hn : 0 < n := longest_pos rules_proper hlongest
    rw [Action.perform_input h, List.length_drop, hcons, List.length_cons]
    omega

/-! ## Reductions and shifts -/

/-- A filter is not begun by a reduction. -/
theorem startFilter_ne_reduce {k : FilterCont P} {t : Token} {c : Control P}
    {events : List (Event P)} : startFilter k t ≠ .reduce c events := by
  cases t <;> exact nofun

/-- Nor is an atom. -/
theorem startAtom_ne_reduce {k : AtomCont P} {t : Token} {c : Control P}
    {events : List (Event P)} : startAtom k t ≠ .reduce c events := by
  cases t <;> exact nofun

/-- Nor is a predicate ended by one. -/
theorem gotPredicate_ne_reduce {k : AtomCont P} {p : Option P} {c : Control P}
    {events : List (Event P)} : gotPredicate k p ≠ .reduce c events := by
  cases p <;> exact nofun

/-- The reduction at the end of a filter. -/
theorem endFilter_weight {f : FilterExpr} {k : FilterCont P} {t : Token} {c : Control P}
    {events : List (Event P)} (h : endFilter f k t = .reduce c events) :
    c.weight < (Control.gotFilter f k).weight := by
  unfold endFilter at h
  split at h <;> cases h
  · exact Nat.succ_pos _
  · rw [weight_gotAtom]
    simp only [Control.weight]
    omega
  · simp only [Control.weight, FilterCont.operators]
    omega

/-- The reduction behind a filter. -/
theorem afterFilter_weight {f : FilterExpr} {k : FilterCont P} {t : Token} {c : Control P}
    {events : List (Event P)} (h : afterFilter f k t = .reduce c events) :
    c.weight < (Control.gotFilter f k).weight := by
  unfold afterFilter at h
  split at h
  · cases h
  · split at h
    · exact endFilter_weight h
    · cases h
  · exact endFilter_weight h

/-- The reduction at the end of a term of the cover clause. -/
theorem endCoverTerm_weight {v : CoveragePattern FilterExpr P} {k : CoverCont P} {c : Control P}
    {events : List (Event P)} (h : endCoverTerm v k = .reduce c events) : c.weight = 4 := by
  unfold endCoverTerm at h
  split at h <;> cases h <;> rfl

/-- The reduction behind a coverage pattern. -/
theorem afterCover_weight {v : CoveragePattern FilterExpr P} {k : CoverCont P} {t : Token}
    {c : Control P} {events : List (Event P)} (h : afterCover v k t = .reduce c events) :
    c.weight = 3 := by
  unfold afterCover at h
  split at h <;> cases h
  rfl

/-- The reduction at the end of a factor. -/
theorem endPathFactor_weight {v : PathPattern FilterExpr P} {k : PathCont P} {c : Control P}
    {events : List (Event P)} (h : endPathFactor v k = .reduce c events) : c.weight = 5 := by
  unfold endPathFactor at h
  split at h <;> cases h <;> rfl

/-- The reduction at the end of a term of a path pattern. -/
theorem endPathTerm_weight {v : PathPattern FilterExpr P} {k : PathCont P} {c : Control P}
    {events : List (Event P)} (h : endPathTerm v k = .reduce c events) : c.weight = 4 := by
  unfold endPathTerm at h
  split at h <;> cases h <;> rfl

/-- The reduction behind a path pattern. -/
theorem afterPath_weight {v : PathPattern FilterExpr P} {k : PathCont P} {t : Token}
    {c : Control P} {events : List (Event P)} (h : afterPath v k t = .reduce c events) :
    c.weight = 2 := by
  unfold afterPath at h
  split at h <;> cases h
  rfl

variable {parsePredicate : String → Option P}

/-- A reduction on a token brings the state closer to a shift. -/
theorem Control.weight_of_reduce {c c' : Control P} {t : Token} {events : List (Event P)}
    (h : c.onToken parsePredicate t = .reduce c' events) : c'.weight < c.weight := by
  unfold onToken at h
  split at h
  case h_8 | h_19 => exact absurd h gotPredicate_ne_reduce
  case h_9 | h_20 => exact absurd h startAtom_ne_reduce
  case h_34 => exact absurd h startFilter_ne_reduce
  case h_35 => exact afterFilter_weight h
  case h_12 =>
    rw [endCoverTerm_weight h]
    exact Nat.lt_succ_self 4
  case h_13 =>
    rw [afterCover_weight h]
    exact Nat.lt_succ_self 3
  case h_25 =>
    rw [endPathFactor_weight h]
    exact Nat.lt_succ_self 5
  case h_29 =>
    rw [endPathTerm_weight h]
    exact Nat.lt_succ_self 4
  case h_30 =>
    rw [afterPath_weight h]
    exact Nat.lt_of_sub_eq_succ rfl
  case h_15 =>
    cases h
    exact Nat.lt_succ_self 2
  case h_37 | h_40 =>
    split at h
    · cases h
    · cases h
  all_goals
    cases h
    try exact Nat.succ_pos _

/-- A reduction without a token does so too. -/
theorem Control.weight_of_reduction {c c' : Control P} {events : List (Event P)}
    (h : c.reduction = some (c', events)) : c'.weight < c.weight := by
  unfold reduction at h
  split at h <;> cases h
  · simp only [weight, FilterCont.operators]
    omega
  · exact Nat.lt_succ_self 5
  · exact Nat.lt_succ_self 5
  · exact Nat.lt_succ_self 5

/-- `$end` is never shifted. -/
theorem Control.onToken_endOfInput {c c' : Control P} {events : List (Event P)} :
    c.onToken parsePredicate .endOfInput ≠ .shift c' events := by
  cases c with
  | gotCoverTerm v k => cases k <;> exact nofun
  | gotCover v k => cases k <;> exact nofun
  | gotPathFactor v k => cases k <;> exact nofun
  | gotPathTerm v k => cases k <;> exact nofun
  | gotPath v k => cases k <;> exact nofun
  | gotFilter f k =>
      cases k with
      | atom k =>
          cases k with
          | cover k => cases k <;> exact nofun
          | path k => cases k <;> exact nofun
      | _ => exact nofun
  | functionArgument f k => cases f <;> exact nofun
  | _ => exact nofun

/-! ## Every parse ends -/

/-- A token but the end weighs two. -/
theorem lookaheadWeight_token {t : Token} (ht : t ≠ .endOfInput) : lookaheadWeight (some t) = 2 := by
  cases t with
  | endOfInput => exact absurd rfl ht
  | _ => rfl

/-- Reading a token. -/
theorem Parsing.tokenWeight_read {c c' : Parsing P} (hnone : c.lookahead = none)
    (h : c.read = .running c') : c'.tokenWeight < c.tokenWeight := by
  unfold tokenWeight
  rw [hnone]
  by_cases hinput : c.lexer.input = []
  · unfold read at h
    rw [LexerState.scan_nil hinput] at h
    cases h
    exact Nat.lt_succ_self _
  · have hscan : ∀ l', c.lexer.scan.lexer = some l' → l'.input.length < c.lexer.input.length :=
      fun l' hl => LexerState.scan_input hl hinput
    have hle : ∀ t, lookaheadWeight (some t) ≤ 2 := by
      intro t
      cases t <;> simp only [lookaheadWeight] <;> omega
    unfold read at h
    split at h <;> cases h
    · rename_i t l hs
      have hlt := hscan l (by rw [hs]; rfl)
      have hw := hle t
      simp only [lookaheadWeight] at hw ⊢
      omega
    · rename_i l hs
      have hlt := hscan l (by rw [hs]; rfl)
      simp only
      omega

/-- A step takes tokens, or it reduces. -/
theorem Parsing.step_weight {c c' : Parsing P} {events : List (Event P)}
    (h : c.step parsePredicate = (.running c', events)) :
    c'.tokenWeight < c.tokenWeight ∨
      (c'.tokenWeight = c.tokenWeight ∧ c'.control.weight < c.control.weight) := by
  unfold step at h
  split at h
  · rename_i control events' hred
    cases h
    exact Or.inr ⟨rfl, Control.weight_of_reduction hred⟩
  · unfold advance at h
    split at h
    · rename_i hnone
      exact Or.inl (tokenWeight_read hnone (congrArg Prod.fst h))
    · rename_i t ht
      unfold react at h
      split at h <;> cases h
      · rename_i hshift
        have hend : t ≠ .endOfInput := by
          intro heq
          rw [heq] at hshift
          exact Control.onToken_endOfInput hshift
        refine Or.inl ?_
        unfold tokenWeight
        rw [ht, lookaheadWeight_token hend]
        exact Nat.lt_succ_self _
      · rename_i hreduce
        refine Or.inr ⟨?_, Control.weight_of_reduce hreduce⟩
        unfold tokenWeight
        rw [ht]

variable (parsePredicate)

/-- The outcome of a parse and the events on the way. -/
def Parsing.run (c : Parsing P) : Outcome P × List (Event P) :=
  match h : c.step parsePredicate with
  | (.done outcome, events) => (outcome, events)
  | (.running c', events) =>
      have := step_weight h
      ((run c').1, events ++ (run c').2)
termination_by (c.tokenWeight, c.control.weight)
decreasing_by all_goals
  rcases this with hlt | ⟨heq, hlt⟩
  · exact Prod.Lex.left _ _ hlt
  · rw [heq]
    exact Prod.Lex.right _ hlt

/-- The parser on a text. -/
def parsingOf (text : List Char) : Parsing P :=
  ⟨.start, ⟨.initial, .initial, text⟩, none⟩

/-- `FQLparse` on a text. -/
def fqlParse (text : List Char) : Outcome P × List (Event P) :=
  (parsingOf text).run parsePredicate

variable {parsePredicate}

/-- A run that ends with this step. -/
theorem Parsing.run_done {c : Parsing P} {outcome : Outcome P} {events : List (Event P)}
    (h : c.step parsePredicate = (.done outcome, events)) :
    c.run parsePredicate = (outcome, events) := by
  rw [run]
  split
  · rename_i h'
    rw [h] at h'
    cases h'
    rfl
  · rename_i h'
    rw [h] at h'
    cases h'

/-- A run that goes on behind this step. -/
theorem Parsing.run_running {c c' : Parsing P} {events : List (Event P)}
    (h : c.step parsePredicate = (.running c', events)) :
    c.run parsePredicate = ((c'.run parsePredicate).1, events ++ (c'.run parsePredicate).2) := by
  rw [run]
  split
  · rename_i h'
    rw [h] at h'
    cases h'
  · rename_i h'
    rw [h] at h'
    cases h'
    rfl

end FShell.Fql
