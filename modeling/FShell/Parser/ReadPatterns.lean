import FShell.Parser.ReadBack

/-!
# Reading printed patterns

The patterns are printed between parentheses, so that a printed operand ends
where its text ends.  A path pattern is read back with its bounds as they were
printed: the printer writes an upper bound, or a lower one when there is no
upper bound.
-/

namespace FShell.Fql

variable {P : Type} (parsePredicate : String → Option P) (printPredicate : P → List Char)

/-- A printed atom. -/
def readBackAtom (start : StartCondition) : EcpAtom FilterExpr P → Option (EcpAtom FilterExpr P)
  | .edgecov f => (readBackFilter start f).map .edgecov
  | .nodecov f => (readBackFilter start f).map .nodecov
  | .pathcov f bound => (readBackFilter start f).bind fun f => (readBackInt bound).map (.pathcov f)
  | .predicate p => (parsePredicate (String.ofList (printPredicate p))).map .predicate

/-- The printed bounds of a repetition. -/
def readBackBounds (lower upper : Int) : Option (Int × Int) :=
  if upper = -1 then (readBackInt lower).map fun n => (n, -1)
  else (readBackInt upper).map fun n => (0, n)

/-- A printed path pattern. -/
def readBackPath (start : StartCondition) :
    PathPattern FilterExpr P → Option (PathPattern FilterExpr P)
  | .atom a => (readBackAtom parsePredicate printPredicate start a).map .atom
  | .ppAlternative a b =>
      (readBackPath start a).bind fun a => (readBackPath start b).map (.ppAlternative a)
  | .ppConcat a b => (readBackPath start a).bind fun a => (readBackPath start b).map (.ppConcat a)
  | .repetition pp lower upper =>
      (readBackPath start pp).bind fun pp =>
        (readBackBounds lower upper).map fun bounds => .repetition pp bounds.1 bounds.2

/-- A printed coverage pattern. -/
def readBackCover (start : StartCondition) :
    CoveragePattern FilterExpr P → Option (CoveragePattern FilterExpr P)
  | .atom a => (readBackAtom parsePredicate printPredicate start a).map .atom
  | .quote pp => (readBackPath parsePredicate printPredicate start pp).map .quote
  | .cpAlternative a b =>
      (readBackCover start a).bind fun a => (readBackCover start b).map (.cpAlternative a)
  | .cpConcat a b => (readBackCover start a).bind fun a => (readBackCover start b).map (.cpConcat a)

/-- The atoms that the parser delivers in a clause. -/
def AtomIn (start : StartCondition) : EcpAtom FilterExpr P → Prop
  | .edgecov f => FilterIn start f
  | .nodecov f => FilterIn start f
  | .pathcov f bound => FilterIn start f ∧ IsInt bound
  | .predicate _ => True

/-- The path patterns that it delivers there. -/
def PathIn (start : StartCondition) : PathPattern FilterExpr P → Prop
  | .atom a => AtomIn start a
  | .ppAlternative a b | .ppConcat a b => PathIn start a ∧ PathIn start b
  | .repetition pp lower upper =>
      PathIn start pp ∧ IsInt lower ∧ IsInt upper ∧ (lower = 0 ∨ upper = -1 ∨ lower = upper)

/-- The coverage patterns that it delivers there. -/
def CoverIn (start : StartCondition) : CoveragePattern FilterExpr P → Prop
  | .atom a => AtomIn start a
  | .quote pp => PathIn start pp
  | .cpAlternative a b | .cpConcat a b => CoverIn start a ∧ CoverIn start b

/-- The predicate of an atom. -/
def atomPredicates : EcpAtom FilterExpr P → List P
  | .predicate p => [p]
  | _ => []

/-- The predicates in a path pattern. -/
def pathPredicates : PathPattern FilterExpr P → List P
  | .atom a => atomPredicates a
  | .ppAlternative a b | .ppConcat a b => pathPredicates a ++ pathPredicates b
  | .repetition pp _ _ => pathPredicates pp

/-- The predicates in a coverage pattern. -/
def coverPredicates : CoveragePattern FilterExpr P → List P
  | .atom a => atomPredicates a
  | .quote pp => pathPredicates pp
  | .cpAlternative a b | .cpConcat a b => coverPredicates a ++ coverPredicates b

/-- A text that may stand between braces. -/
def IsPlain (text : List Char) : Prop := text ≠ [] ∧ ∀ c ∈ text, isPredCharacter c = true

variable {parsePredicate printPredicate}

section

variable {start : StartCondition} (hstart : start ∈ inPatterns)

include hstart

theorem mem_inQuery_of_inPatterns : start ∈ inQuery := by
  exact mem_inQuery_iff.mpr (Or.inr (mem_inPatterns_iff.mp hstart))

/-! ## Tokens -/

theorem isToken_alternative : IsToken start '+' .tokAlternative := by
  intro backup rest
  rcases mem_inPatterns_iff.mp hstart with rfl | rfl <;> rfl

theorem isToken_concat : IsToken start '.' .tokConcat := by
  intro backup rest
  rcases mem_inPatterns_iff.mp hstart with rfl | rfl <;> rfl

theorem isToken_kleene : IsToken start '*' .tokKleene := by
  intro backup rest
  rcases mem_inPatterns_iff.mp hstart with rfl | rfl <;> rfl

theorem isToken_dblquote : IsToken start '"' .tokDblquote := by
  intro backup rest
  rcases mem_inPatterns_iff.mp hstart with rfl | rfl <;> rfl

theorem isToken_end : IsToken start '$' .tokEnd := by
  intro backup rest
  rcases mem_inPatterns_iff.mp hstart with rfl | rfl <;> rfl

theorem isToken_start : IsToken start '^' .tokStart := by
  intro backup rest
  rcases mem_inPatterns_iff.mp hstart with rfl | rfl <;> rfl

theorem scan_greaterOrEq (backup : StartCondition) (rest : List Char) :
    LexerState.scan ⟨start, backup, ">=".toList ++ rest⟩ =
      .token .tokGreaterOrEq ⟨start, backup, rest⟩ := by
  rcases mem_inPatterns_iff.mp hstart with rfl | rfl <;> rfl

theorem scan_lessOrEq (backup : StartCondition) (rest : List Char) :
    LexerState.scan ⟨start, backup, "<=".toList ++ rest⟩ =
      .token .tokLessOrEq ⟨start, backup, rest⟩ := by
  rcases mem_inPatterns_iff.mp hstart with rfl | rfl <;> rfl

theorem isWordToken_atom :
    IsWordToken start "EDGES".toList .tokEdgecov ∧ IsWordToken start "NODES".toList .tokNodecov ∧
      IsWordToken start "PATHS".toList .tokPathcov := by
  rcases mem_inPatterns_iff.mp hstart with rfl | rfl
  · exact ⟨isWordToken (isWord_cons rfl) rfl, isWordToken (isWord_cons rfl) rfl,
      isWordToken (isWord_cons rfl) rfl⟩
  · exact ⟨isWordToken (isWord_cons rfl) rfl, isWordToken (isWord_cons rfl) rfl,
      isWordToken (isWord_cons rfl) rfl⟩

theorem longest_brace (rest : List Char) :
    longest start ('\x7b' :: rest) rules =
      longest start ('\x7b' :: rest)
        [⟨inQuery, .arbitraryPred, .arbitraryPred⟩,
          ⟨anyStart, .anyCharacter, .unexpectedCharacter⟩] := by
  rcases mem_inPatterns_iff.mp hstart with rfl | rfl <;> rfl

/-- A predicate between braces. -/
theorem scan_arbitraryPred {text : List Char} (htext : IsPlain text) (backup : StartCondition)
    (rest : List Char) :
    LexerState.scan ⟨start, backup, '\x7b' :: (text ++ '\x7d' :: rest)⟩ =
      .token (.tokArbitraryPred (String.ofList text)) ⟨start, backup, rest⟩ := by
  have hspan : spanLength isPredCharacter (text ++ '\x7d' :: rest) = text.length := by
    rw [spanLength_append (by simp [isPredCharacter]), spanLength_all htext.2]
  have hlength : text.length ≠ 0 := fun h => htext.1 (List.length_eq_zero_iff.mp h)
  have hmatch : Pattern.arbitraryPred.matchLength ('\x7b' :: (text ++ '\x7d' :: rest)) =
      some (text.length + 2) := by
    simp only [Pattern.matchLength, matchClosed, hspan, if_neg hlength, List.drop_left,
      List.head?_cons, if_true]
  have hany : Pattern.anyCharacter.matchLength ('\x7b' :: (text ++ '\x7d' :: rest)) = some 1 := rfl
  have hanyStart : start ∈ anyStart := by cases start <;> decide
  have hlongest : longest start ('\x7b' :: (text ++ '\x7d' :: rest)) rules =
      some (text.length + 2, .arbitraryPred) := by
    rw [longest_brace hstart]
    simp only [longest, hmatch, hany, if_pos (mem_inQuery_of_inPatterns hstart), if_pos hanyStart,
      Nat.not_lt_eq, Nat.reduceLeDiff, if_neg]
  have hscan := @scan_of_longest ⟨start, backup, '\x7b' :: (text ++ '\x7d' :: rest)⟩ _ _
    (List.cons_ne_nil _ _) hlongest
  have htake : ('\x7b' :: (text ++ '\x7d' :: rest)).take (text.length + 2) =
      '\x7b' :: (text ++ ['\x7d']) := by
    rw [List.take_succ_cons, List.take_length_add_append, List.take_succ_cons, List.take_zero]
  have hdrop : ('\x7b' :: (text ++ '\x7d' :: rest)).drop (text.length + 2) = rest := by
    rw [List.drop_succ_cons, List.drop_length_add_append, List.drop_succ_cons, List.drop_zero]
  rw [hscan, htake, hdrop, Action.perform, inner, List.tail_cons, List.dropLast_concat]

/-! ## Atoms -/

/-- Where an atom is read. -/
def AtomCont.factor : AtomCont P → Control P
  | cover k => .coverFactor k
  | path k => .pathFactor k

/-- A predicate is handed to the parser of C expressions. -/
theorem reads_predicate {p : P} (hplain : IsPlain (printPredicate p)) (k : AtomCont P) :
    Reads parsePredicate start k.factor ('\x7b' :: (printPredicate p ++ ['\x7d']))
      ((parsePredicate (String.ofList (printPredicate p))).map fun p => gotAtom (.predicate p) k) := by
  intro backup rest _
  have hscan := scan_arbitraryPred hstart hplain backup rest
  have hread : Leads parsePredicate
      (.running ⟨k.factor, ⟨start, backup, '\x7b' :: (printPredicate p ++ ['\x7d']) ++ rest⟩, none⟩)
      (.running ⟨k.factor, ⟨start, backup, rest⟩,
        some (.tokArbitraryPred (String.ofList (printPredicate p)))⟩) := by
    rw [List.cons_append, List.append_assoc, List.singleton_append]
    cases k <;> exact Leads.of_step (step_of_scan rfl hscan)
  have hreact : Parsing.step parsePredicate ⟨k.factor, ⟨start, backup, rest⟩,
      some (.tokArbitraryPred (String.ofList (printPredicate p)))⟩ =
      Parsing.react ⟨k.factor, ⟨start, backup, rest⟩,
          some (.tokArbitraryPred (String.ofList (printPredicate p)))⟩
        (.tokArbitraryPred (String.ofList (printPredicate p)))
        (gotPredicate k (parsePredicate (String.ofList (printPredicate p)))) := by
    cases k <;> rfl
  cases hpred : parsePredicate (String.ofList (printPredicate p)) with
  | none =>
      rw [hpred] at hreact
      exact ⟨_, hread.trans (Leads.of_step hreact), _, rfl, nofun⟩
  | some q =>
      rw [hpred] at hreact
      exact ⟨_, hread.trans (Leads.of_step hreact), backup, rfl⟩

/-- The three words in front of a filter. -/
theorem reads_atom {a : EcpAtom FilterExpr P} (ha : AtomIn start a)
    (hplain : ∀ p ∈ atomPredicates a, IsPlain (printPredicate p)) (k : AtomCont P) :
    Reads parsePredicate start k.factor (a.print printPredicate)
      ((readBackAtom parsePredicate printPredicate start a).map fun a => gotAtom a k) := by
  have hquery := mem_inQuery_of_inPatterns hstart
  have hclose := isToken_rParenthesis hquery
  obtain ⟨hedges, hnodes, hpaths⟩ := isWordToken_atom hstart
  cases a with
  | edgecov f =>
      have hopen : Shifts parsePredicate .tokEdgecov k.factor (.opening (.edgecov k)) := by
        cases k <;> exact Shifts.shift rfl rfl
      have hparen : Shifts parsePredicate .tokLParenthesis (.opening (.edgecov k))
          (.filter (.edgecov k)) := Shifts.shift rfl rfl
      rw [EcpAtom.print, printCall, readBackAtom, Option.map_map]
      refine Reads.word hedges rfl hopen (Reads.character isToken_lParenthesis hparen ?_)
      exact Reads.operand rfl hclose (reads_filter hquery ha (.edgecov k))
        fun f => Shifts.shift rfl rfl
  | nodecov f =>
      have hopen : Shifts parsePredicate .tokNodecov k.factor (.opening (.nodecov k)) := by
        cases k <;> exact Shifts.shift rfl rfl
      have hparen : Shifts parsePredicate .tokLParenthesis (.opening (.nodecov k))
          (.filter (.nodecov k)) := Shifts.shift rfl rfl
      rw [EcpAtom.print, printCall, readBackAtom, Option.map_map]
      refine Reads.word hnodes rfl hopen (Reads.character isToken_lParenthesis hparen ?_)
      exact Reads.operand rfl hclose (reads_filter hquery ha (.nodecov k))
        fun f => Shifts.shift rfl rfl
  | pathcov f bound =>
      have hopen : Shifts parsePredicate .tokPathcov k.factor (.opening (.pathcov k)) := by
        cases k <;> exact Shifts.shift rfl rfl
      have hparen : Shifts parsePredicate .tokLParenthesis (.opening (.pathcov k))
          (.filter (.pathcov k)) := Shifts.shift rfl rfl
      have hbound : ∀ f, Reads parsePredicate start (.pathcovBound f k) (printInt bound)
          ((readBackInt bound).map fun n => .pathcovClosing f n k) :=
        fun f => reads_int ha.2 hstart rfl (Shifts.shift rfl rfl)
      rw [EcpAtom.print, printCall_pair, readBackAtom]
      refine Reads.word hpaths rfl hopen (Reads.character isToken_lParenthesis hparen ?_)
      exact Reads.operands rfl rfl isToken_comma hclose (reads_filter hquery ha.1 (.pathcov k))
        (fun f => Shifts.shift rfl rfl) hbound (fun f n => Shifts.shift rfl rfl)
  | predicate p =>
      rw [EcpAtom.print, readBackAtom, Option.map_map]
      exact reads_predicate hstart (hplain p List.mem_cons_self) k

/-! ## Path patterns -/

/-- The bounds of a repetition. -/
theorem reads_bounds {lower upper : Int} (hlower : IsInt lower) (hupper : IsInt upper)
    (v : PathPattern FilterExpr P) (k : PathCont P) :
    Reads parsePredicate start (.gotPathFactor v k)
      (if upper = -1 then if lower = 0 then ['*'] else ">=".toList ++ printInt lower
        else "<=".toList ++ printInt upper)
      ((readBackBounds lower upper).map fun bounds =>
        .gotPathFactor (.repetition v bounds.1 bounds.2) k) := by
  unfold readBackBounds
  split_ifs with hunbounded hzero
  · subst hzero
    exact Reads.character (isToken_kleene hstart) (Shifts.shift rfl rfl) Reads.nil
  · have hshift : Shifts parsePredicate .tokGreaterOrEq (.gotPathFactor v k)
        (.repeatBound .greaterOrEq v k) := Shifts.shift rfl rfl
    rw [Option.map_map]
    exact Reads.characters (scan_greaterOrEq hstart) hshift
      (reads_int hlower hstart rfl (Shifts.shift rfl rfl))
  · have hshift : Shifts parsePredicate .tokLessOrEq (.gotPathFactor v k)
        (.repeatBound .lessOrEq v k) := Shifts.shift rfl rfl
    rw [Option.map_map]
    exact Reads.characters (scan_lessOrEq hstart) hshift
      (reads_int hupper hstart rfl (Shifts.shift rfl rfl))

omit hstart in
/-- The bounds begin with an operator. -/
theorem bounds_cons (lower upper : Int) : ∃ x text, isIdentRest x = false ∧
    (if upper = -1 then if lower = 0 then ['*'] else ">=".toList ++ printInt lower
      else "<=".toList ++ printInt upper) ++ [')'] = x :: text := by
  split_ifs
  · exact ⟨'*', _, rfl, rfl⟩
  · exact ⟨'>', _, rfl, rfl⟩
  · exact ⟨'<', _, rfl, rfl⟩

/-- **Path patterns are read operand by operand.** -/
theorem reads_path {pp : PathPattern FilterExpr P} (hpp : PathIn start pp)
    (hplain : ∀ p ∈ pathPredicates pp, IsPlain (printPredicate p)) (k : PathCont P) :
    Reads parsePredicate start (.pathFactor k) (pp.print printPredicate)
      ((readBackPath parsePredicate printPredicate start pp).map fun v => .gotPathFactor v k) := by
  have hclose := isToken_rParenthesis (mem_inQuery_of_inPatterns hstart)
  have hparen : ∀ k : PathCont P, Shifts parsePredicate .tokLParenthesis (.pathFactor k)
      (.pathFactor (.parenthesis k)) := fun k => Shifts.shift rfl rfl
  induction pp generalizing k with
  | atom a =>
      rw [PathPattern.print, readBackPath, Option.map_map]
      exact reads_atom hstart hpp hplain (.path k)
  | ppAlternative a b iha ihb =>
      have ha := iha hpp.1 (fun p hp => hplain p (List.mem_append_left _ hp)) (.parenthesis k)
      have hb := fun v => ihb hpp.2 (fun p hp => hplain p (List.mem_append_right _ hp))
        (.alternative v (.parenthesis k))
      rw [PathPattern.print, printInfix, readBackPath]
      refine Reads.character isToken_lParenthesis (hparen k) ?_
      exact Reads.operands rfl rfl (isToken_alternative hstart) hclose ha
        (fun v => Shifts.reduce rfl rfl (Shifts.reduce rfl rfl (Shifts.shift rfl rfl))) hb
        (fun v w => Shifts.reduce rfl rfl (Shifts.reduce rfl rfl (Shifts.shift rfl rfl)))
  | ppConcat a b iha ihb =>
      have ha := iha hpp.1 (fun p hp => hplain p (List.mem_append_left _ hp)) (.parenthesis k)
      have hb := fun v => ihb hpp.2 (fun p hp => hplain p (List.mem_append_right _ hp))
        (.concat v (.parenthesis k))
      rw [PathPattern.print, printInfix, readBackPath]
      refine Reads.character isToken_lParenthesis (hparen k) ?_
      exact Reads.operands rfl rfl (isToken_concat hstart) hclose ha
        (fun v => Shifts.reduce rfl rfl (Shifts.shift rfl rfl)) hb
        (fun v w => Shifts.reduce rfl rfl (Shifts.reduce rfl rfl (Shifts.shift rfl rfl)))
  | repetition pp lower upper ih =>
      have hoperand := ih hpp.1 hplain (.parenthesis k)
      have hbounds : ∀ v, Reads parsePredicate start (.gotPathFactor v (.parenthesis k))
          ((if upper = -1 then if lower = 0 then ['*'] else ">=".toList ++ printInt lower
            else "<=".toList ++ printInt upper) ++ [')'])
          ((readBackBounds lower upper).map fun bounds =>
            .gotPathFactor (.repetition v bounds.1 bounds.2) k) := fun v =>
        Reads.operand rfl hclose (reads_bounds hstart hpp.2.1 hpp.2.2.1 v (.parenthesis k))
          fun bounds => Shifts.reduce rfl rfl (Shifts.reduce rfl rfl (Shifts.shift rfl rfl))
      obtain ⟨x, text, hx, hcons⟩ := bounds_cons lower upper
      rw [hcons] at hbounds
      rw [PathPattern.print, readBackPath, hcons, Option.map_bind]
      refine Reads.character isToken_lParenthesis (hparen k) (Reads.append hx hoperand ?_)
      intro v _
      rw [Function.comp_apply, Option.map_map]
      exact hbounds v

/-! ## Coverage patterns -/

/-- **Coverage patterns are read operand by operand.** -/
theorem reads_cover {cp : CoveragePattern FilterExpr P} (hcp : CoverIn start cp)
    (hplain : ∀ p ∈ coverPredicates cp, IsPlain (printPredicate p)) (k : CoverCont P) :
    Reads parsePredicate start (.coverFactor k) (cp.print printPredicate)
      ((readBackCover parsePredicate printPredicate start cp).map fun v => .gotCoverFactor v k) := by
  have hclose := isToken_rParenthesis (mem_inQuery_of_inPatterns hstart)
  have hparen : ∀ k : CoverCont P, Shifts parsePredicate .tokLParenthesis (.coverFactor k)
      (.coverFactor (.parenthesis k)) := fun k => Shifts.shift rfl rfl
  induction cp generalizing k with
  | atom a =>
      rw [CoveragePattern.print, readBackCover, Option.map_map]
      exact reads_atom hstart hcp hplain (.cover k)
  | quote pp =>
      have hopen : Shifts parsePredicate .tokDblquote (.coverFactor k) (.pathFactor (.quote k)) :=
        Shifts.shift rfl rfl
      rw [CoveragePattern.print, readBackCover, Option.map_map]
      refine Reads.character (isToken_dblquote hstart) hopen ?_
      exact Reads.operand rfl (isToken_dblquote hstart) (reads_path hstart hcp hplain (.quote k))
        fun v => Shifts.reduce rfl rfl (Shifts.reduce rfl rfl (Shifts.shift rfl rfl))
  | cpAlternative a b iha ihb =>
      have ha := iha hcp.1 (fun p hp => hplain p (List.mem_append_left _ hp)) (.parenthesis k)
      have hb := fun v => ihb hcp.2 (fun p hp => hplain p (List.mem_append_right _ hp))
        (.alternative v (.parenthesis k))
      rw [CoveragePattern.print, printInfix, readBackCover]
      refine Reads.character isToken_lParenthesis (hparen k) ?_
      exact Reads.operands rfl rfl (isToken_alternative hstart) hclose ha
        (fun v => Shifts.reduction rfl (Shifts.reduce rfl rfl (Shifts.shift rfl rfl))) hb
        (fun v w => Shifts.reduction rfl (Shifts.reduce rfl rfl (Shifts.shift rfl rfl)))
  | cpConcat a b iha ihb =>
      have ha := iha hcp.1 (fun p hp => hplain p (List.mem_append_left _ hp)) (.parenthesis k)
      have hb := fun v => ihb hcp.2 (fun p hp => hplain p (List.mem_append_right _ hp))
        (.concat v (.parenthesis k))
      rw [CoveragePattern.print, printInfix, readBackCover]
      refine Reads.character isToken_lParenthesis (hparen k) ?_
      exact Reads.operands rfl rfl (isToken_concat hstart) hclose ha
        (fun v => Shifts.reduction rfl (Shifts.shift rfl rfl)) hb
        (fun v w => Shifts.reduction rfl (Shifts.reduce rfl rfl (Shifts.shift rfl rfl)))

end

end FShell.Fql
