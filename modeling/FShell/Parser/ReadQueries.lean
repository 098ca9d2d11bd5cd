import FShell.Parser.ReadPatterns

/-!
# Reading printed queries

The printer leaves out the anchors: a printed query is read with any path
before and behind its patterns.  The text that has both patterns between
anchors is read as the patterns alone.
-/

namespace FShell.Fql

variable {P : Type}

/-! ## Texts -/

section

variable (parsePredicate : String → Option P) (printPredicate : P → List Char)

/-- The `IN` clause of a printed query. -/
def printScope (scope : Option FilterExpr) : List Char :=
  scope.elim [] fun f => "IN ".toList ++ (f.print ++ [' '])

/-- `visit(Query const*)`. -/
def ParsedQuery.print (q : ParsedQuery P) : List Char :=
  printScope q.scope ++ ("COVER ".toList ++ (q.cover.print printPredicate ++
    (" PASSING ".toList ++ q.passing.print printPredicate)))

/-- The same with both patterns between anchors. -/
def anchoredText (q : ParsedQuery P) : List Char :=
  printScope q.scope ++ ("COVER ^".toList ++ (q.cover.print printPredicate ++
    ("$ PASSING ^".toList ++ (q.passing.print printPredicate ++ ['$']))))

/-- The query with any path before and behind its patterns. -/
def ParsedQuery.unanchored (q : ParsedQuery P) : ParsedQuery P :=
  ⟨q.scope, coverValue (some idStar) q.cover (some idStar),
    passingValue (some idStar) q.passing (some idStar)⟩

/-- The printed `IN` clause. -/
def readBackScope (scope : Option FilterExpr) : Option (Option FilterExpr) :=
  scope.elim (some none) fun f => (readBackFilter .queryScope f).map some

/-- A printed query. -/
def readBackQuery (q : ParsedQuery P) : Option (ParsedQuery P) :=
  (readBackScope q.scope).bind fun scope =>
    (readBackCover parsePredicate printPredicate .queryCover q.cover).bind fun cover =>
      (readBackPath parsePredicate printPredicate .queryPassing q.passing).map fun passing =>
        ⟨scope, cover, passing⟩

/-- The queries that the parser delivers. -/
structure QueryIn (q : ParsedQuery P) : Prop where
  scope : ∀ f ∈ q.scope, FilterIn .queryScope f
  cover : CoverIn .queryCover q.cover
  passing : PathIn .queryPassing q.passing

/-- The predicates of a query. -/
def queryPredicates (q : ParsedQuery P) : List P :=
  coverPredicates q.cover ++ pathPredicates q.passing

end

variable {parsePredicate : String → Option P} {printPredicate : P → List Char}

/-! ## What is delivered -/

/-- What is skipped. -/
theorem Leads.of_skip {c : Control P} {l l' : LexerState} (hred : c.reduction = none)
    (hscan : l.scan = .skipped l') :
    Leads parsePredicate (.running ⟨c, l, none⟩) (.running ⟨c, l', none⟩) := by
  have hstep : Parsing.step parsePredicate ⟨c, l, none⟩ = (.running ⟨c, l', none⟩, []) := by
    simp only [Parsing.step, hred, Parsing.advance, Parsing.read, hscan]
  exact Leads.of_step hstep

/-- From `c` on the parser accepts this query, or none. -/
def Delivers (parsePredicate : String → Option P) (c : Config P) (q : Option (ParsedQuery P)) :
    Prop :=
  ∀ q', c.outcome parsePredicate = .accepted q' ↔ q = some q'

section

variable {start backup : StartCondition} {rest : List Char} {c : Control P}

theorem Delivers.of_leads {cfg cfg' : Config P} {q : Option (ParsedQuery P)}
    (h : Leads parsePredicate cfg cfg') (h' : Delivers parsePredicate cfg' q) :
    Delivers parsePredicate cfg q := by
  intro q'
  rw [h.outcome_eq]
  exact h' q'

theorem Delivers.of_done {q : ParsedQuery P} :
    Delivers parsePredicate (.done (.accepted q)) (some q) := by
  intro q'
  rw [Config.outcome, Outcome.accepted.injEq, Option.some.injEq]

/-- A text that is read, and what is delivered behind it. -/
theorem Delivers.of_reads {α : Type} {text : List Char} {value : Option α} {got : α → Control P}
    {next : α → Option (ParsedQuery P)}
    (h : Reads parsePredicate start c text (value.map got)) (hrest : Delimited rest)
    (hnext : ∀ v ∈ value, ∀ backup',
      Delivers parsePredicate (.running ⟨got v, ⟨start, backup', rest⟩, none⟩) (next v)) :
    Delivers parsePredicate (.running ⟨c, ⟨start, backup, text ++ rest⟩, none⟩)
      (value.bind next) := by
  obtain ⟨cfg, hleads, hto⟩ := h backup rest hrest
  cases value with
  | none =>
      obtain ⟨outcome, rfl, hfail⟩ := hto
      refine Delivers.of_leads hleads fun q' => ?_
      exact iff_of_false (hfail q') (by rw [Option.bind_none]; exact nofun)
  | some v =>
      obtain ⟨backup', rfl⟩ := hto
      exact Delivers.of_leads hleads (hnext v rfl backup')

/-- What is scanned and shifted. -/
theorem Delivers.of_shift {t : Token} {d : Control P} {l l' : LexerState}
    {q : Option (ParsedQuery P)} (hscan : l.scan = .token t l')
    (hshift : Shifts parsePredicate t c d)
    (h : Delivers parsePredicate (.running ⟨d, l', none⟩) q) :
    Delivers parsePredicate (.running ⟨c, l, none⟩) q :=
  Delivers.of_leads (hshift.leads_of_scan hscan) h

theorem Delivers.of_skip {l l' : LexerState} {q : Option (ParsedQuery P)}
    (hred : c.reduction = none) (hscan : l.scan = .skipped l')
    (h : Delivers parsePredicate (.running ⟨c, l', none⟩) q) :
    Delivers parsePredicate (.running ⟨c, l, none⟩) q :=
  Delivers.of_leads (Leads.of_skip hred hscan) h

/-- A token that is looked at when `c` becomes `d` could have been read there. -/
theorem Delivers.of_reduce {t : Token} {d : Control P} {l l' : LexerState}
    {q : Option (ParsedQuery P)} {events : List (Event P)} (hc : c.reduction = none)
    (hd : d.reduction = none) (hscan : l.scan = .token t l')
    (hreduce : c.onToken parsePredicate t = .reduce d events)
    (h : Delivers parsePredicate (.running ⟨d, l, none⟩) q) :
    Delivers parsePredicate (.running ⟨c, l, none⟩) q := by
  have hread : Leads parsePredicate (.running ⟨c, l, none⟩) (.running ⟨c, l', some t⟩) :=
    Leads.of_step (step_of_scan hc hscan)
  have hstep : Parsing.step parsePredicate ⟨c, l', some t⟩ = (.running ⟨d, l', some t⟩, events) := by
    simp only [Parsing.step, hc, Parsing.advance, hreduce, Parsing.react]
  have hread' : Leads parsePredicate (.running ⟨d, l, none⟩) (.running ⟨d, l', some t⟩) :=
    Leads.of_step (step_of_scan hd hscan)
  have hleads : Leads parsePredicate (.running ⟨c, l, none⟩) (.running ⟨d, l', some t⟩) :=
    hread.trans (Leads.of_step hstep)
  intro q'
  rw [hleads.outcome_eq, ← hread'.outcome_eq]
  exact h q'

end

/-! ## Clauses -/

section

variable {scope : Option FilterExpr} {backup : StartCondition}

/-- The end of the text. -/
theorem delivers_end (q : ParsedQuery P) (start : StartCondition) :
    Delivers parsePredicate (.running ⟨.gotQuery q, ⟨start, backup, []⟩, none⟩) (some q) := by
  have hread : Parsing.step parsePredicate ⟨.gotQuery q, ⟨start, backup, []⟩, none⟩ =
      (.running ⟨.gotQuery q, ⟨start, backup, []⟩, some .endOfInput⟩, []) := rfl
  have haccept : Parsing.step parsePredicate
      ⟨.gotQuery q, ⟨start, backup, []⟩, some .endOfInput⟩ = (.done (.accepted q), []) := rfl
  exact Delivers.of_leads ((Leads.of_step hread).trans (Leads.of_step haccept)) Delivers.of_done

/-- The `IN` clause, and what is delivered behind `COVER`. -/
theorem delivers_scope {tail : List Char} {next : Option FilterExpr → Option (ParsedQuery P)}
    (hscope : ∀ f ∈ scope, FilterIn .queryScope f)
    (hnext : ∀ scope backup, Delivers parsePredicate
      (.running ⟨.coverAnchor scope, ⟨.queryCover, backup, ' ' :: tail⟩, none⟩) (next scope)) :
    Delivers parsePredicate
      (.running (parsingOf (printScope scope ++ ("COVER".toList ++ ' ' :: tail))))
      ((readBackScope scope).bind next) := by
  have hscan : ∀ start backup, start ∈ [StartCondition.initial, .queryScope] →
      LexerState.scan ⟨start, backup, "COVER".toList ++ ' ' :: tail⟩ =
        .token .tokCover ⟨.queryCover, backup, ' ' :: tail⟩ := by
    intro start backup hstart
    rcases List.mem_pair.mp hstart with rfl | rfl
    · exact scan_begin (isWord_cons rfl) rfl (delimited_cons rfl)
    · exact scan_begin (isWord_cons rfl) rfl (delimited_cons rfl)
  cases scope with
  | none =>
      have hword : Shifts parsePredicate .tokCover .start (.coverAnchor none) :=
        Shifts.reduce rfl rfl (Shifts.shift rfl rfl)
      exact Delivers.of_shift (hscan .initial .initial (by decide)) hword (hnext none _)
  | some f =>
      have hquery : StartCondition.queryScope ∈ inQuery := by decide
      have hin : Shifts parsePredicate .tokIn .start (.filter .scope) := Shifts.shift rfl rfl
      have hscanIn : ∀ rest, LexerState.scan ⟨.initial, .initial, "IN".toList ++ ' ' :: rest⟩ =
          .token .tokIn ⟨.queryScope, .initial, ' ' :: rest⟩ :=
        fun rest => scan_begin (isWord_cons rfl) rfl (delimited_cons rfl)
      have htext : printScope (some f) ++ ("COVER".toList ++ ' ' :: tail) =
          "IN".toList ++ ' ' :: (f.print ++ ' ' :: ("COVER".toList ++ ' ' :: tail)) := by
        simp only [printScope, Option.elim_some, List.append_assoc]
        rfl
      have hvalue : (readBackScope (some f)).bind next =
          (readBackFilter .queryScope f).bind fun g => next (some g) := by
        rw [readBackScope, Option.elim_some, Option.bind_map]
        rfl
      rw [htext, hvalue]
      refine Delivers.of_shift (hscanIn _) hin (Delivers.of_skip rfl rfl ?_)
      refine Delivers.of_reads (reads_filter hquery (hscope f rfl) .scope) (delimited_cons rfl)
        fun g _ backup' => Delivers.of_skip rfl rfl ?_
      have hword : Shifts parsePredicate .tokCover (.gotFilter g .scope) (.coverAnchor (some g)) :=
        Shifts.reduce rfl rfl (Shifts.shift rfl rfl)
      exact Delivers.of_shift (hscan .queryScope backup' (by decide)) hword (hnext (some g) _)

/-! ### Between anchors -/

section

variable {cp : CoveragePattern FilterExpr P} {pp : PathPattern FilterExpr P}
  (hcp : CoverIn .queryCover cp) (hpp : PathIn .queryPassing pp)
  (hcover : ∀ p ∈ coverPredicates cp, IsPlain (printPredicate p))
  (hpassing : ∀ p ∈ pathPredicates pp, IsPlain (printPredicate p))

include hpp hpassing

/-- A `PASSING` clause, from its first anchor on. -/
theorem delivers_anchoredPassing {cover : CoveragePattern FilterExpr P} :
    Delivers parsePredicate
      (.running ⟨.passingAnchor scope cover,
        ⟨.queryPassing, backup, ' ' :: '^' :: (pp.print printPredicate ++ ['$'])⟩, none⟩)
      ((readBackPath parsePredicate printPredicate .queryPassing pp).map fun passing =>
        ⟨scope, cover, passing⟩) := by
  have hpatterns : StartCondition.queryPassing ∈ inPatterns := by decide
  have hanchor : Shifts parsePredicate .tokStart (.passingAnchor scope cover)
      (.pathFactor (.clause scope cover none)) := Shifts.shift rfl rfl
  refine Delivers.of_skip rfl rfl (Delivers.of_shift (isToken_start hpatterns backup _) hanchor ?_)
  rw [Option.map_eq_bind]
  refine Delivers.of_reads (reads_path hpatterns hpp hpassing (.clause scope cover none))
    (delimited_cons rfl) fun v _ backup' => ?_
  have hend : Shifts parsePredicate .tokEnd (.gotPathFactor v (.clause scope cover none))
      (.gotQuery ⟨scope, cover, v⟩) :=
    Shifts.reduce rfl rfl (Shifts.reduce rfl rfl (Shifts.shift rfl rfl))
  exact Delivers.of_shift (isToken_end hpatterns backup' []) hend (delivers_end _ _)

include hcp hcover

/-- A `COVER` clause, from its first anchor on. -/
theorem delivers_anchoredCover :
    Delivers parsePredicate
      (.running ⟨.coverAnchor scope,
        ⟨.queryCover, backup, ' ' :: '^' :: (cp.print printPredicate ++
          ("$ PASSING ^".toList ++ (pp.print printPredicate ++ ['$'])))⟩, none⟩)
      ((readBackCover parsePredicate printPredicate .queryCover cp).bind fun cover =>
        (readBackPath parsePredicate printPredicate .queryPassing pp).map fun passing =>
          ⟨scope, cover, passing⟩) := by
  have hpatterns : StartCondition.queryCover ∈ inPatterns := by decide
  have hanchor : Shifts parsePredicate .tokStart (.coverAnchor scope)
      (.coverFactor (.clause scope none)) := Shifts.shift rfl rfl
  refine Delivers.of_skip rfl rfl (Delivers.of_shift (isToken_start hpatterns backup _) hanchor ?_)
  refine Delivers.of_reads (reads_cover hpatterns hcp hcover (.clause scope none))
    (delimited_cons rfl) fun v _ backup' => ?_
  have hend : Shifts parsePredicate .tokEnd (.gotCoverFactor v (.clause scope none))
      (.gotCoverClause scope v) :=
    Shifts.reduction rfl (Shifts.reduce rfl rfl (Shifts.shift rfl rfl))
  have hword : Shifts parsePredicate .tokPassing (.gotCoverClause scope v)
      (.passingAnchor scope v) := Shifts.shift rfl rfl
  refine Delivers.of_shift (isToken_end hpatterns backup' _) hend (Delivers.of_skip rfl rfl ?_)
  have hscan : LexerState.scan ⟨.queryCover, backup', "PASSING".toList ++
      ' ' :: '^' :: (pp.print printPredicate ++ ['$'])⟩ =
      .token .tokPassing ⟨.queryPassing, backup', ' ' :: '^' :: (pp.print printPredicate ++ ['$'])⟩ :=
    scan_begin (isWord_cons rfl) rfl (delimited_cons rfl)
  exact Delivers.of_shift hscan hword (delivers_anchoredPassing hpp hpassing)

end

end

/-- **A text with anchors is read back clause by clause.** -/
theorem fqlParse_anchoredText {q : ParsedQuery P} (hq : QueryIn q)
    (hplain : ∀ p ∈ queryPredicates q, IsPlain (printPredicate p)) (q' : ParsedQuery P) :
    (fqlParse parsePredicate (anchoredText printPredicate q)).1 = .accepted q' ↔
      readBackQuery parsePredicate printPredicate q = some q' := by
  have hcoverPlain := fun p hp => hplain p (List.mem_append_left _ hp)
  have hpassingPlain := fun p hp => hplain p (List.mem_append_right _ hp)
  exact delivers_scope hq.scope (fun _ _ =>
    delivers_anchoredCover hq.cover hq.passing hcoverPlain hpassingPlain) q'

/-! ### Without anchors -/

section

variable {start backup : StartCondition} {rest : List Char} (hstart : start ∈ inPatterns)

include hstart

/-- The first token of an atom is no anchor. -/
theorem scan_atom {a : EcpAtom FilterExpr P}
    (hplain : ∀ p ∈ atomPredicates a, IsPlain (printPredicate p)) :
    ∃ t l, LexerState.scan ⟨start, backup, a.print printPredicate ++ rest⟩ = .token t l ∧
      t ≠ .tokStart := by
  obtain ⟨hedges, hnodes, hpaths⟩ := isWordToken_atom hstart
  cases a with
  | edgecov f =>
      rw [EcpAtom.print, printCall_append]
      exact ⟨_, _, hedges backup _ (delimited_cons rfl), fun h => by cases h⟩
  | nodecov f =>
      rw [EcpAtom.print, printCall_append]
      exact ⟨_, _, hnodes backup _ (delimited_cons rfl), fun h => by cases h⟩
  | pathcov f bound =>
      rw [EcpAtom.print, printCall_append]
      exact ⟨_, _, hpaths backup _ (delimited_cons rfl), fun h => by cases h⟩
  | predicate p =>
      rw [EcpAtom.print, List.cons_append, List.append_assoc, List.singleton_append]
      have hscan := scan_arbitraryPred hstart (hplain p List.mem_cons_self) backup rest
      exact ⟨_, _, hscan, fun h => by cases h⟩

/-- Nor is that of a path pattern. -/
theorem scan_path {pp : PathPattern FilterExpr P}
    (hplain : ∀ p ∈ pathPredicates pp, IsPlain (printPredicate p)) :
    ∃ t l, LexerState.scan ⟨start, backup, pp.print printPredicate ++ rest⟩ = .token t l ∧
      t ≠ .tokStart := by
  cases pp with
  | atom a => exact scan_atom hstart hplain
  | ppAlternative a b | ppConcat a b | repetition pp lower upper =>
      exact ⟨_, _, isToken_lParenthesis backup _, fun h => by cases h⟩

/-- Nor is that of a coverage pattern. -/
theorem scan_cover {cp : CoveragePattern FilterExpr P}
    (hplain : ∀ p ∈ coverPredicates cp, IsPlain (printPredicate p)) :
    ∃ t l, LexerState.scan ⟨start, backup, cp.print printPredicate ++ rest⟩ = .token t l ∧
      t ≠ .tokStart := by
  cases cp with
  | atom a => exact scan_atom hstart hplain
  | quote pp => exact ⟨_, _, isToken_dblquote hstart backup _, fun h => by cases h⟩
  | cpAlternative a b | cpConcat a b =>
      exact ⟨_, _, isToken_lParenthesis backup _, fun h => by cases h⟩

end

theorem onToken_coverAnchor {scope : Option FilterExpr} {t : Token} (ht : t ≠ .tokStart) :
    (Control.coverAnchor scope).onToken parsePredicate t =
      .reduce (.coverFactor (.clause scope (some idStar))) emptyAnchor := by
  cases t with
  | tokStart => exact absurd rfl ht
  | _ => rfl

theorem onToken_passingAnchor {scope : Option FilterExpr} {cover : CoveragePattern FilterExpr P}
    {t : Token} (ht : t ≠ .tokStart) :
    (Control.passingAnchor scope cover).onToken parsePredicate t =
      .reduce (.pathFactor (.clause scope cover (some idStar))) emptyAnchor := by
  cases t with
  | tokStart => exact absurd rfl ht
  | _ => rfl

section

variable {scope : Option FilterExpr} {backup : StartCondition}
  {cp : CoveragePattern FilterExpr P} {pp : PathPattern FilterExpr P}
  (hcp : CoverIn .queryCover cp) (hpp : PathIn .queryPassing pp)
  (hcover : ∀ p ∈ coverPredicates cp, IsPlain (printPredicate p))
  (hpassing : ∀ p ∈ pathPredicates pp, IsPlain (printPredicate p))

/-- A path pattern at the end of the text. -/
theorem delivers_endPassing {cover : CoveragePattern FilterExpr P} {v : PathPattern FilterExpr P} :
    Delivers parsePredicate
      (.running ⟨.gotPathFactor v (.clause scope cover (some idStar)),
        ⟨.queryPassing, backup, []⟩, none⟩)
      (some ⟨scope, cover, passingValue (some idStar) v (some idStar)⟩) := by
  have hscan : LexerState.scan ⟨.queryPassing, backup, []⟩ =
      .token .endOfInput ⟨.queryPassing, backup, []⟩ := rfl
  have hfactor : (Control.gotPathFactor v (.clause scope cover (some idStar))).onToken
      parsePredicate .endOfInput = .reduce (.gotPathTerm v (.clause scope cover (some idStar))) [] :=
    rfl
  have hterm : (Control.gotPathTerm v (.clause scope cover (some idStar))).onToken
      parsePredicate .endOfInput = .reduce (.gotPath v (.clause scope cover (some idStar))) [] := rfl
  refine Delivers.of_reduce rfl rfl hscan hfactor (Delivers.of_reduce rfl rfl hscan hterm ?_)
  exact Delivers.of_reduce rfl rfl hscan rfl (delivers_end _ _)

include hpp hpassing

/-- A printed `PASSING` clause. -/
theorem delivers_passing {cover : CoveragePattern FilterExpr P} :
    Delivers parsePredicate
      (.running ⟨.passingAnchor scope cover,
        ⟨.queryPassing, backup, ' ' :: pp.print printPredicate⟩, none⟩)
      ((readBackPath parsePredicate printPredicate .queryPassing pp).map fun passing =>
        ⟨scope, cover, passingValue (some idStar) passing (some idStar)⟩) := by
  have hpatterns : StartCondition.queryPassing ∈ inPatterns := by decide
  obtain ⟨t, l, hscan, ht⟩ :=
    @scan_path P printPredicate .queryPassing backup [] hpatterns pp hpassing
  rw [← List.append_nil (pp.print printPredicate), Option.map_eq_bind]
  refine Delivers.of_skip rfl rfl
    (Delivers.of_reduce rfl rfl hscan (onToken_passingAnchor ht) ?_)
  exact Delivers.of_reads (reads_path hpatterns hpp hpassing (.clause scope cover (some idStar)))
    delimited_nil fun v _ backup' => delivers_endPassing

include hcp hcover

/-- A printed `COVER` clause and what follows it. -/
theorem delivers_cover :
    Delivers parsePredicate
      (.running ⟨.coverAnchor scope,
        ⟨.queryCover, backup, ' ' :: (cp.print printPredicate ++
          (" PASSING ".toList ++ pp.print printPredicate))⟩, none⟩)
      ((readBackCover parsePredicate printPredicate .queryCover cp).bind fun cover =>
        (readBackPath parsePredicate printPredicate .queryPassing pp).map fun passing =>
          ⟨scope, coverValue (some idStar) cover (some idStar),
            passingValue (some idStar) passing (some idStar)⟩) := by
  have hpatterns : StartCondition.queryCover ∈ inPatterns := by decide
  obtain ⟨t, l, hscan, ht⟩ := @scan_cover P printPredicate .queryCover backup
    (" PASSING ".toList ++ pp.print printPredicate) hpatterns cp hcover
  refine Delivers.of_skip rfl rfl (Delivers.of_reduce rfl rfl hscan (onToken_coverAnchor ht) ?_)
  refine Delivers.of_reads (reads_cover hpatterns hcp hcover (.clause scope (some idStar)))
    (delimited_cons rfl) fun v _ backup' =>
      Delivers.of_leads (Leads.of_step (step_of_reduction rfl)) (Delivers.of_skip rfl rfl ?_)
  have hword : Shifts parsePredicate .tokPassing (.gotCoverTerm v (.clause scope (some idStar)))
      (.passingAnchor scope (coverValue (some idStar) v (some idStar))) :=
    Shifts.reduce rfl rfl (Shifts.reduce rfl rfl (Shifts.shift rfl rfl))
  have hscanPassing : LexerState.scan ⟨.queryCover, backup', "PASSING".toList ++
      ' ' :: pp.print printPredicate⟩ =
      .token .tokPassing ⟨.queryPassing, backup', ' ' :: pp.print printPredicate⟩ :=
    scan_begin (isWord_cons rfl) rfl (delimited_cons rfl)
  exact Delivers.of_shift hscanPassing hword (delivers_passing hpp hpassing)

end

/-- **A printed query is read back between any paths.** -/
theorem fqlParse_print {q : ParsedQuery P} (hq : QueryIn q)
    (hplain : ∀ p ∈ queryPredicates q, IsPlain (printPredicate p)) (q' : ParsedQuery P) :
    (fqlParse parsePredicate (q.print printPredicate)).1 = .accepted q' ↔
      (readBackQuery parsePredicate printPredicate q).map ParsedQuery.unanchored = some q' := by
  have hcoverPlain := fun p hp => hplain p (List.mem_append_left _ hp)
  have hpassingPlain := fun p hp => hplain p (List.mem_append_right _ hp)
  have hvalue : (readBackQuery parsePredicate printPredicate q).map ParsedQuery.unanchored =
      (readBackScope q.scope).bind fun scope =>
        (readBackCover parsePredicate printPredicate .queryCover q.cover).bind fun cover =>
          (readBackPath parsePredicate printPredicate .queryPassing q.passing).map fun passing =>
            ⟨scope, coverValue (some idStar) cover (some idStar),
              passingValue (some idStar) passing (some idStar)⟩ := by
    simp only [readBackQuery, Option.map_bind, Option.map_map, Function.comp_def,
      ParsedQuery.unanchored]
  rw [hvalue]
  exact delivers_scope hq.scope (fun _ _ =>
    delivers_cover hq.cover hq.passing hcoverPlain hpassingPlain) q'

end FShell.Fql
