import FShell.Automata.Runs
import FShell.Main.FShell2

/-!
# The assertion check before a query

`try_query` checks the assertions when `finalize` rebuilt the goto program or
when no check has passed yet.  A failing check throws, but `finalize` has
already set its flag and `m_first_run` is set back by the first passed check
only.  So after a passed check, a change of the code and a failing check, the
next query finds neither reason to check.  Along a session the ghost state is
the outcome of the last check since the last change; the invariant is that it
exists once a check has passed.
-/

namespace FShell.Command

variable {Ω L Q : Type} (w : QueryWorld Ω L Q)

/-- The outcome of the last check since the last change, after one more event. -/
def Event.after (check : Option Bool) : Event → Option Bool
  | .changed => none
  | .checked passed => some passed
  | .computed => check

/-- The outcome of the last check since the last change of the goto program. -/
def lastCheck (events : List Event) : Option Bool :=
  events.foldl Event.after none

/-- Test goals are computed after a passed check only. -/
def PassedBefore (check : Option Bool) (event : Event) : Prop :=
  event = .computed → check = some true

/-- The line is a query that can be answered: the entry function is there and
the output file can be opened. -/
def Admitted (ω : Ω) (s : FShell2 L) (line : Line) : Prop :=
  Asks w ω line = true ∧ s.cmd.symbolTable.hasSymbol s.cmd.main = true ∧
    ¬ (s.outfile ≠ "" ∧ s.outfile ≠ "-" ∧ w.opensOutfile ω s.outfile = false)

/-- `try_query` sees no reason to check: nothing has changed since the last
`finalize`, and some check has passed before. -/
def FShell2.SkipsCheck (s : FShell2 L) : Prop :=
  s.cmd.finalized = true ∧ s.firstRun = false

/-- The line repeats a query after a failed check. -/
def Repeats (ω : Ω) (s : FShell2 L) (check : Option Bool) (line : Line) : Prop :=
  check = some false ∧ s.SkipsCheck ∧ Admitted w ω s line

/-- No line up to the end of the session repeats a query after a failed check. -/
def NeverRepeats (s : FShell2 L) (check : Option Bool) : List (Ω × Line) → Prop
  | [] => True
  | (ω, line) :: lines =>
      let step := processLine w ω s line
      ¬ Repeats w ω s check line ∧
        match step.outcome.result with
        | .ok true => True
        | _ => NeverRepeats step.outcome.state (step.events.foldl Event.after check) lines

/-- What a line does to the flag and the events.  The cases are those of the
source: it ends before the check or skips it; the check fails; it passes. -/
inductive LineStep (ω : Ω) (s : FShell2 L) (line : Line) (next : FShell2 L) :
    List Event → Prop where
  | ended (hflag : next.firstRun = s.firstRun)
      (hnot : ¬ (s.SkipsCheck ∧ Admitted w ω s line)) : LineStep ω s line next []
  | skipped (hflag : next.firstRun = s.firstRun) (hskips : s.SkipsCheck)
      (hadmitted : Admitted w ω s line) : LineStep ω s line next [.computed]
  | failed (changes : List Event) (hflag : next.firstRun = s.firstRun) (hnot : ¬ s.SkipsCheck)
      (hchanges : .computed ∉ changes) : LineStep ω s line next (changes ++ [.checked false])
  | passed (changes more : List Event) (hflag : next.firstRun = false) (hnot : ¬ s.SkipsCheck)
      (hchanges : .computed ∉ changes) (hmore : more = [] ∨ more = [.computed]) :
      LineStep ω s line next (changes ++ .checked true :: more)

theorem computeTestGoals_events (ω : Ω) (s : FShell2 L) (events : List Event) :
    (computeTestGoals w ω s events).events =
      events ++ if s.outfile ≠ "" ∧ s.outfile ≠ "-" ∧ w.opensOutfile ω s.outfile = false
        then [] else [.computed] := by
  rw [computeTestGoals]
  split
  · exact (List.append_nil _).symm
  · rfl

/-- The check itself, after a change or before the first passed check. -/
theorem checkAssertions_step {ω : Ω} {s next : FShell2 L} {line : Line} {changes : List Event}
    (hnot : ¬ s.SkipsCheck) (hchanges : .computed ∉ changes) (hflag : next.firstRun = s.firstRun) :
    LineStep w ω s line (checkAssertions w ω next changes).outcome.state
      (checkAssertions w ω next changes).events := by
  rw [checkAssertions]
  split
  · exact .failed changes hflag hnot hchanges
  · rw [computeTestGoals_state, computeTestGoals_events, List.append_assoc]
    refine .passed changes _ rfl hnot hchanges ?_
    split
    · exact .inl rfl
    · exact .inr rfl

theorem prepareProgram_step (ω : Ω) (s : FShell2 L) {line : Line} (hasks : Asks w ω line = true) :
    LineStep w ω s line (prepareProgram w ω s).outcome.state (prepareProgram w ω s).events := by
  rw [prepareProgram]
  cases hentry : s.cmd.symbolTable.hasSymbol s.cmd.main with
  | false =>
      obtain ⟨-, e, herror⟩ := finalize_of_missing w.toWorld hentry
      rw [herror]
      refine .ended rfl ?_
      intro h
      exact Bool.false_ne_true (hentry.symm.trans h.2.2.1)
  | true =>
      cases hfin : s.cmd.finalized with
      | false =>
          have hnot : ¬ s.SkipsCheck := fun h => Bool.false_ne_true (hfin.symm.trans h.1)
          rw [finalize_of_changed w.toWorld hentry hfin]
          exact checkAssertions_step w hnot (by decide) rfl
      | true =>
          rw [finalize_of_finalized w.toWorld hentry hfin]
          simp only [Bool.false_eq_true, if_false, Bool.false_or]
          split
          · rename_i hfirst
            have hnot : ¬ s.SkipsCheck := fun h => Bool.false_ne_true (h.2.symm.trans hfirst)
            exact checkAssertions_step w hnot (by decide) rfl
          · rename_i hfirst
            have hskips : s.SkipsCheck := ⟨hfin, Bool.eq_false_iff.mpr hfirst⟩
            rw [computeTestGoals_state, computeTestGoals_events]
            split
            · rename_i hfile
              exact .ended rfl fun h => h.2.2.2 hfile
            · rename_i hfile
              exact .skipped rfl hskips ⟨hasks, hentry, hfile⟩

/-- Every line of a session makes one of these steps. -/
theorem processLine_step (ω : Ω) (s : FShell2 L) (line : Line) :
    LineStep w ω s line (processLine w ω s line).outcome.state (processLine w ω s line).events := by
  cases line with
  | blank => exact .ended rfl fun h => Bool.false_ne_true h.2.1
  | command parsed => exact .ended rfl fun h => Bool.false_ne_true h.2.1
  | query text =>
      rw [processLine]
      cases hasks : Asks w ω (.query text) with
      | true =>
          rw [tryQuery_of_asks w s hasks]
          exact prepareProgram_step w ω s hasks
      | false =>
          obtain ⟨hstate, hevents⟩ := tryQuery_of_not_asks w s hasks
          rw [hstate, hevents]
          exact .ended rfl fun h => Bool.false_ne_true (hasks.symm.trans h.2.1)

/-- Once a check has passed, there is a last check. -/
def FShell2.Recorded (s : FShell2 L) (check : Option Bool) : Prop :=
  s.firstRun = false → check ≠ none

/-- Events before the check say nothing about computing. -/
theorem allSteps_passedBefore_of_not_mem {check : Option Bool} {events : List Event}
    (h : .computed ∉ events) : AllSteps Event.after PassedBefore check events := by
  induction events generalizing check with
  | nil => trivial
  | cons event events ih =>
      obtain ⟨hne, hrest⟩ := List.ne_and_not_mem_of_not_mem_cons h
      exact ⟨fun hcomputed => absurd hcomputed.symm hne, ih hrest⟩

/-- **The step.**  A line computes test goals on a checked program exactly
when it does not repeat a query after a failed check; and it keeps the record. -/
theorem LineStep.passedBefore_iff {ω : Ω} {s next : FShell2 L} {line : Line}
    {events : List Event} (h : LineStep w ω s line next events) {check : Option Bool}
    (hrecorded : s.Recorded check) :
    (AllSteps Event.after PassedBefore check events ↔ ¬ Repeats w ω s check line) ∧
      next.Recorded (events.foldl Event.after check) := by
  cases h with
  | ended hflag hnot =>
      refine ⟨iff_of_true trivial fun h => hnot h.2, ?_⟩
      intro hfirst
      exact hrecorded (hflag ▸ hfirst)
  | skipped hflag hskips hadmitted =>
      constructor
      · constructor
        · intro h hrepeats
          exact absurd (hrepeats.1.symm.trans (h.1 rfl)) (by decide)
        · intro hrepeats
          refine ⟨fun _ => ?_, trivial⟩
          match check, hrecorded hskips.2 with
          | some true, _ => rfl
          | some false, _ => exact absurd ⟨rfl, hskips, hadmitted⟩ hrepeats
      · intro hfirst
        exact hrecorded (hflag ▸ hfirst)
  | failed changes hflag hnot hchanges =>
      rw [allSteps_append, List.foldl_append]
      refine ⟨iff_of_true ⟨allSteps_passedBefore_of_not_mem hchanges, ?_, trivial⟩
        fun h => hnot h.2.1, fun _ h => ?_⟩
      · intro h
        cases h
      · cases h
  | passed changes more hflag hnot hchanges hmore =>
      rw [allSteps_append, List.foldl_append, List.foldl_cons]
      refine ⟨iff_of_true ⟨allSteps_passedBefore_of_not_mem hchanges, ?_, ?_⟩
        fun h => hnot h.2.1, fun _ => ?_⟩
      · intro h
        cases h
      · rcases hmore with rfl | rfl
        · trivial
        · exact ⟨fun _ => rfl, trivial⟩
      · rcases hmore with rfl | rfl
        · exact Option.some_ne_none true
        · exact Option.some_ne_none true

/-- The run: along the lines of a session, every step is checked exactly when
no line repeats. -/
theorem interactive_passedBefore_iff (s : FShell2 L) (lines : List (Ω × Line))
    {check : Option Bool} (hrecorded : s.Recorded check) :
    AllSteps Event.after PassedBefore check (interactive w s lines).2 ↔
      NeverRepeats w s check lines := by
  induction lines generalizing s check with
  | nil => exact Iff.rfl
  | cons input lines ih =>
      obtain ⟨ω, line⟩ := input
      obtain ⟨hline, hnext⟩ := (processLine_step w ω s line).passedBefore_iff w hrecorded
      simp only [interactive, NeverRepeats]
      cases hresult : (processLine w ω s line).outcome.result with
      | error e => rw [allSteps_append, hline, ih _ hnext]
      | ok quit =>
          cases quit with
          | true => rw [hline, and_true]
          | false => rw [allSteps_append, hline, ih _ hnext]

/-- **No query is evaluated on a program that failed its check, exactly when
no query is repeated after a failed check.**  In every session, with every
outcome of parsing, checking and opening files: before each computing of test
goals the last check since the last change has passed, if and only if no line
is an answerable query that comes, with nothing changed in between and an
earlier check passed, after a failed check. -/
theorem interactive_checked_iff (cmd : CommandState L) (outfile : String)
    (lines : List (Ω × Line)) :
    let s : FShell2 L := { cmd := cmd, firstRun := true, outfile := outfile }
    (∀ done rest, (interactive w s lines).2 = done ++ .computed :: rest →
        lastCheck done = some true) ↔
      NeverRepeats w s none lines := by
  intro s
  have hrecorded : s.Recorded none := fun h => absurd h.symm Bool.false_ne_true
  rw [← interactive_passedBefore_iff w s lines hrecorded, allSteps_iff_prefix]
  constructor
  · intro h done event rest hsplit hcomputed
    subst hcomputed
    exact h done rest hsplit
  · intro h done rest hsplit
    exact h done .computed rest hsplit rfl

/-- A body of one statement. -/
def singleStatement (statement : String) : Expr where
  id := "code"
  statement := "block"
  identifier := ""
  file := "a.c"
  zeroInitializer := false
  operands := [⟨"code", statement, "", "a.c", false, []⟩]

/-- A world in which every file defines a function `g` with a failing assertion. -/
def assertionWorld : QueryWorld Unit Unit Unit where
  time := fun _ => 0
  stat := fun _ _ => none
  readFile := fun _ _ => none
  parse := fun _ _ file _ => (false, [(file, ())])
  typecheck := fun _ files table =>
    (false, files, table.add "g" { isCode := true, value := some (singleStatement "assert") })
  ansiCEntryPoint := fun _ table =>
    (false, table.add "_start"
      { isCode := true, value := some (singleStatement "function_call") })
  replaceArgv := fun _ value => value
  typecheckArgv := fun _ _ => []
  expand := fun _ line => .ok line
  parseQuery := fun _ _ => .ok ()
  bmcRun := fun _ functionMap => (functionMap "g").isSome
  opensOutfile := fun _ _ => true

/-- The program `main` of a file given on the command line. -/
def mainTable : SymbolTable where
  symbols := [("main", { isCode := true, value := some (singleStatement "skip") })]
  names_nodup := List.nodup_singleton _

/-- A query, `ADD SOURCECODE` of a file with a failing assertion, and the query
twice: the second time it is evaluated right after the failed check. -/
theorem repeatedQuery_unchecked :
    let s : FShell2 Unit :=
      { cmd := .init [] "" 0 [("a.c", ())] mainTable (fun _ => none)
        firstRun := true
        outfile := "" }
    let query : Unit × Line := ((), .query "cover EDGES(ID)")
    let lines := [query, ((), .command (.addSourcecode "b.c" [])), query, query]
    (interactive assertionWorld s lines).2 =
        [.checked true, .computed, .changed, .checked false, .computed] ∧
      ¬ ∀ done rest, (interactive assertionWorld s lines).2 = done ++ .computed :: rest →
        lastCheck done = some true := by
  intro s query lines
  have hevents : (interactive assertionWorld s lines).2 =
      [.checked true, .computed, .changed, .checked false, .computed] := by decide +kernel
  refine ⟨hevents, ?_⟩
  intro h
  have hlast := h [.checked true, .computed, .changed, .checked false] [] hevents
  exact absurd hlast (by decide)

end FShell.Command
