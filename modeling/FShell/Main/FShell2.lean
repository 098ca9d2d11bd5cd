import FShell.Command.CommandProcessing

/-!
# Lines of a session

The main class: `process_line` hands a line to the control commands and tries
it as a query if they do not know it, `interactive` reads lines until the
session is quit and goes on after an exception of its own kinds.  Beside the
state, each line leaves events: the goto program was rebuilt, the assertion
check ran, test goals were computed.  What a query computes after that leaves
the state alone, since it works on copies of the symbol table and of the goto
functions, and is left out.
-/

namespace FShell.Command

/-- The parts of the outside that queries need: macro expansion, the query
parser, the assertion check (`true` is a failing assertion) and opening of the
output file. -/
structure QueryWorld (Ω L Q : Type) extends World Ω L where
  expand : Ω → String → Except String String
  parseQuery : Ω → String → Except String Q
  bmcRun : Ω → (String → Option GotoFunction) → Bool
  opensOutfile : Ω → String → Bool

/-- The main class with its command processor. -/
structure FShell2 (L : Type) where
  cmd : CommandState L
  firstRun : Bool
  outfile : String

/-- A line of input.  `query` is a line that the command grammar rejects,
`blank` one that is empty or a comment. -/
inductive Line where
  | blank
  | command (parsed : ParsedCommand)
  | query (text : String)

inductive Event where
  | changed
  | checked (passed : Bool)
  | computed
  deriving DecidableEq

/-- What a line leaves: the outcome, whose result says whether to quit, and
the events. -/
structure Step (L : Type) where
  outcome : Outcome (FShell2 L) Bool
  events : List Event

variable {Ω L Q : Type} (w : QueryWorld Ω L Q)

/-- The rest of `try_query`, behind the assertion check. -/
def computeTestGoals (ω : Ω) (s : FShell2 L) (events : List Event) : Step L :=
  if s.outfile ≠ "" ∧ s.outfile ≠ "-" ∧ w.opensOutfile ω s.outfile = false then
    ⟨⟨s, [], .error (.fshell2 ("Failed to open output file " ++ s.outfile))⟩, events⟩
  else ⟨⟨s, [], .ok false⟩, events ++ [.computed]⟩

/-- The assertion check of `try_query`, and what follows it. -/
def checkAssertions (ω : Ω) (s : FShell2 L) (changes : List Event) : Step L :=
  if w.bmcRun ω s.cmd.functionMap then
    ⟨⟨s, [], .error (.fshell2 "Program has failing assertions, cannot proceed.")⟩,
      changes ++ [.checked false]⟩
  else computeTestGoals w ω { s with firstRun := false } (changes ++ [.checked true])

/-- The part of `try_query` behind the parser: the program is finalized, and
checked if need be. -/
def prepareProgram (ω : Ω) (s : FShell2 L) : Step L :=
  let finalized := finalize w.toWorld s.cmd
  let s := { s with cmd := finalized.state }
  match finalized.result with
  | .error e => ⟨⟨s, [], .error e⟩, []⟩
  | .ok mod =>
      let changes := if mod then [Event.changed] else []
      if mod || s.firstRun then checkAssertions w ω s changes
      else computeTestGoals w ω s changes

/-- `try_query`. -/
def tryQuery (ω : Ω) (s : FShell2 L) (line : String) : Step L :=
  match w.expand ω line with
  | .error what => ⟨⟨s, [], .error (.macroProcessing what)⟩, []⟩
  | .ok query =>
      if query.isEmpty then ⟨⟨s, [], .ok false⟩, []⟩
      else
        match w.parseQuery ω query with
        | .error what => ⟨⟨s, [], .error (.queryProcessing what)⟩, []⟩
        | .ok _ => prepareProgram w ω s

/-- `process_line`. -/
def processLine (ω : Ω) (s : FShell2 L) : Line → Step L
  | .blank => ⟨⟨s, [], .ok false⟩, []⟩
  | .command parsed =>
      let processed := processCommand w.toWorld ω s.cmd parsed
      ⟨⟨{ s with cmd := processed.state }, processed.output,
        processed.result.map fun status => status = .quit⟩, []⟩
  | .query text => tryQuery w ω s text

/-- `interactive`, on the lines that the user types: the state at its end and
the events on the way. -/
def interactive (s : FShell2 L) : List (Ω × Line) → FShell2 L × List Event
  | [] => (s, [])
  | (ω, line) :: lines =>
      let step := processLine w ω s line
      match step.outcome.result with
      | .ok true => (step.outcome.state, step.events)
      | _ =>
          let rest := interactive step.outcome.state lines
          (rest.1, step.events ++ rest.2)

/-- The line is a query: it expands to a text that the query parser accepts. -/
def Asks (ω : Ω) : Line → Bool
  | .query text =>
      match w.expand ω text with
      | .ok query => !query.isEmpty && (w.parseQuery ω query).isOk
      | .error _ => false
  | _ => false

/-- A line that is no query, or none that is understood, ends at once. -/
theorem tryQuery_of_not_asks {ω : Ω} (s : FShell2 L) {text : String}
    (h : Asks w ω (.query text) = false) :
    (tryQuery w ω s text).outcome.state = s ∧ (tryQuery w ω s text).events = [] := by
  rw [tryQuery]
  rw [Asks] at h
  cases hexpand : w.expand ω text with
  | error what => exact ⟨rfl, rfl⟩
  | ok query =>
      rw [hexpand] at h
      dsimp only
      split
      · exact ⟨rfl, rfl⟩
      · rename_i hempty
        cases hparse : w.parseQuery ω query with
        | error what => exact ⟨rfl, rfl⟩
        | ok parsed =>
            simp [hempty, hparse, Except.isOk, Except.toBool] at h

theorem tryQuery_of_asks {ω : Ω} (s : FShell2 L) {text : String}
    (h : Asks w ω (.query text) = true) : tryQuery w ω s text = prepareProgram w ω s := by
  rw [tryQuery]
  rw [Asks] at h
  cases hexpand : w.expand ω text with
  | error what =>
      rw [hexpand] at h
      cases h
  | ok query =>
      rw [hexpand] at h
      obtain ⟨hempty, hparse⟩ := Bool.and_eq_true_iff.mp h
      dsimp only
      rw [if_neg (by simpa using hempty)]
      cases hparsed : w.parseQuery ω query with
      | error what =>
          rw [hparsed] at hparse
          cases hparse
      | ok parsed => rfl

theorem computeTestGoals_state (ω : Ω) (s : FShell2 L) (events : List Event) :
    (computeTestGoals w ω s events).outcome.state = s := by
  rw [computeTestGoals]
  split <;> rfl

/-- A query that is understood leaves the program as `finalize` does. -/
theorem prepareProgram_cmd (ω : Ω) (s : FShell2 L) :
    (prepareProgram w ω s).outcome.state.cmd = (finalize w.toWorld s.cmd).state := by
  rw [prepareProgram]
  cases (finalize w.toWorld s.cmd).result with
  | error e => rfl
  | ok mod =>
      dsimp only
      split
      · rw [checkAssertions]
        split
        · rfl
        · rw [computeTestGoals_state]
      · rw [computeTestGoals_state]

/-- The program is reported as changed when `finalize` says so. -/
theorem changed_mem_prepareProgram {ω : Ω} {s : FShell2 L}
    (h : .changed ∈ (prepareProgram w ω s).events) :
    (finalize w.toWorld s.cmd).result = .ok true := by
  rw [prepareProgram] at h
  cases hresult : (finalize w.toWorld s.cmd).result with
  | error e =>
      rw [hresult] at h
      cases h
  | ok mod =>
      cases mod with
      | true => rfl
      | false =>
          simp only [hresult, checkAssertions, computeTestGoals] at h
          split at h
          · split at h
            · simp at h
            · split at h <;> simp at h
          · split at h <;> simp at h

end FShell.Command
