import FShell.Command.SymbolTable

/-!
# The control commands of a session

`Command_Processing` with the parts of CBMC's `config`, options, language
manager and goto functions that it reads and writes.  What CBMC and the
operating system do is in a `World`: its functions take the state of the
outside at the current line, so that no two lines need to find the same files
and the same clock.  A command may throw half way; its state is then the one
at the throw.

A goto function is recorded by the value it was converted from: `none` is a
function without body.  The passes that `finalize_goto_program` runs over the
goto functions rewrite bodies in place and convert nothing, so they leave no
trace here.
-/

namespace FShell.Command

inductive SessionError where
  | commandProcessing (what : String)
  | macroProcessing (what : String)
  | queryProcessing (what : String)
  | fshell2 (what : String)

/-- The loaded files, in the order of their names. -/
abbrev FileMap (L : Type) := List (String × L)

/-- `std::map::insert` of one entry: a key that is there keeps its value. -/
def FileMap.insert {L : Type} (name : String) (file : L) : FileMap L → FileMap L
  | [] => [(name, file)]
  | entry :: files =>
      if name < entry.1 then (name, file) :: entry :: files
      else if entry.1 = name then entry :: files
      else entry :: FileMap.insert name file files

/-- `std::map::insert` of a range. -/
def FileMap.insertAll {L : Type} (files prev : FileMap L) : FileMap L :=
  prev.foldl (fun map entry => FileMap.insert entry.1 entry.2 map) files

/-- CBMC and the operating system, as the commands call them.  A `Bool` that
comes back first is the error flag of the call. -/
structure World (Ω L : Type) where
  time : Ω → Int
  stat : Ω → String → Option Int
  readFile : Ω → String → Option String
  parse : Ω → List String → String → FileMap L → Bool × FileMap L
  typecheck : Ω → FileMap L → SymbolTable → Bool × FileMap L × SymbolTable
  ansiCEntryPoint : String → SymbolTable → Bool × SymbolTable
  replaceArgv : Nat → Expr → Expr
  typecheckArgv : Nat → SymbolTable → List Expr

/-- A converted function: the value its body was made from. -/
structure GotoFunction where
  value : Option Expr

def GotoFunction.bodyAvailable (fct : GotoFunction) : Bool :=
  fct.value.isSome

structure CommandState (L : Type) where
  defines : List String
  main : String
  filemap : FileMap L
  symbolTable : SymbolTable
  functionMap : String → Option GotoFunction
  parseTime : String → Option Int
  finalized : Bool
  removeZeroInit : Bool
  maxArgc : Nat
  limit : Int
  multipleCoverage : Int

/-- The constructor of `Command_Processing`. -/
def CommandState.init {L : Type} (defines : List String) (configMain : String) (maxArgc : Nat)
    (filemap : FileMap L) (symbolTable : SymbolTable)
    (functionMap : String → Option GotoFunction) : CommandState L where
  defines := defines
  main := if configMain.isEmpty then "main" else configMain
  filemap := filemap
  symbolTable := symbolTable
  functionMap := functionMap
  parseTime := fun _ => none
  finalized := configMain.isEmpty && maxArgc == 0
  removeZeroInit := false
  maxArgc := maxArgc
  limit := 0
  multipleCoverage := 1

/-- A line that the command grammar accepts. -/
inductive ParsedCommand where
  | help
  | quit
  | addSourcecode (file : String) (defines : List (String × String))
  | showFilenames
  | showSourcecode (name : String)
  | showSourcecodeAll
  | setEntry (name : String)
  | setLimitCount (n : Int)
  | setNoZeroInit
  | setAbstract (name : String)
  | setMultipleCoverage (n : Int)

inductive Status where
  | noControlCommand
  | quit
  | help
  | done
  deriving DecidableEq

/-- What a step of the session leaves: the state, the lines it printed and
its result or the exception it threw. -/
structure Outcome (σ α : Type) where
  state : σ
  output : List String
  result : Except SessionError α

variable {Ω L : Type} (w : World Ω L)

/-- The lines that `getline` returns before the end of the file: the part
behind the last line break is not among them. -/
def terminatedLines (content : String) : List String :=
  (content.splitOn "\n").dropLast

/-- `print_file_contents`. -/
def printFileContents (ω : Ω) (s : CommandState L) (name : String) :
    List String × Except SessionError Unit :=
  let print (warning : List String) : List String × Except SessionError Unit :=
    match w.readFile ω name with
    | none => (warning, .error (.commandProcessing ("Failed to open file " ++ name)))
    | some content =>
        let numbered := (terminatedLines content).zipIdx.map fun entry =>
          toString (entry.2 + 1) ++ "\t " ++ entry.1
        (warning ++ numbered, .ok ())
  match s.parseTime name with
  | none =>
      print ["WARNING: parse time of " ++ name ++
        " unknown, internal data may be inconsistent with file on disk!"]
  | some entry =>
      match w.stat ω name with
      | none => ([], .error (.commandProcessing ("Failed to stat() file " ++ name)))
      | some mtime =>
          if mtime ≤ entry then print []
          else ([], .error (.commandProcessing ("File " ++ name ++ " changed on disk")))

/-- Prints the files one after the other, up to the first exception. -/
def printAllContents (ω : Ω) (s : CommandState L) :
    List String → List String × Except SessionError Unit
  | [] => ([], .ok ())
  | name :: names =>
      match printFileContents w ω s name with
      | (lines, .error e) => (lines, .error e)
      | (lines, .ok ()) =>
          let rest := printAllContents ω s names
          (lines ++ rest.1, rest.2)

/-- The define that the preprocessor gets for `-D ident=definition`. -/
def defineText (define : String × String) : String :=
  define.1 ++ "=" ++ define.2

/-- The position of the last define, where the list has one. -/
def lastGlobal (defines : List String) : Option Nat :=
  if defines.isEmpty then none else some (defines.length - 1)

/-- Takes off the defines behind the marker, where there is one. -/
def resetDefines (marker : Option Nat) (pushed : List String) : List String :=
  match marker with
  | none => pushed
  | some position => pushed.take (position + 1)

/-- `add_sourcecode`. -/
def addSourcecode (ω : Ω) (s : CommandState L) (file : String) (defines : List (String × String)) :
    Outcome (CommandState L) Unit :=
  let marker := lastGlobal s.defines
  let pushed := s.defines ++ defines.map defineText
  let parsed := w.parse ω pushed file []
  let loading : CommandState L :=
    { s with
      defines := resetDefines marker pushed
      filemap := parsed.2
      parseTime := Function.update s.parseTime file (some (w.time ω)) }
  if parsed.1 then
    { state := { loading with filemap := s.filemap }
      output := []
      result := .error (.commandProcessing ("Failed to parse " ++ file)) }
  else
    let checked := w.typecheck ω parsed.2 s.symbolTable
    if checked.1 then
      { state := { loading with filemap := s.filemap, symbolTable := checked.2.2 }
        output := []
        result := .error (.commandProcessing ("Failed to typecheck " ++ file)) }
    else
      { state :=
          { loading with
            filemap := FileMap.insertAll checked.2.1 s.filemap
            symbolTable := checked.2.2
            finalized := false }
        output := []
        result := .ok () }

/-- `process`, for a line that the command grammar accepts. -/
def processCommand (ω : Ω) (s : CommandState L) : ParsedCommand → Outcome (CommandState L) Status
  | .help => ⟨s, [], .ok .help⟩
  | .quit => ⟨s, [], .ok .quit⟩
  | .addSourcecode file defines =>
      let added := addSourcecode w ω s file defines
      ⟨added.state, added.output, added.result.map fun _ => .done⟩
  | .showFilenames => ⟨s, s.filemap.map Prod.fst, .ok .done⟩
  | .showSourcecode name =>
      let printed := printFileContents w ω s name
      ⟨s, printed.1, printed.2.map fun _ => .done⟩
  | .showSourcecodeAll =>
      let printed := printAllContents w ω s (s.filemap.map Prod.fst)
      ⟨s, printed.1, printed.2.map fun _ => .done⟩
  | .setEntry name => ⟨{ s with main := name, finalized := false }, [], .ok .done⟩
  | .setLimitCount n =>
      if n > 0 then ⟨{ s with limit := n }, [], .ok .done⟩
      else ⟨s, [], .error (.commandProcessing "Limit must be greater than 0")⟩
  | .setNoZeroInit => ⟨{ s with removeZeroInit := true, finalized := false }, [], .ok .done⟩
  | .setAbstract name =>
      if s.symbolTable.hasSymbol name then
        ⟨{ s with symbolTable := s.symbolTable.setValue name none, finalized := false },
          [], .ok .done⟩
      else ⟨s, [], .error (.commandProcessing ("Function " ++ name ++ " not found"))⟩
  | .setMultipleCoverage n =>
      if n > 1 then ⟨{ s with multipleCoverage := n }, [], .ok .done⟩
      else ⟨s, [], .error (.commandProcessing "Multiplicity must be greater than 1")⟩

/-- Whether `remove_zero_init` erases this statement: it assigns a zero
initialiser to a variable of the user. -/
def Expr.zeroInit (e : Expr) : Bool :=
  e.statement == "assign" && e.file != "<built-in>" &&
    (e.op1.elim false fun op => op.zeroInitializer)

/-- The body without its zero initialisations. -/
def Expr.dropZeroInit (e : Expr) : Expr :=
  { e with operands := e.operands.filter fun operand => !operand.zeroInit }

/-- The symbol's value; nil where there is no symbol. -/
def SymbolTable.value (table : SymbolTable) (name : String) : Option Expr :=
  (table.find name).bind Symbol.value

/-- The function that initialises the globals. -/
def initializeFunction : String := "__CPROVER_initialize"

/-- `remove_zero_init`. -/
def removeZeroInit (table : SymbolTable) : SymbolTable :=
  table.setValue initializeFunction
    ((table.value initializeFunction).map Expr.dropZeroInit)

/-- The call of the function `main`. -/
def Expr.callsMain (e : Expr) : Bool :=
  e.statement == "function_call" && (e.op1.elim false fun op => op.identifier == "main")

/-- Puts the items before the first call of `main`. -/
def insertBeforeCall (items : List Expr) : List Expr → List Expr
  | [] => []
  | operand :: operands =>
      if operand.callsMain then items ++ operand :: operands
      else operand :: insertBeforeCall items operands

/-- `model_argv`: declares the variables that build `argv` and puts the
typechecked declaration and loop before the call of `main`. -/
def modelArgv (maxArgc : Nat) (table : SymbolTable) : SymbolTable :=
  let declared := ["argv''", "next", "i", "len'"].foldl
    (fun table local_ => table.add ("main::1::" ++ local_) { isCode := false, value := none })
    table
  let items := w.typecheckArgv maxArgc declared
  let value := (table.value "main").map fun body =>
    let replaced := w.replaceArgv maxArgc body
    { replaced with operands := insertBeforeCall items replaced.operands }
  declared.setValue "main" value

/-- The entry function that CBMC generates. -/
def startFunction : String := "_start"

/-- The zero initialisations go if the user asked for it. -/
def userInit (s : CommandState L) (table : SymbolTable) : SymbolTable :=
  if s.removeZeroInit then removeZeroInit table else table

/-- `argv` is modelled if `max-argc` is set and `main` has arguments. -/
def userArgv (s : CommandState L) (table : SymbolTable) : SymbolTable :=
  if 0 < s.maxArgc ∧ s.main = "main" ∧ table.hasSymbol "argc'" then modelArgv w s.maxArgc table
  else table

/-- The symbol table that `finalize` converts, behind the error flag of
`ansi_c_entry_point`. -/
def regenerated (s : CommandState L) : Bool × SymbolTable :=
  let entry := w.ansiCEntryPoint s.main (s.symbolTable.remove startFunction)
  (entry.1, userArgv w s (userInit s entry.2))

/-- One turn of the conversion loop: a function other than the entry function
with a body, whose symbol has a value, is left as it is. -/
def convertFunction (table : SymbolTable) (functionMap : String → Option GotoFunction)
    (name : String) : String → Option GotoFunction :=
  let value := table.value name
  match functionMap name with
  | some fct =>
      if name ≠ startFunction ∧ fct.bodyAvailable ∧ value.isSome then functionMap
      else Function.update functionMap name (some { value := value })
  | none => Function.update functionMap name (some { value := value })

/-- The part of `finalize` that rebuilds the goto program. -/
def rebuild (s : CommandState L) : CommandState L :=
  let table := regenerated w s
  { s with
    symbolTable := table.2
    functionMap := table.2.codeNames.foldl (convertFunction table.2) s.functionMap
    finalized := !table.1 }

/-- `finalize`: the result tells whether the goto program was rebuilt. -/
def finalize (s : CommandState L) : Outcome (CommandState L) Bool :=
  if s.symbolTable.symbols.isEmpty then
    ⟨s, [], .error (.commandProcessing "No source files loaded!")⟩
  else if !s.symbolTable.hasSymbol s.main then
    ⟨s, [], .error (.commandProcessing ("Could not find entry function " ++ s.main))⟩
  else if s.finalized then ⟨s, [], .ok false⟩
  else ⟨rebuild w s, [], .ok true⟩

theorem SymbolTable.isEmpty_eq_false {table : SymbolTable} {name : String}
    (h : table.hasSymbol name = true) : table.symbols.isEmpty = false := by
  rw [SymbolTable.hasSymbol, Option.isSome_iff_exists] at h
  obtain ⟨symbol, hfind⟩ := h
  exact List.isEmpty_eq_false_iff_exists_mem.mpr ⟨_, (table.find_eq_some_iff).mp hfind⟩

/-- Without its entry function the program is not finalized. -/
theorem finalize_of_missing {s : CommandState L} (h : s.symbolTable.hasSymbol s.main = false) :
    (finalize w s).state = s ∧ ∃ e, (finalize w s).result = .error e := by
  rw [finalize]
  split
  · exact ⟨rfl, _, rfl⟩
  · simp [h]

/-- A finalized program is left as it is. -/
theorem finalize_of_finalized {s : CommandState L} (h : s.symbolTable.hasSymbol s.main = true)
    (hfin : s.finalized = true) : finalize w s = ⟨s, [], .ok false⟩ := by
  simp [finalize, SymbolTable.isEmpty_eq_false h, h, hfin]

theorem finalize_of_changed {s : CommandState L} (h : s.symbolTable.hasSymbol s.main = true)
    (hfin : s.finalized = false) : finalize w s = ⟨rebuild w s, [], .ok true⟩ := by
  simp [finalize, SymbolTable.isEmpty_eq_false h, h, hfin]

/-- Where `finalize` returns true it has rebuilt the program. -/
theorem finalize_eq_true {s : CommandState L} (h : (finalize w s).result = .ok true) :
    s.symbolTable.hasSymbol s.main = true ∧ s.finalized = false ∧
      (finalize w s).state = rebuild w s := by
  cases hentry : s.symbolTable.hasSymbol s.main with
  | false =>
      obtain ⟨-, e, herror⟩ := finalize_of_missing w hentry
      cases herror.symm.trans h
  | true =>
      cases hfin : s.finalized with
      | true =>
          rw [finalize_of_finalized w hentry hfin] at h
          cases h
      | false => exact ⟨rfl, rfl, by rw [finalize_of_changed w hentry hfin]⟩

/-- Where it does not, the state is as before. -/
theorem finalize_state_of_ne {s : CommandState L} (h : (finalize w s).result ≠ .ok true) :
    (finalize w s).state = s := by
  cases hentry : s.symbolTable.hasSymbol s.main with
  | false => exact (finalize_of_missing w hentry).1
  | true =>
      cases hfin : s.finalized with
      | true => rw [finalize_of_finalized w hentry hfin]
      | false =>
          rw [finalize_of_changed w hentry hfin] at h
          exact absurd rfl h

end FShell.Command
