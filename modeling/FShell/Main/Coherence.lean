import FShell.Automata.Runs
import FShell.Main.FShell2

/-!
# Goto functions and the symbol table

A rebuild converts every function but those that have a body and a value
already; of these it only renews the entry function.  So a function stays up
to date as long as no command changes the value of a function with a body.
`SET ABSTRACT` makes a value nil, which the loop looks for; but the
initialisation that every rebuild writes anew is one of the functions that it
skips, and so is a function that was abstracted and defined again before the
next rebuild.
-/

namespace FShell.Command

variable {Ω L Q : Type}

/-- The goto functions are those of the symbol table. -/
def CommandState.Coherent (s : CommandState L) : Prop :=
  ∀ f value, s.symbolTable.codeValue f = some value → s.functionMap f = some ⟨value⟩

/-- If the function has a body and a value, the body was made from the value. -/
def UpToDate (functionMap : String → Option GotoFunction) (table : SymbolTable) (f : String) :
    Prop :=
  ∀ body value, functionMap f = some ⟨some body⟩ → table.codeValue f = some (some value) →
    value = body

/-- Every function but the entry function is up to date. -/
def CommandState.NoneStale (s : CommandState L) : Prop :=
  ∀ f, f ≠ startFunction → UpToDate s.functionMap s.symbolTable f

theorem SymbolTable.value_of_codeValue {table : SymbolTable} {f : String} {value : Option Expr}
    (h : table.codeValue f = some value) : table.value f = value := by
  rw [SymbolTable.codeValue] at h
  split at h
  · rename_i symbol hfind
    split at h
    · rw [SymbolTable.value, hfind]
      exact Option.some.inj h
    · cases h
  · cases h

section Conversion

variable {table : SymbolTable} {functionMap : String → Option GotoFunction}

/-- One turn converts its function or finds it with body and value. -/
theorem convertFunction_cases (table : SymbolTable)
    (functionMap : String → Option GotoFunction) (name : String) :
    convertFunction table functionMap name =
        Function.update functionMap name (some ⟨table.value name⟩) ∨
      ∃ body value, name ≠ startFunction ∧ functionMap name = some ⟨some body⟩ ∧
        table.value name = some value ∧
        convertFunction table functionMap name = functionMap := by
  cases hfct : functionMap name with
  | none => exact .inl (by simp only [convertFunction, hfct])
  | some fct =>
      by_cases hskip : name ≠ startFunction ∧ fct.bodyAvailable ∧ (table.value name).isSome
      · obtain ⟨body, hbody⟩ := Option.isSome_iff_exists.mp hskip.2.1
        obtain ⟨value, hvalue⟩ := Option.isSome_iff_exists.mp hskip.2.2
        have hfunction : fct = ⟨some body⟩ := by rw [← hbody]
        refine .inr ⟨body, value, hskip.1, by rw [hfunction], hvalue, ?_⟩
        simp only [convertFunction, hfct, if_pos hskip]
      · exact .inl (by simp only [convertFunction, hfct, if_neg hskip])

theorem convertFunction_of_ne {name f : String} (hf : f ≠ name) :
    convertFunction table functionMap name f = functionMap f := by
  rcases convertFunction_cases table functionMap name with
    hconverted | ⟨-, -, -, -, -, hkept⟩
  · rw [hconverted, Function.update_of_ne hf]
  · rw [hkept]

/-- One turn, seen from its own function. -/
theorem convertFunction_self (table : SymbolTable)
    (functionMap : String → Option GotoFunction) (name : String) :
    convertFunction table functionMap name name = some ⟨table.value name⟩ ∨
      ∃ body value, name ≠ startFunction ∧ functionMap name = some ⟨some body⟩ ∧
        table.value name = some value ∧
        convertFunction table functionMap name name = some ⟨some body⟩ := by
  rcases convertFunction_cases table functionMap name with
    hconverted | ⟨body, value, hname, hbody, hvalue, hkept⟩
  · rw [hconverted, Function.update_self]
    exact .inl rfl
  · rw [hkept]
    exact .inr ⟨body, value, hname, hbody, hvalue, hbody⟩

/-- A function that is up to date comes out converted. -/
theorem convertFunction_of_upToDate {name : String} {value : Option Expr}
    (hvalue : table.codeValue name = some value)
    (h : name ≠ startFunction → UpToDate functionMap table name) :
    convertFunction table functionMap name name = some ⟨value⟩ := by
  rcases convertFunction_self table functionMap name with
    hconverted | ⟨body, v, hname, hbody, hv, hkept⟩
  · rw [hconverted, SymbolTable.value_of_codeValue hvalue]
  · rw [SymbolTable.value_of_codeValue hvalue] at hv
    subst hv
    rw [hkept, h hname body v hbody hvalue]

/-- A turn makes no function stale. -/
theorem upToDate_convertFunction (name : String) {f : String}
    (h : UpToDate functionMap table f) :
    UpToDate (convertFunction table functionMap name) table f := by
  intro body value hbody hvalue
  by_cases hf : f = name
  · subst hf
    rcases convertFunction_self table functionMap f with
      hconverted | ⟨old, -, -, hold, -, hkept⟩
    · rw [hconverted, SymbolTable.value_of_codeValue hvalue] at hbody
      cases hbody
      rfl
    · exact h body value (hold.trans (hkept.symm.trans hbody)) hvalue
  · rw [convertFunction_of_ne hf] at hbody
    exact h body value hbody hvalue

/-- A converted function stays converted. -/
theorem convertFunction_of_converted (name : String) {f : String} {value : Option Expr}
    (hvalue : table.codeValue f = some value) (h : functionMap f = some ⟨value⟩) :
    convertFunction table functionMap name f = some ⟨value⟩ := by
  by_cases hf : f = name
  · subst hf
    refine convertFunction_of_upToDate hvalue fun _ => ?_
    intro body v hbody hv
    cases hvalue.symm.trans hv
    cases h.symm.trans hbody
    rfl
  · rw [convertFunction_of_ne hf, h]

theorem foldl_convertFunction_of_converted (names : List String) {f : String}
    {value : Option Expr} (hvalue : table.codeValue f = some value)
    (h : functionMap f = some ⟨value⟩) :
    names.foldl (convertFunction table) functionMap f = some ⟨value⟩ := by
  induction names generalizing functionMap with
  | nil => exact h
  | cons name names ih => exact ih (convertFunction_of_converted name hvalue h)

/-- **The loop.**  If every function but the entry function is up to date, the
loop leaves all its functions converted. -/
theorem foldl_convertFunction (names : List String)
    (h : ∀ f, f ≠ startFunction → UpToDate functionMap table f) {f : String}
    {value : Option Expr} (hf : f ∈ names) (hvalue : table.codeValue f = some value) :
    names.foldl (convertFunction table) functionMap f = some ⟨value⟩ := by
  induction names generalizing functionMap with
  | nil => cases hf
  | cons name names ih =>
      rw [List.foldl_cons]
      rcases List.mem_cons.mp hf with rfl | hf
      · exact foldl_convertFunction_of_converted names hvalue
          (convertFunction_of_upToDate hvalue (h f))
      · exact ih (fun g hg => upToDate_convertFunction name (h g hg)) hf

/-- A function with a body and a value is skipped. -/
theorem foldl_convertFunction_of_kept (names : List String) {f : String} {body value : Expr}
    (hf : f ≠ startFunction) (hbody : functionMap f = some ⟨some body⟩)
    (hvalue : table.codeValue f = some (some value)) :
    names.foldl (convertFunction table) functionMap f = some ⟨some body⟩ := by
  induction names generalizing functionMap with
  | nil => exact hbody
  | cons name names ih =>
      refine ih ?_
      by_cases hname : f = name
      · subst hname
        have hskip : f ≠ startFunction ∧ (GotoFunction.mk (some body)).bodyAvailable = true ∧
            (table.value f).isSome = true := by
          rw [SymbolTable.value_of_codeValue hvalue]
          exact ⟨hf, rfl, rfl⟩
        simp only [convertFunction, hbody, if_pos hskip]
      · rw [convertFunction_of_ne hname, hbody]

end Conversion

variable (w : World Ω L)

/-- What `ansi_c_entry_point` is relied on: it writes the entry function and
the initialisation and leaves the other functions alone. -/
def World.EntryPointLocal : Prop :=
  ∀ main table f, f ≠ startFunction → f ≠ initializeFunction →
    (w.ansiCEntryPoint main table).2.codeValue f = table.codeValue f

theorem codeValue_userInit (s : CommandState L) (table : SymbolTable) {f : String}
    (hf : f ≠ initializeFunction) : (userInit s table).codeValue f = table.codeValue f := by
  rw [userInit]
  split
  · rw [removeZeroInit, SymbolTable.codeValue_setValue, if_neg hf]
  · rfl

theorem codeValue_userArgv (s : CommandState L) (table : SymbolTable) {f : String}
    (hf : f ≠ "main") : (userArgv w s table).codeValue f = table.codeValue f := by
  rw [userArgv]
  split
  · simp only [modelArgv, List.foldl_cons, List.foldl_nil]
    rw [SymbolTable.codeValue_setValue, if_neg hf]
    simp only [SymbolTable.codeValue_add_data]
  · rfl

/-- A rebuild writes three functions at most. -/
theorem codeValue_regenerated (hlocal : w.EntryPointLocal) (s : CommandState L) {f : String}
    (hstart : f ≠ startFunction) (hinit : f ≠ initializeFunction) (hmain : f ≠ "main") :
    (regenerated w s).2.codeValue f = s.symbolTable.codeValue f := by
  calc (regenerated w s).2.codeValue f
      = (w.ansiCEntryPoint s.main (s.symbolTable.remove startFunction)).2.codeValue f := by
        rw [regenerated, codeValue_userArgv w s _ hmain, codeValue_userInit s _ hinit]
    _ = (s.symbolTable.remove startFunction).codeValue f := hlocal _ _ f hstart hinit
    _ = s.symbolTable.codeValue f := by rw [SymbolTable.codeValue_remove, if_neg hstart]

/-- What a rebuild writes anew is what was converted before. -/
def CommandState.RebuildsSame (s : CommandState L) : Prop :=
  UpToDate s.functionMap (regenerated w s).2 initializeFunction ∧
    UpToDate s.functionMap (regenerated w s).2 "main"

/-- **One rebuild** is coherent exactly when the functions that it skips are
up to date with the table that it converts. -/
theorem rebuild_coherent_iff (s : CommandState L) :
    (rebuild w s).Coherent ↔
      ∀ f, f ≠ startFunction → UpToDate s.functionMap (regenerated w s).2 f := by
  constructor
  · intro h f hf body value hbody hvalue
    have hconverted := h f (some value) hvalue
    have hkept := foldl_convertFunction_of_kept (regenerated w s).2.codeNames hf hbody hvalue
    cases hconverted.symm.trans hkept
    rfl
  · intro h f value hvalue
    have hname : f ∈ (regenerated w s).2.codeNames :=
      (SymbolTable.mem_codeNames _).mpr (Option.isSome_iff_exists.mpr ⟨value, hvalue⟩)
    exact foldl_convertFunction _ h hname hvalue

/-- From a state without stale functions, a rebuild that writes the same
initialisation is coherent. -/
theorem rebuild_coherent (hlocal : w.EntryPointLocal) {s : CommandState L} (hs : s.NoneStale)
    (hsame : s.RebuildsSame w) : (rebuild w s).Coherent := by
  rw [rebuild_coherent_iff]
  intro f hstart
  by_cases hinit : f = initializeFunction
  · exact hinit ▸ hsame.1
  · by_cases hmain : f = "main"
    · exact hmain ▸ hsame.2
    · intro body value hbody hvalue
      rw [codeValue_regenerated w hlocal s hstart hinit hmain] at hvalue
      exact hs f hstart body value hbody hvalue

theorem CommandState.Coherent.noneStale {s : CommandState L} (h : s.Coherent) : s.NoneStale := by
  intro f _ body value hbody hvalue
  cases (h f _ hvalue).symm.trans hbody
  rfl

/-- The symbol table behind the file, whatever comes of it. -/
def typechecked (ω : Ω) (s : CommandState L) (file : String) (defines : List (String × String)) :
    SymbolTable :=
  let parsed := w.parse ω (s.defines ++ defines.map defineText) file []
  if parsed.1 then s.symbolTable else (w.typecheck ω parsed.2 s.symbolTable).2.2

theorem addSourcecode_symbolTable (ω : Ω) (s : CommandState L) (file : String)
    (defines : List (String × String)) :
    (addSourcecode w ω s file defines).state.symbolTable = typechecked w ω s file defines ∧
      (addSourcecode w ω s file defines).state.functionMap = s.functionMap := by
  simp only [addSourcecode, typechecked]
  split
  · exact ⟨rfl, rfl⟩
  · split
    · exact ⟨rfl, rfl⟩
    · exact ⟨rfl, rfl⟩

/-- No function that has a body gets another value from the file. -/
def Redefines (ω : Ω) (s : CommandState L) : ParsedCommand → Prop
  | .addSourcecode file defines =>
      ¬ ∀ f, f ≠ startFunction → UpToDate s.functionMap (typechecked w ω s file defines) f
  | _ => False

/-- `SET ABSTRACT` makes no function stale: it takes the value away. -/
theorem NoneStale.setAbstract {s : CommandState L} (hs : s.NoneStale) (name : String) :
    ∀ f, f ≠ startFunction → UpToDate s.functionMap (s.symbolTable.setValue name none) f := by
  intro f hf body value hbody hvalue
  rw [SymbolTable.codeValue_setValue] at hvalue
  split at hvalue
  · obtain ⟨_, -, hnone⟩ := Option.map_eq_some_iff.mp hvalue
    cases hnone
  · exact hs f hf body value hbody hvalue

/-- The commands: only `ADD SOURCECODE` can make a function stale. -/
theorem processCommand_noneStale {ω : Ω} {s : CommandState L} {parsed : ParsedCommand}
    (hs : s.NoneStale) (hkeeps : ¬ Redefines w ω s parsed) :
    (processCommand w ω s parsed).state.NoneStale := by
  cases parsed with
  | addSourcecode file defines =>
      obtain ⟨htable, hmap⟩ := addSourcecode_symbolTable w ω s file defines
      intro f hf
      simp only [processCommand]
      rw [htable, hmap]
      exact Classical.not_not.mp hkeeps f hf
  | setAbstract name =>
      simp only [processCommand]
      split
      · exact NoneStale.setAbstract hs name
      · exact hs
  | setLimitCount n =>
      simp only [processCommand]
      split
      · exact hs
      · exact hs
  | setMultipleCoverage n =>
      simp only [processCommand]
      split
      · exact hs
      · exact hs
  | _ => exact hs

section Sessions

variable (w : QueryWorld Ω L Q)

/-- The line is a query that makes `finalize` rebuild the goto program. -/
def Rebuilds (ω : Ω) (s : FShell2 L) (line : Line) : Prop :=
  Asks w ω line = true ∧ s.cmd.symbolTable.hasSymbol s.cmd.main = true ∧ s.cmd.finalized = false

/-- The line gives no function with a body another value: neither a loaded
file nor a rebuild does. -/
def LeavesBodies (s : FShell2 L) (input : Ω × Line) : Prop :=
  match input.2 with
  | .command parsed => ¬ Redefines w.toWorld input.1 s.cmd parsed
  | line => Rebuilds w input.1 s line → s.cmd.RebuildsSame w.toWorld

/-- When the line rebuilt the program, the goto functions are those of the
symbol table. -/
def CoherentAfter (s : FShell2 L) (input : Ω × Line) : Prop :=
  .changed ∈ (processLine w input.1 s input.2).events →
    (processLine w input.1 s input.2).outcome.state.cmd.Coherent

/-- **The step.**  A line that leaves the bodies keeps every function up to
date, and the functions are those of the symbol table if it rebuilds. -/
theorem processLine_coherent (hlocal : w.EntryPointLocal) {s : FShell2 L} {input : Ω × Line}
    (hs : s.cmd.NoneStale) (hleaves : LeavesBodies w s input) :
    CoherentAfter w s input ∧
      (processLine w input.1 s input.2).outcome.state.cmd.NoneStale := by
  obtain ⟨ω, line⟩ := input
  cases line with
  | blank => exact ⟨fun h => (List.not_mem_nil h).elim, hs⟩
  | command parsed =>
      exact ⟨fun h => (List.not_mem_nil h).elim, processCommand_noneStale w.toWorld hs hleaves⟩
  | query text =>
      simp only [CoherentAfter, processLine]
      cases hasks : Asks w ω (.query text) with
      | false =>
          obtain ⟨hstate, hevents⟩ := tryQuery_of_not_asks w s hasks
          rw [hstate, hevents]
          exact ⟨fun h => (List.not_mem_nil h).elim, hs⟩
      | true =>
          rw [tryQuery_of_asks w s hasks, prepareProgram_cmd]
          by_cases hresult : (finalize w.toWorld s.cmd).result = .ok true
          · obtain ⟨hentry, hfin, hstate⟩ := finalize_eq_true w.toWorld hresult
            have hcoherent := rebuild_coherent w.toWorld hlocal hs (hleaves ⟨hasks, hentry, hfin⟩)
            rw [hstate]
            exact ⟨fun _ => hcoherent, hcoherent.noneStale⟩
          · rw [finalize_state_of_ne w.toWorld hresult]
            exact ⟨fun h => absurd (changed_mem_prepareProgram w h) hresult, hs⟩

/-- **Sessions stay coherent while nothing rewrites a function with a body.**
From a start without stale functions, in every session whose files and
rebuilds give no function with a body another value, the goto functions are
those of the symbol table after every rebuild. -/
theorem session_coherent (hlocal : w.EntryPointLocal) (s : FShell2 L) (hs : s.cmd.NoneStale)
    (lines : List (Ω × Line))
    (hlines : AllSteps (fun s input => (processLine w input.1 s input.2).outcome.state)
      (LeavesBodies w) s lines) :
    AllSteps (fun s input => (processLine w input.1 s input.2).outcome.state)
      (CoherentAfter w) s lines :=
  hlines.mono_inv (fun s => s.cmd.NoneStale)
    (fun _ _ hs hleaves => processLine_coherent w hlocal hs hleaves) hs

/-- When the line rebuilds the program, the functions that the rebuild skips are
up to date with the table that it converts. -/
def RebuildsUpToDate (s : FShell2 L) (input : Ω × Line) : Prop :=
  .changed ∈ (processLine w input.1 s input.2).events →
    ∀ f, f ≠ startFunction →
      UpToDate s.cmd.functionMap (regenerated w.toWorld s.cmd).2 f

/-- Only a rebuild changes the program. -/
theorem cmd_of_changed {s : FShell2 L} {input : Ω × Line}
    (h : .changed ∈ (processLine w input.1 s input.2).events) :
    (processLine w input.1 s input.2).outcome.state.cmd = rebuild w.toWorld s.cmd := by
  obtain ⟨ω, line⟩ := input
  cases line with
  | blank => exact (List.not_mem_nil h).elim
  | command parsed => exact (List.not_mem_nil h).elim
  | query text =>
      simp only [processLine] at h ⊢
      cases hasks : Asks w ω (.query text) with
      | false =>
          obtain ⟨-, hevents⟩ := tryQuery_of_not_asks w s hasks
          rw [hevents] at h
          exact (List.not_mem_nil h).elim
      | true =>
          rw [tryQuery_of_asks w s hasks] at h ⊢
          obtain ⟨-, -, hstate⟩ := finalize_eq_true w.toWorld (changed_mem_prepareProgram w h)
          rw [prepareProgram_cmd, hstate]

/-- **A session is coherent exactly when** every rebuild finds the functions
that it skips up to date. -/
theorem session_coherent_rebuilds (s : FShell2 L) (lines : List (Ω × Line)) :
    AllSteps (fun s input => (processLine w input.1 s input.2).outcome.state)
        (CoherentAfter w) s lines ↔
      AllSteps (fun s input => (processLine w input.1 s input.2).outcome.state)
        (RebuildsUpToDate w) s lines := by
  refine AllSteps.iff_inv (fun _ => True) ?_ (fun _ _ _ _ => trivial) trivial
  intro s input _
  refine forall_congr' ?_
  intro hchanged
  rw [cmd_of_changed w hchanged, rebuild_coherent_iff]

end Sessions

/-- The assignments that initialise the data of a symbol table. -/
def initialisation (table : SymbolTable) : Expr where
  id := "code"
  statement := "block"
  identifier := ""
  file := ""
  zeroInitializer := false
  operands := (table.symbols.filter fun entry => !entry.2.isCode).map fun entry =>
    ⟨"code", "assign", entry.1, "a.c", false, []⟩

/-- A world in which every file has a global of its own name and a `main`. -/
def globalsWorld : QueryWorld Unit Unit Unit where
  time := fun _ => 0
  stat := fun _ _ => none
  readFile := fun _ _ => none
  parse := fun _ _ file _ => (false, [(file, ())])
  typecheck := fun _ files table =>
    let data := files.foldl (fun table file =>
      table.add file.1 { isCode := false, value := none }) table
    (false, files,
      (data.add "main" { isCode := true, value := some (initialisation .empty) }).add
        initializeFunction { isCode := true, value := none })
  ansiCEntryPoint := fun _ table =>
    (false, (table.setValue initializeFunction (some (initialisation table))).add startFunction
      { isCode := true, value := some (initialisation .empty) })
  replaceArgv := fun _ value => value
  typecheckArgv := fun _ _ => []
  expand := fun _ line => .ok line
  parseQuery := fun _ _ => .ok ()
  bmcRun := fun _ _ => false
  opensOutfile := fun _ _ => true

theorem globalsWorld_entryPointLocal : globalsWorld.EntryPointLocal := by
  intro main table f hstart hinit
  exact ((table.setValue _ _).codeValue_add_of_ne _ hstart).trans
    ((table.codeValue_setValue _ _ f).trans (if_neg hinit))

/-- The start of a session without files. -/
def emptySession : FShell2 Unit where
  cmd := .init [] "" 0 [] .empty (fun _ => none)
  firstRun := true
  outfile := ""

theorem upToDate_of_eq {functionMap : String → Option GotoFunction} {table : SymbolTable}
    {f : String} (h : table.codeValue f = (functionMap f).map GotoFunction.value) :
    UpToDate functionMap table f := by
  intro body value hbody hvalue
  rw [hbody, hvalue] at h
  exact Option.some.inj (Option.some.inj h)

/-- One file, a query, another entry and the query again. -/
theorem session_coherent_oneFile :
    AllSteps (fun s input => (processLine globalsWorld input.1 s input.2).outcome.state)
      (CoherentAfter globalsWorld) emptySession
      [((), .command (.addSourcecode "a.c" [])), ((), .query "cover EDGES(ID)"),
        ((), .command (.setEntry "main")), ((), .query "cover EDGES(ID)")] := by
  refine session_coherent globalsWorld globalsWorld_entryPointLocal emptySession ?_ _ ?_
  · intro f _ body value hbody
    cases hbody
  · refine ⟨?_, ?_, ?_, ?_, trivial⟩
    · intro h
      exact h fun f _ body value hbody => by cases hbody
    · intro _
      refine ⟨?_, ?_⟩
      · intro body value hbody
        cases hbody
      · intro body value hbody
        cases hbody
    · exact id
    · intro _
      exact ⟨upToDate_of_eq rfl, upToDate_of_eq rfl⟩

/-- Two files with a query after each: the second rebuild leaves the old
initialisation among the goto functions. -/
theorem secondFile_stale :
    globalsWorld.EntryPointLocal ∧
      ¬ AllSteps (fun s input => (processLine globalsWorld input.1 s input.2).outcome.state)
        (CoherentAfter globalsWorld) emptySession
        [((), .command (.addSourcecode "a.c" [])), ((), .query "cover EDGES(ID)"),
          ((), .command (.addSourcecode "b.c" [])), ((), .query "cover EDGES(ID)")] := by
  refine ⟨globalsWorld_entryPointLocal, ?_⟩
  intro h
  have hafter := h.2.2.2.1 (by decide +kernel) initializeFunction _ rfl
  have hlength := congrArg (fun fct => fct.bind fun fct => fct.value.map fun value =>
    value.operands.length) hafter
  exact absurd hlength (by decide +kernel)

end FShell.Command
