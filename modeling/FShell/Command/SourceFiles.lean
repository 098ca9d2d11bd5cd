import FShell.Automata.Runs
import FShell.Command.CommandProcessing

/-!
# Loading source files one after the other

`add_sourcecode` pushes the defines of one file onto `config.ansi_c.defines`
and takes them off again behind a marker, the position of the last define
that was there before.  Over an empty list there is no such position and
nothing is taken off; and the parse time is written before the file is
parsed, whatever comes of it.  Everything else is put back.
-/

namespace FShell.Command

variable {Ω L : Type} (w : World Ω L)

/-- One `ADD SOURCECODE` of a session, with the outside world it runs in. -/
structure Load (Ω : Type) where
  world : Ω
  file : String
  defines : List (String × String)

def Load.outcome (s : CommandState L) (load : Load Ω) : Outcome (CommandState L) Unit :=
  addSourcecode w load.world s load.file load.defines

/-- The state after the command. -/
def Load.next (s : CommandState L) (load : Load Ω) : CommandState L :=
  (load.outcome w s).state

/-- CBMC rejects the file, in parsing or in typechecking. -/
def Load.Rejected (s : CommandState L) (load : Load Ω) : Prop :=
  let parsed := w.parse load.world (s.defines ++ load.defines.map defineText) load.file []
  parsed.1 = true ∨ (w.typecheck load.world parsed.2 s.symbolTable).1 = true

/-- The command fails exactly on the files that CBMC rejects. -/
theorem Load.outcome_error_iff (s : CommandState L) (load : Load Ω) :
    (∃ e, (load.outcome w s).result = .error e) ↔ load.Rejected w s := by
  simp only [Load.outcome, addSourcecode, Load.Rejected]
  split
  · rename_i hparse
    simp [hparse]
  · rename_i hparse
    split
    · rename_i hcheck
      simp [hcheck]
    · rename_i hcheck
      simp [hparse, hcheck]

/-- The defines after the command: all pushed ones stay when there were none. -/
theorem Load.next_defines (s : CommandState L) (load : Load Ω) :
    (load.next w s).defines =
      if s.defines = [] then load.defines.map defineText else s.defines := by
  have hreset : resetDefines (lastGlobal s.defines) (s.defines ++ load.defines.map defineText)
      = if s.defines = [] then load.defines.map defineText else s.defines := by
    cases hdefines : s.defines with
    | nil => simp [lastGlobal, resetDefines]
    | cons define defines => simp [lastGlobal, resetDefines]
  simp only [Load.next, Load.outcome, addSourcecode]
  split
  · exact hreset
  · split
    · exact hreset
    · exact hreset

/-- A failed command puts the files back and does not touch the flag; the
parse time it wrote stays. -/
theorem Load.next_of_rejected {s : CommandState L} {load : Load Ω} (h : load.Rejected w s) :
    (load.next w s).filemap = s.filemap ∧ (load.next w s).finalized = s.finalized ∧
      (load.next w s).parseTime =
        Function.update s.parseTime load.file (some (w.time load.world)) := by
  simp only [Load.next, Load.outcome, addSourcecode]
  split
  · exact ⟨rfl, rfl, rfl⟩
  · rename_i hparse
    split
    · exact ⟨rfl, rfl, rfl⟩
    · rename_i hcheck
      exact absurd h (by simp [Load.Rejected, hparse, hcheck])

/-- What the command owes to the session: the defines of the session stay, and
a failed command leaves the files, their parse times and the flag. -/
structure Load.KeepsConfig (initial : List String) (s : CommandState L) (load : Load Ω) :
    Prop where
  defines : (load.next w s).defines = initial
  failed : (∃ e, (load.outcome w s).result = .error e) →
    (load.next w s).filemap = s.filemap ∧ (load.next w s).parseTime = s.parseTime ∧
      (load.next w s).finalized = s.finalized

/-- Nothing leaks: there is a define to mark or none to push, and a file that
is rejected was last parsed at this very time. -/
structure Load.Harmless (initial : List String) (s : CommandState L) (load : Load Ω) : Prop where
  marked : initial ≠ [] ∨ load.defines = []
  rejected : load.Rejected w s → s.parseTime load.file = some (w.time load.world)

/-- The step: from a state with the session's defines, the command keeps the
configuration exactly when it is harmless. -/
theorem Load.keepsConfig_iff {initial : List String} {s : CommandState L} {load : Load Ω}
    (hs : s.defines = initial) :
    load.KeepsConfig w initial s ↔ load.Harmless w initial s := by
  have hdefines : (load.next w s).defines = initial ↔ (initial ≠ [] ∨ load.defines = []) := by
    rw [load.next_defines w s, hs]
    by_cases hempty : initial = []
    · simp [hempty]
    · simp [hempty]
  constructor
  · intro h
    refine ⟨hdefines.mp h.defines, ?_⟩
    intro hrejected
    obtain ⟨-, htimes, -⟩ := h.failed ((load.outcome_error_iff w s).mpr hrejected)
    rw [(load.next_of_rejected w hrejected).2.2] at htimes
    have hentry := congrFun htimes load.file
    rw [Function.update_self] at hentry
    exact hentry.symm
  · intro h
    refine ⟨hdefines.mpr h.marked, ?_⟩
    intro hfailed
    have hrejected := (load.outcome_error_iff w s).mp hfailed
    obtain ⟨hfiles, hflag, htimes⟩ := load.next_of_rejected w hrejected
    refine ⟨hfiles, ?_, hflag⟩
    rw [htimes, ← h.rejected hrejected, Function.update_eq_self]

/-- **A session keeps its configuration exactly when nothing leaks.**  For
every list of defines and every sequence of loads, the defines after each
command are the initial ones and failed commands leave the file map, the parse
times and the flag, if and only if every load of the sequence is harmless. -/
theorem addSourcecode_keepsConfig_iff (s : CommandState L) (loads : List (Load Ω)) :
    AllSteps (fun t load => load.next w t) (fun t load => load.KeepsConfig w s.defines t) s loads ↔
      AllSteps (fun t load => load.next w t) (fun t load => load.Harmless w s.defines t) s loads :=
  AllSteps.iff_inv (fun t => t.defines = s.defines)
    (fun _ load ht => load.keepsConfig_iff w ht) (fun _ _ _ h => h.defines) rfl

/-- A world in which no file can be parsed. -/
def brokenWorld : World Unit Unit where
  time := fun _ => 100
  stat := fun _ _ => none
  readFile := fun _ _ => none
  parse := fun _ _ _ files => (true, files)
  typecheck := fun _ files table => (true, files, table)
  ansiCEntryPoint := fun _ table => (true, table)
  replaceArgv := fun _ value => value
  typecheckArgv := fun _ _ => []

/-- `ADD SOURCECODE -D N=1 'a.c'` as the first command of a session without
defines, for a file that cannot be parsed: the define stays and the parse time
is recorded. -/
theorem addSourcecode_leaks :
    let s : CommandState Unit := .init [] "" 0 [] .empty (fun _ => none)
    let load : Load Unit := ⟨(), "a.c", [("N", "1")]⟩
    ((load.next brokenWorld s).defines = ["N=1"] ∧
        s.parseTime "a.c" = none ∧ (load.next brokenWorld s).parseTime "a.c" = some 100) ∧
      ¬ AllSteps (fun t load => load.next brokenWorld t)
        (fun t load => load.KeepsConfig brokenWorld s.defines t) s [load] := by
  refine ⟨⟨rfl, rfl, rfl⟩, ?_⟩
  intro h
  exact absurd h.1.defines (by decide)

end FShell.Command
