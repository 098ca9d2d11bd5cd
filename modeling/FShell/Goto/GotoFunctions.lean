import Mathlib

/-!
# Goto programs

Functions as lists of instructions (`goto_functionst`, `goto_programt`).  An
instruction is known by its iterator `pc`, which stays the same when others
are inserted before it; a program location is a function with such an
iterator.
-/

namespace FShell

/-- `goto_program_instruction_typet`. -/
inductive InstructionType
  | noInstructionType
  | goto
  | assume
  | assert
  | other
  | skip
  | startThread
  | endThread
  | location
  | endFunction
  | atomicBegin
  | atomicEnd
  | return
  | assign
  | decl
  | dead
  | functionCall
  | throw
  | catch
  deriving DecidableEq

/-- What is looked at in an expression: its `id()`, and the identifiers that
`find_symbols` collects in it. -/
structure Expr where
  id : String
  symbols : List String
  deriving DecidableEq

/-- `code`, as far as the type of the instruction says what it holds.  A call
of something else than a symbol has no callee. -/
inductive Code
  | none
  | functionCall (callee : Option String)
  | assign (lhs rhs : Expr)
  | statement (name : String)
  deriving DecidableEq

/-- `guard`. -/
inductive Guard
  | isTrue
  | isFalse
  | condition (number : Nat)
  deriving DecidableEq

/-- A source location that is not nil. -/
structure SourceLocation where
  file : String
  line : String
  column : String
  propertyId : String
  deriving DecidableEq

/-- `goto_programt::instructiont`, with its own iterator. -/
structure Instruction where
  pc : Nat
  type : InstructionType
  code : Code
  function : String
  sourceLocation : Option SourceLocation
  guard : Guard
  targets : List Nat
  labels : List String
  deriving DecidableEq

namespace Instruction

def isGoto (i : Instruction) : Bool := i.type = .goto
def isStartThread (i : Instruction) : Bool := i.type = .startThread
def isFunctionCall (i : Instruction) : Bool := i.type = .functionCall
def isReturn (i : Instruction) : Bool := i.type = .return
def isAssign (i : Instruction) : Bool := i.type = .assign
def isAssert (i : Instruction) : Bool := i.type = .assert

/-- `to_code_function_call(code).function()`, when it is a symbol. -/
def callee (i : Instruction) : Option String :=
  match i.code with
  | .functionCall callee => callee
  | _ => none

end Instruction

/-- `goto_functionst::goto_functiont`. -/
structure GotoFunction where
  bodyAvailable : Bool
  isInlined : Bool
  body : List Instruction
  pcs_nodup : (body.map Instruction.pc).Nodup

/-- `goto_functionst::function_map`, in the order of its iterators. -/
structure GotoFunctions where
  functionMap : List (String × GotoFunction)
  names_nodup : (functionMap.map Prod.fst).Nodup

/-- `function_map.find(identifier)`. -/
def GotoFunctions.find (gf : GotoFunctions) (identifier : String) : Option GotoFunction :=
  gf.functionMap.lookup identifier

/-- A program with an iterator into it. -/
abbrev Location := String ×ₗ Nat

/-- The location of an instruction of `f`. -/
def locationOf (f : String) (pc : Nat) : Location := toLex (f, pc)

@[simp] theorem locationOf_inj {f g : String} {p q : Nat} :
    locationOf f p = locationOf g q ↔ f = g ∧ p = q := by
  simp [locationOf]

/-- The instruction at a location. -/
def GotoFunctions.instructionAt (gf : GotoFunctions) (l : Location) : Option Instruction :=
  (gf.find (ofLex l).1).bind fun fct => fct.body.find? fun i => i.pc = (ofLex l).2

theorem GotoFunctions.find_eq_some {gf : GotoFunctions} {f : String} {fct : GotoFunction} :
    gf.find f = some fct ↔ (f, fct) ∈ gf.functionMap := by
  have hlookup : ∀ l : List (String × GotoFunction), (l.map Prod.fst).Nodup →
      (l.lookup f = some fct ↔ (f, fct) ∈ l) := by
    intro l
    induction l with
    | nil => simp
    | cons p l ih =>
        intro hnd
        obtain ⟨g, fn⟩ := p
        rw [List.map_cons, List.nodup_cons] at hnd
        by_cases heq : f = g
        · subst heq
          have hno : (f, fct) ∉ l := fun h => hnd.1 (List.mem_map.mpr ⟨_, h, rfl⟩)
          simp [hno, eq_comm]
        · have hne : (f == g) = false := by simpa using heq
          rw [List.lookup_cons, hne, List.mem_cons]
          simp only [ih hnd.2, Prod.mk.injEq, heq, false_and, false_or]
  exact hlookup gf.functionMap gf.names_nodup

/-- The instructions of all functions, in the order of the map. -/
def GotoFunctions.locations (gf : GotoFunctions) : List Location :=
  gf.functionMap.flatMap fun p => p.2.body.map fun i => locationOf p.1 i.pc

theorem GotoFunctions.mem_locations {gf : GotoFunctions} {l : Location} : l ∈ gf.locations ↔
    ∃ f fct, (f, fct) ∈ gf.functionMap ∧ ∃ i ∈ fct.body, locationOf f i.pc = l := by
  simp only [locations, List.mem_flatMap, List.mem_map, Prod.exists]

/-- `j` comes directly after `i`. -/
def Consecutive (body : List Instruction) (i j : Instruction) : Prop :=
  ∃ before after, body = before ++ i :: j :: after

end FShell
