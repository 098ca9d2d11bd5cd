import FShell.Instrumentation.LocationNumbers

/-!
# Inserting predicates

`GOTO_Transformation::insert_predicate_at` puts a test of a predicate in front of
an instruction: a jump over a location instruction, which is there to be an edge.
The names in the predicate are resolved at the instruction first.  One that cannot
be resolved makes the test nondeterministic, and a predicate with the name `!PRED!`
is code that computes the condition.

The symbol table, the type checker and the conversion to goto programs belong to
the front end (`PredicateEnv`).
-/

namespace FShell.GotoTransformation

/-- What the front end answers. -/
structure PredicateEnv where
  /-- `ns.lookup(name).base_name`. -/
  baseName : String → String
  /-- The symbol table has a symbol of static lifetime with this name. -/
  isStaticLifetime : String → Bool
  /-- The parameters in the type of a function. -/
  parameters : String → List String
  /-- The symbols in the code of a declaration. -/
  declSymbols : Instruction → List String
  /-- `ansi_c_typecheck(expr)`, with the checked expression. -/
  ansiCTypecheck : Expr → Option Expr
  /-- `expr.type().id() == ID_bool`. -/
  isBool : Expr → Bool
  /-- `goto_convert(code_expressiont(expr))`. -/
  gotoConvert : Expr → List Instruction
  /-- The guard with the negated expression. -/
  makeNot : Expr → Guard
  expr2c : Expr → String

/-- `add_instruction(type)`. -/
def newInstruction (pc : Nat) (type : InstructionType) : Instruction :=
  ⟨pc, type, .none, "", none, .isTrue, [], []⟩

/-- The name that `new_bool_var(name)` makes. -/
def newBoolVar (name : String) (varCount : Nat) : String :=
  "$fshell2$" ++ name ++ toString varCount

/-- `symbol_expr()`. -/
def symbolExpr (name : String) : Expr := ⟨"symbol", [name]⟩

/-! ## Resolving names -/

/-- `alt_names`: the functions, globals, parameters and local variables that a
name may stand for in front of `node`.  No result if the first instruction does
not say which function of the map this is. -/
def altNames (env : PredicateEnv) (gf : GotoFunctions) (body : List Instruction) (node : Nat)
    (identifier : String) : Option (List String) := do
  let front ← body.head?
  let _ ← gf.find front.function
  let functions := (gf.functionMap.map Prod.fst).filter fun g => env.baseName g = identifier
  let globals := if env.isStaticLifetime identifier then [identifier] else []
  let arguments := (env.parameters front.function).filter fun a => env.baseName a = identifier
  let decls := (body.takeWhile fun k => k.pc ≠ node).filter fun k => k.type = .decl
  let locals := (decls.flatMap env.declSymbols).filter fun s => env.baseName s = identifier
  return functions ++ globals ++ arguments ++ locals

/-- The symbols of a predicate after the loop over them, the place of `!PRED!`,
and whether some name was not resolved. -/
structure Renaming where
  symbols : List String
  special : Option Nat
  makeNondet : Bool

/-- The loop over the symbols; it ends at the first one that is not resolved. -/
def renameSymbols (alt : String → Option (List String)) : List String → Option Renaming
  | [] => some ⟨[], none, false⟩
  | s :: rest =>
      if s = "!PRED!" then
        (renameSymbols alt rest).map fun r =>
          { r with symbols := s :: r.symbols, special := some ((r.special.map (· + 1)).getD 0) }
      else do
        let names ← alt s
        match names.getLast? with
        | none => return ⟨s :: rest, none, true⟩
        | some name =>
            let r ← renameSymbols alt rest
            return { r with symbols := name :: r.symbols, special := r.special.map (· + 1) }

/-! ## The test -/

/-- The code in front of the test, the condition that is tested, and how many
variables there are then.  The iterators are new ones, from `base` on. -/
def predicateCode (env : PredicateEnv) (base : Nat) (pred : Expr) (r : Renaming)
    (varCount : Nat) : Except String (List Instruction × Expr × Nat) :=
  let typecheck (copy : Expr) : Except String Expr :=
    match env.ansiCTypecheck copy with
    | none => .error ("Predicate " ++ env.expr2c copy ++ " failed to typecheck")
    | some copy => .ok copy
  if r.makeNondet || r.special.isSome then
    let cond := newBoolVar "pred" varCount
    let decl := { newInstruction base .decl with code := .statement "decl" }
    match r.special, r.makeNondet with
    | some place, false => do
        let copy ← typecheck { pred with symbols := r.symbols.set place cond }
        let dest := env.gotoConvert copy
        return (decl :: dest.map (relocate (copyPc dest (base + 1))), symbolExpr cond, varCount + 1)
    | _, _ => .ok ([decl], symbolExpr cond, varCount + 1)
  else do
    let copy ← typecheck { pred with symbols := r.symbols }
    return ([], copy, varCount)

/-- The jump over the location, from iterator `pc` on. -/
def testOf (env : PredicateEnv) (cond : Expr) (pc : Nat) : List Instruction :=
  [{ newInstruction pc .goto with guard := env.makeNot cond, targets := [pc + 2] },
    newInstruction (pc + 1) .location, newInstruction (pc + 2) .skip]

theorem location_mem_testOf (env : PredicateEnv) (cond : Expr) (pc : Nat) :
    newInstruction (pc + 1) .location ∈ testOf env cond pc :=
  List.mem_cons_of_mem _ List.mem_cons_self

variable (u : LocationNumbering) (env : PredicateEnv) (P : NumberedFunctions)

/-- `insert_predicate_at(node, pred)`, with the number of variables that there are
then. -/
def insertPredicateAt (node : Location) (pred : Expr) (varCount : Nat) :
    Except String (Option (NumberedFunctions × List Location × Nat)) :=
  match P.functions.find (ofLex node).1 with
  | none => .ok none
  | some fct =>
      match renameSymbols (altNames env P.functions fct.body (ofLex node).2) pred.symbols with
      | none => .ok none
      | some r => do
          let (tmp, cond, varCount) ← predicateCode env (freshPc fct.body) pred r varCount
          if env.isBool cond then
            let pc := freshPc (fct.body ++ tmp)
            return (insertAtNode u P node (tmp ++ testOf env cond pc)).map fun q =>
              (q.1, [locationOf (ofLex node).1 (pc + 1)], varCount)
          else .error ("Predicate " ++ env.expr2c pred ++ " is not of Boolean type")

variable {u env P} {node : Location} {pred : Expr} {varCount : Nat}

/-- **The insertion of a predicate** is one of its code and its test. -/
theorem insertPredicateAt_eq {q : NumberedFunctions × List Location × Nat}
    (h : insertPredicateAt u env P node pred varCount = .ok (some q)) :
    ∃ fct tmp cond inserted, P.functions.find (ofLex node).1 = some fct ∧
      insertAtNode u P node (tmp ++ testOf env cond (freshPc (fct.body ++ tmp))) =
        some (q.1, inserted) ∧
      q.2.1 = [locationOf (ofLex node).1 (freshPc (fct.body ++ tmp) + 1)] := by
  unfold insertPredicateAt at h
  cases hfct : P.functions.find (ofLex node).1 with
  | none =>
      rw [hfct] at h
      cases h
  | some fct =>
      simp only [hfct] at h
      cases hr : renameSymbols (altNames env P.functions fct.body (ofLex node).2)
          pred.symbols with
      | none =>
          rw [hr] at h
          cases h
      | some r =>
          simp only [hr] at h
          cases hcode : predicateCode env (freshPc fct.body) pred r varCount with
          | error e =>
              rw [hcode] at h
              cases h
          | ok code =>
              obtain ⟨tmp, cond, count⟩ := code
              simp only [hcode, bind, Except.bind] at h
              split_ifs at h
              obtain ⟨⟨Q, inserted⟩, hinsert, rfl⟩ :=
                Option.map_eq_some_iff.mp (Except.ok.inj h)
              exact ⟨fct, tmp, cond, inserted, rfl, hinsert, rfl⟩

theorem renumbered_insertPredicateAt {q : NumberedFunctions × List Location × Nat}
    (h : insertPredicateAt u env P node pred varCount = .ok (some q)) :
    Renumbered u P q.1 := by
  obtain ⟨_, _, _, _, _, hinsert, _⟩ := insertPredicateAt_eq h
  exact renumbered_insertAtNode hinsert

end FShell.GotoTransformation
