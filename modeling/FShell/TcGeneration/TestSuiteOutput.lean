import FShell.Evaluation.EvaluateFilter

/-!
# The calls of a test case

`update_call_stack` goes through the executed steps of a test case and records
every call with the left-hand side of its return assignment.  An invocation
that returns a value is known to end by that assignment; for any other the end
is inferred from the function of a later step.

Until such a step comes the record of an ended invocation stays on the stack
above those of the invocations it was called from.  A return of an invocation
of the same function then takes this record for its own
(`calledFunctions_exact_iff`).
-/

namespace FShell

/-! ## Steps -/

/-- What an iterator points to, and the iterator after it.  No function has
been inlined, and nothing calls `_start`. -/
structure SteppedProgram where
  instr : Location → Instruction
  next : Location → Location
  next_function : ∀ pc, (instr pc).type ≠ .endFunction →
    (instr (next pc)).function = (instr pc).function
  start_not_called : ∀ pc, (instr pc).callee ≠ some "_start"

/-- `goto_trace_stept::typet`, as far as it is told apart. -/
inductive SsaStepType
  | assignment
  | location
  | functionReturn
  | other
  deriving DecidableEq

/-- `symex_targett::assignment_typet`. -/
inductive AssignmentType
  | state
  | hidden
  | phi
  | guard
  deriving DecidableEq

/-- `SSA_stept`: `source.pc`, the types, and `&ssa_lhs`. -/
structure SsaStep (Lhs : Type) where
  pc : Location
  type : SsaStepType
  assignmentType : AssignmentType
  ssaLhs : Lhs

/-- A member of `called_functions_t`. -/
structure CalledFunction (Lhs : Type) where
  pc : Location
  function : String
  returned : Option Lhs
  deriving DecidableEq

/-- The call and the function of a record. -/
def CalledFunction.key {Lhs : Type} (r : CalledFunction Lhs) : Location × String :=
  (r.pc, r.function)

@[simp] theorem CalledFunction.key_fst {Lhs : Type} (r : CalledFunction Lhs) : r.key.1 = r.pc := rfl

@[simp] theorem CalledFunction.key_snd {Lhs : Type} (r : CalledFunction Lhs) :
    r.key.2 = r.function := rfl

/-- `calls` and `call_stack`.  A member of the stack is a position in `calls`,
with `back()` first. -/
structure CallState (Lhs : Type) where
  calls : List (CalledFunction Lhs)
  callStack : List Nat
  deriving DecidableEq

namespace SteppedProgram

variable {Lhs : Type} (p : SteppedProgram)

/-- The function of the instruction. -/
def functionOf (pc : Location) : String := (p.instr pc).function

/-- The steps that `update_call_stack` returns from at once. -/
def ignores (step : SsaStep Lhs) : Bool :=
  isInstrumented (p.instr step.pc) || step.type = .functionReturn ||
    (p.instr step.pc).type = .endFunction ||
    (step.type = .assignment && step.assignmentType ≠ .state)

/-- `while (step.source.pc->function != call_stack.back()->first.second)`. -/
def popMore (calls : List (CalledFunction Lhs)) (function : String) :
    List Nat → Option (List Nat)
  | [] => none
  | top :: rest =>
      calls[top]?.bind fun r =>
        if function ≠ r.function then popMore calls function rest else some (top :: rest)

/-- The pops for a step at `pc`. -/
def popEnded (calls : List (CalledFunction Lhs)) (pc : Location) :
    List Nat → Option (List Nat)
  | [] => some []
  | top :: rest =>
      calls[top]?.bind fun r =>
        if pc ≠ r.pc ∧ p.functionOf pc ≠ r.function then
          if p.functionOf pc ≠ "_start" then popMore calls (p.functionOf pc) rest
          else some rest
        else some (top :: rest)

/-- `push_back` to both lists. -/
def pushCall (st : CallState Lhs) (pc : Location) (function : String) : CallState Lhs :=
  { calls := st.calls ++ [⟨pc, function, none⟩]
    callStack := st.calls.length :: st.callStack }

/-- What is done for the step when the ended calls are popped. -/
def recordStep (step : SsaStep Lhs) (st : CallState Lhs) : Option (CallState Lhs) :=
  if step.type = .location ∧ (p.instr step.pc).isFunctionCall then
    some (pushCall st step.pc ((p.instr step.pc).callee.getD ""))
  else if step.type = .location ∧ p.functionOf step.pc ≠ p.functionOf (p.next step.pc) then
    -- an inlined function
    match st.callStack with
    | [] => none
    | top :: below =>
        st.calls[top]?.bind fun r =>
          if (p.instr r.pc).type = .location then
            below.head?.bind fun caller =>
              st.calls[caller]?.map fun r' =>
                if r'.function = p.functionOf (p.next step.pc) then
                  { st with callStack := below }
                else pushCall st step.pc (p.functionOf (p.next step.pc))
          else some (pushCall st step.pc (p.functionOf (p.next step.pc)))
  else if step.type = .assignment ∧ (p.instr step.pc).isReturn then
    match st.callStack with
    | [] => none
    | top :: below =>
        st.calls[top]?.map fun r =>
          { calls := st.calls.set top { r with returned := some step.ssaLhs }
            callStack := below }
  else some st

/-- `update_call_stack`; `none` stands for undefined behaviour. -/
def updateCallStack (st : CallState Lhs) (step : SsaStep Lhs) : Option (CallState Lhs) :=
  if p.ignores step then some st
  else
    (p.popEnded st.calls step.pc st.callStack).bind fun callStack =>
      p.recordStep step { st with callStack := callStack }

/-- The calls that `get_test_case` reports for the executed steps. -/
def calledFunctions (steps : List (SsaStep Lhs)) : Option (List (CalledFunction Lhs)) :=
  (steps.foldlM p.updateCallStack ⟨[], []⟩).map CallState.calls

end SteppedProgram

/-! ## Well-nested sequences -/

/-- The steps of an invocation.  A call has its location step, the steps at
the call instruction, those of the callee, and the return assignment if there
is one; a function without body has no steps. -/
inductive CallTrace (Lhs : Type)
  | done
  | step (s : SsaStep Lhs) (rest : CallTrace Lhs)
  | call (s : SsaStep Lhs) (atCall : List (SsaStep Lhs)) (body : CallTrace Lhs)
      (result : Option (SsaStep Lhs)) (rest : CallTrace Lhs)

namespace CallTrace

variable {Lhs : Type} (p : SteppedProgram)

/-- The sequence of steps. -/
def steps : CallTrace Lhs → List (SsaStep Lhs)
  | done => []
  | step s rest => s :: rest.steps
  | call s atCall body result rest =>
      s :: (atCall ++ (body.steps ++ (result.toList ++ rest.steps)))

/-- The callee of a call instruction. -/
def callee (s : SsaStep Lhs) : String := (p.instr s.pc).callee.getD ""

/-- Every call with the return assignment of its own invocation. -/
def records : CallTrace Lhs → List (CalledFunction Lhs)
  | done => []
  | step _ rest => rest.records
  | call s _ body result rest =>
      ⟨s.pc, callee p s, result.map SsaStep.ssaLhs⟩ :: (body.records ++ rest.records)

/-- The sequence is one of an invocation of `f`. -/
def WellNested : String → CallTrace Lhs → Prop
  | _, done => True
  | f, step s rest =>
      (p.ignores s = true ∨
        p.functionOf s.pc = f ∧
          ¬(s.type = .location ∧ (p.instr s.pc).isFunctionCall = true) ∧
          ¬(s.type = .assignment ∧ (p.instr s.pc).isReturn = true)) ∧
        rest.WellNested f
  | f, call s atCall body result rest =>
      (p.ignores s = false ∧ p.functionOf s.pc = f ∧ s.type = .location ∧
          (p.instr s.pc).isFunctionCall = true) ∧
        (∀ a ∈ atCall, p.ignores a = true ∨ a.pc = s.pc ∧ a.type ≠ .location) ∧
        body.WellNested (callee p s) ∧
        (∀ r ∈ result, p.ignores r = false ∧ p.functionOf r.pc = callee p s ∧
          r.type = .assignment ∧ (p.instr r.pc).isReturn = true) ∧
        rest.WellNested f

/-! ## Unnoticed ends -/

/-- A step of an invocation of `f` shows that the invocations inside it have
ended, up to the first one of `f` itself.  It shows nothing at the call
instruction of the last one, and a step of `_start` shows one end only. -/
def notice (f : String) (pc : Location) : List (Location × String) → List (Location × String)
  | [] => []
  | e :: ended =>
      if pc = e.1 ∨ f = e.2 then e :: ended
      else if f = "_start" then ended
      else ended.dropWhile fun e => f ≠ e.2

/-- The calls inside an invocation of `f` whose invocations have ended without
an assignment, where no later step shows it; the last one first. -/
def unnoticed (f : String) (ended : List (Location × String)) :
    CallTrace Lhs → List (Location × String)
  | done => ended
  | step s rest => rest.unnoticed f (if p.ignores s then ended else notice f s.pc ended)
  | call s _ body result rest =>
      rest.unnoticed f <|
        match result with
        | some _ => notice f s.pc ended
        | none => body.unnoticed (callee p s) [] ++ (s.pc, callee p s) :: notice f s.pc ended

/-- An invocation that returns a value does not do so over an unnoticed end of
an invocation of the same function. -/
def Unambiguous : CallTrace Lhs → Prop
  | done => True
  | step _ rest => rest.Unambiguous
  | call s _ body result rest =>
      body.Unambiguous ∧
        (result.isSome = true → ∀ e ∈ body.unnoticed p (callee p s) [], e.2 ≠ callee p s) ∧
        rest.Unambiguous

end CallTrace

/-! ## The stack -/

section Stack

variable {Lhs : Type} {p : SteppedProgram}

/-- Positions of records with these calls. -/
def Matches (calls : List (CalledFunction Lhs)) : List Nat → List (Location × String) → Prop :=
  List.Forall₂ fun j e => (calls[j]?).map CalledFunction.key = some e

/-- The stack of an invocation of `f` when nothing called from it is on it: for
`_start` it is empty, and for another one its own record is on top. -/
def Base (calls : List (CalledFunction Lhs)) (f : String) (base : List Nat) : Prop :=
  if f = "_start" then base = []
  else ∃ own rest r, base = own :: rest ∧ calls[own]? = some r ∧ r.function = f

/-- The records keep their calls, and what they hold is not taken away. -/
def Extends (calls calls' : List (CalledFunction Lhs)) : Prop :=
  ∀ (j : Nat) (r : CalledFunction Lhs), calls[j]? = some r →
    ∃ r' : CalledFunction Lhs, calls'[j]? = some r' ∧ r'.key = r.key ∧ (r.returned.isSome → r'.returned.isSome)

theorem Extends.refl (calls : List (CalledFunction Lhs)) : Extends calls calls :=
  fun _ r hr => ⟨r, hr, rfl, id⟩

theorem Extends.trans {xs ys zs : List (CalledFunction Lhs)} (h : Extends xs ys)
    (h' : Extends ys zs) : Extends xs zs := by
  intro j r hr
  obtain ⟨r₁, hr₁, hkey₁, hsome₁⟩ := h j r hr
  obtain ⟨r₂, hr₂, hkey₂, hsome₂⟩ := h' j r₁ hr₁
  exact ⟨r₂, hr₂, hkey₂.trans hkey₁, fun hsome => hsome₂ (hsome₁ hsome)⟩

theorem extends_append (calls more : List (CalledFunction Lhs)) :
    Extends calls (calls ++ more) := by
  intro j r hr
  have hlt : j < calls.length := (List.getElem?_eq_some_iff.mp hr).1
  exact ⟨r, by rw [List.getElem?_append_left hlt, hr], rfl, id⟩

theorem extends_set {calls : List (CalledFunction Lhs)} {top : Nat} {r : CalledFunction Lhs}
    (hr : calls[top]? = some r) (value : Lhs) :
    Extends calls (calls.set top { r with returned := some value }) := by
  intro j r' hr'
  by_cases hj : top = j
  · subst hj
    rw [hr] at hr'
    cases hr'
    have hlt : top < calls.length := (List.getElem?_eq_some_iff.mp hr).1
    exact ⟨_, List.getElem?_set_self hlt, rfl, fun _ => rfl⟩
  · exact ⟨r', by rw [List.getElem?_set_ne hj, hr'], rfl, id⟩

theorem Matches.extend {calls calls' : List (CalledFunction Lhs)} {stack : List Nat}
    {ended : List (Location × String)} (h : Matches calls stack ended)
    (hext : Extends calls calls') : Matches calls' stack ended := by
  refine List.Forall₂.imp ?_ h
  intro j e hj
  obtain ⟨r, hr, hkey⟩ := Option.map_eq_some_iff.mp hj
  obtain ⟨r', hr', hkey', -⟩ := hext j r hr
  rw [hr', Option.map_some, hkey', hkey]

theorem Base.extend {calls calls' : List (CalledFunction Lhs)} {f : String} {base : List Nat}
    (h : Base calls f base) (hext : Extends calls calls') : Base calls' f base := by
  unfold Base at h ⊢
  split_ifs at h ⊢ with hstart
  · exact h
  · obtain ⟨own, rest, r, hbase, hr, hf⟩ := h
    obtain ⟨r', hr', hkey, -⟩ := hext own r hr
    exact ⟨own, rest, r', hbase, hr', (congrArg Prod.snd hkey).trans hf⟩

/-- The position on top of the stack of an invocation has a record of it. -/
theorem popMore_matches {calls : List (CalledFunction Lhs)} {f : String} {base : List Nat}
    (hbase : Base calls f base) (hf : f ≠ "_start") {stack : List Nat}
    {ended : List (Location × String)} (h : Matches calls stack ended) :
    ∃ stack', stack' <:+ stack ∧ Matches calls stack' (ended.dropWhile fun e => f ≠ e.2) ∧
      SteppedProgram.popMore calls f (stack ++ base) = some (stack' ++ base) := by
  induction h with
  | nil =>
      rw [Base, if_neg hf] at hbase
      obtain ⟨own, rest, r, rfl, hr, hown⟩ := hbase
      refine ⟨[], List.suffix_refl _, .nil, ?_⟩
      rw [List.nil_append, SteppedProgram.popMore, hr, Option.bind_some, if_neg (by simp [hown])]
  | @cons j e stack ended hj hrest ih =>
      obtain ⟨r, hr, rfl⟩ := Option.map_eq_some_iff.mp hj
      rw [List.cons_append, SteppedProgram.popMore, hr, Option.bind_some]
      by_cases hname : f = r.function
      · refine ⟨j :: stack, List.suffix_refl _, ?_, ?_⟩
        · rw [List.dropWhile_cons_of_neg (by simp [hname])]
          exact .cons hj hrest
        · rw [if_neg (not_not.mpr hname), List.cons_append]
      · obtain ⟨stack', hsuffix, hmatches, hpop⟩ := ih
        refine ⟨stack', hsuffix.trans (List.suffix_cons _ _), ?_, ?_⟩
        · rw [List.dropWhile_cons_of_pos (by simp [hname])]
          exact hmatches
        · rw [if_pos hname, hpop]

/-- **The pops** are those that the step shows. -/
theorem popEnded_matches {calls : List (CalledFunction Lhs)} {pc : Location} {base : List Nat}
    (hbase : Base calls (p.functionOf pc) base) {stack : List Nat}
    {ended : List (Location × String)} (h : Matches calls stack ended) :
    ∃ stack', stack' <:+ stack ∧
      Matches calls stack' (CallTrace.notice (p.functionOf pc) pc ended) ∧
      p.popEnded calls pc (stack ++ base) = some (stack' ++ base) := by
  cases h with
  | nil =>
      refine ⟨[], List.suffix_refl _, .nil, ?_⟩
      unfold Base at hbase
      split_ifs at hbase with hstart
      · rw [hbase]
        rfl
      · obtain ⟨own, rest, r, rfl, hr, hown⟩ := hbase
        rw [List.nil_append, SteppedProgram.popEnded, hr, Option.bind_some,
          if_neg (fun h => h.2 hown.symm)]
  | @cons j e stack ended hj hrest =>
      obtain ⟨r, hr, rfl⟩ := Option.map_eq_some_iff.mp hj
      rw [List.cons_append, SteppedProgram.popEnded, hr, Option.bind_some, CallTrace.notice,
        CalledFunction.key_fst, CalledFunction.key_snd]
      by_cases hkeep : pc = r.pc ∨ p.functionOf pc = r.function
      · refine ⟨j :: stack, List.suffix_refl _, ?_, ?_⟩
        · rw [if_pos hkeep]
          exact .cons hj hrest
        · rw [if_neg (by rwa [← not_or, not_not]), List.cons_append]
      · rw [if_neg hkeep, if_pos (not_or.mp hkeep)]
        by_cases hstart : p.functionOf pc = "_start"
        · refine ⟨stack, List.suffix_cons _ _, ?_, ?_⟩
          · rw [if_pos hstart]
            exact hrest
          · rw [if_neg (not_not.mpr hstart)]
        · obtain ⟨stack', hsuffix, hmatches, hpop⟩ := popMore_matches hbase hstart hrest
          refine ⟨stack', hsuffix.trans (List.suffix_cons _ _), ?_, ?_⟩
          · rw [if_neg hstart]
            exact hmatches
          · rw [if_pos hstart, hpop]

/-! ## Calls and returns -/

open CallTrace (callee notice unnoticed WellNested Unambiguous)

theorem callee_ne_start (s : SsaStep Lhs) : callee p s ≠ "_start" := by
  intro h
  unfold callee at h
  cases hcallee : (p.instr s.pc).callee with
  | none =>
      rw [hcallee] at h
      exact absurd h (by decide)
  | some g =>
      rw [hcallee, Option.getD_some] at h
      exact p.start_not_called s.pc (h ▸ hcallee)

/-- A function of other steps shows the same ends as the pops. -/
theorem update_ownStep {s : SsaStep Lhs} {f : String} {calls : List (CalledFunction Lhs)}
    {stack base : List Nat} {ended : List (Location × String)} (hs : p.ignores s = false)
    (hf : p.functionOf s.pc = f)
    (hcall : ¬(s.type = .location ∧ (p.instr s.pc).isFunctionCall = true))
    (hreturn : ¬(s.type = .assignment ∧ (p.instr s.pc).isReturn = true))
    (hbase : Base calls f base) (hmatches : Matches calls stack ended) :
    ∃ stack', stack' <:+ stack ∧ Matches calls stack' (notice f s.pc ended) ∧
      p.updateCallStack ⟨calls, stack ++ base⟩ s = some ⟨calls, stack' ++ base⟩ := by
  subst hf
  obtain ⟨stack', hsuffix, hmatches', hpop⟩ := popEnded_matches hbase hmatches
  refine ⟨stack', hsuffix, hmatches', ?_⟩
  have hend : (p.instr s.pc).type ≠ .endFunction := by
    intro hend
    rw [SteppedProgram.ignores, hend] at hs
    simp at hs
  have hnext : p.functionOf (p.next s.pc) = p.functionOf s.pc := p.next_function s.pc hend
  rw [SteppedProgram.updateCallStack, if_neg (by simp [hs]), hpop, Option.bind_some,
    SteppedProgram.recordStep, if_neg hcall, if_neg (by simp [hnext]), if_neg hreturn]

/-- A call puts its record on top. -/
theorem update_call {s : SsaStep Lhs} {f : String} {calls : List (CalledFunction Lhs)}
    {stack base : List Nat} {ended : List (Location × String)} (hs : p.ignores s = false)
    (hf : p.functionOf s.pc = f) (hlocation : s.type = .location)
    (hcall : (p.instr s.pc).isFunctionCall = true)
    (hbase : Base calls f base) (hmatches : Matches calls stack ended) :
    ∃ stack', stack' <:+ stack ∧ Matches calls stack' (notice f s.pc ended) ∧
      p.updateCallStack ⟨calls, stack ++ base⟩ s =
        some ⟨calls ++ [⟨s.pc, callee p s, none⟩], calls.length :: (stack' ++ base)⟩ := by
  subst hf
  obtain ⟨stack', hsuffix, hmatches', hpop⟩ := popEnded_matches hbase hmatches
  refine ⟨stack', hsuffix, hmatches', ?_⟩
  rw [SteppedProgram.updateCallStack, if_neg (by simp [hs]), hpop, Option.bind_some,
    SteppedProgram.recordStep, if_pos ⟨hlocation, hcall⟩]
  rfl

/-- The steps at the call instruction change nothing. -/
theorem update_atCall {s : SsaStep Lhs} {calls : List (CalledFunction Lhs)} {own : Nat}
    {below : List Nat} {r : CalledFunction Lhs} (hr : calls[own]? = some r) (hpc : r.pc = s.pc)
    (hcall : (p.instr s.pc).isFunctionCall = true) (atCall : List (SsaStep Lhs))
    (h : ∀ a ∈ atCall, p.ignores a = true ∨ a.pc = s.pc ∧ a.type ≠ .location) :
    atCall.foldlM p.updateCallStack ⟨calls, own :: below⟩ = some ⟨calls, own :: below⟩ := by
  induction atCall with
  | nil => rfl
  | cons a atCall ih =>
      have hstep : p.updateCallStack ⟨calls, own :: below⟩ a = some ⟨calls, own :: below⟩ := by
        rw [SteppedProgram.updateCallStack]
        by_cases ha : p.ignores a = true
        · rw [if_pos ha]
        · obtain ⟨hapc, hlocation⟩ := (h a List.mem_cons_self).resolve_left ha
          have hreturn : (p.instr a.pc).isReturn = false := by
            rw [hapc]
            unfold Instruction.isFunctionCall at hcall
            simp [Instruction.isReturn, of_decide_eq_true hcall]
          rw [if_neg ha, SteppedProgram.popEnded, hr, Option.bind_some,
            if_neg (by simp [hapc, hpc]), Option.bind_some, SteppedProgram.recordStep,
            if_neg (by simp [hlocation]), if_neg (by simp [hlocation]), if_neg (by simp [hreturn])]
      rw [List.foldlM_cons, hstep]
      exact ih fun b hb => h b (List.mem_cons_of_mem _ hb)

/-- A return assignment goes to the top of the stack when what it shows is popped. -/
theorem update_return {r : SsaStep Lhs} {f : String} {calls : List (CalledFunction Lhs)}
    {stack base : List Nat} {ended : List (Location × String)} (hr : p.ignores r = false)
    (hf : p.functionOf r.pc = f) (hassign : r.type = .assignment)
    (hreturn : (p.instr r.pc).isReturn = true)
    (hbase : Base calls f base) (hmatches : Matches calls stack ended) :
    ∃ stack', stack' <:+ stack ∧ Matches calls stack' (notice f r.pc ended) ∧
      ∀ top below record, stack' ++ base = top :: below → calls[top]? = some record →
        p.updateCallStack ⟨calls, stack ++ base⟩ r =
          some ⟨calls.set top { record with returned := some r.ssaLhs }, below⟩ := by
  subst hf
  obtain ⟨stack', hsuffix, hmatches', hpop⟩ := popEnded_matches hbase hmatches
  refine ⟨stack', hsuffix, hmatches', fun top below record htop hrecord => ?_⟩
  rw [SteppedProgram.updateCallStack, if_neg (by simp [hr]), hpop, Option.bind_some, htop,
    SteppedProgram.recordStep, if_neg (by simp [hassign]), if_neg (by simp [hassign]),
    if_pos ⟨hassign, hreturn⟩]
  dsimp only
  rw [hrecord, Option.map_some]

/-- What has ended unnoticed are calls. -/
theorem isFunctionCall_of_mem_unnoticed {t : CallTrace Lhs} {f : String} (h : t.WellNested p f)
    {ended : List (Location × String)}
    (hended : ∀ e ∈ ended, (p.instr e.1).isFunctionCall = true) :
    ∀ e ∈ t.unnoticed p f ended, (p.instr e.1).isFunctionCall = true := by
  have hnotice : ∀ (f : String) (pc : Location) {ended : List (Location × String)},
      (∀ e ∈ ended, (p.instr e.1).isFunctionCall = true) →
        ∀ e ∈ notice f pc ended, (p.instr e.1).isFunctionCall = true := by
    intro f pc ended hended e he
    cases ended with
    | nil => cases he
    | cons e' ended =>
        rw [notice] at he
        split_ifs at he
        · exact hended e he
        · exact hended e (List.mem_cons_of_mem _ he)
        · exact hended e (List.mem_cons_of_mem _ ((List.dropWhile_sublist _).subset he))
  induction t generalizing f ended with
  | done => exact hended
  | step s rest ih =>
      refine ih h.2 ?_
      split_ifs
      · exact hended
      · exact hnotice f s.pc hended
  | call s atCall body result rest ihbody ihrest =>
      obtain ⟨hs, -, hbody, -, hrest⟩ := h
      refine ihrest hrest ?_
      cases result with
      | some r => exact hnotice f s.pc hended
      | none =>
          intro e he
          rcases List.mem_append.mp he with he | he
          · exact ihbody hbody (fun _ hnil => by cases hnil) e he
          · rcases List.mem_cons.mp he with rfl | he
            · exact hs.2.2.2
            · exact hnotice f s.pc hended e he

/-- A return shows all ends but those of its own function. -/
theorem notice_eq_nil_iff {r : SsaStep Lhs} {f : String} (hf : f ≠ "_start")
    (hreturn : (p.instr r.pc).isReturn = true) {ended : List (Location × String)}
    (hended : ∀ e ∈ ended, (p.instr e.1).isFunctionCall = true) :
    notice f r.pc ended = [] ↔ ∀ e ∈ ended, e.2 ≠ f := by
  cases ended with
  | nil => simp [notice]
  | cons e ended =>
      have hpc : r.pc ≠ e.1 := by
        intro hpc
        have hcall := hended e List.mem_cons_self
        rw [← hpc] at hcall
        unfold Instruction.isFunctionCall at hcall
        simp [Instruction.isReturn, of_decide_eq_true hcall] at hreturn
      rw [notice]
      by_cases hown : f = e.2
      · rw [if_pos (Or.inr hown)]
        simp [hown]
      · rw [if_neg (not_or.mpr ⟨hpc, hown⟩), if_neg hf, List.dropWhile_eq_nil_iff,
          List.forall_mem_cons]
        simp [Ne.symm hown, eq_comm (a := f)]

/-! ## Runs -/

/-- A record from position `n` on has a value where none is expected. -/
def Wrong (n : Nat) (calls expected : List (CalledFunction Lhs)) : Prop :=
  ∃ (j : Nat) (r e : CalledFunction Lhs), n ≤ j ∧ calls[j]? = some r ∧ expected[j]? = some e ∧
    r.returned.isSome ∧ e.returned = none

theorem Wrong.extend {n m : Nat} {calls calls' expected : List (CalledFunction Lhs)}
    (h : Wrong n calls expected) (hm : m ≤ n) (hext : Extends calls calls')
    (more : List (CalledFunction Lhs)) : Wrong m calls' (expected ++ more) := by
  obtain ⟨j, r, e, hn, hr, he, hsome, hnone⟩ := h
  obtain ⟨r', hr', -, hsome'⟩ := hext j r hr
  have hlt : j < expected.length := (List.getElem?_eq_some_iff.mp he).1
  exact ⟨j, r', e, hm.trans hn, hr', by rw [List.getElem?_append_left hlt, he], hsome' hsome, hnone⟩

theorem Wrong.ne {n : Nat} {calls expected : List (CalledFunction Lhs)}
    (h : Wrong n calls expected) : calls ≠ expected := by
  intro heq
  subst heq
  obtain ⟨j, r, e, -, hr, he, hsome, hnone⟩ := h
  rw [hr] at he
  cases he
  rw [hnone] at hsome
  cases hsome

/-- **What a sequence leaves** of the records and of the part of the stack above
that of its invocation. -/
structure After (p : SteppedProgram) (f : String) (t : CallTrace Lhs)
    (calls : List (CalledFunction Lhs)) (stack : List Nat) (ended : List (Location × String))
    (calls' : List (CalledFunction Lhs)) (stack' : List Nat)
    (ended' : List (Location × String)) : Prop where
  extend : Extends calls calls'
  matched : Matches calls' stack' ended'
  exact : t.Unambiguous p → calls' = calls ++ t.records p ∧ ended' = t.unnoticed p f ended ∧
    ∀ j ∈ stack', j ∈ stack ∨
      ∃ r : CalledFunction Lhs, calls.length ≤ j ∧ calls'[j]? = some r ∧ r.returned = none
  wrong : ¬t.Unambiguous p → Wrong calls.length calls' (calls ++ t.records p)

/-- A call and what follows it. -/
theorem After.call_append {f : String} {s : SsaStep Lhs} {atCall : List (SsaStep Lhs)}
    {body rest : CallTrace Lhs} {result : Option (SsaStep Lhs)}
    {calls calls₁ calls₂ : List (CalledFunction Lhs)} {stack stack₁ stack₂ : List Nat}
    {ended ended₁ ended₂ : List (Location × String)}
    (h₁ : After p f (.call s atCall body result .done) calls stack ended calls₁ stack₁ ended₁)
    (h₂ : After p f rest calls₁ stack₁ ended₁ calls₂ stack₂ ended₂) :
    After p f (.call s atCall body result rest) calls stack ended calls₂ stack₂ ended₂ := by
  have hrecords : calls ++ CallTrace.records p (.call s atCall body result rest) =
      calls ++ CallTrace.records p (.call s atCall body result .done) ++ rest.records p := by
    simp [CallTrace.records]
  have hsplit : Unambiguous p (.call s atCall body result rest) ↔
      Unambiguous p (.call s atCall body result .done) ∧ rest.Unambiguous p := by
    simp only [Unambiguous]
    tauto
  refine ⟨h₁.extend.trans h₂.extend, h₂.matched, fun h => ?_, fun h => ?_⟩
  · obtain ⟨hcalls₁, hended₁, hstack₁⟩ := h₁.exact (hsplit.mp h).1
    obtain ⟨hcalls₂, hended₂, hstack₂⟩ := h₂.exact (hsplit.mp h).2
    refine ⟨by rw [hrecords, hcalls₂, hcalls₁], by rw [hended₂, hended₁]; rfl, fun j hj => ?_⟩
    have hle : calls.length ≤ calls₁.length := by simp [hcalls₁]
    have hext : Extends calls₁ calls₂ := h₂.extend
    rcases hstack₂ j hj with hj | ⟨r, hlt, hr, hnone⟩
    · rcases hstack₁ j hj with hj | ⟨r, hlt, hr, hnone⟩
      · exact Or.inl hj
      · have hlt₁ : j < calls₁.length := (List.getElem?_eq_some_iff.mp hr).1
        refine Or.inr ⟨r, hlt, ?_, hnone⟩
        rw [hcalls₂, List.getElem?_append_left hlt₁, hr]
    · exact Or.inr ⟨r, hle.trans hlt, hr, hnone⟩
  · rw [hrecords]
    by_cases hfirst : Unambiguous p (.call s atCall body result .done)
    · have hwrong := h₂.wrong fun hrest => h (hsplit.mpr ⟨hfirst, hrest⟩)
      rw [(h₁.exact hfirst).1] at hwrong
      obtain ⟨j, r, e, hn, hj⟩ := hwrong
      exact ⟨j, r, e, by simp at hn; omega, hj⟩
    · exact (h₁.wrong hfirst).extend le_rfl h₂.extend _

/-- **An invocation without return assignment** leaves its record on the stack. -/
theorem After.silent {f : String} {s : SsaStep Lhs} {atCall : List (SsaStep Lhs)}
    {body : CallTrace Lhs} {calls calls' : List (CalledFunction Lhs)}
    {stack stack₁ stack' : List Nat} {ended ended' : List (Location × String)}
    (hsuffix : stack₁ <:+ stack) (hmatches : Matches calls stack₁ (notice f s.pc ended))
    (h : After p (callee p s) body (calls ++ [⟨s.pc, callee p s, none⟩]) [] [] calls' stack'
      ended') :
    After p f (.call s atCall body none .done) calls stack ended calls'
      (stack' ++ calls.length :: stack₁) (ended' ++ (s.pc, callee p s) :: notice f s.pc ended) := by
  have hext : Extends calls calls' := (extends_append calls _).trans h.extend
  have hown : (calls ++ [(⟨s.pc, callee p s, none⟩ : CalledFunction Lhs)])[calls.length]? =
      some ⟨s.pc, callee p s, none⟩ := by simp
  have hbody : Unambiguous p (.call s atCall body none .done) ↔ body.Unambiguous p := by
    simp [Unambiguous]
  have hrecords : calls ++ CallTrace.records p (.call s atCall body none .done) =
      calls ++ [⟨s.pc, callee p s, none⟩] ++ body.records p := by
    simp [CallTrace.records]
  refine ⟨hext, ?_, fun hunamb => ?_, fun hamb => ?_⟩
  · obtain ⟨r, hr, hkey, -⟩ := h.extend _ _ hown
    refine List.rel_append h.matched (.cons ?_ (hmatches.extend hext))
    rw [hr, Option.map_some, hkey]
    rfl
  · obtain ⟨hcalls, hended, hstack⟩ := h.exact (hbody.mp hunamb)
    refine ⟨by rw [hrecords, hcalls], by rw [hended]; rfl, fun j hj => ?_⟩
    rcases List.mem_append.mp hj with hj | hj
    · obtain ⟨r, hlt, hr, hnone⟩ := (hstack j hj).resolve_left List.not_mem_nil
      exact Or.inr ⟨r, by simp at hlt; omega, hr, hnone⟩
    · rcases List.mem_cons.mp hj with rfl | hj
      · refine Or.inr ⟨⟨s.pc, callee p s, none⟩, le_rfl, ?_, rfl⟩
        rw [hcalls, List.getElem?_append_left (by simp), hown]
      · exact Or.inl (hsuffix.subset hj)
  · rw [hrecords]
    have hwrong := (h.wrong fun hunamb => hamb (hbody.mpr hunamb)).extend
      (by simp : calls.length ≤ _) (Extends.refl _) []
    rwa [List.append_nil] at hwrong

/-- **A return assignment** is that of the invocation unless the end of another
one of the same function has gone unnoticed. -/
theorem After.returned {f : String} {s r : SsaStep Lhs} {atCall : List (SsaStep Lhs)}
    {body : CallTrace Lhs} {calls calls₁ : List (CalledFunction Lhs)}
    {stack stack₁ stackBody stackReturn : List Nat} {ended endedBody : List (Location × String)}
    {top : Nat} {below : List Nat} {record : CalledFunction Lhs}
    (hsuffix : stack₁ <:+ stack) (hmatches : Matches calls stack₁ (notice f s.pc ended))
    (hwell : body.WellNested p (callee p s)) (hreturn : (p.instr r.pc).isReturn = true)
    (h : After p (callee p s) body (calls ++ [⟨s.pc, callee p s, none⟩]) [] [] calls₁ stackBody
      endedBody)
    (hsuffixReturn : stackReturn <:+ stackBody)
    (hmatchesReturn : Matches calls₁ stackReturn (notice (callee p s) r.pc endedBody))
    (htop : stackReturn ++ calls.length :: stack₁ = top :: below)
    (hrecord : calls₁[top]? = some record) :
    ∃ ended', After p f (.call s atCall body (some r) .done) calls stack ended
      (calls₁.set top { record with returned := some r.ssaLhs }) below ended' := by
  have hset := extends_set hrecord r.ssaLhs
  have hext : Extends calls calls₁ := (extends_append calls _).trans h.extend
  have hown : (calls ++ [(⟨s.pc, callee p s, none⟩ : CalledFunction Lhs)])[calls.length]? =
      some ⟨s.pc, callee p s, none⟩ := by simp
  have hrecords : calls ++ CallTrace.records p (.call s atCall body (some r) .done) =
      calls ++ [⟨s.pc, callee p s, some r.ssaLhs⟩] ++ body.records p := by
    simp [CallTrace.records]
  have hsplit : Unambiguous p (.call s atCall body (some r) .done) ↔
      body.Unambiguous p ∧ ∀ e ∈ body.unnoticed p (callee p s) [], e.2 ≠ callee p s := by
    simp [Unambiguous]
  have hnil : body.Unambiguous p → (stackReturn = [] ↔
      ∀ e ∈ body.unnoticed p (callee p s) [], e.2 ≠ callee p s) := by
    intro hbody
    rw [← notice_eq_nil_iff (callee_ne_start s) hreturn
      (isFunctionCall_of_mem_unnoticed hwell fun _ hnil => by cases hnil),
      ← (h.exact hbody).2.1]
    constructor
    · intro heq
      subst heq
      exact List.forall₂_nil_left_iff.mp hmatchesReturn
    · intro hempty
      rw [hempty] at hmatchesReturn
      exact List.forall₂_nil_right_iff.mp hmatchesReturn
  cases stackReturn with
  | nil =>
      -- the assignment goes to the record of its own invocation
      obtain ⟨rfl, rfl⟩ := List.cons_eq_cons.mp htop
      refine ⟨_, hext.trans hset, hmatches.extend (hext.trans hset), fun hunamb => ?_,
        fun hamb => ?_⟩
      · obtain ⟨hcalls, -, -⟩ := h.exact (hsplit.mp hunamb).1
        refine ⟨?_, rfl, fun j hj => Or.inl (hsuffix.subset hj)⟩
        rw [hcalls, List.getElem?_append_left (by simp), hown] at hrecord
        cases hrecord
        rw [hrecords, hcalls]
        simp
      · have hbody : ¬body.Unambiguous p := fun hbody =>
          hamb (hsplit.mpr ⟨hbody, (hnil hbody).mp rfl⟩)
        obtain ⟨j, r', e, hn, hr', he, hsome, hnone⟩ := (h.wrong hbody).extend le_rfl hset []
        refine ⟨j, r', e, by simp at hn; omega, hr', ?_, hsome, hnone⟩
        rw [hrecords]
        rw [List.append_nil, List.getElem?_append_right hn] at he
        rw [List.getElem?_append_right (by simpa using hn)]
        simpa using he
  | cons j stackReturn =>
      -- it goes to the one that has ended unnoticed
      rw [List.cons_append] at htop
      obtain ⟨rfl, rfl⟩ := List.cons_eq_cons.mp htop
      obtain ⟨endedBody', hmatchesRest⟩ : ∃ endedRest, Matches calls₁ stackReturn endedRest := by
        generalize notice (callee p s) r.pc endedBody = endedReturn at hmatchesReturn
        cases hmatchesReturn with
        | cons hj hrest => exact ⟨_, hrest⟩
      have hmem : j ∈ stackBody := hsuffixReturn.subset List.mem_cons_self
      refine ⟨endedBody' ++ (s.pc, callee p s) :: notice f s.pc ended, hext.trans hset,
        Matches.extend ?_ hset, fun hunamb => ?_, fun hamb => ?_⟩
      · obtain ⟨r', hr', hkey, -⟩ := h.extend _ _ hown
        refine List.rel_append hmatchesRest (.cons ?_ (hmatches.extend hext))
        rw [hr', Option.map_some, hkey]
        rfl
      · have hcontra := (hnil (hsplit.mp hunamb).1).mpr (hsplit.mp hunamb).2
        cases hcontra
      · rw [hrecords]
        by_cases hbody : body.Unambiguous p
        · obtain ⟨hcalls, -, hstack⟩ := h.exact hbody
          obtain ⟨r', hlt, hr', hnone⟩ := (hstack j hmem).resolve_left List.not_mem_nil
          have hj : j < calls₁.length := (List.getElem?_eq_some_iff.mp hr').1
          refine ⟨j, _, r', by simp at hlt; omega, List.getElem?_set_self hj, ?_, rfl, hnone⟩
          rw [hcalls, List.getElem?_append_right hlt] at hr'
          rw [List.getElem?_append_right (by simpa using hlt)]
          simpa using hr'
        · obtain ⟨i, r', e, hn, hr', he, hsome, hnone⟩ := (h.wrong hbody).extend le_rfl hset []
          refine ⟨i, r', e, by simp at hn; omega, hr', ?_, hsome, hnone⟩
          rw [List.append_nil, List.getElem?_append_right hn] at he
          rw [List.getElem?_append_right (by simpa using hn)]
          simpa using he

/-- **The run on a well-nested sequence** is never undefined. -/
theorem run_after (t : CallTrace Lhs) {f : String} (h : t.WellNested p f)
    {calls : List (CalledFunction Lhs)} {stack base : List Nat} {ended : List (Location × String)}
    (hbase : Base calls f base) (hmatches : Matches calls stack ended) :
    ∃ calls' stack' ended',
      t.steps.foldlM p.updateCallStack ⟨calls, stack ++ base⟩ = some ⟨calls', stack' ++ base⟩ ∧
      After p f t calls stack ended calls' stack' ended' := by
  induction t generalizing f calls stack base ended with
  | done =>
      refine ⟨calls, stack, ended, rfl, Extends.refl calls, hmatches, fun _ => ?_, fun h => ?_⟩
      · exact ⟨(List.append_nil calls).symm, rfl, fun j hj => Or.inl hj⟩
      · exact absurd trivial h
  | step s rest ih =>
      obtain ⟨hs, hrest⟩ := h
      obtain ⟨stack₁, hsuffix, hmatches₁, hstep⟩ : ∃ stack₁, stack₁ <:+ stack ∧
          Matches calls stack₁ (if p.ignores s then ended else notice f s.pc ended) ∧
          p.updateCallStack ⟨calls, stack ++ base⟩ s = some ⟨calls, stack₁ ++ base⟩ := by
        by_cases hignores : p.ignores s = true
        · refine ⟨stack, List.suffix_refl _, ?_, ?_⟩
          · rw [if_pos hignores]
            exact hmatches
          · rw [SteppedProgram.updateCallStack, if_pos hignores]
        · obtain ⟨hf, hcall, hreturn⟩ := hs.resolve_left hignores
          rw [if_neg hignores]
          exact update_ownStep (Bool.eq_false_of_not_eq_true hignores) hf hcall hreturn hbase
            hmatches
      obtain ⟨calls', stack', ended', hrun, hafter⟩ := ih hrest hbase hmatches₁
      refine ⟨calls', stack', ended', ?_, hafter.extend, hafter.matched, fun hunamb => ?_,
        hafter.wrong⟩
      · rw [CallTrace.steps, List.foldlM_cons, hstep]
        exact hrun
      · obtain ⟨hcalls, hended, hstack⟩ := hafter.exact hunamb
        exact ⟨hcalls, hended, fun j hj => (hstack j hj).imp_left fun hj => hsuffix.subset hj⟩
  | call s atCall body result rest ihbody ihrest =>
      obtain ⟨⟨hignores, hf, hlocation, hcall⟩, hatCall, hbody, hresult, hrest⟩ := h
      obtain ⟨stack₁, hsuffix, hmatches₁, hpush⟩ :=
        update_call hignores hf hlocation hcall hbase hmatches
      have hown : (calls ++ [(⟨s.pc, callee p s, none⟩ : CalledFunction Lhs)])[calls.length]? =
          some ⟨s.pc, callee p s, none⟩ := by simp
      have hbaseBody : Base (calls ++ [⟨s.pc, callee p s, none⟩]) (callee p s)
          (calls.length :: (stack₁ ++ base)) := by
        rw [Base, if_neg (callee_ne_start s)]
        exact ⟨_, _, _, rfl, hown, rfl⟩
      obtain ⟨calls₁, stackBody, endedBody, hrunBody, hafterBody⟩ :=
        ihbody hbody hbaseBody .nil
      rw [List.nil_append] at hrunBody
      obtain ⟨calls₂, stack₂, ended₂, hrunCall, hafterCall⟩ : ∃ calls₂ stack₂ ended₂,
          result.toList.foldlM p.updateCallStack
              ⟨calls₁, stackBody ++ (calls.length :: (stack₁ ++ base))⟩ =
            some ⟨calls₂, stack₂ ++ base⟩ ∧
          After p f (.call s atCall body result .done) calls stack ended calls₂ stack₂ ended₂ := by
        cases result with
        | none =>
            refine ⟨calls₁, stackBody ++ calls.length :: stack₁, _, ?_,
              hafterBody.silent hsuffix hmatches₁⟩
            simp
        | some r =>
            obtain ⟨hignores', hf', hassign, hreturn⟩ := hresult r rfl
            obtain ⟨stackReturn, hsuffixReturn, hmatchesReturn, hupdate⟩ :=
              update_return hignores' hf' hassign hreturn (hbaseBody.extend hafterBody.extend)
                hafterBody.matched
            obtain ⟨top, below, record, htop, hrecord⟩ : ∃ top below record,
                stackReturn ++ calls.length :: stack₁ = top :: below ∧
                  calls₁[top]? = some record := by
              generalize notice (callee p s) r.pc endedBody = endedReturn at hmatchesReturn
              cases hmatchesReturn with
              | nil =>
                  obtain ⟨record, hrecord, -⟩ := hafterBody.extend _ _ hown
                  exact ⟨_, _, record, rfl, hrecord⟩
              | cons hj hrest =>
                  obtain ⟨record, hrecord, -⟩ := Option.map_eq_some_iff.mp hj
                  exact ⟨_, _, record, rfl, hrecord⟩
            obtain ⟨ended', hafter⟩ := hafterBody.returned hsuffix hmatches₁ hbody hreturn
              hsuffixReturn hmatchesReturn htop hrecord
            refine ⟨_, _, ended', ?_, hafter⟩
            have htop' : stackReturn ++ (calls.length :: (stack₁ ++ base)) =
                top :: (below ++ base) := by
              rw [← List.cons_append, ← List.append_assoc, htop, List.cons_append]
            rw [Option.toList_some, List.foldlM_cons, hupdate top _ record htop' hrecord]
            rfl
      have hbaseRest := hbase.extend hafterCall.extend
      obtain ⟨calls', stack', ended', hrunRest, hafterRest⟩ :=
        ihrest hrest hbaseRest hafterCall.matched
      refine ⟨calls', stack', ended', ?_, hafterCall.call_append hafterRest⟩
      rw [CallTrace.steps, List.foldlM_cons, hpush]
      change List.foldlM _ _ _ = _
      rw [List.foldlM_append, update_atCall hown rfl hcall atCall hatCall]
      change List.foldlM _ _ _ = _
      rw [List.foldlM_append, hrunBody]
      change List.foldlM _ _ _ = _
      rw [List.foldlM_append, hrunCall]
      exact hrunRest

end Stack

/-- A well-nested sequence of executed steps, beginning in `_start`. -/
structure Execution (p : SteppedProgram) (Lhs : Type) where
  trace : CallTrace Lhs
  wellNested : trace.WellNested p "_start"

theorem Execution.run {p : SteppedProgram} {Lhs : Type} (e : Execution p Lhs) :
    ∃ calls stack ended, p.calledFunctions e.trace.steps = some calls ∧
      After p "_start" e.trace [] [] [] calls stack ended := by
  have hbase : Base ([] : List (CalledFunction Lhs)) "_start" [] := by
    rw [Base, if_pos rfl]
  obtain ⟨calls, stack, ended, hrun, hafter⟩ := run_after e.trace e.wellNested hbase .nil
  exact ⟨calls, stack, ended, congrArg (Option.map CallState.calls) hrun, hafter⟩

/-- **Every recorded call holds the return assignment of its own invocation** if
and only if no invocation returns a value over an unnoticed end of another one
of the same function. -/
theorem calledFunctions_exact_iff {p : SteppedProgram} {Lhs : Type} (e : Execution p Lhs) :
    p.calledFunctions e.trace.steps = some (e.trace.records p) ↔ e.trace.Unambiguous p := by
  obtain ⟨calls, stack, ended, hcalls, hafter⟩ := e.run
  rw [hcalls, Option.some_inj]
  constructor
  · intro heq
    by_contra hamb
    exact (hafter.wrong hamb).ne heq
  · exact fun hunamb => (hafter.exact hunamb).1

namespace CallTrace

variable {Lhs : Type} {p : SteppedProgram}

/-- The functions of the invocations that end without a return assignment. -/
def silent (p : SteppedProgram) : CallTrace Lhs → List String
  | done => []
  | step _ rest => rest.silent p
  | call s _ body result rest =>
      (if result.isSome then [] else [callee p s]) ++ body.silent p ++ rest.silent p

/-- No function that returns a value has inside it an invocation of itself that
does not. -/
def Unmixed (p : SteppedProgram) : CallTrace Lhs → Prop
  | done => True
  | step _ rest => rest.Unmixed p
  | call s _ body result rest =>
      body.Unmixed p ∧ (result.isSome = true → callee p s ∉ body.silent p) ∧ rest.Unmixed p

theorem notice_subset (f : String) (pc : Location) (ended : List (Location × String)) :
    notice f pc ended ⊆ ended := by
  cases ended with
  | nil => exact List.Subset.refl _
  | cons e ended =>
      rw [notice]
      split_ifs
      · exact List.Subset.refl _
      · exact List.subset_cons_self e ended
      · exact List.subset_cons_of_subset e (List.dropWhile_sublist _).subset

theorem mem_silent_of_mem_unnoticed (t : CallTrace Lhs) {f : String}
    {ended : List (Location × String)} {e : Location × String}
    (he : e ∈ t.unnoticed p f ended) : e ∈ ended ∨ e.2 ∈ t.silent p := by
  induction t generalizing f ended with
  | done => exact Or.inl he
  | step s rest ih =>
      rcases ih he with he | he
      · refine Or.inl ?_
        split_ifs at he
        · exact he
        · exact notice_subset f s.pc ended he
      · exact Or.inr he
  | call s atCall body result rest ihbody ihrest =>
      rw [silent, List.mem_append, List.mem_append]
      rcases ihrest he with he | he
      · cases result with
        | some r => exact Or.inl (notice_subset f s.pc ended he)
        | none =>
            rcases List.mem_append.mp he with he | he
            · exact Or.inr (Or.inl (Or.inr ((ihbody he).resolve_left List.not_mem_nil)))
            · rcases List.mem_cons.mp he with rfl | he
              · exact Or.inr (Or.inl (Or.inl (by simp)))
              · exact Or.inl (notice_subset f s.pc ended he)
      · exact Or.inr (Or.inr he)

/-- Without recursion that mixes both kinds of ends nothing is ambiguous. -/
theorem Unmixed.unambiguous {t : CallTrace Lhs} (h : t.Unmixed p) : t.Unambiguous p := by
  induction t with
  | done => trivial
  | step s rest ih => exact ih h
  | call s atCall body result rest ihbody ihrest =>
      obtain ⟨hbody, hresult, hrest⟩ := h
      refine ⟨ihbody hbody, fun hsome e he hname => ?_, ihrest hrest⟩
      have hmem := (mem_silent_of_mem_unnoticed body he).resolve_left List.not_mem_nil
      exact hresult hsome (hname ▸ hmem)

end CallTrace

/-- So the records are exact if every function in a recursion ends in one way. -/
theorem calledFunctions_exact_of_unmixed {p : SteppedProgram} {Lhs : Type} (e : Execution p Lhs)
    (h : e.trace.Unmixed p) : p.calledFunctions e.trace.steps = some (e.trace.records p) := by
  obtain ⟨calls, stack, ended, hcalls, hafter⟩ := e.run
  rw [hcalls, (hafter.exact h.unambiguous).1, List.nil_append]

/-! ## A recursive function -/

/-- `_start` calls `main`, and `main` assigns the value of `f`.  `f` begins
with a call of itself whose value is not used. -/
def recursiveInstr (pc : Location) : Instruction where
  pc := (ofLex pc).2
  type :=
    match (ofLex pc).2 with
    | 0 => .functionCall
    | 1 => .return
    | _ => .endFunction
  code :=
    .functionCall <|
      if (ofLex pc).2 ≠ 0 then none
      else if (ofLex pc).1 = "_start" then some "main"
      else some "f"
  function := (ofLex pc).1
  sourceLocation := none
  guard := .isTrue
  targets := []
  labels := []

def recursiveProgram : SteppedProgram where
  instr := recursiveInstr
  next := fun pc => toLex ((ofLex pc).1, (ofLex pc).2 + 1)
  next_function := fun _ _ => rfl
  start_not_called := by
    intro pc h
    simp only [Instruction.callee, recursiveInstr] at h
    split_ifs at h <;> exact absurd h (by decide)

/-- The location step of an instruction. -/
def locationStep (f : String) (pc : Nat) : SsaStep String :=
  ⟨locationOf f pc, .location, .state, ""⟩

/-- The assignment step of the return of `f`. -/
def returnStep : SsaStep String := ⟨locationOf "f" 1, .assignment, .state, "main::x"⟩

/-- The inner invocation of `f` returns no value to anyone, the outer one does. -/
def recursiveExecution : Execution recursiveProgram String where
  trace :=
    .call (locationStep "_start" 0) []
      (.call (locationStep "main" 0) []
        (.call (locationStep "f" 0) [] (.step (locationStep "f" 1) .done) none
          (.step (locationStep "f" 1) .done))
        (some returnStep) (.step (locationStep "main" 1) .done))
      none .done
  wellNested := by
    simp [CallTrace.WellNested, CallTrace.callee, locationStep, returnStep, recursiveProgram,
      recursiveInstr, SteppedProgram.ignores, SteppedProgram.functionOf, isInstrumented,
      Instruction.callee, Instruction.isFunctionCall, Instruction.isReturn, locationOf]

/-- **The value of the outer invocation is recorded for the inner one.** -/
theorem recursiveExecution_swapped :
    recursiveProgram.calledFunctions recursiveExecution.trace.steps =
      some [⟨locationOf "_start" 0, "main", none⟩, ⟨locationOf "main" 0, "f", none⟩,
        ⟨locationOf "f" 0, "f", some "main::x"⟩] ∧
    recursiveExecution.trace.records recursiveProgram =
      [⟨locationOf "_start" 0, "main", none⟩, ⟨locationOf "main" 0, "f", some "main::x"⟩,
        ⟨locationOf "f" 0, "f", none⟩] ∧
    ¬∀ (p : SteppedProgram) (Lhs : Type) (e : Execution p Lhs),
      p.calledFunctions e.trace.steps = some (e.trace.records p) := by
  have hcode : recursiveProgram.calledFunctions recursiveExecution.trace.steps =
      some [⟨locationOf "_start" 0, "main", none⟩, ⟨locationOf "main" 0, "f", none⟩,
        ⟨locationOf "f" 0, "f", some "main::x"⟩] := by
    decide
  have hrecords : recursiveExecution.trace.records recursiveProgram =
      [⟨locationOf "_start" 0, "main", none⟩, ⟨locationOf "main" 0, "f", some "main::x"⟩,
        ⟨locationOf "f" 0, "f", none⟩] := by
    decide
  refine ⟨hcode, hrecords, fun h => ?_⟩
  have heq := h recursiveProgram String recursiveExecution
  rw [hcode, hrecords] at heq
  exact absurd heq (by decide)

end FShell
