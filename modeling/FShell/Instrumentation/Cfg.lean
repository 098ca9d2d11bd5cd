import FShell.Goto.GotoFunctions

/-!
# Control flow graphs

`CFG::compute_edges` visits all instructions of all functions with a body and
appends to lists of successors: mostly to that of the visited instruction,
and for a call also to that of the last instruction of the callee.

`ControlFlow` is the reference: where control goes from an instruction.  The
computed successors are these for every instruction, except for the two kinds
that `successors_iff` names: a start-thread instruction gets itself in place
of the next one, and a return in last position gets no successor.
-/

namespace FShell

/-! ## Computing the edges -/

/-- `CFG::entry_t`; the flag of a successor says that a jump leads there. -/
structure CfgEntry where
  successors : List (Location × Bool)
  predecessors : List Location
  deriving DecidableEq

/-- `CFG::entries_t`.  Looking at an entry creates it. -/
abbrev CfgEntries := Location → CfgEntry

namespace CfgEntries

/-- Before the first instruction. -/
def empty : CfgEntries := fun _ => ⟨[], []⟩

/-- `m_entries[at].successors.push_back(s)`. -/
def pushSuccessor (m : CfgEntries) (here : Location) (s : Location × Bool) : CfgEntries :=
  Function.update m here { m here with successors := (m here).successors ++ [s] }

/-- `m_entries[at].predecessors.push_back(p)`. -/
def pushPredecessor (m : CfgEntries) (here : Location) (p : Location) : CfgEntries :=
  Function.update m here { m here with predecessors := (m here).predecessors ++ [p] }

/-- `successors.push_back` for the next instruction, if there is one. -/
def pushNext (m : CfgEntries) (here : Location) (next : Option Location) : CfgEntries :=
  match next with
  | some l => m.pushSuccessor here (l, false)
  | none => m

/-- The loops over `instruction.targets`; a target is an iterator into the
same program. -/
def pushTargets (m : CfgEntries) (here : Location) (f : String) (body : List Instruction)
    (targets : List Nat) : CfgEntries :=
  targets.foldl (fun m t =>
    if t ∈ body.map Instruction.pc then m.pushSuccessor here (locationOf f t, true) else m) m

/-- `compute_edges(goto_functions, goto_program, PC)`. -/
def computeInstruction (gf : GotoFunctions) (f : String) (body : List Instruction)
    (m : CfgEntries) (i : Instruction) (nextPC : Option Instruction) : CfgEntries :=
  let here := locationOf f i.pc
  let next := nextPC.map fun j => locationOf f j.pc
  -- compute forward edges first
  let m :=
    if i.isGoto then
      let m := if i.guard ≠ .isTrue then m.pushNext here next else m
      m.pushTargets here f body i.targets
    else if i.isStartThread then
      let m := if nextPC.isSome then m.pushSuccessor here (here, false) else m
      m.pushTargets here f body i.targets
    else if i.isFunctionCall then
      match i.callee with
      | none => m
      | some identifier =>
          match gf.find identifier with
          | some fct =>
              if fct.bodyAvailable then
                match fct.body.head?, fct.body.getLast? with
                | some first, some last =>
                    -- nonempty function
                    let m := m.pushSuccessor here (locationOf identifier first.pc, false)
                    match next with
                    | some l =>
                        (m.pushNext (locationOf identifier last.pc) next).pushPredecessor l
                          (locationOf identifier last.pc)
                    | none => m
                | _, _ => m.pushNext here next
              else m.pushNext here next
          | none => m.pushNext here next
    else if i.isReturn then
      if nextPC.isSome then
        m.pushNext here (body.getLast?.map fun last => locationOf f last.pc)
      else m
    else m.pushNext here next
  -- now do backward edges
  (m here).successors.foldl (fun m s => m.pushPredecessor s.1 here) m

/-- `compute_edges(goto_functions, goto_program)`, from some instruction on. -/
def computeBody (gf : GotoFunctions) (f : String) (body : List Instruction) :
    List Instruction → CfgEntries → CfgEntries
  | [], m => m
  | i :: rest, m => computeBody gf f body rest (computeInstruction gf f body m i rest.head?)

/-- `compute_edges(goto_functions)`. -/
def computeEdges (m : CfgEntries) (gf : GotoFunctions) : CfgEntries :=
  gf.functionMap.foldl (fun m p =>
    if p.2.bodyAvailable then computeBody gf p.1 p.2.body p.2.body m else m) m

end CfgEntries

/-! ## The reference -/

/-- A function with a body, and an instruction of it. -/
structure InBody (gf : GotoFunctions) (f : String) (fct : GotoFunction) (i : Instruction) :
    Prop where
  find : gf.find f = some fct
  bodyAvailable : fct.bodyAvailable
  mem : i ∈ fct.body

/-- The instruction is neither of the kinds that leave for elsewhere. -/
def Instruction.isOrdinary (i : Instruction) : Bool :=
  !i.isGoto && !i.isStartThread && !i.isFunctionCall && !i.isReturn

/-- The five kinds exclude each other. -/
theorem Instruction.kinds (i : Instruction) :
    (i.isGoto = true ∧ i.isStartThread = false ∧ i.isFunctionCall = false ∧
      i.isReturn = false ∧ i.isOrdinary = false) ∨
    (i.isGoto = false ∧ i.isStartThread = true ∧ i.isFunctionCall = false ∧
      i.isReturn = false ∧ i.isOrdinary = false) ∨
    (i.isGoto = false ∧ i.isStartThread = false ∧ i.isFunctionCall = true ∧
      i.isReturn = false ∧ i.isOrdinary = false) ∨
    (i.isGoto = false ∧ i.isStartThread = false ∧ i.isFunctionCall = false ∧
      i.isReturn = true ∧ i.isOrdinary = false) ∨
    (i.isGoto = false ∧ i.isStartThread = false ∧ i.isFunctionCall = false ∧
      i.isReturn = false ∧ i.isOrdinary = true) := by
  unfold isOrdinary isGoto isStartThread isFunctionCall isReturn
  cases i.type <;> decide

/-- Control goes from the instruction `i` of `f` to a location. -/
inductive ControlFlow (gf : GotoFunctions) (f : String) (fct : GotoFunction) (i : Instruction) :
    Location → Prop
  | gotoTarget {t : Nat} (hgoto : i.isGoto) (ht : t ∈ i.targets)
      (hbody : t ∈ fct.body.map Instruction.pc) : ControlFlow gf f fct i (locationOf f t)
  | gotoNext {j : Instruction} (hgoto : i.isGoto) (hguard : i.guard ≠ .isTrue)
      (hnext : Consecutive fct.body i j) : ControlFlow gf f fct i (locationOf f j.pc)
  | threadTarget {t : Nat} (hthread : i.isStartThread) (ht : t ∈ i.targets)
      (hbody : t ∈ fct.body.map Instruction.pc) : ControlFlow gf f fct i (locationOf f t)
  | threadNext {j : Instruction} (hthread : i.isStartThread)
      (hnext : Consecutive fct.body i j) : ControlFlow gf f fct i (locationOf f j.pc)
  | call {g : String} {callee : GotoFunction} {first : Instruction} (hcall : i.isFunctionCall)
      (hcallee : i.callee = some g) (hfind : gf.find g = some callee)
      (hbody : callee.bodyAvailable) (hfirst : callee.body.head? = some first) :
      ControlFlow gf f fct i (locationOf g first.pc)
  | callNext {g : String} {j : Instruction} (hcall : i.isFunctionCall)
      (hcallee : i.callee = some g)
      (hnobody : ∀ callee, gf.find g = some callee → callee.bodyAvailable → callee.body = [])
      (hnext : Consecutive fct.body i j) : ControlFlow gf f fct i (locationOf f j.pc)
  | returnLast {last : Instruction} (hreturn : i.isReturn)
      (hlast : fct.body.getLast? = some last) : ControlFlow gf f fct i (locationOf f last.pc)
  | ordinaryNext {j : Instruction} (hordinary : i.isOrdinary)
      (hnext : Consecutive fct.body i j) : ControlFlow gf f fct i (locationOf f j.pc)
  | returnFrom {h : String} {caller : GotoFunction} {c j : Instruction}
      (hlast : fct.body.getLast? = some i) (hcaller : InBody gf h caller c)
      (hcall : c.isFunctionCall) (hcallee : c.callee = some f)
      (hnext : Consecutive caller.body c j) : ControlFlow gf f fct i (locationOf h j.pc)

/-! ## What one visit appends -/

namespace CfgEntries

/-- `dst` is among the successors of `src`. -/
def Leads (m : CfgEntries) (src dst : Location) : Prop := ∃ jump, (dst, jump) ∈ (m src).successors

variable {gf : GotoFunctions} {f : String} {body : List Instruction} {m : CfgEntries}
  {src dst here : Location}

@[simp] theorem leads_pushSuccessor {s : Location × Bool} :
    (m.pushSuccessor here s).Leads src dst ↔ m.Leads src dst ∨ (src = here ∧ dst = s.1) := by
  unfold Leads pushSuccessor
  by_cases h : src = here
  · subst h
    simp only [Function.update_self, List.mem_append, List.mem_singleton, true_and]
    constructor
    · intro hx
      obtain ⟨jump, hold | hnew⟩ := hx
      · exact Or.inl ⟨jump, hold⟩
      · exact Or.inr (congrArg Prod.fst hnew)
    · intro hx
      rcases hx with ⟨jump, hold⟩ | rfl
      · exact ⟨jump, Or.inl hold⟩
      · exact ⟨s.2, Or.inr rfl⟩
  · simp [h]

@[simp] theorem leads_pushPredecessor {p : Location} :
    (m.pushPredecessor here p).Leads src dst ↔ m.Leads src dst := by
  unfold Leads pushPredecessor
  by_cases h : src = here
  · subst h
    simp
  · simp [h]

@[simp] theorem leads_pushNext {next : Option Location} :
    (m.pushNext here next).Leads src dst ↔
      m.Leads src dst ∨ (src = here ∧ next = some dst) := by
  cases next with
  | none => simp [pushNext]
  | some l => simp [pushNext, eq_comm]

@[simp] theorem leads_pushTargets {targets : List Nat} :
    (m.pushTargets here f body targets).Leads src dst ↔
      m.Leads src dst ∨ (src = here ∧
        ∃ t ∈ targets, t ∈ body.map Instruction.pc ∧ dst = locationOf f t) := by
  induction targets generalizing m with
  | nil => simp [pushTargets]
  | cons t ts ih =>
      have hrest := ih (m := if t ∈ body.map Instruction.pc then
        m.pushSuccessor here (locationOf f t, true) else m)
      refine hrest.trans ?_
      rw [List.exists_mem_cons_iff]
      by_cases ht : t ∈ body.map Instruction.pc
      · rw [if_pos ht, leads_pushSuccessor]
        grind
      · rw [if_neg ht]
        grind

/-- The backward edges change no successor. -/
theorem leads_backward (ss : List (Location × Bool)) :
    (ss.foldl (fun m s => m.pushPredecessor s.1 here) m).Leads src dst ↔ m.Leads src dst := by
  induction ss generalizing m with
  | nil => exact Iff.rfl
  | cons s ss ih => exact ih.trans leads_pushPredecessor

/-- The call has nothing to enter. -/
def NoBody (gf : GotoFunctions) (g : String) : Prop :=
  ∀ callee, gf.find g = some callee → callee.bodyAvailable → callee.body = []

theorem noBody_of_find {g : String} {callee : GotoFunction} (hfind : gf.find g = some callee) :
    NoBody gf g ↔ (callee.bodyAvailable → callee.body = []) := by
  unfold NoBody
  simp [hfind]

/-- A jump target of `i`. -/
def Jumps (f : String) (body : List Instruction) (i : Instruction) (dst : Location) : Prop :=
  ∃ t ∈ i.targets, t ∈ body.map Instruction.pc ∧ dst = locationOf f t

/-- The successors of `i` itself on which code and reference agree. -/
def Agreed (gf : GotoFunctions) (f : String) (body : List Instruction) (i : Instruction)
    (next : Option Location) (dst : Location) : Prop :=
  (i.isGoto ∧ ((i.guard ≠ .isTrue ∧ next = some dst) ∨ Jumps f body i dst)) ∨
  (i.isStartThread ∧ Jumps f body i dst) ∨
  (i.isFunctionCall ∧ ∃ g, i.callee = some g ∧
    ((NoBody gf g ∧ next = some dst) ∨
      ∃ callee first, gf.find g = some callee ∧ callee.bodyAvailable ∧
        callee.body.head? = some first ∧ dst = locationOf g first.pc)) ∨
  (i.isOrdinary ∧ next = some dst)

/-- What the visit of `i` appends to the entry of `i`. -/
def Own (gf : GotoFunctions) (f : String) (body : List Instruction) (i : Instruction)
    (next : Option Location) (dst : Location) : Prop :=
  Agreed gf f body i next dst ∨
  (i.isStartThread ∧ next.isSome ∧ dst = locationOf f i.pc) ∨
  (i.isReturn ∧ next.isSome ∧ ∃ last, body.getLast? = some last ∧ dst = locationOf f last.pc)

/-- What the visit of `i` appends to the last entry of a callee. -/
def Returns (gf : GotoFunctions) (i : Instruction) (next : Option Location)
    (src dst : Location) : Prop :=
  i.isFunctionCall ∧ ∃ g, i.callee = some g ∧
    ∃ callee last, gf.find g = some callee ∧ callee.bodyAvailable ∧
      callee.body.getLast? = some last ∧ src = locationOf g last.pc ∧ next = some dst

/-- What the visit of `i` appends. -/
def Appends (gf : GotoFunctions) (f : String) (body : List Instruction) (i : Instruction)
    (nextPC : Option Instruction) (src dst : Location) : Prop :=
  (src = locationOf f i.pc ∧ Own gf f body i (nextPC.map fun j => locationOf f j.pc) dst) ∨
  Returns gf i (nextPC.map fun j => locationOf f j.pc) src dst

/-- **One visit.** -/
theorem leads_computeInstruction {i : Instruction} {nextPC : Option Instruction} :
    (computeInstruction gf f body m i nextPC).Leads src dst ↔
      m.Leads src dst ∨ Appends gf f body i nextPC src dst := by
  unfold computeInstruction
  rw [leads_backward]
  unfold Appends Own Agreed Returns
  obtain ⟨hg, ht, hc, hr, ho⟩ | ⟨hg, ht, hc, hr, ho⟩ | ⟨hg, ht, hc, hr, ho⟩ |
    ⟨hg, ht, hc, hr, ho⟩ | ⟨hg, ht, hc, hr, ho⟩ := i.kinds <;>
    simp only [hg, ht, hc, hr, ho, Bool.false_eq_true, false_and, false_or, or_false, true_and,
      if_true, if_false]
  · by_cases hguard : i.guard = .isTrue
    · simp only [hguard, ne_eq, not_true, if_false, leads_pushTargets, false_and, false_or, Jumps]
    · simp only [hguard, ne_eq, not_false_eq_true, if_true, leads_pushTargets, leads_pushNext,
        true_and, and_or_left, or_assoc, Jumps]
  · cases nextPC with
    | none => simp [Jumps]
    | some j =>
        simp only [Option.isSome_some, Option.map_some, if_true, leads_pushTargets,
          leads_pushSuccessor, true_and, and_or_left, or_assoc, Jumps]
        rw [or_comm (a := src = locationOf f i.pc ∧ dst = locationOf f i.pc)]
  · cases hcallee : i.callee with
    | none => simp
    | some g =>
        cases hfind : gf.find g with
        | none => simp [NoBody, hfind]
        | some callee =>
            simp only [Option.some.injEq, exists_eq_left', noBody_of_find hfind, hfind]
            by_cases hbody : callee.bodyAvailable
            · cases hlist : callee.body with
              | nil => simp [hbody, hlist]
              | cons first rest =>
                  obtain ⟨last, hlast⟩ : ∃ last, (first :: rest).getLast? = some last :=
                    ⟨_, List.getLast?_eq_some_getLast (List.cons_ne_nil first rest)⟩
                  cases nextPC with
                  | none => simp [hbody, hlist, hlast]
                  | some j => simp [hbody, hlist, hlast, or_assoc]
            · simp [hbody]
  · cases nextPC with
    | none => simp
    | some j =>
        simp only [Option.isSome_some, Option.map_some, if_true, leads_pushNext, true_and,
          Option.map_eq_some_iff, eq_comm (a := dst)]
  · exact leads_pushNext

/-! ## What all visits append -/

theorem leads_computeBody {rest : List Instruction} :
    (computeBody gf f body rest m).Leads src dst ↔
      m.Leads src dst ∨
        ∃ before i after, rest = before ++ i :: after ∧
          Appends gf f body i after.head? src dst := by
  induction rest generalizing m with
  | nil => simp [computeBody]
  | cons k rest ih =>
      have hsplit : (∃ before i after, k :: rest = before ++ i :: after ∧
          Appends gf f body i after.head? src dst) ↔
          Appends gf f body k rest.head? src dst ∨
            ∃ before i after, rest = before ++ i :: after ∧
              Appends gf f body i after.head? src dst := by
        constructor
        · intro h
          obtain ⟨before, i, after, heq, happ⟩ := h
          cases before with
          | nil =>
              obtain ⟨rfl, rfl⟩ := List.cons.inj heq
              exact Or.inl happ
          | cons b before =>
              obtain ⟨-, rfl⟩ := List.cons.inj heq
              exact Or.inr ⟨before, i, after, rfl, happ⟩
        · intro h
          rcases h with happ | ⟨before, i, after, rfl, happ⟩
          · exact ⟨[], k, rest, rfl, happ⟩
          · exact ⟨k :: before, i, after, rfl, happ⟩
      rw [hsplit, ← or_assoc, ← leads_computeInstruction]
      exact ih

/-- **All visits.** -/
theorem leads_computeEdges :
    (m.computeEdges gf).Leads src dst ↔
      m.Leads src dst ∨
        ∃ g fct before i after, gf.find g = some fct ∧ fct.bodyAvailable ∧
          fct.body = before ++ i :: after ∧ Appends gf g fct.body i after.head? src dst := by
  have hfold : ∀ (l : List (String × GotoFunction)) (m : CfgEntries),
      (l.foldl (fun m p =>
        if p.2.bodyAvailable then computeBody gf p.1 p.2.body p.2.body m else m) m).Leads src dst ↔
      m.Leads src dst ∨ ∃ p ∈ l, p.2.bodyAvailable ∧
        ∃ before i after, p.2.body = before ++ i :: after ∧
          Appends gf p.1 p.2.body i after.head? src dst := by
    intro l
    induction l with
    | nil => simp
    | cons p l ih =>
        intro m
        refine (ih _).trans ?_
        rw [List.exists_mem_cons_iff]
        by_cases hbody : p.2.bodyAvailable
        · simp only [hbody, if_true, true_and]
          rw [leads_computeBody, or_assoc]
        · simp only [hbody, Bool.false_eq_true, if_false, false_and, false_or]
  refine (hfold gf.functionMap m).trans (or_congr_right ?_)
  constructor
  · intro h
    obtain ⟨⟨g, fct⟩, hp, hbody, before, i, after, hsplit, happ⟩ := h
    exact ⟨g, fct, before, i, after, GotoFunctions.find_eq_some.mpr hp, hbody, hsplit, happ⟩
  · intro h
    obtain ⟨g, fct, before, i, after, hfind, hbody, hsplit, happ⟩ := h
    exact ⟨(g, fct), GotoFunctions.find_eq_some.mp hfind, hbody, before, i, after, hsplit, happ⟩

end CfgEntries

/-! ## The successors of an instruction -/

/-- The instruction comes after every call of its function, as the last one. -/
def CalledFrom (gf : GotoFunctions) (f : String) (fct : GotoFunction) (i : Instruction)
    (dst : Location) : Prop :=
  fct.body.getLast? = some i ∧ ∃ h caller c j, InBody gf h caller c ∧ c.isFunctionCall ∧
    c.callee = some f ∧ Consecutive caller.body c j ∧ dst = locationOf h j.pc

variable {gf : GotoFunctions} {f : String} {fct : GotoFunction} {i : Instruction}

/-- An iterator stands for one instruction. -/
theorem GotoFunction.eq_of_pc {k : Instruction} (hi : i ∈ fct.body) (hk : k ∈ fct.body)
    (hpc : k.pc = i.pc) : k = i :=
  List.inj_on_of_nodup_map fct.pcs_nodup hk hi hpc

/-- An instruction occurs once. -/
theorem GotoFunction.split_unique {before after before' after' : List Instruction}
    (h : fct.body = before ++ i :: after) (h' : fct.body = before' ++ i :: after') :
    before = before' ∧ after = after' := by
  have hnd : fct.body.Nodup := List.Nodup.of_map _ fct.pcs_nodup
  rw [h] at hnd
  have hno : i ∉ before := by
    intro hmem
    exact (List.nodup_append.mp hnd).2.2 i hmem i (List.mem_cons_self ..) rfl
  have hno' : i ∉ before' := by
    rw [← h, h'] at hnd
    intro hmem
    exact (List.nodup_append.mp hnd).2.2 i hmem i (List.mem_cons_self ..) rfl
  rw [h] at h'
  have hlen := congrArg (List.idxOf i) h'
  rw [List.idxOf_append_of_notMem hno, List.idxOf_append_of_notMem hno', List.idxOf_cons_self,
    List.idxOf_cons_self] at hlen
  obtain ⟨hb, ha⟩ := List.append_inj h' (by omega)
  exact ⟨hb, (List.cons.inj ha).2⟩

theorem GotoFunction.consecutive_iff {before after : List Instruction}
    (h : fct.body = before ++ i :: after) {j : Instruction} :
    Consecutive fct.body i j ↔ after.head? = some j := by
  constructor
  · intro hx
    obtain ⟨before', after', h'⟩ := hx
    obtain ⟨-, rfl⟩ := GotoFunction.split_unique h h'
    rfl
  · intro hhead
    obtain ⟨rest, rfl⟩ := List.head?_eq_some_iff.mp hhead
    exact ⟨before, rest, h⟩

theorem GotoFunction.getLast?_iff {before after : List Instruction}
    (h : fct.body = before ++ i :: after) : fct.body.getLast? = some i ↔ after.head? = none := by
  rw [List.head?_eq_none_iff]
  constructor
  · intro hlast
    obtain ⟨init, hinit⟩ := List.getLast?_eq_some_iff.mp hlast
    exact (GotoFunction.split_unique hinit h).2.symm
  · intro hafter
    rw [h, hafter, List.getLast?_append, List.getLast?_singleton, Option.some_or]

/-- **The computed successors.** -/
theorem leads_iff {before after : List Instruction} (hin : InBody gf f fct i)
    (hsplit : fct.body = before ++ i :: after) {dst : Location} :
    (CfgEntries.empty.computeEdges gf).Leads (locationOf f i.pc) dst ↔
      CfgEntries.Own gf f fct.body i (after.head?.map fun j => locationOf f j.pc) dst ∨
        CalledFrom gf f fct i dst := by
  have hempty : ¬ CfgEntries.empty.Leads (locationOf f i.pc) dst := by
    simp [CfgEntries.Leads, CfgEntries.empty]
  rw [CfgEntries.leads_computeEdges, or_iff_right hempty]
  constructor
  · intro hx
    obtain ⟨g, gn, before', k, after', hfind, hbody, hsplit', hown | hret⟩ := hx
    · obtain ⟨hsrc, hown⟩ := hown
      obtain ⟨rfl, hpc⟩ := locationOf_inj.mp hsrc
      obtain rfl : gn = fct := Option.some.inj (hfind.symm.trans hin.find)
      have hk : k ∈ gn.body := by rw [hsplit']; exact List.mem_append_cons_self
      obtain rfl : k = i := GotoFunction.eq_of_pc hin.mem hk hpc.symm
      obtain ⟨-, rfl⟩ := GotoFunction.split_unique hsplit hsplit'
      exact Or.inl hown
    · obtain ⟨hcall, h, hcallee, callee, last, hfind', -, hlast, hsrc, hnext⟩ := hret
      obtain ⟨rfl, hpc⟩ := locationOf_inj.mp hsrc
      obtain rfl : callee = fct := Option.some.inj (hfind'.symm.trans hin.find)
      obtain rfl : last = i :=
        GotoFunction.eq_of_pc hin.mem (List.mem_of_getLast? hlast) hpc.symm
      obtain ⟨j, hj, rfl⟩ := Option.map_eq_some_iff.mp hnext
      have hk : k ∈ gn.body := by rw [hsplit']; exact List.mem_append_cons_self
      exact Or.inr ⟨hlast, g, gn, k, j, ⟨hfind, hbody, hk⟩, hcall, hcallee,
        (GotoFunction.consecutive_iff hsplit').mpr hj, rfl⟩
  · intro hx
    rcases hx with hown | ⟨hlast, h, caller, c, j, hcaller, hcall, hcallee, hnext, rfl⟩
    · exact ⟨f, fct, before, i, after, hin.find, hin.bodyAvailable, hsplit, Or.inl ⟨rfl, hown⟩⟩
    · obtain ⟨before', after', hsplit'⟩ := List.append_of_mem hcaller.mem
      have hj := (GotoFunction.consecutive_iff hsplit').mp hnext
      refine ⟨h, caller, before', c, after', hcaller.find, hcaller.bodyAvailable, hsplit',
        Or.inr ⟨hcall, f, hcallee, fct, i, hin.find, hin.bodyAvailable, hlast, rfl, ?_⟩⟩
      rw [hj, Option.map_some]

/-- **The reference**, split the same way. -/
theorem controlFlow_iff {before after : List Instruction}
    (hsplit : fct.body = before ++ i :: after) {dst : Location} :
    ControlFlow gf f fct i dst ↔
      (CfgEntries.Agreed gf f fct.body i (after.head?.map fun j => locationOf f j.pc) dst ∨
        (i.isStartThread ∧ (after.head?.map fun j => locationOf f j.pc) = some dst) ∨
        (i.isReturn ∧ ∃ last, fct.body.getLast? = some last ∧ dst = locationOf f last.pc)) ∨
      CalledFrom gf f fct i dst := by
  have hnext {j : Instruction} : Consecutive fct.body i j →
      (after.head?.map fun j => locationOf f j.pc) = some (locationOf f j.pc) := by
    intro hcons
    rw [(GotoFunction.consecutive_iff hsplit).mp hcons, Option.map_some]
  constructor
  · intro hflow
    cases hflow with
    | gotoTarget hgoto ht hbody =>
        exact Or.inl (Or.inl (Or.inl ⟨hgoto, Or.inr ⟨_, ht, hbody, rfl⟩⟩))
    | gotoNext hgoto hguard hcons =>
        exact Or.inl (Or.inl (Or.inl ⟨hgoto, Or.inl ⟨hguard, hnext hcons⟩⟩))
    | threadTarget hthread ht hbody =>
        exact Or.inl (Or.inl (Or.inr (Or.inl ⟨hthread, _, ht, hbody, rfl⟩)))
    | threadNext hthread hcons => exact Or.inl (Or.inr (Or.inl ⟨hthread, hnext hcons⟩))
    | call hcall hcallee hfind hbody hfirst =>
        exact Or.inl (Or.inl (Or.inr (Or.inr (Or.inl
          ⟨hcall, _, hcallee, Or.inr ⟨_, _, hfind, hbody, hfirst, rfl⟩⟩))))
    | callNext hcall hcallee hnobody hcons =>
        exact Or.inl (Or.inl (Or.inr (Or.inr (Or.inl
          ⟨hcall, _, hcallee, Or.inl ⟨hnobody, hnext hcons⟩⟩))))
    | returnLast hreturn hlast => exact Or.inl (Or.inr (Or.inr ⟨hreturn, _, hlast, rfl⟩))
    | ordinaryNext hordinary hcons =>
        exact Or.inl (Or.inl (Or.inr (Or.inr (Or.inr ⟨hordinary, hnext hcons⟩))))
    | returnFrom hlast hcaller hcall hcallee hcons =>
        exact Or.inr ⟨hlast, _, _, _, _, hcaller, hcall, hcallee, hcons, rfl⟩
  · have hcons : (after.head?.map fun j => locationOf f j.pc) = some dst →
        ∃ j, Consecutive fct.body i j ∧ dst = locationOf f j.pc := by
      intro hdst
      obtain ⟨j, hj, rfl⟩ := Option.map_eq_some_iff.mp hdst
      exact ⟨j, (GotoFunction.consecutive_iff hsplit).mpr hj, rfl⟩
    intro hx
    rcases hx with ((⟨hgoto, ⟨hguard, hdst⟩ | ⟨t, ht, hbody, rfl⟩⟩ | ⟨hthread, t, ht, hbody, rfl⟩ |
        ⟨hcall, g, hcallee, ⟨hnobody, hdst⟩ | ⟨callee, first, hfind, hbody, hfirst, rfl⟩⟩ |
        ⟨hordinary, hdst⟩) | ⟨hthread, hdst⟩ | ⟨hreturn, last, hlast, rfl⟩) |
        ⟨hlast, h, caller, c, j, hcaller, hcall, hcallee, hj, rfl⟩
    · obtain ⟨j, hj, rfl⟩ := hcons hdst
      exact .gotoNext hgoto hguard hj
    · exact .gotoTarget hgoto ht hbody
    · exact .threadTarget hthread ht hbody
    · obtain ⟨j, hj, rfl⟩ := hcons hdst
      exact .callNext hcall hcallee hnobody hj
    · exact .call hcall hcallee hfind hbody hfirst
    · obtain ⟨j, hj, rfl⟩ := hcons hdst
      exact .ordinaryNext hordinary hj
    · obtain ⟨j, hj, rfl⟩ := hcons hdst
      exact .threadNext hthread hj
    · exact .returnLast hreturn hlast
    · exact .returnFrom hlast hcaller hcall hcallee hj

/-- Two distinct neighbours. -/
theorem GotoFunction.pc_ne_of_consecutive {j : Instruction} (h : Consecutive fct.body i j) :
    j.pc ≠ i.pc := by
  obtain ⟨before, after, hsplit⟩ := h
  have hnd := fct.pcs_nodup
  rw [hsplit, List.map_append, List.map_cons, List.map_cons] at hnd
  intro heq
  have hcons := (List.nodup_cons.mp (List.nodup_append.mp hnd).2.1).1
  exact hcons (heq ▸ List.mem_cons_self ..)

theorem jumps_locationOf {p : Nat} :
    CfgEntries.Jumps f fct.body i (locationOf f p) ↔
      p ∈ i.targets ∧ p ∈ fct.body.map Instruction.pc := by
  constructor
  · intro h
    obtain ⟨t, ht, hbody, heq⟩ := h
    obtain ⟨-, rfl⟩ := locationOf_inj.mp heq
    exact ⟨ht, hbody⟩
  · intro h
    obtain ⟨ht, hbody⟩ := h
    exact ⟨p, ht, hbody, rfl⟩

/-- The function calls itself just before its last instruction. -/
theorem calledFrom_self (hin : InBody gf f fct i) (hlast : fct.body.getLast? = some i) :
    CalledFrom gf f fct i (locationOf f i.pc) ↔
      ∃ c, Consecutive fct.body c i ∧ c.isFunctionCall ∧ c.callee = some f := by
  constructor
  · intro hx
    obtain ⟨-, h, caller, c, j, hcaller, hcall, hcallee, hcons, heq⟩ := hx
    obtain ⟨rfl, hpc⟩ := locationOf_inj.mp heq
    obtain rfl : caller = fct := Option.some.inj (hcaller.find.symm.trans hin.find)
    have hj : j ∈ caller.body := by
      obtain ⟨b, a, hsplit⟩ := hcons
      rw [hsplit]
      simp
    obtain rfl : j = i := GotoFunction.eq_of_pc hin.mem hj hpc.symm
    exact ⟨c, hcons, hcall, hcallee⟩
  · intro hx
    obtain ⟨c, hcons, hcall, hcallee⟩ := hx
    have hc : c ∈ fct.body := by
      obtain ⟨b, a, hsplit⟩ := hcons
      rw [hsplit]
      exact List.mem_append_cons_self
    exact ⟨hlast, f, fct, c, i, ⟨hin.find, hin.bodyAvailable, hc⟩, hcall, hcallee, hcons, rfl⟩

/-- A start-thread instruction with an instruction after it. -/
theorem thread_iff {j : Instruction} (hin : InBody gf f fct i)
    (hcons : Consecutive fct.body i j) :
    (∀ dst, CfgEntries.Jumps f fct.body i dst ∨ dst = locationOf f i.pc ↔
      CfgEntries.Jumps f fct.body i dst ∨ dst = locationOf f j.pc) ↔
    i.pc ∈ i.targets ∧ j.pc ∈ i.targets := by
  have hne := GotoFunction.pc_ne_of_consecutive hcons
  have hi : i.pc ∈ fct.body.map Instruction.pc := List.mem_map_of_mem hin.mem
  have hj : j.pc ∈ fct.body.map Instruction.pc := by
    obtain ⟨b, a, hsplit⟩ := hcons
    rw [hsplit]
    simp
  constructor
  · intro h
    have hself := (h (locationOf f i.pc)).mp (Or.inr rfl)
    have hnext := (h (locationOf f j.pc)).mpr (Or.inr rfl)
    rw [jumps_locationOf, locationOf_inj] at hself hnext
    constructor
    · obtain ⟨ht, -⟩ | ⟨-, heq⟩ := hself
      · exact ht
      · exact absurd heq.symm hne
    · obtain ⟨ht, -⟩ | ⟨-, heq⟩ := hnext
      · exact ht
      · exact absurd heq hne
  · intro hx dst
    obtain ⟨hti, htj⟩ := hx
    have hjumpi := (jumps_locationOf (f := f)).mpr ⟨hti, hi⟩
    have hjumpj := (jumps_locationOf (f := f)).mpr ⟨htj, hj⟩
    constructor
    · intro hx
      rcases hx with hjump | rfl
      · exact Or.inl hjump
      · exact Or.inl hjumpi
    · intro hx
      rcases hx with hjump | rfl
      · exact Or.inl hjump
      · exact Or.inl hjumpj

/-- **When the successors are the control flow.** -/
theorem successors_iff (hin : InBody gf f fct i) :
    (∀ dst, (CfgEntries.empty.computeEdges gf).Leads (locationOf f i.pc) dst ↔
      ControlFlow gf f fct i dst) ↔
    (i.isStartThread → ∀ j, Consecutive fct.body i j → i.pc ∈ i.targets ∧ j.pc ∈ i.targets) ∧
    (i.isReturn → fct.body.getLast? = some i →
      ∃ c, Consecutive fct.body c i ∧ c.isFunctionCall ∧ c.callee = some f) := by
  obtain ⟨before, after, hsplit⟩ := List.append_of_mem hin.mem
  have hlastiff := GotoFunction.getLast?_iff hsplit
  simp only [leads_iff hin hsplit, controlFlow_iff hsplit, CfgEntries.Own,
    GotoFunction.consecutive_iff hsplit]
  obtain ⟨hg, ht, hc, hr, ho⟩ | ⟨hg, ht, hc, hr, ho⟩ | ⟨hg, ht, hc, hr, ho⟩ |
    ⟨hg, ht, hc, hr, ho⟩ | ⟨hg, ht, hc, hr, ho⟩ := i.kinds
  · simp only [ht, hr, Bool.false_eq_true, false_and, false_imp_iff, implies_true, and_self]
  · simp only [CfgEntries.Agreed, hg, ht, hc, hr, ho, Bool.false_eq_true, false_and, true_and,
      false_or, or_false, false_imp_iff, true_imp_iff, and_true]
    cases hhead : after.head? with
    | none => simp
    | some j =>
        have hcons : Consecutive fct.body i j := (GotoFunction.consecutive_iff hsplit).mpr hhead
        have hno {dst : Location} : ¬ CalledFrom gf f fct i dst := by
          intro h
          obtain ⟨hlast, -⟩ := h
          rw [hlastiff.mp hlast] at hhead
          cases hhead
        simp only [Option.map_some, Option.isSome_some, true_and, Option.some.injEq, hno,
          or_false, forall_eq', eq_comm (a := locationOf f j.pc)]
        exact thread_iff hin hcons
  · simp only [ht, hr, Bool.false_eq_true, false_and, false_imp_iff, implies_true, and_self]
  · simp only [CfgEntries.Agreed, hg, ht, hc, hr, ho, Bool.false_eq_true, false_and, true_and,
      false_or, false_imp_iff, true_imp_iff, true_and]
    cases hhead : after.head? with
    | none =>
        have hlast := hlastiff.mpr hhead
        rw [← calledFrom_self hin hlast]
        simp [hlast]
    | some j =>
        have hlast : fct.body.getLast? ≠ some i := by
          rw [ne_eq, hlastiff, hhead]
          exact Option.some_ne_none j
        simp [hlast]
  · simp only [ht, hr, Bool.false_eq_true, false_and, false_imp_iff, implies_true, and_self]

/-! ## A thread

The instructions of `__CPROVER_ASYNC_1: f();`. -/

/-- An instruction of `main` at some line, otherwise plain. -/
def plainInstruction (pc : Nat) (type : InstructionType) (targets : List Nat) : Instruction :=
  ⟨pc, type, .none, "main", none, .isTrue, targets, []⟩

/-- `START_THREAD 1; GOTO 2; 1: f(); END_THREAD; 2: SKIP; END_FUNCTION`. -/
def asyncMain : GotoFunction where
  bodyAvailable := true
  isInlined := false
  body := [plainInstruction 0 .startThread [2], plainInstruction 1 .goto [4],
    plainInstruction 2 .other [], plainInstruction 3 .endThread [],
    plainInstruction 4 .skip [], plainInstruction 5 .endFunction []]
  pcs_nodup := by decide

def asyncProgram : GotoFunctions where
  functionMap := [("main", asyncMain)]
  names_nodup := by decide

/-- `if(c) f(); f();`, with `f` an expression and its end. -/
def callsMain : GotoFunction where
  bodyAvailable := true
  isInlined := false
  body := [{ plainInstruction 0 .goto [2] with guard := .condition 0 },
    { plainInstruction 1 .functionCall [] with code := .functionCall (some "f") },
    { plainInstruction 2 .functionCall [] with code := .functionCall (some "f") },
    plainInstruction 3 .endFunction []]
  pcs_nodup := by decide

def calledTwice : GotoFunction where
  bodyAvailable := true
  isInlined := false
  body := [plainInstruction 0 .other [], plainInstruction 1 .endFunction []]
  pcs_nodup := by decide

def callsProgram : GotoFunctions where
  functionMap := [("main", callsMain), ("f", calledTwice)]
  names_nodup := by decide

/-- The end of `f`, where its calls meet, and the branch in front of them. -/
theorem successors_iff_callsProgram :
    (∀ dst, (CfgEntries.empty.computeEdges callsProgram).Leads (locationOf "f" 1) dst ↔
      ControlFlow callsProgram "f" calledTwice (plainInstruction 1 .endFunction []) dst) ∧
    ∀ dst, (CfgEntries.empty.computeEdges callsProgram).Leads (locationOf "main" 0) dst ↔
      ControlFlow callsProgram "main" callsMain
        { plainInstruction 0 .goto [2] with guard := .condition 0 } dst := by
  constructor
  · have hin : InBody callsProgram "f" calledTwice (plainInstruction 1 .endFunction []) :=
      ⟨rfl, rfl, by decide⟩
    refine (successors_iff hin).mpr ⟨?_, ?_⟩
    · intro h
      cases h
    · intro h
      cases h
  · have hin : InBody callsProgram "main" callsMain
        { plainInstruction 0 .goto [2] with guard := .condition 0 } := ⟨rfl, rfl, by decide⟩
    refine (successors_iff hin).mpr ⟨?_, ?_⟩
    · intro h
      cases h
    · intro h
      cases h

/-- **A start-thread instruction does not lead to the next one.** -/
theorem startThread_not_next : ¬ ∀ gf f fct i, InBody gf f fct i → ∀ dst,
    ((CfgEntries.empty.computeEdges gf).Leads (locationOf f i.pc) dst ↔
      ControlFlow gf f fct i dst) := by
  intro h
  have hin : InBody asyncProgram "main" asyncMain (plainInstruction 0 .startThread [2]) :=
    ⟨rfl, rfl, by decide⟩
  have hflow : ControlFlow asyncProgram "main" asyncMain (plainInstruction 0 .startThread [2])
      (locationOf "main" (plainInstruction 1 .goto [4]).pc) :=
    .threadNext rfl ⟨[], _, rfl⟩
  have hnot : ¬ (CfgEntries.empty.computeEdges asyncProgram).Leads (locationOf "main" 0)
      (locationOf "main" 1) := by
    unfold CfgEntries.Leads
    decide +kernel
  exact hnot ((h _ _ _ _ hin _).mpr hflow)

end FShell
