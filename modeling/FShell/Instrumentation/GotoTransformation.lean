import FShell.Automata.ControlGraph
import FShell.Goto.GotoFunctions

/-!
# Inserting into goto programs

`GOTO_Transformation::insert` runs over the instructions of a function and inserts
a copy of a program before, or after, each one of some type.  `insert_at` first
redirects the jumps to the instruction: it goes through the incoming edges and
replaces their targets.  A return has an edge to the last instruction of the
function, but no target that could be replaced.

The meaning of a body is the control graph with the edges of `get_successors`; a call
is one operation there, and so is what the callee does to the data.  An insertion
before an instruction is right when the new body realizes the graph `insertBefore` of
the old one.  For one call of `insert_at` it does, unless a return leads to the
instruction (`OneInsertion.realizes_result`).
-/

namespace FShell.GotoTransformation

/-! ## Programs -/

/-- `goto_programt`: the instructions, and what `update()` computes of them, the
incoming edges and which instructions have a target number. -/
structure GotoProgram where
  instructions : List Instruction
  incomingEdges : Nat → List Nat
  isTarget : Nat → Bool

/-- The instruction that an iterator stands for. -/
def instructionAt (is : List Instruction) (p : Nat) : Option Instruction :=
  is.find? fun k => k.pc = p

/-- `++iter`. -/
def nextOf (is : List Instruction) (p : Nat) : Option Nat :=
  (is.dropWhile fun k => k.pc ≠ p).tail.head?.map Instruction.pc

/-- `--iter`. -/
def previousOf (is : List Instruction) (p : Nat) : Option Nat :=
  (is.takeWhile fun k => k.pc ≠ p).getLast?.map Instruction.pc

/-- `--instructions.end()`. -/
def lastOf (is : List Instruction) : Option Nat := is.getLast?.map Instruction.pc

/-- `get_successors(target, successors)`. -/
def getSuccessors (is : List Instruction) (i : Instruction) : List Nat :=
  let next := (nextOf is i.pc).toList
  if i.isGoto then i.targets ++ (if i.guard ≠ .isTrue then next else [])
  else if i.isStartThread then i.targets ++ next
  else if i.type = .endThread then [] -- no successors
  else if i.type = .throw then [] -- the successors are non-obvious
  else if i.isReturn then (lastOf is).toList
  else if i.type = .assume then (if i.guard ≠ .isFalse then next else [])
  else next

/-- `update()`. -/
def update (is : List Instruction) : GotoProgram where
  instructions := is
  incomingEdges p := (is.filter fun i => p ∈ getSuccessors is i).map Instruction.pc
  isTarget p := is.any fun i => p ∈ i.targets

/-- `update()` changes no instruction. -/
@[simp] theorem update_instructions {is : List Instruction} : (update is).instructions = is := rfl

/-! ## Copies -/

/-- An iterator that is not in use. -/
def freshPc (is : List Instruction) : Nat := (is.map Instruction.pc).foldr max 0 + 1

/-- `targets_mapping` of a copy whose first iterator is `base`. -/
def copyPc (prg : List Instruction) (base p : Nat) : Nat :=
  base + (prg.map Instruction.pc).idxOf p

/-- An instruction and its targets at other places. -/
def relocate (place : Nat → Nat) (i : Instruction) : Instruction :=
  { i with pc := place i.pc, targets := i.targets.map place }

/-- `copy_from(src)`. -/
def copyFrom (base : Nat) (src : List Instruction) : Except String (List Instruction) :=
  if src.all fun i => i.targets.all fun t => t ∈ src.map Instruction.pc then
    .ok (src.map (relocate (copyPc src base)))
  else .error "copy_from: target not found"

/-- `mark_instrumented(inst)`. -/
def markInstrumented (l : Option SourceLocation) : Option SourceLocation :=
  some { l.getD ⟨"", "", "", ""⟩ with propertyId := "fshell2_instrumentation" }

/-- `set_annotations(src, target)` for an instruction of `target`. -/
def annotate (src i : Instruction) : Instruction :=
  { i with function := src.function, sourceLocation := markInstrumented src.sourceLocation }

/-! ## Insertion -/

/-- The loop over `targets`. -/
def retarget (node start : Nat) (i : Instruction) : Instruction :=
  { i with targets := i.targets.map fun t => if t = node then start else t }

/-- The loop over `incoming_edges`. -/
def redirect (is : List Instruction) (incoming : List Nat) (node start : Nat) :
    List Instruction :=
  incoming.foldl (fun is p => is.map fun i => if i.pc = p then retarget node start i else i) is

/-- `destructive_insert(target, p)`. -/
def destructiveInsert (is : List Instruction) (node : Nat) (prg : List Instruction) :
    List Instruction :=
  (is.takeWhile fun k => k.pc ≠ node) ++ prg ++ is.dropWhile fun k => k.pc ≠ node

/-- `insert_at(node, prg)`, with `m_inserted`; no result when `node` is the end, which
is looked into. -/
def insertAt (P : GotoProgram) (node : Nat) (prg : List Instruction) :
    Option (GotoProgram × List Nat) :=
  match prg with
  | [] => some (P, [])
  | first :: rest =>
      (instructionAt P.instructions node).map fun i =>
        let is :=
          if P.isTarget node then redirect P.instructions (P.incomingEdges node) node first.pc
          else P.instructions
        let is := destructiveInsert is node ((first :: rest).map (annotate i))
        (update is, (previousOf is node).toList)

/-- `position_t`. -/
inductive Position
  | before
  | after
  deriving DecidableEq

/-- `iter`, moved behind what was inserted before it. -/
def behind (is : List Instruction) (inserted : List Nat) (iter : Nat) : Option Nat :=
  match inserted.getLast? with
  | some back => nextOf is back
  | none => some iter

/-- The loop of `insert`; no result when it does not end within `fuel` rounds, or goes
wrong. -/
def insertLoop (pos : Position) (stmtType : InstructionType) (prg : List Instruction) :
    Nat → GotoProgram → Option Nat → List Nat → Except String (Option (GotoProgram × List Nat))
  | _, P, none, collector => .ok (some (P, collector))
  | 0, _, some _, _ => .ok none
  | fuel + 1, P, some iter, collector =>
      match instructionAt P.instructions iter with
      | none => .ok none
      | some i =>
          if i.type = stmtType then do
            let tmp ← copyFrom (freshPc P.instructions) prg
            match pos with
            | .before =>
                match insertAt P iter tmp with
                | none => return none
                | some (P, inserted) =>
                    let iter := behind P.instructions inserted iter
                    insertLoop pos stmtType prg fuel P (iter.bind (nextOf P.instructions))
                      (collector ++ inserted)
            | .after =>
                match (nextOf P.instructions iter).bind fun next => insertAt P next tmp with
                | none => return none
                | some (P, inserted) =>
                    let iter := inserted.getLast?.getD iter
                    insertLoop pos stmtType prg fuel P (nextOf P.instructions iter)
                      (collector ++ inserted)
          else insertLoop pos stmtType prg fuel P (nextOf P.instructions iter) collector

/-- `GOTO_Transformation::insert(f, pos, stmt_type, prg)`. -/
def insert (gf : GotoFunctions) (f : String) (pos : Position) (stmtType : InstructionType)
    (prg : List Instruction) (fuel : Nat) : Except String (Option (GotoProgram × List Nat)) :=
  match gf.find f with
  | none => .error ("Function " ++ f ++ " not found in goto program")
  | some fct =>
      if fct.body = [] then .error ("Body of function " ++ f ++ " not available")
      else if fct.isInlined then .error "Cannot instrument inlined functions"
      else insertLoop pos stmtType prg fuel (update fct.body)
        (fct.body.head?.map Instruction.pc) []

/-! ## What a program does -/

/-- What is executed at an instruction. -/
structure Operation where
  type : InstructionType
  code : Code
  guard : Guard
  deriving DecidableEq

/-- How control leaves an instruction: to the next one, to a target, or to the last
one of the function. -/
inductive Outcome
  | next
  | jump (n : Nat)
  | toEnd
  deriving DecidableEq

def operation (i : Instruction) : Operation := ⟨i.type, i.code, i.guard⟩

/-- The cases of `get_successors`. -/
def Operation.allows (op : Operation) : Outcome → Bool
  | .next => match op.type with
      | .goto => op.guard ≠ .isTrue
      | .assume => op.guard ≠ .isFalse
      | .endThread | .throw | .return => false
      | _ => true
  | .jump _ => op.type = .goto || op.type = .startThread
  | .toEnd => op.type = .return

/-- Where an outcome leads that occurs. -/
def destination (is : List Instruction) (i : Instruction) : Outcome → Option (Option Nat)
  | .next => some (nextOf is i.pc)
  | .jump n => i.targets[n]?.map some
  | .toEnd => (lastOf is).map some

/-- The control graph of a body.  Behind its last instruction a function is left. -/
def controlGraph (is : List Instruction) : ControlGraph Operation Outcome Nat where
  entry := is.head?.map Instruction.pc
  op p := ((instructionAt is p).map operation).getD ⟨.noInstructionType, .none, .isTrue⟩
  dest p o := (instructionAt is p).bind fun i =>
    if (operation i).allows o then destination is i o else none

/-! ## Iterators -/

/-- `i` is where the iterator `p` points to. -/
structure SplitAt (is : List Instruction) (p : Nat) (a : List Instruction) (i : Instruction)
    (b : List Instruction) : Prop where
  eq : is = a ++ i :: b
  pc_eq : i.pc = p
  not_mem : p ∉ a.map Instruction.pc

section Iterators

variable {is a b c : List Instruction} {p : Nat} {i : Instruction}

/-- A list with the iterator can be split there. -/
theorem exists_splitAt (hp : p ∈ is.map Instruction.pc) : ∃ a i b, SplitAt is p a i b := by
  induction is with
  | nil => cases hp
  | cons k is ih =>
      by_cases hk : k.pc = p
      · exact ⟨[], k, is, rfl, hk, List.not_mem_nil⟩
      · have htail : p ∈ is.map Instruction.pc :=
          (List.mem_cons.mp hp).resolve_left fun h => hk h.symm
        obtain ⟨a, i, b, heq, hpc, hno⟩ := ih htail
        refine ⟨k :: a, i, b, by rw [heq, List.cons_append], hpc, ?_⟩
        intro hmem
        rcases List.mem_cons.mp hmem with h | h
        · exact hk h.symm
        · exact hno h

/-- Where iterators are distinct, every split at an instruction is the one. -/
theorem splitAt_of_nodup (hnd : (is.map Instruction.pc).Nodup) (heq : is = a ++ i :: b) :
    SplitAt is i.pc a i b := by
  refine ⟨heq, rfl, ?_⟩
  rw [heq, List.map_append, List.map_cons] at hnd
  intro hmem
  exact (List.nodup_append.mp hnd).2.2 _ hmem _ List.mem_cons_self rfl

namespace SplitAt

variable (h : SplitAt is p a i b)

include h

/-- The instruction is in the list. -/
theorem mem : i ∈ is := by
  rw [h.eq]
  exact List.mem_append_cons_self

/-- Its iterator is in the list. -/
theorem mem_pcs : p ∈ is.map Instruction.pc := h.pc_eq ▸ List.mem_map_of_mem h.mem

/-- The iterator does not come earlier. -/
theorem forall_before : ∀ k ∈ a, decide (k.pc ≠ p) = true := by
  intro k hk
  refine decide_eq_true ?_
  intro heq
  subst heq
  exact h.not_mem (List.mem_map_of_mem hk)

/-- What is left when the search stops. -/
theorem dropWhile_eq : (is.dropWhile fun k => k.pc ≠ p) = i :: b := by
  rw [h.eq, List.dropWhile_append_of_pos h.forall_before,
    List.dropWhile_cons_of_neg (by simp [h.pc_eq])]

/-- What the search has passed. -/
theorem takeWhile_eq : (is.takeWhile fun k => k.pc ≠ p) = a := by
  rw [h.eq, List.takeWhile_append_of_pos h.forall_before,
    List.takeWhile_cons_of_neg (by simp [h.pc_eq]), List.append_nil]

/-- The instruction is found. -/
theorem instructionAt_eq : instructionAt is p = some i := by
  have hbefore : a.find? (fun k => decide (k.pc = p)) = none := by
    rw [List.find?_eq_none]
    intro k hk
    simpa using h.forall_before k hk
  rw [instructionAt, h.eq, List.find?_append, hbefore, Option.none_or,
    List.find?_cons_of_pos (by simp [h.pc_eq])]

/-- `++iter` is the first iterator behind it. -/
theorem nextOf_eq : nextOf is p = b.head?.map Instruction.pc := by
  rw [nextOf, h.dropWhile_eq, List.tail_cons]

/-- `--iter` is the last iterator in front of it. -/
theorem previousOf_eq : previousOf is p = a.getLast?.map Instruction.pc := by
  rw [previousOf, h.takeWhile_eq]

/-- The last instruction is this one or behind it. -/
theorem lastOf_eq : lastOf is = lastOf (i :: b) := by
  rw [lastOf, h.eq, List.getLast?_append_of_ne_nil _ (List.cons_ne_nil i b), lastOf]

/-- A split survives a list in front that does not have the iterator. -/
theorem append_left (hc : p ∉ c.map Instruction.pc) : SplitAt (c ++ is) p (c ++ a) i b where
  eq := by rw [h.eq, List.append_assoc]
  pc_eq := h.pc_eq
  not_mem := by
    rw [List.map_append, List.mem_append]
    exact fun hmem => hmem.elim hc h.not_mem

/-- A split survives any list behind. -/
theorem append_right (c : List Instruction) : SplitAt (is ++ c) p a i (b ++ c) where
  eq := by rw [h.eq, List.append_assoc, List.cons_append]
  pc_eq := h.pc_eq
  not_mem := h.not_mem

/-- The instructions at other places. -/
theorem map {g : Instruction → Instruction} {place : Nat → Nat}
    (hg : ∀ k ∈ is, (g k).pc = place k.pc)
    (hinj : ∀ q ∈ is.map Instruction.pc, place q = place p → q = p) :
    SplitAt (is.map g) (place p) (a.map g) (g i) (b.map g) where
  eq := by rw [h.eq, List.map_append, List.map_cons]
  pc_eq := by rw [hg i h.mem, h.pc_eq]
  not_mem := by
    intro hmem
    obtain ⟨k', hk', hpc⟩ := List.mem_map.mp hmem
    obtain ⟨k, hk, rfl⟩ := List.mem_map.mp hk'
    have hmem : k ∈ is := by
      rw [h.eq]
      exact List.mem_append_left _ hk
    rw [hg k hmem] at hpc
    have hkp := hinj k.pc (List.mem_map_of_mem hmem) hpc
    exact h.not_mem (hkp ▸ List.mem_map_of_mem hk)

/-- The instructions at the same places. -/
theorem map_pcs {g : Instruction → Instruction} (hg : ∀ k, (g k).pc = k.pc) :
    SplitAt (is.map g) p (a.map g) (g i) (b.map g) :=
  h.map (fun k _ => hg k) fun _ _ hq => hq

end SplitAt

end Iterators

/-! ## Edges -/

section Edges

variable {is : List Instruction} {i : Instruction} {p q : Nat} {o : Outcome}

/-- Where an outcome leads, from an instruction that is found. -/
theorem dest_eq (hi : instructionAt is p = some i) : (controlGraph is).dest p o =
    if (operation i).allows o then destination is i o else none := by
  simp only [controlGraph, hi, Option.bind_some]

/-- The operation of an instruction that is found. -/
theorem op_eq (hi : instructionAt is p = some i) : (controlGraph is).op p = operation i := by
  simp only [controlGraph, hi, Option.map_some, Option.getD_some]

/-- Where control goes: to the next instruction, to a target, or to the last one. -/
theorem exists_dest (hi : instructionAt is i.pc = some i) :
    (∃ o, (controlGraph is).dest i.pc o = some (some q)) ↔
      ((operation i).allows .next ∧ nextOf is i.pc = some q) ∨
      ((operation i).allows (.jump 0) ∧ q ∈ i.targets) ∨
      ((operation i).allows .toEnd ∧ lastOf is = some q) := by
  constructor
  · intro h
    obtain ⟨o, hdest⟩ := h
    rw [dest_eq hi] at hdest
    split_ifs at hdest with hallows
    cases o with
    | next => exact Or.inl ⟨hallows, Option.some.inj hdest⟩
    | jump n =>
        obtain ⟨t, ht, heq⟩ := Option.map_eq_some_iff.mp hdest
        exact Or.inr (Or.inl ⟨hallows, Option.some.inj heq ▸ List.mem_of_getElem? ht⟩)
    | toEnd =>
        obtain ⟨t, ht, heq⟩ := Option.map_eq_some_iff.mp hdest
        exact Or.inr (Or.inr ⟨hallows, Option.some.inj heq ▸ ht⟩)
  · intro h
    rcases h with ⟨hallows, hq⟩ | ⟨hallows, hq⟩ | ⟨hallows, hq⟩
    · exact ⟨.next, by rw [dest_eq hi, if_pos hallows, destination, hq]⟩
    · obtain ⟨n, hn⟩ := List.mem_iff_getElem?.mp hq
      have hjump : (operation i).allows (.jump n) := hallows
      exact ⟨.jump n, by rw [dest_eq hi, if_pos hjump, destination, hn]; rfl⟩
    · exact ⟨.toEnd, by rw [dest_eq hi, if_pos hallows, destination, hq]; rfl⟩

/-- **The edges** of the control graph are those of `get_successors`. -/
theorem mem_getSuccessors (hi : instructionAt is i.pc = some i) :
    q ∈ getSuccessors is i ↔ ∃ o, (controlGraph is).dest i.pc o = some (some q) := by
  rw [exists_dest hi, getSuccessors]
  cases htype : i.type <;>
    simp [Instruction.isGoto, Instruction.isStartThread, Instruction.isReturn, htype,
      Operation.allows, operation]
  · by_cases hguard : i.guard = .isTrue <;> simp [hguard, or_comm]
  · exact or_comm

end Edges

/-! ## One insertion -/

/-- What becomes of a target. -/
def redirectedTo (node start t : Nat) : Nat := if t = node then start else t

/-- What `insert_at` makes of an instruction that is there. -/
def redirected (is : List Instruction) (node start : Nat) (k : Instruction) : Instruction :=
  if (update is).isTarget node = true ∧ k.pc ∈ (update is).incomingEdges node then
    retarget node start k
  else k

section Redirect

variable {is : List Instruction} {node start : Nat} {k : Instruction}

/-- Other targets are no other iterator. -/
@[simp] theorem retarget_pc : (retarget node start k).pc = k.pc := rfl

/-- Redirecting changes no iterator. -/
@[simp] theorem redirected_pc : (redirected is node start k).pc = k.pc := by
  unfold redirected
  split_ifs <;> rfl

/-- Redirecting changes no operation. -/
@[simp] theorem redirected_operation :
    operation (redirected is node start k) = operation k := by
  unfold redirected
  split_ifs <;> rfl

/-- Redirecting a jump a second time does nothing. -/
theorem retarget_retarget (hne : start ≠ node) :
    retarget node start (retarget node start k) = retarget node start k := by
  have hfix : ((fun t => if t = node then start else t) ∘ fun t => if t = node then start else t) =
      fun t => if t = node then start else t := by
    funext t
    by_cases ht : t = node <;> simp [ht, hne]
  simp only [retarget, List.map_map, hfix]

/-- The loop over the incoming edges changes each instruction once. -/
theorem redirect_eq (hne : start ≠ node) (incoming : List Nat) (is : List Instruction) :
    redirect is incoming node start =
      is.map fun k => if k.pc ∈ incoming then retarget node start k else k := by
  induction incoming generalizing is with
  | nil => simp [redirect]
  | cons p incoming ih =>
      have hstep : redirect is (p :: incoming) node start =
          redirect (is.map fun k => if k.pc = p then retarget node start k else k) incoming node
            start := rfl
      rw [hstep, ih, List.map_map]
      congr 1
      funext k
      rw [Function.comp_apply]
      by_cases hp : k.pc = p
      · by_cases hmem : p ∈ incoming <;> simp [hp, hmem, retarget_retarget hne]
      · simp [hp]

/-- **Every jump to the instruction is redirected.** -/
theorem redirected_targets (hk : k ∈ is) (hjump : (operation k).allows (.jump 0) = true) :
    (redirected is node start k).targets = k.targets.map (redirectedTo node start) := by
  unfold redirected
  split_ifs with hcond
  · rfl
  · have hno : node ∉ k.targets := by
      intro hnode
      refine hcond ⟨?_, ?_⟩
      · exact List.any_eq_true.mpr ⟨k, hk, by simpa using hnode⟩
      · refine List.mem_map_of_mem (List.mem_filter.mpr ⟨hk, ?_⟩)
        have hkind : k.isGoto = true ∨ k.isStartThread = true := by
          rw [← Bool.or_eq_true]
          exact hjump
        rw [getSuccessors]
        split_ifs with hgoto hthread
        · simp [hnode]
        · simp [hnode]
        · simp [hnode]
        all_goals exact absurd hkind (by simp [*])
    have hmap : ∀ t ∈ k.targets, redirectedTo node start t = t := by
      intro t ht
      refine if_neg ?_
      intro heq
      subst heq
      exact hno ht
    rw [List.map_congr_left hmap, List.map_id']

end Redirect

/-- The instructions after one insertion. -/
def spliced (is a b tmp : List Instruction) (node start : Nat) (i : Instruction) :
    List Instruction :=
  a.map (redirected is node start) ++
    (tmp.map (annotate i) ++ redirected is node start i :: b.map (redirected is node start))

/-- **What `insert_at` does.** -/
theorem insertAt_eq {is a b tmp : List Instruction} {node start : Nat} {i : Instruction}
    (hsplit : SplitAt is node a i b) (hstart : tmp.head?.map Instruction.pc = some start)
    (htmp : node ∉ tmp.map Instruction.pc) :
    insertAt (update is) node tmp =
      some (update (spliced is a b tmp node start i), (lastOf tmp).toList) := by
  cases tmp with
  | nil => cases hstart
  | cons first rest =>
      obtain rfl : first.pc = start := Option.some.inj hstart
      have hne : first.pc ≠ node := fun heq => htmp (heq ▸ List.mem_cons_self)
      have hredirect : (if (update is).isTarget node then
          redirect is ((update is).incomingEdges node) node first.pc else is) =
          is.map (redirected is node first.pc) := by
        split_ifs with htarget
        · rw [redirect_eq hne]
          congr 1
          funext k
          simp only [redirected, htarget, true_and]
        · have hid : redirected is node first.pc = id := by
            funext k
            simp [redirected, htarget]
          rw [hid, List.map_id]
      have hmap : SplitAt (is.map (redirected is node first.pc)) node _ _ _ :=
        hsplit.map_pcs fun k => redirected_pc
      have hinsert : destructiveInsert (is.map (redirected is node first.pc)) node
          ((first :: rest).map (annotate i)) = spliced is a b (first :: rest) node first.pc i := by
        rw [destructiveInsert, hmap.takeWhile_eq, hmap.dropWhile_eq, List.append_assoc, spliced]
      have hprevious : previousOf (spliced is a b (first :: rest) node first.pc i) node =
          lastOf (first :: rest) := by
        have hafter : SplitAt (spliced is a b (first :: rest) node first.pc i) node
            (a.map (redirected is node first.pc) ++ (first :: rest).map (annotate i))
            (redirected is node first.pc i) (b.map (redirected is node first.pc)) := by
          refine ⟨by rw [spliced, List.append_assoc], by simp [hsplit.pc_eq], ?_⟩
          rw [List.map_append, List.mem_append]
          intro h
          rcases h with hmem | hmem
          · exact hmap.not_mem hmem
          · refine htmp ?_
            rw [List.map_map] at hmem
            exact hmem
        rw [hafter.previousOf_eq, List.getLast?_append_of_ne_nil _ (by simp), List.getLast?_map,
          Option.map_map]
        rfl
      change (instructionAt is node).map _ = _
      rw [hsplit.instructionAt_eq, Option.map_some]
      simp only [update_instructions, hredirect, hinsert, hprevious]

/-! ## The control graph after one insertion -/

/-- The targets are iterators into the program itself. -/
def Closed (is : List Instruction) : Prop :=
  ∀ i ∈ is, ∀ t ∈ i.targets, t ∈ is.map Instruction.pc

instance (is : List Instruction) : Decidable (Closed is) :=
  inferInstanceAs (Decidable (∀ i ∈ is, ∀ t ∈ i.targets, t ∈ is.map Instruction.pc))

/-- The last iterator is one of the list. -/
theorem lastOf_mem {is : List Instruction} {p : Nat} (h : lastOf is = some p) :
    p ∈ is.map Instruction.pc := by
  obtain ⟨i, hi, rfl⟩ := Option.map_eq_some_iff.mp h
  exact List.mem_map_of_mem (List.mem_of_getLast? hi)

/-- The next iterator is one of the list. -/
theorem SplitAt.next_mem {is a b : List Instruction} {p q : Nat} {i : Instruction}
    (h : SplitAt is p a i b) (hq : b.head?.map Instruction.pc = some q) :
    q ∈ is.map Instruction.pc := by
  obtain ⟨j, hj, rfl⟩ := Option.map_eq_some_iff.mp hq
  refine List.mem_map_of_mem ?_
  rw [h.eq]
  exact List.mem_append_right _ (List.mem_cons_of_mem _ (List.mem_of_head? hj))

/-- Control stays in the program. -/
theorem reaches_mem {is : List Instruction} (hclosed : Closed is) {q : Option Nat}
    (hq : (controlGraph is).Reaches q) : ∀ p, q = some p → p ∈ is.map Instruction.pc := by
  induction hq with
  | entry =>
      intro p hp
      obtain ⟨i, hi, rfl⟩ := Option.map_eq_some_iff.mp hp
      exact List.mem_map_of_mem (List.mem_of_head? hi)
  | @step p' o q _ hdest ih =>
      intro p heq
      subst heq
      obtain ⟨a, i, b, hsplit⟩ := exists_splitAt (ih p' rfl)
      obtain rfl := hsplit.pc_eq
      have hat := hsplit.instructionAt_eq
      obtain ⟨-, hq⟩ | ⟨-, hq⟩ | ⟨-, hq⟩ := (exists_dest hat).mp ⟨o, hdest⟩
      · rw [hsplit.nextOf_eq] at hq
        exact hsplit.next_mem hq
      · exact hclosed i hsplit.mem p hq
      · exact lastOf_mem hq

/-- The places after the insertion of a copy: the iterators that were there stay. -/
def placeOf (place : Nat → Nat) : Inserted Nat Nat → Nat
  | .plain p => p
  | .copy _ k => place k

/-- What one insertion is about: an instruction of a program, the program that is
inserted, and the iterators that its copy gets. -/
structure OneInsertion where
  is : List Instruction
  node : Nat
  a : List Instruction
  i : Instruction
  b : List Instruction
  split : SplitAt is node a i b
  nodup : (is.map Instruction.pc).Nodup
  closed : Closed is
  first : Instruction
  rest : List Instruction
  prg_nodup : ((first :: rest).map Instruction.pc).Nodup
  prg_closed : Closed (first :: rest)
  place : Nat → Nat
  inj : ∀ k ∈ (first :: rest).map Instruction.pc, ∀ k' ∈ (first :: rest).map Instruction.pc,
    place k' = place k → k' = k
  fresh : ∀ k ∈ (first :: rest).map Instruction.pc, place k ∉ is.map Instruction.pc

namespace OneInsertion

variable (s : OneInsertion)

def prg : List Instruction := s.first :: s.rest

/-- Where the copy begins. -/
def start : Nat := s.place s.first.pc

def old (k : Instruction) : Instruction := redirected s.is s.node s.start k

/-- An instruction of the copy. -/
def new (k : Instruction) : Instruction := annotate s.i (relocate s.place k)

def result : List Instruction :=
  spliced s.is s.a s.b (s.prg.map (relocate s.place)) s.node s.start s.i

/-- The result of an insertion: what was in front, the copies, the instruction and the rest. -/
theorem result_eq : s.result = s.a.map s.old ++ (s.prg.map s.new ++ s.old s.i :: s.b.map s.old) := by
  rw [result, spliced, List.map_map]
  rfl

/-- Old instructions keep their iterators. -/
@[simp] theorem old_pc (k : Instruction) : (s.old k).pc = k.pc := redirected_pc

/-- The copies have the new iterators. -/
@[simp] theorem new_pc (k : Instruction) : (s.new k).pc = s.place k.pc := rfl

/-- The iterator of the insertion is nowhere else. -/
theorem ne_node {j : Instruction} (hj : j ∈ s.a ++ s.b) : j.pc ≠ s.node := by
  have hnd := s.nodup
  rw [s.split.eq, List.map_append, List.map_cons, s.split.pc_eq, List.nodup_middle,
    ← List.map_append] at hnd
  intro heq
  exact (List.nodup_cons.mp hnd).1 (heq ▸ List.mem_map_of_mem hj)

/-- Old instructions keep their iterators, all together. -/
theorem map_old_pcs (l : List Instruction) :
    (l.map s.old).map Instruction.pc = l.map Instruction.pc := by
  rw [List.map_map]
  exact List.map_congr_left fun k _ => s.old_pc k

/-- The iterators of the copies. -/
theorem map_new_pcs (l : List Instruction) :
    (l.map s.new).map Instruction.pc = (l.map Instruction.pc).map s.place := by
  rw [List.map_map, List.map_map]
  exact List.map_congr_left fun k _ => s.new_pc k

/-- No old iterator is that of a copy. -/
theorem not_mem_new {p : Nat} (hp : p ∈ s.is.map Instruction.pc) :
    p ∉ (s.prg.map s.new).map Instruction.pc := by
  rw [s.map_new_pcs]
  intro hmem
  obtain ⟨k, hk, rfl⟩ := List.mem_map.mp hmem
  exact s.fresh k hk hp

/-- The first instruction of a piece that does not have the iterator. -/
theorem head_old {l : List Instruction} (hl : ∀ j ∈ l, j.pc ≠ s.node) :
    (l.map s.old).head?.map Instruction.pc =
      (l.head?.map Instruction.pc).map (redirectedTo s.node s.start) := by
  cases l with
  | nil => rfl
  | cons j l => simp [redirectedTo, hl j List.mem_cons_self]

/-- The instructions that were there. -/
theorem exists_old {p : Nat} (hp : p ∈ s.is.map Instruction.pc) :
    ∃ a₁ k b₁ a₂ b₂, SplitAt s.is p a₁ k b₁ ∧ SplitAt s.result p a₂ (s.old k) b₂ ∧
      b₂.head?.map Instruction.pc =
        (b₁.head?.map Instruction.pc).map (redirectedTo s.node s.start) := by
  have hmap {l a₁ b₁ : List Instruction} {k : Instruction} (h : SplitAt l p a₁ k b₁) :
      SplitAt (l.map s.old) p (a₁.map s.old) (s.old k) (b₁.map s.old) :=
    h.map_pcs s.old_pc
  have hp' := hp
  rw [s.split.eq, List.map_append, List.map_cons, List.mem_append, List.mem_cons,
    s.split.pc_eq] at hp'
  rw [s.result_eq]
  by_cases hbefore : p ∈ s.a.map Instruction.pc
  · obtain ⟨a₁, k, a₂, hsplit⟩ := exists_splitAt hbefore
    refine ⟨_, _, _, _, _, s.split.eq ▸ hsplit.append_right _, (hmap hsplit).append_right _, ?_⟩
    cases a₂ with
    | nil => simp [prg, start, redirectedTo, s.split.pc_eq]
    | cons j a₂ =>
        have hj : j ∈ s.a := by
          rw [hsplit.eq]
          simp
        simp [redirectedTo, s.ne_node (List.mem_append_left _ hj)]
  · have hnew := s.not_mem_new hp
    have hbefore' : p ∉ (s.a.map s.old ++ s.prg.map s.new).map Instruction.pc := by
      rw [List.map_append, s.map_old_pcs, List.mem_append]
      exact fun h => h.elim hbefore hnew
    rw [← List.append_assoc]
    rcases hp'.resolve_left hbefore with rfl | hafter
    · have hself : SplitAt (s.i :: s.b) s.node [] s.i s.b := ⟨rfl, s.split.pc_eq, List.not_mem_nil⟩
      refine ⟨_, _, _, _, _, s.split, (hmap hself).append_left hbefore', ?_⟩
      exact s.head_old fun j hj => s.ne_node (List.mem_append_right _ hj)
    · obtain ⟨b₁, k, b₂, hsplit⟩ := exists_splitAt hafter
      have hne : p ∉ [s.i].map Instruction.pc := by
        have hk := s.ne_node (List.mem_append_right s.a hsplit.mem)
        rw [hsplit.pc_eq] at hk
        simp [s.split.pc_eq, hk]
      have hcons := hsplit.append_left hne
      refine ⟨_, _, _, _, _, s.split.eq ▸ hcons.append_left hbefore,
        (hmap hcons).append_left hbefore', ?_⟩
      refine s.head_old fun j hj => s.ne_node (List.mem_append_right _ ?_)
      rw [hsplit.eq]
      exact List.mem_append_right _ (List.mem_cons_of_mem _ hj)

/-- The instructions of the copy. -/
theorem exists_new {k : Nat} (hk : k ∈ s.prg.map Instruction.pc) :
    ∃ a₁ c b₁ a₂ b₂, SplitAt s.prg k a₁ c b₁ ∧ SplitAt s.result (s.place k) a₂ (s.new c) b₂ ∧
      b₂.head?.map Instruction.pc =
        some (((b₁.head?.map Instruction.pc).map s.place).getD s.node) := by
  obtain ⟨a₁, c, b₁, hsplit⟩ := exists_splitAt hk
  have hmap : SplitAt (s.prg.map s.new) (s.place k) _ _ _ :=
    hsplit.map (fun c _ => s.new_pc c) fun k' hk' h => s.inj k hk k' hk' h
  have hbefore : s.place k ∉ (s.a.map s.old).map Instruction.pc := by
    rw [s.map_old_pcs]
    intro hmem
    refine s.fresh k hk ?_
    rw [s.split.eq, List.map_append]
    exact List.mem_append_left _ hmem
  have hresult := (hmap.append_right (s.old s.i :: s.b.map s.old)).append_left hbefore
  rw [← s.result_eq] at hresult
  refine ⟨_, _, _, _, _, hsplit, hresult, ?_⟩
  cases b₁ with
  | nil => simp [s.split.pc_eq]
  | cons j b₁ => simp

/-- The result is split at the same instruction. -/
theorem split_result : SplitAt s.result s.node (s.a.map s.old ++ s.prg.map s.new) (s.old s.i)
    (s.b.map s.old) where
  eq := by rw [s.result_eq, List.append_assoc]
  pc_eq := by rw [s.old_pc, s.split.pc_eq]
  not_mem := by
    rw [List.map_append, s.map_old_pcs, List.mem_append]
    exact fun h => h.elim s.split.not_mem (s.not_mem_new s.split.mem_pcs)

/-- Behind the copy comes the instruction. -/
theorem nextOf_last {k : Nat} (hk : lastOf s.prg = some k) :
    nextOf s.result (s.place k) = some s.node := by
  obtain ⟨a₁, c, b₁, _, b₂, hsplit, hresult, hnext⟩ := s.exists_new (lastOf_mem hk)
  have hb : b₁ = [] := by
    by_contra hne
    have hnd := s.prg_nodup
    change (s.prg.map _).Nodup at hnd
    rw [hsplit.eq, List.map_append, List.map_cons] at hnd
    rw [hsplit.lastOf_eq, lastOf, List.getLast?_cons_of_ne_nil hne] at hk
    refine (List.nodup_cons.mp (List.nodup_append.mp hnd).2.1).1 ?_
    rw [hsplit.pc_eq]
    exact lastOf_mem hk
  rw [hresult.nextOf_eq, hnext, hb]
  rfl

/-- The last instruction is the same. -/
theorem lastOf_result : lastOf s.result = lastOf s.is := by
  have hmap : lastOf (s.old s.i :: s.b.map s.old) = lastOf (s.i :: s.b) := by
    have hpcs := s.map_old_pcs (s.i :: s.b)
    rw [List.map_cons] at hpcs
    rw [lastOf, lastOf, ← List.getLast?_map, ← List.getLast?_map, hpcs]
  rw [s.split.lastOf_eq, ← hmap, s.result_eq, ← List.append_assoc, lastOf,
    List.getLast?_append_of_ne_nil _ (List.cons_ne_nil _ _), lastOf]

/-- The entry is redirected like a jump. -/
theorem entry_result : (controlGraph s.result).entry =
    (controlGraph s.is).entry.map (redirectedTo s.node s.start) := by
  change s.result.head?.map _ = (s.is.head?.map _).map _
  rw [s.result_eq, s.split.eq]
  cases ha : s.a with
  | nil => simp [prg, start, redirectedTo, s.split.pc_eq]
  | cons j a =>
      have hj := s.ne_node (List.mem_append_left s.b (ha ▸ List.mem_cons_self : j ∈ s.a))
      simp [redirectedTo, hj]

/-- Entering the copy is following the redirected jump. -/
theorem placeOf_enter (p : Nat) :
    placeOf s.place ((controlGraph s.prg).enter (fun q => decide (q = s.node)) p) =
      redirectedTo s.node s.start p := by
  by_cases hp : p = s.node
  · rw [ControlGraph.enter_of_here (by simpa using hp), redirectedTo, if_pos hp]
    rfl
  · rw [ControlGraph.enter_of_not_here (by simpa using hp), redirectedTo, if_neg hp]
    rfl

/-- **One insertion is right**, unless a return leads to the instruction. -/
theorem realizes_result
    (hreturn : lastOf s.is = some s.node → ∀ p, (controlGraph s.is).Reaches (some p) →
      ((controlGraph s.is).op p).type ≠ .return)
    (hprg : ∀ k, (controlGraph s.prg).Reaches (some k) →
      ((controlGraph s.prg).op k).type ≠ .return) :
    ControlGraph.Realizes (controlGraph s.result)
      ((controlGraph s.is).insertBefore (controlGraph s.prg) fun p => decide (p = s.node))
      (placeOf s.place) := by
  have hcomp : placeOf s.place ∘ (controlGraph s.prg).enter (fun q => decide (q = s.node)) =
      redirectedTo s.node s.start := funext s.placeOf_enter
  refine ⟨?_, ?_, ?_⟩
  · rw [s.entry_result, ControlGraph.insertBefore_entry, Option.map_map, hcomp]
  · intro x hx
    have hparts := ControlGraph.parts_of_reaches hx
    cases x with
    | plain p =>
        obtain ⟨_, k, _, _, _, hold, hresult, -⟩ := s.exists_old (reaches_mem s.closed hparts p rfl)
        rw [placeOf, op_eq hresult.instructionAt_eq, ControlGraph.insertBefore_op_plain,
          op_eq hold.instructionAt_eq]
        exact redirected_operation
    | copy p k =>
        obtain ⟨-, -, hk⟩ := hparts
        obtain ⟨_, c, _, _, _, hold, hresult, -⟩ :=
          s.exists_new (reaches_mem s.prg_closed hk k rfl)
        rw [placeOf, op_eq hresult.instructionAt_eq, ControlGraph.insertBefore_op_copy,
          op_eq hold.instructionAt_eq]
        rfl
  · intro x o hx
    have hparts := ControlGraph.parts_of_reaches hx
    cases x with
    | plain p =>
        obtain ⟨_, k, b₁, _, b₂, hold, hresult, hnext⟩ :=
          s.exists_old (reaches_mem s.closed hparts p rfl)
        have hop : operation (s.old k) = operation k := redirected_operation
        rw [placeOf, dest_eq hresult.instructionAt_eq, ControlGraph.insertBefore_dest_plain,
          dest_eq hold.instructionAt_eq, hop, Option.map_map, Option.map_comp_map, hcomp]
        split_ifs with hallows
        · cases o with
          | next =>
              rw [destination, destination, s.old_pc, hold.pc_eq, hresult.nextOf_eq, hnext,
                hold.nextOf_eq]
              rfl
          | jump n =>
              have htargets : (s.old k).targets = k.targets.map (redirectedTo s.node s.start) :=
                redirected_targets hold.mem hallows
              rw [destination, destination, htargets, List.getElem?_map, Option.map_map,
                Option.map_map]
              rfl
          | toEnd =>
              have hlast : (lastOf s.is).map (redirectedTo s.node s.start) = lastOf s.is := by
                cases hlast : lastOf s.is with
                | none => rfl
                | some l =>
                    have hl : l ≠ s.node := by
                      intro heq
                      subst heq
                      refine hreturn hlast p hparts ?_
                      rw [op_eq hold.instructionAt_eq]
                      exact of_decide_eq_true hallows
                    rw [Option.map_some, redirectedTo, if_neg hl]
              rw [destination, destination, s.lastOf_result, Option.map_map]
              nth_rewrite 1 [← hlast]
              rw [Option.map_map]
              rfl
        · rfl
    | copy p k =>
        obtain ⟨hp, hhere, hk⟩ := hparts
        obtain ⟨_, c, b₁, _, b₂, hold, hresult, hnext⟩ :=
          s.exists_new (reaches_mem s.prg_closed hk k rfl)
        have hop : operation (s.new c) = operation c := rfl
        obtain rfl : p = s.node := of_decide_eq_true hhere
        have hwithin (q : Option Nat) : placeOf s.place (ControlGraph.within s.node q) =
            (q.map s.place).getD s.node := by
          cases q <;> rfl
        rw [placeOf, dest_eq hresult.instructionAt_eq, ControlGraph.insertBefore_dest_copy,
          dest_eq hold.instructionAt_eq, hop, Option.map_map]
        split_ifs with hallows
        · cases o with
          | next =>
              rw [destination, destination, s.new_pc, hold.pc_eq, hresult.nextOf_eq, hnext,
                hold.nextOf_eq, Option.map_some, Function.comp_apply, Option.map_some, hwithin]
          | jump n =>
              have htargets : (s.new c).targets = c.targets.map s.place := rfl
              rw [destination, destination, htargets, List.getElem?_map, Option.map_map,
                Option.map_map]
              rfl
          | toEnd =>
              refine absurd ?_ (hprg k hk)
              rw [op_eq hold.instructionAt_eq]
              exact of_decide_eq_true hallows
        · rfl

/-! ## The instructions after one insertion -/

/-- The iterators of the result, in order. -/
theorem result_pcs : s.result.map Instruction.pc =
    s.a.map Instruction.pc ++
      ((s.prg.map Instruction.pc).map s.place ++ s.node :: s.b.map Instruction.pc) := by
  rw [s.result_eq, List.map_append, List.map_append, List.map_cons, s.map_old_pcs, s.map_old_pcs,
    s.map_new_pcs, s.old_pc, s.split.pc_eq]

/-- The iterators of the result are the old ones and those of the copies. -/
theorem result_perm : (s.result.map Instruction.pc).Perm
    ((s.prg.map Instruction.pc).map s.place ++ s.is.map Instruction.pc) := by
  rw [s.result_pcs, s.split.eq, List.map_append, List.map_cons, s.split.pc_eq]
  exact List.perm_append_comm_assoc _ _ _

/-- The iterators stay distinct. -/
theorem nodup_result : (s.result.map Instruction.pc).Nodup := by
  refine s.result_perm.nodup_iff.mpr (List.nodup_append.mpr ⟨?_, s.nodup, ?_⟩)
  · exact s.prg_nodup.map_on fun k hk k' hk' h => s.inj k' hk' k hk h
  · intro p hp q hq heq
    subst heq
    obtain ⟨k, hk, rfl⟩ := List.mem_map.mp hp
    exact s.fresh k hk hq

/-- An iterator of the result is one of the copies or an old one. -/
theorem mem_result_pcs {p : Nat} : p ∈ s.result.map Instruction.pc ↔
    (∃ k ∈ s.prg.map Instruction.pc, s.place k = p) ∨ p ∈ s.is.map Instruction.pc := by
  rw [s.result_perm.mem_iff, List.mem_append, List.mem_map]

/-- All jumps of the result stay inside. -/
theorem closed_result : Closed s.result := by
  have hold : ∀ k ∈ s.is, ∀ t ∈ (s.old k).targets, t ∈ s.result.map Instruction.pc := by
    intro k hk t ht
    rw [s.mem_result_pcs]
    unfold old redirected at ht
    split_ifs at ht
    · obtain ⟨t', ht', rfl⟩ := List.mem_map.mp ht
      by_cases heq : t' = s.node
      · rw [if_pos heq]
        exact Or.inl ⟨s.first.pc, List.mem_cons_self, rfl⟩
      · rw [if_neg heq]
        exact Or.inr (s.closed k hk t' ht')
    · exact Or.inr (s.closed k hk t ht)
  have hnew : ∀ k ∈ s.prg, ∀ t ∈ (s.new k).targets, t ∈ s.result.map Instruction.pc := by
    intro k hk t ht
    obtain ⟨t', ht', rfl⟩ := List.mem_map.mp ht
    exact s.mem_result_pcs.mpr (Or.inl ⟨t', s.prg_closed k hk t' ht', rfl⟩)
  intro j hj
  rw [s.result_eq, List.mem_append, List.mem_append, List.mem_cons, List.mem_map, List.mem_map,
    List.mem_map] at hj
  rcases hj with ⟨k, hk, rfl⟩ | ⟨k, hk, rfl⟩ | rfl | ⟨k, hk, rfl⟩
  · exact hold k (by rw [s.split.eq]; exact List.mem_append_left _ hk)
  · exact hnew k hk
  · exact hold s.i s.split.mem
  · exact hold k (by
      rw [s.split.eq]
      exact List.mem_append_right _ (List.mem_cons_of_mem _ hk))

end OneInsertion

/-- What is found is in the list. -/
theorem mem_of_instructionAt {is : List Instruction} {p : Nat} {i : Instruction}
    (h : instructionAt is p = some i) : i ∈ is ∧ i.pc = p :=
  ⟨List.mem_of_find?_eq_some h, by simpa using List.find?_some h⟩

end FShell.GotoTransformation
