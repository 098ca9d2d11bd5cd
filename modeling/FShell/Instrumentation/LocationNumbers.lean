import FShell.Instrumentation.GotoTransformation

/-!
# Location numbers

`update()` numbers the instructions of a program.  It belongs to the goto
programs library; `LocationNumbering` says what is relied on, that the numbers
of each function increase along its list.  `insert_at`, and through it `insert`,
ends with an update, so every state of the program that is seen in between has
such numbers.

An insertion leaves the instructions that were there in their order, and what it
adds takes the function name of an instruction next to it (`KeepsBody`).
-/

namespace FShell

/-- The functions with other instructions in `f`. -/
def GotoFunctions.withBody (gf : GotoFunctions) (f : String) (body : List Instruction)
    (hnd : (body.map Instruction.pc).Nodup) : GotoFunctions where
  functionMap := gf.functionMap.map fun p =>
    if p.1 = f then (p.1, { p.2 with body := body, pcs_nodup := hnd }) else p
  names_nodup := by
    have hnames : ∀ p : String × GotoFunction, (if p.1 = f then
        (p.1, ({ p.2 with body := body, pcs_nodup := hnd } : GotoFunction)) else p).1 = p.1 := by
      intro p
      split_ifs <;> rfl
    rw [List.map_map]
    exact (List.map_congr_left fun p _ => hnames p) ▸ gf.names_nodup

namespace GotoTransformation

/-! ## Numbers -/

/-- The numbers increase along each function. -/
def InListOrder (gf : GotoFunctions) (number : Location → Nat) : Prop :=
  ∀ f fct, (f, fct) ∈ gf.functionMap →
    fct.body.Pairwise fun i j => number (locationOf f i.pc) < number (locationOf f j.pc)

/-- The numbers also increase from one function of the map to the next. -/
def InMapOrder (gf : GotoFunctions) (number : Location → Nat) : Prop :=
  gf.locations.Pairwise fun a b => number a < number b

/-- `goto_functionst`, with the location numbers that its last update gave. -/
structure NumberedFunctions where
  functions : GotoFunctions
  locationNumber : Location → Nat
  inListOrder : InListOrder functions locationNumber

/-- What `goto_functionst::update()` does to the location numbers. -/
structure LocationNumbering where
  number : GotoFunctions → Location → Nat
  inListOrder : ∀ gf, InListOrder gf (number gf)

/-- `goto_functionst::update()`. -/
def LocationNumbering.update (u : LocationNumbering) (gf : GotoFunctions) : NumberedFunctions :=
  ⟨gf, u.number gf, u.inListOrder gf⟩

/-- It uses one counter for all functions. -/
def LocationNumbering.InMapOrder (u : LocationNumbering) : Prop :=
  ∀ gf, GotoTransformation.InMapOrder gf (u.number gf)

/-! ## Insertions into a program -/

variable (u : LocationNumbering) (P : NumberedFunctions)

/-- The functions after an update with another body of `f`.  There is no result for
iterators that are not distinct, which no list has. -/
def replaceBody (f : String) (body : List Instruction) : Option NumberedFunctions :=
  if hnd : (body.map Instruction.pc).Nodup then some (u.update (P.functions.withBody f body hnd))
  else none

/-- `insert_at(node, prg)`. -/
def insertAtNode (node : Location) (prg : List Instruction) :
    Option (NumberedFunctions × List Location) :=
  if prg = [] then some (P, [])
  else do
    let fct ← P.functions.find (ofLex node).1
    let (B, inserted) ← insertAt (GotoTransformation.update fct.body) (ofLex node).2 prg
    let Q ← replaceBody u P (ofLex node).1 B.instructions
    return (Q, inserted.map (locationOf (ofLex node).1))

/-- `insert(f, pos, stmt_type, prg)`; nothing is updated if nothing is inserted. -/
def insertInto (f : String) (pos : Position) (stmtType : InstructionType)
    (prg : List Instruction) (fuel : Nat) :
    Except String (Option (NumberedFunctions × List Location)) := do
  let r ← insert P.functions f pos stmtType prg fuel
  return r.bind fun (B, inserted) =>
    if inserted = [] then some (P, [])
    else (replaceBody u P f B.instructions).map fun Q => (Q, inserted.map (locationOf f))

/-! ## What an insertion keeps -/

/-- An iterator and the function name there. -/
def nameAt (i : Instruction) : Nat × String := (i.pc, i.function)

/-- The instructions of `body` are in `body'`, in their order and with their
function names, and `body'` has no other names. -/
structure KeepsBody (body body' : List Instruction) : Prop where
  sublist : (body.map nameAt).Sublist (body'.map nameAt)
  names : ∀ i' ∈ body', ∃ i ∈ body, i'.function = i.function

/-- The functions are the same, and their bodies are kept. -/
def KeepsOrder (gf gf' : GotoFunctions) : Prop :=
  List.Forall₂ (fun p p' => p.1 = p'.1 ∧ KeepsBody p.2.body p'.2.body) gf.functionMap
    gf'.functionMap

section KeepsBody

variable {body body' body'' : List Instruction} {node start : Nat}

/-- A body is kept when nothing happens. -/
theorem KeepsBody.refl (body : List Instruction) : KeepsBody body body :=
  ⟨List.Sublist.refl _, fun i hi => ⟨i, hi, rfl⟩⟩

/-- Kept twice is kept. -/
theorem KeepsBody.trans (h : KeepsBody body body') (h' : KeepsBody body' body'') :
    KeepsBody body body'' where
  sublist := h.sublist.trans h'.sublist
  names := by
    intro i'' hi''
    obtain ⟨i', hi', heq'⟩ := h'.names i'' hi''
    obtain ⟨i, hi, heq⟩ := h.names i' hi'
    exact ⟨i, hi, heq'.trans heq⟩

/-- The iterators stay in their order. -/
theorem KeepsBody.pcs (h : KeepsBody body body') :
    (body.map Instruction.pc).Sublist (body'.map Instruction.pc) := by
  have hfst := h.sublist.map Prod.fst
  rwa [List.map_map, List.map_map] at hfst

/-- Redirecting jumps changes targets only. -/
theorem map_redirect {κ : Type*} {key : Instruction → κ}
    (hkey : ∀ i, key (retarget node start i) = key i) (incoming : List Nat)
    (is : List Instruction) : (redirect is incoming node start).map key = is.map key := by
  induction incoming generalizing is with
  | nil => rfl
  | cons p incoming ih =>
      rw [redirect, List.foldl_cons]
      refine (ih _).trans ?_
      rw [List.map_map]
      refine List.map_congr_left ?_
      intro i _
      rw [Function.comp_apply]
      split_ifs
      · exact hkey i
      · rfl

/-- The same names are the names of the body. -/
theorem exists_of_map_nameAt {is : List Instruction} (h : is.map nameAt = body.map nameAt)
    {i' : Instruction} (hi' : i' ∈ is) : ∃ i ∈ body, i'.function = i.function := by
  have hmem : nameAt i' ∈ body.map nameAt := h ▸ List.mem_map_of_mem hi'
  obtain ⟨i, hi, heq⟩ := List.mem_map.mp hmem
  exact ⟨i, hi, (congrArg Prod.snd heq).symm⟩

/-- Splicing in a program leaves the others in their order. -/
theorem sublist_destructiveInsert (is prg : List Instruction) :
    is.Sublist (destructiveInsert is node prg) := by
  have hsplit := List.takeWhile_append_dropWhile (p := fun k => k.pc ≠ node) (l := is)
  rw [destructiveInsert, List.append_assoc]
  nth_rewrite 1 [← hsplit]
  exact (List.Sublist.refl _).append (List.sublist_append_right _ _)

/-- What `insert_at` splices into: the instructions, with jumps redirected. -/
theorem insertAt_splices {B B' : GotoProgram} {first : Instruction} {rest : List Instruction}
    {inserted : List Nat} (h : insertAt B node (first :: rest) = some (B', inserted)) :
    ∃ i ∈ B.instructions, ∃ is : List Instruction,
      B'.instructions = destructiveInsert is node ((first :: rest).map (annotate i)) ∧
        ∀ (κ : Type) (key : Instruction → κ), (∀ start i, key (retarget node start i) = key i) →
          is.map key = B.instructions.map key := by
  obtain ⟨i, hi, heq⟩ := Option.map_eq_some_iff.mp h
  obtain ⟨rfl, -⟩ := Prod.mk.inj heq
  refine ⟨i, List.mem_of_find?_eq_some hi, _, rfl, ?_⟩
  intro κ key hkey
  split_ifs
  · exact map_redirect (hkey first.pc) _ _
  · rfl

/-- What `insert_at` does not write to stays, in its order. -/
theorem insertAt_sublist {κ : Type} {key : Instruction → κ}
    (hkey : ∀ start i, key (retarget node start i) = key i) {B B' : GotoProgram}
    {prg : List Instruction} {inserted : List Nat}
    (h : insertAt B node prg = some (B', inserted)) :
    (B.instructions.map key).Sublist (B'.instructions.map key) := by
  cases prg with
  | nil =>
      cases h
      exact List.Sublist.refl _
  | cons first rest =>
      obtain ⟨i, -, is, hspliced, hsame⟩ := insertAt_splices h
      rw [hspliced, ← hsame κ key hkey]
      exact (sublist_destructiveInsert is _).map key

/-- **`insert_at` keeps the body.** -/
theorem insertAt_keepsBody {B B' : GotoProgram} {prg : List Instruction} {inserted : List Nat}
    (h : insertAt B node prg = some (B', inserted)) :
    KeepsBody B.instructions B'.instructions := by
  refine ⟨insertAt_sublist (fun _ _ => rfl) h, ?_⟩
  cases prg with
  | nil =>
      cases h
      exact fun i hi => ⟨i, hi, rfl⟩
  | cons first rest =>
      obtain ⟨i, hmem, is, hspliced, hsame⟩ := insertAt_splices h
      have hnames := hsame _ nameAt fun _ _ => rfl
      intro i' hi'
      rw [hspliced, destructiveInsert, List.append_assoc, List.mem_append,
        List.mem_append] at hi'
      rcases hi' with hbefore | hnew | hafter
      · exact exists_of_map_nameAt hnames ((List.takeWhile_sublist _).mem hbefore)
      · obtain ⟨k, -, rfl⟩ := List.mem_map.mp hnew
        exact ⟨i, hmem, rfl⟩
      · exact exists_of_map_nameAt hnames ((List.dropWhile_sublist _).mem hafter)

/-- What is inserted is in the body, with the name of its neighbour. -/
theorem mem_insertAt {B B' : GotoProgram} {prg : List Instruction} {inserted : List Nat}
    (h : insertAt B node prg = some (B', inserted)) {k : Instruction} (hk : k ∈ prg) :
    ∃ i, annotate i k ∈ B'.instructions := by
  cases prg with
  | nil => cases hk
  | cons first rest =>
      obtain ⟨i, -, heq⟩ := Option.map_eq_some_iff.mp h
      obtain ⟨rfl, -⟩ := Prod.mk.inj heq
      refine ⟨i, ?_⟩
      rw [update_instructions, destructiveInsert, List.append_assoc]
      exact List.mem_append_right _ (List.mem_append_left _ (List.mem_map_of_mem hk))

/-- A round of `insert` that goes on: nothing happens, or one insertion. -/
theorem insertLoop_round {pos : Position} {stmtType : InstructionType}
    {prg : List Instruction} {fuel p : Nat} {B : GotoProgram} {collector : List Nat}
    {r : GotoProgram × List Nat}
    (h : insertLoop pos stmtType prg (fuel + 1) B (some p) collector = .ok (some r)) :
    ∃ B₁ iter₁ collector₁,
      (B₁ = B ∨ ∃ q tmp inserted, insertAt B q tmp = some (B₁, inserted)) ∧
        insertLoop pos stmtType prg fuel B₁ iter₁ collector₁ = .ok (some r) := by
  rw [insertLoop] at h
  cases hi : instructionAt B.instructions p with
  | none =>
      rw [hi] at h
      cases h
  | some i =>
      simp only [hi] at h
      split_ifs at h
      · cases hcopy : copyFrom (freshPc B.instructions) prg with
        | error e =>
            rw [hcopy] at h
            cases h
        | ok tmp =>
            rw [hcopy] at h
            cases pos with
            | before =>
                cases hinsert : insertAt B p tmp with
                | none =>
                    simp only [bind, Except.bind, hinsert] at h
                    cases h
                | some r₁ =>
                    simp only [bind, Except.bind, hinsert] at h
                    exact ⟨_, _, _, Or.inr ⟨p, tmp, r₁.2, hinsert⟩, h⟩
            | after =>
                cases hinsert : (nextOf B.instructions p).bind fun next =>
                    insertAt B next tmp with
                | none =>
                    simp only [bind, Except.bind] at h hinsert
                    rw [hinsert] at h
                    cases h
                | some r₁ =>
                    simp only [bind, Except.bind] at h hinsert
                    rw [hinsert] at h
                    obtain ⟨next, -, hinsert⟩ := Option.bind_eq_some_iff.mp hinsert
                    exact ⟨_, _, _, Or.inr ⟨next, tmp, r₁.2, hinsert⟩, h⟩
      · exact ⟨_, _, _, Or.inl rfl, h⟩

/-- **`insert` keeps the body**, round by round. -/
theorem insertLoop_keepsBody {pos : Position} {stmtType : InstructionType}
    {prg : List Instruction} {fuel : Nat} {B : GotoProgram} {iter : Option Nat}
    {collector : List Nat} {r : GotoProgram × List Nat}
    (h : insertLoop pos stmtType prg fuel B iter collector = .ok (some r)) :
    KeepsBody B.instructions r.1.instructions := by
  induction fuel generalizing B iter collector with
  | zero =>
      cases iter with
      | none =>
          cases h
          exact KeepsBody.refl _
      | some p => cases h
  | succ fuel ih =>
      cases iter with
      | none =>
          cases h
          exact KeepsBody.refl _
      | some p =>
          obtain ⟨B₁, iter₁, collector₁, hround, hrest⟩ := insertLoop_round h
          have hkeeps : KeepsBody B.instructions B₁.instructions := by
            rcases hround with rfl | ⟨q, tmp, inserted, hinsert⟩
            · exact KeepsBody.refl _
            · exact insertAt_keepsBody hinsert
          exact hkeeps.trans (ih hrest)

end KeepsBody

section KeepsOrder

variable {gf gf' gf'' : GotoFunctions} {f : String} {fct fct' : GotoFunction}

/-- A program is kept when nothing happens. -/
theorem KeepsOrder.refl (gf : GotoFunctions) : KeepsOrder gf gf :=
  List.forall₂_same.mpr fun _ _ => ⟨rfl, KeepsBody.refl _⟩

/-- Kept twice is kept, function by function. -/
theorem KeepsOrder.trans (h : KeepsOrder gf gf') (h' : KeepsOrder gf' gf'') :
    KeepsOrder gf gf'' := by
  unfold KeepsOrder at *
  generalize gf.functionMap = l at h
  generalize gf'.functionMap = l' at h h'
  generalize gf''.functionMap = l'' at h'
  induction h generalizing l'' with
  | nil =>
      cases h'
      exact .nil
  | cons hp _ ih =>
      cases h' with
      | cons hp' hrest => exact .cons ⟨hp.1.trans hp'.1, hp.2.trans hp'.2⟩ (ih _ hrest)

/-- Every function is kept. -/
theorem KeepsOrder.exists_kept (h : KeepsOrder gf gf') (hfct : (f, fct) ∈ gf.functionMap) :
    ∃ fct', (f, fct') ∈ gf'.functionMap ∧ KeepsBody fct.body fct'.body := by
  unfold KeepsOrder at h
  generalize gf.functionMap = l at h hfct
  generalize gf'.functionMap = l' at h
  induction h with
  | nil => cases hfct
  | @cons p p' _ _ hp _ ih =>
      rcases List.mem_cons.mp hfct with rfl | hfct
      · exact ⟨p'.2, List.mem_cons.mpr (Or.inl (Prod.ext hp.1 rfl)), hp.2⟩
      · obtain ⟨fct', hfct', hkeeps⟩ := ih hfct
        exact ⟨fct', List.mem_cons_of_mem _ hfct', hkeeps⟩

/-- There are no other functions. -/
theorem KeepsOrder.exists_old (h : KeepsOrder gf gf') (hfct : (f, fct') ∈ gf'.functionMap) :
    ∃ fct, (f, fct) ∈ gf.functionMap ∧ KeepsBody fct.body fct'.body := by
  unfold KeepsOrder at h
  generalize gf.functionMap = l at h
  generalize gf'.functionMap = l' at h hfct
  induction h with
  | nil => cases hfct
  | @cons p p' _ _ hp _ ih =>
      rcases List.mem_cons.mp hfct with rfl | hfct
      · exact ⟨p.2, List.mem_cons.mpr (Or.inl (Prod.ext hp.1.symm rfl)), hp.2⟩
      · obtain ⟨fct, hfct, hkeeps⟩ := ih hfct
        exact ⟨fct, List.mem_cons_of_mem _ hfct, hkeeps⟩

/-- The instructions that were there are in the order of the map and the lists. -/
theorem KeepsOrder.locations (h : KeepsOrder gf gf') : gf.locations.Sublist gf'.locations := by
  unfold KeepsOrder at h
  unfold GotoFunctions.locations
  generalize gf.functionMap = l at h
  generalize gf'.functionMap = l' at h
  induction h with
  | nil => exact List.Sublist.refl _
  | @cons p p' _ _ hp _ ih =>
      rw [List.flatMap_cons, List.flatMap_cons]
      refine List.Sublist.append ?_ ih
      have hpcs := hp.2.pcs.map (locationOf p.1)
      rw [List.map_map, List.map_map] at hpcs
      rw [← hp.1]
      exact hpcs

/-- A function that keeps its body keeps the program in order. -/
theorem keepsOrder_withBody {body : List Instruction} {hnd : (body.map Instruction.pc).Nodup}
    (hfct : gf.find f = some fct) (h : KeepsBody fct.body body) :
    KeepsOrder gf (gf.withBody f body hnd) := by
  refine List.forall₂_map_right_iff.mpr (List.forall₂_same.mpr ?_)
  intro p hp
  split_ifs with hf
  · have hfind := GotoFunctions.find_eq_some.mpr hp
    rw [hf, hfct] at hfind
    obtain rfl := Option.some.inj hfind
    exact ⟨rfl, h⟩
  · exact ⟨rfl, KeepsBody.refl _⟩

end KeepsOrder

/-! ## What an insertion does to the numbers -/

section Steps

variable {u P} {Q : NumberedFunctions} {inserted : List Location}

/-- The program afterwards: nothing happened, or it was updated. -/
structure Renumbered (u : LocationNumbering) (P Q : NumberedFunctions) : Prop where
  keeps : KeepsOrder P.functions Q.functions
  numbers : Q = P ∨ Q = u.update Q.functions

/-- Another body, and an update. -/
theorem renumbered_replaceBody {f : String} {fct : GotoFunction} {body : List Instruction}
    (hfct : P.functions.find f = some fct) (hkeeps : KeepsBody fct.body body)
    (h : replaceBody u P f body = some Q) : Renumbered u P Q := by
  unfold replaceBody at h
  split_ifs at h
  cases h
  exact ⟨keepsOrder_withBody hfct hkeeps, Or.inr rfl⟩

/-- Nothing happened. -/
theorem Renumbered.refl (P : NumberedFunctions) : Renumbered u P P :=
  ⟨KeepsOrder.refl _, Or.inl rfl⟩

/-- An insertion of something at a node. -/
theorem insertAtNode_eq {node : Location} {prg : List Instruction} (hprg : prg ≠ [])
    (h : insertAtNode u P node prg = some (Q, inserted)) :
    ∃ fct B inserted', P.functions.find (ofLex node).1 = some fct ∧
      insertAt (update fct.body) (ofLex node).2 prg = some (B, inserted') ∧
      replaceBody u P (ofLex node).1 B.instructions = some Q := by
  rw [insertAtNode, if_neg hprg] at h
  obtain ⟨fct, hfct, h⟩ := Option.bind_eq_some_iff.mp h
  obtain ⟨⟨B, inserted'⟩, hr, h⟩ := Option.bind_eq_some_iff.mp h
  obtain ⟨Q', hQ, h⟩ := Option.bind_eq_some_iff.mp h
  cases h
  exact ⟨fct, B, inserted', hfct, hr, hQ⟩

/-- `insert_at` ends with an update. -/
theorem renumbered_insertAtNode {node : Location} {prg : List Instruction}
    (h : insertAtNode u P node prg = some (Q, inserted)) : Renumbered u P Q := by
  by_cases hprg : prg = []
  · rw [insertAtNode, if_pos hprg] at h
    cases h
    exact Renumbered.refl P
  · obtain ⟨fct, B, _, hfct, hinsert, hreplace⟩ := insertAtNode_eq hprg h
    exact renumbered_replaceBody hfct (insertAt_keepsBody hinsert) hreplace

/-- `insert` ends with an update. -/
theorem renumbered_insertInto {f : String} {pos : Position} {stmtType : InstructionType}
    {prg : List Instruction} {fuel : Nat}
    (h : insertInto u P f pos stmtType prg fuel = .ok (some (Q, inserted))) :
    Renumbered u P Q := by
  cases hinsert : insert P.functions f pos stmtType prg fuel with
  | error e =>
      rw [insertInto, hinsert] at h
      cases h
  | ok out =>
      rw [insertInto, hinsert] at h
      obtain ⟨⟨B, inserted'⟩, rfl, hafter⟩ := Option.bind_eq_some_iff.mp (Except.ok.inj h)
      dsimp only at hafter
      split_ifs at hafter
      · cases hafter
        exact Renumbered.refl P
      · obtain ⟨Q', hreplace, heq⟩ := Option.map_eq_some_iff.mp hafter
        cases heq
        unfold insert at hinsert
        cases hfct : P.functions.find f with
        | none =>
            rw [hfct] at hinsert
            cases hinsert
        | some fct =>
            simp only [hfct] at hinsert
            split_ifs at hinsert
            exact renumbered_replaceBody hfct (insertLoop_keepsBody hinsert) hreplace

end Steps

end GotoTransformation

end FShell
