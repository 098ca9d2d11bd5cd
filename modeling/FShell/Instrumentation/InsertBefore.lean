import FShell.Instrumentation.GotoTransformation

/-!
# Insertion before instructions

`insert` comes to each instruction of the type once, inserts a copy in front of it
and goes on behind the instruction, so it never looks at a copy.  After each round
the program realizes the old one with copies in front of some instructions
(`Progress`); what this says of all executions is in `InsertsExactly`.

The exception is a return: its edge to the last instruction of the function cannot
be redirected.  So all is well when nothing is inserted there, or no return can be
reached (`insertsExactly_iff`).
-/

namespace FShell.GotoTransformation

/-! ## Several insertions -/

/-- No return leads to the last instruction, or there is nothing in front of it. -/
def NoReturn (body prg : List Instruction) (here : Nat → Bool) : Prop :=
  prg = [] ∨ ∀ p, lastOf body = some p → here p = true →
    ∀ q, (controlGraph body).Reaches (some q) → ((controlGraph body).op q).type ≠ .return

/-- The program that is inserted leaves through its end only. -/
structure LeavesThroughEnd (prg : List Instruction) : Prop where
  leaves : ∀ k, (controlGraph prg).Reaches (some k) → (controlGraph prg).Leaves k
  noReturn : ∀ k, (controlGraph prg).Reaches (some k) →
    ((controlGraph prg).op k).type ≠ .return

/-- Some insertions are done. -/
structure Progress (body prg : List Instruction) (here : Nat → Bool) (is : List Instruction) :
    Prop where
  nodup : (is.map Instruction.pc).Nodup
  closed : Closed is
  last : lastOf is = lastOf body
  old : ∀ i ∈ body, ∃ i', instructionAt is i.pc = some i' ∧ operation i' = operation i
  realizes : NoReturn body prg here → ∃ place : Inserted Nat Nat → Nat, (∀ p, place (.plain p) = p) ∧
    (∀ p k, here p = true → k ∈ prg.map Instruction.pc →
      place (.copy p k) ∉ body.map Instruction.pc) ∧
    ControlGraph.Realizes (controlGraph is)
      ((controlGraph body).insertBefore (controlGraph prg) here) place

namespace Progress

variable {body prg is : List Instruction} {here : Nat → Bool}

theorem start (hnd : (body.map Instruction.pc).Nodup) (hclosed : Closed body) :
    Progress body prg (fun _ => false) body where
  nodup := hnd
  closed := hclosed
  last := rfl
  old := by
    intro i hi
    obtain ⟨a, b, heq⟩ := List.append_of_mem hi
    exact ⟨i, (splitAt_of_nodup hnd heq).instructionAt_eq, rfl⟩
  realizes := by
    intro _
    refine ⟨Inserted.goal, fun _ => rfl, ?_, ControlGraph.realizes_of_never fun _ => rfl⟩
    intro _ _ h
    cases h

theorem pcs_subset (h : Progress body prg here is) {p : Nat}
    (hp : p ∈ body.map Instruction.pc) : p ∈ is.map Instruction.pc := by
  obtain ⟨i, hi, rfl⟩ := List.mem_map.mp hp
  obtain ⟨i', hi', -⟩ := h.old i hi
  obtain ⟨hmem, hpc⟩ := mem_of_instructionAt hi'
  exact hpc ▸ List.mem_map_of_mem hmem

/-- The copies bring no return. -/
theorem noReturn_of_realizes {place : Inserted Nat Nat → Nat} (hprg : LeavesThroughEnd prg)
    (h : ControlGraph.Realizes (controlGraph is)
      ((controlGraph body).insertBefore (controlGraph prg) here) place)
    (hbody : ∀ q, (controlGraph body).Reaches (some q) →
      ((controlGraph body).op q).type ≠ .return) {q : Nat}
    (hq : (controlGraph is).Reaches (some q)) : ((controlGraph is).op q).type ≠ .return := by
  obtain ⟨x, hx, hplace⟩ := h.of_reaches hq
  obtain ⟨x, rfl, rfl⟩ := Option.map_eq_some_iff.mp hplace
  rw [h.op x hx]
  have hparts := ControlGraph.parts_of_reaches hx
  cases x with
  | plain p => exact hbody p hparts
  | copy p k => exact hprg.noReturn k hparts.2.2

/-- **One more insertion.** -/
theorem insert (s : OneInsertion) (h : Progress body s.prg here s.is)
    (hprg : LeavesThroughEnd s.prg) (hnode : s.node ∈ body.map Instruction.pc)
    (hhere : here s.node = false) :
    Progress body s.prg (fun q => here q || decide (q = s.node)) s.result where
  nodup := s.nodup_result
  closed := s.closed_result
  last := s.lastOf_result.trans h.last
  old := by
    intro i hi
    obtain ⟨i', hi', hop⟩ := h.old i hi
    obtain ⟨_, k, _, _, _, hold, hresult, -⟩ :=
      s.exists_old (h.pcs_subset (List.mem_map_of_mem hi))
    obtain rfl : k = i' := Option.some.inj (hold.instructionAt_eq.symm.trans hi')
    exact ⟨_, hresult.instructionAt_eq, redirected_operation.trans hop⟩
  realizes := by
    intro hall
    have hreturn := hall.resolve_left (List.cons_ne_nil _ _)
    obtain ⟨place, hplain, hcopy, hrealizes⟩ := h.realizes (Or.inr fun p hp hherep =>
      hreturn p hp (by simp [hherep]))
    have hone := s.realizes_result
      (fun hlast p hp => noReturn_of_realizes hprg hrealizes
        (hreturn s.node (h.last ▸ hlast) (by simp)) hp) hprg.noReturn
    have hnew : ∀ x, ((controlGraph body).insertBefore (controlGraph s.prg) here).Reaches (some x) →
        decide (place x = s.node) = decide (x = .plain s.node) := by
      intro x hx
      have hparts := ControlGraph.parts_of_reaches hx
      cases x with
      | plain p => simp [hplain]
      | copy p k =>
          obtain ⟨-, hherep, hk⟩ := hparts
          have hne : place (.copy p k) ≠ s.node := by
            intro heq
            exact hcopy p k hherep (reaches_mem s.prg_closed hk k rfl) (heq ▸ hnode)
          simp [hne]
    have hinsert : ControlGraph.Realizes
        ((controlGraph s.is).insertBefore (controlGraph s.prg) fun p => decide (p = s.node)) _ _ :=
      hrealizes.insertBefore (controlGraph s.prg) hnew
    refine ⟨_, ?_, ?_, hone.trans (hinsert.trans
      (ControlGraph.realizes_insertBefore_insertBefore s.node hhere))⟩
    · intro p
      exact hplain p
    · intro p k hherep hk
      by_cases hp : p = s.node
      · simp only [Function.comp_apply, ControlGraph.oneMore, hp, if_pos, Inserted.map, placeOf]
        exact fun hmem => s.fresh k hk (h.pcs_subset hmem)
      · simp only [Function.comp_apply, ControlGraph.oneMore, hp, if_neg, not_false_eq_true,
          Inserted.map, placeOf]
        rw [decide_eq_false hp, Bool.or_false] at hherep
        exact hcopy p k hherep hk

end Progress

/-! ## The loop -/

section Loop

variable {pos : Position} {stmtType : InstructionType} {prg : List Instruction} {fuel iter : Nat}
  {P : GotoProgram} {i : Instruction} {collector : List Nat}

theorem insertLoop_skip (hi : instructionAt P.instructions iter = some i)
    (htype : i.type ≠ stmtType) :
    insertLoop pos stmtType prg (fuel + 1) P (some iter) collector =
      insertLoop pos stmtType prg fuel P (nextOf P.instructions iter) collector := by
  rw [insertLoop, hi]
  simp only [htype, if_false]

theorem insertLoop_match {P' : GotoProgram} {inserted : List Nat} {tmp : List Instruction}
    (hi : instructionAt P.instructions iter = some i) (htype : i.type = stmtType)
    (hcopy : copyFrom (freshPc P.instructions) prg = .ok tmp)
    (hinsert : insertAt P iter tmp = some (P', inserted)) :
    insertLoop .before stmtType prg (fuel + 1) P (some iter) collector =
      insertLoop .before stmtType prg fuel P'
        ((behind P'.instructions inserted iter).bind (nextOf P'.instructions))
        (collector ++ inserted) := by
  rw [insertLoop, hi]
  simp only [htype, if_true, hcopy, bind, Except.bind, hinsert]

end Loop

/-! ### Fresh iterators -/

theorem lt_freshPc {is : List Instruction} {p : Nat} (hp : p ∈ is.map Instruction.pc) :
    p < freshPc is := by
  have hle : ∀ l : List Nat, p ∈ l → p ≤ l.foldr max 0 := by
    intro l hl
    induction l with
    | nil => cases hl
    | cons q l ih =>
        rw [List.foldr_cons]
        rcases List.mem_cons.mp hl with rfl | hl
        · exact le_max_left _ _
        · exact (ih hl).trans (le_max_right _ _)
  exact Nat.lt_succ_of_le (hle _ hp)

theorem copyPc_inj {prg : List Instruction} {base k k' : Nat} (hk' : k' ∈ prg.map Instruction.pc)
    (h : copyPc prg base k' = copyPc prg base k) : k' = k := by
  have hidx : (prg.map Instruction.pc).idxOf k' = (prg.map Instruction.pc).idxOf k :=
    Nat.add_left_cancel h
  exact (List.idxOf_inj hk').mp hidx

theorem copyPc_fresh {is prg : List Instruction} {k : Nat} :
    copyPc prg (freshPc is) k ∉ is.map Instruction.pc := by
  intro hmem
  have hlt := lt_freshPc hmem
  unfold copyPc at hlt
  omega

theorem copyFrom_eq {base : Nat} {prg : List Instruction} (hclosed : Closed prg) :
    copyFrom base prg = .ok (prg.map (relocate (copyPc prg base))) := by
  refine if_pos (List.all_eq_true.mpr ?_)
  intro i hi
  refine List.all_eq_true.mpr ?_
  intro t ht
  exact decide_eq_true (hclosed i hi t ht)

/-- A round that inserts a copy goes on behind the instruction. -/
theorem insertLoop_copy (s : OneInsertion) {stmtType : InstructionType} (fuel : Nat)
    (collector : List Nat) (htype : s.i.type = stmtType)
    (hplace : s.place = copyPc s.prg (freshPc s.is)) :
    ∃ back, insertLoop .before stmtType s.prg (fuel + 1) (update s.is) (some s.node) collector =
      insertLoop .before stmtType s.prg fuel (update s.result) (s.b.head?.map Instruction.pc)
        (collector ++ [back]) := by
  obtain ⟨k, hk⟩ : ∃ k, lastOf s.prg = some k := by
    rw [lastOf, OneInsertion.prg, List.getLast?_eq_some_getLast (List.cons_ne_nil s.first s.rest)]
    exact ⟨_, rfl⟩
  have htmp : s.node ∉ (s.prg.map (relocate s.place)).map Instruction.pc := by
    have hno := s.not_mem_new s.split.mem_pcs
    rw [s.map_new_pcs] at hno
    rw [List.map_map] at hno ⊢
    exact hno
  have hback : lastOf (s.prg.map (relocate s.place)) = some (s.place k) := by
    obtain ⟨c, hc, rfl⟩ := Option.map_eq_some_iff.mp hk
    rw [lastOf, List.getLast?_map, hc]
    rfl
  have hstart : (s.prg.map (relocate s.place)).head?.map Instruction.pc = some s.start := rfl
  have hinsert := insertAt_eq s.split hstart htmp
  rw [hback] at hinsert
  refine ⟨s.place k, ?_⟩
  rw [insertLoop_match s.split.instructionAt_eq htype (hplace ▸ copyFrom_eq s.prg_closed) hinsert]
  change insertLoop _ _ _ _ (update s.result) ((nextOf s.result (s.place k)).bind
    (nextOf s.result)) (collector ++ [s.place k]) = _
  rw [s.nextOf_last hk, Option.bind_some, s.split_result.nextOf_eq, ← List.head?_map,
    s.map_old_pcs, List.head?_map]

/-- Where an instruction of the type stands. -/
def matching (is : List Instruction) (stmtType : InstructionType) (p : Nat) : Bool :=
  is.any fun i => i.type = stmtType && i.pc = p

/-- What stands at an instruction afterwards. -/
def block (prg : List Instruction) (stmtType : InstructionType) (i : Instruction) :
    List Operation :=
  (if i.type = stmtType then prg.map operation else []) ++ [operation i]

section Matching

variable {body prg pre is : List Instruction} {stmtType : InstructionType} {i : Instruction}
  {here : Nat → Bool}

theorem matching_append_other (htype : i.type ≠ stmtType) :
    matching (pre ++ [i]) stmtType = matching pre stmtType := by
  funext p
  simp [matching, htype]

theorem matching_append_same (htype : i.type = stmtType) :
    matching (pre ++ [i]) stmtType = fun q => matching pre stmtType q || decide (q = i.pc) := by
  funext q
  simp [matching, htype, eq_comm]

/-- Nothing was inserted here yet. -/
theorem matching_of_nodup {post : List Instruction}
    (hnd : ((pre ++ i :: post).map Instruction.pc).Nodup) :
    matching pre stmtType i.pc = false := by
  have hsplit := splitAt_of_nodup hnd rfl
  rw [matching, List.any_eq_false]
  intro j hj
  have hne : j.pc ≠ i.pc := fun heq => hsplit.not_mem (heq ▸ List.mem_map_of_mem hj)
  simp [hne]

/-- An empty program leaves everything as it is. -/
theorem Progress.of_empty (h : Progress body [] here is) (here' : Nat → Bool) :
    Progress body [] here' is where
  nodup := h.nodup
  closed := h.closed
  last := h.last
  old := h.old
  realizes := by
    intro _
    obtain ⟨place, hplain, -, hrealizes⟩ := h.realizes (Or.inl rfl)
    refine ⟨place, hplain, ?_, ?_⟩
    · intro p k _ hk
      cases hk
    · have hsame : (controlGraph body).insertBefore (controlGraph []) here =
          (controlGraph body).insertBefore (controlGraph []) here' :=
        ControlGraph.insertBefore_of_empty rfl here'
      exact hsame ▸ hrealizes

end Matching

/-- What an instruction keeps when its targets change. -/
def key (i : Instruction) : Nat × Operation := (i.pc, operation i)

theorem head_pc_of_keys {l l' : List Instruction} (h : l.map key = l'.map key) :
    l.head?.map Instruction.pc = l'.head?.map Instruction.pc := by
  have hhead := congrArg (fun l => l.head?.map Prod.fst) h
  simpa [List.head?_map, Option.map_map, Function.comp_def, key] using hhead

/-- **The loop**, from some instruction of the original program on. -/
theorem insertLoop_before {body prg : List Instruction} {stmtType : InstructionType}
    (hbody : (body.map Instruction.pc).Nodup) (hnd : (prg.map Instruction.pc).Nodup)
    (hclosed : Closed prg) (hprg : LeavesThroughEnd prg) (post : List Instruction) :
    ∀ (pre done rest : List Instruction) (collector : List Nat), body = pre ++ post →
      rest.map key = post.map key → Progress body prg (matching pre stmtType) (done ++ rest) →
      ∃ out new, insertLoop .before stmtType prg post.length (update (done ++ rest))
          (post.head?.map Instruction.pc) collector = .ok (some (update out, collector ++ new)) ∧
        new.length = (if prg = [] then 0 else post.countP fun i => i.type = stmtType) ∧
        out.map operation = done.map operation ++ post.flatMap (block prg stmtType) ∧
        Progress body prg (matching body stmtType) out := by
  induction post with
  | nil =>
      intro pre done rest collector hpre hrest hprogress
      obtain rfl : rest = [] := List.map_eq_nil_iff.mp hrest
      refine ⟨done, [], ?_, ?_, ?_, ?_⟩
      · rw [List.append_nil, List.append_nil]
        rfl
      · simp
      · simp
      · rw [List.append_nil] at hpre hprogress
        subst hpre
        exact hprogress
  | cons i post ih =>
      intro pre done rest collector hpre hrest hprogress
      obtain ⟨r, rest, rfl, hkey, hrest⟩ := List.map_eq_cons_iff.mp hrest
      obtain ⟨hpc, hop⟩ := Prod.mk.inj hkey
      have htype : r.type = i.type := congrArg Operation.type hop
      have hsplit := splitAt_of_nodup hprogress.nodup rfl
      have hnext : nextOf (done ++ r :: rest) i.pc = post.head?.map Instruction.pc := by
        rw [← hpc, hsplit.nextOf_eq, head_pc_of_keys hrest]
      have hat : instructionAt (done ++ r :: rest) i.pc = some r := by
        rw [← hpc]
        exact hsplit.instructionAt_eq
      have hpre' : body = (pre ++ [i]) ++ post := by rw [hpre, List.append_assoc, List.cons_append,
        List.nil_append]
      have hassoc : done ++ r :: rest = (done ++ [r]) ++ rest := by
        rw [List.append_assoc, List.cons_append, List.nil_append]
      by_cases hmatch : i.type = stmtType
      · cases prg with
        | nil =>
            have hstep := ih (pre ++ [i]) (done ++ [r]) rest collector hpre' hrest (by
              rw [matching_append_same hmatch, ← hassoc]
              exact hprogress.of_empty _)
            obtain ⟨out, new, hloop, hcount, hops, hout⟩ := hstep
            refine ⟨out, new, ?_, ?_, ?_, hout⟩
            · rw [List.head?_cons, Option.map_some, List.length_cons,
                insertLoop_match hat (by rw [htype, hmatch]) (copyFrom_eq hclosed) rfl,
                List.append_nil]
              change insertLoop .before stmtType [] post.length _
                (nextOf (done ++ r :: rest) i.pc) collector = _
              rw [hnext, hassoc]
              exact hloop
            · simpa using hcount
            · rw [hops, List.flatMap_cons, block, if_pos hmatch, List.map_append, List.map_cons,
                hop]
              simp
        | cons first more =>
            let s : OneInsertion :=
              { is := done ++ r :: rest, node := i.pc, a := done, i := r, b := rest
                split := hpc ▸ hsplit, nodup := hprogress.nodup, closed := hprogress.closed
                first := first, rest := more, prg_nodup := hnd, prg_closed := hclosed
                place := copyPc (first :: more) (freshPc (done ++ r :: rest))
                inj := fun k _ k' hk' h => copyPc_inj hk' h
                fresh := fun k _ => copyPc_fresh }
            obtain ⟨back, hround⟩ := insertLoop_copy s post.length collector (htype.trans hmatch) rfl
            have hresult : s.result = (done.map s.old ++ s.prg.map s.new ++ [s.old r]) ++
                rest.map s.old := by
              rw [s.result_eq]
              simp [s]
            have hkeys : (rest.map s.old).map key = post.map key := by
              rw [List.map_map, ← hrest]
              exact List.map_congr_left fun k _ => Prod.ext (s.old_pc k) redirected_operation
            have hmem : i.pc ∈ body.map Instruction.pc := by
              rw [hpre]
              simp
            have hstep := ih (pre ++ [i]) (done.map s.old ++ s.prg.map s.new ++ [s.old r])
              (rest.map s.old) (collector ++ [back]) hpre' hkeys (by
                rw [matching_append_same hmatch, ← hresult]
                exact hprogress.insert s hprg hmem (matching_of_nodup (hpre ▸ hbody)))
            obtain ⟨out, new, hloop, hcount, hops, hout⟩ := hstep
            refine ⟨out, back :: new, ?_, ?_, ?_, hout⟩
            · rw [List.head?_cons, Option.map_some, List.length_cons]
              refine hround.trans ?_
              change insertLoop _ _ _ _ _ (rest.head?.map _) _ = _
              change insertLoop _ _ s.prg _ _ _ _ = _ at hloop
              rw [head_pc_of_keys hrest, hresult, hloop]
              simp
            · rw [List.length_cons, hcount, List.countP_cons_of_pos (by simpa using hmatch)]
              rfl
            · have hold : (done.map s.old).map operation = done.map operation := by
                rw [List.map_map]
                exact List.map_congr_left fun k _ => redirected_operation
              have hnew : (s.prg.map s.new).map operation = (first :: more).map operation := by
                rw [List.map_map]
                rfl
              have hself : operation (s.old r) = operation i := redirected_operation.trans hop
              rw [hops, List.map_append, List.map_append, hold, hnew, List.map_singleton, hself,
                List.flatMap_cons, block, if_pos hmatch]
              simp
      · -- the instruction stays as it is
        have hstep := ih (pre ++ [i]) (done ++ [r]) rest collector hpre' hrest (by
          rw [matching_append_other hmatch, ← hassoc]
          exact hprogress)
        obtain ⟨out, new, hloop, hcount, hops, hout⟩ := hstep
        refine ⟨out, new, ?_, ?_, ?_, hout⟩
        · rw [List.head?_cons, Option.map_some, List.length_cons,
            insertLoop_skip hat (by rw [htype]; exact hmatch), update_instructions, hnext, hassoc]
          exact hloop
        · rw [hcount, List.countP_cons_of_neg (by simpa using hmatch)]
        · rw [hops, List.flatMap_cons, block, if_neg hmatch, List.map_append, List.map_cons, hop]
          simp

/-! ## A call of `insert` -/

/-- A function that may be instrumented, and a program to insert. -/
structure InsertSetting where
  gf : GotoFunctions
  f : String
  fct : GotoFunction
  find : gf.find f = some fct
  nonempty : fct.body ≠ []
  notInlined : fct.isInlined = false
  closed : Closed fct.body
  stmtType : InstructionType
  prg : List Instruction
  prg_nodup : (prg.map Instruction.pc).Nodup
  prg_closed : Closed prg
  leaves : LeavesThroughEnd prg

namespace InsertSetting

variable (s : InsertSetting)

/-- The original program, with the inserted one before each instruction of the type. -/
def expected : ControlGraph Operation Outcome (Inserted Nat Nat) :=
  (controlGraph s.fct.body).insertBefore (controlGraph s.prg) (matching s.fct.body s.stmtType)

/-- The executions of `out` are those expected, at the iterators of the old instructions
and at new ones for the copies; whatever the operations do to the data. -/
def SameRuns (out : List Instruction) : Prop :=
  ∃ place : Inserted Nat Nat → Nat, (∀ p, place (.plain p) = p) ∧
    (∀ p k, matching s.fct.body s.stmtType p = true → k ∈ s.prg.map Instruction.pc →
      place (.copy p k) ∉ s.fct.body.map Instruction.pc) ∧
    ∀ (D : Type) (sem : Operation → D → Outcome → D → Prop) (run : List (Option Nat × D)),
      (controlGraph out).IsRun sem run ↔
        ∃ run', s.expected.IsRun sem run' ∧ ControlGraph.placeRun place run' = run

/-- **What `insert` is to do**: it ends after as many rounds as there are instructions,
there is one copy before each instruction of the type and no other, and the executions
are those expected. -/
def InsertsExactly : Prop :=
  ∃ out inserted,
    insert s.gf s.f .before s.stmtType s.prg s.fct.body.length =
      .ok (some (update out, inserted)) ∧
    inserted.length =
      (if s.prg = [] then 0 else s.fct.body.countP fun i => i.type = s.stmtType) ∧
    out.map operation = s.fct.body.flatMap (block s.prg s.stmtType) ∧
    s.SameRuns out

/-- What holds in any case. -/
theorem insert_eq : ∃ out inserted,
    insert s.gf s.f .before s.stmtType s.prg s.fct.body.length =
      .ok (some (update out, inserted)) ∧
    inserted.length =
      (if s.prg = [] then 0 else s.fct.body.countP fun i => i.type = s.stmtType) ∧
    out.map operation = s.fct.body.flatMap (block s.prg s.stmtType) ∧
    Progress s.fct.body s.prg (matching s.fct.body s.stmtType) out := by
  have hstart : Progress s.fct.body s.prg (matching [] s.stmtType) s.fct.body :=
    Progress.start s.fct.pcs_nodup s.closed
  obtain ⟨out, new, hloop, hcount, hops, hout⟩ := insertLoop_before s.fct.pcs_nodup s.prg_nodup
    s.prg_closed s.leaves s.fct.body [] [] s.fct.body [] rfl rfl hstart
  refine ⟨out, new, ?_, hcount, hops, hout⟩
  rw [insert, s.find]
  simp only [s.nonempty, s.notInlined, Bool.false_eq_true, if_false]
  exact hloop

variable {s}

theorem insertsExactly_of_noReturn
    (h : NoReturn s.fct.body s.prg (matching s.fct.body s.stmtType)) : s.InsertsExactly := by
  obtain ⟨out, inserted, hinsert, hcount, hops, hout⟩ := s.insert_eq
  obtain ⟨place, hplain, hcopy, hrealizes⟩ := hout.realizes h
  refine ⟨out, inserted, hinsert, hcount, hops, place, hplain, hcopy, ?_⟩
  intro D sem run
  exact hrealizes.isRun_iff

/-- A return goes past the copy. -/
theorem noReturn_of_insertsExactly (h : s.InsertsExactly) :
    NoReturn s.fct.body s.prg (matching s.fct.body s.stmtType) := by
  refine or_iff_not_imp_left.mpr ?_
  intro hprg l hl hmatch p hp hreturn
  obtain ⟨out, inserted, hinsert, -, -, place, hplain, hcopy, hruns⟩ := h
  obtain ⟨out', inserted', hinsert', -, -, hout⟩ := s.insert_eq
  have heq := Option.some.inj (Except.ok.inj (hinsert.symm.trans hinsert'))
  obtain rfl : out = out' := congrArg GotoProgram.instructions (congrArg Prod.fst heq)
  -- the return and where it leads, in both programs
  obtain ⟨i, hi, rfl⟩ := List.mem_map.mp (reaches_mem s.closed hp p rfl)
  obtain ⟨a, b, hsplit⟩ := List.append_of_mem hi
  have hat := (splitAt_of_nodup s.fct.pcs_nodup hsplit).instructionAt_eq
  rw [op_eq hat] at hreturn
  obtain ⟨i', hi', hop⟩ := hout.old i hi
  have hallows : (operation i).allows .toEnd = true := by
    simp [Operation.allows, hreturn]
  have hdest : (controlGraph out).dest i.pc .toEnd = some (some l) := by
    rw [dest_eq hi', hop, if_pos hallows, destination, hout.last, hl]
    rfl
  obtain ⟨k, hk⟩ : ∃ k, (controlGraph s.prg).entry = some k := by
    cases hlist : s.prg with
    | nil => exact absurd hlist hprg
    | cons first rest => exact ⟨first.pc, rfl⟩
  have henter : (controlGraph s.prg).enter (matching s.fct.body s.stmtType) l = .copy l k := by
    rw [ControlGraph.enter_of_here hmatch, hk]
    rfl
  have honly : ∀ o x, s.expected.dest (.plain i.pc) o = some x → x = some (.copy l k) := by
    intro o x hx
    rw [expected, ControlGraph.insertBefore_dest_plain, dest_eq hat] at hx
    split_ifs at hx with ho
    · obtain rfl : o = .toEnd := by
        cases o <;> simp [Operation.allows, hreturn] at ho ⊢
      rw [destination, hl, Option.map_some, Option.map_some, Option.map_some, henter] at hx
      exact (Option.some.inj hx).symm
    · cases hx
  -- a run up to the return, and one step of the new program from there
  have hreach : s.expected.Reaches (some (.plain i.pc)) :=
    ControlGraph.reaches_plain (fun k hk => s.leaves.leaves k (hk ▸ .entry)) hp
  obtain ⟨run, hrun⟩ := hreach.exists_run
  have hstep : (controlGraph out).Step (fun _ (_ : Unit) _ _ => True)
      (some (place (.plain i.pc)), ()) (some l, ()) :=
    ControlGraph.Step.mk (by rw [hplain]; exact hdest) trivial
  have hlong := ((hruns Unit _ _).mpr ⟨_, hrun, rfl⟩).step hstep
  obtain ⟨run', hrun', hplaces⟩ := (hruns Unit _ _).mp hlong
  cases hrun' with
  | start d => cases (List.cons.inj hplaces).2
  | @step c c' cs hbefore hstep =>
      obtain ⟨hlast, htail⟩ := List.cons.inj hplaces
      obtain ⟨hfirst, -⟩ := List.cons.inj htail
      obtain ⟨hdest', -⟩ := hstep
      rename_i x o q d d'
      have hplace : place x = i.pc := (Option.some.inj (Prod.mk.inj hfirst).1).trans (hplain _)
      have hparts := ControlGraph.parts_of_reaches hbefore.reaches
      have hold : ∀ y j, (controlGraph s.fct.body).Reaches (some y) ∧
          matching s.fct.body s.stmtType y = true ∧ (controlGraph s.prg).Reaches (some j) →
          place (.copy y j) ∉ s.fct.body.map Instruction.pc :=
        fun y j hy => hcopy y j hy.2.1 (reaches_mem s.prg_closed hy.2.2 j rfl)
      cases x with
      | copy y j => exact hold y j hparts (hplace ▸ List.mem_map_of_mem hi)
      | plain y =>
          obtain rfl : y = i.pc := (hplain y).symm.trans hplace
          obtain rfl := honly _ _ hdest'
          have hcopyl : place (.copy l k) = l := Option.some.inj (Prod.mk.inj hlast).1
          refine hcopy l k hmatch (reaches_mem s.prg_closed (hk ▸ .entry) k rfl) ?_
          rw [hcopyl]
          exact lastOf_mem hl

/-- The last instruction and its type. -/
theorem noReturn_iff : NoReturn s.fct.body s.prg (matching s.fct.body s.stmtType) ↔
    s.prg = [] ∨ (∀ last, s.fct.body.getLast? = some last → last.type ≠ s.stmtType) ∨
      ∀ p, (controlGraph s.fct.body).Reaches (some p) →
        ((controlGraph s.fct.body).op p).type ≠ .return := by
  refine or_congr_right ?_
  obtain ⟨last, hlast⟩ : ∃ last, s.fct.body.getLast? = some last :=
    ⟨_, List.getLast?_eq_some_getLast s.nonempty⟩
  have hmatch : matching s.fct.body s.stmtType last.pc = true ↔ last.type = s.stmtType := by
    have hmem := List.mem_of_getLast? hlast
    rw [matching, List.any_eq_true]
    constructor
    · intro h
      obtain ⟨i, hi, hboth⟩ := h
      obtain ⟨htype, hpc⟩ : i.type = s.stmtType ∧ i.pc = last.pc := by simpa using hboth
      rw [← htype, List.inj_on_of_nodup_map s.fct.pcs_nodup hi hmem hpc]
    · intro htype
      exact ⟨last, hmem, by simp [htype]⟩
  simp only [lastOf, hlast, Option.map_some, Option.some.injEq, forall_eq', hmatch, ne_eq]
  exact imp_iff_not_or

end InsertSetting

/-- **When an insertion before instructions is exact.**  Copies are run however the
instruction is reached, except by a return. -/
theorem insertsExactly_iff (s : InsertSetting) :
    s.InsertsExactly ↔ s.prg = [] ∨
      (∀ last, s.fct.body.getLast? = some last → last.type ≠ s.stmtType) ∨
      ∀ p, (controlGraph s.fct.body).Reaches (some p) →
        ((controlGraph s.fct.body).op p).type ≠ .return :=
  Iff.trans ⟨InsertSetting.noReturn_of_insertsExactly, InsertSetting.insertsExactly_of_noReturn⟩
    InsertSetting.noReturn_iff

/-! ## A return

`int main() { return 0; }`, and an assertion to be inserted before the end. -/

/-- An instruction of `main`, and nothing but its type. -/
def bare (pc : Nat) (type : InstructionType) : Instruction :=
  ⟨pc, type, .none, "main", none, .isTrue, [], []⟩

def returningMain : GotoFunction where
  bodyAvailable := true
  isInlined := false
  body := [bare 0 .return, bare 1 .endFunction]
  pcs_nodup := by decide

/-- The program of one assertion. -/
theorem leavesThroughEnd_assert : LeavesThroughEnd [bare 0 .assert] where
  leaves := by
    intro k hk
    obtain rfl : k = 0 := by simpa [bare] using reaches_mem (by decide) hk k rfl
    exact .last (o := .next) (by decide)
  noReturn := by
    intro k hk
    obtain rfl : k = 0 := by simpa [bare] using reaches_mem (by decide) hk k rfl
    decide

def assertBeforeEnd : InsertSetting where
  gf := ⟨[("main", returningMain)], by decide⟩
  f := "main"
  fct := returningMain
  find := rfl
  nonempty := by decide
  notInlined := rfl
  closed := by decide
  stmtType := .endFunction
  prg := [bare 0 .assert]
  prg_nodup := by decide
  prg_closed := by decide
  leaves := leavesThroughEnd_assert

/-- **The assertion is not reached.** -/
theorem return_skips_copy : ¬ ∀ s : InsertSetting, s.InsertsExactly := by
  intro h
  have hno := InsertSetting.noReturn_of_insertsExactly (h assertBeforeEnd)
  exact hno.resolve_left (by decide) 1 rfl rfl 0 .entry rfl

end FShell.GotoTransformation
