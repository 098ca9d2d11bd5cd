import FShell.Automata.MaximalWalk
import FShell.Evaluation.EvaluateFilter

/-!
# Covering block entries

In a function without calls and threads only gotos have a choice where to go,
and these are block entries.  Walks that take all edges of the target graph of
`@BASICBLOCKENTRY` therefore visit every instruction that can be reached, as
soon as there is a walk at all.
-/

namespace FShell

open Relation

namespace Collected

variable {cfg : CfgEntries} {f : String}

theorem mem_addSuccessors {acc : Collected} {e : Instruction} {x : Edge} :
    x ∈ (addSuccessors cfg f acc e).edges ↔
      x ∈ acc.edges ∨ ∃ s ∈ (cfg (locationOf f e.pc)).successors,
        x = toLex (locationOf f e.pc, s.1) := by
  rw [addSuccessors]
  generalize (cfg (locationOf f e.pc)).successors = ss
  induction ss generalizing acc with
  | nil => simp
  | cons s ss ih =>
      rw [List.foldl_cons, ih, insert, SortedSet.mem_insert, List.exists_mem_cons_iff]
      tauto

/-- One round of the loop of `F_BASICBLOCKENTRY`. -/
def blockStep (cfg : CfgEntries) (f : String) (p : Bool × Collected) (e : Instruction) :
    Bool × Collected :=
  if (cfg (locationOf f e.pc)).successors ≠ [] ∧
      (p.1 ∨ 1 < (cfg (locationOf f e.pc)).successors.length ∨
        1 < (cfg (locationOf f e.pc)).predecessors.length) then
    (false, addSuccessors cfg f p.2 e)
  else p

theorem basicblockentry_eq (body : List Instruction) (acc : Collected) :
    basicblockentry cfg f body acc = ((considered body).foldl (blockStep cfg f) (true, acc)).2 := rfl

theorem mem_blockStep {p : Bool × Collected} {e : Instruction} {x : Edge} (hx : x ∈ p.2.edges) :
    x ∈ (blockStep cfg f p e).2.edges := by
  rw [blockStep]
  split_ifs
  · exact mem_addSuccessors.mpr (Or.inl hx)
  · exact hx

/-- Rounds lose no edge. -/
theorem mem_blockSteps {es : List Instruction} {p : Bool × Collected} {x : Edge}
    (hx : x ∈ p.2.edges) : x ∈ (es.foldl (blockStep cfg f) p).2.edges := by
  induction es generalizing p with
  | nil => exact hx
  | cons e es ih => exact ih (mem_blockStep hx)

/-- The edges of an instruction with several successors. -/
theorem mem_basicblockentry_of_choice {body : List Instruction} {acc : Collected} {e : Instruction}
    (he : e ∈ considered body) (hchoice : 1 < (cfg (locationOf f e.pc)).successors.length)
    {s : Location × Bool} (hs : s ∈ (cfg (locationOf f e.pc)).successors) :
    toLex (locationOf f e.pc, s.1) ∈ (basicblockentry cfg f body acc).edges := by
  rw [basicblockentry_eq]
  generalize (true, acc) = p
  obtain ⟨before, after, hsplit⟩ := List.append_of_mem he
  rw [hsplit, List.foldl_append, List.foldl_cons]
  refine mem_blockSteps ?_
  rw [blockStep, if_pos ⟨List.ne_nil_of_mem hs, Or.inr (Or.inl hchoice)⟩]
  exact mem_addSuccessors.mpr (Or.inr ⟨s, hs, rfl⟩)

/-- The edges of the first instruction that is considered. -/
theorem mem_basicblockentry_of_head {body : List Instruction} {acc : Collected} {e : Instruction}
    (he : (considered body).head? = some e) {s : Location × Bool}
    (hs : s ∈ (cfg (locationOf f e.pc)).successors) :
    toLex (locationOf f e.pc, s.1) ∈ (basicblockentry cfg f body acc).edges := by
  obtain ⟨rest, hrest⟩ := List.head?_eq_some_iff.mp he
  rw [basicblockentry_eq, hrest, List.foldl_cons]
  refine mem_blockSteps ?_
  rw [blockStep, if_pos ⟨List.ne_nil_of_mem hs, Or.inl rfl⟩]
  exact mem_addSuccessors.mpr (Or.inr ⟨s, hs, rfl⟩)

/-- The block entries of one function are among those of all. -/
theorem mem_overFunctions {gf : GotoFunctions} {fct : GotoFunction}
    (hfind : gf.find f = some fct) (hignore : ignoreFunction fct = false) {x : Edge}
    (hx : ∀ acc, x ∈ (basicblockentry cfg f fct.body acc).edges) :
    x ∈ (overFunctions gf (fun _ => true) (basicblockentry cfg)).edges := by
  have hmem : (f, fct) ∈ gf.functionMap.filter fun p => !ignoreFunction p.2 && true :=
    List.mem_filter.mpr ⟨GotoFunctions.find_eq_some.mp hfind, by rw [hignore]; rfl⟩
  obtain ⟨before, after, hsplit⟩ := List.append_of_mem hmem
  rw [overFunctions, hsplit, List.foldl_append, List.foldl_cons]
  have hkeep : ∀ (ps : List (String × GotoFunction)) (acc : Collected), x ∈ acc.edges →
      x ∈ (ps.foldl (fun acc p => basicblockentry cfg p.1 p.2.body acc) acc).edges := by
    intro ps
    induction ps with
    | nil => exact fun acc h => h
    | cons p ps ih =>
        intro acc h
        refine ih _ ?_
        dsimp only
        rw [basicblockentry_eq]
        exact mem_blockSteps h
  exact hkeep after _ (hx _)

end Collected

/-! ## Functions without calls -/

/-- No calls, no new threads, and nothing that instrumentation has added. -/
structure PlainBody (fct : GotoFunction) : Prop where
  noCalls : ∀ i ∈ fct.body, i.isFunctionCall = false
  noThreads : ∀ i ∈ fct.body, i.isStartThread = false
  notInstrumented : ∀ i ∈ fct.body, isInstrumented i = false

/-- The body ends in `END_FUNCTION`, and gotos lead somewhere. -/
structure ConvertedBody (fct : GotoFunction) : Prop where
  last : ∃ last, fct.body.getLast? = some last ∧ last.type = .endFunction
  targets : ∀ i ∈ fct.body, i.isGoto → ∃ t ∈ i.targets, t ∈ fct.body.map Instruction.pc

/-- The control flow graph of a function: the computed edges within it. -/
def Within (gf : GotoFunctions) (f : String) (fct : GotoFunction) (a b : Location) : Prop :=
  (CfgEntries.empty.computeEdges gf).Leads a b ∧ ∃ i ∈ fct.body, b = locationOf f i.pc

/-- The walks take every edge of the target graph, as far as it is one of the
function and can be reached. -/
def TakeBlockEntries (gf : GotoFunctions) (f : String) (fct : GotoFunction) (start : Location)
    (W : Set (MaximalWalk (Within gf f fct) start)) : Prop :=
  ∀ main col, collectEdges main (CfgEntries.empty.computeEdges gf) gf .fBasicblockentry = .ok col →
    ∀ a b, toLex (a, b) ∈ col.edges → ReflTransGen (Within gf f fct) start a →
      Within gf f fct a b → ∃ w ∈ W, w.Takes a b

variable {gf : GotoFunctions} {f : String} {fct : GotoFunction}

/-- Ignored instructions just lead on. -/
theorem isOrdinary_of_ignored {i : Instruction} (h : ignoreInstruction i = true) :
    i.isOrdinary = true := by
  rw [Instruction.isOrdinary, Instruction.isGoto, Instruction.isStartThread,
    Instruction.isFunctionCall, Instruction.isReturn]
  rw [ignoreInstruction] at h
  cases htype : i.type <;> rw [htype] at h <;> first | rfl | cases h

theorem inBody_of_ignoreFunction (hfind : gf.find f = some fct) (hignore : ignoreFunction fct = false)
    {i : Instruction} (hi : i ∈ fct.body) : InBody gf f fct i := by
  refine ⟨hfind, ?_, hi⟩
  rw [ignoreFunction] at hignore
  simp only [Bool.or_eq_false_iff, Bool.not_eq_false'] at hignore
  exact hignore.1.1

/-- Within a function without calls, an edge is one that the visit of its source adds. -/
theorem within_iff (hplain : PlainBody fct) {i : Instruction} (hin : InBody gf f fct i)
    {before after : List Instruction} (hsplit : fct.body = before ++ i :: after) {b : Location}
    (hb : ∃ j ∈ fct.body, b = locationOf f j.pc) :
    Within gf f fct (locationOf f i.pc) b ↔
      CfgEntries.Own gf f fct.body i (after.head?.map fun j => locationOf f j.pc) b := by
  rw [Within, leads_iff hin hsplit, and_iff_left hb]
  refine or_iff_left ?_
  intro hcalled
  obtain ⟨_, h, caller, c, j, hcaller, hcall, _, _, heq⟩ := hcalled
  obtain ⟨k, _, rfl⟩ := hb
  obtain ⟨rfl, _⟩ := locationOf_inj.mp heq
  obtain rfl : caller = fct := Option.some.inj (hcaller.find.symm.trans hin.find)
  rw [hplain.noCalls c hcaller.mem] at hcall
  cases hcall

/-- An ignored instruction leads to the next one only. -/
theorem own_of_ordinary {i : Instruction} (hordinary : i.isOrdinary = true) {body : List Instruction}
    {next : Option Location} {b : Location} :
    CfgEntries.Own gf f body i next b ↔ next = some b := by
  obtain ⟨hg, ht, hc, hr, ho⟩ | ⟨hg, ht, hc, hr, ho⟩ | ⟨hg, ht, hc, hr, ho⟩ |
    ⟨hg, ht, hc, hr, ho⟩ | ⟨hg, ht, hc, hr, ho⟩ := i.kinds <;>
    first
    | exact absurd (ho.symm.trans hordinary) Bool.false_ne_true
    | simp only [CfgEntries.Own, CfgEntries.Agreed, hg, ht, hc, hr, ho, Bool.false_eq_true,
        false_and, true_and, false_or, or_false]

/-- What is reached within a function is an instruction of it. -/
theorem exists_of_reachable {first : Instruction} (hfirst : fct.body.head? = some first)
    {a : Location} (ha : ReflTransGen (Within gf f fct) (locationOf f first.pc) a) :
    ∃ i ∈ fct.body, a = locationOf f i.pc := by
  obtain rfl | ⟨b, _, hedge⟩ := ha.cases_tail
  · exact ⟨first, List.mem_of_head? hfirst, rfl⟩
  · exact hedge.2

/-- **Choices are block entries.** -/
theorem mem_blockEntries_of_choice (hfind : gf.find f = some fct)
    (hignore : ignoreFunction fct = false) (hplain : PlainBody fct) {i : Instruction}
    (hi : i ∈ fct.body) {b c : Location} (hb : Within gf f fct (locationOf f i.pc) b)
    (hc : Within gf f fct (locationOf f i.pc) c) (hne : b ≠ c) :
    toLex (locationOf f i.pc, b) ∈ (Collected.overFunctions gf (fun _ => true)
      (Collected.basicblockentry (CfgEntries.empty.computeEdges gf))).edges := by
  have hin : InBody gf f fct i := inBody_of_ignoreFunction hfind hignore hi
  obtain ⟨before, after, hsplit⟩ := List.append_of_mem hi
  have hconsidered : i ∈ considered fct.body := by
    have hnot : ignoreInstruction i = false := by
      by_contra hignored
      have hordinary := isOrdinary_of_ignored (Bool.not_eq_false _ ▸ hignored)
      have hnextB := (own_of_ordinary hordinary).mp ((within_iff hplain hin hsplit hb.2).mp hb)
      have hnextC := (own_of_ordinary hordinary).mp ((within_iff hplain hin hsplit hc.2).mp hc)
      exact hne (Option.some.inj (hnextB.symm.trans hnextC))
    refine List.mem_filter.mpr ⟨hi, ?_⟩
    rw [hnot, hplain.notInstrumented i hi]
    rfl
  obtain ⟨jumpB, hjumpB⟩ := hb.1
  obtain ⟨jumpC, hjumpC⟩ := hc.1
  refine Collected.mem_overFunctions hfind hignore fun acc => ?_
  refine Collected.mem_basicblockentry_of_choice hconsidered ?_ hjumpB
  by_contra hshort
  obtain ⟨s, hs⟩ : ∃ s, (CfgEntries.empty.computeEdges gf (locationOf f i.pc)).successors = [s] := by
    refine List.length_eq_one_iff.mp ?_
    have hpos := List.length_pos_of_mem hjumpB
    omega
  rw [hs] at hjumpB hjumpC
  have hB := List.mem_singleton.mp hjumpB
  have hC := List.mem_singleton.mp hjumpC
  exact hne (congrArg Prod.fst (hB.trans hC.symm))

/-- Ignored instructions at the beginning are passed. -/
theorem reachable_of_ignored (hfind : gf.find f = some fct) (hignore : ignoreFunction fct = false)
    (hplain : PlainBody fct) {first : Instruction} (hfirst : fct.body.head? = some first)
    {before after : List Instruction} {i : Instruction} (hsplit : fct.body = before ++ i :: after)
    (hbefore : ∀ j ∈ before, ignoreInstruction j = true) :
    ReflTransGen (Within gf f fct) (locationOf f first.pc) (locationOf f i.pc) := by
  induction before using List.reverseRecOn generalizing i after with
  | nil =>
      rw [hsplit] at hfirst
      rw [Option.some.inj hfirst]
  | append_singleton before j ih =>
      have hsplit' : fct.body = before ++ j :: i :: after := by
        rw [hsplit, List.append_assoc, List.cons_append, List.nil_append]
      have hreach := ih hsplit' fun k hk => hbefore k (List.mem_append_left _ hk)
      have hj : j ∈ fct.body := hsplit' ▸ List.mem_append_cons_self
      have hi : i ∈ fct.body := hsplit ▸ List.mem_append_cons_self
      have hordinary := isOrdinary_of_ignored
        (hbefore j (List.mem_append_right _ (List.mem_singleton.mpr rfl)))
      refine hreach.tail ((within_iff hplain (inBody_of_ignoreFunction hfind hignore hj) hsplit'
        ⟨i, hi, rfl⟩).mpr ((own_of_ordinary hordinary).mpr rfl))

/-- In a converted body every instruction that is not ignored has an edge to take. -/
theorem exists_edge (hplain : PlainBody fct) (hconverted : ConvertedBody fct) {i : Instruction}
    (hin : InBody gf f fct i) (hnot : ignoreInstruction i = false) :
    ∃ b, Within gf f fct (locationOf f i.pc) b := by
  obtain ⟨before, after, hsplit⟩ := List.append_of_mem hin.mem
  obtain ⟨last, hlast, htype⟩ := hconverted.last
  obtain ⟨j, after, rfl⟩ : ∃ j rest, after = j :: rest := by
    cases after with
    | nil =>
        obtain rfl : i = last := by
          rw [hsplit, List.getLast?_append, List.getLast?_singleton, Option.some_or] at hlast
          exact Option.some.inj hlast
        rw [ignoreInstruction, htype] at hnot
        cases hnot
    | cons j after => exact ⟨j, after, rfl⟩
  have hj : j ∈ fct.body := by
    rw [hsplit]
    exact List.mem_append_right _ (List.mem_cons_of_mem _ List.mem_cons_self)
  obtain ⟨hg, ht, hc, hr, ho⟩ | ⟨hg, ht, hc, hr, ho⟩ | ⟨hg, ht, hc, hr, ho⟩ |
    ⟨hg, ht, hc, hr, ho⟩ | ⟨hg, ht, hc, hr, ho⟩ := i.kinds
  · obtain ⟨t, htarget, hbody⟩ := hconverted.targets i hin.mem hg
    obtain ⟨k, hk, hpc⟩ := List.mem_map.mp hbody
    refine ⟨locationOf f t, (within_iff hplain hin hsplit ⟨k, hk, by rw [hpc]⟩).mpr ?_⟩
    exact Or.inl (Or.inl ⟨hg, Or.inr ⟨t, htarget, hbody, rfl⟩⟩)
  · rw [hplain.noThreads i hin.mem] at ht
    cases ht
  · rw [hplain.noCalls i hin.mem] at hc
    cases hc
  · refine ⟨locationOf f last.pc,
      (within_iff hplain hin hsplit ⟨last, List.mem_of_getLast? hlast, rfl⟩).mpr ?_⟩
    exact Or.inr (Or.inr ⟨hr, rfl, last, hlast, rfl⟩)
  · refine ⟨locationOf f j.pc, (within_iff hplain hin hsplit ⟨j, hj, rfl⟩).mpr ?_⟩
    exact (own_of_ordinary ho).mpr rfl

/-- **The entry.**  In a converted body with anything to visit, the first
instruction that is considered is reached and has an edge to take. -/
theorem exists_first_edge (hfind : gf.find f = some fct) (hignore : ignoreFunction fct = false)
    (hplain : PlainBody fct) (hconverted : ConvertedBody fct) {first : Instruction}
    (hfirst : fct.body.head? = some first) {i : Instruction} (hi : i ∈ fct.body)
    (hnot : ignoreInstruction i = false) :
    ∃ a b, toLex (a, b) ∈ (Collected.overFunctions gf (fun _ => true)
        (Collected.basicblockentry (CfgEntries.empty.computeEdges gf))).edges ∧
      ReflTransGen (Within gf f fct) (locationOf f first.pc) a ∧ Within gf f fct a b := by
  have hconsidered : i ∈ considered fct.body := by
    refine List.mem_filter.mpr ⟨hi, ?_⟩
    rw [hnot, hplain.notInstrumented i hi]
    rfl
  obtain ⟨e, hhead⟩ : ∃ e, (considered fct.body).head? = some e :=
    ⟨_, List.head?_eq_some_head (List.ne_nil_of_mem hconsidered)⟩
  have hfindFirst := hhead
  rw [considered, List.head?_filter, List.find?_eq_some_iff_append] at hfindFirst
  obtain ⟨he, before, after, hsplit, hbefore⟩ := hfindFirst
  have heBody : e ∈ fct.body := hsplit ▸ List.mem_append_cons_self
  have heNot : ignoreInstruction e = false := by
    rw [Bool.and_eq_true, Bool.not_eq_true'] at he
    exact he.1
  have hreach := reachable_of_ignored hfind hignore hplain hfirst hsplit fun j hj => by
    have hskip := hbefore j hj
    have hjBody : j ∈ fct.body := hsplit ▸ List.mem_append_left _ hj
    rw [hplain.notInstrumented j hjBody] at hskip
    simpa using hskip
  obtain ⟨b, hb⟩ := exists_edge hplain hconverted
    (inBody_of_ignoreFunction hfind hignore heBody) heNot
  obtain ⟨jump, hjump⟩ := hb.1
  refine ⟨locationOf f e.pc, b, ?_, hreach, hb⟩
  exact Collected.mem_overFunctions hfind hignore fun acc =>
    Collected.mem_basicblockentry_of_head hhead hjump

/-- **Covering block entries.** -/
theorem visits_of_takeBlockEntries (hfind : gf.find f = some fct)
    (hignore : ignoreFunction fct = false) (hplain : PlainBody fct) {first : Instruction}
    (hfirst : fct.body.head? = some first)
    (W : Set (MaximalWalk (Within gf f fct) (locationOf f first.pc)))
    (hsome : W.Nonempty ∨ ConvertedBody fct)
    (htake : TakeBlockEntries gf f fct (locationOf f first.pc) W) {i : Instruction}
    (hi : i ∈ fct.body) (hnot : ignoreInstruction i = false)
    (hreach : ReflTransGen (Within gf f fct) (locationOf f first.pc) (locationOf f i.pc)) :
    ∃ w ∈ W, w.Visits (locationOf f i.pc) := by
  have hW : W.Nonempty := by
    obtain hsome | hconverted := hsome
    · exact hsome
    · obtain ⟨a, b, hedge, ha, hab⟩ :=
        exists_first_edge hfind hignore hplain hconverted hfirst hi hnot
      obtain ⟨w, hw, _⟩ := htake "" _ rfl a b hedge ha hab
      exact ⟨w, hw⟩
  refine MaximalWalk.visits_of_reachable hW (fun a b c ha hb hc hne => ?_) hreach
  obtain ⟨k, hk, rfl⟩ := exists_of_reachable hfirst ha
  exact htake "" _ rfl _ b (mem_blockEntries_of_choice hfind hignore hplain hk hb hc hne) ha hb

/-! ## Three functions -/

/-- `main` as the only function. -/
def onlyMain (fct : GotoFunction) : GotoFunctions := ⟨[("main", fct)], List.nodup_singleton _⟩

/-- A branch around an assignment. -/
def assignMain : GotoFunction where
  bodyAvailable := true
  isInlined := false
  body := [{ plainInstruction 0 .goto [2] with guard := .condition 0 },
    plainInstruction 1 .assign [], plainInstruction 2 .endFunction []]
  pcs_nodup := by decide

/-- A branch around an assignment, to be inlined. -/
def inlinedMain : GotoFunction where
  bodyAvailable := true
  isInlined := true
  body := [{ plainInstruction 0 .goto [2] with guard := .condition 0 },
    plainInstruction 1 .assign [], plainInstruction 2 .endFunction []]
  pcs_nodup := by decide

/-- An assertion without an end. -/
def endlessMain : GotoFunction where
  bodyAvailable := true
  isInlined := false
  body := [plainInstruction 0 .assert []]
  pcs_nodup := by decide

theorem assignMain_plain : PlainBody assignMain := ⟨by decide, by decide, by decide⟩

theorem inlinedMain_plain : PlainBody inlinedMain := ⟨by decide, by decide, by decide⟩

theorem endlessMain_plain : PlainBody endlessMain := ⟨by decide, by decide, by decide⟩

theorem within_of_successors {gf : GotoFunctions} {fct : GotoFunction} {a b : Location}
    (ss : List (Location × Bool)) (hss : (CfgEntries.empty.computeEdges gf a).successors = ss)
    (h : Within gf "main" fct a b) : ∃ s ∈ ss, s.1 = b := by
  obtain ⟨⟨jump, hjump⟩, _⟩ := h
  exact ⟨(b, jump), hss ▸ hjump, rfl⟩

theorem assignMain_step :
    Within (onlyMain assignMain) "main" assignMain (locationOf "main" 0) (locationOf "main" 1) ∧
      Within (onlyMain assignMain) "main" assignMain (locationOf "main" 1) (locationOf "main" 2) ∧
      Within (onlyMain assignMain) "main" assignMain (locationOf "main" 0) (locationOf "main" 2) :=
  ⟨⟨⟨false, by decide +kernel⟩, plainInstruction 1 .assign [], by decide, rfl⟩,
    ⟨⟨false, by decide +kernel⟩, plainInstruction 2 .endFunction [], by decide, rfl⟩,
    ⟨⟨true, by decide +kernel⟩, plainInstruction 2 .endFunction [], by decide, rfl⟩⟩

theorem assignMain_stop (b : Location) :
    ¬ Within (onlyMain assignMain) "main" assignMain (locationOf "main" 2) b := by
  intro h
  obtain ⟨s, hs, _⟩ := within_of_successors [] (by decide +kernel) h
  cases hs

/-- The walk through the assignment. -/
def assignWalk : MaximalWalk (Within (onlyMain assignMain) "main" assignMain)
    (locationOf "main" 0) :=
  .ofPath [locationOf "main" 0, locationOf "main" 1, locationOf "main" 2] rfl
    (List.isChain_cons_cons.mpr ⟨assignMain_step.1, List.isChain_pair.mpr assignMain_step.2.1⟩)
    (fun _ ha => Option.some.inj ha ▸ assignMain_stop)

/-- The walk around it. -/
def branchWalk : MaximalWalk (Within (onlyMain assignMain) "main" assignMain)
    (locationOf "main" 0) :=
  .ofPath [locationOf "main" 0, locationOf "main" 2] rfl
    (List.isChain_pair.mpr assignMain_step.2.2) (fun _ ha => Option.some.inj ha ▸ assignMain_stop)

theorem assignWalk_takes : TakeBlockEntries (onlyMain assignMain) "main" assignMain
    (locationOf "main" 0) {assignWalk, branchWalk} := by
  intro main col _ a b _ ha hab
  obtain ⟨i, hi, rfl⟩ := @exists_of_reachable _ _ _
    { plainInstruction 0 .goto [2] with guard := .condition 0 } rfl _ ha
  have hcases : i.pc = 0 ∨ i.pc = 1 ∨ i.pc = 2 := by
    rcases List.mem_cons.mp hi with rfl | hi
    · exact Or.inl rfl
    · rcases List.mem_pair.mp hi with rfl | rfl
      · exact Or.inr (Or.inl rfl)
      · exact Or.inr (Or.inr rfl)
  rcases hcases with hpc | hpc | hpc
  · rw [hpc] at hab ⊢
    obtain ⟨s, hs, rfl⟩ := within_of_successors
      [(locationOf "main" 1, false), (locationOf "main" 2, true)] (by decide +kernel) hab
    rcases List.mem_pair.mp hs with rfl | rfl
    · exact ⟨assignWalk, Or.inl rfl, 0, rfl, rfl⟩
    · exact ⟨branchWalk, Or.inr rfl, 0, rfl, rfl⟩
  · rw [hpc] at hab ⊢
    obtain ⟨s, hs, rfl⟩ := within_of_successors [(locationOf "main" 2, false)]
      (by decide +kernel) hab
    obtain rfl := List.mem_singleton.mp hs
    exact ⟨assignWalk, Or.inl rfl, 1, rfl, rfl⟩
  · rw [hpc] at hab
    exact absurd hab (assignMain_stop b)

theorem visits_assignMain : ∃ w ∈ ({assignWalk, branchWalk} : Set (MaximalWalk _ _)),
    w.Visits (locationOf "main" 1) :=
  @visits_of_takeBlockEntries (onlyMain assignMain) "main" assignMain rfl (by decide +kernel)
    assignMain_plain { plainInstruction 0 .goto [2] with guard := .condition 0 } rfl
    {assignWalk, branchWalk} (Or.inl ⟨assignWalk, Or.inl rfl⟩) assignWalk_takes
    (plainInstruction 1 .assign []) (by decide) (by decide) (.single assignMain_step.1)

theorem inlinedMain_step {pc : Nat} (hpc : pc = 1 ∨ pc = 2) :
    Within (onlyMain inlinedMain) "main" inlinedMain (locationOf "main" 0) (locationOf "main" pc) := by
  obtain rfl | rfl := hpc
  · exact ⟨⟨false, by decide +kernel⟩, plainInstruction 1 .assign [], by decide, rfl⟩
  · exact ⟨⟨true, by decide +kernel⟩, plainInstruction 2 .endFunction [], by decide, rfl⟩

/-- The walk around the assignment. -/
def inlinedWalk : MaximalWalk (Within (onlyMain inlinedMain) "main" inlinedMain)
    (locationOf "main" 0) :=
  .ofPath [locationOf "main" 0, locationOf "main" 2] rfl
    (List.isChain_pair.mpr (inlinedMain_step (Or.inr rfl))) (fun a ha b hb => by
      rw [← Option.some.inj ha] at hb
      obtain ⟨s, hs, _⟩ := within_of_successors [] (by decide +kernel) hb
      cases hs)

/-- Of a function that is left out, walks need not take anything, and where the
only instruction leads nowhere, there need be no walk. -/
theorem blockEntries_miss :
    (¬ ∀ (gf : GotoFunctions) (f : String) (fct : GotoFunction) (first : Instruction)
        (W : Set (MaximalWalk (Within gf f fct) (locationOf f first.pc))),
      gf.find f = some fct → PlainBody fct → fct.body.head? = some first → W.Nonempty →
      TakeBlockEntries gf f fct (locationOf f first.pc) W → ∀ i ∈ fct.body,
      ignoreInstruction i = false →
      ReflTransGen (Within gf f fct) (locationOf f first.pc) (locationOf f i.pc) →
      ∃ w ∈ W, w.Visits (locationOf f i.pc)) ∧
    ¬ ∀ (gf : GotoFunctions) (f : String) (fct : GotoFunction) (first : Instruction)
        (W : Set (MaximalWalk (Within gf f fct) (locationOf f first.pc))),
      gf.find f = some fct → ignoreFunction fct = false → PlainBody fct →
      fct.body.head? = some first →
      TakeBlockEntries gf f fct (locationOf f first.pc) W → ∀ i ∈ fct.body,
      ignoreInstruction i = false →
      ReflTransGen (Within gf f fct) (locationOf f first.pc) (locationOf f i.pc) →
      ∃ w ∈ W, w.Visits (locationOf f i.pc) := by
  constructor
  · intro h
    have htake : TakeBlockEntries (onlyMain inlinedMain) "main" inlinedMain (locationOf "main" 0)
        {inlinedWalk} := by
      intro main col hcol a b hedge _ _
      obtain rfl : Collected.none = col := Except.ok.inj hcol
      exact absurd hedge (SortedSet.notMem_empty)
    obtain ⟨w, hw, k, hk⟩ := h (onlyMain inlinedMain) "main" inlinedMain
      { plainInstruction 0 .goto [2] with guard := .condition 0 } {inlinedWalk} rfl
      inlinedMain_plain rfl ⟨inlinedWalk, rfl⟩ htake (plainInstruction 1 .assign []) (by decide)
      (by decide) (.single (inlinedMain_step (Or.inl rfl)))
    obtain rfl : w = inlinedWalk := hw
    match k, hk with
    | 0, hk => cases Option.some.inj hk
    | 1, hk => cases Option.some.inj hk
    | k + 2, hk => cases hk
  · intro h
    have htake : TakeBlockEntries (onlyMain endlessMain) "main" endlessMain (locationOf "main" 0)
        ∅ := by
      intro main col _ a b _ ha hab
      obtain ⟨i, hi, rfl⟩ := @exists_of_reachable _ _ _ (plainInstruction 0 .assert []) rfl _ ha
      obtain rfl := List.mem_singleton.mp hi
      obtain ⟨s, hs, _⟩ := within_of_successors [] (by decide +kernel) hab
      cases hs
    obtain ⟨w, hw, _⟩ := h (onlyMain endlessMain) "main" endlessMain
      (plainInstruction 0 .assert []) ∅ rfl (by decide +kernel) endlessMain_plain rfl htake (plainInstruction 0 .assert []) (by decide) (by decide) .refl
    exact hw

end FShell
