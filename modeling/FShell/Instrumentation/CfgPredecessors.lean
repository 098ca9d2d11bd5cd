import FShell.Evaluation.EvaluateFilter

/-!
# Predecessors and the order of the functions

`CFG::compute_edges` visits the functions in some order, and every visit of an
instruction makes it a predecessor of all its successors so far.  A call makes
the last instruction of the callee a predecessor of the return location once
more, at once: when that last instruction has yet to be visited, its own visit
adds the same predecessor again.

Predecessors mirror successors if and only if no function calls itself or one
that comes later.
-/

namespace FShell

/-- A call of `compute_edges(goto_functions, goto_program, PC)`. -/
structure Visit where
  f : String
  body : List Instruction
  i : Instruction
  next : Option Instruction

namespace Visit

/-- The visited instruction. -/
def here (v : Visit) : Location := locationOf v.f v.i.pc

/-- `compute_edges(goto_functions, goto_program, PC)`. -/
def run (gf : GotoFunctions) (m : CfgEntries) (v : Visit) : CfgEntries :=
  m.computeInstruction gf v.f v.body v.i v.next

/-- From the last instruction of a callee to the return location. -/
def returnEdge (gf : GotoFunctions) (v : Visit) : Option (Location × Location) :=
  if v.i.isFunctionCall then
    v.i.callee.bind fun g => (gf.find g).bind fun callee =>
      if callee.bodyAvailable then
        callee.body.getLast?.bind fun last =>
          v.next.map fun j => (locationOf g last.pc, locationOf v.f j.pc)
      else none
  else none

end Visit

/-- The visits of a function, from some instruction on. -/
def visitsOf (f : String) (body : List Instruction) : List Instruction → List Visit
  | [] => []
  | i :: rest => ⟨f, body, i, rest.head?⟩ :: visitsOf f body rest

/-- The visits of a function that may have no body. -/
def visitsIn (p : String × GotoFunction) : List Visit :=
  if p.2.bodyAvailable then visitsOf p.1 p.2.body p.2.body else []

/-- All visits. -/
def visits (gf : GotoFunctions) : List Visit := gf.functionMap.flatMap visitsIn

namespace CfgEntries

variable {gf : GotoFunctions} {m : CfgEntries}

/-- A body is the row of its visits. -/
theorem computeBody_eq {f : String} {body rest : List Instruction} :
    computeBody gf f body rest m = (visitsOf f body rest).foldl (Visit.run gf) m := by
  induction rest generalizing m with
  | nil => rfl
  | cons i rest ih => exact ih

/-- `compute_edges` is a run of visits. -/
theorem computeEdges_eq : m.computeEdges gf = (visits gf).foldl (Visit.run gf) m := by
  rw [computeEdges, visits]
  generalize gf.functionMap = l
  induction l generalizing m with
  | nil => rfl
  | cons p l ih =>
      rw [List.foldl_cons, List.flatMap_cons, List.foldl_append, ih]
      by_cases hbody : p.2.bodyAvailable
      · rw [if_pos hbody, visitsIn, if_pos hbody, computeBody_eq]
      · rw [if_neg hbody, visitsIn, if_neg hbody]
        rfl

/-! ## Counting -/

/-- How often `b` occurs among the successors of `a`. -/
def succCount (m : CfgEntries) (a b : Location) : Nat := ((m a).successors.map Prod.fst).count b

/-- How often `a` occurs among the predecessors of `b`. -/
def predCount (m : CfgEntries) (a b : Location) : Nat := (m b).predecessors.count a

/-- One for the edge itself, nothing for others. -/
def unit (e : Option (Location × Location)) (a b : Location) : Nat := if e = some (a, b) then 1 else 0

variable {a b here l : Location}

/-- A successor is counted. -/
theorem succCount_pushSuccessor {s : Location × Bool} :
    (m.pushSuccessor here s).succCount a b = m.succCount a b + unit (some (here, s.1)) a b := by
  unfold succCount pushSuccessor unit
  by_cases ha : a = here
  · subst ha
    by_cases hb : s.1 = b
    · simp [hb]
    · simp [hb]
  · simp [ha, Ne.symm ha]

/-- A successor is no predecessor. -/
theorem predCount_pushSuccessor {s : Location × Bool} :
    (m.pushSuccessor here s).predCount a b = m.predCount a b := by
  unfold predCount pushSuccessor
  by_cases hb : b = here
  · subst hb
    simp
  · simp [hb]

/-- A predecessor is no successor. -/
theorem succCount_pushPredecessor : (m.pushPredecessor l here).succCount a b = m.succCount a b := by
  unfold succCount pushPredecessor
  by_cases ha : a = l
  · subst ha
    simp
  · simp [ha]

/-- A predecessor is counted. -/
theorem predCount_pushPredecessor :
    (m.pushPredecessor l here).predCount a b = m.predCount a b + unit (some (here, l)) a b := by
  unfold predCount pushPredecessor unit
  by_cases hb : b = l
  · subst hb
    by_cases ha : here = a
    · simp [ha]
    · simp [ha]
  · simp [hb, Ne.symm hb]

/-- The backward edges of a visit. -/
theorem counts_backward (ss : List (Location × Bool)) :
    (ss.foldl (fun m s => m.pushPredecessor s.1 here) m).succCount a b = m.succCount a b ∧
      (ss.foldl (fun m s => m.pushPredecessor s.1 here) m).predCount a b
        = m.predCount a b + if a = here then (ss.map Prod.fst).count b else 0 := by
  induction ss generalizing m with
  | nil => exact ⟨rfl, by simp⟩
  | cons s ss ih =>
      obtain ⟨hsucc, hpred⟩ := ih (m := m.pushPredecessor s.1 here)
      rw [List.foldl_cons, hsucc, hpred, succCount_pushPredecessor, predCount_pushPredecessor]
      refine ⟨rfl, ?_⟩
      unfold unit
      by_cases ha : a = here
      · subst ha
        by_cases hb : s.1 = b
        · simp [hb]
          omega
        · simp [hb]
      · simp [ha, Ne.symm ha]

/-! ## One visit -/

/-- `op` appends to the successors of `here`, and perhaps the edge `e` to
successors and predecessors. -/
structure Forward (here : Location) (e : Option (Location × Location))
    (op : CfgEntries → CfgEntries) : Prop where
  succ : ∃ own : Location → Nat, ∀ m a b, (op m).succCount a b
    = m.succCount a b + (if a = here then own b else 0) + unit e a b
  pred : ∀ m a b, (op m).predCount a b = m.predCount a b + unit e a b

/-- Nothing is pushed. -/
theorem Forward.id : Forward here none fun m => m :=
  ⟨⟨fun _ => 0, fun m a b => by simp [unit]⟩, fun m a b => by simp [unit]⟩

/-- One successor is pushed. -/
theorem Forward.pushSuccessor {s : Location × Bool} {e : Option (Location × Location)}
    {op : CfgEntries → CfgEntries} (h : Forward here e op) :
    Forward here e fun m => (op m).pushSuccessor here s := by
  obtain ⟨⟨own, hsucc⟩, hpred⟩ := h
  refine ⟨⟨fun b => own b + if s.1 = b then 1 else 0, fun m a b => ?_⟩, fun m a b => ?_⟩
  · rw [succCount_pushSuccessor, hsucc]
    by_cases ha : a = here
    · subst ha
      simp only [unit, if_true, Option.some.injEq, Prod.mk.injEq, true_and]
      omega
    · simp [unit, ha, Ne.symm ha]
  · rw [predCount_pushSuccessor, hpred]

/-- The next instruction, if there is one. -/
theorem Forward.pushNext {next : Option Location} {e : Option (Location × Location)}
    {op : CfgEntries → CfgEntries} (h : Forward here e op) :
    Forward here e fun m => (op m).pushNext here next := by
  cases next with
  | none => exact h
  | some l => exact h.pushSuccessor

/-- The targets, one after the other. -/
theorem Forward.pushTargets {f : String} {body : List Instruction} {targets : List Nat}
    {e : Option (Location × Location)} {op : CfgEntries → CfgEntries} (h : Forward here e op) :
    Forward here e fun m => (op m).pushTargets here f body targets := by
  induction targets generalizing op with
  | nil => exact h
  | cons t ts ih =>
      by_cases ht : t ∈ body.map Instruction.pc
      · have hrest := ih (h.pushSuccessor (s := (locationOf f t, true)))
        refine ⟨?_, ?_⟩
        · obtain ⟨own, hsucc⟩ := hrest.succ
          refine ⟨own, fun m a b => ?_⟩
          rw [← hsucc]
          simp only [CfgEntries.pushTargets, List.foldl_cons, if_pos ht]
        · intro m a b
          rw [← hrest.pred]
          simp only [CfgEntries.pushTargets, List.foldl_cons, if_pos ht]
      · have hrest := ih h
        refine ⟨?_, ?_⟩
        · obtain ⟨own, hsucc⟩ := hrest.succ
          refine ⟨own, fun m a b => ?_⟩
          rw [← hsucc]
          simp only [CfgEntries.pushTargets, List.foldl_cons, if_neg ht]
        · intro m a b
          rw [← hrest.pred]
          simp only [CfgEntries.pushTargets, List.foldl_cons, if_neg ht]

/-- The edge from the last instruction of a callee. -/
theorem Forward.pushReturn {last : Location} {op : CfgEntries → CfgEntries}
    (h : Forward here none op) :
    Forward here (some (last, l)) fun m => ((op m).pushNext last (some l)).pushPredecessor l last := by
  obtain ⟨⟨own, hsucc⟩, hpred⟩ := h
  refine ⟨⟨own, fun m a b => ?_⟩, fun m a b => ?_⟩
  · have hnone : unit none a b = 0 := rfl
    rw [succCount_pushPredecessor, CfgEntries.pushNext, succCount_pushSuccessor, hsucc, hnone]
    rfl
  · have hnone : unit none a b = 0 := rfl
    rw [predCount_pushPredecessor, CfgEntries.pushNext, predCount_pushSuccessor, hpred, hnone]
    rfl

/-- What comes before the backward edges. -/
theorem exists_forward (gf : GotoFunctions) (v : Visit) :
    ∃ op, Forward v.here (v.returnEdge gf) op ∧ ∀ m, v.run gf m =
      ((op m) v.here).successors.foldl (fun m s => m.pushPredecessor s.1 v.here) (op m) := by
  obtain ⟨f, body, i, next⟩ := v
  obtain ⟨hg, ht, hc, hr, ho⟩ | ⟨hg, ht, hc, hr, ho⟩ | ⟨hg, ht, hc, hr, ho⟩ |
    ⟨hg, ht, hc, hr, ho⟩ | ⟨hg, ht, hc, hr, ho⟩ := i.kinds <;>
    simp only [Visit.run, Visit.returnEdge, computeInstruction, hg, ht, hc, hr, Bool.false_eq_true,
      if_true, if_false]
  · by_cases hguard : i.guard = .isTrue
    · simp only [hguard, ne_eq, not_true, if_false]
      exact ⟨_, Forward.id.pushTargets, fun m => rfl⟩
    · simp only [hguard, ne_eq, not_false_eq_true, if_true]
      exact ⟨_, Forward.id.pushNext.pushTargets, fun m => rfl⟩
  · cases next with
    | none => exact ⟨_, Forward.id.pushTargets, fun m => rfl⟩
    | some j => exact ⟨_, Forward.id.pushSuccessor.pushTargets, fun m => rfl⟩
  · cases hcallee : i.callee with
    | none => exact ⟨_, Forward.id, fun m => rfl⟩
    | some g =>
        cases hfind : gf.find g with
        | none =>
            simp only [Option.bind_some, hfind, Option.bind_none]
            exact ⟨_, Forward.id.pushNext, fun m => rfl⟩
        | some callee =>
            simp only [Option.bind_some, hfind]
            by_cases hbody : callee.bodyAvailable
            · simp only [hbody, if_true]
              cases hlist : callee.body with
              | nil => exact ⟨_, Forward.id.pushNext, fun m => rfl⟩
              | cons first rest =>
                  obtain ⟨last, hlast⟩ : ∃ last, (first :: rest).getLast? = some last :=
                    ⟨_, List.getLast?_eq_some_getLast (List.cons_ne_nil first rest)⟩
                  simp only [hlast, List.head?_cons, Option.bind_some]
                  cases next with
                  | none => exact ⟨_, Forward.id.pushSuccessor, fun m => rfl⟩
                  | some j => exact ⟨_, Forward.id.pushSuccessor.pushReturn, fun m => rfl⟩
            · simp only [hbody, Bool.false_eq_true, if_false]
              exact ⟨_, Forward.id.pushNext, fun m => rfl⟩
  · cases next with
    | none => exact ⟨_, Forward.id, fun m => rfl⟩
    | some j => exact ⟨_, Forward.id.pushNext, fun m => rfl⟩
  · exact ⟨_, Forward.id.pushNext, fun m => rfl⟩

/-- **The visit lemma.**  A visit appends successors of the visited
instruction and its return edge, and then makes that instruction a predecessor
of all successors that it has by now. -/
theorem counts_run (gf : GotoFunctions) (v : Visit) :
    ∃ own : Location → Nat, ∀ m a b,
      (v.run gf m).succCount a b
          = m.succCount a b + (if a = v.here then own b else 0) + unit (v.returnEdge gf) a b ∧
        (v.run gf m).predCount a b = m.predCount a b + unit (v.returnEdge gf) a b
          + if a = v.here then (v.run gf m).succCount a b else 0 := by
  obtain ⟨op, ⟨⟨own, hsucc⟩, hpred⟩, hrun⟩ := exists_forward gf v
  refine ⟨own, fun m a b => ?_⟩
  have hback := @counts_backward (op m) a b v.here ((op m) v.here).successors
  rw [← hrun] at hback
  obtain ⟨hbackSucc, hbackPred⟩ := hback
  refine ⟨hbackSucc.trans (hsucc m a b), ?_⟩
  rw [hbackPred, hpred, hbackSucc]
  by_cases ha : a = v.here
  · subst ha
    rfl
  · simp [ha]

/-! ## All visits -/

/-- How many of the visits add a return edge. -/
def returns (gf : GotoFunctions) (l : List Visit) (a b : Location) : Nat :=
  (l.map fun v => unit (v.returnEdge gf) a b).sum

/-- While an instruction has not been visited, its predecessors and successors
keep up with each other. -/
theorem counts_unvisited {l : List Visit} (ha : ∀ v ∈ l, a ≠ v.here) :
    (l.foldl (Visit.run gf) m).succCount a b = m.succCount a b + returns gf l a b ∧
      (l.foldl (Visit.run gf) m).predCount a b = m.predCount a b + returns gf l a b := by
  induction l generalizing m with
  | nil => exact ⟨rfl, rfl⟩
  | cons v l ih =>
      obtain ⟨own, hown⟩ := counts_run gf v
      obtain ⟨hsucc, hpred⟩ := hown m a b
      rw [if_neg (ha v List.mem_cons_self)] at hsucc hpred
      obtain ⟨hsuccs, hpreds⟩ := ih (m := v.run gf m) fun u hu => ha u (List.mem_cons_of_mem v hu)
      rw [List.foldl_cons, hsuccs, hpreds, hsucc, hpred]
      simp only [returns, List.map_cons, List.sum_cons]
      omega

/-- **The run lemma.**  The predecessors exceed the successors by the return
edges that were added before or at the visit of their source. -/
theorem counts_visited {before after : List Visit} {v : Visit}
    (hbefore : ∀ u ∈ before, v.here ≠ u.here) (hafter : ∀ u ∈ after, v.here ≠ u.here) :
    ((before ++ v :: after).foldl (Visit.run gf) empty).predCount v.here b
      = ((before ++ v :: after).foldl (Visit.run gf) empty).succCount v.here b
        + returns gf (before ++ [v]) v.here b := by
  obtain ⟨hsucc₁, hpred₁⟩ := @counts_unvisited gf empty _ b _ hbefore
  obtain ⟨own, hown⟩ := counts_run gf v
  obtain ⟨hsucc₂, hpred₂⟩ := hown (before.foldl (Visit.run gf) empty) v.here b
  obtain ⟨hsucc₃, hpred₃⟩ := @counts_unvisited gf
    (v.run gf (before.foldl (Visit.run gf) empty)) _ b _ hafter
  rw [if_pos rfl] at hpred₂
  have hempty : (empty : CfgEntries).succCount v.here b = 0 := rfl
  have hempty' : (empty : CfgEntries).predCount v.here b = 0 := rfl
  have hreturns : returns gf (before ++ [v]) v.here b
      = returns gf before v.here b + unit (v.returnEdge gf) v.here b := by
    simp [returns]
  rw [List.foldl_append, List.foldl_cons, hsucc₃, hpred₃, hreturns]
  omega

/-- Every instruction is among the predecessors of another as often as that one
is among its successors. -/
def Mirrors (m : CfgEntries) : Prop := ∀ a b, m.predCount a b = m.succCount a b

/-- What holds between an element and those before it. -/
theorem pairwise_of_split {α : Type*} {R : α → α → Prop} {l : List α}
    (h : ∀ before v after, l = before ++ v :: after → ∀ u ∈ before, R u v) : l.Pairwise R := by
  induction l using List.reverseRecOn with
  | nil => exact List.Pairwise.nil
  | append_singleton l v ih =>
      refine List.pairwise_append.mpr ⟨ih ?_, List.pairwise_singleton R v, ?_⟩
      · intro before w after hl
        exact h before w (after ++ [v]) (by rw [hl, List.append_assoc, List.cons_append])
      · intro u hu w hw
        rw [List.mem_singleton.mp hw]
        exact h l v [] rfl u hu

/-- Predecessors mirror successors when every return edge is added after the
visit of its source. -/
theorem mirrors_iff_visits {l : List Visit} (hl : l.Pairwise fun u v => u.here ≠ v.here) :
    (l.foldl (Visit.run gf) empty).Mirrors ↔
      (l.Pairwise fun u v => ∀ b, u.returnEdge gf ≠ some (v.here, b)) ∧
        ∀ v ∈ l, ∀ b, v.returnEdge gf ≠ some (v.here, b) := by
  have hsplit : ∀ before v after, l = before ++ v :: after →
      ((∀ b, (l.foldl (Visit.run gf) empty).predCount v.here b
          = (l.foldl (Visit.run gf) empty).succCount v.here b) ↔
        ∀ u ∈ before ++ [v], ∀ b, u.returnEdge gf ≠ some (v.here, b)) := by
    intro before v after hlist
    rw [hlist, List.pairwise_append, List.pairwise_cons] at hl
    obtain ⟨_, ⟨hafter, _⟩, hbefore⟩ := hl
    have hcount := fun b => @counts_visited gf b _ _ _
      (fun u hu => (hbefore u hu v List.mem_cons_self).symm) hafter
    rw [hlist]
    constructor
    · intro heq u hu b hedge
      have hzero : returns gf (before ++ [v]) v.here b = 0 := by
        have := heq b
        have := hcount b
        omega
      have hunit := List.sum_eq_zero_iff.mp hzero _ (List.mem_map_of_mem hu)
      rw [unit, if_pos hedge] at hunit
      cases hunit
    · intro hno b
      have hzero : returns gf (before ++ [v]) v.here b = 0 := by
        refine List.sum_eq_zero_iff.mpr fun n hn => ?_
        obtain ⟨u, hu, rfl⟩ := List.mem_map.mp hn
        exact if_neg (hno u hu b)
      rw [hcount, hzero, Nat.add_zero]
  constructor
  · intro hmirrors
    refine ⟨pairwise_of_split fun before v after hlist u hu => ?_, fun v hv => ?_⟩
    · exact (hsplit before v after hlist).mp (hmirrors v.here) u (List.mem_append_left _ hu)
    · obtain ⟨before, after, hlist⟩ := List.append_of_mem hv
      exact (hsplit before v after hlist).mp (hmirrors v.here) v
        (List.mem_append_right _ (List.mem_singleton.mpr rfl))
  · intro hno a b
    by_cases ha : ∃ v ∈ l, a = v.here
    · obtain ⟨v, hv, rfl⟩ := ha
      obtain ⟨before, after, hlist⟩ := List.append_of_mem hv
      refine (hsplit before v after hlist).mpr (fun u hu => ?_) b
      rcases List.mem_append.mp hu with hu | hu
      · have hpairs := hno.1
        rw [hlist, List.pairwise_append] at hpairs
        exact hpairs.2.2 u hu v List.mem_cons_self
      · rw [List.mem_singleton.mp hu]
        exact hno.2 v hv
    · obtain ⟨hsucc, hpred⟩ := @counts_unvisited gf empty a b l
        fun v hv heq => ha ⟨v, hv, heq⟩
      rw [hsucc, hpred]
      rfl

end CfgEntries

/-! ## The order of the functions -/

/-- `p` calls `q`, which has a body, and goes on after the call. -/
def CallsInto (p q : String × GotoFunction) : Prop :=
  p.2.bodyAvailable ∧ q.2.bodyAvailable ∧ q.2.body ≠ [] ∧
    ∃ i j, Consecutive p.2.body i j ∧ i.isFunctionCall ∧ i.callee = some q.1

/-- No function calls itself or one that comes later. -/
def CalleesFirst (gf : GotoFunctions) : Prop :=
  (∀ p ∈ gf.functionMap, ¬ CallsInto p p) ∧ gf.functionMap.Pairwise fun p q => ¬ CallsInto p q

/-- The visits of a body are its instructions. -/
theorem mem_visitsOf {f : String} {body rest : List Instruction} {v : Visit} :
    v ∈ visitsOf f body rest ↔
      ∃ before i after, rest = before ++ i :: after ∧ v = ⟨f, body, i, after.head?⟩ := by
  induction rest with
  | nil => simp [visitsOf]
  | cons k rest ih =>
      rw [visitsOf, List.mem_cons, ih]
      constructor
      · intro hv
        obtain rfl | ⟨before, i, after, rfl, rfl⟩ := hv
        · exact ⟨[], k, rest, rfl, rfl⟩
        · exact ⟨k :: before, i, after, rfl, rfl⟩
      · intro hv
        obtain ⟨before, i, after, hsplit, rfl⟩ := hv
        cases before with
        | nil =>
            obtain ⟨rfl, rfl⟩ := List.cons.inj hsplit
            exact Or.inl rfl
        | cons b before =>
            obtain ⟨rfl, rfl⟩ := List.cons.inj hsplit
            exact Or.inr ⟨before, i, after, rfl, rfl⟩

/-- Only bodies that are there are visited. -/
theorem mem_visitsIn {p : String × GotoFunction} {v : Visit} :
    v ∈ visitsIn p ↔ p.2.bodyAvailable = true ∧
      ∃ before i after, p.2.body = before ++ i :: after ∧ v = ⟨p.1, p.2.body, i, after.head?⟩ := by
  rw [visitsIn]
  split_ifs with hbody
  · rw [mem_visitsOf]
    exact ⟨fun h => ⟨hbody, h⟩, fun h => h.2⟩
  · exact ⟨fun h => absurd h List.not_mem_nil, fun h => absurd h.1 hbody⟩

/-- No instruction is visited twice. -/
theorem visitsOf_pairwise {f : String} {body rest : List Instruction}
    (h : (rest.map Instruction.pc).Nodup) :
    (visitsOf f body rest).Pairwise fun u v => u.here ≠ v.here := by
  induction rest with
  | nil => exact List.Pairwise.nil
  | cons i rest ih =>
      rw [List.map_cons, List.nodup_cons] at h
      refine List.pairwise_cons.mpr ⟨fun v hv heq => ?_, ih h.2⟩
      obtain ⟨before, k, after, rfl, rfl⟩ := mem_visitsOf.mp hv
      have hpc : i.pc = k.pc := (locationOf_inj.mp heq).2
      exact h.1 (List.mem_map.mpr ⟨k, List.mem_append_cons_self, hpc.symm⟩)

/-- Every instruction is visited once. -/
theorem visits_pairwise (gf : GotoFunctions) :
    (visits gf).Pairwise fun u v => u.here ≠ v.here := by
  refine List.pairwise_flatMap.mpr ⟨fun p _ => ?_, ?_⟩
  · rw [visitsIn]
    split_ifs with hbody
    · exact visitsOf_pairwise p.2.pcs_nodup
    · exact List.Pairwise.nil
  · have hnames : gf.functionMap.Pairwise fun p q => p.1 ≠ q.1 := List.pairwise_map.mp gf.names_nodup
    refine hnames.imp fun hne u hu v hv heq => ?_
    obtain ⟨_, _, i, _, _, rfl⟩ := mem_visitsIn.mp hu
    obtain ⟨_, _, j, _, _, rfl⟩ := mem_visitsIn.mp hv
    exact hne (locationOf_inj.mp heq).1

/-- The edge back from a call. -/
theorem returnEdge_eq_some {gf : GotoFunctions} {v : Visit} {a b : Location} :
    v.returnEdge gf = some (a, b) ↔ v.i.isFunctionCall = true ∧ ∃ g callee last j,
      v.i.callee = some g ∧ gf.find g = some callee ∧ callee.bodyAvailable = true ∧
        callee.body.getLast? = some last ∧ v.next = some j ∧
        a = locationOf g last.pc ∧ b = locationOf v.f j.pc := by
  rw [Visit.returnEdge]
  split_ifs with hcall
  · simp only [Option.bind_eq_some_iff, Option.ite_none_right_eq_some, Option.map_eq_some_iff,
      Prod.mk.injEq, hcall, true_and]
    constructor
    · intro h
      obtain ⟨g, hg, callee, hfind, hbody, last, hlast, j, hj, rfl, rfl⟩ := h
      exact ⟨g, callee, last, j, hg, hfind, hbody, hlast, hj, rfl, rfl⟩
    · intro h
      obtain ⟨g, callee, last, j, hg, hfind, hbody, hlast, hj, rfl, rfl⟩ := h
      exact ⟨g, hg, callee, hfind, hbody, last, hlast, j, hj, rfl, rfl⟩
  · exact iff_of_false nofun fun h => hcall h.1

/-- The last visit is that of the last instruction. -/
theorem visitsOf_last {f : String} {body rest : List Instruction} {last : Instruction}
    (hlast : rest.getLast? = some last) :
    ∃ init, visitsOf f body rest = init ++ [⟨f, body, last, none⟩] := by
  induction rest with
  | nil => cases hlast
  | cons i rest ih =>
      cases rest with
      | nil =>
          obtain rfl : i = last := Option.some.inj hlast
          exact ⟨[], rfl⟩
      | cons k rest =>
          rw [List.getLast?_cons_cons] at hlast
          obtain ⟨init, hinit⟩ := ih hlast
          exact ⟨⟨f, body, i, some k⟩ :: init, by rw [visitsOf, hinit]; rfl⟩

/-- The last visit of a function is that of its last instruction. -/
theorem visitsIn_last {q : String × GotoFunction} (hbody : q.2.bodyAvailable) {last : Instruction}
    (hlast : q.2.body.getLast? = some last) :
    ∃ init, visitsIn q = init ++ [⟨q.1, q.2.body, last, none⟩] := by
  rw [visitsIn, if_pos hbody]
  exact visitsOf_last hlast

/-- The visits of one function add return edges from the other when it calls it. -/
theorem exists_returnEdge_iff {gf : GotoFunctions} {p q : String × GotoFunction}
    (hq : q ∈ gf.functionMap) :
    (∃ u ∈ visitsIn p, ∃ v ∈ visitsIn q, ∃ b, u.returnEdge gf = some (v.here, b)) ↔
      CallsInto p q := by
  have hfind : gf.find q.1 = some q.2 := GotoFunctions.find_eq_some.mpr hq
  constructor
  · intro h
    obtain ⟨u, hu, v, hv, b, hedge⟩ := h
    obtain ⟨hbodyP, before, i, after, hsplit, rfl⟩ := mem_visitsIn.mp hu
    obtain ⟨hbodyQ, before', k, after', hsplit', rfl⟩ := mem_visitsIn.mp hv
    obtain ⟨hcall, g, callee, last, j, hcallee, _, _, _, hnext, hsource, _⟩ :=
      returnEdge_eq_some.mp hedge
    have hg : q.1 = g := (locationOf_inj.mp hsource).1
    refine ⟨hbodyP, hbodyQ, ?_, i, j, (GotoFunction.consecutive_iff hsplit).mpr hnext, hcall,
      hg ▸ hcallee⟩
    rw [hsplit']
    exact List.append_ne_nil_of_right_ne_nil _ (List.cons_ne_nil _ _)
  · intro h
    obtain ⟨hbodyP, hbodyQ, hne, i, j, hnext, hcall, hcallee⟩ := h
    obtain ⟨before, after, hsplit⟩ := hnext
    obtain ⟨last, hlast⟩ : ∃ last, q.2.body.getLast? = some last :=
      ⟨_, List.getLast?_eq_some_getLast hne⟩
    obtain ⟨init, hinit⟩ := visitsIn_last hbodyQ hlast
    refine ⟨⟨p.1, p.2.body, i, some j⟩, ?_, ⟨q.1, q.2.body, last, none⟩, ?_,
      locationOf p.1 j.pc, ?_⟩
    · exact mem_visitsIn.mpr ⟨hbodyP, before, i, j :: after, hsplit, rfl⟩
    · rw [hinit]
      exact List.mem_append_right _ (List.mem_singleton.mpr rfl)
    · exact returnEdge_eq_some.mpr
        ⟨hcall, q.1, q.2, last, j, hcallee, hfind, hbodyQ, hlast, rfl, rfl, rfl⟩

/-- A function that calls itself does so before its last instruction. -/
theorem callsInto_self_iff {gf : GotoFunctions} {p : String × GotoFunction}
    (hp : p ∈ gf.functionMap) :
    ((visitsIn p).Pairwise (fun u v => ∀ b, u.returnEdge gf ≠ some (v.here, b)) ∧
      ∀ v ∈ visitsIn p, ∀ b, v.returnEdge gf ≠ some (v.here, b)) ↔ ¬ CallsInto p p := by
  constructor
  · intro h hcalls
    obtain ⟨hpairs, hself⟩ := h
    obtain ⟨u, hu, v, hv, b, hedge⟩ := (exists_returnEdge_iff hp).mpr hcalls
    obtain ⟨hbody, _, hne, _⟩ := hcalls
    obtain ⟨last, hlast⟩ : ∃ last, p.2.body.getLast? = some last :=
      ⟨_, List.getLast?_eq_some_getLast hne⟩
    obtain ⟨init, hinit⟩ := visitsIn_last hbody hlast
    have hfind : gf.find p.1 = some p.2 := GotoFunctions.find_eq_some.mpr hp
    -- the edge starts at the last visit
    have hv' : v.here = locationOf p.1 last.pc := by
      obtain ⟨_, g, callee, last', _, _, hfind', _, hlast', _, hsource, _⟩ :=
        returnEdge_eq_some.mp hedge
      obtain ⟨_, _, k, _, _, rfl⟩ := mem_visitsIn.mp hv
      obtain ⟨rfl, hpc⟩ := locationOf_inj.mp hsource
      obtain rfl : callee = p.2 := Option.some.inj (hfind'.symm.trans hfind)
      obtain rfl : last' = last := Option.some.inj (hlast'.symm.trans hlast)
      exact locationOf_inj.mpr ⟨rfl, hpc⟩
    rw [hv'] at hedge
    rw [hinit] at hu hpairs hself
    rcases List.mem_append.mp hu with hu | hu
    · exact (List.pairwise_append.mp hpairs).2.2 u hu _ (List.mem_singleton.mpr rfl) b hedge
    · rw [List.mem_singleton.mp hu] at hedge
      exact hself _ (List.mem_append_right _ (List.mem_singleton.mpr rfl)) b hedge
  · intro hcalls
    have hno : ∀ u ∈ visitsIn p, ∀ v ∈ visitsIn p, ∀ b, u.returnEdge gf ≠ some (v.here, b) :=
      fun u hu v hv b hedge => hcalls ((exists_returnEdge_iff hp).mp ⟨u, hu, v, hv, b, hedge⟩)
    refine ⟨List.Pairwise.imp_of_mem (R := fun _ _ => True) ?_ ?_, fun v hv => hno v hv v hv⟩
    · exact fun hu hv _ => hno _ hu _ hv
    · exact List.pairwise_of_forall fun _ _ => trivial

/-- **The mirror.**  Predecessors mirror successors if and only if no function
calls itself or one that is processed after it. -/
theorem mirrors_iff (gf : GotoFunctions) :
    (CfgEntries.empty.computeEdges gf).Mirrors ↔ CalleesFirst gf := by
  rw [CfgEntries.computeEdges_eq, CfgEntries.mirrors_iff_visits (visits_pairwise gf), visits,
    List.pairwise_flatMap, CalleesFirst]
  have hpairs : (gf.functionMap.Pairwise fun p q => ∀ u ∈ visitsIn p, ∀ v ∈ visitsIn q,
      ∀ b, u.returnEdge gf ≠ some (v.here, b)) ↔
      gf.functionMap.Pairwise fun p q => ¬ CallsInto p q := by
    refine List.Pairwise.iff_of_mem fun hp hq => ?_
    rw [← exists_returnEdge_iff hq]
    push Not
    rfl
  have hself : ((∀ p ∈ gf.functionMap, (visitsIn p).Pairwise
        fun u v => ∀ b, u.returnEdge gf ≠ some (v.here, b)) ∧
      ∀ v ∈ gf.functionMap.flatMap visitsIn, ∀ b, v.returnEdge gf ≠ some (v.here, b)) ↔
      ∀ p ∈ gf.functionMap, ¬ CallsInto p p := by
    constructor
    · intro h p hp
      refine (callsInto_self_iff hp).mp ⟨h.1 p hp, fun v hv => h.2 v ?_⟩
      exact List.mem_flatMap.mpr ⟨p, hp, hv⟩
    · intro h
      refine ⟨fun p hp => ((callsInto_self_iff hp).mpr (h p hp)).1, fun v hv => ?_⟩
      obtain ⟨p, hp, hv⟩ := List.mem_flatMap.mp hv
      exact ((callsInto_self_iff hp).mpr (h p hp)).2 v hv
  rw [← hself, ← hpairs]
  tauto

/-! ## Two orders -/

namespace CfgEntries

/-- The successors do not depend on the order of the visits. -/
theorem succCount_perm {gf : GotoFunctions} {l l' : List Visit} (h : l.Perm l') (a b : Location) :
    (l.foldl (Visit.run gf) empty).succCount a b = (l'.foldl (Visit.run gf) empty).succCount a b := by
  have hadded : ∀ v m, (Visit.run gf m v).succCount a b
      = m.succCount a b + (Visit.run gf empty v).succCount a b := by
    intro v m
    obtain ⟨own, hown⟩ := counts_run gf v
    have hempty : (empty : CfgEntries).succCount a b = 0 := rfl
    rw [(hown m a b).1, (hown empty a b).1, hempty]
    omega
  have hsum : ∀ (l : List Visit) m, (l.foldl (Visit.run gf) m).succCount a b
      = m.succCount a b + (l.map fun v => (Visit.run gf empty v).succCount a b).sum := by
    intro l
    induction l with
    | nil => exact fun m => rfl
    | cons v l ih =>
        intro m
        rw [List.foldl_cons, ih, hadded, List.map_cons, List.sum_cons, Nat.add_assoc]
  rw [hsum, hsum, (h.map _).sum_eq]

/-- A visit looks functions up by their names. -/
theorem run_congr {gf gf' : GotoFunctions} (hfind : gf.find = gf'.find) :
    Visit.run gf = Visit.run gf' := by
  funext m v
  simp only [Visit.run, computeInstruction, hfind]

variable {gf gf' : GotoFunctions}

/-- The order of the map does not matter for finding. -/
theorem find_perm (hperm : gf.functionMap.Perm gf'.functionMap) : gf.find = gf'.find := by
  funext g
  refine Option.ext fun fct => ?_
  rw [GotoFunctions.find_eq_some, GotoFunctions.find_eq_some, hperm.mem_iff]

/-- The number of successors does not depend on the order. -/
theorem succCount_computeEdges (hperm : gf.functionMap.Perm gf'.functionMap) (a b : Location) :
    (empty.computeEdges gf).succCount a b = (empty.computeEdges gf').succCount a b := by
  rw [computeEdges_eq, computeEdges_eq, ← run_congr (find_perm hperm)]
  exact succCount_perm (hperm.flatMap_right visitsIn) a b

/-- Two graphs whose lists differ in their order. -/
structure SameCounts (m m' : CfgEntries) : Prop where
  successors : ∀ l, ((m l).successors.map Prod.fst).Perm ((m' l).successors.map Prod.fst)
  predecessors : ∀ l, (m l).predecessors.Perm (m' l).predecessors

/-- In orders that let predecessors mirror successors, the counts agree. -/
theorem sameCounts_of_mirrors (hperm : gf.functionMap.Perm gf'.functionMap)
    (h : (empty.computeEdges gf).Mirrors) (h' : (empty.computeEdges gf').Mirrors) :
    SameCounts (empty.computeEdges gf) (empty.computeEdges gf') where
  successors l := List.perm_iff_count.mpr fun b => succCount_computeEdges hperm l b
  predecessors l := by
    refine List.perm_iff_count.mpr fun a => ?_
    exact (h a l).trans ((succCount_computeEdges hperm a l).trans (h' a l).symm)

end CfgEntries

namespace Collected

/-- Two insertions can be exchanged. -/
theorem insert_comm (acc : Collected) (here x y : Location) :
    (acc.insert here x true).insert here y true = (acc.insert here y true).insert here x true := by
  have hedges : (acc.edges.insert (toLex (here, x))).insert (toLex (here, y))
      = (acc.edges.insert (toLex (here, y))).insert (toLex (here, x)) := by
    refine SortedSet.ext fun e => ?_
    simp only [SortedSet.mem_insert]
    exact or_left_comm
  simp only [insert, hedges]

variable {cfg cfg' : CfgEntries}

/-- The loops see only how many successors there are. -/
theorem addSuccessors_congr (h : CfgEntries.SameCounts cfg cfg') (f : String) (acc : Collected)
    (e : Instruction) : addSuccessors cfg f acc e = addSuccessors cfg' f acc e := by
  have hmap : ∀ m : CfgEntries, addSuccessors m f acc e
      = ((m (locationOf f e.pc)).successors.map Prod.fst).foldl
          (fun acc dst => acc.insert (locationOf f e.pc) dst true) acc := by
    intro m
    rw [addSuccessors, List.foldl_map]
  rw [hmap, hmap]
  exact (h.successors _).foldl_eq' (fun x _ y _ acc => insert_comm acc _ x y) acc

/-- The block entries depend on the counts only. -/
theorem basicblockentry_congr (h : CfgEntries.SameCounts cfg cfg') :
    basicblockentry cfg = basicblockentry cfg' := by
  funext f body acc
  have hlength : ∀ l, (cfg l).successors.length = (cfg' l).successors.length := by
    intro l
    have hsuccessors := (h.successors l).length_eq
    rwa [List.length_map, List.length_map] at hsuccessors
  have hempty : ∀ l, (cfg l).successors ≠ [] ↔ (cfg' l).successors ≠ [] := by
    intro l
    rw [← List.length_pos_iff_ne_nil, ← List.length_pos_iff_ne_nil, hlength]
  simp only [basicblockentry, hlength, hempty, fun l => (h.predecessors l).length_eq,
    addSuccessors_congr h]

end Collected

/-- **Processing orders.**  In two processing orders of one set of functions,
predecessors mirror successors, the predecessors agree and the target graph of
`@BASICBLOCKENTRY` is the same if and only if in both orders no function calls
itself or one that is processed after it. -/
theorem processing_orders_iff (main : String) (gf gf' : GotoFunctions)
    (hperm : gf.functionMap.Perm gf'.functionMap) :
    ((CfgEntries.empty.computeEdges gf).Mirrors ∧ (CfgEntries.empty.computeEdges gf').Mirrors ∧
      (∀ l, (CfgEntries.empty.computeEdges gf l).predecessors.Perm
        (CfgEntries.empty.computeEdges gf' l).predecessors) ∧
      collectEdges main (CfgEntries.empty.computeEdges gf) gf .fBasicblockentry
        = collectEdges main (CfgEntries.empty.computeEdges gf') gf .fBasicblockentry) ↔
      CalleesFirst gf ∧ CalleesFirst gf' := by
  rw [← mirrors_iff, ← mirrors_iff]
  constructor
  · intro h
    exact ⟨h.1, h.2.1⟩
  · intro h
    have hsame := CfgEntries.sameCounts_of_mirrors hperm h.1 h.2
    refine ⟨h.1, h.2, hsame.predecessors, ?_⟩
    simp only [collectEdges, Collected.basicblockentry_congr hsame]

/-- An instruction of `f` at `pc`. -/
def codeInstruction (pc : Nat) (f : String) (type : InstructionType) (code : Code) : Instruction :=
  ⟨pc, type, code, f, none, .isTrue, [], []⟩

/-- `main` calls `work` and then does something else. -/
def mainFunction : String × GotoFunction :=
  ("main", ⟨true, false,
    [codeInstruction 0 "main" .functionCall (.functionCall (some "work")),
      codeInstruction 1 "main" .assign .none, codeInstruction 2 "main" .endFunction .none],
    by decide⟩)

/-- `work` does one thing. -/
def workFunction : String × GotoFunction :=
  ("work", ⟨true, false,
    [codeInstruction 0 "work" .assign .none, codeInstruction 1 "work" .endFunction .none],
    by decide⟩)

/-- The caller comes first. -/
def callerFirst : GotoFunctions := ⟨[mainFunction, workFunction], by decide⟩

/-- The callee comes first. -/
def calleeFirst : GotoFunctions := ⟨[workFunction, mainFunction], by decide⟩

theorem processing_orders_main_work :
    callerFirst.functionMap.Perm calleeFirst.functionMap ∧
    (((CfgEntries.empty.computeEdges callerFirst).Mirrors ∧
        (CfgEntries.empty.computeEdges calleeFirst).Mirrors ∧
        (∀ l, (CfgEntries.empty.computeEdges callerFirst l).predecessors.Perm
          (CfgEntries.empty.computeEdges calleeFirst l).predecessors) ∧
        collectEdges "main" (CfgEntries.empty.computeEdges callerFirst) callerFirst .fBasicblockentry
          = collectEdges "main" (CfgEntries.empty.computeEdges calleeFirst) callerFirst
            .fBasicblockentry) ↔
      CalleesFirst callerFirst ∧ CalleesFirst calleeFirst) :=
  have hperm : callerFirst.functionMap.Perm calleeFirst.functionMap := List.Perm.swap _ _ _
  ⟨hperm, processing_orders_iff "main" callerFirst calleeFirst hperm⟩

/-- With the caller first, the return location has the end of the callee among
its predecessors twice. -/
theorem callerFirst_not_mirrors :
    ¬ ∀ gf gf' : GotoFunctions, gf.functionMap.Perm gf'.functionMap →
      (CfgEntries.empty.computeEdges gf).Mirrors ∧
      (∀ l, (CfgEntries.empty.computeEdges gf l).predecessors.Perm
        (CfgEntries.empty.computeEdges gf' l).predecessors) ∧
      collectEdges "main" (CfgEntries.empty.computeEdges gf) gf .fBasicblockentry
        = collectEdges "main" (CfgEntries.empty.computeEdges gf') gf .fBasicblockentry := by
  intro h
  have hmirrors := (h callerFirst calleeFirst (List.Perm.swap _ _ _)).1
    (locationOf "work" 1) (locationOf "main" 1)
  revert hmirrors
  decide +kernel

end FShell
