import FShell.Evaluation.EvaluateCoveragePattern
import FShell.Evaluation.GoalRuns
import FShell.Evaluation.PathPatternLanguage
import FShell.Goto.GotoFunctions

/-!
# Printing test goals

`print_test_goal` follows the table of conjunctions that `visit(CP_Concat)`
fills, down to the goals of atoms.  A conjunction that `land` names by a fresh
variable has operands with smaller variables; one of a literal with itself is
that literal, and its entry makes the printing go round in circles.

The table of literals is read by states here (`EncodedStates`); for what `build`
writes down this makes the same goals as the reading by states and edges
(`StoredGoals.toStates_visitor`).

The goals of an atom are disjunctions of the literals of encoded states.  Those
that `lor` does not name by a fresh variable are literals of the program, and
different atoms may have the same (`printTestGoals_iff`).
-/

namespace FShell

/-! ## The goals of an atom -/

/-- What `Compute_Test_Goals_Boolean::do_atom` reads: the clauses of the encoded
program and automata, the initial states of the automaton, and
`m_tg_to_lit_map`, the literals of each edge into a state. -/
structure EncodedStates where
  cnf : Cnf
  initial : List TaState
  tgToLitMap : TaState → Option (List (List Literal))
  below : ∀ q edges, tgToLitMap q = some edges → ∀ lits ∈ edges, ∀ l ∈ lits,
    l.Below cnf.noVariables

/-- The loop over the edges of the selected states: the vectors that `lor` is
called with. -/
def collectSets (makeSingle : Bool) : List Literal → List (List Literal) → List (List Literal)
  | set, [] => if set = [] then [] else [set]
  | set, lits :: edges =>
      if makeSingle = false ∧ set ++ lits ≠ [] then
        (set ++ lits) :: collectSets makeSingle [] edges
      else collectSets makeSingle (set ++ lits) edges

/-- The calls of `lor`, one after the other. -/
def lorAll (c : Cnf) : List (List Literal) → List (Literal × List Literal) × Cnf
  | [] => ([], c)
  | set :: sets =>
      let (tg, c) := c.lorVector set
      let (entries, c) := lorAll c sets
      ((tg, set) :: entries, c)

namespace EncodedStates

variable (env : EncodedStates)

/-- The sets of literals of the goals. -/
def goalSets (tgStates : List TaState) (makeSingle : Bool) : List (List Literal) :=
  let hasInitial := tgStates.any fun q => q ∈ env.initial
  let selected := tgStates.filterMap env.tgToLitMap
  collectSets makeSingle (if hasInitial then [.const true] else []) selected.flatten

/-- The sets are made of the literals of the edges. -/
theorem collectSets_subset {makeSingle : Bool} {set : List Literal}
    {edges : List (List Literal)} {out : List Literal} (hout : out ∈ collectSets makeSingle set edges)
    {l : Literal} (hl : l ∈ out) : l ∈ set ∨ ∃ lits ∈ edges, l ∈ lits := by
  induction edges generalizing set with
  | nil =>
      rw [collectSets] at hout
      split_ifs at hout
      · cases hout
      · cases List.mem_singleton.mp hout
        exact Or.inl hl
  | cons lits edges ih =>
      rw [collectSets] at hout
      have hsplit : l ∈ set ++ lits → l ∈ set ∨ ∃ k ∈ lits :: edges, l ∈ k := by
        intro h
        rcases List.mem_append.mp h with h | h
        · exact Or.inl h
        · exact Or.inr ⟨lits, List.mem_cons_self, h⟩
      split_ifs at hout
      · rcases List.mem_cons.mp hout with rfl | hout
        · exact hsplit hl
        · obtain ⟨k, hk, hmem⟩ := (ih hout).resolve_left List.not_mem_nil
          exact Or.inr ⟨k, List.mem_cons_of_mem _ hk, hmem⟩
      · rcases ih hout with h | ⟨k, hk, hmem⟩
        · exact hsplit h
        · exact Or.inr ⟨k, List.mem_cons_of_mem _ hk, hmem⟩

/-- The sets use the variables that are there. -/
theorem goalSets_below {tgStates : List TaState} {makeSingle : Bool} {set : List Literal}
    (hset : set ∈ env.goalSets tgStates makeSingle) {l : Literal} (hl : l ∈ set) :
    l.Below env.cnf.noVariables := by
  rcases collectSets_subset hset hl with hinit | ⟨lits, hlits, hmem⟩
  · split_ifs at hinit
    · cases List.mem_singleton.mp hinit
      trivial
    · cases hinit
  · obtain ⟨edges, hedges, hlits⟩ := List.mem_flatten.mp hlits
    obtain ⟨q, -, hq⟩ := List.mem_filterMap.mp hedges
    exact env.below q edges hq lits hlits l hmem

end EncodedStates

/-- The disjunctions are definitions. -/
theorem lorAll_defines {n : Nat} (sets : List (List Literal)) (c : Cnf) (hn : n ≤ c.noVariables)
    (hsets : ∀ set ∈ sets, ∀ l ∈ set, l.Below n) :
    Cnf.Defines c (lorAll c sets).2 ∧
      ∀ entry ∈ (lorAll c sets).1, entry.1.Below (lorAll c sets).2.noVariables := by
  induction sets generalizing c with
  | nil => exact ⟨Cnf.Defines.refl c, fun _ h => absurd h List.not_mem_nil⟩
  | cons set sets ih =>
      have hnames := Cnf.lorVector_names (c := c) fun l hl =>
        (hsets set List.mem_cons_self l hl).mono hn
      obtain ⟨hdefines, hbelow⟩ := ih (c.lorVector set).2 (hn.trans hnames.defines.le)
        fun s hs => hsets s (List.mem_cons_of_mem _ hs)
      refine ⟨hnames.defines.trans hdefines, fun entry hentry => ?_⟩
      rcases List.mem_cons.mp hentry with rfl | hentry
      · exact hnames.below.mono hdefines.le
      · exact hbelow entry hentry

/-- `Compute_Test_Goals_Boolean`. -/
def EncodedStates.visitor (F P : Type) (env : EncodedStates) : AtomVisitor F P where
  cnf := env.cnf
  doAtom := fun _ tgStates _ makeSingle c => lorAll c (env.goalSets tgStates makeSingle)
  defines := fun _ _ _ _ c hc => (lorAll_defines _ c hc fun _ hset _ hl =>
    env.goalSets_below hset hl).1
  below := fun _ _ _ _ c hc => (lorAll_defines _ c hc fun _ hset _ hl =>
    env.goalSets_below hset hl).2

/-! ## The table that `build` writes down -/

namespace StoredGoals
variable {ν : Type} [LinearOrder ν] (goals : StoredGoals ν)

/-- The edges with literals under a state. -/
def entryKeys (q : TaState) : List (TaState ×ₗ (ν ×ₗ ν)) :=
  goals.recorded.tgToLitMap.keys.toList.filter fun k => (ofLex k).1 = q

/-- The table that was written down, by states. -/
def toStates : EncodedStates where
  cnf := goals.cnf
  initial := goals.initial
  tgToLitMap := fun q =>
    if goals.entryKeys q = [] then none else some ((goals.entryKeys q).map goals.literals)
  below := by
    intro q edges hedges lits hlits l hl
    have hmap : edges = (goals.entryKeys q).map goals.literals := by
      split_ifs at hedges
      exact (Option.some_inj.mp hedges).symm
    rw [hmap] at hlits
    obtain ⟨key, -, rfl⟩ := List.mem_map.mp hlits
    exact goals.below key l hl

/-- The edges of the selected states come in the same order. -/
theorem toStates_selected (tgStates : List TaState) :
    (tgStates.filterMap goals.toStates.tgToLitMap).flatten =
      (goals.selected tgStates).map goals.literals := by
  induction tgStates with
  | nil => rfl
  | cons q qs ih =>
      have hstep : goals.selected (q :: qs) = goals.entryKeys q ++ goals.selected qs := rfl
      rw [hstep, List.map_append, ← ih]
      cases hkeys : goals.entryKeys q with
      | nil =>
          have hnone : goals.toStates.tgToLitMap q = none := if_pos hkeys
          rw [List.filterMap_cons_none hnone]
          rfl
      | cons key keys =>
          have hsome : goals.toStates.tgToLitMap q = some ((key :: keys).map goals.literals) := by
            rw [← hkeys]
            exact if_neg (by simp [hkeys])
          rw [List.filterMap_cons_some hsome]
          rfl

/-- What the loop of `do_atom` has inserted, with the disjunction behind it. -/
theorem atomLoop_lorAll (makeSingle : Bool) (keys : List (TaState ×ₗ (ν ×ₗ ν)))
    (set : List Literal) (c : Cnf) :
    let out := goals.atomLoop makeSingle keys set c
    (if out.1.2.isEmpty then (out.1.1, out.2)
      else (out.1.1 ++ [((out.2.lorVector out.1.2).1, out.1.2)], (out.2.lorVector out.1.2).2)) =
      lorAll c (collectSets makeSingle set (keys.map goals.literals)) := by
  induction keys generalizing set c with
  | nil => cases set <;> rfl
  | cons key rest ih =>
      rw [atomLoop, List.map_cons, collectSets]
      by_cases hinsert : makeSingle = false ∧ set ++ goals.literals key ≠ []
      · have hflag : (!makeSingle && !(set ++ goals.literals key).isEmpty) = true := by
          simpa [List.isEmpty_iff] using hinsert
        have hrest := ih [] (c.lorVector (set ++ goals.literals key)).2
        simp only [hflag, if_true]
        rw [if_pos hinsert, lorAll]
        dsimp only at hrest ⊢
        rw [← hrest]
        split <;> rfl
      · have hflag : ¬(!makeSingle && !(set ++ goals.literals key).isEmpty) = true := by
          simpa [List.isEmpty_iff] using hinsert
        simp only [hflag]
        rw [if_neg hinsert, ← ih]
        rfl

/-- **Both readings of the table make the same goals.** -/
theorem toStates_doAtom (tgStates : List TaState) (makeSingle : Bool) (c : Cnf) :
    goals.doAtom tgStates makeSingle c =
      lorAll c (goals.toStates.goalSets tgStates makeSingle) := by
  rw [EncodedStates.goalSets, toStates_selected]
  exact goals.atomLoop_lorAll makeSingle _ _ c

/-- What is shown of the printing holds of the table that `build` has written down. -/
theorem toStates_visitor (F P : Type) :
    goals.toStates.visitor F P = goals.atomVisitor F P := by
  simp only [EncodedStates.visitor, atomVisitor, toStates_doAtom]
  rfl

end StoredGoals

/-! ## Printing -/

/-- `m_and_map.find(tg)`. -/
def findAnd (andMap : List (Literal × Literal × Literal)) (tg : Literal) :
    Option (Literal × Literal) :=
  andMap.lookup tg

/-- The text of an instruction's location. -/
def locationText (i : Instruction) : String :=
  match i.sourceLocation with
  | none => "NO_LOCATION"
  | some l => l.file ++ ":" ++ l.line

/-- The text of a member of `ctx_coll_t`. -/
def contextText (ctx : Instruction × Instruction) : String :=
  locationText ctx.1 ++
    if ctx.2 ≠ ctx.1 ∧ ctx.1.isGoto ∧ ctx.2.sourceLocation.isSome then
      "-" ++ locationText ctx.2
    else ""

/-- The goal of an atom. -/
def contextsText (contexts : List (Instruction × Instruction)) : String :=
  let text := String.intercalate "|" (contexts.map contextText)
  if contexts.length > 1 then "(" ++ text ++ ")" else text

/-- `print_test_goal`, for at most `fuel` nested calls; `contexts` is
`m_tg_to_ctx_map`. -/
def printTestGoal (andMap : List (Literal × Literal × Literal))
    (contexts : Literal → List (Instruction × Instruction)) : Nat → Literal → Option String
  | 0, _ => none
  | fuel + 1, tg =>
      if tg.isTrue then some "<TRUE>"
      else
        match findAnd andMap tg with
        | some (a, b) =>
            (printTestGoal andMap contexts fuel a).bind fun first =>
              (printTestGoal andMap contexts fuel b).map fun second => first ++ "..." ++ second
        | none => some (contextsText (contexts tg))

/-- `b` is a conjunct of `a`. -/
def IsConjunct (andMap : List (Literal × Literal × Literal)) (b a : Literal) : Prop :=
  ∃ x y, (a, x, y) ∈ andMap ∧ (b = x ∨ b = y)

/-- The table has no cycle, and every goal of every id is printed. -/
def PrintsTestGoals (st : GoalTables) : Prop :=
  WellFounded (IsConjunct st.andMap) ∧
    ∀ rows, makeIdMap st.testGoalGroups = some rows → ∀ row ∈ rows, ∀ tg ∈ row, ∀ contexts,
      ∃ fuel, (printTestGoal st.andMap contexts fuel tg).isSome = true

/-! ## The goals without fresh variables -/

/-- The result of `land` if it is not a literal of a fresh variable. -/
def landKept (a b : Literal) : Option Literal :=
  if a.isTrue then some b
  else if b.isTrue then some a
  else if a.isFalse then some a
  else if b.isFalse then some b
  else if a = b then some a
  else none

/-- The result of `lor` if it is not a literal of a fresh variable. -/
def lorKept : List Literal → Option Literal
  | [] => some (.const false)
  | [a] => some a
  | [a, b] =>
      if a.isFalse then some b
      else if b.isFalse then some a
      else if a.isTrue then some a
      else if b.isTrue then some b
      else if a = b then some a
      else none
  | set =>
      if set.any Literal.isTrue then some (.const true)
      else if set.all Literal.isFalse then some (.const false)
      else none

namespace EncodedStates

variable {F P : Type} (env : EncodedStates)

/-- The goals of a pattern inside an alternative that are constants or literals
of the program. -/
def keptGoals {cp : CoveragePattern F P} : TestGoalStates cp → List Literal
  | @TestGoalStates.atom _ _ a tgStates =>
      (env.goalSets tgStates (makeSingle a)).filterMap lorKept
  | .quote tgStates => (env.goalSets tgStates true).filterMap lorKept
  | .cpAlternative _ childA childB => keptGoals childA ++ keptGoals childB
  | .cpConcat _ childA childB =>
      (keptGoals childA ×ˢ keptGoals childB).filterMap fun pair => landKept pair.1 pair.2

/-- The operands of no concatenation inside an alternative have a literal of
the program in common. -/
def Apart {cp : CoveragePattern F P} (nested : Bool) : TestGoalStates cp → Prop
  | .atom _ => True
  | .quote _ => True
  | .cpAlternative _ childA childB => Apart true childA ∧ Apart true childB
  | .cpConcat _ childA childB =>
      Apart nested childA ∧ Apart nested childB ∧
        (nested = true → ∀ l ∈ env.keptGoals childA, l ∈ env.keptGoals childB →
          l.isConstant = true)

end EncodedStates

/-! ## What the operations leave -/

/-- The value is simplified, or a literal of the next variable. -/
def Simplifies (c : Cnf) (kept : Option Literal) (out : Literal × Cnf) : Prop :=
  match kept with
  | some l => out = (l, c)
  | none => out.1 = .var c.noVariables false ∧ out.2.noVariables = c.noVariables + 1

/-- A conjunction keeps a literal or is a fresh one. -/
theorem land_simplifies (c : Cnf) (a b : Literal) : Simplifies c (landKept a b) (c.land a b) := by
  unfold landKept Cnf.land
  split_ifs <;> simp [Simplifies, Cnf.newVariable, Cnf.gateAnd]

/-- A disjunction keeps a literal or is a fresh one. -/
theorem lorVector_simplifies (c : Cnf) (set : List Literal) :
    Simplifies c (lorKept set) (c.lorVector set) := by
  match set with
  | [] => rfl
  | [a] => rfl
  | [a, b] =>
      simp only [lorKept, Cnf.lorVector, Cnf.lor]
      split_ifs <;> simp [Simplifies, Cnf.newVariable, Cnf.gateOr]
  | a :: b :: d :: rest =>
      simp only [lorKept, Cnf.lorVector]
      split_ifs <;> simp [Simplifies, Cnf.newVariable]

/-- A literal of a variable handed out between `c` and `d`. -/
def IsFresh (n m : Nat) (l : Literal) : Prop := ∃ k, l = .var k false ∧ n ≤ k ∧ k < m

/-- Fresh in a larger range. -/
theorem IsFresh.mono {n n' m m' : Nat} {l : Literal} (h : IsFresh n m l) (hn : n' ≤ n)
    (hm : m ≤ m') : IsFresh n' m' l := by
  obtain ⟨k, hk, hnk, hkm⟩ := h
  exact ⟨k, hk, hn.trans hnk, hkm.trans_le hm⟩

/-- A fresh literal was not there. -/
theorem IsFresh.not_below {n m : Nat} {l : Literal} (h : IsFresh n m l) : ¬l.Below n := by
  obtain ⟨k, rfl, hnk, -⟩ := h
  exact Nat.not_lt.mpr hnk

/-- A fresh literal is there afterwards. -/
theorem IsFresh.below {n m : Nat} {l : Literal} (h : IsFresh n m l) : l.Below m := by
  obtain ⟨k, rfl, -, hkm⟩ := h
  exact hkm

/-- **A disjunction or conjunction** is simplified or fresh. -/
theorem Simplifies.fst {c : Cnf} {kept : Option Literal} {out : Literal × Cnf}
    (h : Simplifies c kept out) :
    c.noVariables ≤ out.2.noVariables ∧
      (kept = some out.1 ∨ IsFresh c.noVariables out.2.noVariables out.1) ∧
      ∀ l, kept = some l → out.1 = l := by
  cases kept with
  | some l =>
      cases (h : out = (l, c))
      exact ⟨le_rfl, Or.inl rfl, fun l h => Option.some_inj.mp h⟩
  | none =>
      obtain ⟨hout, hnext⟩ := h
      refine ⟨by omega, Or.inr ⟨c.noVariables, hout, le_rfl, by omega⟩, fun l h => by cases h⟩

/-- The goals of several disjunctions. -/
theorem lorAll_goals (sets : List (List Literal)) (c : Cnf) :
    c.noVariables ≤ (lorAll c sets).2.noVariables ∧
      (∀ l ∈ (lorAll c sets).1.map Prod.fst,
        l ∈ sets.filterMap lorKept ∨ IsFresh c.noVariables (lorAll c sets).2.noVariables l) ∧
      ∀ l ∈ sets.filterMap lorKept, l ∈ (lorAll c sets).1.map Prod.fst := by
  induction sets generalizing c with
  | nil => simp [lorAll]
  | cons set sets ih =>
      obtain ⟨hle, hgoal, hkept⟩ := (lorVector_simplifies c set).fst
      obtain ⟨hleRest, hgoals, hall⟩ := ih (c.lorVector set).2
      refine ⟨hle.trans hleRest, fun l hl => ?_, fun l hl => ?_⟩
      · rcases List.mem_cons.mp hl with rfl | hl
        · rcases hgoal with h | h
          · exact Or.inl (List.mem_filterMap.mpr ⟨set, List.mem_cons_self, h⟩)
          · exact Or.inr (h.mono le_rfl hleRest)
        · rcases hgoals l hl with h | h
          · obtain ⟨s, hs, hsl⟩ := List.mem_filterMap.mp h
            exact Or.inl (List.mem_filterMap.mpr ⟨s, List.mem_cons_of_mem _ hs, hsl⟩)
          · exact Or.inr (h.mono hle le_rfl)
      · obtain ⟨s, hs, hsl⟩ := List.mem_filterMap.mp hl
        rcases List.mem_cons.mp hs with rfl | hs
        · exact List.mem_cons.mpr (Or.inl (hkept l hsl).symm)
        · exact List.mem_cons_of_mem _ (hall l (List.mem_filterMap.mpr ⟨s, hs, hsl⟩))

/-! ## The table -/

/-- The conjunction of a literal with itself. -/
def IsSelf (entry : Literal × Literal × Literal) : Prop :=
  entry.2.1 = entry.1 ∧ entry.2.2 = entry.1

/-- The key is a literal of a variable above those of the conjuncts. -/
def IsGate (n : Nat) (entry : Literal × Literal × Literal) : Prop :=
  ∃ k, entry.1 = .var k false ∧ n ≤ k ∧ entry.2.1.Below k ∧ entry.2.2.Below k

/-- **The entries**, where the program has the first `n` variables. -/
def TableInv (n : Nat) (andMap : List (Literal × Literal × Literal)) : Prop :=
  ∀ entry ∈ andMap, IsGate n entry ∨ IsSelf entry ∧ entry.1.Below n

/-- The number of a literal, constants first. -/
def rank : Literal → Nat
  | .const _ => 0
  | .var k _ => k + 1

/-- The rank is bounded by the variables. -/
theorem rank_lt_of_below {k : Nat} {l : Literal} (h : l.Below k) : rank l < k + 1 := by
  cases l with
  | const value => exact Nat.succ_pos k
  | var n sign => exact Nat.succ_lt_succ h

/-- The table is well founded exactly when no literal is its own conjunct. -/
theorem wellFounded_iff {n : Nat} {andMap : List (Literal × Literal × Literal)}
    (h : TableInv n andMap) :
    WellFounded (IsConjunct andMap) ↔ ∀ entry ∈ andMap, ¬IsSelf entry := by
  constructor
  · intro hwf hall hentry hcase
    obtain ⟨a, x, y⟩ := hall
    obtain ⟨hx, -⟩ := hcase
    refine hwf.irrefl.irrefl a ⟨x, y, hentry, Or.inl ?_⟩
    exact hx.symm
  · intro hself
    refine Subrelation.wf ?_ (measure rank).wf
    intro b a hall
    obtain ⟨x, y, hentry, hb⟩ := hall
    rcases h _ hentry with ⟨k, hkey, -, hx, hy⟩ | ⟨heq, -⟩
    · change rank b < rank a
      have ha : a = .var k false := hkey
      rw [ha]
      rcases hb with rfl | rfl
      · exact rank_lt_of_below hx
      · exact rank_lt_of_below hy
    · exact absurd heq (hself _ hentry)

/-- More fuel prints the same. -/
theorem printTestGoal_mono {andMap : List (Literal × Literal × Literal)}
    {contexts : Literal → List (Instruction × Instruction)} {fuel more : Nat} {tg : Literal}
    {text : String} (h : printTestGoal andMap contexts fuel tg = some text) (hle : fuel ≤ more) :
    printTestGoal andMap contexts more tg = some text := by
  induction fuel generalizing more tg text with
  | zero => cases h
  | succ fuel ih =>
      cases more with
      | zero => cases hle
      | succ more =>
          rw [printTestGoal] at h ⊢
          split_ifs at h ⊢ with htrue
          · exact h
          · cases hfind : findAnd andMap tg with
            | none =>
                rw [hfind] at h
                exact h
            | some pair =>
                obtain ⟨a, b⟩ := pair
                rw [hfind] at h
                obtain ⟨first, hfirst, hrest⟩ := Option.bind_eq_some_iff.mp h
                obtain ⟨second, hsecond, htext⟩ := Option.map_eq_some_iff.mp hrest
                have hle' : fuel ≤ more := Nat.le_of_succ_le_succ hle
                dsimp only
                rw [ih hfirst hle', Option.bind_some, ih hsecond hle', Option.map_some, htext]

/-- **Printing ends** when the table has no cycle. -/
theorem printTestGoal_isSome {andMap : List (Literal × Literal × Literal)}
    (hwf : WellFounded (IsConjunct andMap)) (tg : Literal)
    (contexts : Literal → List (Instruction × Instruction)) :
    ∃ fuel, (printTestGoal andMap contexts fuel tg).isSome = true := by
  induction tg using hwf.induction with
  | _ tg ih =>
      cases hfind : findAnd andMap tg with
      | none =>
          refine ⟨1, ?_⟩
          rw [printTestGoal, hfind]
          split_ifs <;> rfl
      | some pair =>
          obtain ⟨a, b⟩ := pair
          have hentry : (tg, a, b) ∈ andMap := by
            rw [findAnd, List.lookup_eq_some_iff] at hfind
            obtain ⟨before, after, heq, -⟩ := hfind
            rw [heq]
            exact List.mem_append_right _ List.mem_cons_self
          obtain ⟨fuelA, hA⟩ := ih a ⟨a, b, hentry, Or.inl rfl⟩
          obtain ⟨fuelB, hB⟩ := ih b ⟨a, b, hentry, Or.inr rfl⟩
          obtain ⟨first, hfirst⟩ := Option.isSome_iff_exists.mp hA
          obtain ⟨second, hsecond⟩ := Option.isSome_iff_exists.mp hB
          refine ⟨max fuelA fuelB + 1, ?_⟩
          rw [printTestGoal, hfind]
          split_ifs
          · rfl
          · dsimp only
            rw [printTestGoal_mono hfirst (le_max_left _ _), Option.bind_some,
              printTestGoal_mono hsecond (le_max_right _ _)]
            rfl

/-! ## Concatenations -/

/-- Some entry has a literal as its own conjunct. -/
def HasSelf (andMap : List (Literal × Literal × Literal)) : Prop := ∃ entry ∈ andMap, IsSelf entry

section Land

variable {n : Nat} {st : GoalTables}

/-- Two different variables make a fresh conjunction. -/
theorem land_of_ne {c : Cnf} {a b : Literal} (ha : a.isConstant = false)
    (hb : b.isConstant = false) (hne : a ≠ b) : (c.land a b).1 = .var c.noVariables false := by
  have hland := land_simplifies c a b
  have hkept : landKept a b = none := by
    cases a <;> cases b <;> simp_all [landKept, Literal.isTrue, Literal.isFalse, Literal.isConstant]
  rw [hkept] at hland
  exact hland.1

/-- A variable with itself is itself. -/
theorem land_self (c : Cnf) (a : Literal) : (c.land a a).1 = a := by
  simp [Cnf.land]

/-- **One conjunction.** -/
theorem landPair_andMap (hinv : TableInv n st.andMap) (hn : n ≤ st.cnf.noVariables)
    {a b : Literal} (ha : a.Below st.cnf.noVariables) (hb : b.Below st.cnf.noVariables)
    (hab : a = b → a.Below n) :
    TableInv n (st.landPair (a, b)).andMap ∧
      (HasSelf (st.landPair (a, b)).andMap ↔
        HasSelf st.andMap ∨ (a = b ∧ a.isConstant = false)) := by
  by_cases hconst : (a.isConstant || b.isConstant) = true
  · have heq : (st.landPair (a, b)).andMap = st.andMap := by
      unfold GoalTables.landPair
      dsimp only
      rw [if_pos hconst]
    rw [heq]
    refine ⟨hinv, ?_⟩
    grind
  · obtain ⟨hca, hcb⟩ : a.isConstant = false ∧ b.isConstant = false := by simpa using hconst
    have heq : (st.landPair (a, b)).andMap = (st.insertAnd (st.cnf.land a b).1 a b).andMap := by
      unfold GoalTables.landPair GoalTables.insertAnd
      dsimp only
      rw [if_neg hconst]
      split_ifs <;> rfl
    rw [heq, GoalTables.insertAnd]
    by_cases hself : a = b
    · subst hself
      have hbelow := hab rfl
      rw [land_self]
      split_ifs with hany
      · -- an entry of a literal of the program is one of itself
        obtain ⟨entry, hentry, hkey⟩ := List.any_eq_true.mp hany
        have hself : IsSelf entry := by
          rcases hinv entry hentry with ⟨k, hk, hnk, -⟩ | ⟨hself, -⟩
          · have hfalse : k < n := by
              rw [← of_decide_eq_true hkey, hk] at hbelow
              exact hbelow
            omega
          · exact hself
        exact ⟨hinv, ⟨Or.inl, fun _ => ⟨entry, hentry, hself⟩⟩⟩
      · refine ⟨?_, ⟨fun _ => Or.inr ⟨rfl, hca⟩, fun _ => ?_⟩⟩
        · intro entry hentry
          rcases List.mem_append.mp hentry with hold | hnew
          · exact hinv entry hold
          · cases List.mem_singleton.mp hnew
            exact Or.inr ⟨⟨rfl, rfl⟩, hbelow⟩
        · exact ⟨(a, a, a), List.mem_append_right _ List.mem_cons_self, rfl, rfl⟩
    · have hsg := land_of_ne (c := st.cnf) hca hcb hself
      have hright : (HasSelf st.andMap ∨ a = b ∧ a.isConstant = false) ↔ HasSelf st.andMap := by
        simp [hself]
      rw [hsg, hright]
      split_ifs
      · exact ⟨hinv, Iff.rfl⟩
      · refine ⟨?_, ⟨?_, ?_⟩⟩
        · intro entry hentry
          rcases List.mem_append.mp hentry with hold | hnew
          · exact hinv entry hold
          · cases List.mem_singleton.mp hnew
            exact Or.inl ⟨_, rfl, hn, ha, hb⟩
        · intro h
          obtain ⟨entry, hentry, hentryself⟩ := h
          rcases List.mem_append.mp hentry with hold | hnew
          · exact ⟨entry, hold, hentryself⟩
          · cases List.mem_singleton.mp hnew
            have hcontra : a = .var st.cnf.noVariables false := hentryself.1
            rw [hcontra] at ha
            exact absurd ha (Nat.lt_irrefl _)
        · intro h
          obtain ⟨entry, hentry, hentryself⟩ := h
          exact ⟨entry, List.mem_append_left _ hentry, hentryself⟩

/-- **All conjunctions** of a concatenation. -/
theorem foldl_landPair_andMap (pairs : List (Literal × Literal)) (hinv : TableInv n st.andMap)
    (hn : n ≤ st.cnf.noVariables)
    (hbelow : ∀ pair ∈ pairs, pair.1.Below st.cnf.noVariables ∧ pair.2.Below st.cnf.noVariables)
    (heq : ∀ pair ∈ pairs, pair.1 = pair.2 → pair.1.Below n) :
    let out := pairs.foldl GoalTables.landPair st
    st.cnf.noVariables ≤ out.cnf.noVariables ∧ out.altNesting = st.altNesting ∧
      TableInv n out.andMap ∧
      (HasSelf out.andMap ↔
        HasSelf st.andMap ∨ ∃ pair ∈ pairs, pair.1 = pair.2 ∧ pair.1.isConstant = false) ∧
      (∀ l ∈ out.testGoals.toList, l ∈ st.testGoals.toList ∨
        (∃ pair ∈ pairs, landKept pair.1 pair.2 = some l) ∨
          IsFresh st.cnf.noVariables out.cnf.noVariables l) ∧
      (∀ l ∈ st.testGoals.toList, l ∈ out.testGoals.toList) ∧
      ∀ pair ∈ pairs, ∀ l, landKept pair.1 pair.2 = some l → l ∈ out.testGoals.toList := by
  induction pairs generalizing st with
  | nil =>
      refine ⟨le_rfl, rfl, hinv, ?_, fun l hl => Or.inl hl, fun l hl => hl, ?_⟩
      · simp
      · simp
  | cons pair pairs ih =>
      obtain ⟨a, b⟩ := pair
      obtain ⟨hle, hgoal, hkept⟩ := (land_simplifies st.cnf a b).fst
      obtain ⟨hinv', hself'⟩ := landPair_andMap hinv hn (hbelow _ List.mem_cons_self).1
        (hbelow _ List.mem_cons_self).2 (heq _ List.mem_cons_self)
      have hcnf : (st.landPair (a, b)).cnf = (st.cnf.land a b).2 := GoalTables.landPair_cnf st _
      rw [← hcnf] at hle hgoal
      obtain ⟨hleRest, hnesting, hinvRest, hselfRest, hgoals, hold, hall⟩ := ih hinv' (hn.trans hle)
        (fun p hp => ⟨(hbelow p (List.mem_cons_of_mem _ hp)).1.mono hle,
          (hbelow p (List.mem_cons_of_mem _ hp)).2.mono hle⟩)
        fun p hp => heq p (List.mem_cons_of_mem _ hp)
      rw [List.foldl_cons]
      refine ⟨hle.trans hleRest, hnesting.trans (GoalTables.landPair_altNesting st _), hinvRest, ?_,
        fun l hl => ?_, fun l hl => ?_, ?_⟩
      · rw [hselfRest, hself', or_assoc, List.exists_mem_cons_iff]
      · rcases hgoals l hl with h | ⟨p, hp, h⟩ | h
        · rw [GoalTables.landPair_testGoals, TestGoals.mem_insert] at h
          rcases h with rfl | h
          · rcases hgoal with h | h
            · exact Or.inr (Or.inl ⟨(a, b), List.mem_cons_self, h⟩)
            · exact Or.inr (Or.inr (h.mono le_rfl hleRest))
          · exact Or.inl h
        · exact Or.inr (Or.inl ⟨p, List.mem_cons_of_mem _ hp, h⟩)
        · exact Or.inr (Or.inr (h.mono hle le_rfl))
      · exact hold l (by rw [GoalTables.landPair_testGoals, TestGoals.mem_insert]; exact Or.inr hl)
      · intro p hp l hl
        rcases List.mem_cons.mp hp with rfl | hp
        · refine hold l ?_
          rw [GoalTables.landPair_testGoals, TestGoals.mem_insert]
          exact Or.inl (hkept l hl).symm
        · exact hall p hp l hl

end Land

/-! ## The walk -/

namespace EncodedStates

variable {F P : Type} {env : EncodedStates}

/-- What a disjunction keeps was there. -/
theorem lorKept_below {n : Nat} {set : List Literal} {l : Literal}
    (hset : ∀ k ∈ set, k.Below n) (h : lorKept set = some l) : l.Below n := by
  match set with
  | [] =>
      cases h
      trivial
  | [a] =>
      cases h
      exact hset _ List.mem_cons_self
  | [a, b] =>
      simp only [lorKept] at h
      split_ifs at h <;> cases h
      all_goals exact hset _ (by simp)
  | a :: b :: d :: rest =>
      simp only [lorKept] at h
      split_ifs at h <;> cases h <;> trivial

/-- The kept goals are literals of the program. -/
theorem keptGoals_below {cp : CoveragePattern F P} (states : TestGoalStates cp) :
    ∀ l ∈ env.keptGoals states, l.Below env.cnf.noVariables := by
  have hatom : ∀ tgStates makeSingle, ∀ l ∈ (env.goalSets tgStates makeSingle).filterMap lorKept,
      l.Below env.cnf.noVariables := by
    intro tgStates makeSingle l hl
    obtain ⟨set, hset, hl⟩ := List.mem_filterMap.mp hl
    exact lorKept_below (fun k hk => env.goalSets_below hset hk) hl
  induction states with
  | atom tgStates => exact hatom tgStates _
  | quote tgStates => exact hatom tgStates true
  | cpAlternative tgStates childA childB ihA ihB =>
      intro l hl
      rcases List.mem_append.mp hl with hl | hl
      · exact ihA l hl
      · exact ihB l hl
  | cpConcat tgStates childA childB ihA ihB =>
      intro l hl
      obtain ⟨⟨a, b⟩, hpair, hl⟩ := List.mem_filterMap.mp hl
      obtain ⟨ha, hb⟩ := List.mem_product.mp hpair
      unfold landKept at hl
      split_ifs at hl <;> cases hl
      all_goals first | exact ihA _ ha | exact ihB _ hb

/-- **What a visit leaves**, from an empty current group. -/
structure GoalWalk (env : EncodedStates) {cp : CoveragePattern F P} (states : TestGoalStates cp)
    (st out : GoalTables) : Prop where
  le : st.cnf.noVariables ≤ out.cnf.noVariables
  nesting : out.altNesting = st.altNesting
  table : TableInv env.cnf.noVariables out.andMap
  self : HasSelf out.andMap ↔
    HasSelf st.andMap ∨ ¬env.Apart (decide (st.altNesting ≠ 0)) states
  goals : st.altNesting ≠ 0 → ∀ l ∈ out.testGoals.toList,
    l ∈ env.keptGoals states ∨ IsFresh st.cnf.noVariables out.cnf.noVariables l ∨
      l = .const false
  kept : st.altNesting ≠ 0 → ∀ l ∈ env.keptGoals states, l ∈ out.testGoals.toList

/-- An atom. -/
theorem GoalWalk.of_atom {cp : CoveragePattern F P} {states : TestGoalStates cp}
    {n : CoveragePattern F P} {tgStates : List TaState} {epsilonPermitted makeSingle : Bool}
    {st : GoalTables} (hempty : st.testGoals = TestGoals.empty)
    (hinv : TableInv env.cnf.noVariables st.andMap)
    (hkept : env.keptGoals states = (env.goalSets tgStates makeSingle).filterMap lorKept)
    (hapart : ∀ nested, env.Apart nested states) :
    GoalWalk env states st
      (doAtom (env.visitor F P) n tgStates epsilonPermitted makeSingle st) := by
  obtain ⟨hle, hgoals, hall⟩ := lorAll_goals (env.goalSets tgStates makeSingle) st.cnf
  have hout := GoalTables.foldl_storeGoal
    (lorAll st.cnf (env.goalSets tgStates makeSingle)).1
    { st with cnf := (lorAll st.cnf (env.goalSets tgStates makeSingle)).2 }
  have hdo : doAtom (env.visitor F P) n tgStates epsilonPermitted makeSingle st =
      (lorAll st.cnf (env.goalSets tgStates makeSingle)).1.foldl GoalTables.storeGoal
        { st with cnf := (lorAll st.cnf (env.goalSets tgStates makeSingle)).2 } := rfl
  rw [hdo, hout]
  refine ⟨hle, rfl, hinv, ?_, fun _ l hl => ?_, fun _ l hl => ?_⟩
  · simp [hapart]
  · rw [TestGoals.mem_insertAll, hempty] at hl
    rw [hkept]
    rcases hl with hl | hl
    · exact (hgoals l hl).imp_right Or.inl
    · cases hl
  · rw [hkept] at hl
    exact TestGoals.mem_insertAll.mpr (Or.inl (hall l hl))

/-- Fresh goals of the first operand are none of the second one. -/
theorem common_below {n m k : Nat} {kept kept' : List Literal} {a b : Literal}
    (hn : env.cnf.noVariables ≤ n) (hm : n ≤ m)
    (hkept : ∀ l ∈ kept, l.Below env.cnf.noVariables)
    (hkept' : ∀ l ∈ kept', l.Below env.cnf.noVariables)
    (ha : a ∈ kept ∨ IsFresh n m a ∨ a = .const false)
    (hb : b ∈ kept' ∨ IsFresh m k b ∨ b = .const false) (hab : a = b) :
    a.Below env.cnf.noVariables ∧ (a.isConstant = false → a ∈ kept ∧ a ∈ kept') := by
  subst hab
  rcases ha with ha | ha | rfl
  · refine ⟨hkept a ha, fun hconst => ⟨ha, ?_⟩⟩
    rcases hb with hb | hb | rfl
    · exact hb
    · exact absurd ((hkept a ha).mono (hn.trans hm)) hb.not_below
    · cases hconst
  · rcases hb with hb | hb | rfl
    · exact absurd ((hkept' a hb).mono hn) ha.not_below
    · exact absurd ha.below hb.not_below
    · exact ⟨trivial, fun hconst => by cases hconst⟩
  · exact ⟨trivial, fun hconst => by cases hconst⟩

/-- A conjunction with a fresh operand is not kept, unless it is false. -/
theorem landKept_cases {n m k : Nat} {kept kept' : List Literal} {a b l : Literal}
    (hm : n ≤ m) (hk : m ≤ k)
    (ha : a ∈ kept ∨ IsFresh n m a ∨ a = .const false)
    (hb : b ∈ kept' ∨ IsFresh m k b ∨ b = .const false) (hl : landKept a b = some l) :
    l ∈ (kept ×ˢ kept').filterMap (fun pair => landKept pair.1 pair.2) ∨ IsFresh n k l ∨
      l = .const false := by
  by_cases hboth : a ∈ kept ∧ b ∈ kept'
  · exact Or.inl (List.mem_filterMap.mpr ⟨(a, b), List.mem_product.mpr hboth, hl⟩)
  · right
    have hfresh : ∀ value, ¬IsFresh n m (.const value) ∧ ¬IsFresh m k (.const value) :=
      fun value => ⟨fun h => h.not_below trivial, fun h => h.not_below trivial⟩
    have ha' : IsFresh n m a → IsFresh n k a := fun h => h.mono le_rfl hk
    have hb' : IsFresh m k b → IsFresh n k b := fun h => h.mono hm le_rfl
    unfold landKept at hl
    split_ifs at hl with hat hbt haf hbf hab
    · cases hl
      grind [Literal.isTrue_iff]
    · cases hl
      grind [Literal.isTrue_iff]
    · cases hl
      exact Or.inr (Literal.isFalse_iff.mp haf)
    · cases hl
      exact Or.inr (Literal.isFalse_iff.mp hbf)
    · cases hl
      grind

/-- The next operand changes no table of goals. -/
theorem nextOperand_walk (st : GoalTables) :
    st.nextOperand.cnf = st.cnf ∧ st.nextOperand.altNesting = st.altNesting ∧
      st.nextOperand.andMap = st.andMap ∧ st.nextOperand.testGoals = TestGoals.empty := by
  unfold GoalTables.nextOperand
  split_ifs <;> exact ⟨rfl, rfl, rfl, rfl⟩

/-- A concatenation inside an alternative. -/
theorem GoalWalk.landAll {cpA cpB : CoveragePattern F P} {childA : TestGoalStates cpA}
    {childB : TestGoalStates cpB} {tgStates : List TaState} {st outA startB outB : GoalTables}
    (hvars : env.cnf.noVariables ≤ st.cnf.noVariables) (hnest : st.altNesting ≠ 0)
    (hA : GoalWalk env childA st outA) (hB : GoalWalk env childB startB outB)
    (hcnf : startB.cnf = outA.cnf) (hmap : startB.andMap = outA.andMap)
    (hnestB : startB.altNesting = outA.altNesting) :
    GoalWalk env (.cpConcat tgStates childA childB) st
      ({ outB with testGoals := TestGoals.empty }.landAll outA.testGoals outB.testGoals) := by
  have hnestB' : startB.altNesting ≠ 0 := (hnestB.trans hA.nesting).trans_ne hnest
  have hleB : outA.cnf.noVariables ≤ outB.cnf.noVariables := hcnf ▸ hB.le
  have hgoalsA := hA.goals hnest
  have hgoalsB := hB.goals hnestB'
  rw [hcnf] at hgoalsB
  have hkeptA : ∀ l ∈ env.keptGoals childA, l.Below env.cnf.noVariables := keptGoals_below childA
  have hkeptB : ∀ l ∈ env.keptGoals childB, l.Below env.cnf.noVariables := keptGoals_below childB
  have hcommon : ∀ pair ∈ outA.testGoals.toList ×ˢ outB.testGoals.toList, pair.1 = pair.2 →
      pair.1.Below env.cnf.noVariables ∧
        (pair.1.isConstant = false → pair.1 ∈ env.keptGoals childA ∧
          pair.1 ∈ env.keptGoals childB) := by
    intro hx hpair heq
    obtain ⟨a, b⟩ := hx
    obtain ⟨ha, hb⟩ := List.mem_product.mp hpair
    exact common_below hvars hA.le hkeptA hkeptB (hgoalsA a ha) (hgoalsB b hb) heq
  have hbelow : ∀ pair ∈ outA.testGoals.toList ×ˢ outB.testGoals.toList,
      pair.1.Below outB.cnf.noVariables ∧ pair.2.Below outB.cnf.noVariables := by
    intro hx hpair
    obtain ⟨a, b⟩ := hx
    obtain ⟨ha, hb⟩ := List.mem_product.mp hpair
    constructor
    · rcases hgoalsA a ha with h | h | rfl
      · exact (hkeptA a h).mono ((hvars.trans hA.le).trans hleB)
      · exact h.below.mono hleB
      · trivial
    · rcases hgoalsB b hb with h | h | rfl
      · exact (hkeptB b h).mono ((hvars.trans hA.le).trans hleB)
      · exact h.below
      · trivial
  let start : GoalTables := { outB with testGoals := TestGoals.empty }
  have htable : TableInv env.cnf.noVariables start.andMap := hB.table
  obtain ⟨hle, hnesting, htable, hself, hgoals, -, hkept⟩ :=
    foldl_landPair_andMap _ htable ((hvars.trans hA.le).trans hleB) hbelow
      fun pair hpair heq => (hcommon pair hpair heq).1
  refine ⟨(hA.le.trans hleB).trans hle, ?_, htable, ?_, fun _ l hl => ?_, fun _ l hl => ?_⟩
  · exact hnesting.trans ((hB.nesting.trans hnestB).trans hA.nesting)
  · have hpairs : (∃ pair ∈ outA.testGoals.toList ×ˢ outB.testGoals.toList,
          pair.1 = pair.2 ∧ pair.1.isConstant = false) ↔
        ∃ l, l ∈ env.keptGoals childA ∧ l ∈ env.keptGoals childB ∧ l.isConstant = false := by
      constructor
      · intro hx
        obtain ⟨pair, hpair, heq, hconst⟩ := hx
        have hboth := (hcommon pair hpair heq).2 hconst
        exact ⟨pair.1, hboth.1, hboth.2, hconst⟩
      · intro hx
        obtain ⟨l, hlA, hlB, hconst⟩ := hx
        exact ⟨(l, l), List.mem_product.mpr ⟨hA.kept hnest l hlA, hB.kept hnestB' l hlB⟩,
          rfl, hconst⟩
    have hselfB := hB.self
    rw [hmap, hA.self, hnestB, hA.nesting] at hselfB
    have hsplit : ¬env.Apart (decide (st.altNesting ≠ 0)) (.cpConcat tgStates childA childB) ↔
        ¬env.Apart (decide (st.altNesting ≠ 0)) childA ∨
          ¬env.Apart (decide (st.altNesting ≠ 0)) childB ∨
          ∃ l, l ∈ env.keptGoals childA ∧ l ∈ env.keptGoals childB ∧ l.isConstant = false := by
      rw [Apart, not_and_or, not_and_or, decide_eq_true hnest]
      simp
    rw [hsplit]
    refine hself.trans ?_
    rw [hpairs]
    change HasSelf outB.andMap ∨ _ ↔ _
    rw [hselfB, or_assoc, or_assoc]
  · rcases hgoals l hl with h | ⟨⟨a, b⟩, hpair, h⟩ | h
    · cases h
    · obtain ⟨ha, hb⟩ := List.mem_product.mp hpair
      rcases landKept_cases hA.le hleB (hgoalsA a ha) (hgoalsB b hb) h with h | h | h
      · exact Or.inl h
      · exact Or.inr (Or.inl (h.mono le_rfl hle))
      · exact Or.inr (Or.inr h)
    · exact Or.inr (Or.inl (h.mono (hA.le.trans hleB) le_rfl))
  · obtain ⟨⟨a, b⟩, hpair, hl⟩ := List.mem_filterMap.mp hl
    obtain ⟨ha, hb⟩ := List.mem_product.mp hpair
    exact hkept (a, b)
      (List.mem_product.mpr ⟨hA.kept hnest a ha, hB.kept hnestB' b hb⟩) l hl

/-- **Visits.** -/
theorem visitGoals_walk {cp : CoveragePattern F P} (states : TestGoalStates cp) {st : GoalTables}
    (hvars : env.cnf.noVariables ≤ st.cnf.noVariables) (hempty : st.testGoals = TestGoals.empty)
    (hinv : TableInv env.cnf.noVariables st.andMap) :
    GoalWalk env states st (visitGoals (env.visitor F P) states st) := by
  induction states generalizing st with
  | atom tgStates => exact .of_atom hempty hinv rfl fun _ => trivial
  | quote tgStates => exact .of_atom hempty hinv rfl fun _ => trivial
  | cpAlternative tgStates childA childB ihA ihB =>
      let inner : GoalTables := { st with altNesting := st.altNesting + 1 }
      let outA := visitGoals (env.visitor F P) childA inner
      let startB : GoalTables := { outA with testGoals := TestGoals.empty }
      let outB := visitGoals (env.visitor F P) childB startB
      have hA : GoalWalk env childA inner outA := ihA hvars hempty hinv
      have hB : GoalWalk env childB startB outB := ihB (hvars.trans hA.le) rfl hA.table
      have hnestA : inner.altNesting ≠ 0 := Nat.succ_ne_zero _
      have hnestB : startB.altNesting ≠ 0 := by
        change outA.altNesting ≠ 0
        rw [hA.nesting]
        exact hnestA
      have hnesting : outB.altNesting = st.altNesting + 1 := hB.nesting.trans hA.nesting
      have hself := hB.self
      rw [hA.self, decide_eq_true hnestA, decide_eq_true hnestB] at hself
      change GoalWalk env _ st
        { outB with
          testGoals := outB.testGoals.insertAll outA.testGoals.toList
          altNesting := outB.altNesting - 1 }
      refine ⟨hA.le.trans hB.le, by simp [hnesting], hB.table, ?_, fun _ l hl => ?_, fun _ l hl => ?_⟩
      · change HasSelf outB.andMap ↔ HasSelf st.andMap ∨ _
        rw [hself, Apart, not_and_or, or_assoc]
      · rcases TestGoals.mem_insertAll.mp hl with hl | hl
        · rcases hA.goals hnestA l hl with h | h | h
          · exact Or.inl (List.mem_append_left _ h)
          · exact Or.inr (Or.inl (h.mono le_rfl hB.le))
          · exact Or.inr (Or.inr h)
        · rcases hB.goals hnestB l hl with h | h | h
          · exact Or.inl (List.mem_append_right _ h)
          · exact Or.inr (Or.inl (h.mono hA.le le_rfl))
          · exact Or.inr (Or.inr h)
      · refine TestGoals.mem_insertAll.mpr ?_
        rcases List.mem_append.mp hl with hl | hl
        · exact Or.inl (hA.kept hnestA l hl)
        · exact Or.inr (hB.kept hnestB l hl)
  | cpConcat tgStates childA childB ihA ihB =>
      let outA := visitGoals (env.visitor F P) childA st
      let startB := outA.nextOperand
      let outB := visitGoals (env.visitor F P) childB startB
      obtain ⟨hcnf, hnext, hmap, hgoals⟩ := nextOperand_walk outA
      have hA : GoalWalk env childA st outA := ihA hvars hempty hinv
      have hB : GoalWalk env childB startB outB :=
        ihB (by rw [hcnf]; exact hvars.trans hA.le) hgoals (by rw [hmap]; exact hA.table)
      have hnesting : outB.altNesting = st.altNesting :=
        hB.nesting.trans (hnext.trans hA.nesting)
      by_cases hnest : st.altNesting = 0
      · have hout : visitGoals (env.visitor F P) (.cpConcat tgStates childA childB) st = outB := by
          rw [visitGoals]
          exact if_neg (not_not.mpr (hnesting.trans hnest))
        have hself := hB.self
        rw [hmap, hA.self, hnext, hA.nesting] at hself
        rw [hout]
        refine ⟨hA.le.trans (hcnf ▸ hB.le), hnesting, hB.table, ?_, fun h => absurd hnest h,
          fun h => absurd hnest h⟩
        rw [hself, Apart, hnest, or_assoc]
        grind
      · have hout : visitGoals (env.visitor F P) (.cpConcat tgStates childA childB) st =
            { outB with testGoals := TestGoals.empty }.landAll outA.testGoals outB.testGoals := by
          rw [visitGoals]
          exact if_pos (hnesting.trans_ne hnest)
        rw [hout]
        exact hA.landAll hvars hnest hB hcnf hmap hnext

end EncodedStates

/-- **Printing test goals terminates** if and only if the operands of no
concatenation inside an alternative have a literal of the program in common. -/
theorem printTestGoals_iff {F P : Type} (env : EncodedStates) {cp : CoveragePattern F P}
    (states : TestGoalStates cp) :
    PrintsTestGoals (visitGoals (env.visitor F P) states (GoalTables.start env.cnf)) ↔
      env.Apart false states := by
  have hwalk : EncodedStates.GoalWalk env states (GoalTables.start env.cnf)
      (visitGoals (env.visitor F P) states (GoalTables.start env.cnf)) :=
    EncodedStates.visitGoals_walk states le_rfl rfl fun _ h => absurd h List.not_mem_nil
  have hself := hwalk.self
  have hnone : ¬HasSelf (GoalTables.start env.cnf).andMap := fun ⟨_, h, _⟩ => by cases h
  have hnested : decide ((GoalTables.start env.cnf).altNesting ≠ 0) = false := rfl
  rw [or_iff_right hnone, hnested] at hself
  have hwf := wellFounded_iff hwalk.table
  constructor
  · intro h
    by_contra hshared
    obtain ⟨entry, hentry, hloop⟩ := hself.mpr hshared
    exact hwf.mp h.1 entry hentry hloop
  · intro hapart
    have hends := hwf.mpr fun entry hentry hloop => hself.mp ⟨entry, hentry, hloop⟩ hapart
    exact ⟨hends, fun _ _ _ _ tg _ contexts => printTestGoal_isSome hends tg contexts⟩

/-! ## An atom and a quote that accepts the empty word -/

/-- `cover ^b."a*" + a$`. -/
def repeatedAtomQuery : Query (Option Bool) Empty where
  cover :=
    .cpAlternative
      (.cpConcat (.atom (.edgecov (some false)))
        (.quote (.repetition (.atom (.edgecov (some true))) 0 (-1))))
      (.atom (.edgecov (some true)))
  passing := .repetition (.atom (.edgecov none)) 0 (-1)

/-- What `Evaluate_Coverage_Pattern` makes of it. -/
def repeatedAtomCover : TestGoalStates repeatedAtomQuery.cover × CoverageState :=
  evaluateCoveragePattern twoEdges repeatedAtomQuery TraceAutomaton.empty

/-- The goal states of the atom `b` and of the quote share state 2. -/
theorem repeatedAtom_states :
    repeatedAtomCover.1 =
      .cpAlternative [5, 2, 4] (.cpConcat [2, 4] (.atom [2]) (.quote [2, 4])) (.atom [5]) := by
  rfl

/-- The query on a program that executes `a` and then `b`. -/
def repeatedAtomEncoding : EncodedQuery Nat where
  setting :=
    { bvUtils := bitwiseEqual
      instruction := BuildSetting.plainAssign
      isGotoEdge := fun _ => false
      lookupIndex := fun i =>
        ((evaluatePathPattern twoEdges repeatedAtomQuery).graphs.lookupGraph twoEdges i).getD
          ⟨[], [], []⟩
      isTestGoalState := fun s => s ∈ repeatedAtomCover.2.allTestGoalStates }
  cover := repeatedAtomCover.2.testGoalAutomaton
  passing := (evaluatePathPattern twoEdges repeatedAtomQuery).get repeatedAtomQuery.passing
  coverStart := 1
  passingStart := 3
  equation :=
    [⟨0, .assignment, .state, some (.const true)⟩, ⟨1, .assignment, .state, some (.const true)⟩]
  steps := [⟨0, 0, .const true, .const false⟩, ⟨1, 1, .const true, .const false⟩]
  cnf := Cnf.empty
  cover_initial := by decide
  passing_initial := by decide
  steps_eq := rfl
  bounded := Cnf.empty_bounded
  below := by simp

/-- No `a` follows `b`, so that nothing is stored for state 4. -/
theorem repeatedAtom_goalSets :
    repeatedAtomEncoding.goals.toStates.goalSets [2] false = [[.var 8 false]] ∧
      repeatedAtomEncoding.goals.toStates.goalSets [2, 4] true = [[.var 8 false]] ∧
      repeatedAtomEncoding.goals.toStates.goalSets [5] false = [[.var 4 false]] := by
  decide +kernel

/-- **The goal of `b` is a conjunct of itself**, and its printing never ends. -/
theorem repeatedAtom_never_printed :
    let st := visitGoals (repeatedAtomEncoding.goals.toStates.visitor (Option Bool) Empty)
      repeatedAtomCover.1 (GoalTables.start repeatedAtomEncoding.goals.cnf)
    makeIdMap st.testGoalGroups = some [[.var 4 false], [.var 8 false]] ∧
      (∀ contexts fuel, printTestGoal st.andMap contexts fuel (.var 8 false) = none) ∧
      ¬∀ (env : EncodedStates) (cp : CoveragePattern (Option Bool) Empty)
        (states : TestGoalStates cp),
        PrintsTestGoals (visitGoals (env.visitor (Option Bool) Empty) states
          (GoalTables.start env.cnf)) := by
  intro st
  have hst : makeIdMap st.testGoalGroups = some [[.var 4 false], [.var 8 false]] ∧
      st.andMap = [(.var 8 false, .var 8 false, .var 8 false)] := by
    decide +kernel
  obtain ⟨hrows, hmap⟩ := hst
  refine ⟨hrows, ?_, fun h => ?_⟩
  · intro contexts fuel
    rw [hmap]
    induction fuel with
    | zero => rfl
    | succ fuel ih =>
        rw [printTestGoal, if_neg (by decide)]
        change (printTestGoal _ contexts fuel (.var 8 false)).bind _ = none
        rw [ih]
        rfl
  · have hwf := (h repeatedAtomEncoding.goals.toStates _ repeatedAtomCover.1).1
    change WellFounded (IsConjunct st.andMap) at hwf
    rw [hmap] at hwf
    exact hwf.irrefl.irrefl (.var 8 false)
      ⟨.var 8 false, .var 8 false, List.mem_cons_self, Or.inl rfl⟩

end FShell
