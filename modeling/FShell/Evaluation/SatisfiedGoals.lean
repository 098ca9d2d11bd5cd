import FShell.Evaluation.IdMap
import FShell.Evaluation.KnownSat

/-!
# Which goal a model satisfies

`get_satisfied_test_goals` replays a counterexample on the automaton and
collects the goal literals that hold.  Then it closes them under the recorded
conjunctions and looks for the first id whose literals are all known.

**Conjunctions.**  A conjunction is recorded under both operands.  When one of
them is taken from the list and the other is not known yet, the conjunction is
parked under the other one.  `ConjInv` is what holds between two rounds,
whatever literal is taken and in whatever order its entries come; an empty
list then means that the set is closed (`conjunctions_least_closure`).

**Ids.**  The ids run through the combinations of one literal for each group,
the last group fastest.  A literal that is not known fails a whole block of
ids, and the scan meets it first at the start of its block
(`idScan_eq_findIdx`).
-/

namespace FShell

/-! ## The table of conjunctions -/

/-- What holds of every table that `visit(CP_Concat)` fills: both operands are
recorded, and `land` simplifies constants. -/
structure RecordsConjunctions (entries : List (Literal × Literal × Literal)) : Prop where
  symm : ∀ a sg b, (a, sg, b) ∈ entries → (b, sg, a) ∈ entries
  of_true : ∀ a sg b, (a, sg, b) ∈ entries → b = .const true → sg = a
  of_false : ∀ a sg b, (a, sg, b) ∈ entries → b = .const false → sg = b

/-- `m_reverse_and_map`: an operand, the conjunction and the other operand. -/
structure ConjunctionTable where
  entries : List (Literal × Literal × Literal)
  records : RecordsConjunctions entries

namespace RecordsConjunctions

/-- A pair is recorded with its conjunction. -/
theorem landPair {st : GoalTables} (h : RecordsConjunctions st.reverseAndMap)
    (pair : Literal × Literal) : RecordsConjunctions (st.landPair pair).reverseAndMap := by
  obtain ⟨a, b⟩ := pair
  have hmem : ∀ e, e ∈ (st.landPair (a, b)).reverseAndMap ↔
      e = (b, (st.cnf.land a b).1, a) ∨ e = (a, (st.cnf.land a b).1, b) ∨
        e ∈ st.reverseAndMap := by
    intro e
    unfold GoalTables.landPair GoalTables.insertAnd
    dsimp only
    split_ifs <;> simp only [List.mem_insert_iff]
  have hland : ∀ value, (a = .const value ∨ b = .const value) →
      (st.cnf.land a b).1 = if value then (if a = .const value then b else a) else .const value := by
    intro value hconst
    cases value <;> rcases hconst with rfl | rfl <;> simp [Cnf.land, Literal.isTrue, Literal.isFalse]
    all_goals grind
  refine ⟨?_, ?_, ?_⟩
  · intro x sg y hxy
    rw [hmem] at hxy ⊢
    rcases hxy with heq | heq | hold
    · simp only [Prod.mk.injEq] at heq
      grind
    · simp only [Prod.mk.injEq] at heq
      grind
    · exact Or.inr (Or.inr (h.symm x sg y hold))
  · intro x sg y hxy hy
    rcases (hmem _).mp hxy with heq | heq | hold
    · simp only [Prod.mk.injEq] at heq
      grind
    · simp only [Prod.mk.injEq] at heq
      grind
    · exact h.of_true x sg y hold hy
  · intro x sg y hxy hy
    rcases (hmem _).mp hxy with heq | heq | hold
    · simp only [Prod.mk.injEq] at heq
      grind
    · simp only [Prod.mk.injEq] at heq
      grind
    · exact h.of_false x sg y hold hy

/-- So are all pairs. -/
theorem landAll {st : GoalTables} (h : RecordsConjunctions st.reverseAndMap)
    (backup backup2 : TestGoals) :
    RecordsConjunctions (st.landAll backup backup2).reverseAndMap := by
  unfold GoalTables.landAll
  generalize backup.toList ×ˢ backup2.toList = pairs
  induction pairs generalizing st with
  | nil => exact h
  | cons pair pairs ih => exact ih (h.landPair pair)

/-- **Every table that the walk over a coverage pattern fills.** -/
theorem visitGoals {F P : Type} (env : AtomVisitor F P) {cp : CoveragePattern F P}
    (states : TestGoalStates cp) {st : GoalTables} (h : RecordsConjunctions st.reverseAndMap) :
    RecordsConjunctions (visitGoals env states st).reverseAndMap := by
  have hatom : ∀ n tgStates epsilonPermitted makeSingle (st : GoalTables),
      (doAtom env n tgStates epsilonPermitted makeSingle st).reverseAndMap = st.reverseAndMap := by
    intro n tgStates epsilonPermitted makeSingle st
    unfold doAtom
    dsimp only
    rw [GoalTables.foldl_storeGoal]
  induction states generalizing st with
  | atom tgStates =>
      rw [FShell.visitGoals, hatom]
      exact h
  | quote tgStates =>
      rw [FShell.visitGoals, hatom]
      exact h
  | cpAlternative tgStates childA childB ihA ihB =>
      rw [FShell.visitGoals]
      exact ihB (ihA h)
  | cpConcat tgStates childA childB ihA ihB =>
      have hnext : ∀ st : GoalTables, st.nextOperand.reverseAndMap = st.reverseAndMap := by
        intro st
        unfold GoalTables.nextOperand
        split <;> rfl
      have hboth := ihB (hnext _ ▸ ihA h)
      rw [FShell.visitGoals]
      split
      · refine landAll ?_ _ _
        exact hboth
      · exact hboth

end RecordsConjunctions

namespace ConjunctionTable

/-- The table after the visit of the cover clause. -/
def ofVisit {F P : Type} (env : AtomVisitor F P) {cp : CoveragePattern F P}
    (states : TestGoalStates cp) (cnf : Cnf) : ConjunctionTable where
  entries := (visitGoals env states (GoalTables.start cnf)).reverseAndMap
  records := RecordsConjunctions.visitGoals env states
    ⟨fun _ _ _ h => absurd h List.not_mem_nil, fun _ _ _ h => absurd h List.not_mem_nil,
      fun _ _ _ h => absurd h List.not_mem_nil⟩

/-- The order of `::std::pair< ::literalt, ::literalt >`. -/
def before (p q : Literal × Literal) : Bool :=
  p.1.before q.1 || (p.1 = q.1 && p.2.before q.2)

/-- The set `find(s)->second`, in the order of its iterators. -/
def find (table : ConjunctionTable) (s : Literal) : List (Literal × Literal) :=
  ((table.entries.filter fun e => e.1 = s).map Prod.snd).insertionSort
    fun p q => p = q ∨ before p q = true

/-- The entries of a literal. -/
theorem mem_find {table : ConjunctionTable} {s : Literal} {e : Literal × Literal} :
    e ∈ table.find s ↔ (s, e) ∈ table.entries := by
  simp [find]

/-- A set of variable literals that has the satisfied ones and, with both
operands known or constant true, every recorded conjunction. -/
def Closed (table : ConjunctionTable) (sat : TestGoals) (X : Set Literal) : Prop :=
  (∀ l ∈ sat.toList, l.isConstant = false → l ∈ X) ∧
  ∀ a sg b, (a, sg, b) ∈ table.entries → sg.isConstant = false →
    (a = .const true ∨ a ∈ X) → (b = .const true ∨ b ∈ X) → sg ∈ X

/-- The variables are closed under the table. -/
theorem closed_variables (table : ConjunctionTable) (sat : TestGoals) :
    table.Closed sat {l | l.isConstant = false} :=
  ⟨fun _ _ hl => hl, fun _ _ _ _ hsg _ _ => hsg⟩

end ConjunctionTable

/-! ## The worklist -/

/-- The variables of the worklist loop: `known_sat`, `new_sat` and
`and_missing_one`, in which a missing key and an empty list are the same. -/
structure ConjState where
  knownSat : KnownSat
  newSat : List Literal
  missing : Literal → List Literal

namespace ConjState

/-- What the loop starts from. -/
def start (sat : TestGoals) : ConjState := ⟨KnownSat.ofSet sat, sat.toList, fun _ => []⟩

/-- `if (known_sat.insert(l)) new_sat.push_back(l)`. -/
def note (st : ConjState) (l : Literal) : ConjState :=
  let (inserted, knownSat) := st.knownSat.insert l
  { st with
    knownSat := knownSat
    newSat := if inserted then st.newSat ++ [l] else st.newSat }

/-- `and_missing_one[ other ].push_back(sg)`. -/
def park (st : ConjState) (other sg : Literal) : ConjState :=
  { st with missing := Function.update st.missing other (st.missing other ++ [sg]) }

/-- One entry of the literal taken: a conjunction and its other operand. -/
def visitEntry (st : ConjState) (e : Literal × Literal) : ConjState :=
  -- s AND true is s
  if e.2.isTrue then st
  else if st.knownSat.has e.1 then st
  else if st.knownSat.has e.2 then st.note e.1
  else st.park e.2 e.1

/-- The body of the loop for the literal `s`, which is off the list already,
with its entries in the order of `es`. -/
def visit (st : ConjState) (s : Literal) (es : List (Literal × Literal)) : ConjState :=
  let st := es.foldl visitEntry st
  let st' := (st.missing s).foldl note st
  { st' with missing := Function.update st'.missing s [] }

/-- One round: any literal of the list is taken, and its entries come in any
order. -/
inductive Step (table : ConjunctionTable) : ConjState → ConjState → Prop
  | take (st : ConjState) (xs : List Literal) (s : Literal) (ys : List Literal)
      (es : List (Literal × Literal)) (hsplit : st.newSat = xs ++ s :: ys)
      (hes : es.Perm (table.find s)) :
      Step table st (visit { st with newSat := xs ++ ys } s es)

/-- `while (!new_sat.empty())`, at most `fuel` times. -/
def run (table : ConjunctionTable) : Nat → ConjState → ConjState
  | 0, st => st
  | fuel + 1, st =>
      match st.newSat with
      | [] => st
      | s :: newSat => run table fuel (visit { st with newSat := newSat } s (table.find s))

/-! ### What one round does -/

variable {table : ConjunctionTable} {sat : TestGoals} {X : Set Literal} {st : ConjState}
  {s sg b l x : Literal}

/-- What is known after a note. -/
theorem has_note : (st.note l).knownSat.has x = true ↔
    st.knownSat.has x = true ∨ (x = l ∧ l.isConstant = false) :=
  st.knownSat.has_insert

/-- What is new after a note. -/
theorem mem_note : x ∈ (st.note l).newSat ↔
    x ∈ st.newSat ∨ (x = l ∧ l.isConstant = false ∧ st.knownSat.has l = false) := by
  rw [← st.knownSat.insert_new]
  by_cases h : (st.knownSat.insert l).1 = true
  · simp [note, h]
  · simp [note, h]

/-- A note parks nothing. -/
@[simp] theorem note_missing : (st.note l).missing = st.missing := rfl

/-- Parking makes nothing known. -/
@[simp] theorem park_knownSat : (st.park b sg).knownSat = st.knownSat := rfl

/-- What is parked, and for which literal. -/
theorem mem_park : x ∈ (st.park b sg).missing l ↔ x ∈ st.missing l ∨ (l = b ∧ x = sg) := by
  by_cases hl : l = b
  · subst hl
    simp [park]
  · simp [park, hl]

/-- The entry of a conjunction `sg` under an operand that is known has been
seen to: `sg` is known, or parked under the other operand `b`.  The literals
of `late` count as not taken yet. -/
def Handled (st : ConjState) (late : Literal → Prop) (sg b : Literal) : Prop :=
  b = .const true ∨ sg.isConstant = true ∨ st.knownSat.has sg = true ∨
    (sg ∈ st.missing b ∧ (st.knownSat.has b = false ∨ b ∈ st.newSat ∨ late b))

/-- What is handled stays so. -/
theorem Handled.note {late : Literal → Prop} (h : st.Handled late sg b) (l : Literal) :
    (st.note l).Handled late sg b := by
  rcases h with htrue | hconst | hsg | ⟨hparked, hb⟩
  · exact Or.inl htrue
  · exact Or.inr (Or.inl hconst)
  · exact Or.inr (Or.inr (Or.inl (has_note.mpr (Or.inl hsg))))
  · refine Or.inr (Or.inr (Or.inr ⟨hparked, ?_⟩))
    rcases hb with hb | hb | hb
    · -- `b` may be the literal that becomes known, and then it is put on the list
      by_cases hbl : b = l ∧ l.isConstant = false
      · obtain ⟨rfl, hconst⟩ := hbl
        exact Or.inr (Or.inl (mem_note.mpr (Or.inr ⟨rfl, hconst, hb⟩)))
      · left
        rw [← Bool.not_eq_true, has_note, not_or]
        exact ⟨by simp [hb], hbl⟩
    · exact Or.inr (Or.inl (mem_note.mpr (Or.inl hb)))
    · exact Or.inr (Or.inr hb)

/-- **The invariant**, for a closed set `X`: the known literals are in `X`,
and every entry of a known literal has been seen to, except those of literals
on the list and those that are `unseen`. -/
structure ConjInv (table : ConjunctionTable) (sat : TestGoals) (X : Set Literal)
    (late : Literal → Prop) (unseen : Literal × Literal × Literal → Prop) (st : ConjState) :
    Prop where
  sound : ∀ l, l.isConstant = false → st.knownSat.has l = true → l ∈ X
  listed : ∀ l ∈ st.newSat, l.isConstant = false → l ∈ X
  parked : ∀ b, ∀ sg ∈ st.missing b, sg.isConstant = false →
    ∃ a, (a, sg, b) ∈ table.entries ∧ (a = .const true ∨ a ∈ X)
  satisfied : ∀ l ∈ sat.toList, l.isConstant = false → st.knownSat.has l = true
  closed : ∀ a sg b, (a, sg, b) ∈ table.entries → a.isConstant = false →
    st.knownSat.has a = true → a ∈ st.newSat ∨ unseen (a, sg, b) ∨ st.Handled late sg b

namespace ConjInv

variable {late : Literal → Prop} {unseen : Literal × Literal × Literal → Prop}

/-- A conjunction that belongs to `X` becomes known. -/
theorem note (h : ConjInv table sat X late unseen st) (hl : l.isConstant = false → l ∈ X) :
    ConjInv table sat X late unseen (st.note l) where
  sound := by
    intro x hx hk
    rcases has_note.mp hk with hold | ⟨rfl, -⟩
    · exact h.sound x hx hold
    · exact hl hx
  listed := by
    intro x hx hc
    rcases mem_note.mp hx with hold | ⟨rfl, -, -⟩
    · exact h.listed x hold hc
    · exact hl hc
  parked := h.parked
  satisfied := fun x hx hc => has_note.mpr (Or.inl (h.satisfied x hx hc))
  closed := by
    intro a sg b hentry ha hk
    by_cases hold : st.knownSat.has a = true
    · rcases h.closed a sg b hentry ha hold with hnew | hunseen | hhandled
      · exact Or.inl (mem_note.mpr (Or.inl hnew))
      · exact Or.inr (Or.inl hunseen)
      · exact Or.inr (Or.inr (hhandled.note l))
    · rcases has_note.mp hk with hold' | ⟨rfl, hconst⟩
      · exact absurd hold' hold
      · exact Or.inl (mem_note.mpr (Or.inr ⟨rfl, hconst, by simpa using hold⟩))

/-- Entries that have been seen to need not be kept apart. -/
theorem seen {unseen' : Literal × Literal × Literal → Prop}
    (h : ConjInv table sat X late unseen st)
    (hseen : ∀ a sg b, unseen (a, sg, b) → unseen' (a, sg, b) ∨ st.Handled late sg b) :
    ConjInv table sat X late unseen' st where
  sound := h.sound
  listed := h.listed
  parked := h.parked
  satisfied := h.satisfied
  closed := by
    intro a sg b hentry ha hk
    rcases h.closed a sg b hentry ha hk with hnew | hunseen | hhandled
    · exact Or.inl hnew
    · exact Or.inr (hseen a sg b hunseen)
    · exact Or.inr (Or.inr hhandled)

/-- Parking a conjunction. -/
theorem park (h : ConjInv table sat X late unseen st) (hentry : (s, sg, b) ∈ table.entries)
    (hs : sg.isConstant = false → s = .const true ∨ s ∈ X) :
    ConjInv table sat X late unseen (st.park b sg) where
  sound := h.sound
  listed := h.listed
  parked := by
    intro b' sg' hmem hconst
    rcases mem_park.mp hmem with hold | ⟨rfl, rfl⟩
    · exact h.parked b' sg' hold hconst
    · exact ⟨s, hentry, hs hconst⟩
  satisfied := h.satisfied
  closed := by
    intro a sg' b' hentry' ha hk
    refine (h.closed a sg' b' hentry' ha hk).imp_right (Or.imp_right ?_)
    intro hhandled
    rcases hhandled with htrue | hconst | hsg | ⟨hmem, hb⟩
    · exact Or.inl htrue
    · exact Or.inr (Or.inl hconst)
    · exact Or.inr (Or.inr (Or.inl hsg))
    · exact Or.inr (Or.inr (Or.inr ⟨mem_park.mpr (Or.inl hmem), hb⟩))

/-- One entry of the literal `s`. -/
theorem visitEntry (h : ConjInv table sat X late unseen st) (hX : table.Closed sat X)
    (hentry : (s, sg, b) ∈ table.entries)
    (hs : sg.isConstant = false → s = .const true ∨ s ∈ X) :
    ConjInv table sat X late unseen (st.visitEntry (sg, b)) ∧
      (st.visitEntry (sg, b)).Handled late sg b := by
  unfold ConjState.visitEntry
  split_ifs with htrue hsg hb
  · exact ⟨h, Or.inl (Literal.isTrue_iff.mp htrue)⟩
  · exact ⟨h, Or.inr (Or.inr (Or.inl hsg))⟩
  · refine ⟨h.note fun hconst => hX.2 s sg b hentry hconst (hs hconst) ?_, ?_⟩
    · cases b with
      | const value =>
          left
          rw [← hb]
          rfl
      | var varNo sign => exact Or.inr (h.sound _ rfl hb)
    · cases hc : sg.isConstant with
      | true => exact Or.inr (Or.inl hc)
      | false => exact Or.inr (Or.inr (Or.inl (has_note.mpr (Or.inr ⟨rfl, hc⟩))))
  · have hparked : sg ∈ (st.park b sg).missing b := mem_park.mpr (Or.inr ⟨rfl, rfl⟩)
    exact ⟨h.park hentry hs, Or.inr (Or.inr (Or.inr ⟨hparked, Or.inl (by simpa using hb)⟩))⟩

/-- The loop over the entries of a literal. -/
theorem visitEntries (es : List (Literal × Literal)) (hX : table.Closed sat X)
    (hentries : ∀ e ∈ es, (s, e) ∈ table.entries)
    (hs : ∀ e ∈ es, e.1.isConstant = false → s = .const true ∨ s ∈ X)
    (h : ConjInv table sat X late (fun e => e.1 = s ∧ e.2 ∈ es) st) :
    ConjInv table sat X late (fun _ => False) (es.foldl ConjState.visitEntry st) := by
  induction es generalizing st with
  | nil => exact h.seen fun a sg b hmem => absurd hmem.2 List.not_mem_nil
  | cons e es ih =>
      obtain ⟨sg, b⟩ := e
      obtain ⟨hinv, hhandled⟩ := h.visitEntry hX (hentries (sg, b) List.mem_cons_self)
        (hs (sg, b) List.mem_cons_self)
      refine ih (fun e he => hentries e (List.mem_cons_of_mem _ he))
        (fun e he => hs e (List.mem_cons_of_mem _ he)) (hinv.seen ?_)
      intro a sg' b' hx
      obtain ⟨ha, hmem⟩ := hx
      rcases List.mem_cons.mp hmem with heq | hmem
      · obtain ⟨rfl, rfl⟩ := Prod.mk.inj heq
        exact Or.inr hhandled
      · exact Or.inl ⟨ha, hmem⟩

/-- The conjunctions that were parked under the literal taken. -/
theorem noteAll (ls : List Literal) (hls : ∀ l ∈ ls, l.isConstant = false → l ∈ X)
    (h : ConjInv table sat X late unseen st) :
    ConjInv table sat X late unseen (ls.foldl ConjState.note st) ∧
      (ls.foldl ConjState.note st).missing = st.missing ∧
      (∀ l, st.knownSat.has l = true → (ls.foldl ConjState.note st).knownSat.has l = true) ∧
      ∀ l ∈ ls, l.isConstant = true ∨ (ls.foldl ConjState.note st).knownSat.has l = true := by
  induction ls generalizing st with
  | nil => exact ⟨h, rfl, fun _ hl => hl, fun _ hl => absurd hl List.not_mem_nil⟩
  | cons m ls ih =>
      obtain ⟨hinv, hmissing, hkept, hall⟩ :=
        ih (fun l hl => hls l (List.mem_cons_of_mem _ hl)) (h.note (hls m List.mem_cons_self))
      refine ⟨hinv, hmissing, fun l hl => hkept l (has_note.mpr (Or.inl hl)), fun l hl => ?_⟩
      rcases List.mem_cons.mp hl with rfl | hl
      · cases hc : l.isConstant with
        | true => exact Or.inl rfl
        | false => exact Or.inr (hkept l (has_note.mpr (Or.inr ⟨rfl, hc⟩)))
      · exact hall l hl

/-- The key of the literal taken is erased. -/
theorem release (hls : ∀ l ∈ st.missing s, l.isConstant = false → l ∈ X)
    (h : ConjInv table sat X (· = s) (fun _ => False) st) :
    ConjInv table sat X (fun _ => False) (fun _ => False)
      { (st.missing s).foldl ConjState.note st with
        missing := Function.update ((st.missing s).foldl ConjState.note st).missing s [] } := by
  obtain ⟨hinv, hmissing, -, hall⟩ := h.noteAll (st.missing s) hls
  generalize (st.missing s).foldl ConjState.note st = out at hinv hmissing hall
  have hkey : ∀ b sg, sg ∈ (Function.update out.missing s []) b ↔ b ≠ s ∧ sg ∈ out.missing b := by
    intro b sg
    by_cases hb : b = s
    · simp [hb]
    · simp [hb]
  refine ⟨hinv.sound, hinv.listed, fun b sg hmem => hinv.parked b sg ((hkey b sg).mp hmem).2,
    hinv.satisfied, fun a sg b hentry ha hk => ?_⟩
  refine (hinv.closed a sg b hentry ha hk).imp_right (Or.imp_right ?_)
  intro hhandled
  rcases hhandled with htrue | hconst | hsg | ⟨hmem, hb⟩
  · exact Or.inl htrue
  · exact Or.inr (Or.inl hconst)
  · exact Or.inr (Or.inr (Or.inl hsg))
  · by_cases hbs : b = s
    · -- what was parked under `s` is known now
      rcases hall sg (hmissing ▸ hbs ▸ hmem) with hconst | hsg
      · exact Or.inr (Or.inl hconst)
      · exact Or.inr (Or.inr (Or.inl hsg))
    · refine Or.inr (Or.inr (Or.inr ⟨(hkey b sg).mpr ⟨hbs, hmem⟩, ?_⟩))
      rcases hb with hb | hb | hb
      · exact Or.inl hb
      · exact Or.inr (Or.inl hb)
      · exact absurd hb hbs

/-- The round up to the end of the first inner loop. -/
theorem taken {xs ys : List Literal} {es : List (Literal × Literal)} (hX : table.Closed sat X)
    (hsplit : st.newSat = xs ++ s :: ys) (hes : es.Perm (table.find s))
    (h : ConjInv table sat X (fun _ => False) (fun _ => False) st) :
    ConjInv table sat X (· = s) (fun _ => False)
        (es.foldl ConjState.visitEntry { st with newSat := xs ++ ys }) ∧
      ∀ sg b, (s, sg, b) ∈ table.entries → sg.isConstant = false → s = .const true ∨ s ∈ X := by
  have hlist : ∀ l, l ∈ st.newSat ↔ l = s ∨ l ∈ xs ++ ys := by
    intro l
    rw [hsplit]
    simp only [List.mem_append, List.mem_cons]
    tauto
  have hentries : ∀ e ∈ es, (s, e) ∈ table.entries :=
    fun e he => ConjunctionTable.mem_find.mp (hes.mem_iff.mp he)
  -- a constant on the list matters only if it is true
  have hs : ∀ sg b, (s, sg, b) ∈ table.entries → sg.isConstant = false →
      s = .const true ∨ s ∈ X := by
    intro sg b hentry hconst
    cases s with
    | const value =>
        cases value with
        | true => exact Or.inl rfl
        | false =>
            rw [table.records.of_false b sg _ (table.records.symm _ _ _ hentry) rfl] at hconst
            cases hconst
    | var varNo sign => exact Or.inr (h.listed _ ((hlist _).mpr (Or.inl rfl)) rfl)
  have htaken : ConjInv table sat X (· = s) (fun e => e.1 = s ∧ e.2 ∈ es)
      { st with newSat := xs ++ ys } := by
    refine ⟨h.sound, fun l hl hc => h.listed l ((hlist l).mpr (Or.inr hl)) hc, h.parked,
      h.satisfied, ?_⟩
    intro a sg b hentry ha hk
    rcases h.closed a sg b hentry ha hk with hnew | hfalse | hhandled
    · rcases (hlist a).mp hnew with rfl | hnew
      · exact Or.inr (Or.inl ⟨rfl, hes.mem_iff.mpr (ConjunctionTable.mem_find.mpr hentry)⟩)
      · exact Or.inl hnew
    · exact absurd hfalse id
    · refine Or.inr (Or.inr ?_)
      rcases hhandled with htrue | hconst | hsg | ⟨hmem, hb | hb | hb⟩
      · exact Or.inl htrue
      · exact Or.inr (Or.inl hconst)
      · exact Or.inr (Or.inr (Or.inl hsg))
      · exact Or.inr (Or.inr (Or.inr ⟨hmem, Or.inl hb⟩))
      · refine Or.inr (Or.inr (Or.inr ⟨hmem, ?_⟩))
        rcases (hlist b).mp hb with hb | hb
        · exact Or.inr (Or.inr hb)
        · exact Or.inr (Or.inl hb)
      · exact absurd hb id
  exact ⟨htaken.visitEntries es hX hentries fun e he => hs e.1 e.2 (hentries e he), hs⟩

/-- **One round keeps the invariant.** -/
theorem step {st' : ConjState} (hX : table.Closed sat X) (hstep : Step table st st')
    (h : ConjInv table sat X (fun _ => False) (fun _ => False) st) :
    ConjInv table sat X (fun _ => False) (fun _ => False) st' := by
  cases hstep with
  | take xs s ys es hsplit hes =>
      obtain ⟨hvisited, hs⟩ := h.taken hX hsplit hes
      refine hvisited.release fun l hl hconst => ?_
      obtain ⟨a, hentry, ha⟩ := hvisited.parked s l hl hconst
      exact hX.2 a l s hentry hconst ha (hs l a (table.records.symm _ _ _ hentry) hconst)

/-- **A run keeps the invariant.** -/
theorem steps {st' : ConjState} (hX : table.Closed sat X)
    (hsteps : Relation.ReflTransGen (Step table) st st')
    (h : ConjInv table sat X (fun _ => False) (fun _ => False) st) :
    ConjInv table sat X (fun _ => False) (fun _ => False) st' := by
  induction hsteps with
  | refl => exact h
  | tail _ hstep ih => exact ih.step hX hstep

/-- **An empty list means that the set is closed.** -/
theorem isLeast (h : ∀ X, table.Closed sat X →
      ConjInv table sat X (fun _ => False) (fun _ => False) st) (hdone : st.newSat = []) :
    IsLeast {X | table.Closed sat X} {l | l.isConstant = false ∧ st.knownSat.has l = true} := by
  have hinv := h _ (table.closed_variables sat)
  have hknown : ∀ a, (a = .const true ∨ (a.isConstant = false ∧ st.knownSat.has a = true)) →
      st.knownSat.has a = true := by
    intro a hx
    rcases hx with rfl | ha
    · rfl
    · exact ha.2
  refine ⟨⟨fun l hl hc => ⟨hc, hinv.satisfied l hl hc⟩, ?_⟩, ?_⟩
  · intro a sg b hentry hsg ha hb
    refine ⟨hsg, ?_⟩
    rcases ha with rfl | ha
    · rw [table.records.of_true b sg _ (table.records.symm _ _ _ hentry) rfl]
      exact hknown b hb
    · rcases hinv.closed a sg b hentry ha.1 ha.2 with hnew | hfalse | hhandled
      · rw [hdone] at hnew
        exact absurd hnew List.not_mem_nil
      · exact absurd hfalse id
      · rcases hhandled with htrue | hconst | hk | ⟨-, hno | hnew | hfalse⟩
        · rw [table.records.of_true a sg b hentry htrue]
          exact ha.2
        · rw [hsg] at hconst
          cases hconst
        · exact hk
        · rw [hknown b hb] at hno
          cases hno
        · rw [hdone] at hnew
          exact absurd hnew List.not_mem_nil
        · exact absurd hfalse id
  · intro X hX l hl
    exact (h X hX).sound l hl.1 hl.2

end ConjInv

/-! ### Progress -/

/-- The literals that may become known. -/
def candidates (table : ConjunctionTable) (sat : TestGoals) : List Literal :=
  sat.toList ++ table.entries.map fun e => e.2.1

/-- The literals on the list and those that may still come. -/
def measure (table : ConjunctionTable) (sat : TestGoals) (st : ConjState) : Nat :=
  st.newSat.length + ((candidates table sat).toFinset.filter fun l =>
    l.isConstant = false ∧ st.knownSat.has l = false).card

/-- A literal that comes onto the list was not known before. -/
theorem measure_note (hl : l.isConstant = false → l ∈ candidates table sat) :
    (st.note l).measure table sat ≤ st.measure table sat := by
  by_cases hnew : l.isConstant = false ∧ st.knownSat.has l = false
  · have hlist : (st.note l).newSat = st.newSat ++ [l] := by
      simp [note, st.knownSat.insert_new.mpr hnew]
    have hless : ((candidates table sat).toFinset.filter fun x =>
          x.isConstant = false ∧ (st.note l).knownSat.has x = false).card <
        ((candidates table sat).toFinset.filter fun x =>
          x.isConstant = false ∧ st.knownSat.has x = false).card := by
      refine Finset.card_lt_card (Finset.ssubset_iff_of_subset ?_ |>.mpr ⟨l, ?_, ?_⟩)
      · refine Finset.monotone_filter_right _ ?_
        intro x hall hcase
        obtain - := hall
        obtain ⟨hx, hk⟩ := hcase
        refine ⟨hx, ?_⟩
        rw [← Bool.not_eq_true] at hk ⊢
        exact fun h => hk (has_note.mpr (Or.inl h))
      · rw [Finset.mem_filter, List.mem_toFinset]
        exact ⟨hl hnew.1, hnew⟩
      · rw [Finset.mem_filter]
        intro hmem
        have hknown := has_note.mpr (Or.inr ⟨rfl, hnew.1⟩ : st.knownSat.has l = true ∨ _)
        rw [hknown] at hmem
        exact absurd hmem.2.2 (by decide)
    unfold measure
    rw [hlist, List.length_append, List.length_singleton]
    omega
  · have hlist : (st.note l).newSat = st.newSat := by
      have hfst : ¬ (st.knownSat.insert l).1 = true := fun h => hnew (st.knownSat.insert_new.mp h)
      simp [note, hfst]
    have hsame : ∀ x, x.isConstant = false →
        ((st.note l).knownSat.has x = false ↔ st.knownSat.has x = false) := by
      intro x hx
      rw [← Bool.not_eq_true, ← Bool.not_eq_true, has_note]
      grind
    unfold measure
    rw [hlist]
    refine Nat.add_le_add_left (Finset.card_le_card (Finset.monotone_filter_right _ ?_)) _
    intro x hall hcase
    obtain - := hall
    obtain ⟨hx, hk⟩ := hcase
    exact ⟨hx, (hsame x hx).mp hk⟩

/-- Notes do not raise the measure. -/
theorem measure_foldl_note (ls : List Literal)
    (hls : ∀ l ∈ ls, l.isConstant = false → l ∈ candidates table sat) :
    (ls.foldl note st).measure table sat ≤ st.measure table sat := by
  induction ls generalizing st with
  | nil => exact Nat.le_refl _
  | cons l ls ih =>
      exact (ih fun l hl => hls l (List.mem_cons_of_mem _ hl)).trans
        (measure_note (hls l List.mem_cons_self))

/-- Nor do the entries of a literal. -/
theorem measure_visitEntries (es : List (Literal × Literal))
    (hes : ∀ e ∈ es, (s, e) ∈ table.entries) :
    (es.foldl visitEntry st).measure table sat ≤ st.measure table sat := by
  induction es generalizing st with
  | nil => exact Nat.le_refl _
  | cons e es ih =>
      refine (ih fun e he => hes e (List.mem_cons_of_mem _ he)).trans ?_
      unfold visitEntry
      split_ifs
      · exact Nat.le_refl _
      · exact Nat.le_refl _
      · exact measure_note fun _ => List.mem_append_right _
          (List.mem_map.mpr ⟨(s, e), hes e List.mem_cons_self, rfl⟩)
      · exact Nat.le_refl _

/-- **Progress.** -/
theorem measure_step {st' : ConjState} (hX : table.Closed sat X) (hstep : Step table st st')
    (h : ConjInv table sat X (fun _ => False) (fun _ => False) st) :
    st'.measure table sat < st.measure table sat := by
  cases hstep with
  | take xs s ys es hsplit hes =>
      obtain ⟨hvisited, -⟩ := h.taken hX hsplit hes
      have hentries : ∀ e ∈ es, (s, e) ∈ table.entries :=
        fun e he => ConjunctionTable.mem_find.mp (hes.mem_iff.mp he)
      have hparked : ∀ l ∈ (es.foldl visitEntry { st with newSat := xs ++ ys }).missing s,
          l.isConstant = false → l ∈ candidates table sat := by
        intro l hl hconst
        obtain ⟨a, hentry, -⟩ := hvisited.parked s l hl hconst
        exact List.mem_append_right _ (List.mem_map.mpr ⟨(a, l, s), hentry, rfl⟩)
      calc measure table sat (visit { st with newSat := xs ++ ys } s es)
          ≤ (es.foldl visitEntry { st with newSat := xs ++ ys }).measure table sat :=
            measure_foldl_note _ hparked
        _ ≤ measure table sat { st with newSat := xs ++ ys } := measure_visitEntries es hentries
        _ < st.measure table sat := by
            unfold measure
            rw [hsplit]
            simp only [List.length_append, List.length_cons]
            omega

/-- The measure at the start. -/
theorem measure_start (table : ConjunctionTable) (sat : TestGoals) :
    (start sat).measure table sat ≤ sat.toList.length + table.entries.length := by
  refine Nat.add_le_add_left ?_ _
  have hnew : ((candidates table sat).toFinset.filter fun l =>
      l.isConstant = false ∧ (start sat).knownSat.has l = false) ⊆
        (table.entries.map fun e => e.2.1).toFinset := by
    intro l hl
    obtain ⟨hmem, hconst, hk⟩ := Finset.mem_filter.mp hl
    rw [List.mem_toFinset] at hmem ⊢
    refine (List.mem_append.mp hmem).resolve_left fun hsat => ?_
    have hknown := (KnownSat.has_ofSet sat).mpr (Or.inr ⟨hsat, hconst⟩)
    exact absurd hk (by rw [start, hknown]; decide)
  calc _ ≤ (table.entries.map fun e => e.2.1).toFinset.card := Finset.card_le_card hnew
    _ ≤ (table.entries.map fun e => e.2.1).length := List.toFinset_card_le _
    _ = table.entries.length := List.length_map _

/-! ### All runs -/

/-- The invariant holds at the start. -/
theorem ConjInv.start (hX : table.Closed sat X) :
    ConjInv table sat X (fun _ => False) (fun _ => False) (ConjState.start sat) := by
  have hhas : ∀ l, l.isConstant = false →
      ((ConjState.start sat).knownSat.has l = true ↔ l ∈ sat.toList) := by
    intro l hl
    have hne : l ≠ .const true := by
      intro heq
      subst heq
      cases hl
    simp [ConjState.start, KnownSat.has_ofSet, hne, hl]
  refine ⟨fun l hl hk => hX.1 l ((hhas l hl).mp hk) hl, fun l hl hc => hX.1 l hl hc,
    fun b sg hsg => absurd hsg List.not_mem_nil, fun l hl hc => (hhas l hc).mpr hl, ?_⟩
  intro a sg b _ ha hk
  exact Or.inl ((hhas a ha).mp hk)

/-- Every run ends. -/
theorem acc_step (h : ConjInv table sat {l | l.isConstant = false} (fun _ => False)
    (fun _ => False) st) : Acc (fun st' st => Step table st st') st := by
  induction hn : st.measure table sat using Nat.strong_induction_on generalizing st with
  | _ n ih =>
      refine Acc.intro st fun st' hstep => ?_
      have hless := measure_step (table.closed_variables sat) hstep h
      exact ih _ (hn ▸ hless) (h.step (table.closed_variables sat) hstep) rfl

/-- A work list that is not empty has a step. -/
theorem exists_step (hne : st.newSat ≠ []) : ∃ st', Step table st st' := by
  obtain ⟨s, ys, hsplit⟩ := List.exists_cons_of_ne_nil hne
  exact ⟨_, .take st [] s ys (table.find s) hsplit (List.Perm.refl _)⟩

/-- The loop takes steps. -/
theorem run_steps (fuel : Nat) : Relation.ReflTransGen (Step table) st (run table fuel st) := by
  induction fuel generalizing st with
  | zero => exact .refl
  | succ fuel ih =>
      unfold run
      split
      next => exact .refl
      next s ys hsplit =>
          exact .head (.take st [] s ys (table.find s) hsplit (List.Perm.refl _)) ih

/-- With enough fuel the work list runs empty. -/
theorem run_newSat (fuel : Nat) (hfuel : st.measure table sat ≤ fuel)
    (h : ConjInv table sat {l | l.isConstant = false} (fun _ => False) (fun _ => False) st) :
    (run table fuel st).newSat = [] := by
  induction fuel generalizing st with
  | zero =>
      have hlen : st.newSat.length = 0 := by
        unfold measure at hfuel
        omega
      exact List.length_eq_zero_iff.mp hlen
  | succ fuel ih =>
      unfold run
      split
      next hdone => exact hdone
      next s ys hsplit =>
          have hstep : Step table st (visit { st with newSat := ys } s (table.find s)) :=
            .take st [] s ys (table.find s) hsplit (List.Perm.refl _)
          have hless := measure_step (table.closed_variables sat) hstep h
          exact ih (by omega) (h.step (table.closed_variables sat) hstep)

end ConjState

/-- **The worklist computes the least closure.**  Whatever literal is taken
from the list and in whatever order its entries come, the loop ends, it stops
at an empty list only, and then the variable literals that are known are the
least closed set; a constant is known if it is true.  The code takes the first
literal and the entries in their order. -/
theorem conjunctions_least_closure (table : ConjunctionTable) (sat : TestGoals) :
    Acc (fun st' st => ConjState.Step table st st') (ConjState.start sat) ∧
    (∀ st, Relation.ReflTransGen (ConjState.Step table) (ConjState.start sat) st →
      ((¬∃ st', ConjState.Step table st st') ↔ st.newSat = []) ∧
      (st.newSat = [] →
        IsLeast {X | table.Closed sat X} {l | l.isConstant = false ∧ st.knownSat.has l = true}) ∧
      ∀ value, st.knownSat.has (.const value) = value) ∧
    Relation.ReflTransGen (ConjState.Step table) (ConjState.start sat)
      (ConjState.run table (sat.toList.length + table.entries.length) (ConjState.start sat)) ∧
    (ConjState.run table (sat.toList.length + table.entries.length)
      (ConjState.start sat)).newSat = [] := by
  have hstart := ConjState.ConjInv.start (table.closed_variables sat)
  refine ⟨ConjState.acc_step hstart, fun st hsteps => ⟨?_, fun hdone => ?_, fun _ => rfl⟩,
    ConjState.run_steps _, ConjState.run_newSat _ (ConjState.measure_start table sat) hstart⟩
  · refine ⟨fun hstop => ?_, fun hdone => ?_⟩
    · by_contra hne
      exact hstop (ConjState.exists_step hne)
    · intro h
      obtain ⟨st', hstep⟩ := h
      cases hstep with
      | take xs s ys es hsplit hes => simp [hdone] at hsplit
  · exact ConjState.ConjInv.isLeast
      (fun X hX => (ConjState.ConjInv.start hX).steps hX hsteps) hdone

/-! ## The scan over the ids -/

/-- What the loop over the id map does: it finds an id, reaches the end, or
moves an iterator past the end of its vector. -/
inductive IdScan
  | found (id : Nat)
  | notFound
  | pastEnd
  deriving DecidableEq, Repr

/-- The loop over the rows from `tg_iter` on, with `id` the number of the
first of them. -/
def idScan (known : Literal → Bool) (skips : List Nat) (rows : List (List Literal)) (id : Nat) :
    IdScan :=
  match rows with
  | [] => .notFound
  | row :: rows =>
      -- the inner loop stops behind the first literal that is not known
      match row.findIdx? fun l => !known l with
      | none => .found id
      | some k =>
          match skips[k]? with
          | none => .pastEnd
          | some skip =>
              if skip ≤ rows.length then idScan known skips (rows.drop skip) (id + skip + 1)
              else .pastEnd
  termination_by rows.length
  decreasing_by
    rw [List.length_drop, List.length_cons]
    omega

/-- The skips of groups of literals, and the number of their combinations. -/
def blockSkips (groups : List (List Literal)) : Nat × List Nat :=
  groups.foldr (fun lits prec => (prec.1 * lits.length, (prec.1 - 1) :: prec.2)) (1, [])

/-- A block is as long as its combinations are many. -/
theorem blockSkips_fst (groups : List (List Literal)) :
    (blockSkips groups).1 = (combinations groups).length := by
  induction groups with
  | nil => rfl
  | cons lits groups ih =>
      have hcons : (blockSkips (lits :: groups)).1 = (blockSkips groups).1 * lits.length := rfl
      rw [hcons, ih]
      simp [length_combinations, Nat.mul_comm]

/-- The skips are those of the blocks. -/
theorem makeSkips_eq {groups : List TestGoals} (hgroups : ∀ g ∈ groups, g.toList ≠ []) :
    makeSkips groups = (blockSkips (groups.map TestGoals.toList)).2 := by
  have hptrs : groupPtrs groups = groups.map fun g => ⟨g.toList, g.toList⟩ := by
    rw [groupPtrs, if_neg]
    simpa using hgroups
  unfold makeSkips blockSkips
  rw [hptrs, List.foldr_map]
  cases groups with
  | nil => rfl
  | cons g groups => rfl

/-- There is a combination unless a group is empty. -/
theorem combinations_ne_nil {groups : List (List Literal)} (h : ∀ lits ∈ groups, lits ≠ []) :
    combinations groups ≠ [] := by
  rw [ne_eq, ← List.length_eq_zero_iff, length_combinations, List.prod_eq_zero_iff]
  intro hzero
  obtain ⟨lits, hlits, hlen⟩ := List.mem_map.mp hzero
  exact h lits hlits (List.length_eq_zero_iff.mp hlen)

/-- A literal that is not known fails the whole block behind it, and the scan
jumps over what is left of the block. -/
theorem idScan_skip {known : Literal → Bool} {before : List Literal} {l : Literal}
    {skips later : List Nat} {block : List (List Literal)} (hblock : block ≠ [])
    (hskips : skips.length = before.length) (hbefore : ∀ m ∈ before, known m = true)
    (hl : known l = false) (rest : List (List Literal)) (id : Nat) :
    idScan known (skips ++ (block.length - 1) :: later)
        ((block.map fun row => before ++ l :: row) ++ rest) id =
      idScan known (skips ++ (block.length - 1) :: later) rest (id + block.length) := by
  obtain ⟨row, rows, rfl⟩ := List.exists_cons_of_ne_nil hblock
  have hfirst : (before ++ l :: row).findIdx? (fun m => !known m) = some before.length := by
    rw [List.findIdx?_append, List.findIdx?_eq_none_iff.mpr fun m hm => by simp [hbefore m hm]]
    simp [List.findIdx?_cons, hl]
  have hskip : (skips ++ (rows.length) :: later)[before.length]? = some rows.length := by
    simp [← hskips]
  rw [List.map_cons, List.cons_append, List.length_cons, Nat.add_sub_cancel, idScan, hfirst]
  dsimp only
  rw [hskip]
  dsimp only
  rw [if_pos (by simp), List.drop_append, List.length_map, Nat.sub_self, List.drop_zero,
    List.drop_eq_nil_of_le (by simp), List.nil_append, Nat.add_assoc]

/-- The result of a search behind `n` rows that are passed. -/
theorem idScan_shift (found : Option Nat) (id n m : Nat) (next : Nat → IdScan) :
    (match found with
      | some k => IdScan.found (id + n + k)
      | none => next (id + n + m)) =
      match found.map (· + n) with
      | some k => .found (id + k)
      | none => next (id + (n + m)) := by
  cases found with
  | none => simp [Nat.add_assoc]
  | some k =>
      simp only [Option.map_some, IdScan.found.injEq]
      omega

/-- **The scan block by block.**  The groups before have been decided, with
known literals; the rows of the others come before `rest`. -/
theorem idScan_block {known : Literal → Bool} (groups : List (List Literal))
    (hgroups : ∀ lits ∈ groups, lits ≠ []) (before : List Literal) (skips : List Nat)
    (hskips : skips.length = before.length) (hbefore : ∀ l ∈ before, known l = true)
    (rest : List (List Literal)) (id : Nat) :
    idScan known (skips ++ (blockSkips groups).2)
        (((combinations groups).map fun row => before ++ row) ++ rest) id =
      match (combinations groups).findIdx? fun row => row.all known with
      | some k => .found (id + k)
      | none => idScan known (skips ++ (blockSkips groups).2) rest
          (id + (combinations groups).length) := by
  induction groups generalizing before skips rest id with
  | nil =>
      have hall : before.findIdx? (fun l => !known l) = none :=
        List.findIdx?_eq_none_iff.mpr fun l hl => by simp [hbefore l hl]
      simp [combinations, idScan, hall]
  | cons lits groups ih =>
      have htail : ∀ lits ∈ groups, lits ≠ [] := fun l hl => hgroups l (List.mem_cons_of_mem _ hl)
      have hskip : (blockSkips (lits :: groups)).2 =
          ((combinations groups).length - 1) :: (blockSkips groups).2 := by
        rw [← blockSkips_fst]
        rfl
      rw [hskip, combinations]
      clear hskip hgroups
      induction lits generalizing rest id with
      | nil => simp
      | cons l lits ihLits =>
          have hrows : (((l :: lits).flatMap fun l => (combinations groups).map (l :: ·)).map
                fun row => before ++ row) ++ rest =
              ((combinations groups).map fun row => before ++ l :: row) ++
                (((lits.flatMap fun l => (combinations groups).map (l :: ·)).map
                  fun row => before ++ row) ++ rest) := by
            simp [Function.comp_def]
          have hfind : (((l :: lits).flatMap fun l => (combinations groups).map (l :: ·)).findIdx?
                fun row => row.all known) =
              (((combinations groups).findIdx? fun row => known l && row.all known).or
                (((lits.flatMap fun l => (combinations groups).map (l :: ·)).findIdx?
                  fun row => row.all known).map (· + (combinations groups).length))) := by
            simp [List.findIdx?_append, List.findIdx?_map, Function.comp_def]
          have hlen : ((l :: lits).flatMap fun l => (combinations groups).map (l :: ·)).length =
              (combinations groups).length +
                (lits.flatMap fun l => (combinations groups).map (l :: ·)).length := by
            simp
          rw [hrows, hfind, hlen]
          cases hl : known l with
          | false =>
              -- nothing in this block is found
              rw [idScan_skip (combinations_ne_nil htail) hskips hbefore hl, ihLits]
              simp only [Bool.false_and, List.findIdx?_eq_none_iff.mpr fun _ _ => rfl,
                Option.none_or]
              exact idScan_shift _ id _ _ _
          | true =>
              have hblock := ih htail (before ++ [l])
                (skips ++ [(combinations groups).length - 1]) (by simp [hskips])
                (by
                  intro m hm
                  rcases List.mem_append.mp hm with hm | hm
                  · exact hbefore m hm
                  · exact List.mem_singleton.mp hm ▸ hl)
                (((lits.flatMap fun l => (combinations groups).map (l :: ·)).map
                  fun row => before ++ row) ++ rest) id
              simp only [List.append_assoc, List.cons_append, List.nil_append] at hblock
              simp only [Bool.true_and]
              rw [hblock]
              cases (combinations groups).findIdx? fun row => row.all known with
              | some k => rfl
              | none =>
                  simp only [Option.none_or]
                  rw [ihLits]
                  exact idScan_shift _ id _ _ _

/-- **The skipping scan is the plain one.** -/
theorem idScan_eq_findIdx (groups : List TestGoals) (hgroups : ∀ g ∈ groups, g.toList ≠ [])
    (known : Literal → Bool) :
    ∃ rows, makeIdMap groups = some rows ∧
      idScan known (makeSkips groups) rows 0 =
        match rows.findIdx? fun row => row.all known with
        | some id => .found id
        | none => .notFound := by
  by_cases hne : groups = []
  · subst hne
    exact ⟨[], rfl, by simp [idScan]⟩
  · refine ⟨_, makeIdMap_eq hne, ?_⟩
    have hlits : ∀ lits ∈ groups.map TestGoals.toList, lits ≠ [] := by
      intro lits hmem
      obtain ⟨g, hg, rfl⟩ := List.mem_map.mp hmem
      exact hgroups g hg
    have hscan := @idScan_block known _ hlits [] [] rfl (by simp) [] 0
    rw [makeSkips_eq hgroups]
    simpa [idScan] using hscan

/-- Two groups of two literals. -/
def twoGroups : List TestGoals :=
  [⟨[.var 1 false, .var 2 false], by decide⟩, ⟨[.var 3 false, .var 4 false], by decide⟩]

/-- Ids 0 and 1 fail together, and 3 is found after 2. -/
theorem idScan_eq_findIdx_twoGroups :
    makeIdMap twoGroups = some (combinations (twoGroups.map TestGoals.toList)) ∧
    idScan (fun l => l = .var 2 false ∨ l = .var 4 false) (makeSkips twoGroups)
      (combinations (twoGroups.map TestGoals.toList)) 0 = .found 3 := by
  have hmap : makeIdMap twoGroups = some (combinations (twoGroups.map TestGoals.toList)) := by
    decide
  obtain ⟨rows, hrows, hscan⟩ := idScan_eq_findIdx twoGroups (by decide)
    fun l => l = .var 2 false ∨ l = .var 4 false
  cases hmap.symm.trans hrows
  exact ⟨hmap, hscan.trans (by decide)⟩

end FShell
