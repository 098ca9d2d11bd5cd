import FShell.TcGeneration.TestSuiteMinimization

/-!
# Minimum covers

The encoding has two halves.  Every model selects test cases that cover all
goals, and their number is the sum; and for every covering selection and every
bound above its number there is a model.  With them the last answer of a
sound and complete solver is a smallest covering selection: the loop keeps the
number at that of the last answer, and ends when no smaller cover is left.
-/

namespace FShell

/-! ## Selections -/

/-- The elements at which the choice is true. -/
def select {α : Type*} : List Bool → List α → List α
  | true :: choice, a :: as => a :: select choice as
  | false :: choice, _ :: as => select choice as
  | _, _ => []

theorem select_sublist {α : Type*} (choice : List Bool) (as : List α) :
    (select choice as).Sublist as := by
  induction as generalizing choice with
  | nil => cases choice with
    | nil => exact List.Sublist.refl _
    | cons b choice => cases b <;> exact List.Sublist.refl _
  | cons a as ih =>
      cases choice with
      | nil => exact List.nil_sublist _
      | cons b choice =>
          cases b with
          | true => exact (ih choice).cons_cons a
          | false => exact (ih choice).cons a

/-- Every sub-list is a selection. -/
theorem exists_select_of_sublist {α : Type*} {sub as : List α} (h : sub.Sublist as) :
    ∃ choice : List Bool, choice.length = as.length ∧ select choice as = sub := by
  induction h with
  | slnil => exact ⟨[], rfl, rfl⟩
  | cons a _ ih =>
      obtain ⟨choice, hlength, hselect⟩ := ih
      exact ⟨false :: choice, congrArg (· + 1) hlength, hselect⟩
  | cons_cons a _ ih =>
      obtain ⟨choice, hlength, hselect⟩ := ih
      exact ⟨true :: choice, congrArg (· + 1) hlength, congrArg (a :: ·) hselect⟩

theorem length_select {α : Type*} {choice : List Bool} {as : List α}
    (h : choice.length = as.length) :
    (select choice as).length = (choice.map Bool.toNat).sum := by
  induction as generalizing choice with
  | nil =>
      cases choice with
      | nil => rfl
      | cons b choice => cases h
  | cons a as ih =>
      cases choice with
      | nil => cases h
      | cons b choice =>
          have hrest := ih (Nat.succ_inj.mp h)
          cases b with
          | true =>
              rw [select, List.length_cons, hrest, List.map_cons, List.sum_cons, Bool.toNat_true,
                Nat.add_comm]
          | false =>
              rw [select, hrest, List.map_cons, List.sum_cons, Bool.toNat_false, Nat.zero_add]

/-- The goals that a suite covers. -/
def Covers (suite : List TestCase) (id : Nat) : Prop :=
  ∃ tc ∈ suite, id ∈ tc.goals

/-- The goal is covered by a test case whose literal is true. -/
def coveredBy (suite : List TestCase) (lits : List Literal) (v : Assignment) (id : Nat) : Bool :=
  (suite.zip lits).any fun entry => entry.1.goals.contains id && entry.2.eval v

theorem coveredBy_iff {suite : List TestCase} {lits : List Literal} {v : Assignment} {id : Nat} :
    coveredBy suite lits v id = true ↔ Covers (select (lits.map (Literal.eval v)) suite) id := by
  induction suite generalizing lits with
  | nil =>
      cases lits with
      | nil => simp [coveredBy, Covers, select]
      | cons l lits => cases hl : l.eval v <;> simp [coveredBy, Covers, select, hl]
  | cons tc suite ih =>
      cases lits with
      | nil => simp [coveredBy, Covers, select]
      | cons l lits =>
          have hrest := @ih lits
          rw [coveredBy, Covers] at hrest
          rw [coveredBy, Covers, List.zip_cons_cons, List.any_cons, Bool.or_eq_true, hrest,
            List.map_cons]
          cases hl : l.eval v with
          | true => simp [select]
          | false => simp [select]

/-! ## The cover map -/

/-- The map names, for every goal of `keys`, what `covered` says of it. -/
structure CoverMap (covered : Assignment → Nat → Bool) (keys : Nat → Prop)
    (st : List (Nat × Literal) × Cnf) : Prop where
  below : ∀ entry ∈ st.1, entry.2.Below st.2.noVariables
  eval : ∀ entry ∈ st.1, ∀ v, st.2.Models v → entry.2.eval v = covered v entry.1
  keys_iff : ∀ id, (∃ entry ∈ st.1, entry.1 = id) ↔ keys id
  absent : ∀ v id, ¬ keys id → covered v id = false

/-- The entries stay what they are when the clauses are extended. -/
theorem CoverMap.mono {covered : Assignment → Nat → Bool} {keys : Nat → Prop}
    {cover : List (Nat × Literal)} {c d : Cnf} (h : CoverMap covered keys (cover, c))
    (hcd : Cnf.Defines c d) : CoverMap covered keys (cover, d) where
  below := fun entry hentry => (h.below entry hentry).mono hcd.le
  eval := fun entry hentry v hv => h.eval entry hentry v (hcd.sound v hv)
  keys_iff := h.keys_iff
  absent := h.absent

/-- One goal more for the test case of `tcVar`. -/
theorem CoverMap.coverGoal {covered : Assignment → Nat → Bool} {keys : Nat → Prop}
    {st : List (Nat × Literal) × Cnf} {tcVar : Literal} (h : CoverMap covered keys st)
    (htc : tcVar.Below st.2.noVariables) (id : Nat) :
    Cnf.Defines st.2 (FShell.coverGoal tcVar st id).2 ∧
      CoverMap (fun v k => covered v k || (k == id && tcVar.eval v)) (fun k => keys k ∨ k = id)
        (FShell.coverGoal tcVar st id) := by
  unfold FShell.coverGoal
  cases hlookup : st.1.lookup id with
  | none =>
      have hfresh : ∀ entry ∈ st.1, entry.1 ≠ id := by
        intro entry hentry heq
        have hne := List.lookup_eq_none_iff.mp hlookup entry hentry
        simp [heq] at hne
      have hkey : ¬ keys id := by
        intro hk
        obtain ⟨entry, hentry, heq⟩ := (h.keys_iff id).mpr hk
        exact hfresh entry hentry heq
      refine ⟨Cnf.Defines.refl _, ?_, ?_, ?_, ?_⟩
      · intro entry hentry
        rcases (List.mem_orderedInsert _).mp hentry with rfl | hentry
        · exact htc
        · exact h.below entry hentry
      · intro entry hentry v hv
        rcases (List.mem_orderedInsert _).mp hentry with rfl | hentry
        · simp [h.absent v id hkey]
        · simp [h.eval entry hentry v hv, hfresh entry hentry]
      · intro k
        rw [← h.keys_iff k]
        constructor
        · intro hk
          obtain ⟨entry, hentry, heq⟩ := hk
          rcases (List.mem_orderedInsert _).mp hentry with rfl | hentry
          · exact .inr heq.symm
          · exact .inl ⟨entry, hentry, heq⟩
        · intro hk
          rcases hk with ⟨entry, hentry, heq⟩ | rfl
          · exact ⟨entry, (List.mem_orderedInsert _).mpr (.inr hentry), heq⟩
          · exact ⟨_, (List.mem_orderedInsert _).mpr (.inl rfl), rfl⟩
      · intro v k hk
        obtain ⟨hkeys, hne⟩ := not_or.mp hk
        simp [h.absent v k hkeys, hne]
  | some l =>
      have hmem : (id, l) ∈ st.1 := by
        obtain ⟨before, after, hsplit, -⟩ := List.lookup_eq_some_iff.mp hlookup
        rw [hsplit]
        exact List.mem_append_cons_self
      have ho := Cnf.lor_names (h.below _ hmem) htc
      have hkey : keys id := (h.keys_iff id).mp ⟨_, hmem, rfl⟩
      dsimp only
      refine ⟨ho.defines, ?_, ?_, ?_, ?_⟩
      · intro entry hentry
        obtain ⟨old, hold, rfl⟩ := List.mem_map.mp hentry
        split
        · exact ho.below
        · exact (h.below old hold).mono ho.defines.le
      · intro entry hentry v hv
        obtain ⟨old, hold, rfl⟩ := List.mem_map.mp hentry
        have hv0 := ho.defines.sound v hv
        split
        · rename_i heq
          rw [ho.eval v hv, h.eval _ hmem v hv0]
          simp
        · rename_i hne
          rw [h.eval old hold v hv0]
          simp [hne]
      · intro k
        rw [← h.keys_iff k]
        constructor
        · intro hk
          obtain ⟨entry, hentry, heq⟩ := hk
          obtain ⟨old, hold, rfl⟩ := List.mem_map.mp hentry
          split at heq
          · exact .inr heq.symm
          · exact .inl ⟨old, hold, heq⟩
        · intro hk
          have hold : ∃ old ∈ st.1, old.1 = k := by
            rcases hk with hk | rfl
            · exact hk
            · exact ⟨_, hmem, rfl⟩
          obtain ⟨old, hold, rfl⟩ := hold
          refine ⟨_, List.mem_map.mpr ⟨old, hold, rfl⟩, ?_⟩
          split
          · rename_i heq
            exact heq.symm
          · rfl
      · intro v k hk
        obtain ⟨hkeys, hne⟩ := not_or.mp hk
        simp [h.absent v k hkeys, hne]

/-- All goals of the test case of `tcVar`. -/
theorem CoverMap.coverGoals {covered : Assignment → Nat → Bool} {keys : Nat → Prop}
    {st : List (Nat × Literal) × Cnf} {tcVar : Literal} (h : CoverMap covered keys st)
    (htc : tcVar.Below st.2.noVariables) (goals : List Nat) :
    Cnf.Defines st.2 (goals.foldl (FShell.coverGoal tcVar) st).2 ∧
      CoverMap (fun v k => covered v k || (goals.contains k && tcVar.eval v))
        (fun k => keys k ∨ k ∈ goals) (goals.foldl (FShell.coverGoal tcVar) st) := by
  induction goals generalizing covered keys st with
  | nil => exact ⟨Cnf.Defines.refl _, by simpa using h⟩
  | cons id goals ih =>
      obtain ⟨hdefines, hmap⟩ := h.coverGoal htc id
      obtain ⟨hrest, hcover⟩ := ih hmap (htc.mono hdefines.le)
      refine ⟨hdefines.trans hrest, ?_⟩
      have hcovered : (fun v k => covered v k || (k == id && tcVar.eval v) ||
            (goals.contains k && tcVar.eval v)) =
          fun v k => covered v k || ((id :: goals).contains k && tcVar.eval v) := by
        funext v k
        rw [List.contains_cons]
        cases tcVar.eval v <;> simp [Bool.or_assoc]
      have hkeys : (fun k => (keys k ∨ k = id) ∨ k ∈ goals) =
          fun k => keys k ∨ k ∈ id :: goals := by
        funext k
        simp [or_assoc]
      rwa [hcovered, hkeys] at hcover

/-! ## The loop over the suite -/

/-- After the test cases `done`, whose literals are `lits`: the map names what
they cover, the variables of the test cases are free, and each literal is
mapped to the position of its test case. -/
structure Encodes (done : List TestCase) (lits : List Literal) (st : SuiteEncoding) : Prop where
  bounded : st.cnf.Bounded
  length : lits.length = done.length
  below : ∀ l ∈ lits, l.Below st.cnf.noVariables
  operands : st.sumOperands = lits.map fun l => [l]
  litMap : st.tcLitMap = lits.zipIdx
  cover : CoverMap (fun v id => coveredBy done lits v id) (Covers done) (st.setCover, st.cnf)
  free : ∀ choice : List Bool, choice.length = lits.length →
    ∃ v, st.cnf.Models v ∧ lits.map (Literal.eval v) = choice

theorem encodes_empty : Encodes [] [] ⟨Cnf.empty, [], [], []⟩ where
  bounded := fun clause h => nomatch h
  length := rfl
  below := fun l h => nomatch h
  operands := rfl
  litMap := rfl
  cover :=
    { below := fun entry h => nomatch h
      eval := fun entry h => nomatch h
      keys_iff := by
        intro id
        simp [Covers]
      absent := fun _ _ _ => rfl }
  free := by
    intro choice hlength
    rw [List.length_eq_zero_iff.mp hlength]
    refine ⟨fun _ => false, ?_, rfl⟩
    intro clause hclause
    cases hclause

theorem coveredBy_append {done : List TestCase} {lits : List Literal} (h : lits.length = done.length)
    (tc : TestCase) (l : Literal) (v : Assignment) (id : Nat) :
    coveredBy (done ++ [tc]) (lits ++ [l]) v id =
      (coveredBy done lits v id || (tc.goals.contains id && l.eval v)) := by
  rw [coveredBy, List.zip_append h.symm, List.any_append]
  simp [coveredBy]

theorem map_eval_congr {n : Nat} {v w : Assignment} (h : AgreeBelow n v w) {lits : List Literal}
    (hlits : ∀ l ∈ lits, l.Below n) : lits.map (Literal.eval v) = lits.map (Literal.eval w) :=
  List.map_congr_left fun l hl => (hlits l hl).eval_eq h

/-- One test case more. -/
theorem Encodes.encodeTestCase {done : List TestCase} {lits : List Literal} {st : SuiteEncoding}
    (h : Encodes done lits st) (tc : TestCase) :
    ∃ l, Encodes (done ++ [tc]) (lits ++ [l]) (FShell.encodeTestCase st (tc, done.length)) := by
  have hnew := Cnf.newVariable_defines st.cnf
  have htc : st.cnf.newVariable.1.Below st.cnf.newVariable.2.noVariables := Nat.lt_succ_self _
  obtain ⟨hdefines, hcover⟩ := (h.cover.mono hnew).coverGoals htc tc.goals
  have hall := hnew.trans hdefines
  have hfresh : (st.tcLitMap.any fun entry => entry.1 = st.cnf.newVariable.1) = false := by
    rw [h.litMap, List.any_eq_false]
    intro entry hentry heq
    have hbelow := h.below _ (List.fst_mem_of_mem_zipIdx hentry)
    rw [of_decide_eq_true heq] at hbelow
    exact absurd hbelow (Nat.lt_irrefl _)
  refine ⟨st.cnf.newVariable.1, ?_⟩
  simp only [FShell.encodeTestCase]
  refine ⟨hall.bounded h.bounded, ?_, ?_, ?_, ?_, ?_, ?_⟩
  · rw [List.length_append, List.length_append, h.length]
    rfl
  · intro l hl
    rcases List.mem_append.mp hl with hl | hl
    · exact (h.below l hl).mono hall.le
    · rw [List.mem_singleton.mp hl]
      exact htc.mono hdefines.le
  · rw [h.operands, List.map_append, List.map_singleton]
  · rw [hfresh, List.zipIdx_append, h.litMap, h.length, Nat.zero_add]
    rfl
  · have hcovered : (fun v id => coveredBy (done ++ [tc]) (lits ++ [st.cnf.newVariable.1]) v id) =
        fun v id => coveredBy done lits v id ||
          (tc.goals.contains id && st.cnf.newVariable.1.eval v) := by
      funext v id
      exact coveredBy_append h.length tc _ v id
    have hkeys : Covers (done ++ [tc]) = fun id => Covers done id ∨ id ∈ tc.goals := by
      funext id
      simp [Covers, or_and_right, exists_or]
    rw [hcovered, hkeys]
    exact hcover
  · intro choice hlength
    rcases List.eq_nil_or_concat choice with rfl | ⟨init, b, rfl⟩
    · rw [List.length_append] at hlength
      cases hlength
    · rw [List.length_append, List.length_concat] at hlength
      obtain ⟨v, hv, hinit⟩ := h.free init (Nat.succ_inj.mp hlength)
      have hagree := AgreeBelow.update st.cnf.noVariables v b
      have hv' := h.bounded.models_congr hagree hv
      obtain ⟨w, hw, hmodels⟩ := hdefines.complete (hnew.bounded h.bounded) _ hv'
      refine ⟨w, hmodels, ?_⟩
      have hlits : lits.map (Literal.eval w) = init := by
        rw [← hinit, ← map_eval_congr (hagree.trans hw (Nat.le_succ _)) h.below]
      have hbit : st.cnf.newVariable.1.eval w = b := by
        rw [← htc.eval_eq hw, Cnf.newVariable, Literal.eval_var, Function.update_self]
      rw [List.map_append, hlits, List.map_singleton, hbit, List.concat_eq_append]

theorem encodeSuite_encodes (suite : List TestCase) :
    ∃ lits, Encodes suite lits (encodeSuite suite) := by
  have hfold : ∀ (rest done : List TestCase) (lits : List Literal) (st : SuiteEncoding),
      Encodes done lits st →
      ∃ lits, Encodes (done ++ rest) lits
        ((rest.zipIdx done.length).foldl FShell.encodeTestCase st) := by
    intro rest
    induction rest with
    | nil =>
        intro done lits st h
        exact ⟨lits, by simpa using h⟩
    | cons tc rest ih =>
        intro done lits st h
        obtain ⟨l, hnext⟩ := h.encodeTestCase tc
        obtain ⟨lits', hrest⟩ := ih (done ++ [tc]) _ _ hnext
        rw [List.append_assoc, List.length_append] at hrest
        exact ⟨lits', hrest⟩
  exact hfold suite [] [] _ encodes_empty

/-! ## The sum and its bound -/

section Adders

variable (u : BvUtils)

/-- Operands of one width over the variables of `c`. -/
def Operands (c : Cnf) (width : Nat) (ops : List (List Literal)) : Prop :=
  ∀ op ∈ ops, op.length = width ∧ ∀ l ∈ op, l.Below c.noVariables

theorem Operands.mono {c d : Cnf} {width : Nat} {ops : List (List Literal)}
    (h : Operands c width ops) (hcd : c.noVariables ≤ d.noVariables) : Operands d width ops :=
  fun op hop => ⟨(h op hop).1, fun l hl => ((h op hop).2 l hl).mono hcd⟩

/-- The sum of the operands. -/
def total (v : Assignment) (ops : List (List Literal)) : Nat :=
  (ops.map (bvValue v)).sum

/-- One more bit is enough for the sum of two operands. -/
theorem add_zeroExtension {c : Cnf} {width : Nat} {op0 op1 : List Literal}
    (h0 : op0.length = width ∧ ∀ l ∈ op0, l.Below c.noVariables)
    (h1 : op1.length = width ∧ ∀ l ∈ op1, l.Below c.noVariables) :
    c.NamesVector (width + 1) (fun v => bvValue v op0 + bvValue v op1)
      (u.add c (zeroExtension op0 (width + 1)) (zeroExtension op1 (width + 1))) := by
  have hlen0 : (zeroExtension op0 (width + 1)).length = width + 1 :=
    length_zeroExtension (by omega)
  have hlen1 : (zeroExtension op1 (width + 1)).length = width + 1 :=
    length_zeroExtension (by omega)
  have hnames := u.add_names c _ _ (hlen0.trans hlen1.symm) (below_zeroExtension h0.2)
    (below_zeroExtension h1.2)
  rw [hlen0] at hnames
  refine ⟨hnames.defines, hnames.length, hnames.below, ?_⟩
  intro v hv
  have hlt0 := bvValue_lt v op0
  have hlt1 := bvValue_lt v op1
  rw [h0.1] at hlt0
  rw [h1.1] at hlt1
  rw [hnames.value v hv, bvValue_zeroExtension, bvValue_zeroExtension, Nat.mod_eq_of_lt]
  rw [Nat.pow_succ]
  omega

/-- A round keeps the sum and makes the operands one bit wider. -/
theorem addPairs_spec {c : Cnf} {width : Nat} {ops : List (List Literal)}
    (h : Operands c width ops) :
    Cnf.Defines c (addPairs u (width + 1) c ops).2 ∧
      Operands (addPairs u (width + 1) c ops).2 (width + 1) (addPairs u (width + 1) c ops).1 ∧
      ∀ v, (addPairs u (width + 1) c ops).2.Models v →
        total v (addPairs u (width + 1) c ops).1 = total v ops := by
  fun_induction addPairs u (width + 1) c ops with
  | case1 c op0 op1 rest sum next ih =>
      have hsum := add_zeroExtension u (h op0 (by simp)) (h op1 (by simp))
      have hrest : Operands c width rest := fun op hop => h op (by simp [hop])
      obtain ⟨hdefines, hops, htotal⟩ := ih (hrest.mono hsum.defines.le)
      refine ⟨hsum.defines.trans hdefines, ?_, ?_⟩
      · intro op hop
        rcases List.mem_cons.mp hop with rfl | hop
        · exact ⟨hsum.length, fun l hl => (hsum.below l hl).mono hdefines.le⟩
        · exact hops op hop
      · intro v hv
        have hvalue := hsum.value v (hdefines.sound v hv)
        have hrest := htotal v hv
        simp only [total, List.map_cons, List.sum_cons] at hrest ⊢
        rw [hrest, hvalue, Nat.add_assoc]
  | case2 c op =>
      obtain ⟨hlen, hbelow⟩ := h op List.mem_cons_self
      refine ⟨Cnf.Defines.refl c, ?_, ?_⟩
      · intro op' hop
        rw [List.mem_singleton.mp hop]
        exact ⟨length_zeroExtension (by omega), below_zeroExtension hbelow⟩
      · intro v _
        simp [total]
  | case3 c =>
      refine ⟨Cnf.Defines.refl c, ?_, fun _ _ => rfl⟩
      intro op hop
      cases hop

/-- **The fan-in adder** computes the sum, in a width that has room for it. -/
theorem fanInAdder_spec {c : Cnf} {width : Nat} {ops : List (List Literal)}
    (hne : ops ≠ []) (h : Operands c width ops) :
    ∃ newWidth, c.NamesVector newWidth (fun v => total v ops) (fanInAdder u c ops) ∧
      ops.length * 2 ^ width ≤ 2 ^ newWidth := by
  induction hn : ops.length using Nat.strong_induction_on generalizing c width ops with
  | _ n ih =>
      subst hn
      obtain ⟨op, rest, rfl⟩ := List.exists_cons_of_ne_nil hne
      obtain ⟨hlen, hbelow⟩ := h op List.mem_cons_self
      by_cases hone : 1 < (op :: rest).length
      · have hround := addPairs_spec u h
        have hlength := length_addPairs u (width + 1) c (op :: rest)
        rw [fanInAdder, if_pos hone, List.headD_cons, hlen]
        obtain ⟨hdefines, hops, htotal⟩ := hround
        have hnext : (addPairs u (width + 1) c (op :: rest)).1 ≠ [] := by
          intro hnil
          rw [hnil, List.length_nil] at hlength
          omega
        obtain ⟨newWidth, hnames, hroom⟩ := ih _ (by omega) hnext hops rfl
        refine ⟨newWidth, ⟨hdefines.trans hnames.defines, hnames.length, hnames.below, ?_⟩, ?_⟩
        · intro v hv
          rw [hnames.value v hv, htotal v (hnames.defines.sound v hv)]
        · refine Nat.le_trans ?_ hroom
          rw [hlength, Nat.pow_succ, ← Nat.mul_assoc, Nat.mul_right_comm]
          exact Nat.mul_le_mul_right _ (by omega)
      · have hrest : rest = [] := List.length_eq_zero_iff.mp (by simpa using hone)
        subst hrest
        rw [fanInAdder, if_neg hone, List.headD_cons]
        refine ⟨width, ⟨Cnf.Defines.refl c, hlen, hbelow, ?_⟩, by simp⟩
        intro v _
        simp [total]

end Adders

/-- The variables of a fresh vector are free. -/
theorem freshVector_spec {c : Cnf} (width : Nat) :
    let out := freshVector c width
    Cnf.Defines c out.2 ∧ out.1.length = width ∧ (∀ l ∈ out.1, l.Below out.2.noVariables) ∧
      (∀ l ∈ out.1, ∃ n, l = .var n false) ∧
      ∀ v, c.Bounded → c.Models v → ∀ n < 2 ^ width,
        ∃ w, AgreeBelow c.noVariables v w ∧ out.2.Models w ∧ bvValue w out.1 = n := by
  induction width generalizing c with
  | zero =>
      refine ⟨Cnf.Defines.refl c, rfl, List.forall_mem_nil _, List.forall_mem_nil _, ?_⟩
      intro v _ hv n hn
      have hzero : n = 0 := by simpa using hn
      exact ⟨v, AgreeBelow.refl _ v, hv, hzero.symm⟩
  | succ width ih =>
      have hnew := Cnf.newVariable_defines c
      obtain ⟨hdefines, hlength, hbelow, hvars, hfree⟩ := ih (c := c.newVariable.2)
      have hbit : c.newVariable.1.Below c.newVariable.2.noVariables := Nat.lt_succ_self _
      simp only [freshVector]
      refine ⟨hnew.trans hdefines, by rw [List.length_cons, hlength], ?_, ?_, ?_⟩
      · intro l hl
        rcases List.mem_cons.mp hl with rfl | hl
        · exact hbit.mono hdefines.le
        · exact hbelow l hl
      · intro l hl
        rcases List.mem_cons.mp hl with rfl | hl
        · exact ⟨_, rfl⟩
        · exact hvars l hl
      · intro v hc hv n hn
        have hagree := AgreeBelow.update c.noVariables v (n % 2 = 1)
        rw [Nat.pow_succ] at hn
        obtain ⟨w, hw, hmodels, hvalue⟩ := hfree _ (hnew.bounded hc)
          (hc.models_congr hagree hv) (n / 2) (by omega)
        refine ⟨w, hagree.trans hw (Nat.le_succ _), hmodels, ?_⟩
        have heval : c.newVariable.1.eval w = decide (n % 2 = 1) := by
          rw [← hbit.eval_eq hw, Cnf.newVariable, Literal.eval_var, Function.update_self]
        rw [bvValue_cons, hvalue, heval]
        by_cases hodd : n % 2 = 1
        · simp only [hodd, decide_true, Bool.toNat_true]
          omega
        · simp only [hodd, decide_false, Bool.toNat_false]
          omega

theorem clauseTrue_singleton (v : Assignment) (l : Literal) : clauseTrue v [l] = l.eval v := by
  simp [clauseTrue]

/-- **A sum below a bound.**  The models are those of the clauses with sum and
bound as they should be, and every bound above the sum has one. -/
theorem boundSum_spec (u : BvUtils) {c : Cnf} {width : Nat} {ops : List (List Literal)}
    (hne : ops ≠ []) (h : Operands c width ops) :
    let p := boundSum u c ops
    ops.length * 2 ^ width ≤ 2 ^ p.upperBound.length ∧
      (∀ l ∈ p.upperBound, ∃ n, l = .var n false) ∧
      (∀ v, p.cnf.Models v → c.Models v ∧ bvValue v p.sum = total v ops ∧
        bvValue v p.sum < bvValue v p.upperBound) ∧
      ∀ v, c.Bounded → c.Models v → ∀ bound < 2 ^ p.upperBound.length, total v ops < bound →
        ∃ w, AgreeBelow c.noVariables v w ∧ p.cnf.Models w ∧ bvValue w p.upperBound = bound := by
  obtain ⟨newWidth, hsum, hroom⟩ := fanInAdder_spec u hne h
  obtain ⟨hfresh, hlength, hbelow, hvars, hfree⟩ :=
    freshVector_spec (c := (fanInAdder u c ops).2) (fanInAdder u c ops).1.length
  have hsumBelow : ∀ l ∈ (fanInAdder u c ops).1,
      l.Below (freshVector (fanInAdder u c ops).2 (fanInAdder u c ops).1.length).2.noVariables :=
    fun l hl => (hsum.below l hl).mono hfresh.le
  have hless := u.unsignedLessThan_names _ _ _ hlength.symm hsumBelow hbelow
  simp only [boundSum]
  refine ⟨by rw [hlength, hsum.length]; exact hroom, hvars, ?_, ?_⟩
  · intro v hv
    obtain ⟨hv, hclause⟩ := Cnf.lcnf_models.mp hv
    have hfreshModels := hless.defines.sound v hv
    have hsumModels := hfresh.sound v hfreshModels
    refine ⟨hsum.defines.sound v hsumModels, hsum.value v hsumModels, ?_⟩
    rw [clauseTrue_singleton, hless.eval v hv] at hclause
    exact of_decide_eq_true hclause
  · intro v hc hv bound hbound hlt
    obtain ⟨w, hvw, hw⟩ := hsum.defines.complete hc v hv
    obtain ⟨x, hwx, hx, hvalue⟩ := hfree w (hsum.defines.bounded hc) hw bound
      (by rw [hlength] at hbound; exact hbound)
    obtain ⟨y, hxy, hy⟩ := hless.defines.complete (hfresh.bounded (hsum.defines.bounded hc)) x hx
    have hbits : bvValue y (freshVector (fanInAdder u c ops).2 (fanInAdder u c ops).1.length).1
        = bound := by
      rw [← hvalue]
      exact bvValue_congr fun l hl => ((hbelow l hl).eval_eq hxy).symm
    have htotal : bvValue y (fanInAdder u c ops).1 = total v ops := by
      rw [hsum.value y (hfresh.sound y (hless.defines.sound y hy))]
      have hagree := (hvw.trans hwx hsum.defines.le).trans hxy
        (Nat.le_trans hsum.defines.le hfresh.le)
      refine congrArg List.sum (List.map_congr_left fun op hop => ?_)
      exact bvValue_congr fun l hl => (((h op hop).2 l hl).eval_eq hagree).symm
    refine ⟨y, (hvw.trans hwx hsum.defines.le).trans hxy
      (Nat.le_trans hsum.defines.le hfresh.le), ?_, hbits⟩
    refine Cnf.lcnf_models.mpr ⟨hy, ?_⟩
    rw [clauseTrue_singleton, hless.eval y hy, htotal, hbits]
    exact decide_eq_true hlt

/-! ## The problem as a whole -/

/-- The selection covers what the suite covers. -/
def IsCover (suite selection : List TestCase) : Prop :=
  ∀ id, Covers suite id → Covers selection id

/-- What the search relies on. -/
structure Reduces (suite : List TestCase) (lits : List Literal) (p : MinimizationProblem) :
    Prop where
  length : lits.length = suite.length
  vars : ∀ l ∈ p.upperBound, ∃ n, l = .var n false
  room : suite.length < 2 ^ p.upperBound.length
  cover : ∀ v, p.cnf.Models v → IsCover suite (select (lits.map (Literal.eval v)) suite)
  sum : ∀ v, p.cnf.Models v →
    bvValue v p.sum = (select (lits.map (Literal.eval v)) suite).length
  less : ∀ v, p.cnf.Models v → bvValue v p.sum < bvValue v p.upperBound
  complete : ∀ choice : List Bool, choice.length = suite.length →
    IsCover suite (select choice suite) → ∀ bound < 2 ^ p.upperBound.length,
    (select choice suite).length < bound → ∃ v, p.cnf.Models v ∧ bvValue v p.upperBound = bound

theorem total_singletons {suite : List TestCase} {lits : List Literal} (v : Assignment)
    (h : lits.length = suite.length) :
    total v (lits.map fun l => [l]) = (select (lits.map (Literal.eval v)) suite).length := by
  rw [length_select (by rw [List.length_map, h])]
  simp [total, List.map_map, Function.comp_def]

/-- The clauses of the cover map hold exactly when the selection is a cover. -/
theorem Encodes.covering_models {suite : List TestCase} {lits : List Literal}
    {st : SuiteEncoding} (h : Encodes suite lits st) (v : Assignment) :
    st.covering.Models v ↔
      st.cnf.Models v ∧ IsCover suite (select (lits.map (Literal.eval v)) suite) := by
  rw [SuiteEncoding.covering, Cnf.lcnfAll_models, and_congr_right_iff]
  intro hv
  constructor
  · intro hclauses id hid
    obtain ⟨entry, hentry, rfl⟩ := (h.cover.keys_iff id).mpr hid
    have hclause := hclauses _ (List.mem_map.mpr ⟨entry, hentry, rfl⟩)
    obtain ⟨l, hl, htrue⟩ := clauseTrue_iff.mp hclause
    rw [List.mem_singleton.mp hl, h.cover.eval entry hentry v hv] at htrue
    exact coveredBy_iff.mp htrue
  · intro hcover clause hclause
    obtain ⟨entry, hentry, rfl⟩ := List.mem_map.mp hclause
    have hid := hcover entry.1 ((h.cover.keys_iff entry.1).mp ⟨entry, hentry, rfl⟩)
    refine clauseTrue_iff.mpr ⟨entry.2, List.mem_singleton_self _, ?_⟩
    rw [h.cover.eval entry hentry v hv]
    exact coveredBy_iff.mpr hid

theorem Encodes.covering_bounded {suite : List TestCase} {lits : List Literal}
    {st : SuiteEncoding} (h : Encodes suite lits st) : st.covering.Bounded := by
  refine Cnf.lcnfAll_bounded h.bounded ?_
  intro clause hclause l hl
  obtain ⟨entry, hentry, rfl⟩ := List.mem_map.mp hclause
  rw [List.mem_singleton.mp hl]
  exact h.cover.below entry hentry

theorem Encodes.covering_noVariables {suite : List TestCase} {lits : List Literal}
    {st : SuiteEncoding} (_ : Encodes suite lits st) :
    st.covering.noVariables = st.cnf.noVariables :=
  Cnf.lcnfAll_noVariables _ _

/-- **The encoding is exact.** -/
theorem Encodes.reduces (u : BvUtils) {suite : List TestCase} {lits : List Literal}
    {st : SuiteEncoding} (h : Encodes suite lits st) (hne : suite ≠ []) :
    Reduces suite lits (encodeProblem u st) := by
  have hops : st.sumOperands ≠ [] := by
    rw [h.operands]
    intro hnil
    have hlen := h.length
    rw [List.map_eq_nil_iff.mp hnil] at hlen
    exact hne (List.length_eq_zero_iff.mp hlen.symm)
  have hwidth : Operands st.covering 1 st.sumOperands := by
    intro op hop
    rw [h.operands] at hop
    obtain ⟨l, hl, rfl⟩ := List.mem_map.mp hop
    refine ⟨rfl, ?_⟩
    intro m hm
    rw [List.mem_singleton.mp hm, h.covering_noVariables]
    exact h.below l hl
  obtain ⟨hroom, hvars, hsound, hcomplete⟩ := boundSum_spec u hops hwidth
  have hlen : st.sumOperands.length = suite.length := by
    rw [h.operands, List.length_map, h.length]
  have hpos : 0 < suite.length := List.length_pos_iff.mpr hne
  refine ⟨h.length, hvars, ?_, ?_, ?_, ?_, ?_⟩
  · rw [hlen] at hroom
    exact Nat.lt_of_lt_of_le (by omega) hroom
  · intro v hv
    exact ((h.covering_models v).mp (hsound v hv).1).2
  · intro v hv
    rw [encodeProblem, (hsound v hv).2.1, h.operands, total_singletons v h.length]
  · intro v hv
    exact (hsound v hv).2.2
  · intro choice hchoice hcover bound hbound hlt
    obtain ⟨v, hv, hbits⟩ := h.free choice (hchoice.trans h.length.symm)
    have hcovering : st.covering.Models v := by
      rw [h.covering_models, hbits]
      exact ⟨hv, hcover⟩
    obtain ⟨w, -, hw, hvalue⟩ := hcomplete v h.covering_bounded hcovering bound hbound (by
      rw [h.operands, total_singletons v h.length, hbits]
      exact hlt)
    exact ⟨w, hw, hvalue⟩

/-! ## The search -/

/-- The variable of the literal, with the positive sign. -/
def Literal.positive : Literal → Literal
  | .const value => .const value
  | .var varNo _ => .var varNo false

/-- **Flipping signs.**  Whatever the signs were, assuming the literals of the
bound now assumes that it is `n`; their variables are the same. -/
theorem assumeBound_spec {bound upperBound : List Literal}
    (hvars : ∀ l ∈ bound, ∃ n, l = .var n false) (h : upperBound.map Literal.positive = bound)
    {n : Nat} (hn : n < 2 ^ bound.length) :
    (assumeBound upperBound (buildConstant n upperBound.length)).map Literal.positive = bound ∧
      ∀ v, (∀ l ∈ assumeBound upperBound (buildConstant n upperBound.length), l.eval v = true) ↔
        bvValue v bound = n := by
  induction upperBound generalizing bound n with
  | nil =>
      subst h
      refine ⟨rfl, fun v => ?_⟩
      have hzero : n = 0 := by simpa using hn
      simp [assumeBound, hzero]
  | cons l upperBound ih =>
      cases h
      obtain ⟨k, hk⟩ := hvars _ List.mem_cons_self
      obtain ⟨sign, rfl⟩ : ∃ sign, l = .var k sign := by
        cases l with
        | const value => cases hk
        | var varNo sign =>
            cases hk
            exact ⟨sign, rfl⟩
      rw [List.length_map, List.length_cons, Nat.pow_succ] at hn
      obtain ⟨hmap, heval⟩ := ih (fun m hm => hvars m (List.mem_cons_of_mem _ hm)) rfl (n := n / 2)
        (by rw [List.length_map]; omega)
      have hhead : assumeBound (.var k sign :: upperBound)
            (buildConstant n (Literal.var k sign :: upperBound).length) =
          .var k (!decide (n % 2 = 1)) ::
            assumeBound upperBound (buildConstant (n / 2) upperBound.length) := by
        rw [List.length_cons, buildConstant, assumeBound, List.zipWith_cons_cons]
        congr 1
        cases sign <;> cases decide (n % 2 = 1) <;> rfl
      rw [hhead]
      refine ⟨by rw [List.map_cons, hmap]; rfl, fun v => ?_⟩
      rw [List.forall_mem_cons, heval v, List.map_cons, bvValue_cons]
      by_cases hodd : n % 2 = 1
      · simp only [hodd, decide_true, Literal.positive, Literal.eval]
        cases v k <;> simp <;> omega
      · simp only [hodd, decide_false, Literal.positive, Literal.eval]
        cases v k <;> simp <;> omega

/-- The number of the loop is the size of a cover: the whole suite at first,
then the selection of the last answer. -/
def Attained (suite : List TestCase) (lits : List Literal) (p : MinimizationProblem)
    (numTcs : Nat) (best : Option Assignment) : Prop :=
  match best with
  | none => numTcs = suite.length
  | some v => p.cnf.Models v ∧ numTcs = (select (lits.map (Literal.eval v)) suite).length

/-- **The loop** ends with the size of a cover that no cover undercuts. -/
theorem tighten_spec (solver : SatSolver) {suite : List TestCase} {lits : List Literal}
    {p : MinimizationProblem} (h : Reduces suite lits p) (hgoal : ∃ id, Covers suite id)
    {fuel : Nat} (call : Nat) {numTcs : Nat} {upperBound : List Literal}
    {best : Option Assignment} (hfuel : numTcs < fuel) (hbound : upperBound.map Literal.positive = p.upperBound)
    (hle : numTcs ≤ suite.length) (hbest : Attained suite lits p numTcs best) :
    ∃ found, tighten solver p fuel call upperBound numTcs best = some found ∧
      Attained suite lits p found.1 found.2 ∧
      ∀ choice : List Bool, choice.length = suite.length → IsCover suite (select choice suite) →
        found.1 ≤ (select choice suite).length := by
  induction fuel generalizing call numTcs upperBound best with
  | zero => exact absurd hfuel (Nat.not_lt_zero _)
  | succ fuel ih =>
      rw [tighten]
      by_cases hone : numTcs > 1
      · rw [if_pos hone]
        have hroom : numTcs < 2 ^ p.upperBound.length := Nat.lt_of_le_of_lt hle h.room
        obtain ⟨hnext, hassume⟩ := assumeBound_spec h.vars hbound hroom
        dsimp only
        cases hsolve : solver.solve call p.cnf.copyTo
            (assumeBound upperBound (buildConstant numTcs upperBound.length)) with
        | none =>
            refine ⟨_, rfl, hbest, ?_⟩
            intro choice hchoice hcover
            by_contra hlt
            obtain ⟨v, hv, hvalue⟩ := h.complete choice hchoice hcover numTcs hroom (by omega)
            obtain ⟨l, hl, hfalse⟩ :=
              solver.complete _ _ _ hsolve v (Cnf.copyTo_models.mpr hv)
            have htrue := (hassume v).mpr hvalue l hl
            exact Bool.false_ne_true (hfalse.symm.trans htrue)
        | some v =>
            obtain ⟨hmodels, htrue⟩ := solver.sound _ _ _ _ hsolve
            have hv := Cnf.copyTo_models.mp hmodels
            have hless := h.less v hv
            rw [(hassume v).mp htrue] at hless
            exact ih (call + 1) (by omega) hnext (by omega) ⟨hv, h.sum v hv⟩
      · rw [if_neg hone]
        refine ⟨_, rfl, hbest, ?_⟩
        intro choice _ hcover
        obtain ⟨id, hid⟩ := hgoal
        obtain ⟨tc, htc, -⟩ := hcover id hid
        have hpos := List.length_pos_of_mem htc
        omega

/-- The erasure by literal, from position `k` on. -/
theorem filter_zipIdx_eq_select (v : Assignment) {suite : List TestCase} {lits : List Literal}
    (h : lits.length = suite.length) (k : Nat) :
    ((suite.zipIdx k).filter fun tc => !(lits.zipIdx k).any fun entry =>
      entry.2 = tc.2 && !entry.1.eval v).map Prod.fst = select (lits.map (Literal.eval v)) suite := by
  induction suite generalizing lits k with
  | nil =>
      rw [List.length_eq_zero_iff.mp h]
      rfl
  | cons tc suite ih =>
      cases lits with
      | nil => cases h
      | cons l lits =>
          have hhead : ((lits.zipIdx (k + 1)).any fun entry =>
              entry.2 = k && !entry.1.eval v) = false := by
            rw [List.any_eq_false]
            intro entry hentry heq
            have hle := List.le_snd_of_mem_zipIdx hentry
            have hk : entry.2 = k := by
              rw [Bool.and_eq_true] at heq
              exact of_decide_eq_true heq.1
            omega
          have htail : (suite.zipIdx (k + 1)).filter (fun tc =>
                !((l, k) :: lits.zipIdx (k + 1)).any fun entry =>
                  entry.2 = tc.2 && !entry.1.eval v) =
              (suite.zipIdx (k + 1)).filter fun tc => !(lits.zipIdx (k + 1)).any fun entry =>
                entry.2 = tc.2 && !entry.1.eval v := by
            refine List.filter_congr fun tc htc => ?_
            have hle := List.le_snd_of_mem_zipIdx htc
            have hne : k ≠ tc.2 := by omega
            rw [List.any_cons, decide_eq_false hne, Bool.false_and, Bool.false_or]
          rw [List.zipIdx_cons, List.zipIdx_cons, List.filter_cons, htail, List.any_cons, hhead,
            decide_eq_true rfl, Bool.true_and, Bool.or_false, Bool.not_not, List.map_cons]
          have hrest := ih (Nat.succ_inj.mp h) (k + 1)
          cases hl : l.eval v with
          | true => rw [if_pos rfl, List.map_cons, hrest, select]
          | false => rw [if_neg Bool.false_ne_true, hrest, select]

theorem Covers.of_sublist {sub suite : List TestCase} (h : sub.Sublist suite) {id : Nat}
    (hid : Covers sub id) : Covers suite id := by
  obtain ⟨tc, htc, hgoal⟩ := hid
  exact ⟨tc, h.subset htc, hgoal⟩

/-- What is left is the selection of the last answer, or everything. -/
theorem minimize_eq_select (u : BvUtils) (solver : SatSolver) {suite : List TestCase}
    (hmany : ¬ suite.length ≤ 1) (hgoal : ∃ id, Covers suite id) {fuel : Nat}
    (hfuel : fuel > suite.length) :
    ∃ choice : List Bool, choice.length = suite.length ∧
      minimize u solver fuel suite = some (select choice suite) ∧
      IsCover suite (select choice suite) ∧
      ∀ other : List Bool, other.length = suite.length → IsCover suite (select other suite) →
        (select choice suite).length ≤ (select other suite).length := by
  obtain ⟨lits, hencodes⟩ := encodeSuite_encodes suite
  have hne : suite ≠ [] := by
    intro hnil
    exact hmany (by rw [hnil]; exact Nat.zero_le 1)
  have h := hencodes.reduces u hne
  have hpositive : (encodeProblem u (encodeSuite suite)).upperBound.map Literal.positive =
      (encodeProblem u (encodeSuite suite)).upperBound := by
    refine (List.map_congr_left fun l hl => ?_).trans (List.map_id _)
    obtain ⟨n, rfl⟩ := h.vars l hl
    rfl
  obtain ⟨found, hfound, hattained, hleast⟩ :=
    tighten_spec solver h hgoal 0 hfuel hpositive (Nat.le_refl _)
      (show Attained suite lits _ suite.length none from rfl)
  -- all test cases
  have hall : ∃ choice : List Bool, choice.length = suite.length ∧ select choice suite = suite :=
    exists_select_of_sublist (List.Sublist.refl suite)
  obtain ⟨whole, hwhole, hselect⟩ := hall
  have hresult : minimize u solver fuel suite =
      some (if found.1 < suite.length then eraseFalse (encodeSuite suite).tcLitMap found.2 suite
        else suite) := by
    rw [minimize, if_neg hmany]
    simp only [hfound, Option.map_some]
  rw [hresult]
  by_cases hless : found.1 < suite.length
  · rw [if_pos hless]
    cases hbest : found.2 with
    | none =>
        rw [hbest] at hattained
        exact absurd hattained (Nat.ne_of_lt hless)
    | some v =>
        rw [hbest] at hattained
        obtain ⟨hv, hsize⟩ := hattained
        refine ⟨lits.map (Literal.eval v), by rw [List.length_map, h.length], ?_, h.cover v hv, ?_⟩
        · rw [eraseFalse, hencodes.litMap, ← filter_zipIdx_eq_select v h.length 0]
          rfl
        · intro other hother hcover
          rw [← hsize]
          exact hleast other hother hcover
  · rw [if_neg hless]
    refine ⟨whole, hwhole, by rw [hselect], ?_, ?_⟩
    · rw [hselect]
      exact fun _ hid => hid
    · intro other hother hcover
      rw [hselect]
      exact Nat.le_trans (Nat.le_of_not_lt hless) (hleast other hother hcover)

/-- **Minimisation is exact.**  For every suite that covers some goal, every
correct adder and every sound and complete solver, `minimize` ends within as
many rounds as there are test cases and one, and leaves a sub-list of the suite
that covers the same goals; no sub-list with these goals is smaller. -/
theorem minimize_exact (u : BvUtils) (solver : SatSolver) (suite : List TestCase)
    (hgoal : ∃ id, Covers suite id) :
    ∀ fuel > suite.length, ∃ result, minimize u solver fuel suite = some result ∧
      result.Sublist suite ∧ (∀ id, Covers result id ↔ Covers suite id) ∧
      ∀ sub, sub.Sublist suite → (∀ id, Covers sub id ↔ Covers suite id) →
        result.length ≤ sub.length := by
  intro fuel hfuel
  by_cases hmany : suite.length ≤ 1
  · refine ⟨suite, if_pos hmany, List.Sublist.refl _, fun _ => Iff.rfl, ?_⟩
    intro sub _ hcover
    obtain ⟨id, hid⟩ := hgoal
    obtain ⟨tc, htc, -⟩ := (hcover id).mpr hid
    exact Nat.le_trans hmany (List.length_pos_of_mem htc)
  · obtain ⟨choice, -, hresult, hcover, hleast⟩ :=
      minimize_eq_select u solver hmany hgoal hfuel
    refine ⟨_, hresult, select_sublist choice suite, ?_, ?_⟩
    · intro id
      exact ⟨fun hid => hid.of_sublist (select_sublist choice suite), hcover id⟩
    · intro sub hsub hsame
      obtain ⟨other, hother, rfl⟩ := exists_select_of_sublist hsub
      exact hleast other hother fun id hid => (hsame id).mpr hid

/-- Two single goals and a test case that covers both. -/
theorem minimize_exact_bothGoals :
    ∃ result,
      minimize rippleBvUtils searchSolver 4
        [⟨[0], fun _ => false⟩, ⟨[1], fun _ => false⟩, ⟨[0, 1], fun _ => true⟩] = some result ∧
      result.length ≤ 1 := by
  obtain ⟨result, hresult, -, -, hleast⟩ :=
    minimize_exact rippleBvUtils searchSolver
      [⟨[0], fun _ => false⟩, ⟨[1], fun _ => false⟩, ⟨[0, 1], fun _ => true⟩]
      ⟨0, _, List.mem_cons_self, List.mem_cons_self⟩ 4 (Nat.lt_succ_self 3)
  refine ⟨result, hresult, hleast [⟨[0, 1], fun _ => true⟩] ?_ ?_⟩
  · exact .cons _ (.cons _ (.refl _))
  · intro id
    simp only [Covers, List.mem_cons, List.not_mem_nil, or_false, exists_eq_or_imp, exists_eq_left]
    omega

end FShell
