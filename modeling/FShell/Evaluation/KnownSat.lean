import FShell.Evaluation.ComputeTestGoals

/-!
# Sets of satisfied literals

`KnownSAT` keeps a set of literals as one mask for every variable of a
window.  The window starts at the variable of the first insertion and grows
at either end.

**One mask for each variable.**  `maskAt` reads the vector with zero outside
the window; every insertion changes it at the inserted variable only
(`maskAt_insert`), so the three cases of `insert` are one operation on sets
(`has_insert`).
-/

namespace FShell

/-- `KnownSAT`.  Variable 0 is never used, so no query indexes the empty
vector. -/
structure KnownSat where
  lits : List Nat
  minVarNo : Nat
  maxVarNo : Nat
  window : lits ≠ [] → minVarNo ≤ maxVarNo ∧ lits.length = maxVarNo - minVarNo + 1

namespace KnownSat

/-- `lit.sign() ? 1 : 2`. -/
def signMask (sign : Bool) : Nat := if sign then 1 else 2

def empty : KnownSat := ⟨[], 0, 0, fun h => absurd rfl h⟩

section Window

variable (k : KnownSat) (varNo : Nat) (sign : Bool)

/-- One mask is a window. -/
theorem window_single :
    [signMask sign] ≠ [] → varNo ≤ varNo ∧ [signMask sign].length = varNo - varNo + 1 := by
  intro _
  rw [Nat.sub_self]
  exact ⟨le_rfl, rfl⟩

/-- A window grows upwards. -/
theorem window_above (hempty : ¬ k.lits = []) (hmax : k.maxVarNo < varNo) :
    let lits := k.lits ++ List.replicate (varNo - k.maxVarNo) 0
    lits.set (lits.length - 1) (signMask sign) ≠ [] →
      k.minVarNo ≤ varNo ∧
        (lits.set (lits.length - 1) (signMask sign)).length = varNo - k.minVarNo + 1 := by
  intro lits _
  obtain ⟨hle, hlen⟩ := k.window hempty
  simp only [lits, List.length_set, List.length_append, List.length_replicate]
  omega

/-- A window grows downwards. -/
theorem window_below (hempty : ¬ k.lits = []) (hmax : ¬ k.maxVarNo < varNo)
    (hmin : varNo < k.minVarNo) :
    (List.replicate (k.minVarNo - varNo) 0 ++ k.lits).set 0 (signMask sign) ≠ [] →
      varNo ≤ k.maxVarNo ∧
        ((List.replicate (k.minVarNo - varNo) 0 ++ k.lits).set 0 (signMask sign)).length =
          k.maxVarNo - varNo + 1 := by
  intro _
  obtain ⟨hle, hlen⟩ := k.window hempty
  simp only [List.length_set, List.length_append, List.length_replicate]
  omega

/-- A mask inside the window is written. -/
theorem window_inside :
    let old := k.lits.getD (varNo - k.minVarNo) 0
    k.lits.set (varNo - k.minVarNo) (old ||| signMask sign) ≠ [] →
      k.minVarNo ≤ k.maxVarNo ∧
        (k.lits.set (varNo - k.minVarNo) (old ||| signMask sign)).length =
          k.maxVarNo - k.minVarNo + 1 := by
  intro old
  simpa using k.window

end Window

/-- `insert(lit)`; the flag is what it returns. -/
def insert (k : KnownSat) : Literal → Bool × KnownSat
  | .const _ => (false, k)
  | .var varNo sign =>
      if hempty : k.lits = [] then
        (true,
          { lits := [signMask sign]
            minVarNo := varNo
            maxVarNo := varNo
            window := window_single varNo sign })
      else if hmax : k.maxVarNo < varNo then
        let lits := k.lits ++ List.replicate (varNo - k.maxVarNo) 0
        (true,
          { k with
            lits := lits.set (lits.length - 1) (signMask sign)
            maxVarNo := varNo
            window := window_above k varNo sign hempty hmax })
      else if hmin : varNo < k.minVarNo then
        (true,
          { k with
            lits := (List.replicate (k.minVarNo - varNo) 0 ++ k.lits).set 0 (signMask sign)
            minVarNo := varNo
            window := window_below k varNo sign hempty hmax hmin })
      else
        let old := k.lits.getD (varNo - k.minVarNo) 0
        (old &&& signMask sign == 0,
          { k with
            lits := k.lits.set (varNo - k.minVarNo) (old ||| signMask sign)
            window := window_inside k varNo sign })

/-- `has(lit)`. -/
def has (k : KnownSat) : Literal → Bool
  | .const value => value
  | .var varNo sign =>
      k.minVarNo ≤ varNo && varNo ≤ k.maxVarNo &&
        (k.lits.getD (varNo - k.minVarNo) 0 &&& signMask sign) != 0

/-- The first loop of the constructor, up to an insertion that returns true. -/
def insertFirst (k : KnownSat) : List Literal → KnownSat
  | [] => k
  | l :: base =>
      let (inserted, k) := k.insert l
      if inserted then k else insertFirst k base

/-- The constructor: the first literal gives the lower end of the window, and
then all are inserted from the last one on. -/
def ofSet (base : TestGoals) : KnownSat :=
  base.toList.reverse.foldl (fun k l => (k.insert l).2) (insertFirst empty base.toList)

/-- The set after a sequence of insertions. -/
def insertAll (k : KnownSat) (lits : List Literal) : KnownSat :=
  lits.foldl (fun k l => (k.insert l).2) k

/-- The mask of a variable. -/
def maskAt (k : KnownSat) (varNo : Nat) : Nat :=
  if k.minVarNo ≤ varNo ∧ varNo ≤ k.maxVarNo then k.lits.getD (varNo - k.minVarNo) 0 else 0

variable (k : KnownSat) {l x : Literal} {varNo : Nat} {sign : Bool}

/-- A constant is known by its value. -/
@[simp] theorem has_const (value : Bool) : k.has (.const value) = value := rfl

/-- A variable is known by its bit. -/
theorem has_var : k.has (.var varNo sign) = true ↔ k.maskAt varNo &&& signMask sign ≠ 0 := by
  simp only [has, maskAt, Bool.and_eq_true, decide_eq_true_eq, bne_iff_ne]
  by_cases h : k.minVarNo ≤ varNo ∧ varNo ≤ k.maxVarNo <;> simp [h]

/-- Without literals no mask is there. -/
theorem maskAt_of_empty (h : k.lits = []) (varNo : Nat) : k.maskAt varNo = 0 := by
  simp [maskAt, h]

/-- Outside the window no mask is there. -/
theorem maskAt_of_outside (h : varNo < k.minVarNo ∨ k.maxVarNo < varNo) :
    k.maskAt varNo = 0 := if_neg (by omega)

/-- **One insertion** sets one bit of the mask of its variable. -/
theorem maskAt_insert (u : Nat) :
    (k.insert (.var varNo sign)).2.maskAt u =
      if u = varNo then k.maskAt u ||| signMask sign else k.maskAt u := by
  by_cases hempty : k.lits = []
  · -- the first insertion
    rw [insert, dif_pos hempty, maskAt_of_empty k hempty]
    by_cases heq : u = varNo
    · simp [maskAt, heq]
    · simp only [maskAt, if_neg heq]
      rw [if_neg (by omega)]
  obtain ⟨hle, hlen⟩ := k.window hempty
  by_cases hmax : k.maxVarNo < varNo
  · -- past the upper end of the window
    rw [insert, dif_neg hempty, dif_pos hmax]
    by_cases heq : u = varNo
    · rw [if_pos heq, k.maskAt_of_outside (Or.inr (heq ▸ hmax))]
      simp [maskAt, List.getD_eq_getElem?_getD, List.getElem?_set]
      grind
    · simp [maskAt, List.getD_eq_getElem?_getD, List.getElem?_set, List.getElem?_append]
      grind
  by_cases hmin : varNo < k.minVarNo
  · -- before the lower end
    rw [insert, dif_neg hempty, dif_neg hmax, dif_pos hmin]
    by_cases heq : u = varNo
    · rw [if_pos heq, k.maskAt_of_outside (Or.inl (heq ▸ hmin))]
      simp [maskAt, List.getD_eq_getElem?_getD, List.getElem?_set]
      grind
    · simp [maskAt, List.getD_eq_getElem?_getD, List.getElem?_set, List.getElem?_append]
      grind
  · -- inside the window
    rw [insert, dif_neg hempty, dif_neg hmax, dif_neg hmin]
    simp [maskAt, List.getD_eq_getElem?_getD, List.getElem?_set]
    grind

/-- The flag says whether the bit was clear. -/
theorem insert_fst :
    (k.insert (.var varNo sign)).1 = true ↔ k.maskAt varNo &&& signMask sign = 0 := by
  rw [insert]
  split_ifs with hempty hmax hmin
  · simp [maskAt_of_empty k hempty]
  · simp [k.maskAt_of_outside (Or.inr hmax)]
  · simp [k.maskAt_of_outside (Or.inl hmin)]
  · have hin : k.minVarNo ≤ varNo ∧ varNo ≤ k.maxVarNo := by omega
    simp [maskAt, hin]

/-- Setting one bit sets no other. -/
theorem or_signMask_and (m : Nat) (s t : Bool) :
    (m ||| signMask s) &&& signMask t ≠ 0 ↔ m &&& signMask t ≠ 0 ∨ s = t := by
  rw [Nat.and_or_distrib_right]
  cases s <;> cases t <;> simp [signMask, Nat.or_eq_zero_iff]

/-- **Insertion adds the literal**, unless it is constant. -/
theorem has_insert :
    (k.insert l).2.has x = true ↔ k.has x = true ∨ (x = l ∧ l.isConstant = false) := by
  cases l with
  | const value => simp [insert, Literal.isConstant]
  | var varNo sign =>
      cases x with
      | const value => simp
      | var u s =>
          rw [has_var, has_var, maskAt_insert]
          by_cases hu : u = varNo
          · rw [if_pos hu, or_signMask_and]
            simp [hu, Literal.isConstant, eq_comm]
          · simp [hu]

/-- **Insertion reports whether the literal is new.** -/
theorem insert_new : (k.insert l).1 = true ↔ l.isConstant = false ∧ k.has l = false := by
  cases l with
  | const value => simp [insert, Literal.isConstant]
  | var varNo sign =>
      rw [insert_fst, ← Bool.not_eq_true (k.has _), has_var]
      simp [Literal.isConstant]

/-- What is known after several insertions. -/
theorem has_foldl_insert (base : List Literal) :
    (base.foldl (fun k l => (k.insert l).2) k).has x = true ↔
      k.has x = true ∨ (x ∈ base ∧ x.isConstant = false) := by
  induction base generalizing k with
  | nil => simp
  | cons m base ih =>
      rw [List.foldl_cons, ih, has_insert, List.mem_cons]
      grind

/-- The first insertions make nothing else known. -/
theorem has_insertFirst {base : List Literal} (h : (k.insertFirst base).has x = true) :
    k.has x = true ∨ (x ∈ base ∧ x.isConstant = false) := by
  induction base generalizing k with
  | nil => exact Or.inl h
  | cons m base ih =>
      simp only [insertFirst] at h
      split at h
      · rcases k.has_insert.mp h with hold | ⟨rfl, hconst⟩
        · exact Or.inl hold
        · exact Or.inr ⟨List.mem_cons_self, hconst⟩
      · rcases ih _ h with hold | ⟨hmem, hconst⟩
        · rcases k.has_insert.mp hold with hold | ⟨rfl, hconst⟩
          · exact Or.inl hold
          · exact Or.inr ⟨List.mem_cons_self, hconst⟩
        · exact Or.inr ⟨List.mem_cons_of_mem _ hmem, hconst⟩

/-- **The constructor** holds the literals of the set that are not constant. -/
theorem has_ofSet (base : TestGoals) :
    (ofSet base).has x = true ↔ x = .const true ∨ (x ∈ base.toList ∧ x.isConstant = false) := by
  have hempty : empty.has x = true ↔ x = .const true := by
    cases x with
    | const value => simp
    | var u s => simp [has_var, maskAt_of_empty empty rfl]
  rw [ofSet, has_foldl_insert, List.mem_reverse]
  constructor
  · intro h
    rcases h with hfirst | hmem
    · rcases empty.has_insertFirst hfirst with htrue | hmem
      · exact Or.inl (hempty.mp htrue)
      · exact Or.inr hmem
    · exact Or.inr hmem
  · intro h
    rcases h with rfl | hmem
    · exact Or.inl rfl
    · exact Or.inr hmem

/-! ## Reading the vector -/

/-- What `has` reads for a variable of the window is an element of the vector. -/
def ReadsInside (varNo : Nat) : Prop :=
  k.minVarNo ≤ varNo → varNo ≤ k.maxVarNo → varNo - k.minVarNo < k.lits.length

/-- Before the first insertion the window is the variable 0. -/
def Fresh : Prop := k.lits = [] → k.maxVarNo = 0

/-- An insertion keeps the window right. -/
theorem fresh_insert (h : k.Fresh) : (k.insert l).2.Fresh := by
  cases l with
  | const value => exact h
  | var varNo sign =>
      rw [insert]
      split_ifs with hempty hmax hmin
      · exact fun hnil => absurd hnil (List.cons_ne_nil _ _)
      all_goals
        intro hnil
        simp [hempty] at hnil

/-- So do several insertions. -/
theorem fresh_foldl_insert (h : k.Fresh) (base : List Literal) :
    (base.foldl (fun k l => (k.insert l).2) k).Fresh := by
  induction base generalizing k with
  | nil => exact h
  | cons l base ih => exact ih _ (k.fresh_insert h)

/-- So do the first insertions. -/
theorem fresh_insertFirst (h : k.Fresh) (base : List Literal) : (k.insertFirst base).Fresh := by
  induction base generalizing k with
  | nil => exact h
  | cons l base ih =>
      simp only [insertFirst]
      split
      · exact k.fresh_insert h
      · exact ih _ (k.fresh_insert h)

/-- A query stays inside the window. -/
theorem Fresh.readsInside (h : k.Fresh) (hvar : 1 ≤ varNo) : k.ReadsInside varNo := by
  intro hmin hmax
  have hne : k.lits ≠ [] := by
    intro hnil
    have hzero := h hnil
    omega
  obtain ⟨-, hlen⟩ := k.window hne
  omega

/-- **A set of literals.**  After any insertions the literals that are known are
those of the initial set and the inserted ones, as far as they are not constant;
a constant is known by its value.  An insertion reports whether the literal is
new, and no query reads past the vector. -/
theorem refines_set (base : TestGoals) (lits : List Literal) :
    let k := (ofSet base).insertAll lits
    (∀ l, k.has l = true ↔
        l = .const true ∨ ((l ∈ base.toList ∨ l ∈ lits) ∧ l.isConstant = false)) ∧
      (∀ l, l.isConstant = false → ((k.insert l).1 = true ↔ k.has l = false)) ∧
      ∀ varNo, 1 ≤ varNo → k.ReadsInside varNo := by
  intro k
  refine ⟨?_, ?_, ?_⟩
  · intro l
    have hall : k.has l = true ↔
        (ofSet base).has l = true ∨ (l ∈ lits ∧ l.isConstant = false) := has_foldl_insert _ _
    rw [hall, has_ofSet, or_and_right, or_assoc]
  · intro l hvar
    rw [insert_new]
    exact and_iff_right hvar
  · intro varNo hvar
    have hempty : empty.Fresh := fun _ => rfl
    have hbase : (ofSet base).Fresh :=
      fresh_foldl_insert _ (empty.fresh_insertFirst hempty base.toList) _
    exact Fresh.readsInside _ ((ofSet base).fresh_foldl_insert hbase lits) hvar

/-- The constant `false` is not known after it was inserted. -/
theorem insertedFalse_not_known :
    ¬ ∀ (base : TestGoals) (lits : List Literal) (l : Literal),
        ((ofSet base).insertAll lits).has l = true ↔
          l ∈ base.toList ∨ l ∈ lits ∨ l = .const true := by
  intro h
  have hknown := (h .empty [.const false] (.const false)).mpr (Or.inr (Or.inl List.mem_cons_self))
  exact absurd hknown (by decide)

end KnownSat

end FShell
