import Mathlib

/-!
# Clause sets and Tseitin gates

The solver interface `cnft` together with the clause list of
`cnf_clause_listt`.  Every logical operation simplifies constants and equal
arguments first, and otherwise names its result by a fresh variable that
the clauses of a gate define.

**Definitional extensions.**  What an operation adds never excludes a
model: each model of the clauses before extends to one after, and every
model after is one before in which the new literal has the value of the
operation.  `Defines` states the first part, `Names` both.
-/

namespace FShell

/-- `literalt`.  A constant is a literal of its own; `sign` is set when the
variable is negated. -/
inductive Literal
  | const (value : Bool)
  | var (varNo : Nat) (sign : Bool)
  deriving DecidableEq, Repr

abbrev Assignment := Nat → Bool

namespace Literal

/-- `neg(l)`, `lnot(l)` and `!l`. -/
def neg : Literal → Literal
  | const value => const !value
  | var varNo sign => var varNo !sign

def isTrue (l : Literal) : Bool := l = const true

def isFalse (l : Literal) : Bool := l = const false

def isConstant : Literal → Bool
  | const _ => true
  | var _ _ => false

/-- The order of `literalt`: by variable, the positive literal first, and the
constants after every variable. -/
def before : Literal → Literal → Bool
  | var n s, var m t => n < m || (n == m && !s && t)
  | var _ _, const _ => true
  | const _, var _ _ => false
  | const a, const b => !a && b

def eval (v : Assignment) : Literal → Bool
  | const value => value
  | var varNo sign => v varNo != sign

/-- The variable of the literal, if it has one, is among the first `n`. -/
def Below (n : Nat) : Literal → Prop
  | const _ => True
  | var varNo _ => varNo < n

/-- A constant has its value. -/
@[simp] theorem eval_const (v : Assignment) (b : Bool) : (const b).eval v = b := rfl

/-- A variable has the value that it is assigned. -/
@[simp] theorem eval_var (v : Assignment) (n : Nat) : (var n false).eval v = v n := by
  simp [eval]

/-- The negation has the other value. -/
@[simp] theorem eval_neg (v : Assignment) (l : Literal) : l.neg.eval v = !l.eval v := by
  cases l with
  | const value => rfl
  | var varNo sign => cases hv : v varNo <;> cases sign <;> simp [neg, eval, hv]

/-- Two negations cancel. -/
@[simp] theorem neg_neg (l : Literal) : l.neg.neg = l := by
  cases l <;> simp [neg]

/-- Constants use no variable. -/
@[simp] theorem below_const (n : Nat) (b : Bool) : (const b).Below n := trivial

/-- A negation uses the same variable. -/
@[simp] theorem below_neg {n : Nat} {l : Literal} : l.neg.Below n ↔ l.Below n := by
  cases l <;> rfl

/-- More variables may be there. -/
theorem Below.mono {n m : Nat} {l : Literal} (h : l.Below n) (hnm : n ≤ m) : l.Below m := by
  cases l with
  | const value => trivial
  | var varNo sign => exact Nat.lt_of_lt_of_le h hnm

/-- `is_true()` holds of one literal. -/
theorem isTrue_iff {l : Literal} : l.isTrue = true ↔ l = const true := by
  simp [isTrue]

/-- `is_false()` holds of one literal. -/
theorem isFalse_iff {l : Literal} : l.isFalse = true ↔ l = const false := by
  simp [isFalse]

/-- No literal is before itself. -/
theorem before_irrefl (l : Literal) : l.before l = false := by
  cases l with
  | const value => cases value <;> rfl
  | var varNo sign => cases sign <;> simp [before]

/-- The order of literals is transitive. -/
theorem before_trans {a b c : Literal} (hab : a.before b = true) (hbc : b.before c = true) :
    a.before c = true := by
  cases a <;> cases b <;> cases c <;> grind [before]

/-- Two literals are equal or one is before the other. -/
theorem before_trichotomous (a b : Literal) :
    a = b ∨ a.before b = true ∨ b.before a = true := by
  cases a <;> cases b <;> grind [before]

end Literal

/-- `v` and `w` give the first `n` variables the same values. -/
def AgreeBelow (n : Nat) (v w : Assignment) : Prop := ∀ k < n, v k = w k

/-- An assignment agrees with itself. -/
theorem AgreeBelow.refl (n : Nat) (v : Assignment) : AgreeBelow n v v := by
  intro k _
  rfl

/-- Agreement goes both ways. -/
theorem AgreeBelow.symm {n : Nat} {v w : Assignment} (h : AgreeBelow n v w) :
    AgreeBelow n w v := by
  intro k hk
  exact (h k hk).symm

/-- Agreement on fewer and on more variables. -/
theorem AgreeBelow.trans {n m : Nat} {u v w : Assignment} (h : AgreeBelow n u v)
    (h' : AgreeBelow m v w) (hnm : n ≤ m) : AgreeBelow n u w := by
  intro k hk
  exact (h k hk).trans (h' k (Nat.lt_of_lt_of_le hk hnm))

/-- The next variable may be assigned anything. -/
theorem AgreeBelow.update (n : Nat) (v : Assignment) (b : Bool) :
    AgreeBelow n v (Function.update v n b) := by
  intro k hk
  exact (Function.update_of_ne (Nat.ne_of_lt hk) b v).symm

/-- A literal has one value where assignments agree on its variable. -/
theorem Literal.Below.eval_eq {n : Nat} {l : Literal} {v w : Assignment} (hl : l.Below n)
    (h : AgreeBelow n v w) : l.eval v = l.eval w := by
  cases l with
  | const value => rfl
  | var varNo sign =>
      have hvar : v varNo = w varNo := h varNo hl
      simp [Literal.eval, hvar]

/-- Some literal of the clause is true. -/
def clauseTrue (v : Assignment) (clause : List Literal) : Bool :=
  clause.any (Literal.eval v)

/-- A clause is true when one of its literals is. -/
theorem clauseTrue_iff {v : Assignment} {clause : List Literal} :
    clauseTrue v clause = true ↔ ∃ l ∈ clause, l.eval v = true := by
  simp [clauseTrue]

/-- `cnf_clause_listt`: the number of the next variable and the clauses. -/
structure Cnf where
  noVariables : Nat
  clauses : List (List Literal)
  deriving Repr

namespace Cnf

/-- The constructor: variable 0 is never used. -/
def empty : Cnf := ⟨1, []⟩

/-! ## Adding clauses -/

/-- The walk of `process_clause` over the sorted literals, past duplicates;
a literal after its complement satisfies the clause. -/
def dropDuplicates (previous : Literal) : List Literal → Option (List Literal)
  | [] => some []
  | l :: rest =>
      if l = previous then dropDuplicates previous rest
      else if previous = l.neg then none
      else (dropDuplicates l rest).map (l :: ·)

/-- `process_clause`; no clause is left when it is satisfied trivially. -/
def processClause (bv : List Literal) : Option (List Literal) :=
  if bv.any Literal.isTrue then none
  else
    match (bv.filter fun l => !l.isFalse).insertionSort fun a b => a.before b = true with
    | [] => some []
    | l :: rest => (dropDuplicates l rest).map (l :: ·)

def lcnf (c : Cnf) (bv : List Literal) : Cnf :=
  match processClause bv with
  | none => c
  | some clause => { c with clauses := c.clauses ++ [clause] }

/-- Several calls of `lcnf`, one after the other. -/
def lcnfAll (c : Cnf) (bvs : List (List Literal)) : Cnf := bvs.foldl lcnf c

def newVariable (c : Cnf) : Literal × Cnf :=
  (.var c.noVariables false, { c with noVariables := c.noVariables + 1 })

/-! ## Gates -/

def gateAnd (c : Cnf) (a b o : Literal) : Cnf :=
  c.lcnfAll [[a, o.neg], [b, o.neg], [a.neg, b.neg, o]]

def gateOr (c : Cnf) (a b o : Literal) : Cnf :=
  c.lcnfAll [[a.neg, o], [b.neg, o], [a, b, o.neg]]

def gateXor (c : Cnf) (a b o : Literal) : Cnf :=
  c.lcnfAll [[a.neg, b.neg, o.neg], [a, b, o.neg], [a.neg, b, o], [a, b.neg, o]]

/-- `land(a, b)`. -/
def land (c : Cnf) (a b : Literal) : Literal × Cnf :=
  if a.isTrue then (b, c)
  else if b.isTrue then (a, c)
  else if a.isFalse then (a, c)
  else if b.isFalse then (b, c)
  else if a = b then (a, c)
  else
    let (o, c) := c.newVariable
    (o, c.gateAnd a b o)

/-- `lor(a, b)`. -/
def lor (c : Cnf) (a b : Literal) : Literal × Cnf :=
  if a.isFalse then (b, c)
  else if b.isFalse then (a, c)
  else if a.isTrue then (a, c)
  else if b.isTrue then (b, c)
  else if a = b then (a, c)
  else
    let (o, c) := c.newVariable
    (o, c.gateOr a b o)

/-- `lxor(a, b)`. -/
def lxor (c : Cnf) (a b : Literal) : Literal × Cnf :=
  if a.isFalse then (b, c)
  else if b.isFalse then (a, c)
  else if a.isTrue then (b.neg, c)
  else if b.isTrue then (a.neg, c)
  else if a = b then (.const false, c)
  else if a = b.neg then (.const true, c)
  else
    let (o, c) := c.newVariable
    (o, c.gateXor a b o)

/-- `lequal(a, b)`. -/
def lequal (c : Cnf) (a b : Literal) : Literal × Cnf :=
  let (l, c) := c.lxor a b
  (l.neg, c)

/-- `limplies(a, b)`. -/
def limplies (c : Cnf) (a b : Literal) : Literal × Cnf := c.lor a.neg b

/-- `eliminate_duplicates`: the first occurrence of every literal. -/
def eliminateDuplicates (bv : List Literal) : List Literal :=
  bv.foldl (fun dest l => if l ∈ dest then dest else dest ++ [l]) []

/-- `land` of a vector of literals. -/
def landVector (c : Cnf) : List Literal → Literal × Cnf
  | [] => (.const true, c)
  | [a] => (a, c)
  | [a, b] => c.land a b
  | bv =>
      if bv.any Literal.isFalse then (.const false, c)
      else if bv.all Literal.isTrue then (.const true, c)
      else
        let lits := eliminateDuplicates bv
        let (literal, c) := c.newVariable
        (literal, c.lcnfAll (lits.map (fun l => [l, literal.neg]) ++
          [lits.map Literal.neg ++ [literal]]))

/-- `lor` of a vector of literals. -/
def lorVector (c : Cnf) : List Literal → Literal × Cnf
  | [] => (.const false, c)
  | [a] => (a, c)
  | [a, b] => c.lor a b
  | bv =>
      if bv.any Literal.isTrue then (.const true, c)
      else if bv.all Literal.isFalse then (.const false, c)
      else
        let lits := eliminateDuplicates bv
        let (literal, c) := c.newVariable
        (literal, c.lcnfAll (lits.map (fun l => [l.neg, literal]) ++ [lits ++ [literal.neg]]))

/-! ## Models -/

/-- Every clause is true under `v`. -/
def Models (c : Cnf) (v : Assignment) : Prop := ∀ clause ∈ c.clauses, clauseTrue v clause = true

/-- Every variable of a clause has been handed out. -/
def Bounded (c : Cnf) : Prop := ∀ clause ∈ c.clauses, ∀ l ∈ clause, l.Below c.noVariables

/-- Only the variables of a formula matter for its models. -/
theorem Bounded.models_congr {c : Cnf} {v w : Assignment} (hc : c.Bounded)
    (h : AgreeBelow c.noVariables v w) (hv : c.Models v) : c.Models w := by
  intro clause hclause
  obtain ⟨l, hl, htrue⟩ := clauseTrue_iff.mp (hv clause hclause)
  have heval : l.eval v = l.eval w := (hc clause hclause l hl).eval_eq h
  exact clauseTrue_iff.mpr ⟨l, hl, heval ▸ htrue⟩

/-- The loop over duplicates keeps every literal once. -/
theorem dropDuplicates_mem {previous : Literal} {lits dest : List Literal}
    (h : dropDuplicates previous lits = some dest) (l : Literal) :
    l ∈ previous :: dest ↔ l ∈ previous :: lits := by
  induction lits generalizing previous dest with
  | nil =>
      cases h
      rfl
  | cons m rest ih =>
      by_cases hdup : m = previous
      · rw [dropDuplicates, if_pos hdup] at h
        subst hdup
        simpa using ih h
      · by_cases hneg : previous = m.neg
        · rw [dropDuplicates, if_neg hdup, if_pos hneg] at h
          cases h
        · rw [dropDuplicates, if_neg hdup, if_neg hneg] at h
          obtain ⟨tail, htail, rfl⟩ := Option.map_eq_some_iff.mp h
          have hrest := ih htail
          grind

/-- A walk that stops has met a literal and its complement. -/
theorem dropDuplicates_none {previous : Literal} {lits : List Literal}
    (h : dropDuplicates previous lits = none) :
    ∃ l ∈ previous :: lits, l.neg ∈ previous :: lits := by
  induction lits generalizing previous with
  | nil => cases h
  | cons m rest ih =>
      by_cases hdup : m = previous
      · rw [dropDuplicates, if_pos hdup] at h
        obtain ⟨l, hl, hn⟩ := ih h
        exact ⟨l, by grind, by grind⟩
      · by_cases hneg : previous = m.neg
        · exact ⟨m, by grind, by grind⟩
        · rw [dropDuplicates, if_neg hdup, if_neg hneg, Option.map_eq_none_iff] at h
          obtain ⟨l, hl, hn⟩ := ih h
          exact ⟨l, by grind, by grind⟩

/-- The literals that `process_clause` keeps: all but the false ones. -/
theorem processClause_mem {bv clause : List Literal} (h : processClause bv = some clause)
    (l : Literal) : l ∈ clause ↔ l ∈ bv ∧ l ≠ .const false := by
  have hsorted : l ∈ (bv.filter fun l => !l.isFalse).insertionSort
      (fun a b => a.before b = true) ↔ l ∈ bv ∧ l ≠ .const false := by
    simp [Literal.isFalse]
  rw [processClause] at h
  split at h
  · cases h
  · split at h
    · rename_i hnil
      cases h
      rw [← hsorted, hnil]
    · rename_i m rest hcons
      obtain ⟨tail, htail, rfl⟩ := Option.map_eq_some_iff.mp h
      rw [← hsorted, hcons]
      exact dropDuplicates_mem htail l

/-- Only a clause that every assignment satisfies is dropped. -/
theorem processClause_none {bv : List Literal} (h : processClause bv = none) (v : Assignment) :
    clauseTrue v bv = true := by
  rw [processClause] at h
  split at h
  · rename_i htrue
    obtain ⟨l, hl, hconst⟩ := List.any_eq_true.mp htrue
    exact clauseTrue_iff.mpr ⟨l, hl, by simp [Literal.isTrue_iff.mp hconst]⟩
  · split at h
    · cases h
    · rename_i m rest hcons
      obtain ⟨l, hl, hn⟩ := dropDuplicates_none (Option.map_eq_none_iff.mp h)
      have hmem : ∀ k ∈ m :: rest, k ∈ bv := by
        intro k hk
        rw [← hcons] at hk
        exact List.mem_of_mem_filter ((List.mem_insertionSort _).mp hk)
      cases hv : l.eval v with
      | true => exact clauseTrue_iff.mpr ⟨l, hmem l hl, hv⟩
      | false => exact clauseTrue_iff.mpr ⟨l.neg, hmem _ hn, by simp [hv]⟩

/-- A clause brings no variable. -/
@[simp] theorem lcnf_noVariables (c : Cnf) (bv : List Literal) :
    (c.lcnf bv).noVariables = c.noVariables := by
  unfold lcnf
  split <;> rfl

/-- **Adding a clause** keeps the models in which it is true. -/
@[simp] theorem lcnf_models {c : Cnf} {bv : List Literal} {v : Assignment} :
    (c.lcnf bv).Models v ↔ c.Models v ∧ clauseTrue v bv = true := by
  unfold lcnf
  split
  · rename_i hnone
    simp [processClause_none hnone v]
  · rename_i clause hsome
    have hclause : clauseTrue v clause = true ↔ clauseTrue v bv = true := by
      simp only [clauseTrue_iff, processClause_mem hsome]
      constructor
      · intro h
        obtain ⟨l, ⟨hl, -⟩, hv⟩ := h
        exact ⟨l, hl, hv⟩
      · intro h
        obtain ⟨l, hl, hv⟩ := h
        refine ⟨l, ⟨hl, ?_⟩, hv⟩
        intro heq
        subst heq
        cases hv
    simp only [Models, List.mem_append, List.mem_singleton]
    grind

/-- A clause over the variables leaves the formula over them. -/
theorem lcnf_bounded {c : Cnf} {bv : List Literal} (hc : c.Bounded)
    (hbv : ∀ l ∈ bv, l.Below c.noVariables) : (c.lcnf bv).Bounded := by
  intro clause hclause l hl
  rw [lcnf_noVariables]
  unfold lcnf at hclause
  split at hclause
  · exact hc clause hclause l hl
  · rename_i kept hsome
    rcases List.mem_append.mp hclause with hold | hnew
    · exact hc clause hold l hl
    · cases List.mem_singleton.mp hnew
      exact hbv l ((processClause_mem hsome l).mp hl).1

/-- Clauses bring no variables. -/
@[simp] theorem lcnfAll_noVariables (c : Cnf) (bvs : List (List Literal)) :
    (c.lcnfAll bvs).noVariables = c.noVariables := by
  induction bvs generalizing c with
  | nil => rfl
  | cons bv rest ih => exact (ih (c.lcnf bv)).trans (lcnf_noVariables c bv)

/-- Several clauses hold all together. -/
theorem lcnfAll_models {c : Cnf} {bvs : List (List Literal)} {v : Assignment} :
    (c.lcnfAll bvs).Models v ↔ c.Models v ∧ ∀ bv ∈ bvs, clauseTrue v bv = true := by
  induction bvs generalizing c with
  | nil => simp [lcnfAll]
  | cons bv rest ih =>
      have hrest := ih (c := c.lcnf bv)
      simp only [lcnf_models] at hrest
      simp only [List.forall_mem_cons, ← and_assoc]
      exact hrest

/-- Clauses over the variables leave the formula over them. -/
theorem lcnfAll_bounded {c : Cnf} {bvs : List (List Literal)} (hc : c.Bounded)
    (hbvs : ∀ bv ∈ bvs, ∀ l ∈ bv, l.Below c.noVariables) : (c.lcnfAll bvs).Bounded := by
  induction bvs generalizing c with
  | nil => exact hc
  | cons bv rest ih =>
      have hbv : ∀ l ∈ bv, l.Below c.noVariables := hbvs bv List.mem_cons_self
      apply ih (lcnf_bounded hc hbv)
      intro b hb l hl
      rw [lcnf_noVariables]
      exact hbvs b (List.mem_cons_of_mem _ hb) l hl

/-! ## Extension by definitions -/

/-- `d` says nothing about the variables of `c` that `c` does not say. -/
structure Defines (c d : Cnf) : Prop where
  le : c.noVariables ≤ d.noVariables
  sound : ∀ v, d.Models v → c.Models v
  complete : c.Bounded → ∀ v, c.Models v → ∃ w, AgreeBelow c.noVariables v w ∧ d.Models w
  bounded : c.Bounded → d.Bounded

/-- Nothing need be defined. -/
theorem Defines.refl (c : Cnf) : Defines c c where
  le := Nat.le_refl _
  sound := fun _ h => h
  complete := fun _ v h => ⟨v, AgreeBelow.refl _ v, h⟩
  bounded := id

/-- Definitions on top of definitions. -/
theorem Defines.trans {c d e : Cnf} (hcd : Defines c d) (hde : Defines d e) : Defines c e where
  le := Nat.le_trans hcd.le hde.le
  sound := fun v h => hcd.sound v (hde.sound v h)
  complete := by
    intro hc v hv
    obtain ⟨w, hvw, hw⟩ := hcd.complete hc v hv
    obtain ⟨u, hwu, hu⟩ := hde.complete (hcd.bounded hc) w hw
    exact ⟨u, hvw.trans hwu hcd.le, hu⟩
  bounded := fun hc => hde.bounded (hcd.bounded hc)

/-- The outcome of an operation on `c` that computes the function `f`. -/
structure Names (c : Cnf) (f : Assignment → Bool) (out : Literal × Cnf) : Prop where
  defines : Defines c out.2
  below : out.1.Below out.2.noVariables
  eval : ∀ v, out.2.Models v → out.1.eval v = f v

/-- A literal that is there already. -/
theorem Names.of_literal {c : Cnf} {f : Assignment → Bool} {l : Literal}
    (hl : l.Below c.noVariables) (heval : ∀ v, l.eval v = f v) : Names c f (l, c) where
  defines := Defines.refl c
  below := hl
  eval := fun v _ => heval v

/-- A variable without clauses leaves the models as they are. -/
theorem newVariable_defines (c : Cnf) : Defines c c.newVariable.2 where
  le := Nat.le_succ _
  sound := fun _ h => h
  complete := fun _ v h => ⟨v, AgreeBelow.refl _ v, h⟩
  bounded := fun hc clause hclause l hl => (hc clause hclause l hl).mono (Nat.le_succ _)

/-- **Gates define.**  Clauses over a fresh variable that hold exactly when
it has the value of `f` extend `c` by a name for `f`. -/
theorem names_of_fresh {c : Cnf} {f : Assignment → Bool} {bvs : List (List Literal)}
    (hf : ∀ v w, AgreeBelow c.noVariables v w → f v = f w)
    (hbelow : ∀ bv ∈ bvs, ∀ l ∈ bv, l.Below (c.noVariables + 1))
    (hgate : ∀ v, (∀ bv ∈ bvs, clauseTrue v bv = true) ↔ v c.noVariables = f v) :
    Names c f (.var c.noVariables false, c.newVariable.2.lcnfAll bvs) where
  defines :=
    { le := by simp [newVariable]
      sound := fun v h => (lcnfAll_models.mp h).1
      complete := by
        intro hc v hv
        have hagree := AgreeBelow.update c.noVariables v (f v)
        refine ⟨Function.update v c.noVariables (f v), hagree, lcnfAll_models.mpr ⟨?_, ?_⟩⟩
        · exact hc.models_congr hagree hv
        · rw [hgate, Function.update_self]
          exact hf _ _ hagree
      bounded := fun hc => lcnfAll_bounded ((newVariable_defines c).bounded hc) hbelow }
  below := by simp [newVariable, Literal.Below]
  eval := by
    intro v h
    have hv := (hgate v).mp (lcnfAll_models.mp h).2
    simpa using hv

section Operations

variable {c : Cnf} {a b : Literal}

/-- A gate of two inputs: its clauses mention nothing else, and they hold
exactly when the fresh variable has the value of `op`. -/
theorem names_of_gate {op : Bool → Bool → Bool} {bvs : List (List Literal)}
    (ha : a.Below c.noVariables) (hb : b.Below c.noVariables)
    (hlits : ∀ bv ∈ bvs, ∀ l ∈ bv, l ∈ [a, a.neg, b, b.neg, .var c.noVariables false,
      (Literal.var c.noVariables false).neg])
    (hgate : ∀ v, (∀ bv ∈ bvs, clauseTrue v bv = true) ↔
      v c.noVariables = op (a.eval v) (b.eval v)) :
    Names c (fun v => op (a.eval v) (b.eval v))
      (.var c.noVariables false, c.newVariable.2.lcnfAll bvs) := by
  apply names_of_fresh
  · intro v w h
    rw [ha.eval_eq h, hb.eval_eq h]
  · intro bv hbv l hl
    have ha' : a.Below (c.noVariables + 1) := ha.mono (Nat.le_succ _)
    have hb' : b.Below (c.noVariables + 1) := hb.mono (Nat.le_succ _)
    have ho : (Literal.var c.noVariables false).Below (c.noVariables + 1) := Nat.lt_succ_self _
    have hcases := hlits bv hbv l hl
    simp only [List.mem_cons, List.not_mem_nil, or_false] at hcases
    rcases hcases with rfl | rfl | rfl | rfl | rfl | rfl
    · exact ha'
    · exact Literal.below_neg.mpr ha'
    · exact hb'
    · exact Literal.below_neg.mpr hb'
    · exact ho
    · exact Literal.below_neg.mpr ho
  · exact hgate

/-- `land` names the conjunction. -/
theorem land_names (ha : a.Below c.noVariables) (hb : b.Below c.noVariables) :
    Names c (fun v => a.eval v && b.eval v) (c.land a b) := by
  unfold land
  split_ifs with hat hbt haf hbf hab
  · exact Names.of_literal hb (by simp [Literal.isTrue_iff.mp hat])
  · exact Names.of_literal ha (by simp [Literal.isTrue_iff.mp hbt])
  · exact Names.of_literal ha (by simp [Literal.isFalse_iff.mp haf])
  · exact Names.of_literal hb (by simp [Literal.isFalse_iff.mp hbf])
  · exact Names.of_literal ha (by simp [hab])
  · apply names_of_gate ha hb
    · simp
    · intro v
      cases hav : a.eval v <;> cases hbv : b.eval v <;>
        simp [clauseTrue, hav, hbv]

/-- `lor` names the disjunction. -/
theorem lor_names (ha : a.Below c.noVariables) (hb : b.Below c.noVariables) :
    Names c (fun v => a.eval v || b.eval v) (c.lor a b) := by
  unfold lor
  split_ifs with haf hbf hat hbt hab
  · exact Names.of_literal hb (by simp [Literal.isFalse_iff.mp haf])
  · exact Names.of_literal ha (by simp [Literal.isFalse_iff.mp hbf])
  · exact Names.of_literal ha (by simp [Literal.isTrue_iff.mp hat])
  · exact Names.of_literal hb (by simp [Literal.isTrue_iff.mp hbt])
  · exact Names.of_literal ha (by simp [hab])
  · apply names_of_gate ha hb
    · simp
    · intro v
      cases hav : a.eval v <;> cases hbv : b.eval v <;>
        simp [clauseTrue, hav, hbv]

/-- `lxor` names the exclusive disjunction. -/
theorem lxor_names (ha : a.Below c.noVariables) (hb : b.Below c.noVariables) :
    Names c (fun v => a.eval v ^^ b.eval v) (c.lxor a b) := by
  unfold lxor
  split_ifs with haf hbf hat hbt hab habn
  · exact Names.of_literal hb (by simp [Literal.isFalse_iff.mp haf])
  · exact Names.of_literal ha (by simp [Literal.isFalse_iff.mp hbf])
  · exact Names.of_literal (Literal.below_neg.mpr hb) (by simp [Literal.isTrue_iff.mp hat])
  · exact Names.of_literal (Literal.below_neg.mpr ha) (by simp [Literal.isTrue_iff.mp hbt])
  · exact Names.of_literal trivial (by simp [hab])
  · exact Names.of_literal trivial (by simp [habn])
  · apply names_of_gate ha hb
    · simp
    · intro v
      cases hav : a.eval v <;> cases hbv : b.eval v <;>
        simp [clauseTrue, hav, hbv]

/-- The negation of a result needs no new clause. -/
theorem Names.neg {f : Assignment → Bool} {out : Literal × Cnf} (h : Names c f out) :
    Names c (fun v => !f v) (out.1.neg, out.2) where
  defines := h.defines
  below := Literal.below_neg.mpr h.below
  eval := by
    intro v hv
    rw [Literal.eval_neg, h.eval v hv]

/-- A gate names every function with the same values. -/
theorem Names.congr {f g : Assignment → Bool} {out : Literal × Cnf} (h : Names c f out)
    (hfg : ∀ v, f v = g v) : Names c g out where
  defines := h.defines
  below := h.below
  eval := fun v hv => (h.eval v hv).trans (hfg v)

/-- `lequal` names the equivalence. -/
theorem lequal_names (ha : a.Below c.noVariables) (hb : b.Below c.noVariables) :
    Names c (fun v => a.eval v == b.eval v) (c.lequal a b) := by
  apply (lxor_names ha hb).neg.congr
  intro v
  cases a.eval v <;> cases b.eval v <;> rfl

/-- `limplies` names the implication. -/
theorem limplies_names (ha : a.Below c.noVariables) (hb : b.Below c.noVariables) :
    Names c (fun v => !a.eval v || b.eval v) (c.limplies a b) := by
  apply (lor_names (Literal.below_neg.mpr ha) hb).congr
  intro v
  rw [Literal.eval_neg]

end Operations

/-! ## Gates of many inputs -/

/-- Adding what is missing, in order, collects the members of both lists. -/
private theorem mem_foldl_duplicates (bv dest : List Literal) (l : Literal) :
    l ∈ bv.foldl (fun dest l => if l ∈ dest then dest else dest ++ [l]) dest ↔
      l ∈ dest ∨ l ∈ bv := by
  induction bv generalizing dest with
  | nil => simp
  | cons m rest ih =>
      rw [List.foldl_cons, ih]
      split_ifs with hm
      · grind
      · grind

/-- No literal is lost with its duplicates. -/
@[simp] theorem mem_eliminateDuplicates {bv : List Literal} {l : Literal} :
    l ∈ eliminateDuplicates bv ↔ l ∈ bv := by
  simpa [eliminateDuplicates] using mem_foldl_duplicates bv [] l

section Vectors

variable {c : Cnf} {bv : List Literal}

/-- A disjunction depends on the set of literals only. -/
theorem any_congr_of_mem {lits bv : List Literal} {p : Literal → Bool}
    (h : ∀ l, l ∈ lits ↔ l ∈ bv) : lits.any p = bv.any p := by
  rw [Bool.eq_iff_iff, List.any_eq_true, List.any_eq_true]
  simp only [h]

/-- A conjunction depends on the set of literals only. -/
theorem all_congr_of_mem {lits bv : List Literal} {p : Literal → Bool}
    (h : ∀ l, l ∈ lits ↔ l ∈ bv) : lits.all p = bv.all p := by
  rw [Bool.eq_iff_iff, List.all_eq_true, List.all_eq_true]
  simp only [h]

/-- A gate over the members of `bv`. -/
theorem names_of_vectorGate {f : Assignment → Bool} {bvs : List (List Literal)}
    (hbelow : ∀ l ∈ bv, l.Below c.noVariables)
    (hlits : ∀ cl ∈ bvs, ∀ l ∈ cl, l ∈ bv ∨ l.neg ∈ bv ∨
      l = .var c.noVariables false ∨ l = .var c.noVariables true)
    (hf : ∀ v w, (∀ l ∈ bv, l.eval v = l.eval w) → f v = f w)
    (hgate : ∀ v, (∀ cl ∈ bvs, clauseTrue v cl = true) ↔ v c.noVariables = f v) :
    Names c f (.var c.noVariables false, c.newVariable.2.lcnfAll bvs) := by
  apply names_of_fresh
  · intro v w h
    exact hf v w fun l hl => (hbelow l hl).eval_eq h
  · intro cl hcl l hl
    rcases hlits cl hcl l hl with hmem | hmem | rfl | rfl
    · exact (hbelow l hmem).mono (Nat.le_succ _)
    · exact (Literal.below_neg.mp (hbelow _ hmem)).mono (Nat.le_succ _)
    · exact Nat.lt_succ_self _
    · exact Nat.lt_succ_self _
  · exact hgate

/-- The clauses of the gate of a disjunction. -/
theorem orGate_true {lits : List Literal} {o : Literal} {v : Assignment} :
    (∀ cl ∈ lits.map (fun l => [l.neg, o]) ++ [lits ++ [o.neg]], clauseTrue v cl = true) ↔
      o.eval v = lits.any (Literal.eval v) := by
  simp only [List.forall_mem_append, List.forall_mem_map, List.forall_mem_singleton, clauseTrue,
    List.any_append, List.any_cons, List.any_nil, Literal.eval_neg, Bool.or_false]
  cases ho : o.eval v with
  | false => rw [eq_comm (a := false)]; simp
  | true => rw [eq_comm (a := true)]; simp

/-- The clauses of the gate of a conjunction. -/
theorem andGate_true {lits : List Literal} {o : Literal} {v : Assignment} :
    (∀ cl ∈ lits.map (fun l => [l, o.neg]) ++ [lits.map Literal.neg ++ [o]],
      clauseTrue v cl = true) ↔ o.eval v = lits.all (Literal.eval v) := by
  simp only [List.forall_mem_append, List.forall_mem_map, List.forall_mem_singleton, clauseTrue,
    List.any_append, List.any_cons, List.any_nil, List.any_map, Literal.eval_neg, Bool.or_false]
  cases ho : o.eval v with
  | false => rw [eq_comm (a := false)]; simp
  | true => rw [eq_comm (a := true)]; simp

/-- `lor(bv)` names the disjunction of the literals. -/
theorem lorVector_names (hbelow : ∀ l ∈ bv, l.Below c.noVariables) :
    Names c (fun v => bv.any (Literal.eval v)) (c.lorVector bv) := by
  unfold lorVector
  split
  · exact Names.of_literal (Literal.below_const _ _) (by simp)
  · exact Names.of_literal (hbelow _ List.mem_cons_self) (by simp)
  · rename_i a b
    apply (lor_names (hbelow a (by simp)) (hbelow b (by simp))).congr
    simp
  · split_ifs with htrue hfalse
    · apply Names.of_literal (Literal.below_const _ _)
      intro v
      obtain ⟨l, hl, hconst⟩ := List.any_eq_true.mp htrue
      rw [eq_comm, Literal.eval_const, List.any_eq_true]
      exact ⟨l, hl, by simp [Literal.isTrue_iff.mp hconst]⟩
    · apply Names.of_literal (Literal.below_const _ _)
      intro v
      rw [eq_comm, Literal.eval_const, List.any_eq_false]
      intro l hl
      have hconst := List.all_eq_true.mp hfalse l hl
      simp [Literal.isFalse_iff.mp hconst]
    · apply names_of_vectorGate hbelow
      · grind [newVariable, Literal.neg_neg, Literal.neg, mem_eliminateDuplicates]
      · intro v w h
        rw [Bool.eq_iff_iff, List.any_eq_true, List.any_eq_true]
        exact exists_congr fun l => and_congr_right fun hl => by rw [h l hl]
      · intro v
        have horder : (eliminateDuplicates bv).any (Literal.eval v) = bv.any (Literal.eval v) :=
          any_congr_of_mem fun l => mem_eliminateDuplicates
        rw [← horder, ← Literal.eval_var v c.noVariables]
        exact orGate_true

/-- `land(bv)` names the conjunction of the literals. -/
theorem landVector_names (hbelow : ∀ l ∈ bv, l.Below c.noVariables) :
    Names c (fun v => bv.all (Literal.eval v)) (c.landVector bv) := by
  unfold landVector
  split
  · exact Names.of_literal (Literal.below_const _ _) (by simp)
  · exact Names.of_literal (hbelow _ List.mem_cons_self) (by simp)
  · rename_i a b
    apply (land_names (hbelow a (by simp)) (hbelow b (by simp))).congr
    simp
  · split_ifs with hfalse htrue
    · apply Names.of_literal (Literal.below_const _ _)
      intro v
      obtain ⟨l, hl, hconst⟩ := List.any_eq_true.mp hfalse
      rw [eq_comm, Literal.eval_const, List.all_eq_false]
      exact ⟨l, hl, by simp [Literal.isFalse_iff.mp hconst]⟩
    · apply Names.of_literal (Literal.below_const _ _)
      intro v
      rw [eq_comm, Literal.eval_const, List.all_eq_true]
      intro l hl
      have hconst := List.all_eq_true.mp htrue l hl
      simp [Literal.isTrue_iff.mp hconst]
    · apply names_of_vectorGate hbelow
      · grind [newVariable, Literal.neg_neg, Literal.neg, mem_eliminateDuplicates]
      · intro v w h
        rw [Bool.eq_iff_iff, List.all_eq_true, List.all_eq_true]
        exact forall₂_congr fun l hl => by rw [h l hl]
      · intro v
        have horder : (eliminateDuplicates bv).all (Literal.eval v) = bv.all (Literal.eval v) :=
          all_congr_of_mem fun l => mem_eliminateDuplicates
        rw [← horder, ← Literal.eval_var v c.noVariables]
        exact andGate_true

end Vectors

end Cnf

end FShell
