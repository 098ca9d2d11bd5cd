import FShell.Solvers.Cnf

/-!
# Bit vectors over literals

A bit vector is a list of literals, the least significant bit first.  Adders
and comparators extend a clause set by definitions, like the gates; what they
compute is stated over the numbers that the vectors denote.  The ripple-carry
adder and the comparison by its carry show that the statements can be met.
-/

namespace FShell

/-- The number that a bit vector denotes. -/
def bvValue (v : Assignment) : List Literal → Nat
  | [] => 0
  | l :: bv => (l.eval v).toNat + 2 * bvValue v bv

/-- No bits stand for zero. -/
@[simp] theorem bvValue_nil (v : Assignment) : bvValue v [] = 0 := rfl

/-- The first bit is the lowest one. -/
@[simp] theorem bvValue_cons (v : Assignment) (l : Literal) (bv : List Literal) :
    bvValue v (l :: bv) = (l.eval v).toNat + 2 * bvValue v bv := rfl

/-- The bits bound the number. -/
theorem bvValue_lt (v : Assignment) (bv : List Literal) : bvValue v bv < 2 ^ bv.length := by
  induction bv with
  | nil => simp
  | cons l bv ih =>
      have hbit := Bool.toNat_le (l.eval v)
      rw [bvValue_cons, List.length_cons, Nat.pow_succ]
      omega

/-- The number depends on the values of the bits only. -/
theorem bvValue_congr {v w : Assignment} {bv : List Literal}
    (h : ∀ l ∈ bv, l.eval v = l.eval w) : bvValue v bv = bvValue w bv := by
  induction bv with
  | nil => rfl
  | cons l bv ih =>
      rw [bvValue_cons, bvValue_cons, h l List.mem_cons_self,
        ih fun m hm => h m (List.mem_cons_of_mem _ hm)]

/-- `zero_extension`. -/
def zeroExtension (bv : List Literal) (newSize : Nat) : List Literal :=
  bv ++ List.replicate (newSize - bv.length) (.const false)

/-- The extension has the new size. -/
theorem length_zeroExtension {bv : List Literal} {newSize : Nat} (h : bv.length ≤ newSize) :
    (zeroExtension bv newSize).length = newSize := by
  rw [zeroExtension, List.length_append, List.length_replicate]
  omega

/-- Zeros at the high end change nothing. -/
theorem bvValue_append_zeros (v : Assignment) (bv : List Literal) (n : Nat) :
    bvValue v (bv ++ List.replicate n (.const false)) = bvValue v bv := by
  induction bv with
  | nil =>
      induction n with
      | zero => rfl
      | succ n ih => simpa [List.replicate_succ] using ih
  | cons l bv ih => rw [List.cons_append, bvValue_cons, bvValue_cons, ih]

/-- The extension stands for the same number. -/
@[simp] theorem bvValue_zeroExtension (v : Assignment) (bv : List Literal) (newSize : Nat) :
    bvValue v (zeroExtension bv newSize) = bvValue v bv :=
  bvValue_append_zeros v bv _

/-- The extension uses no other variable. -/
theorem below_zeroExtension {n newSize : Nat} {bv : List Literal} (h : ∀ l ∈ bv, l.Below n) :
    ∀ l ∈ zeroExtension bv newSize, l.Below n := by
  intro l hl
  rcases List.mem_append.mp hl with hl | hl
  · exact h l hl
  · rw [List.eq_of_mem_replicate hl]
    trivial

/-- `build_constant`. -/
def buildConstant (n : Nat) : Nat → List Literal
  | 0 => []
  | width + 1 => .const (n % 2 = 1) :: buildConstant (n / 2) width

/-- `inverted`. -/
def inverted (bv : List Literal) : List Literal :=
  bv.map Literal.neg

/-- A number and its complement make up all ones. -/
theorem bvValue_inverted (v : Assignment) (bv : List Literal) :
    bvValue v (inverted bv) + bvValue v bv + 1 = 2 ^ bv.length := by
  induction bv with
  | nil => rfl
  | cons l bv ih =>
      have hbit : (!l.eval v).toNat + (l.eval v).toNat = 1 := by cases l.eval v <;> rfl
      simp only [inverted, List.map_cons, bvValue_cons, Literal.eval_neg, List.length_cons,
        Nat.pow_succ] at ih ⊢
      omega

namespace Cnf

/-- The outcome of an operation on `c` that computes a number. -/
structure NamesVector (c : Cnf) (width : Nat) (f : Assignment → Nat)
    (out : List Literal × Cnf) : Prop where
  defines : Defines c out.2
  length : out.1.length = width
  below : ∀ l ∈ out.1, l.Below out.2.noVariables
  value : ∀ v, out.2.Models v → bvValue v out.1 = f v

end Cnf

/-- `bv_utilst` with a correct adder and a correct comparison: `add` adds
modulo the width, `unsigned_less_than` compares. -/
structure BvUtils where
  add : Cnf → List Literal → List Literal → List Literal × Cnf
  unsignedLessThan : Cnf → List Literal → List Literal → Literal × Cnf
  add_names : ∀ (c : Cnf) (op0 op1 : List Literal), op0.length = op1.length →
    (∀ l ∈ op0, l.Below c.noVariables) → (∀ l ∈ op1, l.Below c.noVariables) →
    c.NamesVector op0.length (fun v => (bvValue v op0 + bvValue v op1) % 2 ^ op0.length)
      (add c op0 op1)
  unsignedLessThan_names : ∀ (c : Cnf) (op0 op1 : List Literal), op0.length = op1.length →
    (∀ l ∈ op0, l.Below c.noVariables) → (∀ l ∈ op1, l.Below c.noVariables) →
    c.Names (fun v => bvValue v op0 < bvValue v op1) (unsignedLessThan c op0 op1)

/-! ## Ripple carry -/

namespace Cnf

/-- The clauses by which a fresh variable is the majority of three literals. -/
def carryClauses (a b i x : Literal) : List (List Literal) :=
  [[a, b, x.neg], [a, b.neg, i, x.neg], [a, b.neg, i.neg, x],
    [a.neg, b, i, x.neg], [a.neg, b, i.neg, x], [a.neg, b.neg, x]]

/-- The carry of inputs of which two are constant. -/
def carryGates (c : Cnf) (a b i : Literal) : Literal × Cnf :=
  let ab := c.land a b
  let ai := ab.2.land a i
  let bi := ai.2.land b i
  let o := bi.2.lor ab.1 ai.1
  o.2.lor o.1 bi.1

/-- `carry`. -/
def carry (c : Cnf) (a b i : Literal) : Literal × Cnf :=
  if 2 ≤ [a, b, i].countP Literal.isConstant then c.carryGates a b i
  else if a = b then (a, c)
  else if a = i then (a, c)
  else if b = i then (b, c)
  else (c.newVariable.1, c.newVariable.2.lcnfAll (carryClauses a b i c.newVariable.1))

/-- The carry of three bits. -/
def majority (a b i : Bool) : Bool := a && b || a && i || b && i

variable {c : Cnf} {a b i : Literal}

/-- The gates name the carry, the majority of three bits. -/
theorem carryGates_names (ha : a.Below c.noVariables) (hb : b.Below c.noVariables)
    (hi : i.Below c.noVariables) :
    Names c (fun v => majority (a.eval v) (b.eval v) (i.eval v)) (c.carryGates a b i) := by
  have hab := land_names ha hb
  have hai := land_names (ha.mono hab.defines.le) (hi.mono hab.defines.le)
  have hle := Nat.le_trans hab.defines.le hai.defines.le
  have hbi := land_names (hb.mono hle) (hi.mono hle)
  have ho := lor_names (hab.below.mono (Nat.le_trans hai.defines.le hbi.defines.le))
    (hai.below.mono hbi.defines.le)
  have hout := lor_names ho.below (hbi.below.mono ho.defines.le)
  refine ⟨hab.defines.trans (hai.defines.trans (hbi.defines.trans (ho.defines.trans hout.defines))),
    hout.below, ?_⟩
  intro v hv
  have hvo := hout.defines.sound v hv
  have hvbi := ho.defines.sound v hvo
  have hvai := hbi.defines.sound v hvbi
  have hvab := hai.defines.sound v hvai
  simp only [carryGates, majority]
  rw [hout.eval v hv, ho.eval v hvo, hbi.eval v hvbi, hai.eval v hvai, hab.eval v hvab]

/-- So does `carry`, also where a bit is constant. -/
theorem carry_names (ha : a.Below c.noVariables) (hb : b.Below c.noVariables)
    (hi : i.Below c.noVariables) :
    Names c (fun v => majority (a.eval v) (b.eval v) (i.eval v)) (c.carry a b i) := by
  unfold carry
  split_ifs with hconst hab hai hbi
  · exact carryGates_names ha hb hi
  · exact Names.of_literal ha fun v => by subst hab; cases a.eval v <;> cases i.eval v <;> rfl
  · exact Names.of_literal ha fun v => by subst hai; cases a.eval v <;> cases b.eval v <;> rfl
  · exact Names.of_literal hb fun v => by subst hbi; cases a.eval v <;> cases b.eval v <;> rfl
  · apply names_of_fresh
    · intro v w h
      rw [ha.eval_eq h, hb.eval_eq h, hi.eval_eq h]
    · have hmono : ∀ {l : Literal}, l.Below c.noVariables → l.Below (c.noVariables + 1) :=
        fun h => h.mono (Nat.le_succ _)
      have hx : c.newVariable.1.Below (c.noVariables + 1) := Nat.lt_succ_self _
      simp [carryClauses, hmono ha, hmono hb, hmono hi, hx]
    · intro v
      cases hav : a.eval v <;> cases hbv : b.eval v <;> cases hiv : i.eval v <;>
        simp [carryClauses, clauseTrue, majority, newVariable, hav, hbv, hiv]

/-- `adder`: the sum and the carry out, from the low bits on. -/
def adder (c : Cnf) : List Literal → List Literal → Literal → (List Literal × Literal) × Cnf
  | a :: op0, b :: op1, i =>
      let x := c.lxor a b
      let s := x.2.lxor x.1 i
      let o := s.2.carry a b i
      let rest := adder o.2 op0 op1 o.1
      ((s.1 :: rest.1.1, rest.1.2), rest.2)
  | _, _, i => (([], i), c)

/-- The sum with its carry is the number that is asked for. -/
theorem adder_spec {op0 op1 : List Literal} (hlength : op0.length = op1.length)
    (h0 : ∀ l ∈ op0, l.Below c.noVariables) (h1 : ∀ l ∈ op1, l.Below c.noVariables)
    (hi : i.Below c.noVariables) :
    let out := c.adder op0 op1 i
    Defines c out.2 ∧ out.1.1.length = op0.length ∧
      (∀ l ∈ out.1.1, l.Below out.2.noVariables) ∧ out.1.2.Below out.2.noVariables ∧
      ∀ v, out.2.Models v → bvValue v out.1.1 + 2 ^ op0.length * (out.1.2.eval v).toNat =
        bvValue v op0 + bvValue v op1 + (i.eval v).toNat := by
  induction op0 generalizing c op1 i with
  | nil =>
      cases op1 with
      | nil => simpa [adder] using ⟨Defines.refl c, hi⟩
      | cons b op1 => cases hlength
  | cons a op0 ih =>
      cases op1 with
      | nil => cases hlength
      | cons b op1 =>
          have ha := h0 a List.mem_cons_self
          have hb := h1 b List.mem_cons_self
          have hx := lxor_names ha hb
          have hs := lxor_names hx.below (hi.mono hx.defines.le)
          have hxs := hx.defines.trans hs.defines
          have ho := carry_names (ha.mono hxs.le) (hb.mono hxs.le) (hi.mono hxs.le)
          have hxso := hxs.trans ho.defines
          obtain ⟨hdefines, hlen, hbelow, hcarry, hvalue⟩ := ih (Nat.succ_inj.mp hlength)
            (fun l hl => (h0 l (List.mem_cons_of_mem _ hl)).mono hxso.le)
            (fun l hl => (h1 l (List.mem_cons_of_mem _ hl)).mono hxso.le) ho.below
          simp only [adder]
          refine ⟨hxso.trans hdefines, by rw [List.length_cons, List.length_cons, hlen], ?_,
            hcarry, ?_⟩
          · intro l hl
            rcases List.mem_cons.mp hl with rfl | hl
            · exact hs.below.mono (Nat.le_trans ho.defines.le hdefines.le)
            · exact hbelow l hl
          · intro v hv
            have hvo := hdefines.sound v hv
            have hvs := ho.defines.sound v hvo
            have hvx := hs.defines.sound v hvs
            have hrest := hvalue v hv
            rw [bvValue_cons, hs.eval v hvs, hx.eval v hvx, List.length_cons, Nat.pow_succ,
              bvValue_cons, bvValue_cons]
            rw [ho.eval v hvo] at hrest
            have hbits : ((a.eval v ^^ b.eval v) ^^ i.eval v).toNat +
                2 * (majority (a.eval v) (b.eval v) (i.eval v)).toNat =
                (a.eval v).toNat + (b.eval v).toNat + (i.eval v).toNat := by
              cases a.eval v <;> cases b.eval v <;> cases i.eval v <;> rfl
            rw [Nat.mul_comm (2 ^ op0.length) 2, Nat.mul_assoc]
            omega

/-- `carry_out`. -/
def carryOut (c : Cnf) : List Literal → List Literal → Literal → Literal × Cnf
  | a :: op0, b :: op1, i =>
      let o := c.carry a b i
      carryOut o.2 op0 op1 o.1
  | _, _, i => (i, c)

/-- The carry tells whether the sum overflows. -/
theorem carryOut_names {op0 op1 : List Literal} (hlength : op0.length = op1.length)
    (h0 : ∀ l ∈ op0, l.Below c.noVariables) (h1 : ∀ l ∈ op1, l.Below c.noVariables)
    (hi : i.Below c.noVariables) :
    Names c (fun v => decide (2 ^ op0.length ≤ bvValue v op0 + bvValue v op1 + (i.eval v).toNat))
      (c.carryOut op0 op1 i) := by
  induction op0 generalizing c op1 i with
  | nil =>
      cases op1 with
      | nil => exact Names.of_literal hi fun v => by cases i.eval v <;> rfl
      | cons b op1 => cases hlength
  | cons a op0 ih =>
      cases op1 with
      | nil => cases hlength
      | cons b op1 =>
          have ha := h0 a List.mem_cons_self
          have hb := h1 b List.mem_cons_self
          have ho := carry_names ha hb hi
          have hrest := ih (Nat.succ_inj.mp hlength)
            (fun l hl => (h0 l (List.mem_cons_of_mem _ hl)).mono ho.defines.le)
            (fun l hl => (h1 l (List.mem_cons_of_mem _ hl)).mono ho.defines.le) ho.below
          simp only [carryOut]
          refine ⟨ho.defines.trans hrest.defines, hrest.below, ?_⟩
          intro v hv
          rw [hrest.eval v hv, ho.eval v (hrest.defines.sound v hv), List.length_cons,
            Nat.pow_succ, bvValue_cons, bvValue_cons, decide_eq_decide]
          cases a.eval v <;> cases b.eval v <;> cases i.eval v <;>
            simp only [majority, Bool.and_self, Bool.and_true, Bool.and_false, Bool.or_self,
              Bool.or_true, Bool.or_false, Bool.toNat_true, Bool.toNat_false] <;>
            omega

end Cnf

open Cnf in
/-- `add` and `unsigned_less_than` of `bv_utilst`: `A < B` unless `A - B`
carries out. -/
def rippleBvUtils : BvUtils where
  add c op0 op1 :=
    let out := c.adder op0 op1 (.const false)
    (out.1.1, out.2)
  unsignedLessThan c op0 op1 :=
    let out := c.carryOut op0 (inverted op1) (.const true)
    (out.1.neg, out.2)
  add_names := by
    intro c op0 op1 hlength h0 h1
    obtain ⟨hdefines, hlen, hbelow, -, hvalue⟩ :=
      adder_spec hlength h0 h1 (Literal.below_const c.noVariables false)
    refine ⟨hdefines, hlen, hbelow, ?_⟩
    intro v hv
    have hlt := bvValue_lt v (c.adder op0 op1 (.const false)).1.1
    have hsum := hvalue v hv
    rw [hlen] at hlt
    rw [Literal.eval_const, Bool.toNat_false, Nat.add_zero] at hsum
    rw [← hsum, Nat.add_mul_mod_self_left, Nat.mod_eq_of_lt hlt]
  unsignedLessThan_names := by
    intro c op0 op1 hlength h0 h1
    have hlen : op0.length = (inverted op1).length := by
      rw [inverted, List.length_map, hlength]
    have hinverted : ∀ l ∈ inverted op1, l.Below c.noVariables := by
      intro l hl
      obtain ⟨m, hm, rfl⟩ := List.mem_map.mp hl
      exact Literal.below_neg.mpr (h1 m hm)
    have hcarry := carryOut_names hlen h0 hinverted (Literal.below_const c.noVariables true)
    refine hcarry.neg.congr ?_
    intro v
    have hinv := bvValue_inverted v op1
    have htrue : (true.toNat) = 1 := rfl
    rw [Literal.eval_const, htrue, hlength, ← decide_not, decide_eq_decide]
    omega

end FShell
