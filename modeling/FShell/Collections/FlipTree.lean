import Mathlib

/-!
# Lexicographic orders with reversed components

Binary trees over a linear order, compared component by component.  A pair may
say that its second component counts the other way round.  Whichever pairs do
so, the comparison is a strict total order: it is `eq` on equal trees only, it
is reversed when its arguments are, and it is transitive.
-/

namespace FShell

/-- A label, or a pair whose second component may be compared in reverse. -/
inductive FlipTree (L : Type*)
  | leaf (label : L)
  | pair (flip : Bool) (first second : FlipTree L)
  deriving DecidableEq

/-- The order, turned round or not. -/
def flipBy (flip : Bool) (o : Ordering) : Ordering := if flip then o.swap else o

@[simp] theorem flipBy_false (o : Ordering) : flipBy false o = o := rfl

@[simp] theorem flipBy_eq {flip : Bool} {o : Ordering} : flipBy flip o = .eq ↔ o = .eq := by
  cases flip <;> cases o <;> decide

@[simp] theorem flipBy_swap {flip : Bool} {o : Ordering} :
    flipBy flip o.swap = (flipBy flip o).swap := by
  cases flip <;> cases o <;> decide

theorem flipBy_then (flip : Bool) (o o' : Ordering) :
    flipBy flip (o.then o') = (flipBy flip o).then (flipBy flip o') := by
  cases flip <;> cases o <;> rfl

theorem flipBy_flipBy (flip flip' : Bool) (o : Ordering) :
    flipBy flip (flipBy flip' o) = flipBy (flip ^^ flip') o := by
  cases flip <;> cases flip' <;> cases o <;> rfl

/-- One comparison after another is less when the first is, or ties and the second is. -/
theorem then_lt {o o' : Ordering} : o.then o' = .lt ↔ o = .lt ∨ (o = .eq ∧ o' = .lt) := by
  cases o <;> cases o' <;> decide

theorem compare_comm {L : Type*} [LinearOrder L] (a b : L) :
    compare b a = (compare a b).swap :=
  Std.OrientedCmp.eq_swap

/-- Turned round or not, the order of labels is transitive. -/
theorem flipBy_compare_trans {L : Type*} [LinearOrder L] {flip : Bool} {a b c : L}
    (hab : flipBy flip (compare a b) = .lt) (hbc : flipBy flip (compare b c) = .lt) :
    flipBy flip (compare a c) = .lt := by
  cases flip with
  | false =>
      have hab' : a < b := compare_lt_iff_lt.mp hab
      exact compare_lt_iff_lt.mpr (hab'.trans (compare_lt_iff_lt.mp hbc))
  | true =>
      have hba : b < a := compare_gt_iff_gt.mp (Ordering.swap_eq_lt.mp hab)
      have hcb : c < b := compare_gt_iff_gt.mp (Ordering.swap_eq_lt.mp hbc)
      exact Ordering.swap_eq_lt.mpr (compare_gt_iff_gt.mpr (hcb.trans hba))

namespace FlipTree

variable {L : Type*} [LinearOrder L]

/-- The comparison: labels come before pairs, pairs that are not reversed
before those that are, and then the components decide. -/
def cmp : FlipTree L → FlipTree L → Ordering
  | leaf a, leaf b => compare a b
  | leaf _, pair _ _ _ => .lt
  | pair _ _ _, leaf _ => .gt
  | pair f a b, pair g c d => (compare f g).then ((cmp a c).then (flipBy f (cmp b d)))

/-- Trees compare as equal when they are equal. -/
@[simp] theorem cmp_eq_iff {s t : FlipTree L} : cmp s t = .eq ↔ s = t := by
  induction s generalizing t with
  | leaf a =>
      cases t with
      | leaf b => rw [cmp, compare_eq_iff_eq, leaf.injEq]
      | pair g c d => simp [cmp]
  | pair f a b iha ihb =>
      cases t with
      | leaf c => simp [cmp]
      | pair g c d =>
          rw [cmp, Ordering.then_eq_eq, Ordering.then_eq_eq, flipBy_eq, iha, ihb, compare_eq_iff_eq,
            pair.injEq]

/-- Pairs that are compared the same way round. -/
theorem cmp_pair {flip : Bool} {a b c d : FlipTree L} :
    cmp (pair flip a b) (pair flip c d) = .lt ↔
      cmp a c = .lt ∨ (a = c ∧ flipBy flip (cmp b d) = .lt) := by
  rw [cmp, compare_eq_iff_eq.mpr rfl, Ordering.eq_then, then_lt, cmp_eq_iff]

theorem cmp_self (t : FlipTree L) : cmp t t = .eq := cmp_eq_iff.mpr rfl

/-- Turning the arguments round turns the result round. -/
theorem cmp_swap (s t : FlipTree L) : cmp t s = (cmp s t).swap := by
  induction s generalizing t with
  | leaf a =>
      cases t with
      | leaf b => exact compare_comm a b
      | pair g c d => rfl
  | pair f a b iha ihb =>
      cases t with
      | leaf c => rfl
      | pair g c d =>
          by_cases hfg : f = g
          · subst hfg
            rw [cmp, cmp, compare_eq_iff_eq.mpr rfl, iha c, ihb d, flipBy_swap]
            cases cmp a c <;> rfl
          · have hswap : compare g f = (compare f g).swap := compare_comm f g
            have hne : compare f g ≠ .eq := fun h => hfg (compare_eq_iff_eq.mp h)
            rw [cmp, cmp, hswap]
            cases hcmp : compare f g with
            | lt => rfl
            | gt => rfl
            | eq => exact absurd hcmp hne

theorem cmp_gt_iff {s t : FlipTree L} : cmp s t = .gt ↔ cmp t s = .lt := by
  rw [cmp_swap s t]
  cases cmp s t <;> decide

/-- Transitivity in either direction: a reversed pair asks for it the other way
round, so both are carried through the induction. -/
theorem flipBy_cmp_trans (flip : Bool) {s t u : FlipTree L}
    (hst : flipBy flip (cmp s t) = .lt) (htu : flipBy flip (cmp t u) = .lt) :
    flipBy flip (cmp s u) = .lt := by
  induction s generalizing flip t u with
  | leaf a =>
      cases u with
      | pair h e d =>
          cases flip with
          | false => rfl
          | true =>
              cases t with
              | leaf b => cases htu
              | pair g c k => cases hst
      | leaf c =>
          cases t with
          | pair g e d => cases flip <;> [cases htu; cases hst]
          | leaf b => exact flipBy_compare_trans hst htu
  | pair f a b iha ihb =>
      cases t with
      | leaf c =>
          cases flip with
          | false => cases hst
          | true =>
              cases u with
              | leaf d => rfl
              | pair g d e => cases htu
      | pair g c d =>
          cases u with
          | leaf e =>
              cases flip with
              | false => cases htu
              | true => rfl
          | pair h e k =>
              rw [cmp, flipBy_then, then_lt, flipBy_eq, compare_eq_iff_eq, flipBy_then, then_lt,
                flipBy_eq, cmp_eq_iff, flipBy_flipBy] at hst htu ⊢
              obtain hst | ⟨rfl, hst⟩ := hst
              · obtain htu | ⟨rfl, _⟩ := htu
                · exact Or.inl (flipBy_compare_trans hst htu)
                · exact Or.inl hst
              · obtain htu | ⟨rfl, htu⟩ := htu
                · exact Or.inl htu
                · refine Or.inr ⟨rfl, ?_⟩
                  obtain hst | ⟨rfl, hst⟩ := hst
                  · obtain htu | ⟨rfl, _⟩ := htu
                    · exact Or.inl (iha flip hst htu)
                    · exact Or.inl hst
                  · obtain htu | ⟨rfl, htu⟩ := htu
                    · exact Or.inl htu
                    · exact Or.inr ⟨rfl, ihb _ hst htu⟩

/-- The comparison is transitive. -/
theorem cmp_trans {s t u : FlipTree L} (hst : cmp s t = .lt) (htu : cmp t u = .lt) :
    cmp s u = .lt :=
  flipBy_cmp_trans false hst htu

end FlipTree

end FShell
