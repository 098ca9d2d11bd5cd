import Mathlib

/-!
# Reachability in a fixed number of rounds

A relation is followed in rounds, each of which takes one step or none.  If only
finitely many elements have a step, then as many rounds as there are such
elements reach everything that is reachable: a shortest path leaves none of them
twice.
-/

namespace FShell

variable {α : Type*} {R : α → α → Prop} {a b c : α}

/-- `n` rounds, each of one step or none. -/
def Rounds (R : α → α → Prop) : Nat → α → α → Prop
  | 0, a, b => a = b
  | n + 1, a, b => ∃ c, (c = a ∨ R a c) ∧ Rounds R n c b

theorem Rounds.reflTransGen {n : Nat} (h : Rounds R n a b) : Relation.ReflTransGen R a b := by
  induction n generalizing a with
  | zero => exact h ▸ Relation.ReflTransGen.refl
  | succ n ih =>
      obtain ⟨c, rfl | hstep, hrest⟩ := h
      · exact ih hrest
      · exact (ih hrest).head hstep

theorem Rounds.refl (n : Nat) (a : α) : Rounds R n a a := by
  induction n with
  | zero => rfl
  | succ n ih => exact ⟨a, Or.inl rfl, ih⟩

theorem Rounds.mono {S : α → α → Prop} (hRS : ∀ a b, R a b → S a b) {n : Nat}
    (h : Rounds R n a b) : Rounds S n a b := by
  induction n generalizing a with
  | zero => exact h
  | succ n ih =>
      obtain ⟨c, hstep, hrest⟩ := h
      exact ⟨c, hstep.imp_right (hRS a c), ih hrest⟩

/-- The path after the last visit of its start does not leave the start again. -/
theorem exists_last_visit (h : Relation.ReflTransGen R a b) :
    a = b ∨ ∃ c, R a c ∧ Relation.ReflTransGen (fun x y => R x y ∧ x ≠ a) c b := by
  induction h with
  | refl => exact Or.inl rfl
  | @tail b d hab hbd ih =>
      refine Or.inr ?_
      by_cases heq : b = a
      · subst heq
        exact ⟨d, hbd, Relation.ReflTransGen.refl⟩
      · obtain ⟨c, hac, hcb⟩ := ih.resolve_left (Ne.symm heq)
        exact ⟨c, hac, hcb.tail ⟨hbd, heq⟩⟩

/-- **One round for every element with a step.** -/
theorem rounds_iff {sources : Finset α} (hsources : ∀ a b, R a b → a ∈ sources) :
    Rounds R sources.card a b ↔ Relation.ReflTransGen R a b := by
  classical
  constructor
  · exact Rounds.reflTransGen
  · intro h
    induction hn : sources.card generalizing R sources a with
    | zero =>
        rcases exists_last_visit h with rfl | ⟨c, hac, -⟩
        · rfl
        · rw [Finset.card_eq_zero] at hn
          simpa [hn] using hsources a c hac
    | succ n ih =>
        rcases exists_last_visit h with rfl | ⟨c, hac, hcb⟩
        · exact Rounds.refl _ _
        · -- the rest of the path has one source less
          have hrest : Rounds (fun x y => R x y ∧ x ≠ a) n c b := by
            refine @ih _ c (sources.erase a) ?_ hcb ?_
            · intro x y hxy
              exact Finset.mem_erase.mpr ⟨hxy.2, hsources x y hxy.1⟩
            · rw [Finset.card_erase_of_mem (hsources a c hac), hn, Nat.add_sub_cancel]
          exact ⟨c, Or.inr hac, hrest.mono fun x y hxy => hxy.1⟩

end FShell
