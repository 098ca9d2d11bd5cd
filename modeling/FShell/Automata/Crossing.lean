import FShell.Automata.Walk

/-!
# Extending a graph by a region

New states are added to a graph and edges lead from some old states into
them, none back.  The words to old states stay what they were and a word to
a new state crosses over once (`Crossing.words_old`, `Crossing.words_new`).
-/

open scoped Computability

namespace LabelledGraph

variable {σ α : Type*}

/-- The words of `l` with at least one letter. -/
def proper (l : Language α) : Language α := {w | w ∈ l ∧ w ≠ []}

/-- The words of `l` if `p` holds, and none otherwise. -/
def onlyIf (p : Prop) (l : Language α) : Language α := {w | p ∧ w ∈ l}

section Proper

variable {l m : Language α} {w : List α}

@[simp] theorem mem_proper : w ∈ proper l ↔ w ∈ l ∧ w ≠ [] := Iff.rfl

theorem proper_le : proper l ≤ l := fun _ h => h.1

@[simp] theorem proper_proper : proper (proper l) = proper l :=
  Language.ext fun _ => ⟨And.left, fun h => ⟨h, h.2⟩⟩

theorem proper_add (l m : Language α) : proper (l + m) = proper l + proper m := by
  ext w
  constructor
  · intro h
    obtain ⟨hw | hw, hne⟩ := h
    · exact Or.inl ⟨hw, hne⟩
    · exact Or.inr ⟨hw, hne⟩
  · intro h
    rcases h with ⟨hw, hne⟩ | ⟨hw, hne⟩
    · exact ⟨Or.inl hw, hne⟩
    · exact ⟨Or.inr hw, hne⟩

theorem proper_eq_zero : proper l = 0 ↔ l ≤ 1 := by
  constructor
  · intro h w hw
    by_contra hne
    have hmem : w ∈ proper l := ⟨hw, hne⟩
    rw [h] at hmem
    exact hmem.elim
  · intro h
    ext w
    exact ⟨fun hw => hw.2 (h hw.1), fun hw => hw.elim⟩

/-- A word of a product is without letters on the right or goes on there. -/
theorem proper_mul (l m : Language α) :
    proper (l * m) = l * proper m + onlyIf ([] ∈ m) (proper l) := by
  ext w
  constructor
  · intro h
    obtain ⟨⟨u, hu, v, hv, rfl⟩, hne⟩ := h
    by_cases hnil : v = []
    · subst hnil
      right
      simp only [List.append_nil] at hne ⊢
      exact ⟨hv, hu, hne⟩
    · exact Or.inl ⟨u, hu, v, ⟨hv, hnil⟩, rfl⟩
  · intro h
    rcases h with ⟨u, hu, v, ⟨hv, hne⟩, rfl⟩ | ⟨hnil, hw, hne⟩
    · exact ⟨⟨u, hu, v, hv, rfl⟩, by simp [hne]⟩
    · exact ⟨⟨w, hw, [], hnil, List.append_nil w⟩, hne⟩

theorem nil_mem_mul : [] ∈ l * m ↔ [] ∈ l ∧ [] ∈ m := by
  constructor
  · intro h
    obtain ⟨u, hu, v, hv, huv⟩ := h
    obtain ⟨rfl, rfl⟩ := List.append_eq_nil_iff.mp huv
    exact ⟨hu, hv⟩
  · intro h
    obtain ⟨hl, hm⟩ := h
    exact ⟨[], hl, [], hm, rfl⟩

theorem nil_notMem_proper : [] ∉ proper l := fun h => h.2 rfl

theorem ne_zero_iff_exists : l ≠ 0 ↔ ∃ w, w ∈ l := by
  constructor
  · intro h
    by_contra hnone
    push Not at hnone
    exact h (Language.ext fun w => ⟨fun hw => (hnone w hw).elim, fun hw => hw.elim⟩)
  · intro hx heq
    obtain ⟨w, hw⟩ := hx
    subst heq
    exact hw.elim

end Proper

variable [DecidableEq α]

/-- `R` extends `R₀` by a region `New` that no edge leaves.  The edges into
it start at the states of `P`, and all of these have the edges `C`. -/
structure Crossing (R R₀ : σ → α → σ → Prop) (New P : σ → Prop) (C : α → σ → Prop) : Prop where
  new_closed : ∀ x a z, New x → R x a z → New z
  old : ∀ x a z, ¬ New x → (R x a z ↔ R₀ x a z ∨ (P x ∧ C a z))
  old_closed : ∀ x a z, ¬ New x → R₀ x a z → ¬ New z
  target : ∀ a z, C a z → New z
  source : ∀ x, P x → ¬ New x

/-- The words that an edge of `C` begins. -/
def wordsFrom (R : σ → α → σ → Prop) (ε : α) (C : α → σ → Prop) (F : σ → Prop) : Language α :=
  {w | ∃ a z, C a z ∧ w ∈ letter ε a * future R ε F z}

variable {R R₀ : σ → α → σ → Prop} {ε : α} {New P A F : σ → Prop} {C : α → σ → Prop}

/-- The old part is still there. -/
theorem Crossing.future_old_le (h : Crossing R R₀ New P C) (F : σ → Prop) {x : σ}
    (hx : ¬ New x) : future R₀ ε F x ≤ future R ε F x := by
  have hlift := future_le (R := R₀) (ε := ε) (F := F)
    (L := fun x => {w | ¬ New x → w ∈ future R ε F x}) ?_ ?_ x
  · intro w hw
    exact hlift hw hx
  · intro y hy w hw _
    exact one_le_future hy hw
  · intro y a z hedge w hw hy
    obtain ⟨v, hv, rfl⟩ := mem_letter_mul.mp hw
    exact letter_mul_future_le ((h.old y a z hy).mpr (Or.inl hedge))
      (mem_letter_mul.mpr ⟨v, hv (h.old_closed y a z hy hedge), rfl⟩)

/-- Words to the old part do not enter the new region. -/
theorem Crossing.words_old (h : Crossing R R₀ New P C) (hA : ∀ x, A x → ¬ New x)
    (hF : ∀ y, F y → ¬ New y) : words R ε A F = words R₀ ε A F := by
  classical
  have hle : ∀ x, future R ε F x ≤ if New x then 0 else future R₀ ε F x := by
    apply future_le
    · intro y hy
      rw [if_neg (hF y hy)]
      exact one_le_future hy
    · intro x a z hedge
      by_cases hx : New x
      · rw [if_pos (h.new_closed x a z hx hedge), mul_zero]
        exact bot_le
      · rw [if_neg hx]
        rcases (h.old x a z hx).mp hedge with hold | ⟨-, hcross⟩
        · rw [if_neg (h.old_closed x a z hx hold)]
          exact letter_mul_future_le hold
        · rw [if_pos (h.target a z hcross), mul_zero]
          exact bot_le
  apply le_antisymm
  · apply words_le
    intro x hx
    have hx' := hle x
    rw [if_neg (hA x hx)] at hx'
    exact hx'.trans (future_le_words hx)
  · apply words_le
    intro x hx
    exact (h.future_old_le F (hA x hx)).trans (future_le_words hx)

/-- **Words into the new region** cross one edge of `C`. -/
theorem Crossing.words_new (h : Crossing R R₀ New P C) (hA : ∀ x, A x → ¬ New x)
    (hF : ∀ y, F y → New y) : words R ε A F = words R₀ ε A P * wordsFrom R ε C F := by
  classical
  have hle : ∀ x, future R ε F x ≤
      if New x then future R ε F x else future R₀ ε P x * wordsFrom R ε C F := by
    apply future_le
    · intro y hy
      rw [if_pos (hF y hy)]
      exact one_le_future hy
    · intro x a z hedge
      by_cases hx : New x
      · rw [if_pos (h.new_closed x a z hx hedge), if_pos hx]
        exact letter_mul_future_le hedge
      · rw [if_neg hx]
        rcases (h.old x a z hx).mp hedge with hold | ⟨hP, hcross⟩
        · rw [if_neg (h.old_closed x a z hx hold), ← mul_assoc]
          exact mul_le_mul_left (letter_mul_future_le hold) _
        · rw [if_pos (h.target a z hcross)]
          calc letter ε a * future R ε F z
              ≤ wordsFrom R ε C F := fun w hw => ⟨a, z, hcross, hw⟩
            _ = 1 * wordsFrom R ε C F := (one_mul _).symm
            _ ≤ future R₀ ε P x * wordsFrom R ε C F := mul_le_mul_left (one_le_future hP) _
  apply le_antisymm
  · apply words_le
    intro x hx
    have hx' := hle x
    rw [if_neg (hA x hx)] at hx'
    exact hx'.trans (mul_le_mul_left (future_le_words hx) _)
  · intro w hw
    obtain ⟨u, ⟨x, hx, hu⟩, v, ⟨a, z, hcross, hv⟩, rfl⟩ := hw
    obtain ⟨p, walk, hp, hwalk, rfl⟩ := h.future_old_le P (hA x hx) hu
    obtain ⟨t, ⟨y, rest, hy, hrest, rfl⟩, rfl⟩ := mem_letter_mul.mp hv
    have hedge : R p a z := (h.old p a z (h.source p hp)).mpr (Or.inr ⟨hp, hcross⟩)
    refine ⟨x, hx, y, walk ++ a :: rest, hy, hwalk.append (Walk.cons hedge hrest), ?_⟩
    have hsplit : a :: rest = [a] ++ rest := rfl
    rw [hsplit]
    simp only [erase_append]

/-- In a graph without silent edges the edges at `x` begin its proper words. -/
theorem wordsFrom_edges {x : σ} (hvisible : ∀ a z, R x a z → a ≠ ε) :
    wordsFrom R ε (R x) F = proper (future R ε F x) := by
  ext w
  constructor
  · intro h
    obtain ⟨a, z, hedge, hw⟩ := h
    refine ⟨letter_mul_future_le hedge hw, ?_⟩
    intro heq
    subst heq
    rw [letter_visible (hvisible a z hedge)] at hw
    obtain ⟨u, rfl, v, -, huv⟩ := hw
    cases huv
  · intro h
    obtain ⟨hw, hne⟩ := h
    rcases future_cases hw with ⟨-, hnil⟩ | ⟨a, z, hedge, hword⟩
    · exact absurd hnil hne
    · exact ⟨a, z, hedge, hword⟩

end LabelledGraph
