import Mathlib

/-!
# Words of a graph with one silent label

A labelled graph is a relation `R : σ → α → σ → Prop`; one label `ε` is
silent.  `future R ε F x` is the language spelled on the walks from `x` to
the states of `F` once the silent letters are erased, and `words R ε A F`
collects it over the states of `A`.

They are least solutions of their one-step inequations (`future_le`), so most
results below are proved in the Kleene algebra of languages and do not look
inside a walk.  The central one is `words_bridge`: silent edges from every
state of `P` to every state of `Q` change the words from `A` to `F` by exactly
`words A P * (words Q P)∗ * words Q F`.
-/

open scoped Computability

namespace LabelledGraph

variable {σ τ α : Type*}

/-- A walk, together with the labels of its edges. -/
inductive Walk (R : σ → α → σ → Prop) : σ → List α → σ → Prop
  | nil (s : σ) : Walk R s [] s
  | cons {s t f : σ} {a : α} {u : List α}
      (hedge : R s a t) (tail : Walk R t u f) : Walk R s (a :: u) f

/-- Walks compose. -/
theorem Walk.append {R : σ → α → σ → Prop} {s t f : σ} {u v : List α}
    (hleft : Walk R s u t) (hright : Walk R t v f) : Walk R s (u ++ v) f := by
  induction hleft with
  | nil => exact hright
  | cons hedge _ ih => exact Walk.cons hedge (ih hright)

/-- Every walk of a graph is a walk of any larger graph. -/
theorem Walk.mono {R S : σ → α → σ → Prop} (hsub : ∀ x a y, R x a y → S x a y)
    {s f : σ} {u : List α} (h : Walk R s u f) : Walk S s u f := by
  induction h with
  | nil s => exact Walk.nil s
  | cons hedge _ ih => exact Walk.cons (hsub _ _ _ hedge) ih

variable [DecidableEq α]

/-- The visible letters of a label sequence. -/
def erase (ε : α) (u : List α) : List α := u.filter (· ≠ ε)

/-- Nothing is erased from the empty word. -/
@[simp] theorem erase_nil (ε : α) : erase ε [] = [] := rfl

/-- Erasing piece by piece. -/
@[simp] theorem erase_append (ε : α) (u v : List α) :
    erase ε (u ++ v) = erase ε u ++ erase ε v := by
  simp [erase]

/-- What a single label contributes to a word. -/
def letter (ε a : α) : Language α := if a = ε then 1 else {[a]}

/-- A silent label spells the empty word. -/
@[simp] theorem letter_silent (ε : α) : letter ε ε = 1 := if_pos rfl

/-- A visible label spells itself. -/
theorem letter_visible {ε a : α} (h : a ≠ ε) : letter ε a = {[a]} := if_neg h

/-- The words spelled from `x` to a state of `F`. -/
def future (R : σ → α → σ → Prop) (ε : α) (F : σ → Prop) (x : σ) : Language α :=
  {w | ∃ y u, F y ∧ Walk R x u y ∧ erase ε u = w}

/-- The words spelled from a state of `A` to a state of `B`. -/
def words (R : σ → α → σ → Prop) (ε : α) (A B : σ → Prop) : Language α :=
  {w | ∃ x, A x ∧ w ∈ future R ε B x}

section Future

variable {R S : σ → α → σ → Prop} {ε : α} {F G : σ → Prop}

/-- The word of one edge followed by a word of its target. -/
theorem mem_letter_mul {a : α} {w : List α} {l : Language α} :
    w ∈ letter ε a * l ↔ ∃ v ∈ l, erase ε [a] ++ v = w := by
  by_cases h : a = ε
  · subst h
    simp [letter, erase]
  · rw [letter_visible h, Language.mem_mul]
    simp only [erase, h, ne_eq, not_false_eq_true, decide_true, List.filter_cons_of_pos,
      List.filter_nil]
    constructor
    · intro hx
      obtain ⟨_, rfl, v, hv, hw⟩ := hx
      exact ⟨v, hv, hw⟩
    · intro hx
      obtain ⟨v, hv, hw⟩ := hx
      exact ⟨[a], rfl, v, hv, hw⟩

/-- A target accepts the empty word. -/
theorem one_le_future {x : σ} (hx : F x) : 1 ≤ future R ε F x := by
  intro _ heq
  subst heq
  exact ⟨x, [], hx, Walk.nil x, rfl⟩

/-- Words extend backwards over an edge. -/
theorem letter_mul_future_le {x z : σ} {a : α} (hedge : R x a z) :
    letter ε a * future R ε F z ≤ future R ε F x := by
  intro w hw
  obtain ⟨_, ⟨y, u, hy, hwalk, rfl⟩, rfl⟩ := mem_letter_mul.mp hw
  refine ⟨y, a :: u, hy, Walk.cons hedge hwalk, ?_⟩
  rw [← List.singleton_append, erase_append]

/-- A silent edge costs no letter. -/
theorem future_le_of_silent {x z : σ} (hedge : R x ε z) :
    future R ε F z ≤ future R ε F x := by
  have h := letter_mul_future_le (ε := ε) (F := F) hedge
  rwa [letter_silent, one_mul] at h

/-- **Least solution.**  Any family that contains the empty word at every
target and is closed under edges read backwards contains the words of the
graph. -/
theorem future_le {L : σ → Language α} (hnil : ∀ y, F y → 1 ≤ L y)
    (hstep : ∀ x a z, R x a z → letter ε a * L z ≤ L x) (x : σ) :
    future R ε F x ≤ L x := by
  intro w h
  obtain ⟨y, u, hy, hwalk, rfl⟩ := h
  induction hwalk with
  | nil s => exact hnil s hy Language.nil_mem_one
  | @cons s t f a u hedge _ ih =>
      refine hstep s a t hedge (mem_letter_mul.mpr ⟨erase ε u, ih hy, ?_⟩)
      rw [← List.singleton_append (l := u), erase_append]

/-- Larger graphs and target sets spell more words. -/
theorem future_mono (hsub : ∀ x a z, R x a z → S x a z) (htarget : ∀ y, F y → G y) (x : σ) :
    future R ε F x ≤ future S ε G x :=
  future_le (fun y hy => one_le_future (htarget y hy))
    (fun _ _ _ hedge => letter_mul_future_le (hsub _ _ _ hedge)) x

/-- **First step.**  A word is empty at a target or starts with an edge. -/
theorem future_cases {x : σ} {w : List α} (hw : w ∈ future R ε F x) :
    (F x ∧ w = []) ∨ ∃ a z, R x a z ∧ w ∈ letter ε a * future R ε F z := by
  obtain ⟨y, u, hy, hwalk, rfl⟩ := hw
  cases hwalk with
  | nil => exact Or.inl ⟨hy, rfl⟩
  | @cons _ t _ a u hedge tail =>
      refine Or.inr ⟨a, t, hedge, mem_letter_mul.mpr ⟨erase ε u, ⟨y, u, hy, tail, rfl⟩, ?_⟩⟩
      rw [← erase_append, List.singleton_append]

/-- What a start spells, the set of starts does. -/
theorem future_le_words {A : σ → Prop} {x : σ} (hx : A x) :
    future R ε F x ≤ words R ε A F := fun _ hw => ⟨x, hx, hw⟩

/-- An upper bound, start by start. -/
theorem words_le {A : σ → Prop} {L : Language α} (h : ∀ x, A x → future R ε F x ≤ L) :
    words R ε A F ≤ L := by
  intro w hw
  obtain ⟨x, hx, hw⟩ := hw
  exact h x hx hw

/-- A start that is a target spells the empty word. -/
theorem one_le_words {A : σ → Prop} {x : σ} (hA : A x) (hF : F x) : 1 ≤ words R ε A F :=
  (one_le_future hF).trans (future_le_words hA)

/-- Words compose where every end of the first is silently linked to every
start of the second. -/
theorem future_mul_words_le {P Q : σ → Prop} (hlink : ∀ p q, P p → Q q → R p ε q) (x : σ) :
    future R ε P x * words R ε Q F ≤ future R ε F x := by
  intro w hw
  obtain ⟨_, ⟨p, u, hp, hleft, rfl⟩, _, ⟨q, hq, f, v, hf, hright, rfl⟩, rfl⟩ := hw
  refine ⟨f, u ++ ε :: v, hf, hleft.append (Walk.cons (hlink p q hp hq) hright), ?_⟩
  rw [erase_append]
  simp [erase]

/-- Words that stay in a region closed under edges do not depend on the rest
of the graph. -/
theorem future_congr {P : σ → Prop} (hclosed : ∀ x a z, P x → R x a z → P z)
    (hsame : ∀ x a z, P x → (R x a z ↔ S x a z)) (htarget : ∀ y, P y → (F y ↔ G y))
    {x : σ} (hx : P x) : future R ε F x = future S ε G x := by
  apply le_antisymm
  · have h := future_le (R := R) (ε := ε) (F := F)
      (L := fun x => {w | P x → w ∈ future S ε G x}) ?_ ?_ x
    · intro w hw
      exact h hw hx
    · intro y hy w hw hP
      exact one_le_future ((htarget y hP).mp hy) hw
    · intro x a z hedge w hw hP
      obtain ⟨v, hv, rfl⟩ := mem_letter_mul.mp hw
      exact letter_mul_future_le ((hsame x a z hP).mp hedge)
        (mem_letter_mul.mpr ⟨v, hv (hclosed x a z hP hedge), rfl⟩)
  · have h := future_le (R := S) (ε := ε) (F := G)
      (L := fun x => {w | P x → w ∈ future R ε F x}) ?_ ?_ x
    · intro w hw
      exact h hw hx
    · intro y hy w hw hP
      exact one_le_future ((htarget y hP).mpr hy) hw
    · intro x a z hedge w hw hP
      have hedge' := (hsame x a z hP).mpr hedge
      obtain ⟨v, hv, rfl⟩ := mem_letter_mul.mp hw
      exact letter_mul_future_le hedge'
        (mem_letter_mul.mpr ⟨v, hv (hclosed x a z hP hedge'), rfl⟩)

/-- No word leads out of a closed region. -/
theorem future_eq_zero {P : σ → Prop} (hclosed : ∀ x a z, P x → R x a z → P z)
    (htarget : ∀ y, P y → ¬ F y) {x : σ} (hx : P x) : future R ε F x = 0 := by
  have h := future_congr (R := R) (S := R) (ε := ε) (F := F) (G := fun _ => False)
    hclosed (fun _ _ _ _ => Iff.rfl) (fun z hz => ⟨htarget z hz, False.elim⟩) hx
  rw [h]
  exact Language.ext fun w => ⟨fun ⟨_, _, hf, _⟩ => hf.elim, fun hw => hw.elim⟩

/-- A state without outgoing edges spells at most the empty word. -/
theorem future_stuck {x : σ} (hstuck : ∀ a z, ¬ R x a z) (hx : ¬ F x) : future R ε F x = 0 := by
  refine Language.ext fun w => ⟨fun hw => ?_, fun hw => hw.elim⟩
  rcases future_cases hw with ⟨hFx, _⟩ | ⟨a, z, hedge, _⟩
  · exact absurd hFx hx
  · exact absurd hedge (hstuck a z)

/-- A target without a way out spells the empty word only. -/
theorem future_stuck_target {x : σ} (hstuck : ∀ a z, ¬ R x a z) (hx : F x) :
    future R ε F x = 1 := by
  refine le_antisymm (fun w hw => ?_) (one_le_future hx)
  rcases future_cases hw with ⟨_, rfl⟩ | ⟨a, z, hedge, _⟩
  · exact Language.nil_mem_one
  · exact absurd hedge (hstuck a z)

/-- Targets without incoming edges are spelled from nowhere else. -/
theorem future_unreachable (hno : ∀ x a z, R x a z → ¬ F z) {x : σ} (hx : ¬ F x) :
    future R ε F x = 0 :=
  future_eq_zero (P := fun y => ¬ F y) (fun x a z _ hedge => hno x a z hedge)
    (fun _ hy => hy) hx

/-- Starts that spell nothing. -/
theorem words_eq_zero {A : σ → Prop} (h : ∀ x, A x → future R ε F x = 0) :
    words R ε A F = 0 :=
  le_antisymm (words_le fun x hx => (h x hx).le) bot_le

/-- One start. -/
theorem words_single (x : σ) : words R ε (· = x) F = future R ε F x := by
  apply le_antisymm
  · exact words_le fun y hy => le_of_eq (congrArg (future R ε F) hy)
  · exact future_le_words rfl

/-- Two sets of starts. -/
theorem words_or_left (A B : σ → Prop) :
    words R ε (fun x => A x ∨ B x) F = words R ε A F + words R ε B F := by
  apply le_antisymm
  · refine words_le fun x hx => ?_
    rcases hx with hx | hx
    · exact (future_le_words hx).trans le_sup_left
    · exact (future_le_words hx).trans le_sup_right
  · refine add_le ?_ ?_
    · exact words_le fun x hx => future_le_words (Or.inl hx)
    · exact words_le fun x hx => future_le_words (Or.inr hx)

/-- Two sets of targets. -/
theorem words_or_right (A : σ → Prop) :
    words R ε A (fun y => F y ∨ G y) = words R ε A F + words R ε A G := by
  apply le_antisymm
  · intro w hw
    obtain ⟨x, hx, y, u, hy, hwalk, hu⟩ := hw
    rcases hy with hy | hy
    · exact Or.inl ⟨x, hx, y, u, hy, hwalk, hu⟩
    · exact Or.inr ⟨x, hx, y, u, hy, hwalk, hu⟩
  · refine add_le ?_ ?_
    · exact words_le fun x hx =>
        (future_mono (fun _ _ _ h => h) (fun _ h => Or.inl h) x).trans (future_le_words hx)
    · exact words_le fun x hx =>
        (future_mono (fun _ _ _ h => h) (fun _ h => Or.inr h) x).trans (future_le_words hx)

end Future

/-- **Relabelling states.**  If `f` carries the edges of `R` at `P` onto the
edges of `S` at the images, it carries words to words. -/
theorem future_map {R : σ → α → σ → Prop} {S : τ → α → τ → Prop} {ε : α}
    {F : σ → Prop} {G : τ → Prop} {P : σ → Prop} {f : σ → τ}
    (hclosed : ∀ x a z, P x → R x a z → P z)
    (hedge : ∀ x a z', P x → (S (f x) a z' ↔ ∃ z, R x a z ∧ f z = z'))
    (htarget : ∀ y, P y → (F y ↔ G (f y))) {x : σ} (hx : P x) :
    future S ε G (f x) = future R ε F x := by
  apply le_antisymm
  · have h := future_le (R := S) (ε := ε) (F := G)
      (L := fun t => {w | ∀ x, P x → f x = t → w ∈ future R ε F x}) ?_ ?_ (f x)
    · intro w hw
      exact h hw x hx rfl
    · intro _ hy w hw x hP heq
      subst heq
      exact one_le_future ((htarget x hP).mpr hy) hw
    · intro _ a z' hS w hw x hP heq
      subst heq
      obtain ⟨z, hR, rfl⟩ := (hedge x a z' hP).mp hS
      obtain ⟨v, hv, rfl⟩ := mem_letter_mul.mp hw
      exact letter_mul_future_le hR
        (mem_letter_mul.mpr ⟨v, hv z (hclosed x a z hP hR) rfl, rfl⟩)
  · have h := future_le (R := R) (ε := ε) (F := F)
      (L := fun x => {w | P x → w ∈ future S ε G (f x)}) ?_ ?_ x
    · intro w hw
      exact h hw hx
    · intro y hy w hw hP
      exact one_le_future ((htarget y hP).mp hy) hw
    · intro x a z hR w hw hP
      obtain ⟨v, hv, rfl⟩ := mem_letter_mul.mp hw
      exact letter_mul_future_le ((hedge x a (f z) hP).mpr ⟨z, hR, rfl⟩)
        (mem_letter_mul.mpr ⟨v, hv (hclosed x a z hP hR), rfl⟩)

section Bridge

/-- The graph `R` with silent edges from every state of `P` to every state
of `Q`. -/
def bridge (R : σ → α → σ → Prop) (ε : α) (P Q : σ → Prop) : σ → α → σ → Prop :=
  fun x a z => R x a z ∨ (P x ∧ a = ε ∧ Q z)

variable {R : σ → α → σ → Prop} {ε : α} (P Q F : σ → Prop)

/-- **Silent edges from `P` to `Q`.**  A word of the larger graph crosses
the new edges a number of times; between two crossings it is a word of the
old graph from `Q` back to `P`. -/
theorem future_bridge (x : σ) :
    future (bridge R ε P Q) ε F x =
      future R ε F x + future R ε P x * (words R ε Q P)∗ * words R ε Q F := by
  have hsub : ∀ G u, future R ε G u ≤ future (bridge R ε P Q) ε G u := fun G u =>
    future_mono (fun _ _ _ h => Or.inl h) (fun _ h => h) u
  have hwords : ∀ G, words R ε Q G ≤ words (bridge R ε P Q) ε Q G := fun G =>
    words_le fun u hu => (hsub G u).trans (future_le_words hu)
  apply le_antisymm
  · refine future_le (L := fun x =>
      future R ε F x + future R ε P x * (words R ε Q P)∗ * words R ε Q F) ?_ ?_ x
    · intro y hy
      exact (one_le_future hy).trans le_sup_left
    · intro x a z hedge
      rcases hedge with hedge | ⟨hx, ha, hz⟩
      · rw [mul_add, ← mul_assoc, ← mul_assoc]
        exact add_le_add (letter_mul_future_le hedge)
          (mul_le_mul_left (mul_le_mul_left (letter_mul_future_le hedge) _) _)
      · -- a crossing: what follows is a number of round trips and the rest
        have hrest : future R ε F z + future R ε P z * (words R ε Q P)∗ * words R ε Q F ≤
            (words R ε Q P)∗ * words R ε Q F := by
          refine add_le ?_ ?_
          · calc future R ε F z
                ≤ words R ε Q F := future_le_words hz
              _ = 1 * words R ε Q F := (one_mul _).symm
              _ ≤ (words R ε Q P)∗ * words R ε Q F := mul_le_mul_left one_le_kstar _
          · refine mul_le_mul_left ?_ _
            exact (mul_le_mul_left (future_le_words hz) _).trans mul_kstar_le_kstar
        rw [ha, letter_silent, one_mul]
        refine hrest.trans (le_trans ?_ le_sup_right)
        calc (words R ε Q P)∗ * words R ε Q F
            = 1 * (words R ε Q P)∗ * words R ε Q F := by rw [one_mul]
          _ ≤ future R ε P x * (words R ε Q P)∗ * words R ε Q F :=
              mul_le_mul_left (mul_le_mul_left (one_le_future hx) _) _
  · have hlink : ∀ p q, P p → Q q → bridge R ε P Q p ε q :=
      fun p q hp hq => Or.inr ⟨hp, rfl, hq⟩
    have hloop : future (bridge R ε P Q) ε P x * words R ε Q P ≤
        future (bridge R ε P Q) ε P x :=
      (mul_le_mul_right (hwords P) _).trans (future_mul_words_le hlink x)
    refine add_le (hsub F x) ?_
    calc future R ε P x * (words R ε Q P)∗ * words R ε Q F
        ≤ future (bridge R ε P Q) ε P x * (words R ε Q P)∗ * words R ε Q F :=
          mul_le_mul_left (mul_le_mul_left (hsub P x) _) _
      _ ≤ future (bridge R ε P Q) ε P x * words R ε Q F :=
          mul_le_mul_left (mul_kstar_le_self hloop) _
      _ ≤ future (bridge R ε P Q) ε P x * words (bridge R ε P Q) ε Q F :=
          mul_le_mul_right (hwords F) _
      _ ≤ future (bridge R ε P Q) ε F x := future_mul_words_le hlink x

/-- With silent bridges from `P` to `Q` walks cross any number of times. -/
theorem words_bridge (A : σ → Prop) :
    words (bridge R ε P Q) ε A F =
      words R ε A F + words R ε A P * (words R ε Q P)∗ * words R ε Q F := by
  apply le_antisymm
  · refine words_le fun x hx => ?_
    rw [future_bridge]
    exact add_le_add (future_le_words hx)
      (mul_le_mul_left (mul_le_mul_left (future_le_words hx) _) _)
  · refine add_le ?_ ?_
    · exact words_le fun x hx => le_trans le_sup_left
        ((future_bridge P Q F x).symm.le.trans (future_le_words hx))
    · intro w hw
      obtain ⟨_, ⟨_, ⟨x, hx, hu⟩, _, hv, rfl⟩, _, ht, rfl⟩ := hw
      refine ⟨x, hx, ?_⟩
      rw [future_bridge]
      exact Or.inr ⟨_, ⟨_, hu, _, hv, rfl⟩, _, ht, rfl⟩

/-- New edges change nothing where no word leads to their sources. -/
theorem words_bridge_of_left {A : σ → Prop} (h : words R ε A P = 0) :
    words (bridge R ε P Q) ε A F = words R ε A F := by
  rw [words_bridge, h, zero_mul, zero_mul, add_zero]

/-- New edges change nothing where no word leads on from their targets. -/
theorem words_bridge_of_right {A : σ → Prop} (h : words R ε Q F = 0) :
    words (bridge R ε P Q) ε A F = words R ε A F := by
  rw [words_bridge, h, mul_zero, add_zero]

end Bridge

end LabelledGraph
