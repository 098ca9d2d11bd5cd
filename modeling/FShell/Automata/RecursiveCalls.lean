import Mathlib

/-!
# Recursive calls

A recursion is given by the finitely many calls below each call.  It returns
if and only if the calls are well founded below the first one, and then some
bound on the depth is enough.

In a graph a node that can be reached is reached without coming to any node
twice.
-/

namespace FShell

open Relation

/-! ## The depth of a recursion -/

section Calls

variable {σ : Type*} {calls : σ → List σ} {fuel : Nat} {c : σ}

/-- At most `fuel` calls are below each other. -/
def ReturnsWithin (calls : σ → List σ) : Nat → σ → Prop
  | 0, _ => False
  | fuel + 1, c => ∀ c' ∈ calls c, ReturnsWithin calls fuel c'

theorem ReturnsWithin.mono (h : ReturnsWithin calls fuel c) :
    ∀ {more}, fuel ≤ more → ReturnsWithin calls more c := by
  induction fuel generalizing c with
  | zero => exact h.elim
  | succ fuel ih =>
      intro more hle
      obtain ⟨more, rfl⟩ : ∃ m, more = m + 1 := ⟨more - 1, by omega⟩
      intro c' hc'
      exact ih (h c' hc') (by omega)

/-- One bound for finitely many calls. -/
theorem exists_common_bound {l : List σ} (h : ∀ c ∈ l, ∃ fuel, ReturnsWithin calls fuel c) :
    ∃ fuel, ∀ c ∈ l, ReturnsWithin calls fuel c := by
  induction l with
  | nil => exact ⟨0, fun c hc => absurd hc List.not_mem_nil⟩
  | cons c l ih =>
      obtain ⟨n, hn⟩ := h c List.mem_cons_self
      obtain ⟨m, hm⟩ := ih fun c hc => h c (List.mem_cons_of_mem _ hc)
      refine ⟨max n m, ?_⟩
      intro c' hc'
      rcases List.mem_cons.mp hc' with rfl | hold
      · exact hn.mono (by omega)
      · exact (hm c' hold).mono (by omega)

theorem ReturnsWithin.acc (h : ReturnsWithin calls fuel c) : Acc (fun c' c => c' ∈ calls c) c := by
  induction fuel generalizing c with
  | zero => exact h.elim
  | succ fuel ih => exact Acc.intro c fun c' hc' => ih (h c' hc')

/-- With finitely many calls below each, well-founded recursions have a depth. -/
theorem exists_returnsWithin_iff :
    (∃ fuel, ReturnsWithin calls fuel c) ↔ Acc (fun c' c => c' ∈ calls c) c := by
  refine ⟨fun ⟨_, h⟩ => h.acc, ?_⟩
  intro h
  induction h with
  | intro c _ ih =>
      obtain ⟨fuel, hfuel⟩ := exists_common_bound ih
      exact ⟨fuel + 1, hfuel⟩

end Calls

/-! ## Loops that may not run through -/

/-- A loop over `Option` runs through if every iteration does, whatever the
accumulator. -/
theorem isSome_foldlM_iff {α β : Type*} {f : β → α → Option β} {p : α → Prop} {l : List α}
    (h : ∀ b, ∀ a ∈ l, (f b a).isSome ↔ p a) (b : β) :
    (l.foldlM f b).isSome ↔ ∀ a ∈ l, p a := by
  induction l generalizing b with
  | nil => simp
  | cons a l ih =>
      have hhead := h b a List.mem_cons_self
      rw [List.foldlM_cons, List.forall_mem_cons, ← hhead]
      cases hf : f b a with
      | none => simp
      | some b' =>
          have htail := ih (fun b a ha => h b a (List.mem_cons_of_mem _ ha)) b'
          simpa using htail

/-- A loop that runs through is the loop without `Option`. -/
theorem foldl_eq_of_foldlM {α β : Type*} {f : β → α → Option β} {g : β → α → β}
    (h : ∀ b a b', f b a = some b' → g b a = b') {l : List α} {b b' : β}
    (hrun : l.foldlM f b = some b') : l.foldl g b = b' := by
  induction l generalizing b with
  | nil => exact Option.some.inj hrun
  | cons a l ih =>
      rw [List.foldlM_cons] at hrun
      obtain ⟨c, hc, hrest⟩ := Option.bind_eq_some_iff.mp hrun
      rw [List.foldl_cons, h b a c hc]
      exact ih hrest

/-- What every iteration keeps holds after the loop. -/
theorem foldlM_induction {α β : Type*} {f : β → α → Option β} {l : List α} {b b' : β}
    (p : β → Prop) (hb : p b) (hstep : ∀ c, ∀ a ∈ l, ∀ c', p c → f c a = some c' → p c')
    (hrun : l.foldlM f b = some b') : p b' := by
  induction l generalizing b with
  | nil => exact Option.some.inj hrun ▸ hb
  | cons a l ih =>
      rw [List.foldlM_cons] at hrun
      obtain ⟨c, hc, hrest⟩ := Option.bind_eq_some_iff.mp hrun
      exact ih (hstep b a List.mem_cons_self c hb hc)
        (fun c a ha => hstep c a (List.mem_cons_of_mem _ ha)) hrest

/-- The iteration of an element, with what happens before and after it. -/
theorem exists_iteration {α β : Type*} {f : β → α → Option β} {l : List α} {b b' : β} {a : α}
    (R : β → β → Prop) (hrefl : ∀ c, R c c) (htrans : ∀ c d e, R c d → R d e → R c e)
    (hstep : ∀ c, ∀ a ∈ l, ∀ c', f c a = some c' → R c c')
    (hrun : l.foldlM f b = some b') (ha : a ∈ l) :
    ∃ c c', R b c ∧ f c a = some c' ∧ R c' b' := by
  induction l generalizing b with
  | nil => exact absurd ha List.not_mem_nil
  | cons x l ih =>
      rw [List.foldlM_cons] at hrun
      obtain ⟨d, hd, hrest⟩ := Option.bind_eq_some_iff.mp hrun
      have hlater : ∀ c, ∀ a ∈ l, ∀ c', f c a = some c' → R c c' :=
        fun c a ha => hstep c a (List.mem_cons_of_mem _ ha)
      rcases List.mem_cons.mp ha with rfl | htail
      · exact ⟨b, d, hrefl b, hd,
          foldlM_induction (R d) (hrefl d) (fun c a ha c' hc hf => htrans d c c' hc (hlater c a ha c' hf))
            hrest⟩
      · obtain ⟨c, c', hbefore, hf, hafter⟩ := ih hlater hrest htail
        exact ⟨c, c', htrans b d c (hstep b x List.mem_cons_self d hd) hbefore, hf, hafter⟩

/-! ## Simple paths -/

section SimplePath

variable {ν : Type*} {R : ν → ν → Prop} {a b : ν}

/-- A path that comes to no node twice. -/
theorem exists_simple_path (h : ReflTransGen R a b) :
    ∃ l, (a :: l).IsChain R ∧ (a :: l).Nodup ∧ (a :: l).getLast? = some b := by
  induction h using ReflTransGen.head_induction_on with
  | refl => exact ⟨[], .singleton b, List.nodup_singleton b, rfl⟩
  | @head a c hac _ ih =>
      obtain ⟨l, hchain, hnodup, hb⟩ := ih
      by_cases ha : a ∈ c :: l
      · -- the path comes back to its first node: leave the detour out
        obtain ⟨before, after, hsplit⟩ := List.append_of_mem ha
        rw [hsplit] at hchain hnodup hb
        rw [List.getLast?_append_cons] at hb
        exact ⟨after, hchain.right_of_append, hnodup.of_append_right, hb⟩
      · exact ⟨c :: l, List.isChain_cons_cons.mpr ⟨hac, hchain⟩, List.nodup_cons.mpr ⟨ha, hnodup⟩,
          by rw [List.getLast?_cons_cons, hb]⟩

end SimplePath

end FShell
