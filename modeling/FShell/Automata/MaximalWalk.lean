import Mathlib

/-!
# Maximal walks

A walk through a graph goes on for as long as there is an edge to take.  To
visit everything reachable, walks need to take every edge of those nodes that
have a choice of edges: elsewhere they have none.
-/

namespace FShell

open Relation

variable {ν : Type*}

/-- A walk from a node that goes on while it can, maybe forever. -/
structure MaximalWalk (E : ν → ν → Prop) (start : ν) where
  node : Nat → Option ν
  node_zero : node 0 = some start
  node_succ : ∀ k a, node k = some a → (∃ b, E a b) → ∃ b, E a b ∧ node (k + 1) = some b
  node_stop : ∀ k a, node k = some a → (∀ b, ¬ E a b) → node (k + 1) = none
  node_none : ∀ k, node k = none → node (k + 1) = none

namespace MaximalWalk

variable {E : ν → ν → Prop} {start : ν}

/-- A path to a node that leads nowhere. -/
def ofPath (path : List ν) (hhead : path.head? = some start) (hchain : path.IsChain E)
    (hstop : ∀ a, path.getLast? = some a → ∀ b, ¬ E a b) : MaximalWalk E start where
  node k := path[k]?
  node_zero := by rw [← List.head?_eq_getElem?, hhead]
  node_succ k a ha hedge := by
    obtain ⟨hk, rfl⟩ := List.getElem?_eq_some_iff.mp ha
    by_cases hlast : k + 1 < path.length
    · exact ⟨path[k + 1], List.isChain_iff_getElem.mp hchain k hlast,
        List.getElem?_eq_getElem hlast⟩
    · obtain ⟨b, hb⟩ := hedge
      refine absurd hb (hstop _ ?_ b)
      rw [List.getLast?_eq_getElem?, show path.length - 1 = k by omega]
      exact ha
  node_stop k a ha hno := by
    by_contra hnext
    obtain ⟨b, hb⟩ := Option.ne_none_iff_exists'.mp hnext
    obtain ⟨hk, rfl⟩ := List.getElem?_eq_some_iff.mp ha
    obtain ⟨hk', rfl⟩ := List.getElem?_eq_some_iff.mp hb
    exact hno _ (List.isChain_iff_getElem.mp hchain k hk')
  node_none k hk := by
    rw [List.getElem?_eq_none_iff] at hk ⊢
    omega

/-- The walk comes to a node. -/
def Visits (w : MaximalWalk E start) (a : ν) : Prop := ∃ k, w.node k = some a

/-- The walk takes an edge. -/
def Takes (w : MaximalWalk E start) (a b : ν) : Prop :=
  ∃ k, w.node k = some a ∧ w.node (k + 1) = some b

theorem Takes.visits {w : MaximalWalk E start} {a b : ν} (h : w.Takes a b) : w.Visits b := by
  obtain ⟨k, _, hb⟩ := h
  exact ⟨k + 1, hb⟩

theorem visits_start (w : MaximalWalk E start) : w.Visits start := ⟨0, w.node_zero⟩

/-- **Covering choices.**  Where the walks take all edges of every reachable
node with two of them, they visit every reachable node. -/
theorem visits_of_reachable {W : Set (MaximalWalk E start)} (hW : W.Nonempty)
    (hchoice : ∀ a b c, ReflTransGen E start a → E a b → E a c → b ≠ c → ∃ w ∈ W, w.Takes a b)
    {a : ν} (ha : ReflTransGen E start a) : ∃ w ∈ W, w.Visits a := by
  induction ha with
  | refl =>
      obtain ⟨w, hw⟩ := hW
      exact ⟨w, hw, w.visits_start⟩
  | tail hreach hedge ih =>
      rename_i b c
      obtain ⟨w, hw, k, hk⟩ := ih
      obtain ⟨d, hd, hnext⟩ := w.node_succ k b hk ⟨c, hedge⟩
      by_cases hdc : d = c
      · exact ⟨w, hw, k + 1, hdc ▸ hnext⟩
      · obtain ⟨w', hw', htakes⟩ := hchoice b c d hreach hedge hd (Ne.symm hdc)
        exact ⟨w', hw', htakes.visits⟩

end MaximalWalk

end FShell
