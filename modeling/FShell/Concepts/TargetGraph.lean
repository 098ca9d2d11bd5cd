import FShell.Concepts.TraceAutomaton

/-!
# Target graphs and their numbers

A target graph (`fql/concepts/cfa.cpp`) is a set of edges between program
locations, a set of further locations that no edge touches, and a set of
initial locations.  `Target_Graph_Index` numbers target graphs in the order
in which they turn up; the numbers are the labels of trace automata.
-/

namespace FShell

/-- `CFA`, over any type of program locations. -/
structure TargetGraph (ν : Type) where
  disconnectedNodes : List ν
  edges : List (ν × ν)
  initial : List ν
  deriving DecidableEq

/-- `m_class_invariance()`. -/
structure TargetGraph.ClassInvariance {ν : Type} (g : TargetGraph ν) : Prop where
  disconnected : ∀ e ∈ g.edges, e.1 ∉ g.disconnectedNodes ∧ e.2 ∉ g.disconnectedNodes
  initial : ∀ n ∈ g.initial, n ∈ g.disconnectedNodes ∨ ∃ e ∈ g.edges, n = e.1 ∨ n = e.2

namespace TargetGraph

variable {ν : Type} [DecidableEq ν]

/-- `get_L()`: all locations, the ends of edges included. -/
def getL (g : TargetGraph ν) : List ν :=
  g.edges.foldl (fun allNodes e => (allNodes.insert e.1).insert e.2) g.disconnectedNodes

theorem mem_getL (g : TargetGraph ν) (n : ν) :
    n ∈ g.getL ↔ n ∈ g.disconnectedNodes ∨ ∃ e ∈ g.edges, n = e.1 ∨ n = e.2 := by
  have hfold : ∀ (es : List (ν × ν)) (ns : List ν),
      n ∈ es.foldl (fun allNodes e => (allNodes.insert e.1).insert e.2) ns ↔
        n ∈ ns ∨ ∃ e ∈ es, n = e.1 ∨ n = e.2 := by
    intro es
    induction es with
    | nil => simp
    | cons e es ih =>
        intro ns
        rw [List.foldl_cons, ih, List.exists_mem_cons_iff, List.mem_insert_iff,
          List.mem_insert_iff]
        grind
  exact hfold g.edges g.disconnectedNodes

end TargetGraph

/-- `Target_Graph_Index` over pointers `ρ` to target graphs: the pointer at
position `i` has number `i`. -/
structure TargetGraphIndex (ρ : Type) where
  refs : List ρ
  refs_nodup : refs.Nodup

namespace TargetGraphIndex

variable {ρ : Type} [DecidableEq ρ]

/-- After `clear()`. -/
def empty : TargetGraphIndex ρ := ⟨[], List.nodup_nil⟩

/-- `to_index(f)`: the number of `f`, a new one on first sight. -/
def toIndex (index : TargetGraphIndex ρ) (f : ρ) : Int × TargetGraphIndex ρ :=
  if h : f ∈ index.refs then (index.refs.idxOf f, index)
  else (index.refs.length, ⟨index.refs ++ [f], List.nodup_append.mpr
    ⟨index.refs_nodup, List.nodup_singleton f, by
      intro a ha b hb heq
      exact h (List.mem_singleton.mp hb ▸ heq ▸ ha)⟩⟩)

/-- `lookup_index(index)`. -/
def lookupIndex (index : TargetGraphIndex ρ) (i : Int) : Option ρ :=
  if i < 0 then none else index.refs[i.toNat]?

variable (index : TargetGraphIndex ρ) (f : ρ)

theorem toIndex_nonneg : 0 ≤ (index.toIndex f).1 := by
  unfold toIndex
  split
  · exact Int.natCast_nonneg _
  · exact Int.natCast_nonneg _

theorem toIndex_ne_epsilon : (index.toIndex f).1 ≠ epsilon := by
  have hpos := index.toIndex_nonneg f
  unfold epsilon
  omega

/-- The number leads back to the graph. -/
theorem lookupIndex_toIndex :
    (index.toIndex f).2.lookupIndex (index.toIndex f).1 = some f := by
  unfold toIndex lookupIndex
  split
  next h =>
      have hlt : index.refs.idxOf f < index.refs.length := List.idxOf_lt_length_iff.mpr h
      have hpos : ¬ ((index.refs.idxOf f : Nat) : Int) < 0 := by omega
      simp only [hpos, if_false, Int.toNat_natCast]
      rw [List.getElem?_eq_getElem hlt, List.getElem_idxOf hlt]
  next h =>
      have hpos : ¬ ((index.refs.length : Nat) : Int) < 0 := by omega
      simp only [hpos, if_false, Int.toNat_natCast]
      simp

/-- Numbers keep their meaning when further graphs turn up. -/
theorem lookupIndex_of_toIndex {i : Int} {g : ρ} (h : index.lookupIndex i = some g) :
    (index.toIndex f).2.lookupIndex i = some g := by
  unfold toIndex
  split
  · exact h
  · unfold lookupIndex at h ⊢
    split
    next hneg => simp [hneg] at h
    next hneg =>
        simp only [hneg, if_false] at h
        obtain ⟨hlt, _⟩ := List.getElem?_eq_some_iff.mp h
        rw [List.getElem?_append_left hlt]
        exact h

/-- Only the number of `f` is new. -/
theorem lookupIndex_toIndex_cases {i : Int} {g : ρ}
    (h : (index.toIndex f).2.lookupIndex i = some g) : g = f ∨ index.lookupIndex i = some g := by
  unfold toIndex at h
  split at h
  · exact Or.inr h
  · unfold lookupIndex at h ⊢
    by_cases hneg : i < 0
    · simp [hneg] at h
    · simp only [hneg, if_false] at h ⊢
      rw [List.getElem?_append] at h
      split at h
      · exact Or.inr h
      · exact Or.inl (List.mem_singleton.mp (List.mem_of_getElem? h))

end TargetGraphIndex

end FShell
