import FShell.Concepts.Cfa

/-!
# The algebra of target graphs

What a target graph stands for: a set of edges, a set of nodes with their end
points among them, and a set of initial nodes.  The operations are set
algebra, except that a difference keeps the end points of the edges it keeps.
`Cfa.value` leads from the stored representation to these graphs and respects
every operation.
-/

namespace FShell

/-- A graph with initial nodes. -/
@[ext]
structure GraphValue (ν : Type) where
  edges : Set (ν × ν)
  nodes : Set ν
  initial : Set ν
  ends_subset : ∀ e ∈ edges, e.1 ∈ nodes ∧ e.2 ∈ nodes

namespace GraphValue

variable {ν : Type}

/-- The end points of edges. -/
def ends (edges : Set (ν × ν)) : Set ν := {n | ∃ e ∈ edges, n = e.1 ∨ n = e.2}

def union (a b : GraphValue ν) : GraphValue ν where
  edges := a.edges ∪ b.edges
  nodes := a.nodes ∪ b.nodes
  initial := a.initial ∪ b.initial
  ends_subset := by
    intro e he
    exact he.elim (fun h => ⟨Or.inl (a.ends_subset e h).1, Or.inl (a.ends_subset e h).2⟩)
      fun h => ⟨Or.inr (b.ends_subset e h).1, Or.inr (b.ends_subset e h).2⟩

def intersection (a b : GraphValue ν) : GraphValue ν where
  edges := a.edges ∩ b.edges
  nodes := a.nodes ∩ b.nodes
  initial := a.initial ∩ b.initial
  ends_subset := by
    intro e he
    have hA := a.ends_subset e he.1
    have hB := b.ends_subset e he.2
    exact ⟨⟨hA.1, hB.1⟩, hA.2, hB.2⟩

def subtract (a b : GraphValue ν) : GraphValue ν where
  edges := a.edges \ b.edges
  nodes := (a.nodes \ b.nodes) ∪ ends (a.edges \ b.edges)
  initial := a.initial ∩ (a.nodes \ b.nodes)
  ends_subset := by
    intro e he
    exact ⟨Or.inr ⟨e, he, Or.inl rfl⟩, Or.inr ⟨e, he, Or.inr rfl⟩⟩

/-- The intersection, with all its nodes that are initial in the first graph. -/
def compose (a b : GraphValue ν) : GraphValue ν where
  edges := a.edges ∩ b.edges
  nodes := a.nodes ∩ b.nodes
  initial := a.initial ∩ (a.nodes ∩ b.nodes)
  ends_subset := (a.intersection b).ends_subset

end GraphValue

namespace Cfa

variable {ν : Type} [LinearOrder ν] {a b : Cfa ν}

/-- The operations are set algebra on the edges, on all nodes and on the
initial nodes, and keep the class invariant. -/
structure SetAlgebra (a b : Cfa ν) : Prop where
  union_edges : ∀ e, e ∈ (a.setunion b).edges ↔ e ∈ a.edges ∨ e ∈ b.edges
  union_nodes : ∀ n, n ∈ (a.setunion b).getL ↔ n ∈ a.getL ∨ n ∈ b.getL
  union_initial : ∀ n, n ∈ (a.setunion b).initial ↔ n ∈ a.initial ∨ n ∈ b.initial
  union_invariance : (a.setunion b).ClassInvariance
  intersection_edges : ∀ e, e ∈ (a.setintersection b).edges ↔ e ∈ a.edges ∧ e ∈ b.edges
  intersection_nodes : ∀ n, n ∈ (a.setintersection b).getL ↔ n ∈ a.getL ∧ n ∈ b.getL
  intersection_initial : ∀ n, n ∈ (a.setintersection b).initial ↔ n ∈ a.initial ∧ n ∈ b.initial
  intersection_invariance : (a.setintersection b).ClassInvariance
  subtract_edges : ∀ e, e ∈ (a.setsubtract b).edges ↔ e ∈ a.edges ∧ e ∉ b.edges
  subtract_nodes : ∀ n, n ∈ (a.setsubtract b).getL ↔
    (n ∈ a.getL ∧ n ∉ b.getL) ∨ ∃ e, (e ∈ a.edges ∧ e ∉ b.edges) ∧ (n = source e ∨ n = target e)
  subtract_initial : ∀ n, n ∈ (a.setsubtract b).initial ↔
    n ∈ a.initial ∧ n ∈ a.getL ∧ n ∉ b.getL
  subtract_invariance : (a.setsubtract b).ClassInvariance

/-- Where the class invariant holds, the three operations are set algebra. -/
theorem ClassInvariance.setAlgebra (ha : a.ClassInvariance) (hb : b.ClassInvariance) :
    SetAlgebra a b where
  union_edges := mem_setunion_edges
  union_nodes := mem_setunion_getL
  union_initial := mem_setunion_initial
  union_invariance := setunion_invariance ha hb
  intersection_edges := mem_setintersection_edges
  intersection_nodes := mem_setintersection_getL
  intersection_initial := mem_setintersection_initial
  intersection_invariance := setintersection_invariance ha hb
  subtract_edges := mem_setsubtract_edges
  subtract_nodes := mem_setsubtract_getL
  subtract_initial := mem_setsubtract_initial
  subtract_invariance := setsubtract_invariance a b

/-- What a stored graph stands for. -/
def value (a : Cfa ν) : GraphValue ν where
  edges := {e | toLex e ∈ a.edges}
  nodes := {n | n ∈ a.getL}
  initial := {n | n ∈ a.initial}
  ends_subset := by
    intro e he
    exact ⟨(mem_getL a _).mpr (Or.inr ⟨_, he, Or.inl rfl⟩),
      (mem_getL a _).mpr (Or.inr ⟨_, he, Or.inr rfl⟩)⟩

/-- `setunion` is the union of what the graphs stand for. -/
theorem setunion_value (a b : Cfa ν) : (a.setunion b).value = a.value.union b.value := by
  ext n
  · exact mem_setunion_edges _
  · exact mem_setunion_getL n
  · exact mem_setunion_initial n

/-- `setintersection` is the intersection of what they stand for. -/
theorem setintersection_value (a b : Cfa ν) :
    (a.setintersection b).value = a.value.intersection b.value := by
  ext n
  · exact mem_setintersection_edges _
  · exact mem_setintersection_getL n
  · exact mem_setintersection_initial n

/-- `setsubtract` is the difference of what they stand for. -/
theorem setsubtract_value (a b : Cfa ν) :
    (a.setsubtract b).value = a.value.subtract b.value := by
  ext n
  · exact mem_setsubtract_edges _
  · refine (mem_setsubtract_getL n).trans (or_congr_right ?_)
    exact toLex.surjective.exists
  · exact mem_setsubtract_initial n

end Cfa

end FShell
