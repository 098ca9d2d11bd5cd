import FShell.Collections.SortedSet
import FShell.Concepts.TargetGraph

/-!
# Set operations on target graphs

`fql/concepts/cfa.cpp` keeps three ordered sets: the edges, the nodes that no
edge touches, and the initial nodes.  The set of all nodes is not stored.  An
operation therefore starts from all nodes of its operands and in the end
takes out those that an edge touches.

The operations denote set algebra on edges, on all nodes and on initial nodes
(`setunion_spec`, `setintersection_spec`, `setsubtract_spec`).
-/

namespace FShell

/-- `CFA` as it is stored, over any ordered type of nodes. -/
structure Cfa (ν : Type) [LinearOrder ν] where
  disconnectedNodes : SortedSet ν
  edges : SortedSet (ν ×ₗ ν)
  initial : SortedSet ν
  deriving DecidableEq

namespace Cfa

variable {ν : Type} [LinearOrder ν]

/-- The constructor `CFA()`. -/
def empty : Cfa ν := ⟨SortedSet.empty, SortedSet.empty, SortedSet.empty⟩

/-- `iter->first` of an edge. -/
def source (e : ν ×ₗ ν) : ν := (ofLex e).1

/-- `iter->second` of an edge. -/
def target (e : ν ×ₗ ν) : ν := (ofLex e).2

/-- The node is an end point of an edge. -/
def Touched (a : Cfa ν) (n : ν) : Prop := ∃ e ∈ a.edges, n = source e ∨ n = target e

/-- `m_class_invariance()`. -/
structure ClassInvariance (a : Cfa ν) : Prop where
  disconnected : ∀ n ∈ a.disconnectedNodes, ¬ a.Touched n
  initial : ∀ n ∈ a.initial, n ∈ a.disconnectedNodes ∨ a.Touched n

/-- `get_L()`. -/
def getL (a : Cfa ν) : SortedSet ν :=
  a.edges.toList.foldl (fun allNodes e => (allNodes.insert (source e)).insert (target e))
    a.disconnectedNodes

/-- The loops at the end of the operations. -/
def removeConnected (a : Cfa ν) : Cfa ν :=
  { a with
    disconnectedNodes := a.edges.toList.foldl
      (fun nodes e => (nodes.erase (source e)).erase (target e)) a.disconnectedNodes }

def setunion (a other : Cfa ν) : Cfa ν :=
  removeConnected
    { disconnectedNodes := a.disconnectedNodes.insertAll other.disconnectedNodes.toList
      edges := a.edges.insertAll other.edges.toList
      initial := a.initial.insertAll other.initial.toList }

def setintersection (a other : Cfa ν) : Cfa ν :=
  removeConnected
    { disconnectedNodes := a.getL.inter other.getL
      edges := a.edges.inter other.edges
      initial := a.initial.inter other.initial }

def setsubtract (a other : Cfa ν) : Cfa ν :=
  let nodes := a.getL.diff other.getL
  removeConnected
    { disconnectedNodes := nodes
      edges := a.edges.diff other.edges
      -- limit initial states to L
      initial := nodes.inter a.initial }

/-! ## All nodes -/

/-- The nodes: disconnected ones and ends of edges. -/
theorem mem_getL (a : Cfa ν) (n : ν) :
    n ∈ a.getL ↔ n ∈ a.disconnectedNodes ∨ a.Touched n := by
  have hfold : ∀ (es : List (ν ×ₗ ν)) (nodes : SortedSet ν),
      n ∈ es.foldl (fun allNodes e => (allNodes.insert (source e)).insert (target e)) nodes ↔
        n ∈ nodes ∨ ∃ e ∈ es, n = source e ∨ n = target e := by
    intro es
    induction es with
    | nil => simp
    | cons e es ih =>
        intro nodes
        rw [List.foldl_cons, ih, List.exists_mem_cons_iff, SortedSet.mem_insert,
          SortedSet.mem_insert]
        grind
  exact hfold a.edges.toList a.disconnectedNodes

/-- Disconnected nodes are those that no edge touches. -/
theorem mem_removeConnected_disconnectedNodes (a : Cfa ν) (n : ν) :
    n ∈ a.removeConnected.disconnectedNodes ↔ n ∈ a.disconnectedNodes ∧ ¬ a.Touched n := by
  have hfold : ∀ (es : List (ν ×ₗ ν)) (nodes : SortedSet ν),
      n ∈ es.foldl (fun nodes e => (nodes.erase (source e)).erase (target e)) nodes ↔
        n ∈ nodes ∧ ¬ ∃ e ∈ es, n = source e ∨ n = target e := by
    intro es
    induction es with
    | nil => simp
    | cons e es ih =>
        intro nodes
        rw [List.foldl_cons, ih, List.exists_mem_cons_iff, SortedSet.mem_erase,
          SortedSet.mem_erase]
        grind
  exact hfold a.edges.toList a.disconnectedNodes

/-- Moving the nodes between the two representations loses none. -/
theorem mem_removeConnected_getL (a : Cfa ν) (n : ν) : n ∈ a.removeConnected.getL ↔ n ∈ a.getL := by
  rw [mem_getL, mem_getL, mem_removeConnected_disconnectedNodes]
  have htouched : a.removeConnected.Touched n ↔ a.Touched n := Iff.rfl
  rw [htouched]
  tauto

/-- Without connected ones among the disconnected nodes the invariant holds. -/
theorem removeConnected_invariance {a : Cfa ν} (h : ∀ n ∈ a.initial, n ∈ a.getL) :
    a.removeConnected.ClassInvariance where
  disconnected := fun n hn => ((mem_removeConnected_disconnectedNodes a n).mp hn).2
  initial := fun n hn =>
    (mem_getL _ n).mp ((mem_removeConnected_getL a n).mpr (h n hn))

/-- Initial nodes are nodes. -/
theorem ClassInvariance.initial_mem_getL {a : Cfa ν} (h : a.ClassInvariance) {n : ν}
    (hn : n ∈ a.initial) : n ∈ a.getL := (mem_getL a n).mpr (h.initial n hn)

/-- The empty graph keeps the invariant. -/
theorem empty_invariance : (empty : Cfa ν).ClassInvariance where
  disconnected := fun _ hn => absurd hn SortedSet.notMem_empty
  initial := fun _ hn => absurd hn SortedSet.notMem_empty

/-! ## The operations -/

variable {a b : Cfa ν}

/-- The edges of the union. -/
theorem mem_setunion_edges (e : ν ×ₗ ν) :
    e ∈ (a.setunion b).edges ↔ e ∈ a.edges ∨ e ∈ b.edges := by
  simp only [setunion, removeConnected, SortedSet.mem_insertAll, SortedSet.mem_toList]
  exact or_comm

/-- The initial nodes of the union. -/
theorem mem_setunion_initial (n : ν) :
    n ∈ (a.setunion b).initial ↔ n ∈ a.initial ∨ n ∈ b.initial := by
  simp only [setunion, removeConnected, SortedSet.mem_insertAll, SortedSet.mem_toList]
  exact or_comm

/-- The nodes of the union. -/
theorem mem_setunion_getL (n : ν) :
    n ∈ (a.setunion b).getL ↔ n ∈ a.getL ∨ n ∈ b.getL := by
  have htouched : (a.setunion b).Touched n ↔ a.Touched n ∨ b.Touched n := by
    unfold Touched
    simp only [mem_setunion_edges]
    grind
  rw [setunion, mem_removeConnected_getL, mem_getL, mem_getL, mem_getL]
  have hsame : Touched
      { disconnectedNodes := a.disconnectedNodes.insertAll b.disconnectedNodes.toList
        edges := a.edges.insertAll b.edges.toList
        initial := a.initial.insertAll b.initial.toList } n ↔ (a.setunion b).Touched n := Iff.rfl
  rw [hsame, htouched, SortedSet.mem_insertAll, SortedSet.mem_toList]
  tauto

/-- **Union.** -/
theorem setunion_invariance (ha : a.ClassInvariance) (hb : b.ClassInvariance) :
    (a.setunion b).ClassInvariance := by
  apply removeConnected_invariance
  intro n hn
  rw [← mem_removeConnected_getL]
  refine (mem_setunion_getL n).mpr ?_
  exact ((mem_setunion_initial n).mp hn).imp ha.initial_mem_getL hb.initial_mem_getL

/-- The edges of the intersection. -/
theorem mem_setintersection_edges (e : ν ×ₗ ν) :
    e ∈ (a.setintersection b).edges ↔ e ∈ a.edges ∧ e ∈ b.edges := SortedSet.mem_inter

/-- The initial nodes of the intersection. -/
theorem mem_setintersection_initial (n : ν) :
    n ∈ (a.setintersection b).initial ↔ n ∈ a.initial ∧ n ∈ b.initial := SortedSet.mem_inter

/-- The nodes of the intersection. -/
theorem mem_setintersection_getL (n : ν) :
    n ∈ (a.setintersection b).getL ↔ n ∈ a.getL ∧ n ∈ b.getL := by
  rw [setintersection, mem_removeConnected_getL, mem_getL]
  refine or_iff_left_of_imp ?_ |>.trans SortedSet.mem_inter
  -- an edge of both graphs has its ends in both
  intro htouched
  obtain ⟨e, he, hn⟩ := htouched
  have he' := SortedSet.mem_inter.mp he
  exact SortedSet.mem_inter.mpr
    ⟨(mem_getL a n).mpr (Or.inr ⟨e, he'.1, hn⟩), (mem_getL b n).mpr (Or.inr ⟨e, he'.2, hn⟩)⟩

/-- **Intersection.** -/
theorem setintersection_invariance (ha : a.ClassInvariance) (hb : b.ClassInvariance) :
    (a.setintersection b).ClassInvariance := by
  apply removeConnected_invariance
  intro n hn
  rw [← mem_removeConnected_getL]
  refine (mem_setintersection_getL n).mpr ?_
  exact ((mem_setintersection_initial n).mp hn).imp ha.initial_mem_getL hb.initial_mem_getL

/-- The edges of the difference. -/
theorem mem_setsubtract_edges (e : ν ×ₗ ν) :
    e ∈ (a.setsubtract b).edges ↔ e ∈ a.edges ∧ e ∉ b.edges := SortedSet.mem_diff

/-- The initial nodes of the difference. -/
theorem mem_setsubtract_initial (n : ν) :
    n ∈ (a.setsubtract b).initial ↔ n ∈ a.initial ∧ n ∈ a.getL ∧ n ∉ b.getL := by
  refine SortedSet.mem_inter.trans ?_
  rw [SortedSet.mem_diff]
  exact and_comm

/-- The ends of an edge that stays are kept, also when they are nodes of the
subtracted graph. -/
theorem mem_setsubtract_getL (n : ν) :
    n ∈ (a.setsubtract b).getL ↔
      (n ∈ a.getL ∧ n ∉ b.getL) ∨
        ∃ e, (e ∈ a.edges ∧ e ∉ b.edges) ∧ (n = source e ∨ n = target e) := by
  rw [setsubtract, mem_removeConnected_getL, mem_getL]
  refine or_congr SortedSet.mem_diff ?_
  unfold Touched
  simp only [SortedSet.mem_diff]

/-- **Difference.** -/
theorem setsubtract_invariance (a b : Cfa ν) : (a.setsubtract b).ClassInvariance := by
  apply removeConnected_invariance
  intro n hn
  exact (mem_getL _ n).mpr (Or.inl (SortedSet.mem_inter.mp hn).1)

end Cfa

end FShell
