import FShell.Ast.Filter
import FShell.Ast.Pattern

/-!
# Nodes

The nodes of an abstract syntax tree as their factories and `FQL_Node` see
them: of any kind, with the nodes that a node refers to.  An atom is one node,
be it used as a path pattern or as a coverage pattern.
-/

namespace FShell.Fql

deriving instance DecidableEq for CoveragePattern

/-- `Query` as it is parsed, with the filter of an `IN` clause. -/
structure ParsedQuery (P : Type) where
  scope : Option FilterExpr
  cover : CoveragePattern FilterExpr P
  passing : PathPattern FilterExpr P
  deriving DecidableEq

/-- `FQL_Node`. -/
inductive FqlNode (P : Type)
  | filterExpr (f : FilterExpr)
  | ecpAtom (a : EcpAtom FilterExpr P)
  | pathPattern (pp : PathPattern FilterExpr P)
  | coveragePattern (cp : CoveragePattern FilterExpr P)
  | query (q : ParsedQuery P)
  deriving DecidableEq

variable {P : Type}

/-- The node of a path pattern. -/
def pathNode : PathPattern FilterExpr P → FqlNode P
  | .atom a => .ecpAtom a
  | pp => .pathPattern pp

/-- The node of a coverage pattern. -/
def coverNode : CoveragePattern FilterExpr P → FqlNode P
  | .atom a => .ecpAtom a
  | cp => .coveragePattern cp

/-- The operands of a filter expression. -/
def filterOperands : FilterExpr → List FilterExpr
  | .filterFunction _ => []
  | .filterCompose a b => [a, b]
  | .filterIntersection a b => [a, b]
  | .filterSetminus a b => [a, b]
  | .filterUnion a b => [a, b]

/-- The nodes whose reference counts `create` increments. -/
def FqlNode.operands : FqlNode P → List (FqlNode P)
  | filterExpr f => (filterOperands f).map .filterExpr
  | ecpAtom (.edgecov f) => [.filterExpr f]
  | ecpAtom (.nodecov f) => [.filterExpr f]
  | ecpAtom (.pathcov f _) => [.filterExpr f]
  | ecpAtom (.predicate _) => []
  | pathPattern (.atom a) => [.ecpAtom a]
  | pathPattern (.ppAlternative a b) => [pathNode a, pathNode b]
  | pathPattern (.ppConcat a b) => [pathNode a, pathNode b]
  | pathPattern (.repetition pp _ _) => [pathNode pp]
  | coveragePattern (.atom a) => [.ecpAtom a]
  | coveragePattern (.quote pp) => [pathNode pp]
  | coveragePattern (.cpAlternative a b) => [coverNode a, coverNode b]
  | coveragePattern (.cpConcat a b) => [coverNode a, coverNode b]
  | query q => q.scope.toList.map .filterExpr ++ [coverNode q.cover, pathNode q.passing]

/-- The nodes in a filter expression. -/
def filterSize : FilterExpr → Nat
  | .filterFunction _ => 1
  | .filterCompose a b => filterSize a + filterSize b + 1
  | .filterIntersection a b => filterSize a + filterSize b + 1
  | .filterSetminus a b => filterSize a + filterSize b + 1
  | .filterUnion a b => filterSize a + filterSize b + 1

/-- The nodes in an atom. -/
def atomSize : EcpAtom FilterExpr P → Nat
  | .edgecov f => filterSize f + 1
  | .nodecov f => filterSize f + 1
  | .pathcov f _ => filterSize f + 1
  | .predicate _ => 1

/-- The nodes in a path pattern, an atom counted once more. -/
def pathSize : PathPattern FilterExpr P → Nat
  | .atom a => atomSize a + 1
  | .ppAlternative a b => pathSize a + pathSize b + 1
  | .ppConcat a b => pathSize a + pathSize b + 1
  | .repetition pp _ _ => pathSize pp + 1

/-- The nodes in a coverage pattern, an atom counted once more. -/
def coverSize : CoveragePattern FilterExpr P → Nat
  | .atom a => atomSize a + 1
  | .quote pp => pathSize pp + 1
  | .cpAlternative a b => coverSize a + coverSize b + 1
  | .cpConcat a b => coverSize a + coverSize b + 1

/-- The size of a node. -/
def FqlNode.size : FqlNode P → Nat
  | filterExpr f => filterSize f
  | ecpAtom a => atomSize a
  | pathPattern pp => pathSize pp
  | coveragePattern cp => coverSize cp
  | query q => (q.scope.map filterSize).getD 0 + coverSize q.cover + pathSize q.passing + 1

theorem size_pathNode (pp : PathPattern FilterExpr P) : (pathNode pp).size ≤ pathSize pp := by
  cases pp with
  | atom a => exact Nat.le_succ _
  | ppAlternative ppA ppB => exact le_rfl
  | ppConcat ppA ppB => exact le_rfl
  | repetition pp lower upper => exact le_rfl

theorem size_coverNode (cp : CoveragePattern FilterExpr P) : (coverNode cp).size ≤ coverSize cp := by
  cases cp with
  | atom a => exact Nat.le_succ _
  | quote pp => exact le_rfl
  | cpAlternative cpA cpB => exact le_rfl
  | cpConcat cpA cpB => exact le_rfl

theorem filterSize_lt {f g : FilterExpr} (h : g ∈ filterOperands f) :
    filterSize g < filterSize f := by
  cases f with
  | filterFunction f => cases h
  | filterCompose a b => rcases List.mem_pair.mp h with rfl | rfl <;> simp only [filterSize] <;> omega
  | filterIntersection a b =>
      rcases List.mem_pair.mp h with rfl | rfl <;> simp only [filterSize] <;> omega
  | filterSetminus a b => rcases List.mem_pair.mp h with rfl | rfl <;> simp only [filterSize] <;> omega
  | filterUnion a b => rcases List.mem_pair.mp h with rfl | rfl <;> simp only [filterSize] <;> omega

theorem size_lt_of_mem_pathOperands {m : FqlNode P} {pp : PathPattern FilterExpr P}
    (h : m ∈ (FqlNode.pathPattern pp).operands) : m.size < pathSize pp := by
  cases pp with
  | atom a =>
      rw [List.mem_singleton.mp h]
      exact Nat.lt_succ_self _
  | ppAlternative a b =>
      have ha := size_pathNode a
      have hb := size_pathNode b
      rcases List.mem_pair.mp h with rfl | rfl <;> simp only [pathSize] <;> omega
  | ppConcat a b =>
      have ha := size_pathNode a
      have hb := size_pathNode b
      rcases List.mem_pair.mp h with rfl | rfl <;> simp only [pathSize] <;> omega
  | repetition pp lower upper =>
      have hp := size_pathNode pp
      rw [List.mem_singleton.mp h]
      exact Nat.lt_succ_of_le hp

theorem size_lt_of_mem_coverOperands {m : FqlNode P} {cp : CoveragePattern FilterExpr P}
    (h : m ∈ (FqlNode.coveragePattern cp).operands) : m.size < coverSize cp := by
  cases cp with
  | atom a =>
      rw [List.mem_singleton.mp h]
      exact Nat.lt_succ_self _
  | quote pp =>
      have hp := size_pathNode pp
      rw [List.mem_singleton.mp h]
      exact Nat.lt_succ_of_le hp
  | cpAlternative a b =>
      have ha := size_coverNode a
      have hb := size_coverNode b
      rcases List.mem_pair.mp h with rfl | rfl <;> simp only [coverSize] <;> omega
  | cpConcat a b =>
      have ha := size_coverNode a
      have hb := size_coverNode b
      rcases List.mem_pair.mp h with rfl | rfl <;> simp only [coverSize] <;> omega

/-- Operands are smaller. -/
theorem size_lt_of_mem_operands {m n : FqlNode P} (h : m ∈ n.operands) : m.size < n.size := by
  cases n with
  | filterExpr f =>
      obtain ⟨g, hg, rfl⟩ := List.mem_map.mp h
      exact filterSize_lt hg
  | ecpAtom a =>
      cases a with
      | predicate p => cases h
      | edgecov f => rw [List.mem_singleton.mp h]; exact Nat.lt_succ_self _
      | nodecov f => rw [List.mem_singleton.mp h]; exact Nat.lt_succ_self _
      | pathcov f b => rw [List.mem_singleton.mp h]; exact Nat.lt_succ_self _
  | pathPattern pp => exact size_lt_of_mem_pathOperands h
  | coveragePattern cp => exact size_lt_of_mem_coverOperands h
  | query q =>
      obtain ⟨scope, cover, passing⟩ := q
      have hc := size_coverNode cover
      have hp := size_pathNode passing
      rcases List.mem_append.mp h with h | h
      · obtain ⟨f, hf, rfl⟩ := List.mem_map.mp h
        have hscope : scope = some f := Option.mem_toList.mp hf
        rw [hscope]
        simp only [FqlNode.size, Option.map_some, Option.getD_some]
        omega
      · rcases List.mem_pair.mp h with rfl | rfl <;> simp only [FqlNode.size.eq_5] <;> omega

end FShell.Fql
