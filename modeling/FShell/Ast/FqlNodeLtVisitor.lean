import FShell.Ast.Filter
import FShell.Collections.FlipTree

/-!
# The order of the nodes

`FQL_Node_Lt_Visitor`, the order by which the node factories and the
normaliser find equal nodes.  Nodes are objects here: two of them may have one
structure and different addresses, and the visitor looks at addresses first.

`Depcov`, `Filter_Compose` and `Filter_Setminus` negate the comparison of their
last operands, where their siblings return it.  On two objects of one structure
the negation makes each come before the other.  On all others it only reverses
the order of the last operand: the visitor is then the comparison of
`FlipTree`s, a strict total order of the structures.
-/

namespace FShell.Fql

/-- The classes of nodes with one operand, with their other members. -/
inductive UnaryClass
  | edgecov
  | nodecov
  | pathcov (bound : Int)
  | quote
  | repetition (lowerBound upperBound : Int)
  deriving DecidableEq

/-- The classes of nodes with two operands. -/
inductive BinaryClass
  | cpAlternative
  | cpConcat
  | filterCompose
  | filterIntersection
  | filterSetminus
  | filterUnion
  | ppAlternative
  | ppConcat
  deriving DecidableEq

/-- A pointer to an `FQL_Node`, with the predicates in `P`.  Operands of a
query may be null. -/
inductive Node (P : Type)
  | null
  | filterFunction (addr : Nat) (f : FilterFunction)
  | predicate (addr : Nat) (expr : Option P)
  | unary (addr : Nat) (cls : UnaryClass) (n : Node P)
  | binary (addr : Nat) (cls : BinaryClass) (a b : Node P)
  | depcov (addr : Nat) (a b c : Node P)
  | query (addr : Nat) (scope cover passing : Node P)
  deriving DecidableEq

/-- The number of a class among the class names in their lexicographic order. -/
def UnaryClass.rank : UnaryClass → Nat
  | edgecov => 3
  | nodecov => 9
  | pathcov _ => 12
  | quote => 14
  | repetition _ _ => 16

/-- The number of a class among the class names in their lexicographic order. -/
def BinaryClass.rank : BinaryClass → Nat
  | cpAlternative => 0
  | cpConcat => 1
  | filterCompose => 4
  | filterIntersection => 6
  | filterSetminus => 7
  | filterUnion => 8
  | ppAlternative => 10
  | ppConcat => 11

/-- The number of a filter function in `filter_function_t`. -/
def filterType : FilterFunction → Int
  | .fIdentity => 0
  | .fFile _ => 1
  | .fLine _ => 2
  | .fColumn _ => 3
  | .fFunc _ => 4
  | .fLabel _ => 5
  | .fCall _ => 6
  | .fCalls => 7
  | .fEntry _ => 8
  | .fExit _ => 9
  | .fExpr _ => 10
  | .fRegexp _ => 11
  | .fBasicblockentry => 12
  | .fConditionedge => 13
  | .fDecisionedge => 14
  | .fConditiongraph => 15
  | .fDef _ => 16
  | .fUse _ => 17
  | .fStmttype _ => 18

/-- The argument that a filter function uses. -/
def argument : FilterFunction → Option (Int ⊕ String)
  | .fIdentity | .fCalls | .fBasicblockentry | .fConditionedge | .fDecisionedge
  | .fConditiongraph => none
  | .fLine n | .fColumn n => some (.inl n)
  | .fStmttype types => some (.inl types)
  | .fFile s | .fFunc s | .fLabel s | .fCall s | .fEntry s | .fExit s | .fExpr s | .fRegexp s
  | .fDef s | .fUse s => some (.inr s)

namespace Node

variable {P : Type}

/-- The number of the class. -/
def rank : Node P → Nat
  | filterFunction _ _ => 5
  | predicate _ _ => 13
  | unary _ cls _ => cls.rank
  | binary _ cls _ _ => cls.rank
  | depcov _ _ _ _ => 2
  | query _ _ _ _ => 15
  | null => 17

/-- The address of the object, if there is one. -/
def addr : Node P → Option Nat
  | null => none
  | filterFunction addr _ => addr
  | predicate addr _ => addr
  | unary addr _ _ => addr
  | binary addr _ _ _ => addr
  | depcov addr _ _ _ => addr
  | query addr _ _ _ => addr

/-- A pointer that may be null, as a list. -/
def pointee : Node P → List (Node P)
  | null => []
  | n => [n]

/-- The operands, but for null pointers in a query. -/
def operands : Node P → List (Node P)
  | null | filterFunction _ _ | predicate _ _ => []
  | unary _ _ n => [n]
  | binary _ _ a b => [a, b]
  | depcov _ a b c => [a, b, c]
  | query _ scope cover passing => scope.pointee ++ cover :: passing.pointee

end Node

/-! ## The visitor -/

/-- One comparison after another: where neither is less, `rest` decides. -/
def lexicographic (lt gt rest : Bool) : Bool := if lt then true else if gt then false else rest

/-- `cmp_lt` of two filter functions. -/
def filterFunctionLt (a b : FilterFunction) : Bool :=
  if filterType a ≠ filterType b then filterType a < filterType b
  else
    match argument a, argument b with
    | some (.inl m), some (.inl n) => m < n
    | some (.inr s), some (.inr t) => s < t
    | _, _ => false

section

variable {P : Type} [LinearOrder P]

/-- `cmp_lt` of two predicates. -/
def predicateLt : Option P → Option P → Bool
  | none, b => b.isSome
  | some _, none => false
  | some p, some q => if p = q then false else p < q

end

/-- What decides between two repetitions of one pattern. -/
def boundsLt (lower upper lower' upper' : Int) : Bool :=
  if lower ≠ lower' then lower < lower'
  else if upper = -1 then false
  else if upper' = -1 then true
  else upper < upper'

/-- `cmp_lt` of two nodes with one operand, from the comparisons of these. -/
def unaryLt (cls cls' : UnaryClass) (lt gt : Bool) : Bool :=
  match cls, cls' with
  | .edgecov, .edgecov => lt
  | .nodecov, .nodecov => lt
  | .pathcov bound, .pathcov bound' => lexicographic lt gt (bound < bound')
  | .quote, .quote => gt
  | .repetition lower upper, .repetition lower' upper' =>
      lexicographic lt gt (boundsLt lower upper lower' upper')
  | cls, cls' => cls.rank < cls'.rank

/-- The classes of two operands that negate the last comparison. -/
def BinaryClass.Negates : BinaryClass → Bool
  | filterCompose => true
  | filterSetminus => true
  | _ => false

/-- `cmp_lt` of two nodes with two operands, from the comparisons of these. -/
def binaryLt (cls cls' : BinaryClass) (ltA gtA ltB : Bool) : Bool :=
  if cls = cls' then lexicographic ltA gtA (if cls.Negates then !ltB else ltB)
  else cls.rank < cls'.rank

namespace Node

variable {P : Type} [LinearOrder P]

/-- What an operand that may be null adds to a comparison of queries. -/
def pointerLt (a b : Node P) (lt gt rest : Bool) : Bool :=
  if a.addr = b.addr then rest
  else if a.addr.isSome && b.addr.isNone then true
  else if a.addr.isNone && b.addr.isSome then false
  else lexicographic lt gt rest

/-- `FQL_Node_Lt_Visitor::cmp_lt`. -/
def cmpLt (a b : Node P) : Bool :=
  if a.addr = b.addr then false
  else
    match a, b with
    | filterFunction _ f, filterFunction _ g => filterFunctionLt f g
    | predicate _ e, predicate _ e' => predicateLt e e'
    | unary _ cls m, unary _ cls' n => unaryLt cls cls' (cmpLt m n) (cmpLt n m)
    | binary _ cls a b, binary _ cls' a' b' =>
        binaryLt cls cls' (cmpLt a a') (cmpLt a' a) (cmpLt b b')
    | depcov _ a b c, depcov _ a' b' c' =>
        lexicographic (cmpLt a a') (cmpLt a' a)
          (lexicographic (cmpLt b b') (cmpLt b' b) (!cmpLt c c'))
    | query _ p c s, query _ p' c' s' =>
        pointerLt p p' (cmpLt p p') (cmpLt p' p)
          (lexicographic (cmpLt c c') (cmpLt c' c)
            (pointerLt s s' (cmpLt s s') (cmpLt s' s) false))
    | a, b => a.rank < b.rank
termination_by sizeOf a + sizeOf b

/-- Across the classes the rank decides. -/
theorem cmpLt_of_ctorIdx {a b : Node P} (hctor : a.ctorIdx ≠ b.ctorIdx) (haddr : a.addr ≠ b.addr) :
    a.cmpLt b = decide (a.rank < b.rank) := by
  rw [cmpLt.eq_def, if_neg haddr]
  cases a <;> cases b <;> first | rfl | exact absurd rfl hctor

/-- A node is not before itself. -/
theorem cmpLt_of_addr {a b : Node P} (haddr : a.addr = b.addr) : a.cmpLt b = false := by
  rw [cmpLt.eq_def, if_pos haddr]

/-- The structure of a node: the node without its addresses. -/
def shape : Node P → Node P
  | null => null
  | filterFunction _ f => filterFunction 0 f
  | predicate _ e => predicate 0 e
  | unary _ cls n => unary 0 cls n.shape
  | binary _ cls a b => binary 0 cls a.shape b.shape
  | depcov _ a b c => depcov 0 a.shape b.shape c.shape
  | query _ p c s => query 0 p.shape c.shape s.shape

end Node

/-! ## The order of the structures -/

/-- What the comparison of two nodes may come down to. -/
abbrev NodeLabel (P : Type) := Lex (Int ⊕ Lex (WithTop Int ⊕ Lex (String ⊕ WithBot P)))

/-- The tree of a number. -/
def intTree {P : Type} (n : Int) : FlipTree (NodeLabel P) := .leaf (toLex (.inl n))

/-- The tree of an upper bound. -/
def boundTree {P : Type} (upper : Int) : FlipTree (NodeLabel P) :=
  .leaf (toLex (.inr (toLex (.inl (if upper = -1 then ⊤ else (upper : WithTop Int))))))

/-- The tree of a text. -/
def stringTree {P : Type} (s : String) : FlipTree (NodeLabel P) :=
  .leaf (toLex (.inr (toLex (.inr (toLex (.inl s))))))

/-- The tree of a predicate. -/
def exprTree {P : Type} (e : Option P) : FlipTree (NodeLabel P) :=
  .leaf (toLex (.inr (toLex (.inr (toLex (.inr (e.elim ⊥ fun p => (p : WithBot P))))))))

/-- The tree of a filter function's argument. -/
def argumentTree {P : Type} : Option (Int ⊕ String) → FlipTree (NodeLabel P)
  | none => intTree 0
  | some (.inl n) => intTree n
  | some (.inr s) => stringTree s

namespace Node

variable {P : Type}

/-- The tree below a node of one operand. -/
def unaryTree (cls : UnaryClass) (t : FlipTree (NodeLabel P)) : FlipTree (NodeLabel P) :=
  match cls with
  | .edgecov | .nodecov => t
  | .pathcov bound => .pair false t (intTree bound)
  | .quote => .pair true (intTree 0) t
  | .repetition lower upper => .pair false t (.pair false (intTree lower) (boundTree upper))

/-- What a node comes down to: its class and then, in the order in which they
are compared, its members. -/
def toTree : Node P → FlipTree (NodeLabel P)
  | null => .pair false (intTree 17) (intTree 0)
  | filterFunction _ f =>
      .pair false (intTree 5) (.pair false (intTree (filterType f)) (argumentTree (argument f)))
  | predicate _ e => .pair false (intTree 13) (exprTree e)
  | unary _ cls n => .pair false (intTree cls.rank) (unaryTree cls n.toTree)
  | binary _ cls a b => .pair false (intTree cls.rank) (.pair cls.Negates a.toTree b.toTree)
  | depcov _ a b c => .pair false (intTree 2) (.pair false a.toTree (.pair true b.toTree c.toTree))
  | query _ p c s => .pair false (intTree 15) (.pair false p.toTree (.pair false c.toTree s.toTree))

end Node

/-! ### Labels -/

section

variable {P : Type}

/-- Two numbers have two trees. -/
theorem intTree_inj {m n : Int} : (intTree m : FlipTree (NodeLabel P)) = intTree n ↔ m = n := by
  simp [intTree]

variable [LinearOrder P]

/-- Numbers are compared as numbers. -/
theorem cmp_intTree {m n : Int} :
    (intTree m : FlipTree (NodeLabel P)).cmp (intTree n) = .lt ↔ m < n := by
  rw [intTree, intTree, FlipTree.cmp, compare_lt_iff_lt, Sum.Lex.inl_lt_inl_iff]

/-- Strings are compared as strings. -/
theorem cmp_stringTree {s t : String} :
    (stringTree s : FlipTree (NodeLabel P)).cmp (stringTree t) = .lt ↔ s < t := by
  rw [stringTree, stringTree, FlipTree.cmp, compare_lt_iff_lt, Sum.Lex.inr_lt_inr_iff,
    Sum.Lex.inr_lt_inr_iff, Sum.Lex.inl_lt_inl_iff]

/-- Predicates are compared as expressions. -/
theorem cmp_exprTree {e e' : Option P} :
    predicateLt e e' = true ↔ (exprTree e).cmp (exprTree e') = .lt := by
  rw [exprTree, exprTree, FlipTree.cmp, compare_lt_iff_lt, Sum.Lex.inr_lt_inr_iff,
    Sum.Lex.inr_lt_inr_iff, Sum.Lex.inr_lt_inr_iff]
  cases e with
  | none => cases e' <;> simp [predicateLt]
  | some p =>
      cases e' with
      | none => simp [predicateLt]
      | some q =>
          simp only [predicateLt, Option.elim_some, WithBot.coe_lt_coe, Bool.if_false_left,
            Bool.and_eq_true, Bool.not_eq_true', decide_eq_false_iff_not, decide_eq_true_eq]
          exact ⟨fun h => h.2, fun h => ⟨h.ne, h⟩⟩

/-- No bound is the largest bound. -/
theorem cmp_boundTree {m n : Int} :
    (boundTree m : FlipTree (NodeLabel P)).cmp (boundTree n) = .lt ↔
      m ≠ -1 ∧ (n = -1 ∨ m < n) := by
  rw [boundTree, boundTree, FlipTree.cmp, compare_lt_iff_lt, Sum.Lex.inr_lt_inr_iff,
    Sum.Lex.inl_lt_inl_iff]
  by_cases hm : m = -1
  · simp [hm]
  · by_cases hn : n = -1
    · simp [hm, hn]
    · simp [hm, hn]

/-- The bounds of repetitions, compared as a pair. -/
theorem boundsLt_iff {lower upper lower' upper' : Int} :
    boundsLt lower upper lower' upper' = true ↔
      (FlipTree.pair false (intTree lower) (boundTree upper) : FlipTree (NodeLabel P)).cmp
        (.pair false (intTree lower') (boundTree upper')) = .lt := by
  rw [FlipTree.cmp_pair, cmp_intTree, intTree_inj, flipBy_false, cmp_boundTree,
    boundsLt]
  by_cases hlower : lower = lower'
  · rw [if_neg (not_not.mpr hlower)]
    by_cases hupper : upper = -1
    · simp [hlower, hupper]
    · by_cases hupper' : upper' = -1 <;> simp [hlower, hupper, hupper']
  · simp [hlower]

/-- Arguments of one type are numbers or texts alike. -/
def argumentKind (filterType : Int) : Option Bool :=
  if filterType ∈ [0, 7, 12, 13, 14, 15] then none else some (filterType ∈ [2, 3, 18])

/-- Each filter function has arguments of one kind. -/
theorem isLeft_argument (f : FilterFunction) :
    (argument f).map Sum.isLeft = argumentKind (filterType f) := by
  cases f <;> rfl

/-- Filter functions, compared as a pair. -/
theorem filterFunctionLt_iff {f g : FilterFunction} :
    filterFunctionLt f g = true ↔
      (FlipTree.pair false (intTree (filterType f)) (argumentTree (argument f)) :
          FlipTree (NodeLabel P)).cmp
        (.pair false (intTree (filterType g)) (argumentTree (argument g))) = .lt := by
  rw [FlipTree.cmp_pair, cmp_intTree, intTree_inj, flipBy_false,
    filterFunctionLt]
  by_cases htype : filterType f = filterType g
  · have hkind : (argument f).map Sum.isLeft = (argument g).map Sum.isLeft := by
      rw [isLeft_argument, isLeft_argument, htype]
    rw [if_neg (not_not.mpr htype)]
    simp only [htype, lt_irrefl, true_and, false_or]
    match hf : argument f, hg : argument g with
    | none, none => simp [argumentTree, FlipTree.cmp_self]
    | some (.inl m), some (.inl n) => simp [argumentTree, cmp_intTree]
    | some (.inr s), some (.inr t) => simp [argumentTree, cmp_stringTree]
    | none, some b => simp [hf, hg] at hkind
    | some a, none => simp [hf, hg] at hkind
    | some (.inl m), some (.inr t) => simp [hf, hg] at hkind
    | some (.inr s), some (.inl n) => simp [hf, hg] at hkind
  · rw [if_pos htype]
    simp only [htype, false_and, or_false, decide_eq_true_eq]

/-! ### Comparing one after another -/

variable {t u t' u' : FlipTree (NodeLabel P)} {lt gt rest : Bool} {flip : Bool}

/-- A first comparison, and a second one where it does not decide. -/
theorem lexicographic_iff (hlt : lt = true ↔ t.cmp u = .lt) (hgt : gt = true ↔ u.cmp t = .lt)
    (hrest : t = u → (rest = true ↔ flipBy flip (t'.cmp u') = .lt)) :
    lexicographic lt gt rest = true ↔ (FlipTree.pair flip t t').cmp (.pair flip u u') = .lt := by
  rw [FlipTree.cmp_pair, lexicographic]
  cases hcmp : t.cmp u with
  | lt => simp [hlt.mpr hcmp]
  | eq =>
      have htu : t = u := FlipTree.cmp_eq_iff.mp hcmp
      have hlt' : lt = false := by simpa [hcmp] using hlt
      have hgt' : gt = false := by simpa [htu, FlipTree.cmp_self] using hgt
      simp [hlt', hgt', hrest htu, htu]
  | gt =>
      have hgt' : gt = true := hgt.mpr (FlipTree.cmp_gt_iff.mp hcmp)
      have hlt' : lt = false := by simpa [hcmp] using hlt
      have hne : t ≠ u := by
        intro htu
        rw [htu, FlipTree.cmp_self] at hcmp
        cases hcmp
      simp [hlt', hgt', hne]

/-- A negated comparison of what differs is the reversed one. -/
theorem not_iff_flip {lt : Bool} (hlt : lt = true ↔ t.cmp u = .lt) (hne : t ≠ u) :
    (!lt) = true ↔ flipBy true (t.cmp u) = .lt := by
  cases hcmp : t.cmp u with
  | lt => simp [hlt.mpr hcmp, flipBy]
  | eq => exact absurd (FlipTree.cmp_eq_iff.mp hcmp) hne
  | gt =>
      have hlt' : lt = false := by simpa [hcmp] using hlt
      simp [hlt', flipBy]

/-- The rest of the tree matters among nodes of one class only. -/
theorem cmp_of_rank {m n : Nat} (hne : m ≠ n) :
    (FlipTree.pair false (intTree m) t).cmp (.pair false (intTree n) u) = .lt ↔ m < n := by
  rw [FlipTree.cmp_pair, cmp_intTree, intTree_inj]
  omega

/-- Where the ranks agree, the rest decides. -/
theorem cmp_same_rank {m : Int} :
    (FlipTree.pair false (intTree m) t).cmp (.pair false (intTree m) u) = .lt ↔ t.cmp u = .lt := by
  rw [FlipTree.cmp_pair, cmp_intTree, flipBy_false]
  simp only [lt_irrefl, true_and, false_or]

/-- Where the classes differ, the ranks decide. -/
theorem unaryLt_of_rank_ne {cls cls' : UnaryClass} (hne : cls.rank ≠ cls'.rank) :
    unaryLt cls cls' lt gt = decide (cls.rank < cls'.rank) := by
  cases cls <;> cases cls' <;> first | rfl | exact absurd rfl hne

/-- Nodes of one operand. -/
theorem unaryLt_iff {cls cls' : UnaryClass} (hlt : lt = true ↔ t.cmp u = .lt)
    (hgt : gt = true ↔ u.cmp t = .lt) :
    unaryLt cls cls' lt gt = true ↔
      (FlipTree.pair false (intTree cls.rank) (Node.unaryTree cls t)).cmp
        (.pair false (intTree cls'.rank) (Node.unaryTree cls' u)) = .lt := by
  by_cases hrank : cls.rank = cls'.rank
  · rw [hrank, cmp_same_rank]
    cases cls with
    | edgecov => cases cls' <;> first | exact hlt | cases hrank
    | nodecov => cases cls' <;> first | exact hlt | cases hrank
    | pathcov bound =>
        cases cls' with
        | pathcov bound' =>
            refine lexicographic_iff hlt hgt fun _ => ?_
            rw [flipBy_false, cmp_intTree, decide_eq_true_iff]
        | edgecov => cases hrank
        | nodecov => cases hrank
        | quote => cases hrank
        | repetition lower upper => cases hrank
    | quote =>
        cases cls' with
        | quote =>
            have hflip : flipBy true (t.cmp u) = u.cmp t := (FlipTree.cmp_swap t u).symm
            rw [unaryLt, Node.unaryTree, Node.unaryTree, FlipTree.cmp_pair, cmp_intTree, hflip, hgt]
            simp only [lt_irrefl, true_and, false_or]
        | edgecov => cases hrank
        | nodecov => cases hrank
        | pathcov bound => cases hrank
        | repetition lower upper => cases hrank
    | repetition lower upper =>
        cases cls' with
        | repetition lower' upper' =>
            exact lexicographic_iff hlt hgt fun _ => boundsLt_iff
        | edgecov => cases hrank
        | nodecov => cases hrank
        | pathcov bound => cases hrank
        | quote => cases hrank
  · rw [cmp_of_rank hrank, unaryLt_of_rank_ne hrank, decide_eq_true_iff]

/-- Two classes have two ranks. -/
theorem BinaryClass.rank_injective : Function.Injective BinaryClass.rank := by
  intro cls cls' hrank
  cases cls <;> cases cls' <;> first | rfl | cases hrank

/-- Nodes of two operands, when these are not the same to a class that negates. -/
theorem binaryLt_iff {cls cls' : BinaryClass} {ltB : Bool} (hlt : lt = true ↔ t.cmp u = .lt)
    (hgt : gt = true ↔ u.cmp t = .lt) (hltB : ltB = true ↔ t'.cmp u' = .lt)
    (hne : cls = cls' → cls.Negates = true → t = u → t' ≠ u') :
    binaryLt cls cls' lt gt ltB = true ↔
      (FlipTree.pair false (intTree cls.rank) (.pair cls.Negates t t')).cmp
        (.pair false (intTree cls'.rank) (.pair cls'.Negates u u')) = .lt := by
  by_cases hcls : cls = cls'
  · subst hcls
    rw [binaryLt, if_pos rfl, cmp_same_rank]
    refine lexicographic_iff hlt hgt fun htu => ?_
    cases hneg : cls.Negates with
    | false => exact hltB
    | true => exact not_iff_flip hltB (hne rfl hneg htu)
  · have hrank : cls.rank ≠ cls'.rank := fun h => hcls (BinaryClass.rank_injective h)
    rw [binaryLt, if_neg hcls, cmp_of_rank hrank, decide_eq_true_iff]

end

/-! ## Structures and their trees -/

namespace Node

variable {P : Type}

/-- Addresses are not in the tree. -/
theorem toTree_shape (n : Node P) : n.shape.toTree = n.toTree := by
  induction n with
  | null => rfl
  | filterFunction addr f => rfl
  | predicate addr e => rfl
  | unary addr cls n ih => rw [shape, toTree, toTree, ih]
  | binary addr cls a b iha ihb => rw [shape, toTree, toTree, iha, ihb]
  | depcov addr a b c iha ihb ihc => rw [shape, toTree, toTree, iha, ihb, ihc]
  | query addr p c s ihp ihc ihs => rw [shape, toTree, toTree, ihp, ihc, ihs]

/-- Trees begin with the rank. -/
theorem toTree_rank (n : Node P) : ∃ t, n.toTree = .pair false (intTree n.rank) t := by
  cases n <;> exact ⟨_, rfl⟩

/-- Constructors share no rank. -/
theorem ctorIdx_of_rank {a b : Node P} (h : a.rank = b.rank) : a.ctorIdx = b.ctorIdx := by
  cases a with
  | unary addr cls n =>
      cases b with
      | unary addr' cls' m => rfl
      | binary addr' cls' a b => cases cls <;> cases cls' <;> cases h
      | _ => cases cls <;> cases h
  | binary addr cls a₁ a₂ =>
      cases b with
      | binary addr' cls' b₁ b₂ => rfl
      | unary addr' cls' n => cases cls <;> cases cls' <;> cases h
      | _ => cases cls <;> cases h
  | _ =>
      cases b with
      | unary addr cls n => cases cls <;> cases h
      | binary addr cls a b => cases cls <;> cases h
      | _ => first | rfl | cases h

/-- The tree has the rank. -/
theorem rank_of_toTree {a b : Node P} (h : a.toTree = b.toTree) : a.rank = b.rank := by
  obtain ⟨t, ht⟩ := toTree_rank a
  obtain ⟨u, hu⟩ := toTree_rank b
  rw [ht, hu, FlipTree.pair.injEq, intTree_inj] at h
  exact Nat.cast_injective h.2.1

end Node

/-- A filter function is its type and its argument. -/
theorem filterFunction_ext {P : Type} {f g : FilterFunction} (htype : filterType f = filterType g)
    (hargument : (argumentTree (argument f) : FlipTree (NodeLabel P)) = argumentTree (argument g)) :
    f = g := by
  cases f <;> cases g <;> simp_all [filterType, argument, argumentTree, intTree, stringTree]

/-- Two bounds have two trees. -/
theorem boundTree_inj {P : Type} {m n : Int} :
    (boundTree m : FlipTree (NodeLabel P)) = boundTree n ↔ m = n := by
  simp only [boundTree, FlipTree.leaf.injEq, toLex_inj, Sum.inr.injEq, Sum.inl.injEq]
  by_cases hm : m = -1
  · by_cases hn : n = -1
    · simp [hm, hn]
    · simp [hm, hn, Ne.symm hn]
  · by_cases hn : n = -1
    · simp [hm, hn]
    · simp [hm, hn]

/-- Two predicates have two trees. -/
theorem exprTree_inj {P : Type} {e e' : Option P} : exprTree e = exprTree e' ↔ e = e' := by
  cases e <;> cases e' <;> simp [exprTree]

namespace Node

variable {P : Type}

/-- A node of one operand is its class and the operand. -/
theorem unaryTree_inj {cls cls' : UnaryClass} {t u : FlipTree (NodeLabel P)}
    (hrank : cls.rank = cls'.rank) (htree : unaryTree cls t = unaryTree cls' u) :
    cls = cls' ∧ t = u := by
  cases cls <;> cases cls' <;>
    simp_all [unaryTree, UnaryClass.rank, intTree_inj, boundTree_inj]

/-- Nodes with one tree have one structure. -/
theorem shape_of_toTree {a b : Node P} (h : a.toTree = b.toTree) : a.shape = b.shape := by
  have hctor := ctorIdx_of_rank (rank_of_toTree h)
  induction a generalizing b with
  | null =>
      cases b with
      | null => rfl
      | _ => cases hctor
  | filterFunction addr f =>
      cases b with
      | filterFunction addr' g =>
          simp only [toTree, FlipTree.pair.injEq, true_and] at h
          rw [shape, shape, filterFunction_ext (intTree_inj.mp h.1 ) h.2]
      | _ => cases hctor
  | predicate addr e =>
      cases b with
      | predicate addr' e' =>
          simp only [toTree, FlipTree.pair.injEq, exprTree_inj, true_and] at h
          rw [shape, shape, h]
      | _ => cases hctor
  | unary addr cls n ih =>
      cases b with
      | unary addr' cls' m =>
          have hrank := rank_of_toTree h
          rw [toTree, toTree, FlipTree.pair.injEq] at h
          obtain ⟨hcls, htree⟩ := unaryTree_inj hrank h.2.2
          rw [shape, shape, hcls, ih htree (ctorIdx_of_rank (rank_of_toTree htree))]
      | _ => cases hctor
  | binary addr cls a b iha ihb =>
      cases b with
      | binary addr' cls' a' b' =>
          have hrank := rank_of_toTree h
          simp only [toTree, FlipTree.pair.injEq] at h
          obtain ⟨_, _, _, htreeA, htreeB⟩ := h
          rw [shape, shape, BinaryClass.rank_injective hrank,
            iha htreeA (ctorIdx_of_rank (rank_of_toTree htreeA)),
            ihb htreeB (ctorIdx_of_rank (rank_of_toTree htreeB))]
      | _ => cases hctor
  | depcov addr a b c iha ihb ihc =>
      cases b with
      | depcov addr' a' b' c' =>
          simp only [toTree, FlipTree.pair.injEq, true_and] at h
          obtain ⟨htreeA, htreeB, htreeC⟩ := h
          rw [shape, shape, iha htreeA (ctorIdx_of_rank (rank_of_toTree htreeA)),
            ihb htreeB (ctorIdx_of_rank (rank_of_toTree htreeB)),
            ihc htreeC (ctorIdx_of_rank (rank_of_toTree htreeC))]
      | _ => cases hctor
  | query addr p c s ihp ihc ihs =>
      cases b with
      | query addr' p' c' s' =>
          simp only [toTree, FlipTree.pair.injEq, true_and] at h
          obtain ⟨htreeP, htreeC, htreeS⟩ := h
          rw [shape, shape, ihp htreeP (ctorIdx_of_rank (rank_of_toTree htreeP)),
            ihc htreeC (ctorIdx_of_rank (rank_of_toTree htreeC)),
            ihs htreeS (ctorIdx_of_rank (rank_of_toTree htreeS))]
      | _ => cases hctor

/-- The tree is the shape. -/
theorem toTree_eq_iff {a b : Node P} : a.toTree = b.toTree ↔ a.shape = b.shape :=
  ⟨shape_of_toTree, fun h => by rw [← toTree_shape a, h, toTree_shape b]⟩

/-- The classes that negate their last comparison. -/
def negates : Node P → Bool
  | binary _ cls _ _ => cls.Negates
  | depcov _ _ _ _ => true
  | _ => false

end Node

/-- The objects of a program: they are closed under operands, and no two of
them have one address. -/
structure Heap (P : Type) where
  objects : Set (Node P)
  null_notMem : .null ∉ objects
  closed : ∀ n ∈ objects, ∀ m ∈ n.operands, m ∈ objects
  eq_of_addr : ∀ a ∈ objects, ∀ b ∈ objects, a.addr = b.addr → a = b

namespace Heap

variable {P : Type}

/-- No two objects of a class that negates have one structure. -/
def Apart (M : Heap P) : Prop :=
  ∀ a ∈ M.objects, ∀ b ∈ M.objects, a.negates = true → a.shape = b.shape → a = b

variable {M : Heap P}

/-- What a pointer of the heap points to: an object or nothing. -/
def Points (M : Heap P) (n : Node P) : Prop := n = .null ∨ n ∈ M.objects

/-- A node whose pointee is on the heap. -/
theorem points_of_pointee {n : Node P} (h : ∀ m ∈ n.pointee, m ∈ M.objects) : M.Points n := by
  cases n with
  | null => exact Or.inl rfl
  | filterFunction addr f => exact Or.inr (h _ List.mem_cons_self)
  | predicate addr e => exact Or.inr (h _ List.mem_cons_self)
  | unary addr cls n => exact Or.inr (h _ List.mem_cons_self)
  | binary addr cls a b => exact Or.inr (h _ List.mem_cons_self)
  | depcov addr a b c => exact Or.inr (h _ List.mem_cons_self)
  | query addr p c s => exact Or.inr (h _ List.mem_cons_self)

/-- One address, one node. -/
theorem eq_of_addr_points {a b : Node P} (ha : M.Points a) (hb : M.Points b)
    (haddr : a.addr = b.addr) : a = b := by
  obtain rfl | ha := ha
  · cases b <;> first | rfl | cases haddr
  · obtain rfl | hb := hb
    · cases a <;> first | rfl | cases haddr
    · exact M.eq_of_addr a ha b hb haddr

/-- Every object comes before a null pointer. -/
theorem rank_lt_null {n : Node P} (h : n ≠ .null) : n.rank < 17 := by
  cases n with
  | null => exact absurd rfl h
  | unary addr cls n => cases cls <;> simp [Node.rank, UnaryClass.rank]
  | binary addr cls a b => cases cls <;> simp [Node.rank, BinaryClass.rank]
  | _ => simp [Node.rank]

/-- The operands are on the heap. -/
theorem Points.of_mem_operands {n m : Node P} (hn : M.Points n) (hm : m ∈ n.operands) :
    M.Points m := by
  obtain rfl | hn := hn
  · cases hm
  · exact Or.inr (M.closed n hn m hm)

/-- The clauses of a query are on the heap. -/
theorem Points.of_query {addr : Nat} {p c s : Node P} (h : M.Points (.query addr p c s)) :
    M.Points p ∧ M.Points c ∧ M.Points s := by
  have hoperand : ∀ m ∈ p.pointee ++ c :: s.pointee, m ∈ M.objects :=
    M.closed _ (h.resolve_left nofun)
  refine ⟨points_of_pointee fun m hm => hoperand m (List.mem_append_left _ hm),
    Or.inr (hoperand c (List.mem_append_right _ List.mem_cons_self)),
    points_of_pointee fun m hm =>
      hoperand m (List.mem_append_right _ (List.mem_cons_of_mem _ hm))⟩

/-- Where shapes are apart, one shape is one node. -/
theorem Apart.eq_of_shape (hM : M.Apart) {a b : Node P} (ha : M.Points a) (hb : M.Points b)
    (hneg : a.negates = true) (hshape : a.shape = b.shape) : a = b := by
  have ha' : a ∈ M.objects := ha.resolve_left fun h => by
    rw [h] at hneg
    cases hneg
  have hb' : b ∈ M.objects := hb.resolve_left fun h => by
    rw [h] at hshape
    cases a <;> cases hshape
    cases hneg
  exact hM a ha' b hb' hneg hshape

variable [LinearOrder P]

/-- Across the classes the rank decides. -/
theorem rank_lt_iff {a b : Node P} (hctor : a.ctorIdx ≠ b.ctorIdx) :
    a.rank < b.rank ↔ a.toTree.cmp b.toTree = .lt := by
  have hrank : a.rank ≠ b.rank := fun h => hctor (Node.ctorIdx_of_rank h)
  obtain ⟨t, ht⟩ := Node.toTree_rank a
  obtain ⟨u, hu⟩ := Node.toTree_rank b
  rw [ht, hu, cmp_of_rank hrank]

/-- An operand that may be null is compared like any other. -/
theorem pointerLt_eq (a b : Node P) (rest : Bool) :
    Node.pointerLt a b (a.cmpLt b) (b.cmpLt a) rest
      = lexicographic (a.cmpLt b) (b.cmpLt a) rest := by
  by_cases haddr : a.addr = b.addr
  · rw [Node.pointerLt, if_pos haddr, Node.cmpLt_of_addr haddr, Node.cmpLt_of_addr haddr.symm]
    rfl
  · rw [Node.pointerLt, if_neg haddr]
    by_cases ha : a = .null
    · subst ha
      have hb : b ≠ .null := fun h => haddr (by rw [h])
      have hrank := rank_lt_null hb
      have hctor : (Node.null : Node P).ctorIdx ≠ b.ctorIdx := by
        cases b <;> first | exact absurd rfl hb | exact nofun
      rw [Node.cmpLt_of_ctorIdx hctor haddr, Node.cmpLt_of_ctorIdx hctor.symm (Ne.symm haddr)]
      have hnull : ¬ (Node.null : Node P).rank < b.rank := not_lt.mpr hrank.le
      have hlt : b.rank < (Node.null : Node P).rank := hrank
      rw [decide_eq_false hnull, decide_eq_true hlt]
      cases b <;> first | exact absurd rfl hb | rfl
    · by_cases hb : b = .null
      · subst hb
        have hrank := rank_lt_null ha
        have hctor : a.ctorIdx ≠ (Node.null : Node P).ctorIdx := by
          cases a <;> first | exact absurd rfl ha | exact nofun
        have hlt : a.rank < (Node.null : Node P).rank := hrank
        rw [Node.cmpLt_of_ctorIdx hctor haddr, decide_eq_true hlt]
        cases a <;> first | exact absurd rfl ha | rfl
      · have hsomeA : a.addr.isSome = true := by cases a <;> first | exact absurd rfl ha | rfl
        have hsomeB : b.addr.isSome = true := by cases b <;> first | exact absurd rfl hb | rfl
        rw [hsomeA, hsomeB, Option.isNone_eq_false_iff.mpr hsomeA,
          Option.isNone_eq_false_iff.mpr hsomeB]
        rfl

/-- **The visitor compares trees.** -/
theorem cmpLt_iff (hM : M.Apart) {a b : Node P} (ha : M.Points a) (hb : M.Points b) :
    a.cmpLt b = true ↔ a.toTree.cmp b.toTree = .lt := by
  induction hsize : sizeOf a + sizeOf b using Nat.strong_induction_on generalizing a b with
  | _ size ih =>
    subst hsize
    by_cases haddr : a.addr = b.addr
    · have hab : a = b := eq_of_addr_points ha hb haddr
      rw [Node.cmpLt_of_addr haddr, hab, FlipTree.cmp_self]
      exact iff_of_false Bool.false_ne_true (by decide)
    · by_cases hctor : a.ctorIdx = b.ctorIdx
      · rw [Node.cmpLt.eq_def, if_neg haddr]
        cases a with
        | null =>
            cases b with
            | null => exact absurd rfl haddr
            | _ => cases hctor
        | filterFunction addr f =>
            cases b with
            | filterFunction addr' g =>
                rw [Node.toTree, Node.toTree, cmp_same_rank]
                exact filterFunctionLt_iff
            | _ => cases hctor
        | predicate addr e =>
            cases b with
            | predicate addr' e' =>
                rw [Node.toTree, Node.toTree, cmp_same_rank]
                exact cmp_exprTree
            | _ => cases hctor
        | unary addr cls n =>
            cases b with
            | unary addr' cls' m =>
                have hn : M.Points n := ha.of_mem_operands List.mem_cons_self
                have hm : M.Points m := hb.of_mem_operands List.mem_cons_self
                exact unaryLt_iff
                  (ih _ (by simp only [Node.unary.sizeOf_spec]; omega) hn hm rfl)
                  (ih _ (by simp only [Node.unary.sizeOf_spec]; omega) hm hn rfl)
            | _ => cases hctor
        | binary addr cls a₁ a₂ =>
            cases b with
            | binary addr' cls' b₁ b₂ =>
                have ha₁ : M.Points a₁ := ha.of_mem_operands (List.mem_pair.mpr (Or.inl rfl))
                have ha₂ : M.Points a₂ := ha.of_mem_operands (List.mem_pair.mpr (Or.inr rfl))
                have hb₁ : M.Points b₁ := hb.of_mem_operands (List.mem_pair.mpr (Or.inl rfl))
                have hb₂ : M.Points b₂ := hb.of_mem_operands (List.mem_pair.mpr (Or.inr rfl))
                refine binaryLt_iff
                  (ih _ (by simp only [Node.binary.sizeOf_spec]; omega) ha₁ hb₁ rfl)
                  (ih _ (by simp only [Node.binary.sizeOf_spec]; omega) hb₁ ha₁ rfl)
                  (ih _ (by simp only [Node.binary.sizeOf_spec]; omega) ha₂ hb₂ rfl) ?_
                intro hcls hneg h₁ h₂
                refine haddr (congrArg Node.addr (hM.eq_of_shape ha hb hneg ?_))
                rw [Node.shape, Node.shape, hcls, Node.toTree_eq_iff.mp h₁, Node.toTree_eq_iff.mp h₂]
            | _ => cases hctor
        | depcov addr a₁ a₂ a₃ =>
            cases b with
            | depcov addr' b₁ b₂ b₃ =>
                have ha₁ : M.Points a₁ := ha.of_mem_operands (by simp [Node.operands])
                have ha₂ : M.Points a₂ := ha.of_mem_operands (by simp [Node.operands])
                have ha₃ : M.Points a₃ := ha.of_mem_operands (by simp [Node.operands])
                have hb₁ : M.Points b₁ := hb.of_mem_operands (by simp [Node.operands])
                have hb₂ : M.Points b₂ := hb.of_mem_operands (by simp [Node.operands])
                have hb₃ : M.Points b₃ := hb.of_mem_operands (by simp [Node.operands])
                rw [Node.toTree, Node.toTree, cmp_same_rank]
                refine lexicographic_iff
                  (ih _ (by simp only [Node.depcov.sizeOf_spec]; omega) ha₁ hb₁ rfl)
                  (ih _ (by simp only [Node.depcov.sizeOf_spec]; omega) hb₁ ha₁ rfl) fun h₁ => ?_
                rw [flipBy_false]
                refine lexicographic_iff
                  (ih _ (by simp only [Node.depcov.sizeOf_spec]; omega) ha₂ hb₂ rfl)
                  (ih _ (by simp only [Node.depcov.sizeOf_spec]; omega) hb₂ ha₂ rfl) fun h₂ => ?_
                refine not_iff_flip
                  (ih _ (by simp only [Node.depcov.sizeOf_spec]; omega) ha₃ hb₃ rfl) fun h₃ => ?_
                refine haddr (congrArg Node.addr (hM.eq_of_shape ha hb rfl ?_))
                rw [Node.shape, Node.shape, Node.toTree_eq_iff.mp h₁, Node.toTree_eq_iff.mp h₂,
                  Node.toTree_eq_iff.mp h₃]
            | _ => cases hctor
        | query addr p c s =>
            cases b with
            | query addr' p' c' s' =>
                obtain ⟨hp, hc, hs⟩ := ha.of_query
                obtain ⟨hp', hc', hs'⟩ := hb.of_query
                rw [Node.toTree, Node.toTree, cmp_same_rank]
                simp only [pointerLt_eq]
                refine lexicographic_iff
                  (ih _ (by simp only [Node.query.sizeOf_spec]; omega) hp hp' rfl)
                  (ih _ (by simp only [Node.query.sizeOf_spec]; omega) hp' hp rfl) fun _ => ?_
                rw [flipBy_false]
                refine lexicographic_iff
                  (ih _ (by simp only [Node.query.sizeOf_spec]; omega) hc hc' rfl)
                  (ih _ (by simp only [Node.query.sizeOf_spec]; omega) hc' hc rfl) fun _ => ?_
                have hlt := ih _ (by simp only [Node.query.sizeOf_spec]; omega) hs hs' rfl
                have hgt := ih _ (by simp only [Node.query.sizeOf_spec]; omega) hs' hs rfl
                rw [flipBy_false, ← hlt, lexicographic]
                cases s.cmpLt s' <;> simp
            | _ => cases hctor
      · rw [Node.cmpLt_of_ctorIdx hctor haddr, decide_eq_true_iff, rank_lt_iff hctor]

/-! ## The order -/

/-- Neither node comes before the other. -/
def Incomparable (a b : Node P) : Prop := a.cmpLt b = false ∧ b.cmpLt a = false

/-- The visitor is a strict weak order of the objects, and those it cannot tell
apart have one structure. -/
structure Ordered (M : Heap P) : Prop where
  irrefl : ∀ a ∈ M.objects, a.cmpLt a = false
  asymm : ∀ a ∈ M.objects, ∀ b ∈ M.objects, a.cmpLt b = true → b.cmpLt a = false
  trans : ∀ a ∈ M.objects, ∀ b ∈ M.objects, ∀ c ∈ M.objects,
    a.cmpLt b = true → b.cmpLt c = true → a.cmpLt c = true
  incomparable_trans : ∀ a ∈ M.objects, ∀ b ∈ M.objects, ∀ c ∈ M.objects,
    Incomparable a b → Incomparable b c → Incomparable a c
  incomparable_iff : ∀ a ∈ M.objects, ∀ b ∈ M.objects, Incomparable a b ↔ a.shape = b.shape

/-- Where the visitor compares trees, only equal ones are incomparable. -/
theorem incomparable_iff_shape (hM : M.Apart) {a b : Node P} (ha : a ∈ M.objects)
    (hb : b ∈ M.objects) : Incomparable a b ↔ a.shape = b.shape := by
  have hab := cmpLt_iff hM (Or.inr ha) (Or.inr hb)
  have hba := cmpLt_iff hM (Or.inr hb) (Or.inr ha)
  rw [Incomparable, ← Bool.not_eq_true, ← Bool.not_eq_true, hab, hba,
    FlipTree.cmp_swap a.toTree b.toTree, ← Node.toTree_eq_iff, ← FlipTree.cmp_eq_iff]
  cases a.toTree.cmp b.toTree <;> decide

/-- Two objects of a class that negates and of one structure come before each
other, where their operands are incomparable. -/
theorem cmpLt_of_negates {a b : Node P} (hneg : a.negates = true) (hshape : a.shape = b.shape)
    (haddr : a.addr ≠ b.addr)
    (hsame : ∀ m ∈ a.operands, ∀ n ∈ b.operands, m.shape = n.shape → Incomparable m n) :
    a.cmpLt b = true := by
  rw [Node.cmpLt.eq_def, if_neg haddr]
  cases a with
  | binary addr cls a₁ a₂ =>
      cases b with
      | binary addr' cls' b₁ b₂ =>
          simp only [Node.shape, Node.binary.injEq, true_and] at hshape
          obtain ⟨rfl, h₁, h₂⟩ := hshape
          have hinc₁ := hsame a₁ (by simp [Node.operands]) b₁ (by simp [Node.operands]) h₁
          have hinc₂ := hsame a₂ (by simp [Node.operands]) b₂ (by simp [Node.operands]) h₂
          have hneg' : cls.Negates = true := hneg
          simp only [binaryLt, lexicographic, hinc₁.1, hinc₁.2, hinc₂.1, hneg', if_true,
            Bool.false_eq_true, if_false, Bool.not_false]
      | _ => cases hshape
  | depcov addr a₁ a₂ a₃ =>
      cases b with
      | depcov addr' b₁ b₂ b₃ =>
          simp only [Node.shape, Node.depcov.injEq, true_and] at hshape
          obtain ⟨h₁, h₂, h₃⟩ := hshape
          have hinc₁ := hsame a₁ (by simp [Node.operands]) b₁ (by simp [Node.operands]) h₁
          have hinc₂ := hsame a₂ (by simp [Node.operands]) b₂ (by simp [Node.operands]) h₂
          have hinc₃ := hsame a₃ (by simp [Node.operands]) b₃ (by simp [Node.operands]) h₃
          simp only [lexicographic, hinc₁.1, hinc₁.2, hinc₂.1, hinc₂.2, hinc₃.1,
            Bool.false_eq_true, if_false, Bool.not_false]
      | _ => cases hshape
  | _ => cases hneg

/-- **The order of the nodes.**  The visitor is a strict weak order that tells
structures apart exactly on the heaps in which no two objects of the classes
that negate have one structure. -/
theorem ordered_iff_apart (M : Heap P) : M.Ordered ↔ M.Apart := by
  constructor
  · intro hord a ha b hb hneg hshape
    by_contra hne
    have haddr : a.addr ≠ b.addr := fun h => hne (M.eq_of_addr a ha b hb h)
    have hsame : ∀ m ∈ a.operands, ∀ n ∈ b.operands, m.shape = n.shape → Incomparable m n :=
      fun m hm n hn => (hord.incomparable_iff m (M.closed a ha m hm) n (M.closed b hb n hn)).mpr
    have hlt : a.cmpLt b = true := cmpLt_of_negates hneg hshape haddr hsame
    have hinc := (hord.incomparable_iff a ha b hb).mpr hshape
    rw [hinc.1] at hlt
    cases hlt
  · intro hM
    refine ⟨?_, ?_, ?_, ?_, fun a ha b hb => incomparable_iff_shape hM ha hb⟩
    · exact fun a _ => Node.cmpLt_of_addr rfl
    · intro a ha b hb hlt
      rw [cmpLt_iff hM (Or.inr ha) (Or.inr hb), ← FlipTree.cmp_gt_iff] at hlt
      rw [← Bool.not_eq_true, cmpLt_iff hM (Or.inr hb) (Or.inr ha), hlt]
      decide
    · intro a ha b hb c hc hab hbc
      rw [cmpLt_iff hM (Or.inr ha) (Or.inr hb)] at hab
      rw [cmpLt_iff hM (Or.inr hb) (Or.inr hc)] at hbc
      exact (cmpLt_iff hM (Or.inr ha) (Or.inr hc)).mpr (FlipTree.cmp_trans hab hbc)
    · intro a ha b hb c hc hab hbc
      rw [incomparable_iff_shape hM ha hb] at hab
      rw [incomparable_iff_shape hM hb hc] at hbc
      exact (incomparable_iff_shape hM ha hc).mpr (hab.trans hbc)

/-- `SETMINUS(@FILE("bla.c"), @LINE(42))`, built twice. -/
def twoSetminus : Heap Nat where
  objects := {.filterFunction 0 (.fFile "bla.c"), .filterFunction 1 (.fLine 42),
    .binary 2 .filterSetminus (.filterFunction 0 (.fFile "bla.c")) (.filterFunction 1 (.fLine 42)),
    .binary 3 .filterSetminus (.filterFunction 0 (.fFile "bla.c")) (.filterFunction 1 (.fLine 42))}
  null_notMem := by simp
  closed := by
    intro n hn m hm
    obtain rfl | rfl | rfl | rfl := hn <;> simp [Node.operands] at hm ⊢
    · exact hm.imp_right Or.inl
    · exact hm.imp_right Or.inl
  eq_of_addr := by
    intro a ha b hb haddr
    obtain rfl | rfl | rfl | rfl := ha <;> obtain rfl | rfl | rfl | rfl := hb <;>
      first | rfl | cases haddr

/-- Two objects for one difference come before each other. -/
theorem not_ordered : ¬ ∀ M : Heap Nat, M.Ordered := by
  intro h
  have hasymm := (h twoSetminus).asymm
    (.binary 2 .filterSetminus (.filterFunction 0 (.fFile "bla.c")) (.filterFunction 1 (.fLine 42)))
    (by simp [twoSetminus])
    (.binary 3 .filterSetminus (.filterFunction 0 (.fFile "bla.c")) (.filterFunction 1 (.fLine 42)))
    (by simp [twoSetminus])
  simp [Node.cmpLt, Node.addr, binaryLt, lexicographic, BinaryClass.Negates] at hasymm

end Heap

end FShell.Fql
