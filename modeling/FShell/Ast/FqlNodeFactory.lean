import FShell.Ast.FqlNodeLtVisitor
import FShell.Automata.Runs
import FShell.Collections.RefCounted

/-!
# Node factories

The factories of all node classes with their used and available objects, and
the reference counts of the nodes.  `create` fills an object, looks for a used
node that the order of the nodes cannot tell from it, and either returns that
node or puts the object to use.

The order cannot tell apart what has one structure, so that the used nodes
share all structure, as long as no `Depcov`, `Filter_Compose` or
`Filter_Setminus` is created that is in use already: of these `create` makes a
second object.
-/

namespace FShell.Fql

variable {P : Type}

namespace Node

/-- The node, with its object at an address. -/
def place (n : Node P) (addr : Nat) : Node P :=
  match n with
  | null => null
  | filterFunction _ f => filterFunction addr f
  | predicate _ e => predicate addr e
  | unary _ cls n => unary addr cls n
  | binary _ cls a b => binary addr cls a b
  | depcov _ a b c => depcov addr a b c
  | query _ p c s => query addr p c s

/-- The number of nodes in a node. -/
def size : Node P → Nat
  | null | filterFunction _ _ | predicate _ _ => 1
  | unary _ _ n => n.size + 1
  | binary _ _ a b => a.size + b.size + 1
  | depcov _ a b c => a.size + b.size + c.size + 1
  | query _ p c s => p.size + c.size + s.size + 1

/-- A node points to itself only. -/
theorem mem_pointee {m n : Node P} (h : m ∈ n.pointee) : m = n := by
  cases n <;> first | exact List.mem_singleton.mp h | cases h

/-- A node that is not null points to itself. -/
theorem self_mem_pointee {n : Node P} (h : n ≠ null) : n ∈ n.pointee := by
  cases n <;> first | exact absurd rfl h | exact List.mem_singleton.mpr rfl

/-- Operands are smaller. -/
theorem size_lt_of_mem_operands {m n : Node P} (h : m ∈ n.operands) : m.size < n.size := by
  cases n with
  | null => cases h
  | filterFunction addr f => cases h
  | predicate addr e => cases h
  | unary addr cls n =>
      rw [List.mem_singleton.mp h]
      exact Nat.lt_succ_self _
  | binary addr cls a b =>
      rcases List.mem_pair.mp h with rfl | rfl <;> simp only [size] <;> omega
  | depcov addr a b c =>
      simp only [operands, List.mem_cons, List.not_mem_nil, or_false] at h
      rcases h with rfl | rfl | rfl <;> simp only [size] <;> omega
  | query addr p c s =>
      rcases List.mem_append.mp h with h | h
      · rw [mem_pointee h]
        simp only [size]
        omega
      · rcases List.mem_cons.mp h with rfl | h
        · simp only [size]
          omega
        · rw [mem_pointee h]
          simp only [size]
          omega

/-- The address is not in the shape. -/
@[simp] theorem place_shape (n : Node P) (addr : Nat) : (n.place addr).shape = n.shape := by
  cases n <;> rfl

/-- The operands stay. -/
@[simp] theorem place_operands (n : Node P) (addr : Nat) :
    (n.place addr).operands = n.operands := by
  cases n <;> rfl

/-- The rank stays. -/
@[simp] theorem place_rank (n : Node P) (addr : Nat) : (n.place addr).rank = n.rank := by
  cases n <;> rfl

/-- The flag stays. -/
@[simp] theorem place_negates (n : Node P) (addr : Nat) :
    (n.place addr).negates = n.negates := by
  cases n <;> rfl

/-- The rank is in the shape. -/
theorem shape_rank (n : Node P) : n.shape.rank = n.rank := by
  cases n <;> rfl

/-- The flag is in the shape. -/
theorem shape_negates (n : Node P) : n.shape.negates = n.negates := by
  cases n <;> rfl

/-- The node has the address. -/
theorem place_addr {n : Node P} (h : n ≠ null) (addr : Nat) : (n.place addr).addr = some addr := by
  cases n <;> first | exact absurd rfl h | rfl

/-- A node that is placed is not null. -/
theorem place_ne_null {n : Node P} (h : n ≠ null) (addr : Nat) : n.place addr ≠ null := by
  cases n <;> first | exact absurd rfl h | exact nofun

end Node

/-- Nodes and their operands. -/
def nodeShape : NodeShape (Node P) where
  operands := Node.operands
  size := Node.size
  operands_lt := Node.size_lt_of_mem_operands

/-- All factories: the used nodes with their reference counts, the available
objects by class and address, and the nodes that hold an explicit increment. -/
structure Factories (P : Type) where
  store : RefStore (Node P)
  available : Finset (Nat × Option Nat)
  held : List (Node P)

namespace Factories

/-- No node yet. -/
def init : Factories P := ⟨RefStore.empty, ∅, []⟩

variable [LinearOrder P]

/-- The used nodes of its class that the order cannot tell from a node. -/
def equivalent (s : Factories P) (node : Node P) : Finset (Node P) :=
  s.store.used.filter fun m => m.rank = node.rank ∧ node.cmpLt m = false ∧ m.cmpLt node = false

/-- `FQL_Node_Factory::create`, with the object at `addr` filled.  The object
stays available when an equivalent node is there. -/
def create (n : Node P) (addr : Nat) (s : Factories P) : Factories P :=
  if (s.equivalent (n.place addr)).Nonempty then
    { s with available := insert (n.rank, some addr) s.available }
  else
    { s with
      store := s.store.create nodeShape (n.place addr)
      available := s.available.erase (n.rank, some addr) }

/-- `destroy` of a node: what it takes out of use becomes available. -/
def destroy (n : Node P) (s : Factories P) : Factories P :=
  match s.store.destroy nodeShape n with
  | none => s
  | some store =>
      { s with
        store
        available := s.available ∪ (s.store.used \ store.used).image fun m => (m.rank, m.addr) }

/-- What is done with nodes. -/
inductive Operation (P : Type)
  | create (n : Node P) (addr : Nat)
  | destroy (n : Node P)
  | incrRefCount (n : Node P)
  | decrRefCount (n : Node P)

/-- The factories after an operation. -/
def step (s : Factories P) : Operation P → Factories P
  | .create n addr => s.create n addr
  | .destroy n => s.destroy n
  | .incrRefCount n => { s with store := s.store.incr n, held := n :: s.held }
  | .decrRefCount n => { s with store := s.store.decr n, held := s.held.erase n }

/-- The operations that there are: operands are in use, and so is what is
destroyed or incremented; a decrement undoes an increment.  An object comes
from the available ones of the class, and is a new one when there are none. -/
def Allowed (s : Factories P) : Operation P → Prop
  | .create n addr =>
      n ≠ .null ∧ (∀ c ∈ n.operands, c ∈ s.store.used) ∧
        ((n.rank, some addr) ∈ s.available ∨
          ((∀ p ∈ s.available, p.1 ≠ n.rank ∧ p.2 ≠ some addr) ∧
            ∀ m ∈ s.store.used, m.addr ≠ some addr))
  | .destroy n => n ∈ s.store.used
  | .incrRefCount n => n ∈ s.store.used
  | .decrRefCount n => n ∈ s.held

/-- Used nodes share all structure, the counts are those of the references and
increments, and used nodes refer to no available object. -/
structure Exact (s : Factories P) : Prop where
  unique : ∀ a ∈ s.store.used, ∀ b ∈ s.store.used, a.shape = b.shape → a = b
  counted : ∀ n ∈ s.store.used,
    s.store.refs n = (RefStore.references nodeShape s.store.used n + s.held.count n : Nat)
  live : ∀ n ∈ s.store.used, ∀ c ∈ n.operands, (c.rank, c.addr) ∉ s.available

/-- A node of a class whose comparison negates is created once more. -/
def Rebuilds (s : Factories P) : Operation P → Prop
  | .create n _ => n.negates = true ∧ ∃ m ∈ s.store.used, m.shape = n.shape
  | _ => False

/-! ## Objects of one structure -/

/-- Where an object lies matters only among pointers to it. -/
theorem place_cmpLt {n z : Node P} {addr addr' : Nat} (h : z.addr ≠ some addr)
    (h' : z.addr ≠ some addr') (hn : n ≠ .null) :
    (n.place addr).cmpLt z = (n.place addr').cmpLt z ∧
      z.cmpLt (n.place addr) = z.cmpLt (n.place addr') := by
  rw [Node.cmpLt.eq_def (n.place addr), Node.cmpLt.eq_def (n.place addr'),
    Node.cmpLt.eq_def z (n.place addr), Node.cmpLt.eq_def z (n.place addr'),
    Node.place_addr hn, Node.place_addr hn, if_neg (Ne.symm h), if_neg (Ne.symm h'), if_neg h,
    if_neg h']
  cases n <;> cases z <;> exact ⟨rfl, rfl⟩

/-- Pointers to one structure, where objects of one structure are the same. -/
theorem eq_of_pointee {a b : Node P} (hshape : a.shape = b.shape)
    (h : ∀ c ∈ a.pointee, ∀ d ∈ b.pointee, c.shape = d.shape → c = d) : a = b := by
  by_cases ha : a = .null
  · subst ha
    cases b <;> first | rfl | cases hshape
  · have hb : b ≠ .null := by
      intro hb
      subst hb
      cases a <;> first | exact ha rfl | cases hshape
    exact h a (Node.self_mem_pointee ha) b (Node.self_mem_pointee hb) hshape

/-- Objects over the same operands and of one structure differ in the address. -/
theorem eq_place {n y : Node P} (hn : n ≠ .null) (hshape : y.shape = n.shape)
    (hoperands : ∀ c ∈ y.operands, ∀ d ∈ n.operands, c.shape = d.shape → c = d) :
    ∃ addr, y = n.place addr := by
  cases n with
  | null => exact absurd rfl hn
  | filterFunction addr f =>
      cases y <;> cases hshape
      exact ⟨_, rfl⟩
  | predicate addr e =>
      cases y <;> cases hshape
      exact ⟨_, rfl⟩
  | unary addr cls m =>
      cases y with
      | unary addr' cls' m' =>
          simp only [Node.shape, Node.unary.injEq, true_and] at hshape
          have hm : m' = m := hoperands _ List.mem_cons_self _ List.mem_cons_self hshape.2
          exact ⟨addr', by rw [Node.place, hshape.1, hm]⟩
      | _ => cases hshape
  | binary addr cls a b =>
      cases y with
      | binary addr' cls' a' b' =>
          simp only [Node.shape, Node.binary.injEq, true_and] at hshape
          obtain ⟨hcls, ha, hb⟩ := hshape
          have ha' : a' = a := hoperands _ (by simp [Node.operands]) _ (by simp [Node.operands]) ha
          have hb' : b' = b := hoperands _ (by simp [Node.operands]) _ (by simp [Node.operands]) hb
          exact ⟨addr', by rw [Node.place, hcls, ha', hb']⟩
      | _ => cases hshape
  | depcov addr a b c =>
      cases y with
      | depcov addr' a' b' c' =>
          simp only [Node.shape, Node.depcov.injEq, true_and] at hshape
          obtain ⟨ha, hb, hc⟩ := hshape
          have ha' : a' = a := hoperands _ (by simp [Node.operands]) _ (by simp [Node.operands]) ha
          have hb' : b' = b := hoperands _ (by simp [Node.operands]) _ (by simp [Node.operands]) hb
          have hc' : c' = c := hoperands _ (by simp [Node.operands]) _ (by simp [Node.operands]) hc
          exact ⟨addr', by rw [Node.place, ha', hb', hc']⟩
      | _ => cases hshape
  | query addr p c s =>
      cases y with
      | query addr' p' c' s' =>
          simp only [Node.shape, Node.query.injEq, true_and] at hshape
          obtain ⟨hp, hc, hs⟩ := hshape
          have hp' : p' = p := eq_of_pointee hp fun m hm k hk =>
            hoperands m (List.mem_append_left _ hm) k (List.mem_append_left _ hk)
          have hc' : c' = c := hoperands _ (by simp [Node.operands]) _ (by simp [Node.operands]) hc
          have hs' : s' = s := eq_of_pointee hs fun m hm k hk =>
            hoperands m (List.mem_append_right _ (List.mem_cons_of_mem _ hm)) k
              (List.mem_append_right _ (List.mem_cons_of_mem _ hk))
          exact ⟨addr', by rw [Node.place, hp', hc', hs']⟩
      | _ => cases hshape

/-! ## The invariant -/

/-- What holds of the factories until a node is rebuilt. -/
structure Inv (s : Factories P) : Prop where
  counted : s.store.Counted nodeShape s.held
  null_notMem : .null ∉ s.store.used
  eq_of_addr : ∀ a ∈ s.store.used, ∀ b ∈ s.store.used, a.addr = b.addr → a = b
  notAvailable : ∀ n ∈ s.store.used, ∀ rank, (rank, n.addr) ∉ s.available
  class_of_addr : ∀ p ∈ s.available, ∀ q ∈ s.available, p.2 = q.2 → p.1 = q.1
  unique : ∀ a ∈ s.store.used, ∀ b ∈ s.store.used, a.shape = b.shape → a = b

namespace Inv

variable {s : Factories P}

/-- The invariant holds at the start. -/
theorem init : (init : Factories P).Inv where
  counted := RefStore.Counted.empty
  null_notMem := Finset.notMem_empty _
  eq_of_addr a ha := absurd ha (Finset.notMem_empty a)
  notAvailable n hn := absurd hn (Finset.notMem_empty n)
  class_of_addr p hp := absurd hp (Finset.notMem_empty p)
  unique a ha := absurd ha (Finset.notMem_empty a)

/-- The invariant is what is asked for, and more. -/
theorem exact (h : s.Inv) : s.Exact where
  unique := h.unique
  counted n _ := h.counted.counted n
  live n hn c hc := h.notAvailable c (h.counted.closed n hn c hc) c.rank

/-- The used nodes. -/
def heap (h : s.Inv) : Heap P where
  objects := s.store.used
  null_notMem := h.null_notMem
  closed := h.counted.closed
  eq_of_addr := h.eq_of_addr

/-- The shapes on the heap are apart. -/
theorem apart (h : s.Inv) : h.heap.Apart := fun a ha b hb _ => h.unique a ha b hb

variable {n : Node P} {addr : Nat}

/-- No used node lies where an object is filled. -/
theorem addr_ne (h : s.Inv) (hallowed : s.Allowed (.create n addr)) {m : Node P}
    (hm : m ∈ s.store.used) : m.addr ≠ some addr := by
  obtain ⟨_, _, havailable | ⟨_, hfresh⟩⟩ := hallowed
  · intro heq
    exact h.notAvailable m hm n.rank (heq ▸ havailable)
  · exact hfresh m hm

/-- The used nodes and one more. -/
def heapWith (h : s.Inv) (hallowed : s.Allowed (.create n addr)) : Heap P where
  objects := insert (n.place addr) s.store.used
  null_notMem := by
    intro hnull
    obtain hnull | hnull := hnull
    · exact Node.place_ne_null hallowed.1 addr hnull.symm
    · exact h.null_notMem hnull
  closed := by
    intro m hm c hc
    obtain rfl | hm := hm
    · rw [Node.place_operands] at hc
      exact Or.inr (hallowed.2.1 c hc)
    · exact Or.inr (h.counted.closed m hm c hc)
  eq_of_addr := by
    intro a ha b hb haddr
    have hplace := Node.place_addr hallowed.1 addr
    obtain rfl | ha := ha
    · obtain rfl | hb := hb
      · rfl
      · exact absurd (haddr.symm.trans hplace) (h.addr_ne hallowed hb)
    · obtain rfl | hb := hb
      · exact absurd (haddr.trans hplace) (h.addr_ne hallowed ha)
      · exact h.eq_of_addr a ha b hb haddr

/-- Short of a rebuilt node, the order tells the structures apart. -/
theorem heapWith_apart (h : s.Inv) (hallowed : s.Allowed (.create n addr))
    (hrebuilds : ¬ s.Rebuilds (.create n addr)) : (h.heapWith hallowed).Apart := by
  intro a ha b hb hneg hshape
  obtain rfl | ha := ha
  · obtain rfl | hb := hb
    · rfl
    · rw [Node.place_negates] at hneg
      rw [Node.place_shape] at hshape
      exact absurd ⟨hneg, b, hb, hshape.symm⟩ hrebuilds
  · obtain rfl | hb := hb
    · rw [Node.place_shape] at hshape
      rw [← Node.shape_negates, hshape, Node.shape_negates] at hneg
      exact absurd ⟨hneg, a, ha, hshape⟩ hrebuilds
    · exact h.unique a ha b hb hshape

/-- What `create` finds, short of a rebuilt node: the used nodes of that structure. -/
theorem mem_equivalent (h : s.Inv) (hallowed : s.Allowed (.create n addr))
    (hrebuilds : ¬ s.Rebuilds (.create n addr)) {m : Node P} :
    m ∈ s.equivalent (n.place addr) ↔ m ∈ s.store.used ∧ m.shape = n.shape := by
  rw [equivalent, Finset.mem_filter]
  refine and_congr_right fun hm => ?_
  have hiff := Heap.incomparable_iff_shape (h.heapWith_apart hallowed hrebuilds)
    (Set.mem_insert (n.place addr) _) (Set.mem_insert_of_mem (n.place addr) hm)
  rw [Node.place_shape, Heap.Incomparable] at hiff
  rw [hiff]
  refine ⟨fun hfound => hfound.2.symm, fun hshape => ⟨?_, hshape.symm⟩⟩
  rw [← Node.shape_rank m, hshape, Node.shape_rank, Node.place_rank]

/-- `create` does not find a rebuilt node: the objects of its structure come
before each other, and the other nodes have other structures. -/
theorem equivalent_of_rebuilds (h : s.Inv) (hallowed : s.Allowed (.create n addr))
    (hrebuilds : s.Rebuilds (.create n addr)) : s.equivalent (n.place addr) = ∅ := by
  obtain ⟨hneg, y, hy, hshape⟩ := hrebuilds
  have hsame : ∀ c ∈ y.operands, ∀ d ∈ n.operands, c.shape = d.shape → c = d := fun c hc d hd =>
    h.unique c (h.counted.closed y hy c hc) d (hallowed.2.1 d hd)
  obtain ⟨addr', rfl⟩ := eq_place hallowed.1 hshape hsame
  rw [equivalent, Finset.filter_eq_empty_iff]
  intro z hz hfound
  obtain ⟨_, hlt, hgt⟩ := hfound
  have hne : (n.place addr).addr ≠ (n.place addr').addr := by
    rw [Node.place_addr hallowed.1]
    exact (h.addr_ne hallowed hy).symm
  by_cases hzy : z.addr = some addr'
  · have hz' : z = n.place addr' :=
      h.eq_of_addr z hz _ hy (hzy.trans (Node.place_addr hallowed.1 addr').symm)
    have htwins : (n.place addr).cmpLt (n.place addr') = true := by
      refine Heap.cmpLt_of_negates ((n.place_negates addr).trans hneg) ?_ hne ?_
      · rw [Node.place_shape, Node.place_shape]
      · intro c hc d hd hcd
        rw [Node.place_operands] at hc
        have hcd' : d = c := hsame d hd c hc hcd.symm
        rw [hcd']
        exact ⟨Node.cmpLt_of_addr rfl, Node.cmpLt_of_addr rfl⟩
    rw [hz', htwins] at hlt
    cases hlt
  · obtain ⟨hlt', hgt'⟩ := place_cmpLt (h.addr_ne hallowed hz) hzy hallowed.1
    rw [hlt'] at hlt
    rw [hgt'] at hgt
    have hzn : (n.place addr').shape = z.shape :=
      (Heap.incomparable_iff_shape h.apart hy hz).mp ⟨hlt, hgt⟩
    have hzy' : n.place addr' = z := h.unique _ hy z hz hzn
    rw [← hzy'] at hzy
    exact hzy (Node.place_addr hallowed.1 addr')

/-! ### The operations -/

/-- A new object: of a new structure, or of a rebuilt node. -/
theorem create_of_empty (h : s.Inv) (hallowed : s.Allowed (.create n addr))
    (hnew : s.equivalent (n.place addr) = ∅) :
    (s.step (.create n addr)).store.used = insert (n.place addr) s.store.used ∧
      (s.step (.create n addr)).store.Counted nodeShape (s.step (.create n addr)).held ∧
      (s.step (.create n addr)).available = s.available.erase (n.rank, some addr) := by
  have hnotMem : n.place addr ∉ s.store.used := fun hmem =>
    h.addr_ne hallowed hmem (Node.place_addr hallowed.1 addr)
  have hoperands : ∀ c ∈ nodeShape.operands (n.place addr), c ∈ s.store.used := fun c hc =>
    hallowed.2.1 c (n.place_operands addr ▸ hc)
  have hstep : s.step (.create n addr) = { s with
      store := s.store.create nodeShape (n.place addr)
      available := s.available.erase (n.rank, some addr) } := by
    rw [step, create, if_neg (Finset.not_nonempty_iff_eq_empty.mpr hnew)]
  rw [hstep]
  refine ⟨?_, h.counted.create hoperands, rfl⟩
  simp only [RefStore.create, hnotMem, if_false]

/-- What is available at the address of a filled object is of its class. -/
theorem rank_of_available (h : s.Inv) (hallowed : s.Allowed (.create n addr)) {p : Nat × Option Nat}
    (hp : p ∈ s.available) (haddr : p.2 = some addr) : p.1 = n.rank := by
  obtain ⟨_, _, havailable | ⟨hfresh, _⟩⟩ := hallowed
  · exact h.class_of_addr p hp _ havailable haddr
  · exact absurd haddr (hfresh p hp).2

/-- `create` keeps the invariant where it rebuilds nothing. -/
theorem create (h : s.Inv) (hallowed : s.Allowed (.create n addr))
    (hrebuilds : ¬ s.Rebuilds (.create n addr)) : (s.step (.create n addr)).Inv := by
  by_cases hold : ∃ m ∈ s.store.used, m.shape = n.shape
  · obtain ⟨m, hm, hshape⟩ := hold
    have hstep : s.step (.create n addr)
        = { s with available := insert (n.rank, some addr) s.available } := by
      rw [step, Factories.create,
        if_pos ⟨m, (h.mem_equivalent hallowed hrebuilds).mpr ⟨hm, hshape⟩⟩]
    rw [hstep]
    refine ⟨h.counted, h.null_notMem, h.eq_of_addr, ?_, ?_, h.unique⟩
    · intro k hk rank hmem
      rcases Finset.mem_insert.mp hmem with heq | hmem
      · exact h.addr_ne hallowed hk (congrArg Prod.snd heq)
      · exact h.notAvailable k hk rank hmem
    · intro p hp q hq haddr
      rcases Finset.mem_insert.mp hp with rfl | hp
      · rcases Finset.mem_insert.mp hq with rfl | hq
        · rfl
        · exact (h.rank_of_available hallowed hq haddr.symm).symm
      · rcases Finset.mem_insert.mp hq with rfl | hq
        · exact h.rank_of_available hallowed hp haddr
        · exact h.class_of_addr p hp q hq haddr
  · have hnew : s.equivalent (n.place addr) = ∅ := by
      rw [Finset.eq_empty_iff_forall_notMem]
      intro m hm
      exact hold ⟨m, (h.mem_equivalent hallowed hrebuilds).mp hm⟩
    obtain ⟨hused, hcounted, havailable⟩ := h.create_of_empty hallowed hnew
    have hmem : ∀ k, k ∈ (s.step (.create n addr)).store.used →
        k ∈ (h.heapWith hallowed).objects := by
      intro k hk
      rw [hused] at hk
      exact Finset.mem_insert.mp hk
    refine ⟨hcounted, fun hnull => (h.heapWith hallowed).null_notMem (hmem _ hnull),
      fun a ha b hb => (h.heapWith hallowed).eq_of_addr a (hmem a ha) b (hmem b hb), ?_, ?_, ?_⟩
    · intro k hk rank havail
      rw [havailable] at havail
      obtain ⟨hne, havail⟩ := Finset.mem_erase.mp havail
      rw [hused] at hk
      rcases Finset.mem_insert.mp hk with rfl | hk
      · rw [Node.place_addr hallowed.1] at hne havail
        exact hne (Prod.ext (h.rank_of_available hallowed havail rfl) rfl)
      · exact h.notAvailable k hk rank havail
    · intro p hp q hq
      rw [havailable] at hp hq
      exact h.class_of_addr p (Finset.mem_of_mem_erase hp) q (Finset.mem_of_mem_erase hq)
    · intro a ha b hb hshape
      rw [hused] at ha hb
      rcases Finset.mem_insert.mp ha with rfl | ha
      · rcases Finset.mem_insert.mp hb with rfl | hb
        · rfl
        · exact absurd ⟨b, hb, by rw [← hshape, Node.place_shape]⟩ hold
      · rcases Finset.mem_insert.mp hb with rfl | hb
        · exact absurd ⟨a, ha, by rw [hshape, Node.place_shape]⟩ hold
        · exact h.unique a ha b hb hshape

/-- `destroy` keeps the invariant. -/
theorem destroy (h : s.Inv) (hallowed : s.Allowed (.destroy n)) :
    (s.step (.destroy n)).Inv := by
  obtain ⟨store, hdestroy, hcounted, _⟩ := RefStore.destroy_spec h.counted hallowed
  have hsub : ∀ k ∈ store.used, k ∈ s.store.used := RefStore.destroy_used_subset hdestroy
  have hstep : s.step (.destroy n) = { s with
      store
      available := s.available ∪ (s.store.used \ store.used).image fun m => (m.rank, m.addr) } := by
    rw [step, Factories.destroy, hdestroy]
  have hgone : ∀ p ∈ (s.store.used \ store.used).image fun m => (m.rank, m.addr),
      ∃ m ∈ s.store.used, m ∉ store.used ∧ p = (m.rank, m.addr) := by
    intro p hp
    obtain ⟨m, hm, rfl⟩ := Finset.mem_image.mp hp
    obtain ⟨hused, hout⟩ := Finset.mem_sdiff.mp hm
    exact ⟨m, hused, hout, rfl⟩
  rw [hstep]
  refine ⟨hcounted, fun hnull => h.null_notMem (hsub _ hnull),
    fun a ha b hb => h.eq_of_addr a (hsub a ha) b (hsub b hb), ?_, ?_,
    fun a ha b hb => h.unique a (hsub a ha) b (hsub b hb)⟩
  · intro k hk rank havail
    rcases Finset.mem_union.mp havail with havail | havail
    · exact h.notAvailable k (hsub k hk) rank havail
    · obtain ⟨m, hused, hout, heq⟩ := hgone _ havail
      have hkm : k = m := h.eq_of_addr k (hsub k hk) m hused (congrArg Prod.snd heq)
      exact hout (hkm ▸ hk)
  · intro p hp q hq haddr
    rcases Finset.mem_union.mp hp with hp | hp
    · rcases Finset.mem_union.mp hq with hq | hq
      · exact h.class_of_addr p hp q hq haddr
      · obtain ⟨m, hused, _, rfl⟩ := hgone q hq
        obtain ⟨rank, place⟩ := p
        cases haddr
        exact absurd hp (h.notAvailable m hused rank)
    · obtain ⟨m, hused, _, rfl⟩ := hgone p hp
      rcases Finset.mem_union.mp hq with hq | hq
      · obtain ⟨rank, place⟩ := q
        cases haddr
        exact absurd hq (h.notAvailable m hused rank)
      · obtain ⟨k, hkused, _, rfl⟩ := hgone q hq
        rw [h.eq_of_addr m hused k hkused haddr]

/-- **The step lemma.**  Operations keep the invariant unless they rebuild a node. -/
theorem step (h : s.Inv) {op : Operation P} (hallowed : s.Allowed op)
    (hrebuilds : ¬ s.Rebuilds op) : (s.step op).Inv := by
  cases op with
  | create n addr => exact h.create hallowed hrebuilds
  | destroy n => exact h.destroy hallowed
  | incrRefCount n =>
      exact ⟨h.counted.incr hallowed, h.null_notMem, h.eq_of_addr, h.notAvailable,
        h.class_of_addr, h.unique⟩
  | decrRefCount n =>
      have hperm : s.held.Perm (n :: s.held.erase n) := List.perm_cons_erase hallowed
      exact ⟨(h.counted.perm hperm).decr, h.null_notMem, h.eq_of_addr, h.notAvailable,
        h.class_of_addr, h.unique⟩

/-- A rebuilt node is there twice. -/
theorem not_exact (h : s.Inv) {op : Operation P} (hallowed : s.Allowed op)
    (hrebuilds : s.Rebuilds op) : ¬ (s.step op).Exact := by
  cases op with
  | destroy n => cases hrebuilds
  | incrRefCount n => cases hrebuilds
  | decrRefCount n => cases hrebuilds
  | create n addr =>
      intro hexact
      obtain ⟨hused, _, _⟩ :=
        h.create_of_empty hallowed (h.equivalent_of_rebuilds hallowed hrebuilds)
      obtain ⟨_, m, hm, hshape⟩ := hrebuilds
      have heq : m = n.place addr := hexact.unique m (hused ▸ Finset.mem_insert_of_mem hm)
        _ (hused ▸ Finset.mem_insert_self _ _) (by rw [hshape, Node.place_shape])
      exact h.addr_ne hallowed hm (heq ▸ Node.place_addr hallowed.1 addr)

end Inv

/-! ## Runs -/

/-- **Hash-consing.**  Along every run of operations, the used nodes share all
structure, have exact reference counts and refer to no available object after
every step if and only if no step creates a `Depcov`, `Filter_Compose` or
`Filter_Setminus` node that is in use. -/
theorem exact_iff (ops : List (Operation P)) (hallowed : AllSteps step Allowed init ops) :
    AllSteps step (fun s op => (s.step op).Exact) init ops ↔
      AllSteps step (fun s op => ¬ s.Rebuilds op) init ops := by
  have hboth : AllSteps step (fun s op => s.Allowed op ∧ (s.step op).Exact) init ops ↔
      AllSteps step (fun s op => s.Allowed op ∧ ¬ s.Rebuilds op) init ops := by
    refine AllSteps.iff_inv Inv ?_ ?_ Inv.init
    · intro s op h
      refine and_congr_right fun hop => ?_
      constructor
      · intro hexact hrebuilds
        exact h.not_exact hop hrebuilds hexact
      · intro hrebuilds
        exact (h.step hop hrebuilds).exact
    · intro s op h hgood
      refine h.step hgood.1 fun hrebuilds => ?_
      exact h.not_exact hgood.1 hrebuilds hgood.2
  rw [allSteps_and, allSteps_and] at hboth
  constructor
  · intro hexact
    exact (hboth.mp ⟨hallowed, hexact⟩).2
  · intro hrebuilds
    exact (hboth.mpr ⟨hallowed, hrebuilds⟩).2

/-- `@FILE("bla.c")`. -/
def fileNode : Node Nat := .filterFunction 0 (.fFile "bla.c")

/-- `@LINE(42)`. -/
def lineNode : Node Nat := .filterFunction 1 (.fLine 42)

/-- `SETMINUS(@FILE("bla.c"), @LINE(42))`. -/
def setminusNode : Node Nat := .binary 2 .filterSetminus fileNode lineNode

/-- The difference is created twice. -/
def setminusTwice : List (Operation Nat) :=
  [.create fileNode 0, .create lineNode 1, .create setminusNode 2, .create setminusNode 3]

/-- A node of a new structure, when no object is available. -/
theorem Inv.create_new {s : Factories P} (h : s.Inv) {n : Node P} (addr : Nat)
    (havailable : s.available = ∅) (hn : n ≠ .null) (hoperands : ∀ c ∈ n.operands, c ∈ s.store.used)
    (hfresh : ∀ m ∈ s.store.used, m.addr ≠ some addr ∧ m.shape ≠ n.shape) :
    s.Allowed (.create n addr) ∧ (s.step (.create n addr)).Inv ∧
      (s.step (.create n addr)).store.used = insert (n.place addr) s.store.used ∧
      (s.step (.create n addr)).available = ∅ := by
  have hallowed : s.Allowed (.create n addr) := by
    refine ⟨hn, hoperands, Or.inr ⟨?_, fun m hm => (hfresh m hm).1⟩⟩
    intro p hp
    rw [havailable] at hp
    exact absurd hp (Finset.notMem_empty p)
  have hrebuilds : ¬ s.Rebuilds (.create n addr) := by
    intro hrebuilds
    obtain ⟨_, m, hm, hshape⟩ := hrebuilds
    exact (hfresh m hm).2 hshape
  have hnew : s.equivalent (n.place addr) = ∅ := by
    rw [Finset.eq_empty_iff_forall_notMem]
    intro m hm
    obtain ⟨hm, hshape⟩ := (h.mem_equivalent hallowed hrebuilds).mp hm
    exact (hfresh m hm).2 hshape
  obtain ⟨hused, _, herase⟩ := h.create_of_empty hallowed hnew
  refine ⟨hallowed, h.create hallowed hrebuilds, hused, ?_⟩
  rw [herase, havailable, Finset.erase_empty]

/-- The factories before the difference is created once more. -/
def beforeRebuild : Factories Nat :=
  ((init.step (.create fileNode 0)).step (.create lineNode 1)).step (.create setminusNode 2)

/-- The operation may be called, and it rebuilds a node. -/
theorem beforeRebuild_spec :
    beforeRebuild.Inv ∧ beforeRebuild.Allowed (.create setminusNode 3) ∧
      beforeRebuild.Rebuilds (.create setminusNode 3) ∧
      AllSteps step Allowed (init : Factories Nat) setminusTwice := by
  obtain ⟨hallowed₁, hinv₁, hused₁, havailable₁⟩ := (@Inv.init Nat _).create_new
    (n := fileNode) 0 rfl nofun nofun fun m hm => absurd hm (Finset.notMem_empty m)
  obtain ⟨hallowed₂, hinv₂, hused₂, havailable₂⟩ := hinv₁.create_new
    (n := lineNode) 1 havailable₁ nofun nofun (by rw [hused₁]; decide)
  obtain ⟨hallowed₃, hinv₃, hused₃, havailable₃⟩ := hinv₂.create_new
    (n := setminusNode) 2 havailable₂ nofun (by rw [hused₂, hused₁]; decide)
    (by rw [hused₂, hused₁]; decide)
  have hused : beforeRebuild.store.used = {setminusNode, lineNode, fileNode} := by
    rw [beforeRebuild, hused₃, hused₂, hused₁]
    rfl
  have hallowed₄ : beforeRebuild.Allowed (.create setminusNode 3) := by
    refine ⟨nofun, by rw [hused]; decide, Or.inr ⟨?_, by rw [hused]; decide⟩⟩
    rw [beforeRebuild, havailable₃]
    decide
  refine ⟨hinv₃, hallowed₄, ⟨rfl, setminusNode, ?_, rfl⟩, hallowed₁, hallowed₂, hallowed₃,
    hallowed₄, trivial⟩
  rw [hused]
  exact Finset.mem_insert_self _ _

/-- A difference that is created twice is there twice. -/
theorem setminusTwice_not_exact :
    ¬ ∀ ops : List (Operation Nat), AllSteps step Allowed init ops →
      AllSteps step (fun s op => (s.step op).Exact) init ops := by
  intro h
  obtain ⟨hinv, hallowed, hrebuilds, hrun⟩ := beforeRebuild_spec
  obtain ⟨_, _, _, hexact, _⟩ := h setminusTwice hrun
  exact hinv.not_exact hallowed hrebuilds hexact

theorem setminusTwice_exact_iff :
    AllSteps step Allowed (init : Factories Nat) setminusTwice ∧
      (AllSteps step (fun s op => (s.step op).Exact) (init : Factories Nat) setminusTwice ↔
        AllSteps step (fun s op => ¬ s.Rebuilds op) (init : Factories Nat) setminusTwice) :=
  ⟨beforeRebuild_spec.2.2.2, exact_iff setminusTwice beforeRebuild_spec.2.2.2⟩

end Factories

end FShell.Fql
