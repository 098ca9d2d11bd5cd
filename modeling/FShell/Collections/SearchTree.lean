import Mathlib

/-!
# Search trees under a comparison that changes

An ordered set finds an element by comparisons on the way down from the root.
The nodes were linked under the comparison that held when they were inserted,
and may be searched under another one.  If both agree on the elements, the tree
stays in order (`Sorted.congr`); and in a tree that is in order a search finds
what is there, however the tree is balanced (`find_eq`).
-/

/-- The nodes of an ordered set. -/
inductive SearchTree (α : Type*)
  | leaf
  | node (left : SearchTree α) (value : α) (right : SearchTree α)

namespace SearchTree

variable {α : Type*}

/-- The elements in the order of the iterators. -/
def toList : SearchTree α → List α
  | leaf => []
  | node l y r => l.toList ++ y :: r.toList

@[simp] theorem toList_leaf : (leaf : SearchTree α).toList = [] := rfl

@[simp] theorem toList_node {l r : SearchTree α} {y : α} :
    (node l y r).toList = l.toList ++ y :: r.toList := rfl

/-- The elements are in order. -/
def Sorted (lt : α → α → Bool) (t : SearchTree α) : Prop :=
  t.toList.Pairwise fun x y => lt x y = true

section Search

variable (lt : α → α → Bool)

/-- `lower_bound`: the last node on the way down that is not less than `x`. -/
def lowerBound (x : α) : SearchTree α → Option α → Option α
  | leaf, bound => bound
  | node l y r, bound => if lt y x then lowerBound x r bound else lowerBound x l (some y)

/-- `find`. -/
def find (t : SearchTree α) (x : α) : Option α :=
  (lowerBound lt x t none).filter fun y => !lt x y

/-- `insert`, without what balances the tree. -/
def insert (x : α) : SearchTree α → SearchTree α
  | leaf => node leaf x leaf
  | node l y r =>
      if lt x y then node (insert x l) y r
      else if lt y x then node l y (insert x r)
      else node l y r

end Search

variable {lt lt' : α → α → Bool} {t : SearchTree α} {x y : α}

/-! ## Searching -/

/-- The bound is the first element that is not less than `x`. -/
theorem lowerBound_eq {before after : List α} (heq : t.toList = before ++ after)
    (hbefore : ∀ y ∈ before, lt y x = true) (hafter : ∀ y ∈ after, lt y x = false)
    (bound : Option α) : lowerBound lt x t bound = after.head?.or bound := by
  induction t generalizing before after bound with
  | leaf =>
      obtain ⟨-, rfl⟩ := List.append_eq_nil_iff.mp heq.symm
      rfl
  | node l y r ihl ihr =>
      rw [toList_node] at heq
      rw [lowerBound]
      rcases List.append_eq_append_iff.mp heq with ⟨mid, hmid, hrest⟩ | ⟨mid, hmid, hrest⟩
      · -- the left subtree is less than `x`
        cases mid with
        | nil =>
            rw [List.nil_append] at hrest
            subst hrest
            have hy : lt y x = false := hafter y List.mem_cons_self
            rw [hmid, List.append_nil] at hbefore
            rw [if_neg (by simp [hy]), ihl (List.append_nil _).symm hbefore (by simp)]
            simp
        | cons z mid =>
            obtain ⟨rfl, hr⟩ := List.cons.inj hrest
            have hy : lt y x = true := hbefore y (by simp [hmid])
            rw [if_pos hy]
            exact ihr hr (fun z hz => hbefore z (by simp [hmid, hz])) hafter bound
      · -- the bound is in the left subtree, or `y` is
        have hy : lt y x = false := hafter y (by simp [hrest])
        rw [if_neg (by simp [hy]),
          ihl hmid hbefore fun z hz => hafter z (by simp [hrest, hz]), hrest]
        cases mid <;> simp

theorem mem_of_lowerBound {bound : Option α} (h : lowerBound lt x t bound = some y) :
    y ∈ t.toList ∨ bound = some y := by
  induction t generalizing bound with
  | leaf => exact Or.inr h
  | node l z r ihl ihr =>
      rw [lowerBound] at h
      rw [toList_node, List.mem_append, List.mem_cons]
      split_ifs at h
      · rcases ihr h with hmem | hbound
        · exact Or.inl (Or.inr (Or.inr hmem))
        · exact Or.inr hbound
      · rcases ihl h with hmem | hbound
        · exact Or.inl (Or.inl hmem)
        · exact Or.inl (Or.inr (Or.inl (Option.some.inj hbound).symm))

theorem lowerBound_not_lt {bound : Option α} (hbound : ∀ z, bound = some z → lt z x = false)
    (h : lowerBound lt x t bound = some y) : lt y x = false := by
  induction t generalizing bound with
  | leaf => exact hbound y h
  | node l z r ihl ihr =>
      rw [lowerBound] at h
      split_ifs at h with hz
      · exact ihr hbound h
      · refine ihl ?_ h
        intro w hw
        obtain rfl := Option.some.inj hw
        exact Bool.eq_false_of_not_eq_true hz

/-- What is found is an element that is equivalent to `x`. -/
theorem find_eq_some (h : find lt t x = some y) :
    y ∈ t.toList ∧ lt x y = false ∧ lt y x = false := by
  obtain ⟨hbound, hnot⟩ := Option.filter_eq_some_iff.mp h
  have hmem := (mem_of_lowerBound hbound).resolve_right (by simp)
  exact ⟨hmem, by simpa using hnot, lowerBound_not_lt (fun _ h => by cases h) hbound⟩

/-- Elements are found, in a tree that is in order. -/
theorem find_self (hasymm : ∀ x y, lt x y = true → lt y x = false) (hsorted : t.Sorted lt)
    (hx : x ∈ t.toList) : find lt t x = some x := by
  have hirrefl : lt x x = false := by
    by_contra hlt
    have hlt' := Bool.eq_true_of_not_eq_false hlt
    exact hlt (hasymm x x hlt')
  obtain ⟨before, after, heq⟩ := List.append_of_mem hx
  rw [Sorted, heq, List.pairwise_append] at hsorted
  obtain ⟨-, hafter, hbefore⟩ := hsorted
  rw [find, lowerBound_eq heq fun y hy => hbefore y hy x List.mem_cons_self]
  · simp [hirrefl]
  · intro y hy
    rcases List.mem_cons.mp hy with rfl | hy
    · exact hirrefl
    · exact hasymm x y ((List.pairwise_cons.mp hafter).1 y hy)

/-- **A search** finds `x` itself, if it is there, and nothing else, as long as no
element but `x` is equivalent to it. -/
theorem find_eq [Decidable (x ∈ t.toList)] (hasymm : ∀ x y, lt x y = true → lt y x = false)
    (hsorted : t.Sorted lt)
    (hapart : ∀ y ∈ t.toList, lt x y = false → lt y x = false → y = x) :
    find lt t x = if x ∈ t.toList then some x else none := by
  split_ifs with hx
  · exact find_self hasymm hsorted hx
  · refine Option.eq_none_iff_forall_ne_some.mpr ?_
    intro y hy
    obtain ⟨hmem, hxy, hyx⟩ := find_eq_some hy
    exact hx (hapart y hmem hxy hyx ▸ hmem)

/-! ## Another comparison -/

/-- A tree stays in order under a comparison that agrees on its elements. -/
theorem Sorted.congr (h : t.Sorted lt)
    (hagree : ∀ x ∈ t.toList, ∀ y ∈ t.toList, lt' x y = lt x y) : t.Sorted lt' :=
  List.Pairwise.imp_of_mem (fun hx hy hlt => (hagree _ hx _ hy).trans hlt) h

/-! ## Insertion -/

theorem mem_insert_of (h : y ∈ (insert lt x t).toList) : y = x ∨ y ∈ t.toList := by
  induction t with
  | leaf => exact Or.inl (List.mem_singleton.mp h)
  | node l z r ihl ihr =>
      rw [insert] at h
      split_ifs at h
      · simp only [toList_node, List.mem_append, List.mem_cons] at h ⊢
        rcases h with h | h
        · exact (ihl h).imp_right Or.inl
        · exact Or.inr (Or.inr h)
      · simp only [toList_node, List.mem_append, List.mem_cons] at h ⊢
        rcases h with h | h | h
        · exact Or.inr (Or.inl h)
        · exact Or.inr (Or.inr (Or.inl h))
        · exact (ihr h).imp_right fun h => Or.inr (Or.inr h)
      · exact Or.inr h

/-- Insertion keeps the order, where the comparison is transitive. -/
theorem Sorted.insert {S : α → Prop}
    (htrans : ∀ x y z, S x → S y → S z → lt x y = true → lt y z = true → lt x z = true)
    (ht : ∀ y ∈ t.toList, S y) (hx : S x) (h : t.Sorted lt) :
    (SearchTree.insert lt x t).Sorted lt := by
  induction t with
  | leaf => exact List.pairwise_singleton _ x
  | node l y r ihl ihr =>
      rw [toList_node] at ht
      have hl : ∀ z ∈ l.toList, S z := fun z hz => ht z (List.mem_append_left _ hz)
      have hy : S y := ht y List.mem_append_cons_self
      have hr : ∀ z ∈ r.toList, S z := fun z hz =>
        ht z (List.mem_append_right _ (List.mem_cons_of_mem _ hz))
      rw [Sorted, toList_node, List.pairwise_append, List.pairwise_cons] at h
      obtain ⟨hsl, ⟨hyr, hsr⟩, hlr⟩ := h
      rw [SearchTree.insert]
      split_ifs with hxy hyx
      · refine List.pairwise_append.mpr ⟨ihl hl hsl, List.pairwise_cons.mpr ⟨hyr, hsr⟩, ?_⟩
        intro a ha b hb
        rcases mem_insert_of ha with rfl | ha
        · rcases List.mem_cons.mp hb with rfl | hb
          · exact hxy
          · exact htrans a y b hx hy (hr b hb) hxy (hyr b hb)
        · exact hlr a ha b hb
      · refine List.pairwise_append.mpr ⟨hsl, List.pairwise_cons.mpr ⟨?_, ihr hr hsr⟩, ?_⟩
        · intro b hb
          rcases mem_insert_of hb with rfl | hb
          · exact hyx
          · exact hyr b hb
        · intro a ha b hb
          rcases List.mem_cons.mp hb with rfl | hb
          · exact hlr a ha b List.mem_cons_self
          · rcases mem_insert_of hb with rfl | hb
            · exact htrans a y b (hl a ha) hy hx (hlr a ha y List.mem_cons_self) hyx
            · exact hlr a ha b (List.mem_cons_of_mem _ hb)
      · exact List.pairwise_append.mpr ⟨hsl, List.pairwise_cons.mpr ⟨hyr, hsr⟩, hlr⟩

end SearchTree
