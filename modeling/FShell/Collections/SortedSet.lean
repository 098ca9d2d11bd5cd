import Mathlib

/-!
# Sets as sorted lists

A `SortedSet` is the sequence that the iterators of an ordered set walk.
The set algorithms are the merges of the standard library: they walk two
sequences side by side and are right because both are sorted.
-/

/-- A strictly increasing list. -/
structure SortedSet (α : Type*) [LinearOrder α] where
  toList : List α
  sorted : toList.Pairwise (· < ·)
  deriving DecidableEq

namespace SortedSet

variable {α : Type*} [LinearOrder α] {s t : SortedSet α} {x y : α}

instance : Membership α (SortedSet α) := ⟨fun s x => x ∈ s.toList⟩

instance (s : SortedSet α) (x : α) : Decidable (x ∈ s) := inferInstanceAs (Decidable (x ∈ s.toList))

/-- The list has the elements of the set. -/
theorem mem_toList : x ∈ s.toList ↔ x ∈ s := Iff.rfl

/-- A set is determined by its elements. -/
@[ext] theorem ext (h : ∀ x, x ∈ s ↔ x ∈ t) : s = t := by
  obtain ⟨l, hl⟩ := s
  obtain ⟨m, hm⟩ := t
  congr 1
  have hperm : l.Perm m :=
    (List.perm_ext_iff_of_nodup (hl.imp ne_of_lt) (hm.imp ne_of_lt)).mpr h
  exact hperm.eq_of_pairwise (fun a b _ _ hab hba => absurd hba (lt_asymm hab)) hl hm

/-! ## Single elements -/

def empty : SortedSet α := ⟨[], List.Pairwise.nil⟩

/-- The empty set has no elements. -/
@[simp] theorem notMem_empty : x ∉ (empty : SortedSet α) := List.not_mem_nil

/-- The position of `x` in a sorted list. -/
def insertList (x : α) : List α → List α
  | [] => [x]
  | y :: ys => if x < y then x :: y :: ys else if y < x then y :: insertList x ys else y :: ys

/-- Inserting brings one element. -/
theorem mem_insertList {l : List α} : y ∈ insertList x l ↔ y = x ∨ y ∈ l := by
  induction l with
  | nil => simp [insertList]
  | cons z zs ih =>
      unfold insertList
      split_ifs with hlt hgt
      · simp
      · simp only [List.mem_cons, ih]
        grind
      · have heq : x = z := le_antisymm (not_lt.mp hgt) (not_lt.mp hlt)
        simp only [List.mem_cons, heq]
        grind

/-- Inserting keeps the order. -/
theorem insertList_sorted {l : List α} (h : l.Pairwise (· < ·)) :
    (insertList x l).Pairwise (· < ·) := by
  induction l with
  | nil => exact List.pairwise_singleton _ x
  | cons z zs ih =>
      rw [List.pairwise_cons] at h
      unfold insertList
      split_ifs with hlt hgt
      · refine List.pairwise_cons.mpr ⟨?_, List.pairwise_cons.mpr h⟩
        intro y hy
        rcases List.mem_cons.mp hy with rfl | hy
        · exact hlt
        · exact hlt.trans (h.1 y hy)
      · refine List.pairwise_cons.mpr ⟨?_, ih h.2⟩
        intro y hy
        rcases mem_insertList.mp hy with rfl | hy
        · exact hgt
        · exact h.1 y hy
      · exact List.pairwise_cons.mpr h

def insert (s : SortedSet α) (x : α) : SortedSet α :=
  ⟨insertList x s.toList, insertList_sorted s.sorted⟩

/-- The elements after `insert`. -/
@[simp] theorem mem_insert : y ∈ s.insert x ↔ y = x ∨ y ∈ s := mem_insertList

/-- `insert` of a whole range, or `copy` through an inserter. -/
def insertAll (s : SortedSet α) (l : List α) : SortedSet α := l.foldl insert s

/-- The elements after `insert(first, last)`. -/
@[simp] theorem mem_insertAll {l : List α} : y ∈ s.insertAll l ↔ y ∈ l ∨ y ∈ s := by
  induction l generalizing s with
  | nil => simp [insertAll]
  | cons x l ih =>
      have hrest := ih (s := s.insert x)
      rw [mem_insert] at hrest
      rw [List.mem_cons, or_assoc, or_left_comm, ← hrest]
      rfl

/-- `find`, and `erase` of what is found. -/
def erase (s : SortedSet α) (x : α) : SortedSet α :=
  ⟨s.toList.filter (· ≠ x), s.sorted.filter _⟩

/-- The elements after `erase`. -/
@[simp] theorem mem_erase : y ∈ s.erase x ↔ y ∈ s ∧ y ≠ x := by
  rw [← mem_toList]
  simp [erase, mem_toList]

/-! ## Merges -/

/-- `std::set_intersection`. -/
def interList : List α → List α → List α
  | [], _ => []
  | _, [] => []
  | x :: xs, y :: ys =>
      if x < y then interList xs (y :: ys)
      else if y < x then interList (x :: xs) ys
      else x :: interList xs ys
termination_by l m => l.length + m.length

/-- `std::set_difference`. -/
def diffList : List α → List α → List α
  | [], _ => []
  | xs, [] => xs
  | x :: xs, y :: ys =>
      if x < y then x :: diffList xs (y :: ys)
      else if y < x then diffList (x :: xs) ys
      else diffList xs ys
termination_by l m => l.length + m.length

/-- The merge for `set_intersection` copies from the first list. -/
theorem interList_sublist (l m : List α) : (interList l m).Sublist l := by
  fun_induction interList l m with
  | case1 => exact List.Sublist.refl _
  | case2 => exact List.nil_sublist _
  | case3 x xs y ys _ ih => exact ih.cons x
  | case4 x xs y ys _ _ ih => exact ih
  | case5 x xs y ys _ _ ih => exact ih.cons_cons x

/-- The merge for `set_difference` copies from the first list. -/
theorem diffList_sublist (l m : List α) : (diffList l m).Sublist l := by
  fun_induction diffList l m with
  | case1 => exact List.Sublist.refl _
  | case2 => exact List.Sublist.refl _
  | case3 x xs y ys _ ih => exact ih.cons_cons x
  | case4 x xs y ys _ _ ih => exact ih
  | case5 x xs y ys _ _ ih => exact ih.cons x

/-- What is smaller than the head of a sorted list is not in it. -/
theorem notMem_of_lt {z : α} {l : List α} (h : (z :: l).Pairwise (· < ·)) (hlt : x < z) :
    x ∉ z :: l := by
  intro hx
  rcases List.mem_cons.mp hx with rfl | hx
  · exact lt_irrefl _ hlt
  · exact lt_asymm hlt ((List.pairwise_cons.mp h).1 x hx)

/-- On sorted lists the merge copies what both have. -/
theorem mem_interList {l m : List α} (hl : l.Pairwise (· < ·)) (hm : m.Pairwise (· < ·)) :
    x ∈ interList l m ↔ x ∈ l ∧ x ∈ m := by
  fun_induction interList l m with
  | case1 => simp
  | case2 => simp
  | case3 a as b bs hlt ih =>
      rw [ih (List.pairwise_cons.mp hl).2 hm, List.mem_cons (a := x) (b := a)]
      have ha : a ∉ b :: bs := notMem_of_lt hm hlt
      constructor
      · exact fun h => ⟨Or.inr h.1, h.2⟩
      · intro hx
        obtain ⟨rfl | h, hb⟩ := hx
        · exact absurd hb ha
        · exact ⟨h, hb⟩
  | case4 a as b bs _ hgt ih =>
      rw [ih hl (List.pairwise_cons.mp hm).2, List.mem_cons (a := x) (b := b)]
      have hb : b ∉ a :: as := notMem_of_lt hl hgt
      constructor
      · exact fun h => ⟨h.1, Or.inr h.2⟩
      · intro hx
        obtain ⟨ha, rfl | h⟩ := hx
        · exact absurd ha hb
        · exact ⟨ha, h⟩
  | case5 a as b bs hlt hgt ih =>
      have heq : a = b := le_antisymm (not_lt.mp hgt) (not_lt.mp hlt)
      subst heq
      rw [List.mem_cons, ih (List.pairwise_cons.mp hl).2 (List.pairwise_cons.mp hm).2,
        List.mem_cons, List.mem_cons]
      grind

/-- On sorted lists the merge copies what the second lacks. -/
theorem mem_diffList {l m : List α} (hl : l.Pairwise (· < ·)) (hm : m.Pairwise (· < ·)) :
    x ∈ diffList l m ↔ x ∈ l ∧ x ∉ m := by
  fun_induction diffList l m with
  | case1 => simp
  | case2 => simp
  | case3 a as b bs hlt ih =>
      have ha : a ∉ b :: bs := notMem_of_lt hm hlt
      rw [List.mem_cons, ih (List.pairwise_cons.mp hl).2 hm, List.mem_cons (a := x) (b := a)]
      constructor
      · intro hall
        rcases hall with rfl | h
        · exact ⟨Or.inl rfl, ha⟩
        · exact ⟨Or.inr h.1, h.2⟩
      · intro hall
        obtain ⟨rfl | h, hb⟩ := hall
        · exact Or.inl rfl
        · exact Or.inr ⟨h, hb⟩
  | case4 a as b bs _ hgt ih =>
      have hb : b ∉ a :: as := notMem_of_lt hl hgt
      rw [ih hl (List.pairwise_cons.mp hm).2]
      constructor
      · intro hall
        obtain ⟨ha, hbs⟩ := hall
        refine ⟨ha, fun h => ?_⟩
        rcases List.mem_cons.mp h with rfl | h
        · exact hb ha
        · exact hbs h
      · exact fun h => ⟨h.1, fun hbs => h.2 (List.mem_cons_of_mem _ hbs)⟩
  | case5 a as b bs hlt hgt ih =>
      have heq : a = b := le_antisymm (not_lt.mp hgt) (not_lt.mp hlt)
      subst heq
      have ha : a ∉ as := fun h => lt_irrefl a ((List.pairwise_cons.mp hl).1 a h)
      rw [ih (List.pairwise_cons.mp hl).2 (List.pairwise_cons.mp hm).2]
      constructor
      · intro hall
        obtain ⟨hx, hbs⟩ := hall
        refine ⟨List.mem_cons_of_mem _ hx, fun h => ?_⟩
        rcases List.mem_cons.mp h with rfl | h
        · exact ha hx
        · exact hbs h
      · intro hall
        obtain ⟨hx, hbs⟩ := hall
        have hne : x ≠ a := fun h => hbs (h ▸ List.mem_cons_self)
        exact ⟨(List.mem_cons.mp hx).resolve_left hne,
          fun h => hbs (List.mem_cons_of_mem _ h)⟩

def inter (s t : SortedSet α) : SortedSet α :=
  ⟨interList s.toList t.toList, s.sorted.sublist (interList_sublist _ _)⟩

def diff (s t : SortedSet α) : SortedSet α :=
  ⟨diffList s.toList t.toList, s.sorted.sublist (diffList_sublist _ _)⟩

/-- The elements of the intersection. -/
@[simp] theorem mem_inter : x ∈ s.inter t ↔ x ∈ s ∧ x ∈ t := mem_interList s.sorted t.sorted

/-- The elements of the difference. -/
@[simp] theorem mem_diff : x ∈ s.diff t ↔ x ∈ s ∧ x ∉ t := mem_diffList s.sorted t.sorted

end SortedSet
