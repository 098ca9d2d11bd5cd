import FShell.Collections.SortedSet

/-!
# Maps to sets

A `SetMap` is an ordered map whose values are ordered sets, filled by
`m[k].insert(x)` only.  Such a map has an entry for a key exactly when the set
there is not empty, so that it is known from the pairs of a key and an element
of its set; these stand in lexicographic order.
-/

/-- `std::map<κ, std::set<α>>` without empty sets. -/
structure SetMap (κ α : Type*) [LinearOrder κ] [LinearOrder α] where
  pairs : SortedSet (κ ×ₗ α)

namespace SetMap

variable {κ α : Type*} [LinearOrder κ] [LinearOrder α] {m : SetMap κ α} {k k' : κ} {x y : α}

def empty : SetMap κ α := ⟨SortedSet.empty⟩

/-- `m[k].insert(x)`. -/
def insert (m : SetMap κ α) (k : κ) (x : α) : SetMap κ α := ⟨m.pairs.insert (toLex (k, x))⟩

/-- `m.find(k)->second`, the empty set when there is no entry. -/
def get (m : SetMap κ α) (k : κ) : SortedSet α where
  toList := (m.pairs.toList.filter fun p => (ofLex p).1 = k).map fun p => (ofLex p).2
  sorted := by
    rw [List.pairwise_map, List.pairwise_filter]
    apply m.pairs.sorted.imp
    intro p q hlt hp hq
    rcases Prod.Lex.lt_iff.mp hlt with h | ⟨-, h⟩
    · simp only [decide_eq_true_eq] at hp hq
      exact absurd (hp.trans hq.symm) h.ne
    · exact h

/-- The keys in the order of the iterators. -/
def keys (m : SetMap κ α) : SortedSet κ :=
  SortedSet.empty.insertAll (m.pairs.toList.map fun p => (ofLex p).1)

theorem mem_pairs : toLex (k, x) ∈ m.pairs ↔ x ∈ m.get k := by
  rw [← SortedSet.mem_toList (s := m.get k), get, List.mem_map]
  constructor
  · intro h
    exact ⟨toLex (k, x), List.mem_filter.mpr ⟨h, by simp⟩, rfl⟩
  · intro h
    obtain ⟨p, hp, rfl⟩ := h
    obtain ⟨hmem, hk⟩ := List.mem_filter.mp hp
    rw [decide_eq_true_eq] at hk
    subst hk
    exact hmem

@[simp] theorem notMem_get_empty : x ∉ (empty : SetMap κ α).get k := by
  rw [← mem_pairs]
  exact SortedSet.notMem_empty

@[simp] theorem mem_get_insert :
    y ∈ (m.insert k x).get k' ↔ (k' = k ∧ y = x) ∨ y ∈ m.get k' := by
  rw [← mem_pairs, ← mem_pairs, insert, SortedSet.mem_insert, toLex_inj, Prod.mk.injEq]

theorem mem_keys : k ∈ m.keys ↔ ∃ x, x ∈ m.get k := by
  rw [keys, SortedSet.mem_insertAll, List.mem_map]
  constructor
  · intro h
    obtain ⟨p, hp, rfl⟩ := h.resolve_right SortedSet.notMem_empty
    exact ⟨(ofLex p).2, mem_pairs.mp hp⟩
  · intro h
    obtain ⟨x, hx⟩ := h
    exact Or.inl ⟨toLex (k, x), mem_pairs.mpr hx, rfl⟩

/-- `m[k].insert(x)` for every `k` of a list. -/
theorem mem_get_foldl_insert {ks : List κ} :
    y ∈ (ks.foldl (fun m k => m.insert k x) m).get k' ↔ (k' ∈ ks ∧ y = x) ∨ y ∈ m.get k' := by
  induction ks generalizing m with
  | nil => simp
  | cons k ks ih =>
      rw [List.foldl_cons, ih, mem_get_insert, List.mem_cons]
      tauto

end SetMap
