import Mathlib

/-!
# Reference-counted stores

Nodes that refer to smaller nodes, kept once each with the number of
references to them.  Creating a node that is there already does nothing;
otherwise it is stored and its operands gain a reference.  Destroying a node
does nothing while it is referred to; otherwise it is taken out, its operands
lose a reference, and each of them is destroyed in turn.  Destroying a node
that is not there is undefined.

Where the counts are right, everything that is stored hangs below a **root**,
a node without a reference.  `destroy` takes one node out of the roots,
however far it cascades (`destroy_spec`).
-/

namespace FShell

/-- What the nodes refer to. -/
structure NodeShape (N : Type*) where
  operands : N → List N
  size : N → Nat
  operands_lt : ∀ {m n}, m ∈ operands n → size m < size n

/-- The nodes that are stored, and their reference counts. -/
@[ext]
structure RefStore (N : Type*) where
  used : Finset N
  refs : N → Int

namespace RefStore

variable {N : Type*} [DecidableEq N] (S : NodeShape N)

/-- A store without nodes. -/
def empty : RefStore N := ⟨∅, fun _ => 0⟩

/-- A node is stored unless it is there. -/
def create (n : N) (s : RefStore N) : RefStore N :=
  if n ∈ s.used then s
  else ⟨insert n s.used, fun c => s.refs c + (S.operands n).count c⟩

/-- A node is taken out. -/
def erase (n : N) (s : RefStore N) : RefStore N := { s with used := s.used.erase n }

/-- A node loses a reference. -/
def decr (c : N) (s : RefStore N) : RefStore N :=
  { s with refs := Function.update s.refs c (s.refs c - 1) }

/-- A node gains a reference. -/
def incr (c : N) (s : RefStore N) : RefStore N :=
  { s with refs := Function.update s.refs c (s.refs c + 1) }

/-- A node without references is taken out, and its operands are released. -/
def destroy (n : N) (s : RefStore N) : Option (RefStore N) :=
  if s.refs n ≠ 0 then some s
  else if n ∉ s.used then none
  else (S.operands n).attach.foldlM (fun s c => destroy c.1 (s.decr c.1)) (s.erase n)
termination_by S.size n
decreasing_by exact S.operands_lt c.2

/-- The nodes without a reference. -/
def roots (s : RefStore N) : Finset N := s.used.filter fun n => s.refs n = 0

/-- How often stored nodes refer to a node. -/
def references (used : Finset N) (c : N) : Nat := ∑ m ∈ used, (S.operands m).count c

/-- The operands of stored nodes are stored, and the counts are the numbers of
references from stored nodes and from `pending`, operands that are about to
lose a reference. -/
structure Counted (s : RefStore N) (pending : List N) : Prop where
  closed : ∀ n ∈ s.used, ∀ c ∈ S.operands n, c ∈ s.used
  counted : ∀ c, s.refs c = (references S s.used c + pending.count c : Nat)
  pending_used : ∀ c ∈ pending, c ∈ s.used

variable {S}

omit [DecidableEq N] in
theorem mem_roots {s : RefStore N} {n : N} : n ∈ s.roots ↔ n ∈ s.used ∧ s.refs n = 0 :=
  Finset.mem_filter

/-- Nothing refers to a node that has no references. -/
theorem references_eq_zero {used : Finset N} {c : N} :
    references S used c = 0 ↔ ∀ m ∈ used, c ∉ S.operands m := by
  simp only [references, Finset.sum_eq_zero_iff, List.count_eq_zero]

/-! ## Counts -/

namespace Counted

variable {s : RefStore N} {pending : List N}

theorem refs_eq_zero (h : s.Counted S pending) {n : N} :
    s.refs n = 0 ↔ (∀ m ∈ s.used, n ∉ S.operands m) ∧ n ∉ pending := by
  rw [h.counted, Nat.cast_eq_zero, Nat.add_eq_zero_iff, references_eq_zero, List.count_eq_zero]

theorem empty : (RefStore.empty : RefStore N).Counted S [] where
  closed n hn := absurd hn (Finset.notMem_empty n)
  counted _ := rfl
  pending_used _ hc := absurd hc List.not_mem_nil

/-- Creating a node over stored operands keeps the counts right. -/
theorem create (h : s.Counted S pending) {n : N} (hn : ∀ c ∈ S.operands n, c ∈ s.used) :
    (s.create S n).Counted S pending := by
  unfold RefStore.create
  split_ifs with hused
  · exact h
  · refine ⟨?_, ?_, fun c hc => Finset.mem_insert_of_mem (h.pending_used c hc)⟩
    · intro m hm c hc
      rcases Finset.mem_insert.mp hm with rfl | hm
      · exact Finset.mem_insert_of_mem (hn c hc)
      · exact Finset.mem_insert_of_mem (h.closed m hm c hc)
    · intro c
      have hsum : references S (insert n s.used) c
          = (S.operands n).count c + references S s.used c := Finset.sum_insert hused
      have hc := h.counted c
      dsimp only
      rw [hc, hsum]
      push_cast
      omega

/-- The order of what is pending does not matter. -/
theorem perm {pending' : List N} (h : s.Counted S pending) (hperm : pending.Perm pending') :
    s.Counted S pending' where
  closed := h.closed
  counted c := by rw [h.counted c, hperm.count_eq c]
  pending_used c hc := h.pending_used c (hperm.mem_iff.mpr hc)

/-- A stored node gains a reference that will be released. -/
theorem incr {c : N} (h : s.Counted S pending) (hc : c ∈ s.used) :
    (s.incr c).Counted S (c :: pending) := by
  refine ⟨h.closed, ?_, fun m hm => ?_⟩
  · intro m
    have hm := h.counted m
    simp only [RefStore.incr]
    by_cases heq : m = c
    · subst heq
      rw [Function.update_self, hm, List.count_cons_self]
      push_cast
      omega
    · rw [Function.update_of_ne heq, hm, List.count_cons_of_ne (Ne.symm heq)]
  · rcases List.mem_cons.mp hm with rfl | hm
    · exact hc
    · exact h.pending_used m hm

/-- Taking a root out leaves its operands to be released. -/
theorem erase (h : s.Counted S pending) {n : N} (hn : n ∈ s.roots) :
    (s.erase n).Counted S (S.operands n ++ pending) := by
  obtain ⟨hused, hzero⟩ := mem_roots.mp hn
  obtain ⟨hfree, hpending⟩ := h.refs_eq_zero.mp hzero
  have hkeep : ∀ m ∈ s.used, ∀ c ∈ S.operands m, c ∈ s.used.erase n := by
    intro m hm c hc
    refine Finset.mem_erase.mpr ⟨?_, h.closed m hm c hc⟩
    intro heq
    exact hfree m hm (heq ▸ hc)
  refine ⟨fun m hm => hkeep m (Finset.mem_of_mem_erase hm), ?_, ?_⟩
  · intro c
    have hsum : (S.operands n).count c + references S (s.used.erase n) c = references S s.used c :=
      Finset.add_sum_erase s.used (fun m => (S.operands m).count c) hused
    have hc := h.counted c
    simp only [RefStore.erase, List.count_append]
    rw [hc, ← hsum]
    push_cast
    omega
  · intro c hc
    rcases List.mem_append.mp hc with hc | hc
    · exact hkeep n hused c hc
    · refine Finset.mem_erase.mpr ⟨?_, h.pending_used c hc⟩
      intro heq
      exact hpending (heq ▸ hc)

/-- Releasing an operand. -/
theorem decr {c : N} (h : s.Counted S (c :: pending)) : (s.decr c).Counted S pending := by
  refine ⟨h.closed, ?_, fun m hm => h.pending_used m (List.mem_cons_of_mem _ hm)⟩
  intro m
  have hm := h.counted m
  simp only [RefStore.decr]
  by_cases heq : m = c
  · subst heq
    rw [Function.update_self, hm, List.count_cons_self]
    push_cast
    omega
  · rw [Function.update_of_ne heq, hm, List.count_cons_of_ne (Ne.symm heq)]

theorem pending_notMem_roots {c : N} (h : s.Counted S pending) (hc : c ∈ pending) : c ∉ s.roots := by
  intro hroot
  exact (h.refs_eq_zero.mp (mem_roots.mp hroot).2).2 hc

end Counted

theorem roots_erase {s : RefStore N} {n : N} : (s.erase n).roots = s.roots.erase n := by
  ext m
  simp only [mem_roots, erase, Finset.mem_erase, and_assoc]

/-- Releasing a node and taking it out of the roots leaves the other roots. -/
theorem roots_decr_erase {s : RefStore N} {c : N} (hc : c ∉ s.roots) :
    (s.decr c).roots.erase c = s.roots := by
  ext m
  rw [Finset.mem_erase, mem_roots, mem_roots]
  by_cases heq : m = c
  · subst heq
    exact ⟨fun h => absurd rfl h.1, fun h => absurd (mem_roots.mpr h) hc⟩
  · simp only [decr, Function.update_of_ne heq, ne_eq, heq, not_false_eq_true, true_and]

/-! ## Destroying -/

/-- **The destroy rule.**  Destroying a stored node is defined, keeps the
counts right and takes that node, if it was one, out of the roots. -/
theorem destroy_spec {n : N} {s : RefStore N} {pending : List N} (h : s.Counted S pending)
    (hn : n ∈ s.used) :
    ∃ s', s.destroy S n = some s' ∧ s'.Counted S pending ∧ s'.roots = s.roots.erase n := by
  induction hsize : S.size n using Nat.strong_induction_on generalizing n s pending with
  | _ size ih =>
    subst hsize
    rw [destroy]
    by_cases hzero : s.refs n = 0
    · have hroot : n ∈ s.roots := mem_roots.mpr ⟨hn, hzero⟩
      have hloop : ∀ (cs : List {c // c ∈ S.operands n}) (t : RefStore N),
          t.Counted S (cs.map Subtype.val ++ pending) →
          ∃ t', cs.foldlM (fun t c => destroy S c.1 (t.decr c.1)) t = some t' ∧
            t'.Counted S pending ∧ t'.roots = t.roots := by
        intro cs
        induction cs with
        | nil => exact fun t ht => ⟨t, rfl, ht, rfl⟩
        | cons c cs ihcs =>
            intro t ht
            have hc : c.1 ∈ t.used := ht.pending_used _ List.mem_cons_self
            obtain ⟨t1, hdestroy, ht1, hroots1⟩ :=
              ih _ (S.operands_lt c.2) (s := t.decr c.1) ht.decr hc rfl
            obtain ⟨t2, hrest, ht2, hroots2⟩ := ihcs t1 ht1
            refine ⟨t2, ?_, ht2, ?_⟩
            · rw [List.foldlM_cons, hdestroy]
              exact hrest
            · rw [hroots2, hroots1, roots_decr_erase (ht.pending_notMem_roots List.mem_cons_self)]
      rw [if_neg (not_not.mpr hzero), if_neg (not_not.mpr hn)]
      have hmap : (S.operands n).attach.map Subtype.val = S.operands n := List.attach_map_subtype_val _
      obtain ⟨s', hfold, hs', hroots⟩ :=
        hloop (S.operands n).attach (s.erase n) (by rw [hmap]; exact h.erase hroot)
      exact ⟨s', hfold, hs', by rw [hroots, roots_erase]⟩
    · rw [if_pos hzero]
      refine ⟨s, rfl, h, (Finset.erase_eq_of_notMem ?_).symm⟩
      exact fun hroot => hzero (mem_roots.mp hroot).2

/-- Destroying adds no node. -/
theorem destroy_used_subset {n : N} {s s' : RefStore N} (h : s.destroy S n = some s') :
    s'.used ⊆ s.used := by
  induction hsize : S.size n using Nat.strong_induction_on generalizing n s s' with
  | _ size ih =>
    subst hsize
    have hloop : ∀ (cs : List {c // c ∈ S.operands n}) (t t' : RefStore N),
        cs.foldlM (fun t c => destroy S c.1 (t.decr c.1)) t = some t' → t'.used ⊆ t.used := by
      intro cs
      induction cs with
      | nil =>
          intro t t' ht
          cases ht
          exact Finset.Subset.refl _
      | cons c cs ihcs =>
          intro t t' ht
          rw [List.foldlM_cons] at ht
          obtain ⟨t1, hdestroy, hrest⟩ := Option.bind_eq_some_iff.mp ht
          exact (ihcs t1 t' hrest).trans (ih _ (S.operands_lt c.2) (s := t.decr c.1) hdestroy rfl)
    rw [destroy] at h
    split_ifs at h with hzero hused
    · cases h
      exact Finset.Subset.refl _
    · exact (hloop _ _ _ h).trans (Finset.erase_subset n s.used)

end RefStore

end FShell
