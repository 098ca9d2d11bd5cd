import FShell.Evaluation.ComputeTestGoals

/-!
# The id map

`make_id_map` enumerates the combinations of one literal per group with one
iterator for each group.  The last iterator moves fastest; one that reaches
its end carries to the iterator before it and starts again.

**Order.**  The rows come out in lexicographic order, so `combinations`
states the result as a list.  The index of a row is the id of a test goal.
-/

namespace FShell

/-- A member of `ptrs`: a group, and the part of it from the iterator on. -/
structure GroupPtr where
  group : List Literal
  rest : List Literal

namespace GroupPtr

/-- `++iter->second`. -/
def next (p : GroupPtr) : GroupPtr := { p with rest := p.rest.tail }

/-- `iter->second=iter->first->begin()`. -/
def rewind (p : GroupPtr) : GroupPtr := { p with rest := p.group }

/-- The iterator is at the end of its group. -/
def AtEnd (p : GroupPtr) : Prop := p.rest = []

instance (p : GroupPtr) : Decidable p.AtEnd := inferInstanceAs (Decidable (p.rest = []))

/-- The next literal is one of the same group. -/
@[simp] theorem next_group (p : GroupPtr) : p.next.group = p.group := rfl

/-- Going back to the start stays in the group. -/
@[simp] theorem group_comp_rewind : GroupPtr.group ∘ GroupPtr.rewind = GroupPtr.group := rfl

end GroupPtr

/-- The pointers at the start: none at all when some group is empty. -/
def groupPtrs (groups : List TestGoals) : List GroupPtr :=
  if groups.any fun g => g.toList.isEmpty then []
  else groups.map fun g => ⟨g.toList, g.toList⟩

/-- The row that the pointers stand for. -/
def currentRow (ptrs : List GroupPtr) : List Literal := ptrs.filterMap fun p => p.rest.head?

/-- The loops over `rindex`: the pointers are advanced from the last one on
until one is not at its end, and those behind it start again.  The flag is
set when all of them are at their ends, where they stay. -/
def advance : List GroupPtr → Bool × List GroupPtr
  | [] => (true, [])
  | p :: ptrs =>
      let (carry, moved) := advance ptrs
      if carry then
        if p.next.AtEnd then (true, p.next :: moved)
        else (false, p.next :: moved.map GroupPtr.rewind)
      else (false, p :: moved)

/-- The main loop of `make_id_map`, for `fuel` rounds at most. -/
def idLoop : Nat → List GroupPtr → Option (List (List Literal))
  | 0, _ => none
  | fuel + 1, ptrs =>
      if ptrs.head?.any fun front => !decide front.AtEnd then
        (idLoop fuel (advance ptrs).2).map (currentRow ptrs :: ·)
      else some []

/-- The number of ids. -/
def idCount (groups : List TestGoals) : Nat := (groups.map fun g => g.toList.length).prod

/-- `m_tg_id_map` after `make_id_map`. -/
def makeIdMap (groups : List TestGoals) : Option (List (List Literal)) :=
  if (groupPtrs groups).isEmpty then some []
  else idLoop (idCount groups + 1) (groupPtrs groups)

/-- `m_skips`: how many ids follow an id before the literal of the group
changes.  It is left empty when some group is. -/
def makeSkips (groups : List TestGoals) : List Nat :=
  if (groupPtrs groups).isEmpty then []
  else
    (groups.foldr
      (fun g prec => (prec.1 * g.toList.length, (prec.1 - 1) :: prec.2)) (1, [])).2

/-! ## Combinations -/

/-- One member of every list, in lexicographic order. -/
def combinations : List (List Literal) → List (List Literal)
  | [] => [[]]
  | lits :: groups => lits.flatMap fun l => (combinations groups).map (l :: ·)

/-- A combination takes one literal of each group. -/
theorem mem_combinations {groups : List (List Literal)} {row : List Literal} :
    row ∈ combinations groups ↔ List.Forall₂ (· ∈ ·) row groups := by
  induction groups generalizing row with
  | nil => simp [combinations]
  | cons lits groups ih =>
      cases row with
      | nil => simp [combinations]
      | cons l row => simp [combinations, ih]

/-- No combination comes twice. -/
theorem nodup_combinations {groups : List (List Literal)} (h : ∀ lits ∈ groups, lits.Nodup) :
    (combinations groups).Nodup := by
  induction groups with
  | nil => exact List.nodup_singleton _
  | cons lits groups ih =>
      have htail : (combinations groups).Nodup :=
        ih fun g hg => h g (List.mem_cons_of_mem _ hg)
      rw [combinations, List.nodup_flatMap]
      refine ⟨?_, ?_⟩
      · intro l _
        exact htail.map (List.cons_injective)
      · apply (h lits List.mem_cons_self).imp
        intro l m hne row hl hm
        obtain ⟨rowL, -, rfl⟩ := List.mem_map.mp hl
        obtain ⟨rowM, -, heq⟩ := List.mem_map.mp hm
        exact hne (List.cons.inj heq).1.symm

/-- There are as many combinations as the product of the sizes. -/
theorem length_combinations (groups : List (List Literal)) :
    (combinations groups).length = (groups.map List.length).prod := by
  induction groups with
  | nil => rfl
  | cons lits groups ih => simp [combinations, ih]

/-- Combinations of two rows of groups are put together from both. -/
theorem mem_combinations_append {xs ys : List (List Literal)} {row : List Literal} :
    row ∈ combinations (xs ++ ys) ↔
      ∃ rowX ∈ combinations xs, ∃ rowY ∈ combinations ys, row = rowX ++ rowY := by
  induction xs generalizing row with
  | nil => simp [combinations]
  | cons lits xs ih =>
      simp only [List.cons_append, combinations, List.mem_flatMap, List.mem_map, ih]
      grind

/-- An empty group leaves no combination. -/
theorem combinations_eq_nil {groups : List (List Literal)} (h : [] ∈ groups) :
    combinations groups = [] := by
  rw [← List.length_eq_zero_iff, length_combinations, List.prod_eq_zero_iff]
  exact List.mem_map.mpr ⟨[], h, rfl⟩

/-! ## The odometer -/

/-- The rows from the pointers on, in the order of the loop. -/
def remaining : List GroupPtr → List (List Literal)
  | [] => [[]]
  | p :: ptrs =>
      (remaining ptrs).filterMap (fun row => p.rest.head?.map (· :: row)) ++
        p.rest.tail.flatMap fun l => (combinations (ptrs.map GroupPtr.group)).map (l :: ·)

/-- From the start all combinations remain. -/
theorem remaining_rewind (ptrs : List GroupPtr) :
    remaining (ptrs.map GroupPtr.rewind) = combinations (ptrs.map GroupPtr.group) := by
  induction ptrs with
  | nil => rfl
  | cons p ptrs ih =>
      have hgroups : (ptrs.map GroupPtr.rewind).map GroupPtr.group = ptrs.map GroupPtr.group := by
        simp
      rw [List.map_cons, List.map_cons, remaining, ih, hgroups, combinations]
      cases hg : p.group with
      | nil => simp [GroupPtr.rewind, hg]
      | cons l lits => simp [GroupPtr.rewind, hg]

/-- What one round does to the pointers. -/
inductive Advanced (ptrs : List GroupPtr) : Bool × List GroupPtr → Prop
  | moved (out : List GroupPtr) (hgroups : out.map GroupPtr.group = ptrs.map GroupPtr.group)
      (hlive : ∀ p ∈ out, ¬p.AtEnd) (hrows : remaining ptrs = currentRow ptrs :: remaining out) :
      Advanced ptrs (false, out)
  | done (out : List GroupPtr) (hgroups : out.map GroupPtr.group = ptrs.map GroupPtr.group)
      (hend : ∀ p ∈ out, p.AtEnd) (hrows : remaining ptrs = [currentRow ptrs]) :
      Advanced ptrs (true, out)

/-- One step of the counter leaves the combinations but the current one. -/
theorem advance_spec {ptrs : List GroupPtr} (hlive : ∀ p ∈ ptrs, ¬p.AtEnd)
    (hgroup : ∀ p ∈ ptrs, p.group ≠ []) : Advanced ptrs (advance ptrs) := by
  induction ptrs with
  | nil => exact .done [] rfl (by simp) rfl
  | cons p ptrs ih =>
      have hcurrent : ∃ l lits, p.rest = l :: lits :=
        List.exists_cons_of_ne_nil (hlive p List.mem_cons_self)
      obtain ⟨l, lits, hrest⟩ := hcurrent
      have htail := ih (fun q hq => hlive q (List.mem_cons_of_mem _ hq))
        fun q hq => hgroup q (List.mem_cons_of_mem _ hq)
      rw [advance]
      generalize advance ptrs = out at htail
      cases htail with
      | moved out hgroups hout hrows =>
          refine .moved (p :: out) (by simp [hgroups]) ?_ ?_
          · intro q hq
            rcases List.mem_cons.mp hq with rfl | hq
            · exact hlive q List.mem_cons_self
            · exact hout q hq
          · simp [remaining, hrows, hgroups, currentRow, hrest]
      | done out hgroups hout hrows =>
          cases lits with
          | nil =>
              have hend : p.next.AtEnd := by simp [GroupPtr.next, GroupPtr.AtEnd, hrest]
              simp only [if_pos hend, ite_true]
              refine .done (p.next :: out) (by simp [hgroups]) ?_ ?_
              · intro q hq
                rcases List.mem_cons.mp hq with rfl | hq
                · exact hend
                · exact hout q hq
              · simp [remaining, hrows, currentRow, hrest]
          | cons m lits =>
              have hmore : ¬p.next.AtEnd := by simp [GroupPtr.next, GroupPtr.AtEnd, hrest]
              simp only [if_neg hmore, ite_true]
              refine .moved (p.next :: out.map GroupPtr.rewind) (by simp [hgroups]) ?_ ?_
              · intro q hq
                rcases List.mem_cons.mp hq with rfl | hq
                · exact hmore
                · obtain ⟨r, hr, rfl⟩ := List.mem_map.mp hq
                  have hmem : r.group ∈ ptrs.map GroupPtr.group :=
                    hgroups ▸ List.mem_map_of_mem hr
                  obtain ⟨s, hs, hsr⟩ := List.mem_map.mp hmem
                  have hne : s.group ≠ [] := hgroup s (List.mem_cons_of_mem _ hs)
                  rw [hsr] at hne
                  exact hne
              · have hrewound := remaining_rewind out
                rw [hgroups] at hrewound
                simp [remaining, hrows, hrewound, hgroups, currentRow, hrest, GroupPtr.next]

/-- **The loop ends** and has listed the rows from its pointers on. -/
theorem idLoop_eq {fuel : Nat} {ptrs : List GroupPtr} (hne : ptrs ≠ [])
    (hlive : ∀ p ∈ ptrs, ¬p.AtEnd) (hgroup : ∀ p ∈ ptrs, p.group ≠ [])
    (hfuel : (remaining ptrs).length < fuel) : idLoop fuel ptrs = some (remaining ptrs) := by
  induction fuel generalizing ptrs with
  | zero => cases hfuel
  | succ fuel ih =>
      have hfront : (ptrs.head?.any fun front => !decide front.AtEnd) = true := by
        cases ptrs with
        | nil => exact absurd rfl hne
        | cons p ptrs => simpa using hlive p List.mem_cons_self
      have hspec := advance_spec hlive hgroup
      rw [idLoop, if_pos hfront]
      generalize advance ptrs = out at hspec
      cases hspec with
      | moved out hgroups hout hrows =>
          have hlen : (remaining ptrs).length = (remaining out).length + 1 := by simp [hrows]
          have hout_ne : out ≠ [] := by
            intro heq
            subst heq
            exact hne (List.map_eq_nil_iff.mp hgroups.symm)
          have hout_group : ∀ p ∈ out, p.group ≠ [] := by
            intro p hp
            have hmem : p.group ∈ ptrs.map GroupPtr.group := hgroups ▸ List.mem_map_of_mem hp
            obtain ⟨q, hq, hqp⟩ := List.mem_map.mp hmem
            exact hqp ▸ hgroup q hq
          have hnext := ih hout_ne hout hout_group (by omega)
          rw [hnext, hrows]
          rfl
      | done out hgroups hout hrows =>
          have hstop : (out.head?.any fun front => !decide front.AtEnd) = false := by
            cases out with
            | nil => rfl
            | cons p out => simpa using hout p List.mem_cons_self
          have hfuel' : 0 < fuel := by
            rw [hrows] at hfuel
            exact Nat.lt_of_succ_lt_succ hfuel
          obtain ⟨fuel, rfl⟩ := Nat.exists_eq_add_one.mpr hfuel'
          rw [idLoop, hstop, hrows]
          rfl

/-- **The id map** of at least one group is the list of all combinations. -/
theorem makeIdMap_eq {groups : List TestGoals} (hne : groups ≠ []) :
    makeIdMap groups = some (combinations (groups.map TestGoals.toList)) := by
  unfold makeIdMap
  by_cases hempty : groups.any (fun g => g.toList.isEmpty) = true
  · obtain ⟨g, hg, hnil⟩ := List.any_eq_true.mp hempty
    have hmem : [] ∈ groups.map TestGoals.toList :=
      List.mem_map.mpr ⟨g, hg, List.isEmpty_iff.mp hnil⟩
    rw [combinations_eq_nil hmem, groupPtrs, if_pos hempty]
    rfl
  · have hptrs : groupPtrs groups = groups.map fun g => ⟨g.toList, g.toList⟩ := if_neg hempty
    have hrewound : groupPtrs groups = (groupPtrs groups).map GroupPtr.rewind := by
      simp [hptrs, GroupPtr.rewind]
    have hrows : remaining (groupPtrs groups) = combinations (groups.map TestGoals.toList) := by
      rw [hrewound, remaining_rewind, hptrs, List.map_map]
      rfl
    have hptrs_ne : groupPtrs groups ≠ [] := by simpa [hptrs] using hne
    have hnonempty : ∀ g ∈ groups, g.toList ≠ [] := by simpa using hempty
    rw [if_neg (by simpa using hptrs_ne), ← hrows]
    apply idLoop_eq hptrs_ne
    · simpa [hptrs, GroupPtr.AtEnd] using hnonempty
    · simpa [hptrs] using hnonempty
    · rw [hrows, length_combinations, List.map_map]
      exact Nat.lt_succ_self _

end FShell
