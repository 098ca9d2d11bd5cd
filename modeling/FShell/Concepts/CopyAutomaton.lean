import FShell.Concepts.TraceAutomaton

/-!
# Copying one automaton into another

`copy_automaton` walks the states of the source and maps them to new states
of the destination as they turn up: a state may be met first as the target
of a transition and only later in its own turn.  The invariant `CopyInv`
says what has been built once some states and some transitions are done; at
the end of the walk it is an isomorphism onto fresh states (`IsCopy`), and
the words between two states are carried over unchanged.
-/

namespace FShell

open LabelledGraph

/-- The variables of `copy_automaton`: the map `new_states`, the destination
and the two result sets. -/
structure CopyState where
  newStates : List (TaState × TaState)
  dest : TraceAutomaton
  init : List TaState
  final : List TaState

/-- The image of a state, created on first sight. -/
def CopyState.image (c : CopyState) (s : TaState) : TaState × CopyState :=
  match c.newStates.lookup s with
  | some q => (q, c)
  | none =>
      (c.dest.newState.1,
        { c with
          newStates := (s, c.dest.newState.1) :: c.newStates
          dest := c.dest.newState.2 })

/-- The body of the inner loop: one outgoing transition of a state with image `s1`. -/
def copyEdge (s1 : TaState) (c : CopyState) (o : Int × TaState) : CopyState :=
  let (s2, c) := c.image o.2
  { c with dest := c.dest.setTrans s1 o.1 s2 }

/-- The body of the outer loop. -/
def copyStep (src : TraceAutomaton) (c : CopyState) (s : TaState) : CopyState :=
  let (s1, c) := c.image s
  let c := if s ∈ src.initial then { c with init := c.init.insert s1 } else c
  let c := if src.isFinal s then { c with final := c.final.insert s1 } else c
  (src.delta2 s).foldl (copyEdge s1) c

/-- `copy_automaton(src, dest)`: the images of the initial and of the final
states, and the new destination. -/
def copyAutomaton (src dest : TraceAutomaton) :
    (List TaState × List TaState) × TraceAutomaton :=
  let c := src.states.foldl (copyStep src) ⟨[], dest, [], []⟩
  ((c.init, c.final), c.dest)

/-- What has been copied once the states of `seen` had their turn and the
transitions of `done` were set. -/
structure CopyInv (src dest : TraceAutomaton) (seen : TaState → Prop)
    (done : TaState × Int × TaState → Prop) (c : CopyState) : Prop where
  key_mem : ∀ s q, (s, q) ∈ c.newStates → s ∈ src.states
  functional : ∀ s q r, (s, q) ∈ c.newStates → (s, r) ∈ c.newStates → q = r
  injective : ∀ s t q, (s, q) ∈ c.newStates → (t, q) ∈ c.newStates → s = t
  fresh : ∀ s q, (s, q) ∈ c.newStates → dest.slots ≤ q
  states : ∀ q, q ∈ c.dest.states ↔ q ∈ dest.states ∨ ∃ s, (s, q) ∈ c.newStates
  slots_le : dest.slots ≤ c.dest.slots
  initial : c.dest.initial = dest.initial
  finals : c.dest.finals = dest.finals
  seen_mapped : ∀ s, seen s → ∃ q, (s, q) ∈ c.newStates
  done_mapped : ∀ e, done e → ∃ q r, (e.1, q) ∈ c.newStates ∧ (e.2.2, r) ∈ c.newStates
  trans : ∀ q l r, (q, l, r) ∈ c.dest.trans ↔
    (q, l, r) ∈ dest.trans ∨
      ∃ s t, done (s, l, t) ∧ (s, q) ∈ c.newStates ∧ (t, r) ∈ c.newStates
  init : ∀ q, q ∈ c.init ↔ ∃ s ∈ src.initial, seen s ∧ (s, q) ∈ c.newStates
  final : ∀ q, q ∈ c.final ↔ ∃ s ∈ src.finals, seen s ∧ (s, q) ∈ c.newStates

namespace CopyInv

variable {src dest : TraceAutomaton} {seen : TaState → Prop}
  {done : TaState × Int × TaState → Prop} {c : CopyState}

/-- Nothing is copied yet. -/
theorem start : CopyInv src dest (fun _ => False) (fun _ => False) ⟨[], dest, [], []⟩ := by
  constructor <;> simp

private theorem lookup_some {l : List (TaState × TaState)} {s q : TaState}
    (h : l.lookup s = some q) : (s, q) ∈ l := by
  induction l with
  | nil => simp at h
  | cons p l ih =>
      obtain ⟨k, v⟩ := p
      by_cases heq : s = k
      · subst heq
        have hq : v = q := by simpa using h
        exact hq ▸ List.mem_cons_self
      · have hne : (s == k) = false := by simpa using heq
        rw [List.lookup_cons, hne] at h
        exact List.mem_cons_of_mem _ (ih h)

private theorem lookup_none {l : List (TaState × TaState)} {s : TaState}
    (h : l.lookup s = none) (q : TaState) : (s, q) ∉ l := by
  intro hmem
  have := List.lookup_eq_none_iff.mp h (s, q) hmem
  simp at this

/-- Asking for an image keeps the invariant and answers from the map. -/
theorem image (h : CopyInv src dest seen done c) {s : TaState} (hs : s ∈ src.states) :
    CopyInv src dest seen done (c.image s).2 ∧
      (s, (c.image s).1) ∈ (c.image s).2.newStates ∧
      (∀ t q, (t, q) ∈ c.newStates → (t, q) ∈ (c.image s).2.newStates) := by
  unfold CopyState.image
  split
  next q hq => exact ⟨h, lookup_some hq, fun _ _ hmem => hmem⟩
  next hq =>
      have hnew := lookup_none hq
      have hfreshId : ∀ t, (t, c.dest.slots) ∉ c.newStates := by
        intro t hmem
        exact c.dest.slots_not_mem ((h.states _).mpr (Or.inr ⟨t, hmem⟩))
      refine ⟨?_, List.mem_cons_self, fun t q hmem => List.mem_cons_of_mem _ hmem⟩
      constructor
      · intro t q hmem
        rcases List.mem_cons.mp hmem with heq | hmem
        · obtain ⟨rfl, rfl⟩ := Prod.mk.inj heq
          exact hs
        · exact h.key_mem t q hmem
      · intro t q r hq hr
        simp only [List.mem_cons, Prod.mk.injEq] at hq hr
        rcases hq with ⟨rfl, rfl⟩ | hq <;> rcases hr with ⟨hts, rfl⟩ | hr
        · rfl
        · exact absurd hr (hnew r)
        · exact absurd (hts ▸ hq) (hnew q)
        · exact h.functional t q r hq hr
      · intro t u q ht hu
        simp only [List.mem_cons, Prod.mk.injEq] at ht hu
        rcases ht with ⟨rfl, hqt⟩ | ht <;> rcases hu with ⟨rfl, hqu⟩ | hu
        · rfl
        · subst hqt
          exact absurd hu (hfreshId u)
        · subst hqu
          exact absurd ht (hfreshId t)
        · exact h.injective t u q ht hu
      · intro t q hmem
        rcases List.mem_cons.mp hmem with heq | hmem
        · obtain ⟨rfl, rfl⟩ := Prod.mk.inj heq
          exact h.slots_le
        · exact h.fresh t q hmem
      · intro q
        simp only [TraceAutomaton.newState_states, TraceAutomaton.newState_fst,
          List.mem_append, h.states q, List.mem_cons, Prod.mk.injEq, List.not_mem_nil, or_false]
        constructor
        · intro hq
          rcases hq with (hq | ⟨t, ht⟩) | rfl
          · exact Or.inl hq
          · exact Or.inr ⟨t, Or.inr ht⟩
          · exact Or.inr ⟨s, Or.inl ⟨rfl, rfl⟩⟩
        · intro hq
          rcases hq with hq | ⟨t, ⟨_, rfl⟩ | ht⟩
          · exact Or.inl (Or.inl hq)
          · exact Or.inr rfl
          · exact Or.inl (Or.inr ⟨t, ht⟩)
      · exact h.slots_le.trans (Nat.le_succ _)
      · exact h.initial
      · exact h.finals
      · intro t ht
        obtain ⟨q, hq⟩ := h.seen_mapped t ht
        exact ⟨q, List.mem_cons_of_mem _ hq⟩
      · intro e he
        obtain ⟨q, r, hq, hr⟩ := h.done_mapped e he
        exact ⟨q, r, List.mem_cons_of_mem _ hq, List.mem_cons_of_mem _ hr⟩
      · intro q l r
        simp only [TraceAutomaton.newState_trans, h.trans q l r]
        refine or_congr_right ?_
        constructor
        · intro ⟨t, u, hd, ht, hu⟩
          exact ⟨t, u, hd, List.mem_cons_of_mem _ ht, List.mem_cons_of_mem _ hu⟩
        · intro ⟨t, u, hd, ht, hu⟩
          -- both ends of a finished transition had an image before `s` got one
          obtain ⟨q', r', hq', hr'⟩ := h.done_mapped _ hd
          have hts : t ≠ s := fun heq => hnew q' (heq ▸ hq')
          have hus : u ≠ s := fun heq => hnew r' (heq ▸ hr')
          refine ⟨t, u, hd, ?_, ?_⟩
          · exact (List.mem_cons.mp ht).resolve_left (fun heq => hts (Prod.mk.inj heq).1)
          · exact (List.mem_cons.mp hu).resolve_left (fun heq => hus (Prod.mk.inj heq).1)
      all_goals
        intro q
        first | rw [h.init q] | rw [h.final q]
        constructor
        · intro ⟨t, ht, hseen, hq⟩
          exact ⟨t, ht, hseen, List.mem_cons_of_mem _ hq⟩
        · intro ⟨t, ht, hseen, hq⟩
          obtain ⟨q', hq'⟩ := h.seen_mapped t hseen
          have hts : t ≠ s := fun heq => hnew q' (heq ▸ hq')
          exact ⟨t, ht, hseen,
            (List.mem_cons.mp hq).resolve_left (fun heq => hts (Prod.mk.inj heq).1)⟩

/-- One transition more. -/
theorem copyEdge (h : CopyInv src dest seen done c) {s s1 t : TaState} {l : Int}
    (hs : (s, s1) ∈ c.newStates) (ht : (s, l, t) ∈ src.trans) :
    CopyInv src dest seen (fun e => done e ∨ e = (s, l, t)) (copyEdge s1 c (l, t)) ∧
      (∀ u q, (u, q) ∈ c.newStates → (u, q) ∈ (FShell.copyEdge s1 c (l, t)).newStates) := by
  obtain ⟨hinv, himage, hkeep⟩ := h.image (src.trans_live _ ht).2
  have hs' := hkeep _ _ hs
  refine ⟨?_, hkeep⟩
  have hlive : s1 ∈ (c.image t).2.dest.states ∧ (c.image t).1 ∈ (c.image t).2.dest.states :=
    ⟨(hinv.states _).mpr (Or.inr ⟨s, hs'⟩), (hinv.states _).mpr (Or.inr ⟨t, himage⟩)⟩
  constructor
  · exact hinv.key_mem
  · exact hinv.functional
  · exact hinv.injective
  · exact hinv.fresh
  · intro q
    simpa [FShell.copyEdge] using hinv.states q
  · simpa [FShell.copyEdge] using hinv.slots_le
  · simpa [FShell.copyEdge] using hinv.initial
  · simpa [FShell.copyEdge] using hinv.finals
  · exact hinv.seen_mapped
  · intro e he
    rcases he with he | rfl
    · exact hinv.done_mapped e he
    · exact ⟨s1, _, hs', himage⟩
  · intro q k r
    simp only [FShell.copyEdge, TraceAutomaton.mem_setTrans, hinv.trans q k r, Prod.mk.injEq]
    constructor
    · intro hmem
      rcases hmem with (hmem | ⟨v, u, hd, hv, hu⟩) | ⟨_, _, hq, hk, hr⟩
      · exact Or.inl hmem
      · exact Or.inr ⟨v, u, Or.inl hd, hv, hu⟩
      · subst hq hk hr
        exact Or.inr ⟨s, t, Or.inr ⟨rfl, rfl, rfl⟩, hs', himage⟩
    · intro hmem
      rcases hmem with hmem | ⟨v, u, hd | ⟨hv', hk, hu'⟩, hv, hu⟩
      · exact Or.inl (Or.inl hmem)
      · exact Or.inl (Or.inr ⟨v, u, hd, hv, hu⟩)
      · subst hv' hk hu'
        have hq := hinv.functional _ _ _ hv hs'
        have hr := hinv.functional _ _ _ hu himage
        exact Or.inr ⟨hlive.1, hlive.2, hq, rfl, hr⟩
  · exact hinv.init
  · exact hinv.final

/-- All outgoing transitions of a state. -/
theorem copyEdges {s s1 : TaState} (os : List (Int × TaState))
    (hos : ∀ o ∈ os, (s, o.1, o.2) ∈ src.trans)
    (h : CopyInv src dest seen done c) (hs : (s, s1) ∈ c.newStates) :
    CopyInv src dest seen (fun e => done e ∨ ∃ o ∈ os, e = (s, o.1, o.2))
      (os.foldl (FShell.copyEdge s1) c) := by
  induction os generalizing c done with
  | nil => simpa using h
  | cons o os ih =>
      obtain ⟨l, t⟩ := o
      obtain ⟨hinv, hkeep⟩ := h.copyEdge hs (hos (l, t) List.mem_cons_self)
      have hrest := ih (fun o' ho' => hos o' (List.mem_cons_of_mem _ ho')) hinv (hkeep _ _ hs)
      simpa [or_assoc] using hrest

/-- Marking the image of `s` when `s` itself carries the mark. -/
private theorem mark {l : List (TaState × TaState)} {set acc : List TaState} {s s1 : TaState}
    (hfun : ∀ s q r, (s, q) ∈ l → (s, r) ∈ l → q = r) (hs : (s, s1) ∈ l)
    (hacc : ∀ q, q ∈ acc ↔ ∃ t ∈ set, seen t ∧ (t, q) ∈ l) (q : TaState) :
    q ∈ (if s ∈ set then acc.insert s1 else acc) ↔
      ∃ t ∈ set, (seen t ∨ t = s) ∧ (t, q) ∈ l := by
  have hold : (∃ t ∈ set, seen t ∧ (t, q) ∈ l) →
      ∃ t ∈ set, (seen t ∨ t = s) ∧ (t, q) ∈ l :=
    fun ⟨t, ht, hseen, hq⟩ => ⟨t, ht, Or.inl hseen, hq⟩
  split
  next hmark =>
      rw [List.mem_insert_iff, hacc q]
      constructor
      · intro hq
        rcases hq with rfl | hq
        · exact ⟨s, hmark, Or.inr rfl, hs⟩
        · exact hold hq
      · intro ⟨t, ht, hseen, hq⟩
        rcases hseen with hseen | rfl
        · exact Or.inr ⟨t, ht, hseen, hq⟩
        · exact Or.inl (hfun t q s1 hq hs)
  next hmark =>
      rw [hacc q]
      constructor
      · exact hold
      · intro ⟨t, ht, hseen, hq⟩
        rcases hseen with hseen | rfl
        · exact ⟨t, ht, hseen, hq⟩
        · exact absurd ht hmark

/-- One state more, with its marks and its outgoing transitions. -/
theorem copyStep (h : CopyInv src dest seen done c) {s : TaState} (hs : s ∈ src.states) :
    CopyInv src dest (fun t => seen t ∨ t = s)
      (fun e => done e ∨ (e ∈ src.trans ∧ e.1 = s)) (copyStep src c s) := by
  obtain ⟨hinv, himage, _⟩ := h.image hs
  have hmarked : CopyInv src dest (fun t => seen t ∨ t = s) done
      { (c.image s).2 with
        init := if s ∈ src.initial then (c.image s).2.init.insert (c.image s).1
          else (c.image s).2.init
        final := if src.isFinal s then (c.image s).2.final.insert (c.image s).1
          else (c.image s).2.final } := by
    constructor
    · exact hinv.key_mem
    · exact hinv.functional
    · exact hinv.injective
    · exact hinv.fresh
    · exact hinv.states
    · exact hinv.slots_le
    · exact hinv.initial
    · exact hinv.finals
    · intro t ht
      rcases ht with ht | rfl
      · exact hinv.seen_mapped t ht
      · exact ⟨_, himage⟩
    · exact hinv.done_mapped
    · exact hinv.trans
    · exact mark hinv.functional himage hinv.init
    · simpa using mark hinv.functional himage hinv.final
  have hedges := CopyInv.copyEdges (src.delta2 s)
    (fun o ho => (src.mem_delta2).mp ho) hmarked himage
  have hdone : (fun e => done e ∨ ∃ o ∈ src.delta2 s, e = (s, o.1, o.2)) =
      (fun e => done e ∨ (e ∈ src.trans ∧ e.1 = s)) := by
    funext e
    obtain ⟨q, l, r⟩ := e
    simp only [eq_iff_iff]
    refine or_congr_right ?_
    constructor
    · intro ⟨o, ho, heq⟩
      simp only [Prod.mk.injEq] at heq
      obtain ⟨rfl, rfl, rfl⟩ := heq
      exact ⟨(src.mem_delta2).mp ho, rfl⟩
    · intro ⟨hmem, hq⟩
      exact ⟨(l, r), (src.mem_delta2).mpr (hq ▸ hmem), by rw [← hq]⟩
  rw [hdone] at hedges
  have hcode : FShell.copyStep src c s =
      (src.delta2 s).foldl (FShell.copyEdge (c.image s).1)
        { (c.image s).2 with
          init := if s ∈ src.initial then (c.image s).2.init.insert (c.image s).1
            else (c.image s).2.init
          final := if src.isFinal s then (c.image s).2.final.insert (c.image s).1
            else (c.image s).2.final } := by
    simp only [FShell.copyStep]
    split <;> split <;> rfl
  rw [hcode]
  exact hedges

/-- The whole walk. -/
theorem copySteps (ss : List TaState) (hss : ∀ s ∈ ss, s ∈ src.states)
    (h : CopyInv src dest seen done c) :
    CopyInv src dest (fun t => seen t ∨ t ∈ ss)
      (fun e => done e ∨ (e ∈ src.trans ∧ e.1 ∈ ss)) (ss.foldl (FShell.copyStep src) c) := by
  induction ss generalizing c seen done with
  | nil => simpa using h
  | cons s ss ih =>
      have hstep := h.copyStep (hss s List.mem_cons_self)
      have hrest := ih (fun t ht => hss t (List.mem_cons_of_mem _ ht)) hstep
      have hseen : (fun t => (seen t ∨ t = s) ∨ t ∈ ss) = fun t => seen t ∨ t ∈ s :: ss := by
        funext t; simp [or_assoc]
      have hdone : (fun e => (done e ∨ e ∈ src.trans ∧ e.1 = s) ∨ e ∈ src.trans ∧ e.1 ∈ ss) =
          fun e => done e ∨ (e ∈ src.trans ∧ e.1 ∈ s :: ss) := by
        funext e; simp only [List.mem_cons, eq_iff_iff]; tauto
      rwa [hseen, hdone] at hrest

/-! ### The entries that are added

The map `new_states` only grows, so the images that a transition is given when
it is set are the ones of the final map. -/

theorem image_keep {p : TaState × TaState} (hp : p ∈ c.newStates) (s : TaState) :
    p ∈ (c.image s).2.newStates := by
  unfold CopyState.image
  split
  next => exact hp
  next => exact List.mem_cons_of_mem _ hp

theorem copyEdges_keep {p : TaState × TaState} (os : List (Int × TaState)) (s1 : TaState)
    (hp : p ∈ c.newStates) : p ∈ (os.foldl (FShell.copyEdge s1) c).newStates := by
  induction os generalizing c with
  | nil => exact hp
  | cons o os ih => exact ih (image_keep hp o.2)

theorem copyStep_newStates (s : TaState) :
    (FShell.copyStep src c s).newStates =
        ((src.delta2 s).foldl (FShell.copyEdge (c.image s).1) (c.image s).2).newStates ∧
      (FShell.copyStep src c s).dest =
        ((src.delta2 s).foldl (FShell.copyEdge (c.image s).1) (c.image s).2).dest := by
  -- the marks are not read by the inner loop
  have hmarks : ∀ (os : List (Int × TaState)) (s1 : TaState) (a b : CopyState),
      a.newStates = b.newStates → a.dest = b.dest →
      (os.foldl (FShell.copyEdge s1) a).newStates = (os.foldl (FShell.copyEdge s1) b).newStates ∧
        (os.foldl (FShell.copyEdge s1) a).dest = (os.foldl (FShell.copyEdge s1) b).dest := by
    intro os s1
    induction os with
    | nil => exact fun a b hmap hdest => ⟨hmap, hdest⟩
    | cons o os ih =>
        intro a b hmap hdest
        refine ih _ _ ?_ ?_ <;>
          · simp only [FShell.copyEdge, CopyState.image, hmap]
            split <;> simp [hdest, hmap]
  refine hmarks _ _ _ _ ?_ ?_ <;> split <;> split <;> rfl

theorem copyStep_keep {p : TaState × TaState} (hp : p ∈ c.newStates) (s : TaState) :
    p ∈ (FShell.copyStep src c s).newStates := by
  rw [(copyStep_newStates s).1]
  exact copyEdges_keep _ _ (image_keep hp s)

theorem copySteps_keep {p : TaState × TaState} (ss : List TaState) (hp : p ∈ c.newStates) :
    p ∈ (ss.foldl (FShell.copyStep src) c).newStates := by
  induction ss generalizing c with
  | nil => exact hp
  | cons s ss ih => exact ih (copyStep_keep hp s)

variable {f : TaState → TaState}

/-- The inner loop adds one entry for each transition. -/
theorem copyEdges_trans {s s1 : TaState} (os : List (Int × TaState))
    (hos : ∀ o ∈ os, (s, o.1, o.2) ∈ src.trans) (h : CopyInv src dest seen done c)
    (hs : (s, s1) ∈ c.newStates)
    (hf : ∀ t q, (t, q) ∈ (os.foldl (FShell.copyEdge s1) c).newStates → f t = q) :
    (os.foldl (FShell.copyEdge s1) c).dest.trans =
      c.dest.trans ++ os.map fun o => (f s, o.1, f o.2) := by
  induction os generalizing c done with
  | nil => simp
  | cons o os ih =>
      obtain ⟨l, t⟩ := o
      have ht := hos (l, t) List.mem_cons_self
      obtain ⟨himg, hmem, hkeep⟩ := h.image (src.trans_live _ ht).2
      obtain ⟨hinv, hkept⟩ := h.copyEdge hs ht
      have hsource : f s = s1 := hf s s1 (copyEdges_keep os s1 (hkept s s1 hs))
      have htarget : f t = (c.image t).1 := hf t _ (copyEdges_keep os s1 hmem)
      have hlive : s1 ∈ (c.image t).2.dest.states ∧ (c.image t).1 ∈ (c.image t).2.dest.states :=
        ⟨(himg.states _).mpr (Or.inr ⟨s, hkeep s s1 hs⟩), (himg.states _).mpr (Or.inr ⟨t, hmem⟩)⟩
      have hdest : (c.image t).2.dest.trans = c.dest.trans := by
        unfold CopyState.image
        split <;> rfl
      have hentry : (FShell.copyEdge s1 c (l, t)).dest.trans = c.dest.trans ++ [(f s, l, f t)] := by
        simp only [FShell.copyEdge, TraceAutomaton.setTrans, dif_pos hlive, hdest, hsource, htarget]
      rw [List.foldl_cons, ih (fun o' ho' => hos o' (List.mem_cons_of_mem _ ho')) hinv
        (hkept s s1 hs) hf, hentry, List.append_assoc]
      rfl

/-- The outer loop adds the entries of the states one after the other. -/
theorem copySteps_trans (ss : List TaState) (hss : ∀ s ∈ ss, s ∈ src.states)
    (h : CopyInv src dest seen done c)
    (hf : ∀ t q, (t, q) ∈ (ss.foldl (FShell.copyStep src) c).newStates → f t = q) :
    (ss.foldl (FShell.copyStep src) c).dest.trans =
      c.dest.trans ++ ss.flatMap fun s => (src.delta2 s).map fun o => (f s, o.1, f o.2) := by
  induction ss generalizing c seen done with
  | nil => simp
  | cons s ss ih =>
      have hs := hss s List.mem_cons_self
      obtain ⟨himg, hmem, -⟩ := h.image hs
      obtain ⟨hmap, hdest⟩ : (FShell.copyStep src c s).newStates = _ ∧ _ := copyStep_newStates s
      have hone : (FShell.copyStep src c s).dest.trans =
          c.dest.trans ++ (src.delta2 s).map fun o => (f s, o.1, f o.2) := by
        rw [hdest, copyEdges_trans (src.delta2 s) (fun o ho => src.mem_delta2.mp ho) himg hmem
          fun t q hq => hf t q (copySteps_keep ss (hmap ▸ hq))]
        unfold CopyState.image
        split <;> rfl
      rw [List.foldl_cons, ih (fun t ht => hss t (List.mem_cons_of_mem _ ht)) (h.copyStep hs) hf,
        hone, List.append_assoc, List.flatMap_cons]

end CopyInv

/-- The transitions of all states, state by state, are all transitions. -/
theorem perm_flatMap_delta2 (src : TraceAutomaton) :
    (src.states.flatMap fun s => (src.delta2 s).map fun o => (s, o.1, o.2)).Perm src.trans := by
  have hsplit : ∀ (ss : List TaState) (es : List (TaState × Int × TaState)), ss.Nodup →
      (∀ e ∈ es, e.1 ∈ ss) → (ss.flatMap fun s => es.filter fun e => e.1 = s).Perm es := by
    intro ss
    induction ss with
    | nil =>
        intro es _ hes
        rw [List.eq_nil_iff_forall_not_mem.mpr fun e he => List.not_mem_nil (hes e he)]
        exact List.Perm.refl _
    | cons s ss ih =>
        intro es hnd hes
        obtain ⟨hs, hnd⟩ := List.nodup_cons.mp hnd
        have hrest : (ss.flatMap fun s' => es.filter fun e => e.1 = s') =
            ss.flatMap fun s' => (es.filter fun e => ¬ e.1 = s).filter fun e => e.1 = s' := by
          refine List.flatMap_congr fun s' hs' => ?_
          rw [List.filter_filter]
          refine List.filter_congr fun e _ => ?_
          have hne : s' ≠ s := fun h => hs (h ▸ hs')
          by_cases h : e.1 = s' <;> simp [h, hne]
        have hothers := ih (es.filter fun e => ¬ e.1 = s) hnd ?_
        · rw [List.flatMap_cons, hrest]
          refine (hothers.append_left _).trans ?_
          simpa using List.filter_append_perm (fun e => decide (e.1 = s)) es
        · intro e he
          obtain ⟨he, hne⟩ := List.mem_filter.mp he
          exact (List.mem_cons.mp (hes e he)).resolve_left (by simpa using hne)
  have hdelta : ∀ s, (src.delta2 s).map (fun o => (s, o.1, o.2)) =
      src.trans.filter fun e => e.1 = s := by
    intro s
    unfold TraceAutomaton.delta2
    induction src.trans with
    | nil => rfl
    | cons e es ih =>
        obtain ⟨t, o⟩ := e
        by_cases ht : t = s
        · simp [ht, ← ih]
        · simp [ht, ← ih]
  simp only [hdelta]
  exact hsplit src.states src.trans src.states_nodup fun e he => (src.trans_live e he).1

/-- `f` embeds `src` into the result `r` of copying it into `dest`, onto
fresh states, and nothing else has changed. -/
structure IsCopy (src dest : TraceAutomaton)
    (r : (List TaState × List TaState) × TraceAutomaton) (f : TaState → TaState) : Prop where
  injective : ∀ s ∈ src.states, ∀ t ∈ src.states, f s = f t → s = t
  above : ∀ s ∈ src.states, dest.slots ≤ f s
  slots_le : dest.slots ≤ r.2.slots
  states : ∀ q, q ∈ r.2.states ↔ q ∈ dest.states ∨ ∃ s ∈ src.states, f s = q
  trans : ∀ e, e ∈ r.2.trans ↔
    e ∈ dest.trans ∨ ∃ d ∈ src.trans, e = (f d.1, d.2.1, f d.2.2)
  entries : r.2.trans.Perm (dest.trans ++ src.trans.map fun d => (f d.1, d.2.1, f d.2.2))
  initial : r.2.initial = dest.initial
  finals : r.2.finals = dest.finals
  init : ∀ q, q ∈ r.1.1 ↔ ∃ s ∈ src.initial, f s = q
  final : ∀ q, q ∈ r.1.2 ↔ ∃ s ∈ src.finals, f s = q

/-- **The copy is fresh and isomorphic.** -/
theorem exists_isCopy (src dest : TraceAutomaton) :
    ∃ f, IsCopy src dest (copyAutomaton src dest) f := by
  have hstart : CopyInv src dest (fun _ => False) (fun _ => False) ⟨[], dest, [], []⟩ :=
    CopyInv.start
  have hinv := hstart.copySteps src.states (fun _ h => h)
  simp only [false_or] at hinv
  have hmapped : ∀ s, ∃ q, s ∈ src.states →
      (s, q) ∈ (src.states.foldl (copyStep src) ⟨[], dest, [], []⟩).newStates := by
    intro s
    by_cases hs : s ∈ src.states
    · obtain ⟨q, hq⟩ := hinv.seen_mapped s hs
      exact ⟨q, fun _ => hq⟩
    · exact ⟨0, fun h => absurd h hs⟩
  choose f hf using hmapped
  have hval : ∀ s q,
      (s, q) ∈ (src.states.foldl (copyStep src) ⟨[], dest, [], []⟩).newStates ↔
        s ∈ src.states ∧ f s = q := by
    intro s q
    constructor
    · intro hq
      have hs := hinv.key_mem s q hq
      exact ⟨hs, hinv.functional _ _ _ (hf s hs) hq⟩
    · intro ⟨hs, hq⟩
      exact hq ▸ hf s hs
  refine ⟨f, ?_⟩
  constructor
  · intro s hs t ht heq
    exact hinv.injective s t (f s) (hf s hs) (heq ▸ hf t ht)
  · exact fun s hs => hinv.fresh s _ (hf s hs)
  · exact hinv.slots_le
  · intro q
    simp only [copyAutomaton, hinv.states q, hval]
  · intro e
    obtain ⟨q, l, r⟩ := e
    simp only [copyAutomaton, hinv.trans q l r, hval]
    refine or_congr_right ?_
    constructor
    · intro ⟨s, t, ⟨hmem, _⟩, ⟨_, hq⟩, _, hr⟩
      exact ⟨(s, l, t), hmem, by rw [hq, hr]⟩
    · intro ⟨d, hmem, heq⟩
      obtain ⟨s, l', t⟩ := d
      simp only [Prod.mk.injEq] at heq
      obtain ⟨hq, rfl, hr⟩ := heq
      have hlive := src.trans_live _ hmem
      exact ⟨s, t, ⟨hmem, hlive.1⟩, ⟨hlive.1, hq.symm⟩, hlive.2, hr.symm⟩
  · have htrans := CopyInv.copySteps_trans (f := f) src.states (fun _ h => h)
      (@CopyInv.start src dest) fun t q hq => ((hval t q).mp hq).2
    have hmap := (perm_flatMap_delta2 src).map fun d => (f d.1, d.2.1, f d.2.2)
    rw [List.map_flatMap] at hmap
    simp only [List.map_map] at hmap
    rw [copyAutomaton, htrans]
    exact hmap.append_left _
  · exact hinv.initial
  · exact hinv.finals
  · intro q
    simp only [copyAutomaton, hinv.init q, hval]
    exact ⟨fun ⟨s, hs, _, _, hq⟩ => ⟨s, hs, hq⟩,
      fun ⟨s, hs, hq⟩ => ⟨s, hs, src.initial_live s hs, src.initial_live s hs, hq⟩⟩
  · intro q
    simp only [copyAutomaton, hinv.final q, hval]
    exact ⟨fun ⟨s, hs, _, _, hq⟩ => ⟨s, hs, hq⟩,
      fun ⟨s, hs, hq⟩ => ⟨s, hs, src.finals_live s hs, src.finals_live s hs, hq⟩⟩

namespace IsCopy

variable {src dest : TraceAutomaton}
  {r : (List TaState × List TaState) × TraceAutomaton} {f : TaState → TaState}

theorem fresh (h : IsCopy src dest r f) : ∀ s ∈ src.states, f s ∉ dest.states :=
  fun s hs hmem => absurd (dest.states_lt _ hmem) (Nat.not_lt.mpr (h.above s hs))

/-- Transitions out of an image stay in the copy. -/
theorem delta_image (h : IsCopy src dest r f) {s : TaState} (hs : s ∈ src.states)
    (l : Int) (q : TaState) :
    r.2.delta (f s) l q ↔ ∃ t, src.delta s l t ∧ f t = q := by
  simp only [TraceAutomaton.delta, h.trans]
  constructor
  · intro hmem
    rcases hmem with hmem | ⟨⟨s', l', t⟩, hmem, heq⟩
    · exact absurd (dest.trans_live _ hmem).1 (h.fresh s hs)
    · simp only [Prod.mk.injEq] at heq
      obtain ⟨hq, rfl, hr⟩ := heq
      have hss := h.injective s hs s' (src.trans_live _ hmem).1 hq
      exact ⟨t, hss ▸ hmem, hr.symm⟩
  · intro ⟨t, hmem, hq⟩
    exact Or.inr ⟨(s, l, t), hmem, by rw [hq]⟩

/-- Transitions out of an old state are the old ones. -/
theorem delta_old (h : IsCopy src dest r f) {s : TaState} (hs : s ∈ dest.states)
    (l : Int) (q : TaState) : r.2.delta s l q ↔ dest.delta s l q := by
  simp only [TraceAutomaton.delta, h.trans]
  constructor
  · intro hmem
    rcases hmem with hmem | ⟨d, hd, heq⟩
    · exact hmem
    · have hsd : s = f d.1 := congrArg Prod.fst heq
      exact absurd (hsd ▸ hs) (h.fresh d.1 (src.trans_live d hd).1)
  · exact Or.inl

/-- Words inside the copy are the words of the source. -/
theorem future_image (h : IsCopy src dest r f) {F G : TaState → Prop}
    (htarget : ∀ t ∈ src.states, (F t ↔ G (f t))) {s : TaState} (hs : s ∈ src.states) :
    future r.2.delta epsilon G (f s) = future src.delta epsilon F s :=
  future_map (P := (· ∈ src.states)) (fun _ _ _ _ hedge => (src.trans_live _ hedge).2)
    (fun _ l q hs => h.delta_image hs l q) htarget hs

/-- Words of the old part are unchanged. -/
theorem future_old (h : IsCopy src dest r f) (F : TaState → Prop) {s : TaState}
    (hs : s ∈ dest.states) : future r.2.delta epsilon F s = future dest.delta epsilon F s :=
  future_congr (P := (· ∈ dest.states))
    (fun _ l q hs hedge => (dest.trans_live _ ((h.delta_old hs l q).mp hedge)).2)
    (fun _ l q hs => h.delta_old hs l q) (fun _ _ => Iff.rfl) hs

/-- No word leads from the old part into the copy. -/
theorem future_old_image (h : IsCopy src dest r f) {F : TaState → Prop} {s : TaState}
    (hs : s ∈ dest.states) (hF : ∀ q, F q → ∃ t ∈ src.states, f t = q) :
    future r.2.delta epsilon F s = 0 := by
  refine future_eq_zero (P := (· ∈ dest.states))
    (fun _ l q hs hedge => (dest.trans_live _ ((h.delta_old hs l q).mp hedge)).2) ?_ hs
  intro q hq hFq
  obtain ⟨t, ht, rfl⟩ := hF q hFq
  exact h.fresh t ht hq

/-- No word leads from the copy into the old part. -/
theorem future_image_old (h : IsCopy src dest r f) {F : TaState → Prop} {s : TaState}
    (hs : s ∈ src.states) (hF : ∀ q, F q → q ∈ dest.states) :
    future r.2.delta epsilon F (f s) = 0 := by
  refine future_eq_zero (P := fun q => ∃ u ∈ src.states, f u = q) ?_ ?_ ⟨s, hs, rfl⟩
  · intro _ l q hu hedge
    obtain ⟨u, hu, rfl⟩ := hu
    obtain ⟨v, hv, rfl⟩ := (h.delta_image hu l q).mp hedge
    exact ⟨v, (src.trans_live _ hv).2, rfl⟩
  · intro q hq hFq
    obtain ⟨u, hu, rfl⟩ := hq
    exact h.fresh u hu (hF _ hFq)

end IsCopy

/-- **A fresh isomorphic copy.**  The states that are added are in bijection
with those of the source, the entries that are added are the images of its
entries, the two sets returned are the images of its initial and final states,
and what the destination had before is unchanged. -/
theorem copyAutomaton_isomorphic (src dest : TraceAutomaton) :
    ∃ f : TaState → TaState,
      Set.BijOn f {s | s ∈ src.states}
        {q | q ∈ (copyAutomaton src dest).2.states ∧ q ∉ dest.states} ∧
      (∀ q ∈ dest.states, q ∈ (copyAutomaton src dest).2.states) ∧
      (copyAutomaton src dest).2.trans.Perm
        (dest.trans ++ src.trans.map fun e => (f e.1, e.2.1, f e.2.2)) ∧
      (∀ q, q ∈ (copyAutomaton src dest).1.1 ↔ ∃ s ∈ src.initial, f s = q) ∧
      (∀ q, q ∈ (copyAutomaton src dest).1.2 ↔ ∃ s ∈ src.finals, f s = q) ∧
      (copyAutomaton src dest).2.initial = dest.initial ∧
      (copyAutomaton src dest).2.finals = dest.finals := by
  obtain ⟨f, hf⟩ := exists_isCopy src dest
  refine ⟨f, ⟨?_, ?_, ?_⟩, ?_, hf.entries, hf.init, hf.final, hf.initial, hf.finals⟩
  · intro s hs
    exact ⟨(hf.states _).mpr (Or.inr ⟨s, hs, rfl⟩), hf.fresh s hs⟩
  · intro s hs t ht heq
    exact hf.injective s hs t ht heq
  · intro q h
    obtain ⟨hq, hnew⟩ := h
    exact ((hf.states q).mp hq).resolve_left hnew
  · exact fun q hq => (hf.states q).mpr (Or.inl hq)

end FShell
