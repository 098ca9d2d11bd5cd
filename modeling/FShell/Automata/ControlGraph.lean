import Mathlib

/-!
# Control graphs

A program is seen as its positions: where it begins, which operation stands at a
position, and where the outcomes of the operation lead.  What an operation does to
the data is a relation of its own, so a run is a sequence of positions with data.

`insertBefore` runs another program in front of chosen positions, by whichever way
they are reached.  A graph `Realizes` another when the positions of the second have
places in the first with the same operations and the same ways to go on; then both
have the same runs.  Insertions can be made one position at a time
(`realizes_insertBefore_insertBefore`).
-/

namespace FShell

variable {Op Out Pos Pos' Pos'' D : Type}

/-- The outcome of an operation leads to a position, or out of the program, or it
does not occur. -/
structure ControlGraph (Op Out Pos : Type) where
  entry : Option Pos
  op : Pos → Op
  dest : Pos → Out → Option (Option Pos)

namespace ControlGraph

/-! ## Runs -/

section Runs

variable (G : ControlGraph Op Out Pos) (sem : Op → D → Out → D → Prop)

/-- The operation changes the data and has an outcome. -/
inductive Step : Option Pos × D → Option Pos × D → Prop
  | mk {p : Pos} {o : Out} {q : Option Pos} {d d' : D} (hdest : G.dest p o = some q)
      (hsem : sem (G.op p) d o d') : Step (some p, d) (q, d')

/-- A run from the entry, the latest position first. -/
inductive IsRun : List (Option Pos × D) → Prop
  | start (d : D) : IsRun [(G.entry, d)]
  | step {c c' : Option Pos × D} {cs : List (Option Pos × D)} (hrun : IsRun (c :: cs))
      (hstep : Step G sem c c') : IsRun (c' :: c :: cs)

/-- There is a way from the entry. -/
inductive Reaches : Option Pos → Prop
  | entry : Reaches G.entry
  | step {p : Pos} {o : Out} {q : Option Pos} (hp : Reaches (some p))
      (hdest : G.dest p o = some q) : Reaches q

/-- There is a way out. -/
inductive Leaves : Pos → Prop
  | last {p : Pos} {o : Out} (hdest : G.dest p o = some none) : Leaves p
  | step {p q : Pos} {o : Out} (hdest : G.dest p o = some (some q)) (hq : Leaves q) : Leaves p

end Runs

variable {G : ControlGraph Op Out Pos} {H : ControlGraph Op Out Pos'}
  {I : ControlGraph Op Out Pos''} {sem : Op → D → Out → D → Prop}

/-- A run comes to positions that can be reached. -/
theorem IsRun.reaches {c : Option Pos × D} {cs : List (Option Pos × D)}
    (h : G.IsRun sem (c :: cs)) : G.Reaches c.1 := by
  generalize hall : c :: cs = all at h
  induction h generalizing c cs with
  | start d =>
      obtain ⟨rfl, -⟩ := List.cons.inj hall
      exact Reaches.entry
  | step hrun hstep ih =>
      obtain ⟨rfl, -⟩ := List.cons.inj hall
      obtain ⟨hdest, -⟩ := hstep
      exact Reaches.step (ih rfl) hdest

/-- Every way is a run, when operations do what they like. -/
theorem Reaches.exists_run {q : Option Pos} (h : G.Reaches q) :
    ∃ cs, G.IsRun (fun _ (_ : Unit) _ _ => True) ((q, ()) :: cs) := by
  induction h with
  | entry => exact ⟨[], IsRun.start ()⟩
  | step _ hdest ih =>
      obtain ⟨cs, hrun⟩ := ih
      exact ⟨_, hrun.step (Step.mk hdest trivial)⟩

/-! ## Programs with the same runs -/

/-- `H` carries out `G`: what `G` does at a position, `H` does at its place. -/
structure Realizes (H : ControlGraph Op Out Pos') (G : ControlGraph Op Out Pos)
    (place : Pos → Pos') : Prop where
  entry : H.entry = G.entry.map place
  op : ∀ p, G.Reaches (some p) → H.op (place p) = G.op p
  dest : ∀ p o, G.Reaches (some p) → H.dest (place p) o = (G.dest p o).map (Option.map place)

/-- The places of a run. -/
def placeRun (place : Pos → Pos') (cs : List (Option Pos × D)) : List (Option Pos' × D) :=
  cs.map fun c => (c.1.map place, c.2)

variable {place : Pos → Pos'} {place' : Pos' → Pos''}

/-- One step, there and here. -/
theorem Realizes.step_iff (h : Realizes H G place) {p : Pos} {d : D} {c' : Option Pos' × D}
    (hp : G.Reaches (some p)) :
    H.Step sem (some (place p), d) c' ↔
      ∃ c, G.Step sem (some p, d) c ∧ c' = (c.1.map place, c.2) := by
  constructor
  · intro hx
    obtain ⟨hdest, hsem⟩ := hx
    rw [h.dest p _ hp, Option.map_eq_some_iff] at hdest
    obtain ⟨q, hdest, rfl⟩ := hdest
    rw [h.op p hp] at hsem
    exact ⟨(q, _), Step.mk hdest hsem, rfl⟩
  · intro hx
    obtain ⟨c, ⟨hdest, hsem⟩, rfl⟩ := hx
    refine Step.mk (by rw [h.dest p _ hp, hdest]; rfl) ?_
    rw [h.op p hp]
    exact hsem

/-- **The runs are the same.** -/
theorem Realizes.isRun_iff (h : Realizes H G place) {cs' : List (Option Pos' × D)} :
    H.IsRun sem cs' ↔ ∃ cs, G.IsRun sem cs ∧ placeRun place cs = cs' := by
  constructor
  · intro hrun
    induction hrun with
    | start d => exact ⟨_, IsRun.start d, by rw [h.entry]; rfl⟩
    | step _ hstep ih =>
        obtain ⟨cs, hrun, hplaces⟩ := ih
        cases hrun with
        | start d =>
            obtain ⟨rfl, rfl⟩ := List.cons.inj hplaces
            cases hentry : G.entry with
            | none =>
                rw [hentry] at hstep
                cases hstep
            | some p =>
                rw [hentry] at hstep
                have hreach : G.Reaches (some p) := hentry ▸ Reaches.entry
                obtain ⟨c, hc, rfl⟩ := (h.step_iff hreach).mp hstep
                refine ⟨[c, (some p, d)], ?_, rfl⟩
                exact hentry ▸ (IsRun.start d).step (hentry ▸ hc)
        | @step b c cs hrun hlast =>
            obtain ⟨rfl, rfl⟩ := List.cons.inj hplaces
            obtain ⟨q, d⟩ := c
            cases q with
            | none => cases hstep
            | some p =>
                obtain ⟨c, hc, rfl⟩ := (h.step_iff (hrun.step hlast).reaches).mp hstep
                exact ⟨c :: (some p, d) :: b :: cs, (hrun.step hlast).step hc, rfl⟩
  · intro hx
    obtain ⟨cs, hrun, rfl⟩ := hx
    induction hrun with
    | start d =>
        have hstart : H.IsRun sem [(H.entry, d)] := IsRun.start d
        rw [h.entry] at hstart
        exact hstart
    | @step c c' cs hrun hstep ih =>
        obtain ⟨hdest, hsem⟩ := hstep
        exact ih.step ((h.step_iff hrun.reaches).mpr ⟨_, Step.mk hdest hsem, rfl⟩)

/-- The place of a reachable position is reachable. -/
theorem Realizes.reaches (h : Realizes H G place) {q : Option Pos} (hq : G.Reaches q) :
    H.Reaches (q.map place) := by
  induction hq with
  | entry => exact h.entry ▸ Reaches.entry
  | @step p o q hp hdest ih =>
      refine Reaches.step (o := o) ih ?_
      rw [h.dest p o hp, hdest]
      rfl

/-- Only places of reachable positions are reachable. -/
theorem Realizes.of_reaches (h : Realizes H G place) {q' : Option Pos'} (hq : H.Reaches q') :
    ∃ q, G.Reaches q ∧ q.map place = q' := by
  induction hq with
  | entry => exact ⟨G.entry, Reaches.entry, h.entry.symm⟩
  | step _ hdest ih =>
      obtain ⟨q, hq, hplace⟩ := ih
      obtain ⟨p, rfl, rfl⟩ := Option.map_eq_some_iff.mp hplace
      rw [h.dest p _ hq, Option.map_eq_some_iff] at hdest
      obtain ⟨q, hdest, rfl⟩ := hdest
      exact ⟨q, hq.step hdest, rfl⟩

/-- Realizing can be done in two steps. -/
theorem Realizes.trans (h' : Realizes I H place') (h : Realizes H G place) :
    Realizes I G (place' ∘ place) where
  entry := by rw [h'.entry, h.entry, Option.map_map]
  op := by
    intro p hp
    rw [Function.comp_apply, h'.op _ (h.reaches hp), h.op p hp]
  dest := by
    intro p o hp
    rw [Function.comp_apply, h'.dest _ o (h.reaches hp), h.dest p o hp, Option.map_map]
    congr 1
    funext q
    exact Option.map_map ..

end ControlGraph

/-! ## Insertion -/

/-- The positions of a program with copies of another one in front of some of them. -/
inductive Inserted (Pos Pos' : Type)
  | plain (p : Pos)
  | copy (p : Pos) (k : Pos')
  deriving DecidableEq

namespace Inserted

/-- The position itself, or the one that the copy is in front of. -/
def goal : Inserted Pos Pos' → Pos
  | plain p => p
  | copy p _ => p

/-- The same among the places of the positions. -/
def map (place : Pos → Pos'') : Inserted Pos Pos' → Inserted Pos'' Pos'
  | plain p => plain (place p)
  | copy p k => copy (place p) k

end Inserted

namespace ControlGraph

/-- A position of the copy in front of `p`, or `p` behind the end of the copy. -/
def within (p : Pos) : Option Pos' → Inserted Pos Pos'
  | some k => .copy p k
  | none => .plain p

/-- Where a way to `p` leads: to the copy in front of it, if there is one. -/
def enter (K : ControlGraph Op Out Pos') (here : Pos → Bool) (p : Pos) : Inserted Pos Pos' :=
  if here p then within p K.entry else .plain p

/-- `K` runs before every position of `G` that is `here`, and `G` is unchanged apart
from that. -/
def insertBefore (G : ControlGraph Op Out Pos) (K : ControlGraph Op Out Pos')
    (here : Pos → Bool) : ControlGraph Op Out (Inserted Pos Pos') where
  entry := G.entry.map (enter K here)
  op
    | .plain p => G.op p
    | .copy _ k => K.op k
  dest
    | .plain p, o => (G.dest p o).map (Option.map (enter K here))
    | .copy p k, o => (K.dest k o).map fun q => some (within p q)

section Insertion

variable {G : ControlGraph Op Out Pos} {K : ControlGraph Op Out Pos'}
  {H : ControlGraph Op Out Pos''} {here : Pos → Bool} {place : Pos → Pos''} {p : Pos} {k : Pos'}
  {o : Out}

/-- Where a copy stands in front, it is entered. -/
theorem enter_of_here (h : here p = true) : enter K here p = within p K.entry := if_pos h

/-- Where none does, the position itself is entered. -/
theorem enter_of_not_here (h : here p = false) : enter K here p = .plain p := by
  rw [enter, h, if_neg Bool.false_ne_true]

/-- The entry after an insertion. -/
@[simp] theorem insertBefore_entry :
    (G.insertBefore K here).entry = G.entry.map (enter K here) := rfl

/-- The old positions keep their operations. -/
@[simp] theorem insertBefore_op_plain : (G.insertBefore K here).op (.plain p) = G.op p := rfl

/-- The copies have the operations of the inserted program. -/
@[simp] theorem insertBefore_op_copy : (G.insertBefore K here).op (.copy p k) = K.op k := rfl

/-- From an old position control enters by the copies. -/
@[simp] theorem insertBefore_dest_plain : (G.insertBefore K here).dest (.plain p) o =
    (G.dest p o).map (Option.map (enter K here)) := rfl

/-- From a copy control stays in it or comes to its position. -/
@[simp] theorem insertBefore_dest_copy : (G.insertBefore K here).dest (.copy p k) o =
    (K.dest k o).map fun q => some (within p q) := rfl

/-- What a reachable position of the whole says about the parts. -/
def Parts (G : ControlGraph Op Out Pos) (K : ControlGraph Op Out Pos') (here : Pos → Bool) :
    Option (Inserted Pos Pos') → Prop
  | some (.plain p) => G.Reaches (some p)
  | some (.copy p k) => G.Reaches (some p) ∧ here p = true ∧ K.Reaches (some k)
  | none => True

/-- Inside a copy, or behind it. -/
theorem parts_within {q : Option Pos'} (hp : G.Reaches (some p)) (hhere : here p = true)
    (hq : K.Reaches q) : Parts G K here (some (within p q)) := by
  cases q with
  | none => exact hp
  | some k => exact ⟨hp, hhere, hq⟩

/-- At the way into a position. -/
theorem parts_enter {q : Option Pos} (hq : G.Reaches q) :
    Parts G K here (q.map (enter K here)) := by
  cases q with
  | none => trivial
  | some p =>
      rw [Option.map_some, enter]
      split_ifs with hhere
      · exact parts_within hq hhere Reaches.entry
      · exact hq

/-- Reachable positions of the whole are reachable in the parts. -/
theorem parts_of_reaches {x : Option (Inserted Pos Pos')}
    (hx : (G.insertBefore K here).Reaches x) : Parts G K here x := by
  induction hx with
  | entry => exact parts_enter Reaches.entry
  | @step x o q _ hdest ih =>
      cases x with
      | plain p =>
          rw [insertBefore_dest_plain, Option.map_eq_some_iff] at hdest
          obtain ⟨q, hdest, rfl⟩ := hdest
          exact parts_enter (Reaches.step ih hdest)
      | copy p k =>
          rw [insertBefore_dest_copy, Option.map_eq_some_iff] at hdest
          obtain ⟨q, hdest, rfl⟩ := hdest
          obtain ⟨hp, hhere, hk⟩ := ih
          exact parts_within hp hhere (hk.step hdest)

/-- The copy in front of a position is passed. -/
theorem reaches_plain_of_copy (hleaves : K.Leaves k)
    (hcopy : (G.insertBefore K here).Reaches (some (.copy p k))) :
    (G.insertBefore K here).Reaches (some (.plain p)) := by
  induction hleaves with
  | last hdest => exact hcopy.step (by rw [insertBefore_dest_copy, hdest]; rfl)
  | step hdest _ ih => exact ih (hcopy.step (by rw [insertBefore_dest_copy, hdest]; rfl))

/-- Whoever enters comes to the position. -/
theorem reaches_plain_of_enter (hleaves : ∀ k, K.entry = some k → K.Leaves k)
    (h : (G.insertBefore K here).Reaches (some (enter K here p))) :
    (G.insertBefore K here).Reaches (some (.plain p)) := by
  rw [enter] at h
  split_ifs at h
  · cases hentry : K.entry with
    | none => rwa [hentry] at h
    | some k =>
        rw [hentry] at h
        exact reaches_plain_of_copy (hleaves k hentry) h
  · exact h

/-- Nothing becomes out of reach when the inserted program can be left. -/
theorem reaches_plain (hleaves : ∀ k, K.entry = some k → K.Leaves k)
    (hp : G.Reaches (some p)) : (G.insertBefore K here).Reaches (some (.plain p)) := by
  have hall : ∀ q, G.Reaches q → (G.insertBefore K here).Reaches (q.map (enter K here)) := by
    intro q hq
    induction hq with
    | entry => exact Reaches.entry
    | step _ hdest ih =>
        exact (reaches_plain_of_enter hleaves ih).step (by rw [insertBefore_dest_plain, hdest]; rfl)
  exact reaches_plain_of_enter hleaves (hall _ hp)

/-! ### Insertions, one after the other -/

/-- An empty program may be inserted anywhere. -/
theorem insertBefore_of_empty (h : K.entry = none) (here' : Pos → Bool) :
    G.insertBefore K here = G.insertBefore K here' := by
  have henter : ∀ here : Pos → Bool, enter K here = .plain := by
    intro here
    funext p
    rw [enter, h]
    split_ifs <;> rfl
  rw [insertBefore, insertBefore, henter here, henter here']

/-- Where nothing is inserted, nothing changes. -/
theorem realizes_of_never {place : Inserted Pos Pos' → Pos} (hplace : ∀ p, place (.plain p) = p) :
    Realizes G (G.insertBefore K fun _ => false) place := by
  have henter : place ∘ enter K (fun _ => false) = id := by
    funext p
    rw [Function.comp_apply, enter_of_not_here rfl, hplace, id]
  have hplain : ∀ x, (G.insertBefore K fun _ => false).Reaches (some x) → ∃ p, x = .plain p := by
    intro x hx
    cases x with
    | plain p => exact ⟨p, rfl⟩
    | copy p k =>
        obtain ⟨-, hhere, -⟩ := parts_of_reaches hx
        cases hhere
  refine ⟨?_, ?_, ?_⟩
  · rw [insertBefore_entry, Option.map_map, henter, Option.map_id_fun, id]
  · intro x hx
    obtain ⟨p, rfl⟩ := hplain x hx
    rw [hplace, insertBefore_op_plain]
  · intro x o hx
    obtain ⟨p, rfl⟩ := hplain x hx
    rw [hplace, insertBefore_dest_plain, Option.map_map, Option.map_comp_map, henter,
      Option.map_id_fun, Option.map_id_fun, id]

/-- Inserting into a program that realizes another. -/
theorem Realizes.insertBefore (h : Realizes H G place) (K : ControlGraph Op Out Pos')
    {here' : Pos'' → Bool} (hhere : ∀ p, G.Reaches (some p) → here' (place p) = here p) :
    Realizes (H.insertBefore K here') (G.insertBefore K here) (Inserted.map place) := by
  have hwithin : ∀ p (q : Option Pos'), within (place p) q = (within p q).map place := by
    intro p q
    cases q <;> rfl
  have henter : ∀ q, G.Reaches q → (q.map place).map (enter K here') =
      (q.map (enter K here)).map (Inserted.map place) := by
    intro q hq
    cases q with
    | none => rfl
    | some p =>
        simp only [Option.map_some, enter, hhere p hq, hwithin]
        split_ifs <;> rfl
  refine ⟨?_, ?_, ?_⟩
  · rw [insertBefore_entry, insertBefore_entry, h.entry, henter _ Reaches.entry]
  · intro x hx
    cases x with
    | plain p => exact h.op p (parts_of_reaches hx)
    | copy p k => rfl
  · intro x o hx
    cases x with
    | plain p =>
        have hp : G.Reaches (some p) := parts_of_reaches hx
        rw [Inserted.map, insertBefore_dest_plain, insertBefore_dest_plain, h.dest p o hp]
        cases hdest : G.dest p o with
        | none => rfl
        | some q => exact congrArg some (henter q (hp.step hdest))
    | copy p k =>
        rw [Inserted.map, insertBefore_dest_copy, insertBefore_dest_copy, Option.map_map]
        congr 1
        funext q
        rw [hwithin]
        rfl

/-- The positions of one insertion after others. -/
def oneMore [DecidableEq Pos] (p : Pos) :
    Inserted Pos Pos' → Inserted (Inserted Pos Pos') Pos'
  | .plain q => .plain (.plain q)
  | .copy q k => if q = p then .copy (.plain p) k else .plain (.copy q k)

/-- **Insertions one at a time.** -/
theorem realizes_insertBefore_insertBefore [DecidableEq Pos] [DecidableEq Pos'] (p : Pos)
    (hp : here p = false) :
    Realizes ((G.insertBefore K here).insertBefore K fun x => decide (x = .plain p))
      (G.insertBefore K fun q => here q || decide (q = p)) (oneMore p) := by
  have hwithin : ∀ q (r : Option Pos'), q ≠ p →
      enter K (fun x => decide (x = .plain p)) (within q r) = .plain (within q r) ∧
        oneMore p (within q r) = .plain (within q r) := by
    intro q r hq
    cases r <;> simp [enter, within, oneMore, hq]
  have hself : ∀ r : Option Pos', oneMore p (within p r) = within (.plain p) r := by
    intro r
    cases r <;> simp [within, oneMore]
  have henter : enter K (fun x => decide (x = .plain p)) ∘ enter K here =
      oneMore p ∘ enter K fun q => here q || decide (q = p) := by
    funext q
    rw [Function.comp_apply, Function.comp_apply]
    by_cases hq : q = p
    · subst hq
      simp [enter, hp, hself]
    · cases hhere : here q with
      | true =>
          rw [enter_of_here hhere, (hwithin q K.entry hq).1, enter_of_here (by simp [hhere]),
            (hwithin q K.entry hq).2]
      | false =>
          have hright : enter K (fun q => here q || decide (q = p)) q = .plain q :=
            enter_of_not_here (by simp [hhere, hq])
          rw [enter_of_not_here hhere, hright]
          exact (hwithin q none hq).1
  refine ⟨?_, ?_, ?_⟩
  · simp only [insertBefore_entry, Option.map_map, henter]
  · intro x _
    cases x with
    | plain q => rfl
    | copy q k =>
        rw [oneMore]
        split_ifs <;> rfl
  · intro x o _
    cases x with
    | plain q =>
        simp only [oneMore, insertBefore_dest_plain, Option.map_map, Option.map_comp_map, henter]
    | copy q k =>
        rw [oneMore, insertBefore_dest_copy, Option.map_map]
        split_ifs with hq
        · rw [insertBefore_dest_copy]
          congr 1
          funext r
          rw [Function.comp_apply, Option.map_some, hq, hself]
        · rw [insertBefore_dest_plain, insertBefore_dest_copy, Option.map_map]
          congr 1
          funext r
          have hcopy := hwithin q r hq
          rw [Function.comp_apply, Function.comp_apply, Option.map_some, Option.map_some, hcopy.1,
            hcopy.2]

end Insertion

end ControlGraph

end FShell
