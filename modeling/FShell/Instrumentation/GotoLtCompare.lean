import FShell.Collections.SearchTree
import FShell.Instrumentation.PredicateInsertion

/-!
# The order of instructions

`GOTO_Lt_Compare` compares instructions by function names and location numbers.
Names are compared by the number that each string has in the string container (`no`).
Ordered sets of nodes and edges live across insertions, each of which rewrites the
numbers.  The order of the instructions that were there does not change
(`gotoLtCompare_of_keepsOrder`), and two instructions are never equivalent
(`eq_of_not_lt`), so the sets stay in order and can be searched
(`OrderStable`).

Within a function that needs nothing else.  Two bodies may have instructions of one
function name, where code was inlined; to tell these apart, the counter of the numbers
has to run through all functions (`Separated`).
-/

namespace FShell.GotoTransformation

/-- An instruction of the program. -/
def NumberedFunctions.Has (P : NumberedFunctions) (a : Location) : Prop :=
  a ∈ P.functions.locations

/-! ## The comparisons -/

/-- `GOTO_Lt_Compare::operator()`. -/
def NumberedFunctions.gotoLtCompare (P : NumberedFunctions) (no : String ↪ Nat)
    (a b : Location) : Bool :=
  match P.functions.instructionAt a, P.functions.instructionAt b with
  | some i, some j =>
      if no i.function < no j.function then true
      else if no j.function < no i.function then false
      else P.locationNumber a < P.locationNumber b
  | _, _ => false

/-- `CFANode_Lt_Compare::operator()`. -/
def NumberedFunctions.cfaNodeLtCompare (P : NumberedFunctions) (no : String ↪ Nat)
    (a b : Location) : Bool :=
  if P.gotoLtCompare no a b then true
  else if P.gotoLtCompare no b a then false
  else false

/-- `CFAEdge_Lt_Compare::operator()`. -/
def NumberedFunctions.cfaEdgeLtCompare (P : NumberedFunctions) (no : String ↪ Nat)
    (a b : Location × Location) : Bool :=
  if P.gotoLtCompare no a.1 b.1 then true
  else if P.gotoLtCompare no b.1 a.1 then false
  else P.cfaNodeLtCompare no a.2 b.2

/-- Both are in one function. -/
def SameFunction (a b : Location) : Prop := (ofLex a).1 = (ofLex b).1

/-- The instructions carry the names of their functions. -/
def Named (gf : GotoFunctions) : Prop :=
  ∀ f fct, (f, fct) ∈ gf.functionMap → ∀ i ∈ fct.body, i.function = f

/-- Instructions of one name have different numbers: they are in one function, or the
numbers run through all functions. -/
def NumberedFunctions.Separated (P : NumberedFunctions) : Prop :=
  Named P.functions ∨ InMapOrder P.functions P.locationNumber

/-- They are, and stay so with every update. -/
def NumberedFunctions.StaysSeparated (P : NumberedFunctions) (u : LocationNumbering) : Prop :=
  Named P.functions ∨ (InMapOrder P.functions P.locationNumber ∧ u.InMapOrder)

/-! ## Numbers along a list -/

section Numbers

variable {α : Type} {l : List α} {n n' : α → Nat} {a b : α}

/-- Two numberings that increase along a list order its elements in one way. -/
theorem lt_of_increasing (h : l.Pairwise fun x y => n x < n y)
    (h' : l.Pairwise fun x y => n' x < n' y) (ha : a ∈ l) (hb : b ∈ l) (hlt : n a < n b) :
    n' a < n' b := by
  induction l with
  | nil => cases ha
  | cons x l ih =>
      obtain ⟨hx, hl⟩ := List.pairwise_cons.mp h
      obtain ⟨hx', hl'⟩ := List.pairwise_cons.mp h'
      rcases List.mem_cons.mp ha with rfl | hal
      · rcases List.mem_cons.mp hb with rfl | hbl
        · exact absurd hlt (Nat.lt_irrefl _)
        · exact hx' b hbl
      · rcases List.mem_cons.mp hb with rfl | hbl
        · exact absurd hlt (Nat.lt_asymm (hx a hal))
        · exact ih hl hl' hal hbl

/-- Numbers that increase along a list are different. -/
theorem eq_of_increasing (h : l.Pairwise fun x y => n x < n y) (ha : a ∈ l) (hb : b ∈ l)
    (heq : n a = n b) : a = b := by
  induction l with
  | nil => cases ha
  | cons x l ih =>
      obtain ⟨hx, hl⟩ := List.pairwise_cons.mp h
      rcases List.mem_cons.mp ha with rfl | hal
      · rcases List.mem_cons.mp hb with rfl | hbl
        · rfl
        · exact absurd heq (hx b hbl).ne
      · rcases List.mem_cons.mp hb with rfl | hbl
        · exact absurd heq (hx a hal).ne'
        · exact ih hl hal hbl

end Numbers

/-! ## A comparison of keys -/

section Keys

variable {P Q : NumberedFunctions} {a b c : Location} {i j : Instruction}
  {no : String ↪ Nat}

/-- An instruction of the map is found. -/
theorem instructionAt_locationOf {gf : GotoFunctions} {f : String} {fct : GotoFunction}
    (hfct : (f, fct) ∈ gf.functionMap) (hi : i ∈ fct.body) :
    gf.instructionAt (locationOf f i.pc) = some i := by
  obtain ⟨before, after, heq⟩ := List.append_of_mem hi
  have hfind : gf.find f = some fct := GotoFunctions.find_eq_some.mpr hfct
  have hsplit := splitAt_of_nodup fct.pcs_nodup heq
  exact (congrArg (Option.bind · _) hfind).trans hsplit.instructionAt_eq

/-- The names decide, then the numbers. -/
theorem gotoLtCompare_eq_true : P.gotoLtCompare no a b = true ↔
    ∃ i j, P.functions.instructionAt a = some i ∧ P.functions.instructionAt b = some j ∧
      toLex (no i.function, P.locationNumber a) < toLex (no j.function, P.locationNumber b) := by
  unfold NumberedFunctions.gotoLtCompare
  cases ha : P.functions.instructionAt a with
  | none => simp
  | some i =>
      cases hb : P.functions.instructionAt b with
      | none => simp
      | some j =>
          simp only [Option.some.injEq, exists_and_left, exists_eq_left', Prod.Lex.toLex_lt_toLex]
          by_cases hij : no i.function < no j.function
          · simp [hij]
          · by_cases hji : no j.function < no i.function
            · simp [hij, hji, hji.ne']
            · simp [le_antisymm (not_lt.mp hji) (not_lt.mp hij)]

/-- The comparison goes one way. -/
theorem gotoLtCompare_asymm (h : P.gotoLtCompare no a b = true) : P.gotoLtCompare no b a = false := by
  obtain ⟨i, j, ha, hb, hlt⟩ := gotoLtCompare_eq_true.mp h
  rw [← Bool.not_eq_true]
  intro h'
  obtain ⟨j', i', hb', ha', hlt'⟩ := gotoLtCompare_eq_true.mp h'
  obtain rfl := Option.some.inj (ha.symm.trans ha')
  obtain rfl := Option.some.inj (hb.symm.trans hb')
  exact lt_asymm hlt hlt'

/-- What is compared: the name of the function, and the number. -/
def NumberedFunctions.key (P : NumberedFunctions) (no : String ↪ Nat) (a : Location) : Nat ×ₗ Nat :=
  toLex (no (((P.functions.instructionAt a).map Instruction.function).getD ""), P.locationNumber a)

/-- The key of an instruction that is found. -/
theorem key_eq (ha : P.functions.instructionAt a = some i) :
    P.key no a = toLex (no i.function, P.locationNumber a) := by
  rw [NumberedFunctions.key, ha]
  rfl

/-- On instructions, the comparison is that of the keys. -/
theorem gotoLtCompare_iff_key (ha : P.Has a) (hb : P.Has b) :
    P.gotoLtCompare no a b = true ↔ P.key no a < P.key no b := by
  obtain ⟨f, fct, hfct, i, hi, rfl⟩ := GotoFunctions.mem_locations.mp ha
  obtain ⟨g, gct, hgct, j, hj, rfl⟩ := GotoFunctions.mem_locations.mp hb
  have hati := instructionAt_locationOf hfct hi
  have hatj := instructionAt_locationOf hgct hj
  rw [key_eq hati, key_eq hatj, gotoLtCompare_eq_true, hati, hatj]
  simp

/-- Instructions of one name are in one function, if they carry its name. -/
theorem Named.function_eq {gf : GotoFunctions} (hnamed : Named gf) {f g : String}
    {fct gct : GotoFunction} (hfct : (f, fct) ∈ gf.functionMap) (hgct : (g, gct) ∈ gf.functionMap)
    (hi : i ∈ fct.body) (hj : j ∈ gct.body) (hname : i.function = j.function) : f = g := by
  rw [← hnamed f fct hfct i hi, hname, hnamed g gct hgct j hj]

/-- A name has one function. -/
theorem function_unique {gf : GotoFunctions} {f : String} {fct gct : GotoFunction}
    (hfct : (f, fct) ∈ gf.functionMap) (hgct : (f, gct) ∈ gf.functionMap) : fct = gct := by
  have hfind := GotoFunctions.find_eq_some.mpr hfct
  rw [GotoFunctions.find_eq_some.mpr hgct] at hfind
  exact (Option.some.inj hfind).symm

/-- **Different instructions have different keys.** -/
theorem key_injective (hsep : SameFunction a b ∨ P.Separated) (ha : P.Has a) (hb : P.Has b)
    (hkeys : P.key no a = P.key no b) : a = b := by
  have hlocations := And.intro ha hb
  obtain ⟨f, fct, hfct, i, hi, rfl⟩ := GotoFunctions.mem_locations.mp ha
  obtain ⟨g, gct, hgct, j, hj, rfl⟩ := GotoFunctions.mem_locations.mp hb
  rw [key_eq (instructionAt_locationOf hfct hi), key_eq (instructionAt_locationOf hgct hj)] at hkeys
  obtain ⟨hname, hnumber⟩ := Prod.mk.inj (toLex.injective hkeys)
  have hone : f = g ∨ InMapOrder P.functions P.locationNumber := by
    rcases hsep with hsame | hnamed | hmap
    · exact Or.inl hsame
    · exact Or.inl (hnamed.function_eq hfct hgct hi hj (no.injective hname))
    · exact Or.inr hmap
  rcases hone with rfl | hmap
  · obtain rfl := function_unique hfct hgct
    rw [eq_of_increasing (P.inListOrder f fct hfct) hi hj hnumber]
  · exact eq_of_increasing hmap hlocations.1 hlocations.2 hnumber

/-- Instructions are never equivalent. -/
theorem eq_of_not_lt (hsep : SameFunction a b ∨ P.Separated) (ha : P.Has a) (hb : P.Has b)
    (hab : P.gotoLtCompare no a b = false) (hba : P.gotoLtCompare no b a = false) : a = b := by
  rw [← Bool.not_eq_true, gotoLtCompare_iff_key ha hb, not_lt] at hab
  rw [← Bool.not_eq_true, gotoLtCompare_iff_key hb ha, not_lt] at hba
  exact key_injective hsep ha hb (le_antisymm hba hab)

/-- An instruction that was there is there with its name. -/
theorem exists_kept_instruction {f : String} {fct : GotoFunction}
    (hkeeps : KeepsOrder P.functions Q.functions) (hfct : (f, fct) ∈ P.functions.functionMap)
    (hi : i ∈ fct.body) :
    ∃ i', Q.functions.instructionAt (locationOf f i.pc) = some i' ∧ i'.function = i.function := by
  obtain ⟨fct', hfct', hbody⟩ := hkeeps.exists_kept hfct
  obtain ⟨i', hi', heq⟩ := List.mem_map.mp (hbody.sublist.mem (List.mem_map_of_mem hi))
  obtain ⟨hpc, hname⟩ := Prod.mk.inj heq
  exact ⟨i', hpc ▸ instructionAt_locationOf hfct' hi', hname⟩

/-- The numbers in one function, or all of them, are in one order. -/
theorem locationNumber_lt_iff (hkeeps : KeepsOrder P.functions Q.functions) {f g : String}
    {fct gct : GotoFunction} (hfct : (f, fct) ∈ P.functions.functionMap)
    (hgct : (g, gct) ∈ P.functions.functionMap) (hi : i ∈ fct.body) (hj : j ∈ gct.body)
    (hone : f = g ∨
      (InMapOrder P.functions P.locationNumber ∧ InMapOrder Q.functions Q.locationNumber)) :
    Q.locationNumber (locationOf f i.pc) < Q.locationNumber (locationOf g j.pc) ↔
      P.locationNumber (locationOf f i.pc) < P.locationNumber (locationOf g j.pc) := by
  have hlist : ∃ l : List Location, locationOf f i.pc ∈ l ∧ locationOf g j.pc ∈ l ∧
      (l.Pairwise fun x y => P.locationNumber x < P.locationNumber y) ∧
      l.Pairwise fun x y => Q.locationNumber x < Q.locationNumber y := by
    rcases hone with rfl | ⟨hP, hQ⟩
    · obtain rfl := function_unique hfct hgct
      obtain ⟨fct', hfct', hbody⟩ := hkeeps.exists_kept hfct
      refine ⟨(fct.body.map Instruction.pc).map (locationOf f),
        List.mem_map_of_mem (List.mem_map_of_mem hi), List.mem_map_of_mem (List.mem_map_of_mem hj),
        ?_, ?_⟩
      · rw [List.pairwise_map, List.pairwise_map]
        exact P.inListOrder f fct hfct
      · refine List.Pairwise.sublist (hbody.pcs.map (locationOf f)) ?_
        rw [List.pairwise_map, List.pairwise_map]
        exact Q.inListOrder f fct' hfct'
    · exact ⟨P.functions.locations, GotoFunctions.mem_locations.mpr ⟨f, fct, hfct, i, hi, rfl⟩,
        GotoFunctions.mem_locations.mpr ⟨g, gct, hgct, j, hj, rfl⟩, hP, hQ.sublist hkeeps.locations⟩
  obtain ⟨l, hil, hjl, hP, hQ⟩ := hlist
  exact ⟨lt_of_increasing hQ hP hil hjl, lt_of_increasing hP hQ hil hjl⟩

/-- **The order of the instructions** that were there does not change. -/
theorem gotoLtCompare_of_keepsOrder (hkeeps : KeepsOrder P.functions Q.functions)
    (hsep : SameFunction a b ∨ Named P.functions ∨
      (InMapOrder P.functions P.locationNumber ∧ InMapOrder Q.functions Q.locationNumber))
    (ha : P.Has a) (hb : P.Has b) : Q.gotoLtCompare no a b = P.gotoLtCompare no a b := by
  obtain ⟨f, fct, hfct, i, hi, rfl⟩ := GotoFunctions.mem_locations.mp ha
  obtain ⟨g, gct, hgct, j, hj, rfl⟩ := GotoFunctions.mem_locations.mp hb
  obtain ⟨i', hi', hnamei⟩ := exists_kept_instruction hkeeps hfct hi
  obtain ⟨j', hj', hnamej⟩ := exists_kept_instruction hkeeps hgct hj
  unfold NumberedFunctions.gotoLtCompare
  rw [hi', hj', instructionAt_locationOf hfct hi, instructionAt_locationOf hgct hj]
  simp only [hnamei, hnamej]
  split_ifs with hlt hgt
  · rfl
  · rfl
  · have hname : i.function = j.function :=
      no.injective (le_antisymm (not_lt.mp hgt) (not_lt.mp hlt))
    refine decide_eq_decide.mpr (locationNumber_lt_iff hkeeps hfct hgct hi hj ?_)
    rcases hsep with hsame | hnamed | hmap
    · exact Or.inl hsame
    · exact Or.inl (hnamed.function_eq hfct hgct hi hj hname)
    · exact Or.inr hmap

end Keys

/-! ## Nodes and edges -/

section Edges

variable {P Q : NumberedFunctions} {a b : Location} {d e : Location × Location}
  {no : String ↪ Nat}

/-- Nodes are compared as instructions. -/
@[simp] theorem cfaNodeLtCompare_eq : P.cfaNodeLtCompare no = P.gotoLtCompare no := by
  funext a b
  unfold NumberedFunctions.cfaNodeLtCompare
  cases P.gotoLtCompare no a b <;> simp

/-- Both ends are instructions of the program. -/
def NumberedFunctions.HasEdge (P : NumberedFunctions) (e : Location × Location) : Prop :=
  P.Has e.1 ∧ P.Has e.2

/-- The first ends decide, then the second ones. -/
theorem cfaEdgeLtCompare_eq_true : P.cfaEdgeLtCompare no d e = true ↔
    P.gotoLtCompare no d.1 e.1 = true ∨
      (P.gotoLtCompare no e.1 d.1 = false ∧ P.gotoLtCompare no d.2 e.2 = true) := by
  unfold NumberedFunctions.cfaEdgeLtCompare
  rw [cfaNodeLtCompare_eq]
  cases P.gotoLtCompare no d.1 e.1 <;> cases P.gotoLtCompare no e.1 d.1 <;> simp

/-- The comparison of edges goes one way. -/
theorem cfaEdgeLtCompare_asymm (h : P.cfaEdgeLtCompare no d e = true) :
    P.cfaEdgeLtCompare no e d = false := by
  rw [← Bool.not_eq_true, cfaEdgeLtCompare_eq_true]
  intro h'
  rcases cfaEdgeLtCompare_eq_true.mp h with hfirst | ⟨hnot, hsecond⟩
  · rcases h' with hfirst' | ⟨hnot', -⟩
    · simp [gotoLtCompare_asymm hfirst] at hfirst'
    · simp [hfirst] at hnot'
  · rcases h' with hfirst' | ⟨-, hsecond'⟩
    · simp [hfirst'] at hnot
    · simp [gotoLtCompare_asymm hsecond] at hsecond'

/-- Edges compare as the pairs of the keys. -/
theorem cfaEdgeLtCompare_iff_key (hd : P.HasEdge d) (he : P.HasEdge e) :
    P.cfaEdgeLtCompare no d e = true ↔
      toLex (P.key no d.1, P.key no d.2) < toLex (P.key no e.1, P.key no e.2) := by
  rw [cfaEdgeLtCompare_eq_true, Prod.Lex.toLex_lt_toLex, ← Bool.not_eq_true,
    gotoLtCompare_iff_key hd.1 he.1, gotoLtCompare_iff_key he.1 hd.1,
    gotoLtCompare_iff_key hd.2 he.2, not_lt]
  constructor
  · intro h
    rcases h with hfirst | ⟨hle, hsecond⟩
    · exact Or.inl hfirst
    · exact hle.lt_or_eq.imp_right fun heq => ⟨heq, hsecond⟩
  · intro h
    rcases h with hfirst | ⟨heq, hsecond⟩
    · exact Or.inl hfirst
    · exact Or.inr ⟨heq.le, hsecond⟩

/-- It is transitive. -/
theorem cfaEdgeLtCompare_trans {c : Location × Location} (hc : P.HasEdge c) (hd : P.HasEdge d)
    (he : P.HasEdge e) (hcd : P.cfaEdgeLtCompare no c d = true)
    (hde : P.cfaEdgeLtCompare no d e = true) : P.cfaEdgeLtCompare no c e = true := by
  rw [cfaEdgeLtCompare_iff_key hc hd] at hcd
  rw [cfaEdgeLtCompare_iff_key hd he] at hde
  exact (cfaEdgeLtCompare_iff_key hc he).mpr (hcd.trans hde)

/-- Edges are never equivalent. -/
theorem edge_eq_of_not_lt (hsep : P.Separated) (hd : P.HasEdge d) (he : P.HasEdge e)
    (hde : P.cfaEdgeLtCompare no d e = false) (hed : P.cfaEdgeLtCompare no e d = false) : d = e := by
  rw [← Bool.not_eq_true, cfaEdgeLtCompare_eq_true, not_or, not_and, Bool.not_eq_true,
    Bool.not_eq_true] at hde hed
  exact Prod.ext (eq_of_not_lt (Or.inr hsep) hd.1 he.1 hde.1 hed.1)
    (eq_of_not_lt (Or.inr hsep) hd.2 he.2 (hde.2 hed.1) (hed.2 hde.1))

/-- It depends on the comparison of instructions. -/
theorem cfaEdgeLtCompare_congr
    (hsame : ∀ a b, P.Has a → P.Has b → Q.gotoLtCompare no a b = P.gotoLtCompare no a b)
    (hd : P.HasEdge d) (he : P.HasEdge e) : Q.cfaEdgeLtCompare no d e = P.cfaEdgeLtCompare no d e := by
  unfold NumberedFunctions.cfaEdgeLtCompare
  rw [cfaNodeLtCompare_eq, cfaNodeLtCompare_eq, hsame _ _ hd.1 he.1, hsame _ _ he.1 hd.1,
    hsame _ _ hd.2 he.2]

end Edges

/-! ## Runs of insertions -/

/-- One insertion. -/
inductive Inserts (u : LocationNumbering) (P Q : NumberedFunctions) : Prop
  | insertAt (node : Location) (prg : List Instruction) (inserted : List Location)
      (h : insertAtNode u P node prg = some (Q, inserted))
  | insert (f : String) (pos : Position) (stmtType : InstructionType) (prg : List Instruction)
      (fuel : Nat) (inserted : List Location)
      (h : insertInto u P f pos stmtType prg fuel = .ok (some (Q, inserted)))
  | insertPredicateAt (env : PredicateEnv) (node : Location) (pred : Expr) (varCount : Nat)
      (inserted : List Location) (varCount' : Nat)
      (h : insertPredicateAt u env P node pred varCount = .ok (some (Q, inserted, varCount')))

/-- A sequence of insertions. -/
abbrev Insertions (u : LocationNumbering) : NumberedFunctions → NumberedFunctions → Prop :=
  Relation.ReflTransGen (Inserts u)

section Runs

variable {u : LocationNumbering} {P Q R : NumberedFunctions}
  {no : String ↪ Nat}

/-- An insertion ends with an update. -/
theorem Inserts.renumbered (h : Inserts u P Q) : Renumbered u P Q := by
  cases h with
  | insertAt node prg inserted h => exact renumbered_insertAtNode h
  | insert f pos stmtType prg fuel inserted h => exact renumbered_insertInto h
  | insertPredicateAt env node pred varCount inserted varCount' h =>
      exact renumbered_insertPredicateAt h

/-- Two updates. -/
theorem Renumbered.trans (h : Renumbered u P Q) (h' : Renumbered u Q R) : Renumbered u P R where
  keeps := h.keeps.trans h'.keeps
  numbers := by
    rcases h'.numbers with rfl | hR
    · exact h.numbers
    · exact Or.inr hR

/-- So do several insertions. -/
theorem Insertions.renumbered (h : Insertions u P Q) : Renumbered u P Q := by
  induction h with
  | refl => exact Renumbered.refl P
  | tail _ hstep ih => exact ih.trans hstep.renumbered

/-- Instructions keep the names of their functions. -/
theorem Named.kept (h : Named P.functions) (hkeeps : KeepsOrder P.functions Q.functions) :
    Named Q.functions := by
  intro f fct' hfct' i' hi'
  obtain ⟨fct, hfct, hbody⟩ := hkeeps.exists_old hfct'
  obtain ⟨i, hi, heq⟩ := hbody.names i' hi'
  exact heq.trans (h f fct hfct i hi)

/-- One counter stays one. -/
theorem Renumbered.inMapOrder (h : Renumbered u P Q) (hu : u.InMapOrder)
    (hP : InMapOrder P.functions P.locationNumber) : InMapOrder Q.functions Q.locationNumber := by
  rcases h.numbers with rfl | hQ
  · exact hP
  · rw [hQ]
    exact hu _

/-- The order within each function. -/
structure StableWithin (no : String ↪ Nat) (P Q : NumberedFunctions) : Prop where
  /-- The instructions of a function of `P` compare in `Q` as they did in `P`. -/
  same : ∀ a b, P.Has a → P.Has b → SameFunction a b → Q.gotoLtCompare no a b = P.gotoLtCompare no a b
  /-- No two instructions of a function of `Q` are equivalent. -/
  apart : ∀ a b, Q.Has a → Q.Has b → SameFunction a b → a ≠ b →
    Q.gotoLtCompare no a b = true ∨ Q.gotoLtCompare no b a = true

/-- What was true of `P` in its order is true of it in `Q`. -/
structure OrderStable (no : String ↪ Nat) (P Q : NumberedFunctions) : Prop where
  /-- The instructions of `P` compare in `Q` as they did in `P`. -/
  same : ∀ a b, P.Has a → P.Has b → Q.gotoLtCompare no a b = P.gotoLtCompare no a b
  /-- No two instructions of `Q` are equivalent. -/
  apart : ∀ a b, Q.Has a → Q.Has b → a ≠ b →
    Q.gotoLtCompare no a b = true ∨ Q.gotoLtCompare no b a = true
  /-- Sets of nodes of `P` are in order in `Q`, and every instruction of `Q` is found in
  them if it is there. -/
  nodes : ∀ t : SearchTree Location, (∀ a ∈ t.toList, P.Has a) → t.Sorted (P.cfaNodeLtCompare no) →
    t.Sorted (Q.cfaNodeLtCompare no) ∧ ∀ a, Q.Has a →
      t.find (Q.cfaNodeLtCompare no) a = if a ∈ t.toList then some a else none
  /-- So are sets of edges. -/
  edges : ∀ t : SearchTree (Location × Location), (∀ e ∈ t.toList, P.HasEdge e) →
    t.Sorted (P.cfaEdgeLtCompare no) → t.Sorted (Q.cfaEdgeLtCompare no) ∧ ∀ e, Q.HasEdge e →
      t.find (Q.cfaEdgeLtCompare no) e = if e ∈ t.toList then some e else none

/-- Numbers stay separated. -/
theorem Renumbered.staysSeparated (h : Renumbered u P Q) (hsep : P.StaysSeparated u) :
    Q.StaysSeparated u :=
  hsep.imp (fun hnamed => hnamed.kept h.keeps) fun hmap => ⟨h.inMapOrder hmap.2 hmap.1, hmap.2⟩

/-- Two instructions are ordered. -/
theorem lt_or_lt_of_ne {a b : Location} (hsep : SameFunction a b ∨ Q.Separated) (ha : Q.Has a)
    (hb : Q.Has b) (hne : a ≠ b) : Q.gotoLtCompare no a b = true ∨ Q.gotoLtCompare no b a = true := by
  by_contra hnot
  obtain ⟨hab, hba⟩ := not_or.mp hnot
  exact hne (eq_of_not_lt hsep ha hb (Bool.eq_false_of_not_eq_true hab)
    (Bool.eq_false_of_not_eq_true hba))

/-- Within a function the order stays. -/
theorem Renumbered.stableWithin (h : Renumbered u P Q) : StableWithin no P Q where
  same _ _ ha hb hsame := gotoLtCompare_of_keepsOrder h.keeps (Or.inl hsame) ha hb
  apart _ _ ha hb hsame hne := lt_or_lt_of_ne (Or.inl hsame) ha hb hne

/-- Where numbers are separated the order stays. -/
theorem Renumbered.orderStable (h : Renumbered u P Q) (hsep : P.StaysSeparated u) :
    OrderStable no P Q := by
  have hsame : ∀ a b, P.Has a → P.Has b → Q.gotoLtCompare no a b = P.gotoLtCompare no a b := by
    intro a b ha hb
    refine gotoLtCompare_of_keepsOrder h.keeps (Or.inr ?_) ha hb
    exact hsep.imp_right fun hmap => ⟨hmap.1, h.inMapOrder hmap.2 hmap.1⟩
  have hsep' : Q.Separated := (h.staysSeparated hsep).imp_right And.left
  have hhas : ∀ a, P.Has a → Q.Has a := fun a ha => h.keeps.locations.mem ha
  refine ⟨hsame, ?_, ?_, ?_⟩
  · intro a b ha hb hne
    exact lt_or_lt_of_ne (Or.inr hsep') ha hb hne
  · intro t ht hsorted
    rw [cfaNodeLtCompare_eq] at hsorted
    rw [cfaNodeLtCompare_eq]
    have hsorted' := hsorted.congr fun a ha b hb => hsame a b (ht a ha) (ht b hb)
    refine ⟨hsorted', ?_⟩
    intro a ha
    refine SearchTree.find_eq (fun _ _ => gotoLtCompare_asymm) hsorted' ?_
    intro b hb hab hba
    exact eq_of_not_lt (Or.inr hsep') (hhas b (ht b hb)) ha hba hab
  · intro t ht hsorted
    have hsorted' := hsorted.congr fun d hd e he =>
      cfaEdgeLtCompare_congr hsame (ht d hd) (ht e he)
    refine ⟨hsorted', ?_⟩
    intro e he
    refine SearchTree.find_eq (fun _ _ => cfaEdgeLtCompare_asymm) hsorted' ?_
    intro d hd hed hde
    exact edge_eq_of_not_lt hsep' ⟨hhas _ (ht d hd).1, hhas _ (ht d hd).2⟩ he hde hed

/-- What was inserted is there. -/
theorem has_inserted {node : Location} {prg : List Instruction} {inserted : List Location}
    (h : insertAtNode u P node prg = some (Q, inserted)) {k : Instruction} (hk : k ∈ prg) :
    Q.Has (locationOf (ofLex node).1 k.pc) := by
  obtain ⟨fct, B, _, hfct, hinsert, hreplace⟩ := insertAtNode_eq (List.ne_nil_of_mem hk) h
  obtain ⟨i, hi⟩ := mem_insertAt hinsert hk
  unfold replaceBody at hreplace
  split_ifs at hreplace
  cases hreplace
  exact GotoFunctions.mem_locations.mpr ⟨(ofLex node).1, _,
    List.mem_map.mpr ⟨_, GotoFunctions.find_eq_some.mp hfct, if_pos rfl⟩, annotate i k, hi, rfl⟩

/-- **Insertions keep the order of instructions.**  Of `update()` it is relied on that
it numbers each function in the order of its list.  That is all, within a function and
as long as instructions carry the names of their functions; where inlined code carries
others, its counter also has to run through the functions in the order of the map. -/
theorem instructionOrder_stable (no : String ↪ Nat) (u : LocationNumbering)
    {P₀ P Q : NumberedFunctions}
    (hbefore : Insertions u P₀ P) (hrun : Insertions u P Q) :
    StableWithin no P Q ∧ (P₀.StaysSeparated u → OrderStable no P Q) := by
  have h₀ : Renumbered u P₀ P := Insertions.renumbered hbefore
  have h : Renumbered u P Q := Insertions.renumbered hrun
  exact ⟨h.stableWithin, fun hsep => h.orderStable (h₀.staysSeparated hsep)⟩

/-! ## One counter for all functions -/

/-- No location is listed twice. -/
theorem locations_nodup (gf : GotoFunctions) : gf.locations.Nodup := by
  refine List.nodup_flatMap.mpr ⟨?_, ?_⟩
  · intro p _
    have hpcs := p.2.pcs_nodup.map (f := locationOf p.1) fun q q' h => (locationOf_inj.mp h).2
    rwa [List.map_map] at hpcs
  · refine (List.pairwise_map.mp gf.names_nodup).imp ?_
    intro p q hne a hp hq
    obtain ⟨i, -, rfl⟩ := List.mem_map.mp hp
    obtain ⟨j, -, heq⟩ := List.mem_map.mp hq
    exact hne (locationOf_inj.mp heq).1.symm

/-- Numbers that run through all functions increase along each of them. -/
theorem InMapOrder.inListOrder {gf : GotoFunctions} {number : Location → Nat}
    (h : InMapOrder gf number) : InListOrder gf number := by
  intro f fct hfct
  have hbody := (List.pairwise_flatMap.mp h).1 (f, fct) hfct
  rwa [List.pairwise_map] at hbody

/-- The places in a list without repetitions increase along it. -/
theorem inMapOrder_idxOf (gf : GotoFunctions) : InMapOrder gf fun a => gf.locations.idxOf a := by
  have hnd := locations_nodup gf
  refine List.pairwise_iff_getElem.mpr ?_
  intro m n hm hn hlt
  simpa only [hnd.idxOf_getElem] using hlt

/-- `compute_location_numbers`, which counts the instructions of all functions. -/
def countLocations : LocationNumbering where
  number gf a := gf.locations.idxOf a
  inListOrder gf := (inMapOrder_idxOf gf).inListOrder

/-- Counting all locations is one counter. -/
theorem countLocations_inMapOrder : countLocations.InMapOrder := inMapOrder_idxOf

/-! ## Inlined code -/

/-- A skip of `f`, and the same skip in `main`, where it was inlined. -/
def inlinedSkip : GotoFunctions where
  functionMap :=
    [("f", ⟨true, false, [⟨0, .skip, .none, "f", none, .isTrue, [], []⟩,
        ⟨1, .endFunction, .none, "f", none, .isTrue, [], []⟩], by decide⟩),
      ("main", ⟨true, false, [⟨0, .skip, .none, "f", none, .isTrue, [], []⟩,
        ⟨1, .endFunction, .none, "main", none, .isTrue, [], []⟩], by decide⟩)]
  names_nodup := by decide

/-- Strings numbered by their characters. -/
def stringNo : String ↪ Nat where
  toFun s := Encodable.encode (s.toList.map Char.toNat)
  inj' := by
    intro s t h
    have hchars := Encodable.encode_injective h
    exact String.toList_injective
      (List.map_injective_iff.mpr (fun _ _ hchar => Char.toNat_inj.mp hchar) hchars)

/-- An assertion in front of the end of `main`. -/
theorem instructionOrder_stable_inlinedSkip :
    ∃ Q, insertAtNode countLocations (countLocations.update inlinedSkip) (locationOf "main" 1)
        [newInstruction 2 .assert] = some (Q, [locationOf "main" 2]) ∧
      StableWithin stringNo (countLocations.update inlinedSkip) Q ∧
      OrderStable stringNo (countLocations.update inlinedSkip) Q := by
  obtain ⟨Q, hQ⟩ : ∃ Q, insertAtNode countLocations (countLocations.update inlinedSkip)
      (locationOf "main" 1) [newInstruction 2 .assert] = some (Q, [locationOf "main" 2]) :=
    ⟨_, rfl⟩
  obtain ⟨hwithin, hstable⟩ :=
    instructionOrder_stable stringNo countLocations .refl (.single (.insertAt _ _ _ hQ))
  exact ⟨Q, hQ, hwithin,
    hstable (Or.inr ⟨countLocations_inMapOrder _, countLocations_inMapOrder⟩)⟩

end Runs

end FShell.GotoTransformation
