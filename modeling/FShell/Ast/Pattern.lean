import Mathlib

/-!
# Path patterns and coverage patterns

The pattern nodes of `fql/ast`, over any types `F` and `P` of filter
expressions and predicates.  The source compares such nodes by their pointers
where it uses them as keys; `F` and `P` stand for these pointers, so that two
objects for one filter expression are two elements of `F`.  `Depcov` is left
out: no visitor implements it.

`denote` is the language that a pattern stands for once every atom has one.
-/

open scoped Computability

namespace FShell

/-- `ECP_Atom`: the nodes that are coverage and path patterns at once. -/
inductive EcpAtom (F P : Type)
  | edgecov (filterExpr : F)
  | nodecov (filterExpr : F)
  | pathcov (filterExpr : F) (bound : Int)
  | predicate (pred : P)
  deriving DecidableEq

/-- `Path_Pattern_Expr`; an upper bound of `-1` stands for no bound. -/
inductive PathPattern (F P : Type)
  | atom (a : EcpAtom F P)
  | ppAlternative (ppA ppB : PathPattern F P)
  | ppConcat (ppA ppB : PathPattern F P)
  | repetition (pp : PathPattern F P) (lowerBound upperBound : Int)
  deriving DecidableEq

/-- `Coverage_Pattern_Expr`. -/
inductive CoveragePattern (F P : Type)
  | atom (a : EcpAtom F P)
  | quote (pp : PathPattern F P)
  | cpAlternative (cpA cpB : CoveragePattern F P)
  | cpConcat (cpA cpB : CoveragePattern F P)

/-- `Query`, after normalisation: there is a passing clause and no prefix. -/
structure Query (F P : Type) where
  cover : CoveragePattern F P
  passing : PathPattern F P

/-- Between `lower` and `upper` words of `l`, any number from `lower` on when
`upper` is `-1`. -/
def repeatLanguage (l : Language Int) (lower upper : Int) : Language Int :=
  {w | ∃ n : Nat, lower ≤ n ∧ (upper = -1 ∨ (n : Int) ≤ upper) ∧ w ∈ l ^ n}

namespace PathPattern

variable {F P : Type}

/-- The language of a pattern over the languages of its atoms. -/
def denote (atomLang : EcpAtom F P → Language Int) : PathPattern F P → Language Int
  | atom a => atomLang a
  | ppAlternative ppA ppB => ppA.denote atomLang + ppB.denote atomLang
  | ppConcat ppA ppB => ppA.denote atomLang * ppB.denote atomLang
  | repetition pp lower upper => repeatLanguage (pp.denote atomLang) lower upper

/-- A pattern and everything below it. -/
def subpatterns : PathPattern F P → List (PathPattern F P)
  | atom a => [atom a]
  | ppAlternative ppA ppB => ppAlternative ppA ppB :: (ppA.subpatterns ++ ppB.subpatterns)
  | ppConcat ppA ppB => ppConcat ppA ppB :: (ppA.subpatterns ++ ppB.subpatterns)
  | repetition pp lower upper => repetition pp lower upper :: pp.subpatterns

/-- No bounded path enumeration, and the bounds of every repetition are those
of a nonempty range. -/
def Regular : PathPattern F P → Prop
  | atom (.pathcov _ _) => False
  | atom _ => True
  | ppAlternative ppA ppB => ppA.Regular ∧ ppB.Regular
  | ppConcat ppA ppB => ppA.Regular ∧ ppB.Regular
  | repetition pp lower upper =>
      pp.Regular ∧ 0 ≤ lower ∧ (upper = -1 ∨ (lower ≤ upper ∧ 0 < upper))

instance decidableRegular : (p : PathPattern F P) → Decidable p.Regular
  | atom (.pathcov _ _) => .isFalse id
  | atom (.edgecov _) => .isTrue trivial
  | atom (.nodecov _) => .isTrue trivial
  | atom (.predicate _) => .isTrue trivial
  | ppAlternative ppA ppB =>
      have := decidableRegular ppA
      have := decidableRegular ppB
      inferInstanceAs (Decidable (_ ∧ _))
  | ppConcat ppA ppB =>
      have := decidableRegular ppA
      have := decidableRegular ppB
      inferInstanceAs (Decidable (_ ∧ _))
  | repetition pp _ _ =>
      have := decidableRegular pp
      inferInstanceAs (Decidable (_ ∧ _))

theorem mem_subpatterns_self (p : PathPattern F P) : p ∈ p.subpatterns := by
  cases p with
  | atom a => exact List.mem_singleton.mpr rfl
  | ppAlternative ppA ppB => exact List.mem_cons_self
  | ppConcat ppA ppB => exact List.mem_cons_self
  | repetition pp lower upper => exact List.mem_cons_self

/-- Being below is transitive. -/
theorem mem_subpatterns_trans {m n p : PathPattern F P} (hm : m ∈ n.subpatterns)
    (hn : n ∈ p.subpatterns) : m ∈ p.subpatterns := by
  induction p with
  | atom a =>
      have hna : n = atom a := List.mem_singleton.mp hn
      exact hna ▸ hm
  | ppAlternative ppA ppB ihA ihB =>
      rcases List.mem_cons.mp hn with heq | hn
      · exact heq ▸ hm
      · rcases List.mem_append.mp hn with hn | hn
        · exact List.mem_cons_of_mem _ (List.mem_append_left _ (ihA hn))
        · exact List.mem_cons_of_mem _ (List.mem_append_right _ (ihB hn))
  | ppConcat ppA ppB ihA ihB =>
      rcases List.mem_cons.mp hn with heq | hn
      · exact heq ▸ hm
      · rcases List.mem_append.mp hn with hn | hn
        · exact List.mem_cons_of_mem _ (List.mem_append_left _ (ihA hn))
        · exact List.mem_cons_of_mem _ (List.mem_append_right _ (ihB hn))
  | repetition pp lower upper ih =>
      rcases List.mem_cons.mp hn with heq | hn
      · exact heq ▸ hm
      · exact List.mem_cons_of_mem _ (ih hn)

/-- Patterns below are no larger. -/
theorem sizeOf_le_of_mem_subpatterns {n p : PathPattern F P} (hn : n ∈ p.subpatterns) :
    sizeOf n ≤ sizeOf p := by
  induction p with
  | atom a =>
      have hna : n = atom a := List.mem_singleton.mp hn
      rw [hna]
  | ppAlternative ppA ppB ihA ihB =>
      rcases List.mem_cons.mp hn with heq | hn
      · rw [heq]
      · rcases List.mem_append.mp hn with hn | hn
        · have := ihA hn
          simp only [ppAlternative.sizeOf_spec]
          omega
        · have := ihB hn
          simp only [ppAlternative.sizeOf_spec]
          omega
  | ppConcat ppA ppB ihA ihB =>
      rcases List.mem_cons.mp hn with heq | hn
      · rw [heq]
      · rcases List.mem_append.mp hn with hn | hn
        · have := ihA hn
          simp only [ppConcat.sizeOf_spec]
          omega
        · have := ihB hn
          simp only [ppConcat.sizeOf_spec]
          omega
  | repetition pp lower upper ih =>
      rcases List.mem_cons.mp hn with heq | hn
      · rw [heq]
      · have := ih hn
        simp only [repetition.sizeOf_spec]
        omega

/-- No pattern is below a smaller one. -/
theorem notMem_subpatterns {m n p : PathPattern F P} (hsize : sizeOf p < sizeOf n)
    (hm : m ∈ p.subpatterns) : n ∉ m.subpatterns := by
  intro hn
  have hmp := sizeOf_le_of_mem_subpatterns hm
  have hnm := sizeOf_le_of_mem_subpatterns hn
  omega

/-- Everything below a regular pattern is regular. -/
theorem Regular.of_mem_subpatterns {n p : PathPattern F P} (hp : p.Regular)
    (hn : n ∈ p.subpatterns) : n.Regular := by
  induction p with
  | atom a =>
      have hna : n = atom a := List.mem_singleton.mp hn
      exact hna ▸ hp
  | ppAlternative ppA ppB ihA ihB =>
      rcases List.mem_cons.mp hn with heq | hn
      · exact heq ▸ hp
      · rcases List.mem_append.mp hn with hn | hn
        · exact ihA hp.1 hn
        · exact ihB hp.2 hn
  | ppConcat ppA ppB ihA ihB =>
      rcases List.mem_cons.mp hn with heq | hn
      · exact heq ▸ hp
      · rcases List.mem_append.mp hn with hn | hn
        · exact ihA hp.1 hn
        · exact ihB hp.2 hn
  | repetition pp lower upper ih =>
      rcases List.mem_cons.mp hn with heq | hn
      · exact heq ▸ hp
      · exact ih hp.1 hn

/-- The language depends on the atoms that occur, and on nothing else. -/
theorem denote_congr {f g : EcpAtom F P → Language Int} {p : PathPattern F P}
    (h : ∀ a, atom a ∈ p.subpatterns → f a = g a) : p.denote f = p.denote g := by
  induction p with
  | atom a => exact h a (mem_subpatterns_self _)
  | ppAlternative ppA ppB ihA ihB =>
      have hA := ihA fun a ha => h a (List.mem_cons_of_mem _ (List.mem_append_left _ ha))
      have hB := ihB fun a ha => h a (List.mem_cons_of_mem _ (List.mem_append_right _ ha))
      simp only [denote, hA, hB]
  | ppConcat ppA ppB ihA ihB =>
      have hA := ihA fun a ha => h a (List.mem_cons_of_mem _ (List.mem_append_left _ ha))
      have hB := ihB fun a ha => h a (List.mem_cons_of_mem _ (List.mem_append_right _ ha))
      simp only [denote, hA, hB]
  | repetition pp lower upper ih =>
      have hp := ih fun a ha => h a (List.mem_cons_of_mem _ ha)
      simp only [denote, hp]

/-- A regular pattern denotes some word when its atoms do. -/
theorem Regular.denote_nonempty {f : EcpAtom F P → Language Int} {p : PathPattern F P}
    (hp : p.Regular) (hf : ∀ a, atom a ∈ p.subpatterns → ∃ w, w ∈ f a) :
    ∃ w, w ∈ p.denote f := by
  induction p with
  | atom a => exact hf a (mem_subpatterns_self _)
  | ppAlternative ppA ppB ihA _ =>
      obtain ⟨w, hw⟩ := ihA hp.1 fun a ha =>
        hf a (List.mem_cons_of_mem _ (List.mem_append_left _ ha))
      exact ⟨w, Or.inl hw⟩
  | ppConcat ppA ppB ihA ihB =>
      obtain ⟨u, hu⟩ := ihA hp.1 fun a ha =>
        hf a (List.mem_cons_of_mem _ (List.mem_append_left _ ha))
      obtain ⟨v, hv⟩ := ihB hp.2 fun a ha =>
        hf a (List.mem_cons_of_mem _ (List.mem_append_right _ ha))
      exact ⟨u ++ v, u, hu, v, hv, rfl⟩
  | repetition pp lower upper ih =>
      obtain ⟨w, hw⟩ := ih hp.1 fun a ha => hf a (List.mem_cons_of_mem _ ha)
      have hpow : ∀ n : Nat, ∃ u, u ∈ pp.denote f ^ n := by
        intro n
        induction n with
        | zero => exact ⟨[], rfl⟩
        | succ n ihn =>
            obtain ⟨u, hu⟩ := ihn
            rw [pow_succ]
            exact ⟨u ++ w, u, hu, w, hw, rfl⟩
      obtain ⟨_, hlower, hupper⟩ := hp
      obtain ⟨u, hu⟩ := hpow lower.toNat
      refine ⟨u, lower.toNat, by omega, ?_, hu⟩
      rcases hupper with hupper | ⟨hle, _⟩
      · exact Or.inl hupper
      · exact Or.inr (by omega)

end PathPattern

namespace CoveragePattern

variable {F P : Type}

/-- The path patterns that a coverage pattern is made of. -/
def pathPatterns : CoveragePattern F P → List (PathPattern F P)
  | atom a => [.atom a]
  | quote pp => [pp]
  | cpAlternative cpA cpB => cpA.pathPatterns ++ cpB.pathPatterns
  | cpConcat cpA cpB => cpA.pathPatterns ++ cpB.pathPatterns

/-- The language of a coverage pattern over those of its path patterns. -/
def denote (lang : PathPattern F P → Language Int) : CoveragePattern F P → Language Int
  | atom a => lang (.atom a)
  | quote pp => lang pp
  | cpAlternative cpA cpB => cpA.denote lang + cpB.denote lang
  | cpConcat cpA cpB => cpA.denote lang * cpB.denote lang

theorem denote_congr {f g : PathPattern F P → Language Int} {cp : CoveragePattern F P}
    (h : ∀ pp ∈ cp.pathPatterns, f pp = g pp) : cp.denote f = cp.denote g := by
  induction cp with
  | atom a => exact h _ (List.mem_singleton_self _)
  | quote pp => exact h _ (List.mem_singleton_self _)
  | cpAlternative cpA cpB ihA ihB =>
      have hA := ihA fun pp hpp => h pp (List.mem_append_left _ hpp)
      have hB := ihB fun pp hpp => h pp (List.mem_append_right _ hpp)
      simp only [denote, hA, hB]
  | cpConcat cpA cpB ihA ihB =>
      have hA := ihA fun pp hpp => h pp (List.mem_append_left _ hpp)
      have hB := ihB fun pp hpp => h pp (List.mem_append_right _ hpp)
      simp only [denote, hA, hB]

end CoveragePattern

/-- The atom occurs in one of the two clauses. -/
def Query.HasAtom {F P : Type} (query : Query F P) (a : EcpAtom F P) : Prop :=
  ∃ pp ∈ query.cover.pathPatterns ++ [query.passing], .atom a ∈ pp.subpatterns

end FShell
