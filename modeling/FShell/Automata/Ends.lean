import FShell.Automata.Walk

/-!
# The four languages between two sets of states

Fragments of a graph that are put together at an entry set `I` and an exit
set `F` are described by four languages: the words from `I` to `F`, and the
words that only run around at the entry, around at the exit, or back.
Gluing fragments with silent edges acts on these four languages alone
(`endsOf_glue`, `endsOf_glueBack`, `endsOf_seq`).

The entry and exit loops are what a construction without fresh states
leaks: a silent shortcut from `I` to `F` accepts every entry loop followed
by an exit loop.
-/

open scoped Computability

namespace LabelledGraph

variable {σ α : Type*}

/-- The words at the ends of a fragment. -/
@[ext] structure Ends (α : Type*) where
  entry : Language α
  through : Language α
  back : Language α
  exit : Language α

namespace Ends

/-- A fragment whose ends carry no loop. -/
def plain (l : Language α) : Ends α := ⟨1, l, 0, 1⟩

/-- Silent edges from the entry to the exit. -/
def glue (e : Ends α) : Ends α where
  entry := e.entry + e.entry * e.back∗ * e.back
  through := e.through + e.entry * e.back∗ * e.exit
  back := e.back + e.back * e.back∗ * e.back
  exit := e.exit + e.back * e.back∗ * e.exit

/-- Silent edges from the exit to the entry. -/
def glueBack (e : Ends α) : Ends α where
  entry := e.entry + e.through * e.through∗ * e.entry
  through := e.through + e.through * e.through∗ * e.through
  back := e.back + e.exit * e.through∗ * e.entry
  exit := e.exit + e.exit * e.through∗ * e.through

/-- Two fragments, the exit of the first silently linked to the entry of
the second. -/
def seq (e d : Ends α) : Ends α := ⟨e.entry, e.through * d.through, 0, d.exit⟩

/-- A nonempty row of linked fragments. -/
def chain (e : Ends α) (ds : List (Ends α)) : Ends α := ds.foldl seq e

@[simp] theorem chain_nil (e : Ends α) : e.chain [] = e := rfl

@[simp] theorem chain_cons (e d : Ends α) (ds : List (Ends α)) :
    e.chain (d :: ds) = (e.seq d).chain ds := rfl

theorem chain_concat (e d : Ends α) (ds : List (Ends α)) :
    e.chain (ds ++ [d]) = (e.chain ds).seq d := by
  simp [chain]

theorem chain_through (e : Ends α) (ds : List (Ends α)) :
    (e.chain ds).through = e.through * (ds.map through).prod := by
  induction ds generalizing e with
  | nil => simp
  | cons d ds ih => rw [chain_cons, ih, seq, List.map_cons, List.prod_cons, mul_assoc]

/-- The words that run around at the entry and then around at the exit: what a
silent edge from one to the other turns into words of the fragment. -/
def loops (e : Ends α) : Language α := e.entry * e.back∗ * e.exit

variable {e : Ends α}

theorem glue_through : e.glue.through = e.through + e.loops := rfl

theorem plain_loops (l : Language α) : (plain l).loops = 1 := by
  simp [plain, loops]

theorem through_le_glue : e.through ≤ e.glue.through := le_sup_left

/-- There is a state at either end. -/
structure Live (e : Ends α) : Prop where
  entry : 1 ≤ e.entry
  exit : 1 ≤ e.exit

theorem plain_live (l : Language α) : (plain l).Live := ⟨le_rfl, le_rfl⟩

theorem Live.glue (h : e.Live) : e.glue.Live := ⟨h.entry.trans le_sup_left, h.exit.trans le_sup_left⟩

theorem Live.glueBack (h : e.Live) : e.glueBack.Live :=
  ⟨h.entry.trans le_sup_left, h.exit.trans le_sup_left⟩

theorem Live.seq {d : Ends α} (he : e.Live) (hd : d.Live) : (e.seq d).Live := ⟨he.entry, hd.exit⟩

theorem Live.chain (h : e.Live) {ds : List (Ends α)} (hds : ∀ d ∈ ds, d.Live) :
    (e.chain ds).Live := by
  induction ds generalizing e with
  | nil => exact h
  | cons d ds ih =>
      exact ih (h.seq (hds d List.mem_cons_self)) fun d' hd' => hds d' (List.mem_cons_of_mem _ hd')

/-- The shortcut adds the empty word, when there is a state at either end. -/
theorem Live.one_le_glue (h : e.Live) : 1 ≤ e.glue.through := by
  have hloops : 1 ≤ e.loops := by
    calc (1 : Language α) = 1 * 1 * 1 := by simp
      _ ≤ e.entry * e.back∗ * e.exit := mul_le_mul' (mul_le_mul' h.entry one_le_kstar) h.exit
  exact hloops.trans le_sup_right

/-- The way back adds every repetition. -/
theorem kstar_le_glueBack (h : 1 ≤ e.through) : e.through∗ ≤ e.glueBack.through := by
  have hround : e.through∗ ≤ e.through * e.through∗ * e.through := by
    calc e.through∗ = 1 * e.through∗ * 1 := by simp
      _ ≤ e.through * e.through∗ * e.through := mul_le_mul' (mul_le_mul' h le_rfl) h
  exact hround.trans le_sup_right

/-- With the empty word there already, the way back adds nothing else. -/
theorem glueBack_through (h : 1 ≤ e.through) : e.glueBack.through = e.through∗ := by
  apply le_antisymm
  · have hround : e.through * e.through∗ * e.through ≤ e.through∗ := by
      calc e.through * e.through∗ * e.through
          ≤ e.through∗ * e.through∗ * e.through∗ :=
            mul_le_mul' (mul_le_mul' le_kstar le_rfl) le_kstar
        _ = e.through∗ := by simp
    exact add_le le_kstar hround
  · exact kstar_le_glueBack h

end Ends

section EndsOf

variable [DecidableEq α] (R : σ → α → σ → Prop) (ε : α) (I F : σ → Prop)

/-- The four languages of a graph between `I` and `F`. -/
def endsOf : Ends α where
  entry := words R ε I I
  through := words R ε I F
  back := words R ε F I
  exit := words R ε F F

theorem endsOf_glue : endsOf (bridge R ε I F) ε I F = (endsOf R ε I F).glue := by
  ext1 <;> exact words_bridge _ _ _ _

theorem endsOf_glueBack : endsOf (bridge R ε F I) ε I F = (endsOf R ε I F).glueBack := by
  ext1 <;> exact words_bridge _ _ _ _

/-- Linking two parts of a graph between which there is no word. -/
theorem endsOf_seq {J G : σ → Prop} (hIG : words R ε I G = 0)
    (hJI : words R ε J I = 0) (hJF : words R ε J F = 0) (hGI : words R ε G I = 0)
    (hGF : words R ε G F = 0) :
    endsOf (bridge R ε F J) ε I G = (endsOf R ε I F).seq (endsOf R ε J G) := by
  ext1
  · show words _ _ _ _ = _
    rw [words_bridge, hJF, hJI]
    simp [endsOf, Ends.seq]
  · show words _ _ _ _ = _
    rw [words_bridge, hJF, hIG]
    simp [endsOf, Ends.seq]
  · show words _ _ _ _ = _
    rw [words_bridge, hJF, hGF, hGI]
    simp [Ends.seq]
  · show words _ _ _ _ = _
    rw [words_bridge, hGF]
    simp [endsOf, Ends.seq]

/-- **Fresh ends.**  Between two new states linked to `A` and from `B` there
are the words from `A` to `B`, and the new states carry no loop. -/
theorem endsOf_fresh {A B : σ → Prop} {i f : σ} (hne : i ≠ f)
    (hiin : ∀ x a, ¬ R x a i) (hiout : ∀ a z, ¬ R i a z)
    (hfin : ∀ x a, ¬ R x a f) (hfout : ∀ a z, ¬ R f a z)
    (hAi : ¬ A i) (hAf : ¬ A f) (hBi : ¬ B i) (hBf : ¬ B f) :
    endsOf (bridge (bridge R ε (· = i) A) ε B (· = f)) ε (· = i) (· = f) =
      Ends.plain (words R ε A B) := by
  have hAi0 : words R ε A (· = i) = 0 := by
    refine words_eq_zero fun x hx => future_unreachable ?_ fun heq => hAi (heq ▸ hx)
    intro y a z hedge hz
    exact hiin y a (hz ▸ hedge)
  have hAf0 : words R ε A (· = f) = 0 := by
    refine words_eq_zero fun x hx => future_unreachable ?_ fun heq => hAf (heq ▸ hx)
    intro y a z hedge hz
    exact hfin y a (hz ▸ hedge)
  have hii : words R ε (· = i) (· = i) = 1 :=
    (words_single i).trans (future_stuck_target hiout rfl)
  have hiB : words R ε (· = i) B = 0 := (words_single i).trans (future_stuck hiout hBi)
  have hif : words R ε (· = i) (· = f) = 0 := (words_single i).trans (future_stuck hiout hne)
  have hff : words R ε (· = f) (· = f) = 1 :=
    (words_single f).trans (future_stuck_target hfout rfl)
  have hfi : words R ε (· = f) (· = i) = 0 :=
    (words_single f).trans (future_stuck hfout hne.symm)
  have hfB : words R ε (· = f) B = 0 := (words_single f).trans (future_stuck hfout hBf)
  ext1
  all_goals
    show words _ _ _ _ = _
    simp only [words_bridge, hAi0, hAf0, hii, hiB, hif, hff, hfi, hfB, Ends.plain, mul_zero,
      zero_mul, add_zero, zero_add, kstar_zero, one_mul, mul_one]

end EndsOf

end LabelledGraph
