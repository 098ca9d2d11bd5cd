import Mathlib

/-!
# Nondeterministic choices

`GOTO_Transformation::make_nondet_choice` appends a cascade of tests to a goto
program.  Alternative `i` is taken when the Boolean choice variables are the
binary digits of `i`; behind it control leaves for the end, and the last
alternative is the default.

The bits of two numbers below `2 ^ n` differ somewhere below `n`.  So at most
one test succeeds, and the bits of a number choose its alternative.
-/

namespace FShell.NondetChoice

/-! ## Programs -/

/-- The guard of a jump: true, or the negation of a conjunction that says of
some variables which value they have. -/
inductive Guard
  | isTrue
  | notAll (literals : List (Nat × Bool))
  deriving DecidableEq

/-- The instructions that are generated; a placeholder has no type yet. -/
inductive Op
  | decl (symbol : Nat)
  | goto (guard : Guard) (target : Nat)
  | placeholder
  | skip
  deriving DecidableEq

/-- An instruction with its iterator. -/
structure Instruction where
  pc : Nat
  op : Op
  deriving DecidableEq

/-- A goto program, and the iterators that are not given away yet. -/
structure Program where
  instructions : List Instruction
  next : Nat
  pc_lt : ∀ i ∈ instructions, i.pc < next

/-- The loop `while (num_options >>= 1) ++log_2_rounded`. -/
def countShifts (options : Nat) : Nat :=
  if options / 2 = 0 then 0 else countShifts (options / 2) + 1
termination_by options
decreasing_by omega

/-- The number of choice variables. -/
def log2Rounded (num : Nat) : Nat :=
  if 1 <<< countShifts num < num then countShifts num + 1 else countShifts num

/-- `full_cond` for alternative `i`, over `n` variables. -/
def fullCond (n i : Nat) : List (Nat × Bool) :=
  (List.range n).map fun j => (j, i.testBit j)

/-- The instructions for alternative `i`, from iterator `pc` on: the test, the
placeholder, the jump to the end and the place to go on. -/
def alternative (n out pc i : Nat) : List Instruction :=
  [⟨pc, .goto (.notAll (fullCond n i)) (pc + 3)⟩, ⟨pc + 1, .placeholder⟩,
    ⟨pc + 2, .goto .isTrue out⟩, ⟨pc + 3, .skip⟩]

/-- The declarations, from iterator `pc` on. -/
def declarations (n pc : Nat) : List Instruction :=
  (List.range n).map fun j => ⟨pc + j, .decl j⟩

/-- The iterator of the test of alternative `i`: the end comes first, then the
declarations. -/
def testPc (next n i : Nat) : Nat := next + 1 + n + 4 * i

/-- The alternatives with a test, from `i` on, and then the default. -/
def cascade (next n : Nat) (i : Nat) : Nat → List Instruction
  | 0 => [⟨testPc next n i, .placeholder⟩]
  | k + 1 => alternative n next (testPc next n i) i ++ cascade next n (i + 1) k

/-- The instructions that `make_nondet_choice` appends. -/
def generated (next num : Nat) : List Instruction :=
  -- the declarations are written in the first round of the loop
  (if 1 < num then declarations (log2Rounded num) (next + 1) else []) ++
    cascade next (log2Rounded num) 0 (num - 1) ++ (if 1 < num then [⟨next, .skip⟩] else [])

/-- The iterators in `m_inserted`. -/
def inserted (next num : Nat) : List Nat :=
  (List.range (num - 1)).map (fun i => testPc next (log2Rounded num) i + 1) ++
    [testPc next (log2Rounded num) (num - 1)]

/-! ## Runs -/

/-- What is left to execute, the variables that have a value, and the
placeholders that were executed. -/
structure State where
  rest : List Instruction
  env : Nat → Option Bool
  executed : List Nat

/-- The guard, once all its variables have a value. -/
def Guard.eval (env : Nat → Option Bool) : Guard → Option Bool
  | isTrue => some true
  | notAll literals =>
      if literals.all fun l => (env l.1).isSome then
        some !(literals.all fun l => env l.1 == some l.2)
      else none

/-- An instruction, where a declared variable gets its value from `v`; without
a value for a guard the program is stuck. -/
def step (program : List Instruction) (v : Nat → Bool) (s : State) : State :=
  match s.rest with
  | [] => s
  | ⟨_, .decl symbol⟩ :: rest =>
      { s with rest := rest, env := Function.update s.env symbol (some (v symbol)) }
  | ⟨_, .goto guard target⟩ :: rest =>
      match guard.eval s.env with
      | some true => { s with rest := program.dropWhile fun i => i.pc ≠ target }
      | some false => { s with rest := rest }
      | none => s
  | ⟨pc, .placeholder⟩ :: rest => { s with rest := rest, executed := s.executed ++ [pc] }
  | ⟨_, .skip⟩ :: rest => { s with rest := rest }

/-- One state is reached from another. -/
def Reaches (program : List Instruction) (v : Nat → Bool) (s t : State) : Prop :=
  ∃ n, (step program v)^[n] s = t

/-- The program after `make_nondet_choice`. -/
def Program.choose (p : Program) (num : Nat) : List Instruction :=
  p.instructions ++ generated p.next num

/-- Before the first instruction that was generated. -/
def Program.start (p : Program) (num : Nat) : State := ⟨generated p.next num, fun _ => none, []⟩

/-- The generated program runs to its end and executes these placeholders. -/
def Program.Executes (p : Program) (num : Nat) (v : Nat → Bool) (executed : List Nat) : Prop :=
  ∃ env, Reaches (p.choose num) v (p.start num) ⟨[], env, executed⟩

section Steps

variable {program : List Instruction} {v : Nat → Bool} {s t u : State}

theorem Reaches.refl : Reaches program v s s := ⟨0, rfl⟩

theorem Reaches.trans (h : Reaches program v s t) (h' : Reaches program v t u) :
    Reaches program v s u := by
  obtain ⟨m, rfl⟩ := h
  obtain ⟨n, rfl⟩ := h'
  exact ⟨n + m, Function.iterate_add_apply _ _ _ _⟩

theorem Reaches.head (h : Reaches program v (step program v s) t) : Reaches program v s t := by
  obtain ⟨n, hn⟩ := h
  exact ⟨n + 1, hn⟩

/-- A finished program stays as it is. -/
theorem iterate_finished (hs : s.rest = []) (n : Nat) : (step program v)^[n] s = s := by
  have hstep : step program v s = s := by
    unfold step
    rw [hs]
  induction n with
  | zero => rfl
  | succ n ih => rw [Function.iterate_succ_apply, hstep, ih]

/-- A program finishes in one way. -/
theorem Reaches.unique (h : Reaches program v s t) (h' : Reaches program v s u) (ht : t.rest = [])
    (hu : u.rest = []) : t = u := by
  obtain ⟨m, rfl⟩ := h
  obtain ⟨n, rfl⟩ := h'
  rcases Nat.le_total m n with hle | hle
  · obtain ⟨d, rfl⟩ := Nat.exists_eq_add_of_le' hle
    rw [Function.iterate_add_apply, iterate_finished ht]
  · obtain ⟨d, rfl⟩ := Nat.exists_eq_add_of_le' hle
    rw [Function.iterate_add_apply, iterate_finished hu]

end Steps

/-! ## The number of variables -/

theorem lt_two_pow_countShifts (num : Nat) : num < 2 ^ (countShifts num + 1) := by
  induction num using Nat.strong_induction_on with
  | _ num ih =>
    rw [countShifts]
    split_ifs with hzero
    · omega
    · have hlt := ih (num / 2) (by omega)
      rw [pow_succ]
      omega

/-- There are enough variables to number the alternatives. -/
theorem le_two_pow_log2Rounded (num : Nat) : num ≤ 2 ^ log2Rounded num := by
  have hlt := lt_two_pow_countShifts num
  unfold log2Rounded
  split_ifs with hmore
  · omega
  · rw [Nat.one_shiftLeft] at hmore
    omega

/-! ## The tests -/

/-- The values of the variables are the bits of the number. -/
def Chosen (n : Nat) (v : Nat → Bool) (i : Nat) : Prop := ∀ j < n, v j = i.testBit j

instance (n : Nat) (v : Nat → Bool) (i : Nat) : Decidable (Chosen n v i) :=
  inferInstanceAs (Decidable (∀ j < n, _))

/-- The bits of a number choose no other one. -/
theorem Chosen.unique {n : Nat} {v : Nat → Bool} {i k : Nat} (hi : Chosen n v i)
    (hk : Chosen n v k) (hin : i < 2 ^ n) (hkn : k < 2 ^ n) : i = k := by
  apply Nat.eq_of_testBit_eq
  intro j
  by_cases hj : j < n
  · rw [← hi j hj, hk j hj]
  · have hle : 2 ^ n ≤ 2 ^ j := Nat.pow_le_pow_right Nat.two_pos (by omega)
    rw [Nat.testBit_lt_two_pow (by omega), Nat.testBit_lt_two_pow (by omega)]

/-- The test jumps unless the number is chosen. -/
theorem eval_fullCond {n i : Nat} {v : Nat → Bool} {env : Nat → Option Bool}
    (henv : ∀ j < n, env j = some (v j)) :
    (Guard.notAll (fullCond n i)).eval env = some (!decide (Chosen n v i)) := by
  have hsome : (fullCond n i).all (fun l => (env l.1).isSome) = true := by
    refine List.all_eq_true.mpr fun l hl => ?_
    obtain ⟨j, hj, rfl⟩ := List.mem_map.mp hl
    rw [henv j (List.mem_range.mp hj)]
    rfl
  have hall : (fullCond n i).all (fun l => env l.1 == some l.2) = decide (Chosen n v i) := by
    rw [Bool.eq_iff_iff, List.all_eq_true, decide_eq_true_iff]
    constructor
    · intro h j hj
      have hl := h (j, i.testBit j) (List.mem_map.mpr ⟨j, List.mem_range.mpr hj, rfl⟩)
      rw [henv j hj] at hl
      exact Option.some.inj (eq_of_beq hl)
    · intro h l hl
      obtain ⟨j, hj, rfl⟩ := List.mem_map.mp hl
      rw [henv j (List.mem_range.mp hj), h j (List.mem_range.mp hj)]
      exact beq_self_eq_true _
  simp only [Guard.eval, hsome, hall, if_true]

/-! ## The cascade -/

/-- A jump leads to the instruction with the iterator of its target. -/
theorem dropWhile_target {before after : List Instruction} {i : Instruction}
    (h : ∀ a ∈ before, a.pc ≠ i.pc) :
    (before ++ i :: after).dropWhile (fun a => a.pc ≠ i.pc) = i :: after := by
  induction before with
  | nil => simp
  | cons a before ih =>
      have ha := h a List.mem_cons_self
      rw [List.cons_append, List.dropWhile_cons_of_pos (by simpa using ha)]
      exact ih fun b hb => h b (List.mem_cons_of_mem _ hb)

section Cascade

variable {next n : Nat} {v : Nat → Bool} {env : Nat → Option Bool}

/-- The end of the program is a jump target as soon as there is a jump. -/
theorem reaches_end {program before : List Instruction} {executed : List Nat}
    (hprogram : program = before ++ [⟨next, .skip⟩]) (hbefore : ∀ a ∈ before, a.pc ≠ next)
    {pc : Nat} {rest : List Instruction} :
    Reaches program v ⟨⟨pc, .goto .isTrue next⟩ :: rest, env, executed⟩ ⟨[], env, executed⟩ := by
  have hdrop : program.dropWhile (fun a => a.pc ≠ next) = [⟨next, .skip⟩] := by
    rw [hprogram]
    exact dropWhile_target (i := ⟨next, .skip⟩) hbefore
  refine ⟨2, ?_⟩
  have hjump : step program v ⟨⟨pc, .goto .isTrue next⟩ :: rest, env, executed⟩
      = ⟨[⟨next, .skip⟩], env, executed⟩ := by
    simp only [step, Guard.eval, hdrop]
  rw [Function.iterate_succ_apply, hjump]
  rfl

/-- An alternative that is chosen: its placeholder is executed, and then
control leaves for the end. -/
theorem alternative_chosen {program before after : List Instruction} {executed : List Nat}
    {pc i : Nat} (hprogram : program = before ++ [⟨next, .skip⟩])
    (hbefore : ∀ a ∈ before, a.pc ≠ next) (henv : ∀ j < n, env j = some (v j))
    (hchosen : Chosen n v i) :
    Reaches program v ⟨alternative n next pc i ++ after, env, executed⟩
      ⟨[], env, executed ++ [pc + 1]⟩ := by
  have htest : step program v ⟨alternative n next pc i ++ after, env, executed⟩
      = ⟨⟨pc + 1, .placeholder⟩ :: ⟨pc + 2, .goto .isTrue next⟩ :: ⟨pc + 3, .skip⟩ :: after,
          env, executed⟩ := by
    simp only [alternative, List.cons_append, List.nil_append, step, eval_fullCond henv, hchosen,
      decide_true, Bool.not_true]
  refine Reaches.head ?_
  rw [htest]
  exact Reaches.head (reaches_end hprogram hbefore)

/-- An alternative that is not chosen is skipped. -/
theorem alternative_skipped {program before after : List Instruction} {executed : List Nat}
    {pc i : Nat} (hprogram : program = before ++ alternative n next pc i ++ after)
    (hbefore : ∀ a ∈ before, a.pc < pc) (henv : ∀ j < n, env j = some (v j))
    (hchosen : ¬ Chosen n v i) :
    Reaches program v ⟨alternative n next pc i ++ after, env, executed⟩
      ⟨after, env, executed⟩ := by
  have hdrop : program.dropWhile (fun a => a.pc ≠ pc + 3) = ⟨pc + 3, .skip⟩ :: after := by
    have hsplit : program = (before ++ [⟨pc, .goto (.notAll (fullCond n i)) (pc + 3)⟩,
        ⟨pc + 1, .placeholder⟩, ⟨pc + 2, .goto .isTrue next⟩]) ++ ⟨pc + 3, .skip⟩ :: after := by
      rw [hprogram]
      simp only [alternative, List.append_assoc, List.cons_append, List.nil_append]
    rw [hsplit]
    refine dropWhile_target (i := ⟨pc + 3, .skip⟩) fun a ha => ?_
    rcases List.mem_append.mp ha with ha | ha
    · have hlt := hbefore a ha
      show a.pc ≠ pc + 3
      omega
    · simp only [List.mem_cons, List.not_mem_nil, or_false] at ha
      rcases ha with rfl | rfl | rfl <;> simp
  have htest : step program v ⟨alternative n next pc i ++ after, env, executed⟩
      = ⟨⟨pc + 3, .skip⟩ :: after, env, executed⟩ := by
    simp only [alternative, List.cons_append, List.nil_append, step, eval_fullCond henv, hchosen,
      decide_false, Bool.not_false, hdrop]
  refine Reaches.head ?_
  rw [htest]
  exact Reaches.head Reaches.refl

/-- The iterators of an alternative lie between those of its neighbours. -/
theorem alternative_pc {pc i : Nat} {a : Instruction} (ha : a ∈ alternative n next pc i) :
    pc ≤ a.pc ∧ a.pc < pc + 4 := by
  simp only [alternative, List.mem_cons, List.not_mem_nil, or_false] at ha
  rcases ha with rfl | rfl | rfl | rfl <;> simp

/-- No iterator of the cascade is that of the end. -/
theorem cascade_pc {i k : Nat} {a : Instruction} (ha : a ∈ cascade next n i k) : next < a.pc := by
  induction k generalizing i with
  | zero =>
      rw [cascade, List.mem_singleton] at ha
      rw [ha]
      show next < testPc next n i
      unfold testPc
      omega
  | succ k ih =>
      rw [cascade] at ha
      rcases List.mem_append.mp ha with ha | ha
      · have hpc := (alternative_pc ha).1
        unfold testPc at hpc
        omega
      · exact ih ha

/-- The placeholder of the alternative that is taken: that of the number that
is chosen, and the default one when none is. -/
def taken (next n : Nat) (v : Nat → Bool) (i : Nat) : Nat → Nat
  | 0 => testPc next n i
  | k + 1 => if Chosen n v i then testPc next n i + 1 else taken next n v (i + 1) k

/-- **The cascade.**  From any alternative on, one placeholder is executed. -/
theorem cascade_runs {program before tail : List Instruction} {executed : List Nat} {i k : Nat}
    (hprogram : program = before ++ cascade next n i k ++ tail)
    (htail : tail = [⟨next, .skip⟩] ∨ (k = 0 ∧ tail = []))
    (hbefore : ∀ a ∈ before, a.pc < testPc next n i ∧ a.pc ≠ next)
    (henv : ∀ j < n, env j = some (v j)) :
    Reaches program v ⟨cascade next n i k ++ tail, env, executed⟩
      ⟨[], env, executed ++ [taken next n v i k]⟩ := by
  induction k generalizing i before with
  | zero =>
      refine Reaches.head ?_
      rcases htail with rfl | ⟨_, rfl⟩
      · exact Reaches.head Reaches.refl
      · exact Reaches.refl
  | succ k ih =>
      have htail : tail = [⟨next, .skip⟩] := htail.resolve_right fun h => Nat.succ_ne_zero k h.1
      have hrest : cascade next n i (k + 1) ++ tail
          = alternative n next (testPc next n i) i ++ (cascade next n (i + 1) k ++ tail) := by
        rw [cascade, List.append_assoc]
      rw [hrest, taken]
      by_cases hchosen : Chosen n v i
      · rw [if_pos hchosen]
        refine @alternative_chosen _ _ _ _ _ (before ++ cascade next n i (k + 1)) _ _ _ _ ?_ ?_ henv hchosen
        · rw [hprogram, htail]
        · intro a ha
          rcases List.mem_append.mp ha with ha | ha
          · exact (hbefore a ha).2
          · exact (cascade_pc ha).ne'
      · rw [if_neg hchosen]
        have hsplit : program = before ++ alternative n next (testPc next n i) i ++
            (cascade next n (i + 1) k ++ tail) := by
          rw [hprogram, List.append_assoc, hrest, List.append_assoc]
        have hskip := @alternative_skipped next n v env program before
          (cascade next n (i + 1) k ++ tail) executed _ i hsplit (fun a ha => (hbefore a ha).1)
          henv hchosen
        refine hskip.trans (@ih (before ++ alternative n next (testPc next n i) i) (i + 1) ?_
          (Or.inl htail) ?_)
        · rw [hprogram, List.append_assoc, hrest]
          simp only [List.append_assoc]
        · intro a ha
          rcases List.mem_append.mp ha with ha | ha
          · obtain ⟨hlt, hne⟩ := hbefore a ha
            unfold testPc at hlt ⊢
            exact ⟨by omega, hne⟩
          · obtain ⟨hle, hlt⟩ := alternative_pc ha
            unfold testPc at hle hlt ⊢
            exact ⟨by omega, by omega⟩

end Cascade

/-! ## All of the choice -/

theorem declarations_run {program rest : List Instruction} {v : Nat → Bool}
    {executed : List Nat} (n pc : Nat) :
    ∃ env, (∀ j < n, env j = some (v j)) ∧
      Reaches program v ⟨declarations n pc ++ rest, fun _ => none, executed⟩
        ⟨rest, env, executed⟩ := by
  induction n generalizing rest with
  | zero => exact ⟨_, fun j hj => absurd hj (Nat.not_lt_zero j), Reaches.refl⟩
  | succ n ih =>
      have hlast : declarations (n + 1) pc ++ rest
          = declarations n pc ++ ⟨pc + n, .decl n⟩ :: rest := by
        simp only [declarations, List.range_succ, List.map_append, List.map_cons, List.map_nil,
          List.append_assoc, List.cons_append, List.nil_append]
      obtain ⟨env, henv, hreach⟩ := @ih (⟨pc + n, .decl n⟩ :: rest)
      refine ⟨Function.update env n (some (v n)), ?_, ?_⟩
      · intro j hj
        by_cases heq : j = n
        · rw [heq, Function.update_self]
        · rw [Function.update_of_ne heq]
          exact henv j (by omega)
      · rw [hlast]
        exact hreach.trans (Reaches.head Reaches.refl)

/-- The choice executes the placeholder that the cascade takes. -/
theorem executes_taken (p : Program) (num : Nat) (v : Nat → Bool) :
    p.Executes num v [taken p.next (log2Rounded num) v 0 (num - 1)] := by
  have hold : ∀ a ∈ p.instructions, a.pc < p.next := p.pc_lt
  by_cases hnum : 1 < num
  · have hgen : generated p.next num = declarations (log2Rounded num) (p.next + 1) ++
        (cascade p.next (log2Rounded num) 0 (num - 1) ++ [⟨p.next, .skip⟩]) := by
      simp only [generated, hnum, if_true, List.append_assoc]
    obtain ⟨env, henv, hreach⟩ := @declarations_run (p.choose num)
      (cascade p.next (log2Rounded num) 0 (num - 1) ++ [⟨p.next, .skip⟩]) v []
      (log2Rounded num) (p.next + 1)
    have hcascade := @cascade_runs p.next (log2Rounded num) v env (p.choose num)
      (p.instructions ++ declarations (log2Rounded num) (p.next + 1)) [⟨p.next, .skip⟩] [] 0
      (num - 1) (by simp only [Program.choose, hgen, List.append_assoc]) (Or.inl rfl) ?_ henv
    · refine ⟨env, ?_⟩
      unfold Program.start
      rw [hgen]
      exact hreach.trans hcascade
    · intro a ha
      unfold testPc
      rcases List.mem_append.mp ha with ha | ha
      · have hlt := hold a ha
        exact ⟨by omega, by omega⟩
      · obtain ⟨j, hj, rfl⟩ := List.mem_map.mp ha
        have hlt := List.mem_range.mp hj
        exact ⟨by simp only; omega, by simp only; omega⟩
  · have hzero : num - 1 = 0 := by omega
    have hgen : generated p.next num = cascade p.next (log2Rounded num) 0 (num - 1) ++ [] := by
      simp only [generated, hnum, if_false, List.nil_append]
    have hlog : ∀ j < 0, (fun _ => none : Nat → Option Bool) j = some (v j) :=
      fun j hj => absurd hj (Nat.not_lt_zero j)
    refine ⟨fun _ => none, ?_⟩
    unfold Program.start
    rw [hgen, hzero]
    exact Reaches.head Reaches.refl

/-- A finished run is the only one. -/
theorem executes_unique {p : Program} {num : Nat} {v : Nat → Bool} {executed executed' : List Nat}
    (h : p.Executes num v executed) (h' : p.Executes num v executed') : executed = executed' := by
  obtain ⟨env, hreach⟩ := h
  obtain ⟨env', hreach'⟩ := h'
  exact congrArg State.executed (hreach.unique hreach' rfl rfl)

/-- The placeholder that is taken is one of those that are returned. -/
theorem taken_mem_inserted {next num : Nat} {v : Nat → Bool} (i k : Nat) (hik : i + k = num - 1) :
    taken next (log2Rounded num) v i k ∈ inserted next num := by
  induction k generalizing i with
  | zero =>
      rw [taken]
      refine List.mem_append_right _ (List.mem_singleton.mpr ?_)
      rw [← hik, Nat.add_zero]
  | succ k ih =>
      rw [taken]
      split_ifs with hchosen
      · exact List.mem_append_left _ (List.mem_map.mpr ⟨i, List.mem_range.mpr (by omega), rfl⟩)
      · exact ih (i + 1) (by omega)

/-- The bits of a number take its alternative. -/
theorem taken_testBit {next num : Nat} {m : Nat} (hm : m < num) (i k : Nat) (him : i ≤ m)
    (hik : i + k = num - 1) :
    taken next (log2Rounded num) m.testBit i k =
      if m < num - 1 then testPc next (log2Rounded num) m + 1
      else testPc next (log2Rounded num) (num - 1) := by
  have hle := le_two_pow_log2Rounded num
  induction k generalizing i with
  | zero =>
      rw [taken, if_neg (by omega), ← hik, Nat.add_zero]
  | succ k ih =>
      rw [taken]
      by_cases heq : i = m
      · subst heq
        have hself : Chosen (log2Rounded num) i.testBit i := fun j _ => rfl
        rw [if_pos hself, if_pos (by omega)]
      · have hchosen : ¬ Chosen (log2Rounded num) m.testBit i := by
          intro h
          exact heq (h.unique (fun j _ => rfl) (by omega) (by omega))
        rw [if_neg hchosen]
        exact ih (i + 1) (by omega) (by omega)

/-- **The choice.**  For every number of alternatives that is at least one,
the program returns as many placeholders.  Whatever the values of the choice
variables are, it runs to its end and executes exactly one of them; and each
of them is executed for some values. -/
theorem makeNondetChoice_exactly_one (p : Program) (num : Nat) (hnum : 1 ≤ num) :
    (inserted p.next num).length = num ∧ (inserted p.next num).Nodup ∧
      (∀ v, ∃ pc ∈ inserted p.next num, ∀ executed,
        p.Executes num v executed ↔ executed = [pc]) ∧
      ∀ pc ∈ inserted p.next num, ∃ v, p.Executes num v [pc] := by
  refine ⟨?_, ?_, ?_, ?_⟩
  · simp only [inserted, List.length_append, List.length_map, List.length_range,
      List.length_singleton]
    omega
  · refine List.nodup_append.mpr ⟨?_, List.nodup_singleton _, ?_⟩
    · refine List.Nodup.map (fun i k hik => ?_) List.nodup_range
      unfold testPc at hik
      omega
    · intro a ha b hb heq
      obtain ⟨i, hi, rfl⟩ := List.mem_map.mp ha
      have hlt := List.mem_range.mp hi
      rw [List.mem_singleton.mp hb] at heq
      unfold testPc at heq
      omega
  · intro v
    refine ⟨_, @taken_mem_inserted p.next num v 0 (num - 1) (Nat.zero_add _), fun executed => ?_⟩
    constructor
    · intro h
      exact executes_unique h (executes_taken p num v)
    · intro h
      rw [h]
      exact executes_taken p num v
  · intro pc hpc
    rcases List.mem_append.mp hpc with hpc | hpc
    · obtain ⟨m, hm, rfl⟩ := List.mem_map.mp hpc
      have hlt := List.mem_range.mp hm
      have htaken := executes_taken p num m.testBit
      rw [taken_testBit (by omega) 0 (num - 1) (Nat.zero_le m) (Nat.zero_add _), if_pos hlt] at htaken
      exact ⟨_, htaken⟩
    · rw [List.mem_singleton.mp hpc]
      have htaken := executes_taken p num (num - 1).testBit
      rw [taken_testBit (by omega) 0 (num - 1) (Nat.zero_le _) (Nat.zero_add _),
        if_neg (lt_irrefl _)] at htaken
      exact ⟨_, htaken⟩

/-- A program of one instruction. -/
def singleSkip : Program := ⟨[⟨0, .skip⟩], 1, by decide⟩

/-- Three alternatives behind it. -/
theorem makeNondetChoice_three :
    (inserted 1 3).length = 3 ∧ (inserted 1 3).Nodup ∧
      ∃ pc ∈ inserted 1 3, singleSkip.Executes 3 (fun _ => true) [pc] := by
  obtain ⟨hlength, hnodup, hone, _⟩ := makeNondetChoice_exactly_one singleSkip 3 (by decide)
  obtain ⟨pc, hpc, hiff⟩ := hone fun _ => true
  exact ⟨hlength, hnodup, pc, hpc, (hiff [pc]).mpr rfl⟩

end FShell.NondetChoice
