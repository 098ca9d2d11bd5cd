import Mathlib

/-!
# Expressions, symbols and the symbol table

What the session commands read and write of CBMC's data.  An expression is a
tree of operands under an identifier, of which only the attributes that the
commands look at are kept: the kind of statement, the identifier of a symbol,
the file of the source location and the mark of a zero initialiser.  A symbol
has a value that may be missing (`none` is CBMC's nil), and its type only
says whether it is code.  The symbol table holds each name once.
-/

namespace FShell.Command

/-- An expression or statement. -/
structure Expr where
  id : String
  statement : String
  identifier : String
  file : String
  zeroInitializer : Bool
  operands : List Expr

/-- The second operand: the right side of an assignment, the function of a call. -/
def Expr.op1 (e : Expr) : Option Expr :=
  e.operands[1]?

structure Symbol where
  isCode : Bool
  value : Option Expr

structure SymbolTable where
  symbols : List (String × Symbol)
  names_nodup : (symbols.map Prod.fst).Nodup

namespace SymbolTable

def empty : SymbolTable where
  symbols := []
  names_nodup := List.nodup_nil

def find (table : SymbolTable) (name : String) : Option Symbol :=
  table.symbols.lookup name

def hasSymbol (table : SymbolTable) (name : String) : Bool :=
  (table.find name).isSome

def remove (table : SymbolTable) (name : String) : SymbolTable where
  symbols := table.symbols.filter fun entry => entry.1 != name
  names_nodup := table.names_nodup.sublist (List.filter_sublist.map Prod.fst)

/-- Writes the value of the symbol `name`, if there is one. -/
def setValue (table : SymbolTable) (name : String) (value : Option Expr) : SymbolTable where
  symbols := table.symbols.map fun entry =>
    if entry.1 = name then (entry.1, { entry.2 with value := value }) else entry
  names_nodup := by
    have hnames : ∀ entry : String × Symbol,
        (if entry.1 = name then (entry.1, { entry.2 with value := value }) else entry).1
          = entry.1 := by
      intro entry
      split <;> rfl
    rw [List.map_map]
    simpa [Function.comp_def, hnames] using table.names_nodup

/-- Adds a symbol unless the name is taken. -/
def add (table : SymbolTable) (name : String) (symbol : Symbol) : SymbolTable :=
  if h : name ∈ table.symbols.map Prod.fst then table
  else
    { symbols := table.symbols ++ [(name, symbol)]
      names_nodup := by
        rw [List.map_append, List.nodup_append]
        refine ⟨table.names_nodup, List.nodup_singleton _, ?_⟩
        intro a ha b hb hab
        rw [List.map_singleton, List.mem_singleton] at hb
        have hname : b = name := by simpa using hb
        exact h (hname ▸ hab ▸ ha) }

/-- The names of the functions. -/
def codeNames (table : SymbolTable) : List String :=
  (table.symbols.filter fun entry => entry.2.isCode).map Prod.fst

/-- The value of a function; `none` if there is no such function. -/
def codeValue (table : SymbolTable) (name : String) : Option (Option Expr) :=
  match table.find name with
  | some symbol => if symbol.isCode then some symbol.value else none
  | none => none

variable (table : SymbolTable)

/-- Looking up behind one more entry. -/
theorem lookup_entry_cons (f : String) (entry : String × Symbol) (symbols : List (String × Symbol)) :
    List.lookup f (entry :: symbols) =
      if f = entry.1 then some entry.2 else symbols.lookup f := by
  rw [List.lookup_cons]
  by_cases hf : f = entry.1
  · simp [hf]
  · simp [hf, beq_false_of_ne hf]

/-- A symbol is found when it is in the table. -/
theorem find_eq_some_iff {name : String} {symbol : Symbol} :
    table.find name = some symbol ↔ (name, symbol) ∈ table.symbols := by
  obtain ⟨symbols, hnodup⟩ := table
  simp only [find]
  induction symbols with
  | nil => simp
  | cons entry symbols ih =>
      obtain ⟨n, s⟩ := entry
      obtain ⟨hnotMem, hnodup⟩ := List.nodup_cons.mp hnodup
      rw [lookup_entry_cons, List.mem_cons, Prod.mk.injEq]
      by_cases hname : name = n
      · subst hname
        have hfresh : (name, symbol) ∉ symbols :=
          fun hmem => hnotMem (List.mem_map.mpr ⟨_, hmem, rfl⟩)
        simp [hfresh, eq_comm]
      · simp [hname, ih hnodup]

/-- The names of code are those that have a code value. -/
theorem mem_codeNames {name : String} :
    name ∈ table.codeNames ↔ (table.codeValue name).isSome := by
  simp only [codeNames, codeValue, List.mem_map, List.mem_filter]
  constructor
  · intro h
    obtain ⟨⟨_, symbol⟩, ⟨hmem, hcode⟩, rfl⟩ := h
    have hfind := (table.find_eq_some_iff).mpr hmem
    simp only at hcode
    simp [hfind, hcode]
  · intro h
    split at h
    · rename_i symbol hfind
      split at h
      · rename_i hcode
        exact ⟨_, ⟨(table.find_eq_some_iff).mp hfind, hcode⟩, rfl⟩
      · cases h
    · cases h

/-- Only the removed name is gone. -/
theorem find_remove (name f : String) :
    (table.remove name).find f = if f = name then none else table.find f := by
  simp only [find, remove]
  induction table.symbols with
  | nil => simp
  | cons entry symbols ih =>
      by_cases hname : entry.1 = name
      · rw [List.filter_cons_of_neg (by simp [hname]), ih, lookup_entry_cons, hname]
        split <;> rfl
      · rw [List.filter_cons_of_pos (by simp [hname]), lookup_entry_cons, lookup_entry_cons, ih]
        by_cases hf : f = name
        · subst hf
          rw [if_neg (Ne.symm hname), if_pos rfl, if_pos rfl]
        · rw [if_neg hf, if_neg hf]

/-- Only the value of the one symbol is written. -/
theorem find_setValue (name : String) (value : Option Expr) (f : String) :
    (table.setValue name value).find f =
      if f = name then (table.find f).map fun symbol => { symbol with value := value }
      else table.find f := by
  simp only [find, setValue]
  induction table.symbols with
  | nil => simp
  | cons entry symbols ih =>
      rw [List.map_cons, lookup_entry_cons, lookup_entry_cons, ih]
      by_cases hname : entry.1 = name
      · by_cases hf : f = name
        · simp [hname, hf]
        · simp [hname, hf]
      · by_cases hf : f = name
        · subst hf
          simp [hname, Ne.symm hname]
        · simp [hname, hf]

/-- `add` does not replace a symbol that is there. -/
theorem find_add (name : String) (symbol : Symbol) (f : String) :
    (table.add name symbol).find f =
      if f = name then some ((table.find f).getD symbol) else table.find f := by
  by_cases hmem : name ∈ table.symbols.map Prod.fst
  · have hadd : table.add name symbol = table := dif_pos hmem
    rw [hadd]
    split
    · rename_i hf
      subst hf
      obtain ⟨⟨_, s⟩, hs, rfl⟩ := List.mem_map.mp hmem
      rw [(table.find_eq_some_iff).mpr hs]
      rfl
    · rfl
  · have hnone : table.symbols.lookup name = none := by
      rw [List.lookup_eq_none_iff]
      intro entry hentry
      rw [bne_iff_ne]
      intro h
      exact hmem (List.mem_map.mpr ⟨entry, hentry, h.symm⟩)
    simp only [add, dif_neg hmem, find]
    rw [List.lookup_append, lookup_entry_cons, List.lookup_nil]
    by_cases hf : f = name
    · subst hf
      simp [hnone]
    · simp [hf]

/-- Only the removed name loses its value. -/
theorem codeValue_remove (name f : String) :
    (table.remove name).codeValue f = if f = name then none else table.codeValue f := by
  simp only [codeValue, find_remove]
  by_cases hf : f = name <;> simp [hf]

/-- Only code has a code value, also after it is written. -/
theorem codeValue_setValue (name : String) (value : Option Expr) (f : String) :
    (table.setValue name value).codeValue f =
      if f = name then (table.codeValue f).map fun _ => value else table.codeValue f := by
  simp only [codeValue, find_setValue]
  by_cases hf : f = name
  · simp only [hf, if_true]
    cases table.find name with
    | none => rfl
    | some symbol => cases hcode : symbol.isCode <;> simp [hcode]
  · simp [hf]

/-- A new symbol gives no other name a value. -/
theorem codeValue_add_of_ne {name f : String} (symbol : Symbol) (hf : f ≠ name) :
    (table.add name symbol).codeValue f = table.codeValue f := by
  rw [codeValue, find_add, if_neg hf, codeValue]

/-- Adding data does not touch the functions. -/
theorem codeValue_add_data (name : String) (value : Option Expr) (f : String) :
    (table.add name { isCode := false, value := value }).codeValue f = table.codeValue f := by
  by_cases hf : f = name
  · simp only [codeValue, find_add, hf, if_true]
    cases table.find name <;> simp
  · exact table.codeValue_add_of_ne _ hf

end SymbolTable

end FShell.Command
