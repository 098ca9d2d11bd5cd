import FShell.Parser.ParserRuns
import FShell.Ast.FqlAstPrinter

/-!
# Scanning words

What the scanner makes of a text when something follows it.  A word is a
character and identifier characters behind it.  Where a word ends at another
character, each rule matches as much as it does of the word alone
(`matchLength_append`), so that the word becomes the token that it is by
itself.
-/

namespace FShell.Fql

/-! ## Characters -/

/-- Case does not matter for identifiers. -/
theorem isIdentRest_toLower (c : Char) : isIdentRest c.toLower = isIdentRest c := by
  by_cases hupper : c.isUpper
  · have hletters : ∀ n ∈ List.range' 65 26,
        isIdentRest (Char.ofNat n).toLower = isIdentRest (Char.ofNat n) := by decide
    have hn : c.toNat ∈ List.range' 65 26 := by
      simp only [Char.isUpper, decide_eq_true_eq, ge_iff_le, UInt32.le_iff_toNat_le] at hupper
      have hA : ('A' : Char).val.toNat = 65 := rfl
      have hZ : ('Z' : Char).val.toNat = 90 := rfl
      have hc : c.toNat = c.val.toNat := rfl
      simp only [List.mem_range'_1]
      omega
    have hcase := hletters c.toNat hn
    rwa [Char.ofNat_toNat] at hcase
  · rw [Char.toLower_eq_of_not_isUpper hupper]

/-- Letters in either case are identifier characters alike. -/
theorem isIdentRest_of_toLower {a b : Char} (h : a.toLower = b.toLower) :
    isIdentRest a = isIdentRest b := by
  rw [← isIdentRest_toLower a, h, isIdentRest_toLower]

/-- No identifier goes on here. -/
def Delimited (rest : List Char) : Prop := ∀ c ∈ rest.head?, isIdentRest c = false

/-- Behind a delimiter no number goes on. -/
theorem Delimited.isDigit {rest : List Char} (h : Delimited rest) :
    ∀ c ∈ rest.head?, c.isDigit = false := by
  intro c hc
  have hident := h c hc
  rw [isIdentRest, Char.isAlphanum, Bool.or_eq_false_iff, Bool.or_eq_false_iff] at hident
  exact hident.2.2

/-- A text that begins with a character which goes on nothing. -/
theorem delimited_cons {c : Char} {rest : List Char} (h : isIdentRest c = false) :
    Delimited (c :: rest) := by
  intro d hd
  cases hd
  exact h

/-- The end delimits. -/
theorem delimited_nil : Delimited [] := nofun

/-- A character and the identifier characters behind it. -/
def IsWord (text : List Char) : Prop :=
  (∀ c ∈ text.head?, isIdentRest c = true ∨ c = '@') ∧ text ≠ [] ∧
    ∀ c ∈ text.tail, isIdentRest c = true

/-- A word begins with a letter or with `@`. -/
theorem isWord_cons {c : Char} {text : List Char}
    (h : ((isIdentRest c || c == '@') && text.all isIdentRest) = true) : IsWord (c :: text) := by
  simp only [Bool.and_eq_true, Bool.or_eq_true, beq_iff_eq, List.all_eq_true] at h
  refine ⟨fun d hd => ?_, List.cons_ne_nil c text, h.2⟩
  cases hd
  exact h.1

/-! ## Matches -/

/-- A span ends where the next text does not go on. -/
theorem spanLength_append {p : Char → Bool} {text rest : List Char}
    (hrest : ∀ c ∈ rest.head?, p c = false) :
    spanLength p (text ++ rest) = spanLength p text := by
  induction text with
  | nil =>
      cases rest with
      | nil => rfl
      | cons c rest =>
          have hc := hrest c rfl
          simp only [List.nil_append, spanLength, hc, Bool.false_eq_true, if_false]
  | cons c text ih => simp only [List.cons_append, spanLength, ih]

/-- A span takes all that fits. -/
theorem spanLength_all {p : Char → Bool} {text : List Char} (h : ∀ c ∈ text, p c = true) :
    spanLength p text = text.length := by
  induction text with
  | nil => rfl
  | cons c text ih =>
      have hc := h c List.mem_cons_self
      have htext := ih fun d hd => h d (List.mem_cons_of_mem _ hd)
      simp only [spanLength, hc, htext, if_true, List.length_cons]

/-- Of identifier characters nothing matches that is not there. -/
theorem startsWith_append {w text rest : List Char} (hw : ∀ c ∈ w, isIdentRest c = true)
    (hrest : Delimited rest) : startsWith w (text ++ rest) = startsWith w text := by
  induction w generalizing text with
  | nil => rfl
  | cons a w ih =>
      cases text with
      | cons b text =>
          have htext := @ih text fun c hc => hw c (List.mem_cons_of_mem _ hc)
          simp only [List.cons_append, startsWith, htext]
      | nil =>
          cases rest with
          | nil => rfl
          | cons b rest =>
              have ha : isIdentRest a = true := hw a List.mem_cons_self
              have hb : isIdentRest b = false := hrest b rfl
              have hne : a.toLower ≠ b.toLower := by
                intro heq
                rw [isIdentRest_of_toLower heq, hb] at ha
                cases ha
              simp only [List.nil_append, startsWith, beq_eq_false_iff_ne.mpr hne, Bool.false_and]

/-- The texts of the rules: words, or they begin with another character. -/
def Pattern.separates : Pattern → Bool
  | text s =>
      s.toList.tail.all isIdentRest ||
        s.toList.head?.all fun c => !isIdentRest c && c.toLower != '@'
  | _ => true

/-- No pattern of a rule runs over a delimiter. -/
theorem rules_separate : rules.all (fun rule => rule.pattern.separates) = true := by
  decide +kernel

section

variable {c : Char} {input : List Char}

/-- Only `@` begins a line abbreviation. -/
theorem lineAbbrev_of_ne (h : c ≠ '@') : Pattern.lineAbbrev.matchLength (c :: input) = none := by
  unfold Pattern.matchLength
  split <;> first | rfl | simp_all

/-- Only a brace begins a predicate. -/
theorem arbitraryPred_of_ne (h : c ≠ '\x7b') :
    Pattern.arbitraryPred.matchLength (c :: input) = none := by
  unfold Pattern.matchLength
  split <;> first | rfl | simp_all

/-- Only a quote begins a quoted string. -/
theorem quotedString_of_ne (h : c ≠ '\'') :
    Pattern.quotedString.matchLength (c :: input) = none := by
  unfold Pattern.matchLength
  split <;> first | rfl | simp_all

/-- Only a slash begins a comment. -/
theorem comment_of_ne (h : c ≠ '/') : Pattern.comment.matchLength (c :: input) = none := by
  unfold Pattern.matchLength
  split <;> first | rfl | simp_all

end

/-- **A rule matches as much of a word whatever follows it.** -/
theorem Pattern.matchLength_append {p : Pattern} (hp : p.separates = true) {word rest : List Char}
    (hword : IsWord word) (hrest : Delimited rest) :
    p.matchLength (word ++ rest) = p.matchLength word := by
  obtain ⟨hhead, hne, htail⟩ := hword
  obtain ⟨b, word, rfl⟩ := List.exists_cons_of_ne_nil hne
  have hb := hhead b rfl
  simp only [List.tail_cons] at htail
  have hother : ∀ c : Char, isIdentRest c = false → c ≠ '@' → b ≠ c := by
    rintro c hc hat rfl
    rcases hb with hb | hb
    · rw [hc] at hb
      cases hb
    · exact hat hb
  cases p with
  | text s =>
      rcases hs : s.toList with _ | ⟨a, w⟩
      · simp only [matchLength, hs, startsWith]
      · simp only [separates, hs, List.tail_cons, List.head?_cons, Option.all_some, Bool.or_eq_true,
          List.all_eq_true, Bool.and_eq_true, Bool.not_eq_true', bne_iff_ne] at hp
        have hstarts : startsWith (a :: w) (b :: word ++ rest) = startsWith (a :: w) (b :: word) := by
          rcases hp with hw | ⟨ha, hat⟩
          · simp only [List.cons_append, startsWith, startsWith_append hw hrest]
          · have hab : a.toLower ≠ b.toLower := by
              intro heq
              rcases hb with hb | rfl
              · rw [← isIdentRest_of_toLower heq, ha] at hb
                cases hb
              · exact hat heq
            simp only [List.cons_append, startsWith, beq_eq_false_iff_ne.mpr hab, Bool.false_and]
        simp only [matchLength, hs, hstarts]
  | lineAbbrev =>
      by_cases hat : b = '@'
      · subst hat
        simp only [List.cons_append, matchLength, matchSome, spanLength_append hrest.isDigit]
      · rw [List.cons_append, lineAbbrev_of_ne hat, lineAbbrev_of_ne hat]
  | arbitraryPred =>
      have hne := hother '\x7b' (by decide) (by decide)
      rw [List.cons_append, arbitraryPred_of_ne hne, arbitraryPred_of_ne hne]
  | cIdent => simp only [List.cons_append, matchLength, spanLength_append hrest]
  | quotedString =>
      have hne := hother '\'' (by decide) (by decide)
      rw [List.cons_append, quotedString_of_ne hne, quotedString_of_ne hne]
  | natNumber =>
      have hspan := @spanLength_append Char.isDigit (b :: word) rest hrest.isDigit
      simp only [matchLength, matchSome, hspan]
  | blank => rfl
  | comment =>
      have hne := hother '/' (by decide) (by decide)
      rw [List.cons_append, comment_of_ne hne, comment_of_ne hne]
  | anyCharacter => rfl

/-- The longest match depends on the lengths of the matches. -/
theorem longest_congr {start : StartCondition} {input input' : List Char} {rs : List Rule}
    (h : ∀ rule ∈ rs, rule.pattern.matchLength input = rule.pattern.matchLength input') :
    longest start input rs = longest start input' rs := by
  induction rs with
  | nil => rfl
  | cons rule rs ih =>
      have hrule := h rule List.mem_cons_self
      have hrest := ih fun r hr => h r (List.mem_cons_of_mem _ hr)
      simp only [longest, hrule, hrest]

/-- What follows a word does not change its match. -/
theorem longest_append {start : StartCondition} {word rest : List Char} (hword : IsWord word)
    (hrest : Delimited rest) : longest start (word ++ rest) rules = longest start word rules :=
  longest_congr fun rule hrule => Pattern.matchLength_append
    (List.all_eq_true.mp rules_separate rule hrule) hword hrest

/-- The rule that wins matches. -/
theorem longest_mem {start : StartCondition} {input : List Char} {rs : List Rule} {n : Nat}
    {action : Action} (h : longest start input rs = some (n, action)) :
    ∃ rule ∈ rs, start ∈ rule.starts ∧ rule.pattern.matchLength input = some n ∧
      rule.action = action := by
  induction rs with
  | nil => cases h
  | cons rule rs ih =>
      have hrest : longest start input rs = some (n, action) → ∃ r ∈ rule :: rs,
          start ∈ r.starts ∧ r.pattern.matchLength input = some n ∧ r.action = action := by
        intro hr
        obtain ⟨r, hmem, hr⟩ := ih hr
        exact ⟨r, List.mem_cons_of_mem _ hmem, hr⟩
      unfold longest at h
      split at h
      · exact hrest h
      · rename_i m hm _
        split_ifs at hm with hstart
        cases h
        exact ⟨rule, List.mem_cons_self, hstart, hm, rfl⟩
      · rename_i m m' action' hm hbest
        split_ifs at hm with hstart
        split_ifs at h
        · cases h
          exact hrest hbest
        · cases h
          exact ⟨rule, List.mem_cons_self, hstart, hm, rfl⟩

/-! ## Tokens -/

section

variable {start backup : StartCondition} {word rest : List Char}

/-- The rule that wins is performed. -/
theorem scan_of_longest {l : LexerState} {n : Nat} {action : Action} (hinput : l.input ≠ [])
    (h : longest l.start l.input rules = some (n, action)) :
    l.scan = action.perform (l.input.take n) { l with input := l.input.drop n } := by
  unfold LexerState.scan
  split
  · rename_i hnil
    exact absurd hnil hinput
  · rename_i hnone
    rw [h] at hnone
    cases hnone
  · rename_i hsome
    rw [h] at hsome
    cases hsome
    rfl

/-- A word is scanned as it is by itself. -/
theorem scan_word {action : Action} (hword : IsWord word)
    (hlongest : longest start word rules = some (word.length, action)) (hrest : Delimited rest) :
    LexerState.scan ⟨start, backup, word ++ rest⟩ = action.perform word ⟨start, backup, rest⟩ := by
  have hne : word ++ rest ≠ [] := List.append_ne_nil_of_left_ne_nil hword.2.1 rest
  have happend : longest start (word ++ rest) rules = some (word.length, action) := by
    rw [longest_append hword hrest, hlongest]
  have hscan := @scan_of_longest ⟨start, backup, word ++ rest⟩ _ _ hne happend
  rw [hscan, List.take_left, List.drop_left]

/-- A word is scanned as the token of its rule. -/
theorem scan_token {t : Token} (hword : IsWord word)
    (hlongest : longest start word rules = some (word.length, .token t)) (hrest : Delimited rest) :
    LexerState.scan ⟨start, backup, word ++ rest⟩ = .token t ⟨start, backup, rest⟩ := by
  rw [scan_word hword hlongest hrest, Action.perform]

/-- A word that begins a start condition. -/
theorem scan_begin {t : Token} {next : StartCondition} (hword : IsWord word)
    (hlongest : longest start word rules = some (word.length, .begin next t))
    (hrest : Delimited rest) :
    LexerState.scan ⟨start, backup, word ++ rest⟩ = .token t ⟨next, backup, rest⟩ := by
  rw [scan_word hword hlongest hrest, Action.perform]

/-- The identifiers of a start condition. -/
def IsIdentifier (start : StartCondition) (s : String) : Prop :=
  IsWord s.toList ∧ longest start s.toList rules = some (s.toList.length, .cIdent)

/-- Identifiers are read again. -/
theorem scan_identifier {s : String} (h : IsIdentifier start s) (hrest : Delimited rest) :
    LexerState.scan ⟨start, backup, s.toList ++ rest⟩ =
      .token (.tokCIdent s) ⟨start, backup, rest⟩ := by
  rw [scan_word h.1 h.2 hrest, Action.perform, String.ofList_toList]

/-! ### Start conditions -/

/-- The three start conditions of a query. -/
theorem mem_inQuery_iff :
    start ∈ inQuery ↔ start = .queryScope ∨ start = .queryCover ∨ start = .queryPassing := by
  simp only [inQuery, List.mem_cons, List.not_mem_nil, or_false]

/-- The two start conditions of patterns. -/
theorem mem_inPatterns_iff : start ∈ inPatterns ↔ start = .queryCover ∨ start = .queryPassing := by
  simp only [inPatterns, List.mem_cons, List.not_mem_nil, or_false]

/-! ### Texts between quotes -/

/-- The rules behind those for identifiers. -/
theorem longest_quote (hstart : start ∈ inQuery) :
    longest start ('\'' :: rest) rules =
      longest start ('\'' :: rest)
        [⟨inQuery, .quotedString, .quotedString⟩, ⟨inPatterns, .natNumber, .natNumber⟩,
          ⟨anyStart, .anyCharacter, .unexpectedCharacter⟩] := by
  rcases mem_inQuery_iff.mp hstart with rfl | rfl | rfl <;> rfl

/-- A quoted text is scanned as its string. -/
theorem scan_quoted {s : String} (hstart : start ∈ inQuery) (hs : '\'' ∉ s.toList) :
    LexerState.scan ⟨start, backup, quoted s ++ rest⟩ =
      .token (.tokQuotedString s) ⟨start, backup, rest⟩ := by
  have hspan : spanLength (· != '\'') (s.toList ++ '\'' :: rest) = s.toList.length := by
    rw [spanLength_append (by simp), spanLength_all]
    intro c hc
    exact bne_iff_ne.mpr fun heq => hs (heq ▸ hc)
  have hclosed : matchClosed (· != '\'') '\'' (s.toList ++ '\'' :: rest) =
      some (s.toList.length + 2) := by
    simp only [matchClosed, hspan, List.drop_left, List.head?_cons, if_true]
  have hquoted : quoted s ++ rest = '\'' :: (s.toList ++ '\'' :: rest) := by
    simp only [quoted, List.cons_append, List.append_assoc, List.nil_append]
  have hlongest : longest start (quoted s ++ rest) rules =
      some (s.toList.length + 2, .quotedString) := by
    rw [hquoted, longest_quote hstart]
    have hmatch : Pattern.quotedString.matchLength ('\'' :: (s.toList ++ '\'' :: rest)) =
        some (s.toList.length + 2) := hclosed
    have hnat : Pattern.natNumber.matchLength ('\'' :: (s.toList ++ '\'' :: rest)) = none := rfl
    have hany : Pattern.anyCharacter.matchLength ('\'' :: (s.toList ++ '\'' :: rest)) = some 1 := rfl
    have hanyStart : start ∈ anyStart := by cases start <;> decide
    simp only [longest, hmatch, hnat, hany, if_pos hstart, if_pos hanyStart, ite_self,
      Nat.not_lt_eq, Nat.reduceLeDiff, if_neg]
  have hne : quoted s ++ rest ≠ [] := by
    rw [hquoted]
    exact List.cons_ne_nil _ _
  have hscan := @scan_of_longest ⟨start, backup, quoted s ++ rest⟩ _ _ hne hlongest
  have hlength : s.toList.length + 2 = (quoted s).length := by
    simp only [quoted, List.length_cons, List.length_append, List.length_nil]
  rw [hscan, hlength, List.take_left, List.drop_left, Action.perform]
  simp only [inner, quoted, List.tail_cons, List.dropLast_concat, String.ofList_toList]

/-! ### Numbers -/

/-- The decimal digits. -/
def decimalDigits : List Char := ['0', '1', '2', '3', '4', '5', '6', '7', '8', '9']

/-- The digits. -/
theorem mem_decimalDigits {c : Char} (h : c.isDigit = true) : c ∈ decimalDigits := by
  have hdigits : ∀ n ∈ List.range' 48 10, Char.ofNat n ∈ decimalDigits := by decide
  have hn : c.toNat ∈ List.range' 48 10 := by
    simp only [Char.isDigit, Bool.and_eq_true, decide_eq_true_eq, ge_iff_le,
      UInt32.le_iff_toNat_le] at h
    have h0 : ('0' : Char).val.toNat = 48 := rfl
    have h9 : ('9' : Char).val.toNat = 57 := rfl
    have hc : c.toNat = c.val.toNat := rfl
    simp only [List.mem_range'_1]
    omega
  have hcase := hdigits c.toNat hn
  rwa [Char.ofNat_toNat] at hcase

/-- A number is a word. -/
theorem digits_isWord {digits : List Char} (hne : digits ≠ [])
    (hdigits : ∀ c ∈ digits, c.isDigit = true) : IsWord digits := by
  have hident : ∀ c : Char, c.isDigit = true → isIdentRest c = true := by
    intro c hc
    rw [isIdentRest, Char.isAlphanum, hc, Bool.or_true, Bool.or_true]
  refine ⟨fun c hc => Or.inl (hident c (hdigits c (List.mem_of_mem_head? hc))), hne, fun c hc => ?_⟩
  exact hident c (hdigits c (List.mem_of_mem_tail hc))

/-- In patterns a digit begins a number. -/
theorem longest_digit (hstart : start ∈ inPatterns) {c : Char} (hc : c.isDigit = true) :
    longest start (c :: rest) rules =
      longest start (c :: rest)
        [⟨inPatterns, .natNumber, .natNumber⟩, ⟨anyStart, .anyCharacter, .unexpectedCharacter⟩] := by
  have hmem := mem_decimalDigits hc
  simp only [inPatterns, decimalDigits, List.mem_cons, List.not_mem_nil, or_false] at hstart hmem
  rcases hstart with rfl | rfl <;>
    rcases hmem with rfl | rfl | rfl | rfl | rfl | rfl | rfl | rfl | rfl | rfl <;> rfl

/-- In patterns digits are one number. -/
theorem longest_digits (hstart : start ∈ inPatterns) {digits : List Char} (hne : digits ≠ [])
    (hdigits : ∀ c ∈ digits, c.isDigit = true) :
    longest start digits rules = some (digits.length, .natNumber) := by
  obtain ⟨c, text, rfl⟩ := List.exists_cons_of_ne_nil hne
  have hlength : (c :: text).length ≠ 0 := Nat.succ_ne_zero _
  have hanyStart : start ∈ anyStart := by cases start <;> decide
  have hmatch : Pattern.natNumber.matchLength (c :: text) = some (c :: text).length := by
    rw [Pattern.matchLength, matchSome, spanLength_all hdigits, if_neg hlength]
  have hany : ∀ n, Pattern.anyCharacter.matchLength (c :: text) = some n → n = 1 := by
    intro n hn
    rw [Pattern.matchLength] at hn
    split_ifs at hn
    exact (Option.some.inj hn).symm
  rw [longest_digit hstart (hdigits c List.mem_cons_self)]
  simp only [longest, hmatch, if_pos hstart, if_pos hanyStart]
  cases hlast : Pattern.anyCharacter.matchLength (c :: text) with
  | none => rfl
  | some n =>
      have hn := hany n hlast
      have hnot : ¬ (c :: text).length < n := by omega
      simp only [if_neg hnot]

/-- Numbers that fit an `int` are read again. -/
theorem scan_natNumber (hstart : start ∈ inPatterns) {n : Int} (hn : 0 ≤ n) (hint : n < 2 ^ 31)
    (hrest : Delimited rest) :
    LexerState.scan ⟨start, backup, printInt n ++ rest⟩ =
      .token (.tokNatNumber n) ⟨start, backup, rest⟩ := by
  have hprint : printInt n = Nat.toDigits 10 n.natAbs := by rw [printInt, if_neg (by omega)]
  have hdigits : ∀ c ∈ printInt n, c.isDigit = true := by
    rw [hprint]
    exact fun c hc => Nat.isDigit_of_mem_toDigits (by omega) (by omega) hc
  have hne : printInt n ≠ [] := by
    rw [hprint]
    exact Nat.toDigits_ne_nil
  have hvalue : digitsValue (printInt n) = n.natAbs := by
    rw [hprint]
    exact Nat.ofDigitChars_ten_toDigits
  have hstrtol : strtol (printInt n) = some n := by
    rw [strtol, hvalue, if_pos (by omega), Int.bmod_def]
    have hcast : (n.natAbs : Int) = n := by omega
    rw [hcast]
    split
    · exact congrArg some (by omega)
    · omega
  rw [scan_word (digits_isWord hne hdigits) (longest_digits hstart hne hdigits) hrest,
    Action.perform, hstrtol, numberToken]

/-- **The sign of a number is no token.** -/
theorem scan_negative (hstart : start ∈ inPatterns) {n : Int} (hn : n < 0) :
    LexerState.scan ⟨start, backup, printInt n ++ rest⟩ = .unexpectedCharacter := by
  obtain ⟨c, digits, hdigits⟩ := List.exists_cons_of_ne_nil (Nat.toDigits_ne_nil (n := n.natAbs) (b := 10))
  have hc : c.isDigit = true :=
    Nat.isDigit_of_mem_toDigits (by omega) (by omega) (hdigits ▸ List.mem_cons_self)
  have hmem := mem_decimalDigits hc
  rw [printInt, if_pos hn, hdigits]
  simp only [inPatterns, decimalDigits, List.mem_cons, List.not_mem_nil, or_false] at hstart hmem
  rcases hstart with rfl | rfl <;>
    rcases hmem with rfl | rfl | rfl | rfl | rfl | rfl | rfl | rfl | rfl | rfl <;> rfl

end

end FShell.Fql
