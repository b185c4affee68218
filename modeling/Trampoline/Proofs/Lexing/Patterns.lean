import Mathlib.Computability.Language
import Trampoline.Proofs.Spelling.Tokens

/-!
# Patterns of tokens

What each kind of token looks like, as a language built from classes of characters. The scanner cuts
off the longest text that any pattern matches at its place; of an integer and a name of one length
it takes the integer. Where it finds an error, no pattern matches.
-/

namespace Trampoline

open scoped Computability

/-- The texts of one character of a class. -/
def oneOf (inClass : Char -> Bool) : Language Char := {text | ∃ c, inClass c = true ∧ text = [c]}

/-- The text itself and no other. -/
def exactly (text : List Char) : Language Char := {text}

/-- A sign before digits. -/
def isSign (c : Char) : Bool := c = '+' || c = '-'

/-- What stands for itself inside a string. -/
def isPlain (c : Char) : Bool := c != '"' && c != '\\'

/-- What a comment goes on with, and what a backslash can stand before in a string. -/
def isInline (c : Char) : Bool := c != '\n'

/-- What stands between the quotes of a string. -/
def stringBody : Language Char :=
  (oneOf isPlain)∗ * (exactly ['\\'] * oneOf isInline * (oneOf isPlain)∗)∗

/-- The texts that a token of the kind can have. An error has none. -/
def TokenKind.pattern : TokenKind -> Language Char
  | openParen => exactly ['(']
  | closeParen => exactly [')']
  | true => exactly ['#', 't']
  | false => exactly ['#', 'f']
  | int => (1 + oneOf isSign) * (oneOf isDigit * (oneOf isDigit)∗)
  | str => exactly ['"'] * stringBody * exactly ['"']
  | keyword => exactly [':'] * (oneOf isKeywordStart * (oneOf isIdentPart)∗)
  | ident => oneOf isIdentStart * (oneOf isIdentPart)∗
  | error => 0

/-- What stands between tokens: blanks, or a comment. -/
def spacing : Language Char :=
  oneOf isBlank * (oneOf isBlank)∗ + exactly [';'] * (oneOf isInline)∗

/-- All patterns: those of tokens, and the one of what stands between them. -/
def pattern : Option TokenKind -> Language Char
  | none => spacing
  | some kind => kind.pattern

/-! ## Texts of patterns -/

section Texts

variable {inClass : Char -> Bool} {l : Language Char} {c : Char} {text : List Char}

/-- A run of characters of a class has only such characters. -/
theorem mem_run : text ∈ (oneOf inClass)∗ ↔ text.all inClass = true := by
  rw [Language.mem_kstar]
  constructor
  · rintro ⟨parts, rfl, single⟩
    rw [List.all_flatten, List.all_eq_true]
    intro part member
    obtain ⟨c, belongs, rfl⟩ := single part member
    simp [belongs]
  · intro all
    refine ⟨text.map fun c => [c], ?_, fun part member => ?_⟩
    · rw [List.flatten_eq_flatMap, List.flatMap_map]
      simp
    · obtain ⟨c, listed, rfl⟩ := List.mem_map.mp member
      exact ⟨c, List.all_eq_true.mp all c listed, rfl⟩

/-- Texts that begin with a character of a class are not empty. -/
theorem nil_notMem_oneOf_mul : [] ∉ oneOf inClass * l := by
  rintro ⟨_, ⟨c, -, rfl⟩, rest, -, same⟩
  cases same

/-- Such a text has its first character in the class and the rest in the language behind it. -/
theorem cons_mem_oneOf_mul : c :: text ∈ oneOf inClass * l ↔ inClass c = true ∧ text ∈ l := by
  rw [Language.mem_mul]
  constructor
  · rintro ⟨_, ⟨d, belongs, rfl⟩, rest, inside, same⟩
    obtain ⟨rfl, rfl⟩ := List.cons.inj same
    exact ⟨belongs, inside⟩
  · rintro ⟨belongs, inside⟩
    exact ⟨[c], ⟨c, belongs, rfl⟩, text, inside, rfl⟩

/-- A text that begins with a given character has it first and the rest in the language behind
it. -/
theorem cons_mem_exactly_mul {first : Char} :
    c :: text ∈ exactly [first] * l ↔ c = first ∧ text ∈ l := by
  rw [Language.mem_mul]
  constructor
  · rintro ⟨_, rfl, rest, inside, same⟩
    obtain ⟨rfl, rfl⟩ := List.cons.inj same
    exact ⟨rfl, inside⟩
  · rintro ⟨rfl, inside⟩
    exact ⟨[c], rfl, text, inside, rfl⟩

/-- What can stand between the quotes of a string, one character or escape after another. -/
inductive StringBody : List Char -> Prop where
  | nil : StringBody []
  | plain {c : Char} {rest : List Char} (plain : isPlain c = true) (body : StringBody rest) :
      StringBody (c :: rest)
  | escape {c : Char} {rest : List Char} (inline : isInline c = true) (body : StringBody rest) :
      StringBody ('\\' :: c :: rest)

/-- Plain characters may come before any string body. -/
theorem StringBody.after_plain {rest : List Char} (body : StringBody rest)
    (all : text.all isPlain = true) : StringBody (text ++ rest) := by
  induction text with
  | nil => exact body
  | cons c text ih =>
    simp only [List.all_cons, Bool.and_eq_true] at all
    exact .plain all.1 (ih all.2)

/-- The inductive description of string bodies agrees with the pattern. -/
theorem mem_stringBody : text ∈ stringBody ↔ StringBody text := by
  constructor
  · intro inside
    obtain ⟨first, plain, others, escapes, rfl⟩ := Language.mem_mul.mp inside
    obtain ⟨parts, rfl, each⟩ := Language.mem_kstar.mp escapes
    refine StringBody.after_plain ?_ (mem_run.mp plain)
    clear escapes inside
    induction parts with
    | nil => exact .nil
    | cons part parts ih =>
      obtain ⟨escape, parts'⟩ := List.forall_mem_cons.mp each
      rw [mul_assoc] at escape
      obtain ⟨_, rfl, _, ⟨_, ⟨c, inline, rfl⟩, run, plain, rfl⟩, rfl⟩ := escape
      refine .escape inline ?_
      exact (ih parts').after_plain (mem_run.mp plain)
  · intro body
    induction body with
    | nil => exact ⟨[], Language.nil_mem_kstar _, [], Language.nil_mem_kstar _, rfl⟩
    | @plain c rest plain body ih =>
      obtain ⟨first, run, others, escapes, rfl⟩ := Language.mem_mul.mp ih
      refine ⟨c :: first, mem_run.mpr ?_, others, escapes, rfl⟩
      rw [List.all_cons, plain, mem_run.mp run, Bool.and_self]
    | @escape c rest inline body ih =>
      obtain ⟨first, run, others, escapes, rfl⟩ := Language.mem_mul.mp ih
      refine ⟨[], Language.nil_mem_kstar _, '\\' :: c :: (first ++ others), ?_, rfl⟩
      obtain ⟨parts, rfl, each⟩ := Language.mem_kstar.mp escapes
      refine Language.mem_kstar.mpr ⟨('\\' :: c :: first) :: parts, rfl, ?_⟩
      refine List.forall_mem_cons.mpr ⟨?_, each⟩
      exact ⟨['\\', c], ⟨['\\'], rfl, [c], ⟨c, inline, rfl⟩, rfl⟩, first, run, rfl⟩

end Texts

/-- What a pattern says about a text that starts with `c`. -/
def MatchesFrom (c : Char) (text : List Char) : Option TokenKind -> Prop
  | none => (isBlank c = true ∧ text.all isBlank = true) ∨ (c = ';' ∧ text.all isInline = true)
  | some .openParen => c = '(' ∧ text = []
  | some .closeParen => c = ')' ∧ text = []
  | some .true => c = '#' ∧ text = ['t']
  | some .false => c = '#' ∧ text = ['f']
  | some .int => text.all isDigit = true ∧ (isDigit c = true ∨ (isSign c = true ∧ text ≠ []))
  | some .str => c = '"' ∧ ∃ body, StringBody body ∧ text = body ++ ['"']
  | some .keyword => c = ':' ∧ ∃ d more, isKeywordStart d = true ∧ more.all isIdentPart = true ∧
      text = d :: more
  | some .ident => isIdentStart c = true ∧ text.all isIdentPart = true
  | some .error => False

/-- No pattern matches the empty text, so every token takes up some of the source. -/
theorem nil_notMem_pattern (kind : Option TokenKind) : [] ∉ pattern kind := by
  intro inside
  match kind with
  | none =>
    rcases inside with inside | ⟨_, rfl, rest, -, same⟩
    · exact nil_notMem_oneOf_mul inside
    · cases same
  | some .openParen | some .closeParen | some .true | some .false | some .error => cases inside
  | some .int =>
    obtain ⟨sign, -, _, digits, same⟩ := inside
    obtain ⟨rfl, rfl⟩ := List.append_eq_nil_iff.mp same
    exact nil_notMem_oneOf_mul digits
  | some .str =>
    obtain ⟨_, -, _, rfl, same⟩ := inside
    exact List.cons_ne_nil _ _ (List.append_eq_nil_iff.mp same).2
  | some .keyword =>
    obtain ⟨_, rfl, _, -, same⟩ := inside
    cases same
  | some .ident => exact nil_notMem_oneOf_mul inside

/-- A pattern matches a text exactly if the text is as the pattern says. -/
theorem cons_mem_pattern {c : Char} {text : List Char} (kind : Option TokenKind) :
    c :: text ∈ pattern kind ↔ MatchesFrom c text kind := by
  match kind with
  | none =>
    show c :: text ∈ oneOf isBlank * (oneOf isBlank)∗ ∨ c :: text ∈ exactly [';'] * _ ↔ _
    rw [cons_mem_oneOf_mul, cons_mem_exactly_mul, mem_run, mem_run]
    rfl
  | some .openParen | some .closeParen | some .true | some .false =>
    show c :: text = _ ↔ _
    rw [List.cons.injEq]
    rfl
  | some .int =>
    show c :: text ∈ (1 + oneOf isSign) * (oneOf isDigit * (oneOf isDigit)∗) ↔ _
    have shape : c :: text ∈ (1 + oneOf isSign) * (oneOf isDigit * (oneOf isDigit)∗) ↔
        c :: text ∈ oneOf isDigit * (oneOf isDigit)∗ ∨
          c :: text ∈ oneOf isSign * (oneOf isDigit * (oneOf isDigit)∗) := by
      rw [add_mul, one_mul]
      exact Language.mem_add _ _ _
    rw [shape, cons_mem_oneOf_mul, cons_mem_oneOf_mul, mem_run]
    cases text with
    | nil =>
      have none : [] ∉ oneOf isDigit * (oneOf isDigit)∗ := nil_notMem_oneOf_mul
      simp [MatchesFrom, none]
    | cons d rest =>
      rw [cons_mem_oneOf_mul, mem_run]
      simp only [MatchesFrom, List.all_cons, Bool.and_eq_true, ne_eq, reduceCtorEq,
        not_false_eq_true, and_true]
      tauto
  | some .str =>
    show c :: text ∈ exactly ['"'] * stringBody * exactly ['"'] ↔ _
    rw [mul_assoc, cons_mem_exactly_mul, Language.mem_mul]
    refine and_congr_right fun _ => ⟨?_, ?_⟩
    · rintro ⟨body, inside, _, rfl, rfl⟩
      exact ⟨body, mem_stringBody.mp inside, rfl⟩
    · rintro ⟨body, inside, rfl⟩
      exact ⟨body, mem_stringBody.mpr inside, _, rfl, rfl⟩
  | some .keyword =>
    show c :: text ∈ exactly [':'] * (oneOf isKeywordStart * (oneOf isIdentPart)∗) ↔ _
    rw [cons_mem_exactly_mul]
    refine and_congr_right fun _ => ⟨fun inside => ?_, ?_⟩
    · cases text with
      | nil => exact absurd inside nil_notMem_oneOf_mul
      | cons d more =>
        rw [cons_mem_oneOf_mul, mem_run] at inside
        exact ⟨d, more, inside.1, inside.2, rfl⟩
    · rintro ⟨d, more, starts, parts, rfl⟩
      exact cons_mem_oneOf_mul.mpr ⟨starts, mem_run.mpr parts⟩
  | some .ident =>
    show c :: text ∈ oneOf isIdentStart * (oneOf isIdentPart)∗ ↔ _
    rw [cons_mem_oneOf_mul, mem_run]
    rfl
  | some .error => exact Iff.rfl

/-! ## Longest matches -/

/-- No pattern matches a longer text where the piece stands. -/
def IsLongest (piece after : List Char) : Prop :=
  ∀ kind, ∀ text ∈ pattern kind, text <+: piece ++ after -> text.length ≤ piece.length

/-- No pattern matches where the text starts. -/
def MatchesNowhere (text : List Char) : Prop :=
  ∀ kind, ∀ start ∈ pattern kind, ¬start <+: text

/-! ### Runs and strings -/

theorem runLength_le (inClass : Char -> Bool) (text : List Char) :
    runLength inClass text ≤ text.length :=
  (List.takeWhile_prefix inClass).length_le

theorem take_runLength (inClass : Char -> Bool) (text : List Char) :
    text.take (runLength inClass text) = text.takeWhile inClass := by
  exact (List.prefix_iff_eq_take.mp (List.takeWhile_prefix inClass)).symm

/-- Every character of a run is in the class. -/
theorem all_take_runLength (inClass : Char -> Bool) (text : List Char) :
    (text.take (runLength inClass text)).all inClass = true := by
  rw [take_runLength]
  exact List.all_takeWhile

/-- No longer start of a text is in the class. -/
theorem length_le_runLength {inClass : Char -> Bool} {start text : List Char}
    (starts : start <+: text) (all : start.all inClass = true) :
    start.length ≤ runLength inClass text := by
  obtain ⟨rest, rfl⟩ := starts
  rw [runLength, List.takeWhile_append_of_pos (List.all_eq_true.mp all), List.length_append]
  exact Nat.le_add_right _ _

/-- Digits can belong to a name. -/
theorem runLength_isDigit_le (text : List Char) :
    runLength isDigit text ≤ runLength isIdentPart text := by
  have starts : text.take (runLength isDigit text) <+: text := List.take_prefix _ _
  have all : (text.take (runLength isDigit text)).all isIdentPart = true := by
    refine List.all_eq_true.mpr fun c member => isIdentPart_of_isDigit ?_
    exact List.all_eq_true.mp (all_take_runLength isDigit text) c member
  have longest := length_le_runLength starts all
  rwa [List.length_take, Nat.min_eq_left (runLength_le isDigit text)] at longest

theorem stringBodyLength_quote (rest : List Char) : stringBodyLength ('"' :: rest) = 0 := by
  cases rest <;> simp [stringBodyLength]

/-- The quote that ends a string is the first one that no backslash escapes. -/
theorem StringBody.length_eq {body : List Char} (inside : StringBody body) (rest : List Char) :
    stringBodyLength (body ++ '"' :: rest) = body.length := by
  induction inside with
  | nil => exact stringBodyLength_quote rest
  | @plain c body plain inside ih =>
    simp only [isPlain, Bool.and_eq_true, bne_iff_ne] at plain
    rw [List.cons_append, Quoted.stringBodyLength_plain plain.1 plain.2, ih, List.length_cons]
  | @escape c body inline inside ih =>
    have noBreak : c ≠ '\n' := bne_iff_ne.mp inline
    simp [stringBodyLength, noBreak, ih]

/-- What the scanner takes for a string body is one. -/
theorem stringBody_take (text : List Char) : StringBody (text.take (stringBodyLength text)) := by
  fun_induction stringBodyLength text with
  | case1 | case2 | case4 | case5 => exact .nil
  | case3 c other =>
    refine .plain ?_ .nil
    simpa [isPlain, not_or] using other
  | case6 d rest noBreak =>
    rename_i ih
    exact .escape (bne_iff_ne.mpr noBreak) ih
  | case7 c d rest noQuote noEscape ih =>
    exact .plain (by simp [isPlain, noQuote, noEscape]) ih

theorem stringBodyLength_le (text : List Char) : stringBodyLength text ≤ text.length := by
  fun_induction stringBodyLength text <;> simp_all

/-! ### Lexemes -/

variable {c : Char} {rest : List Char}

theorem isIdentStart_of_isSign (sign : isSign c = true) : isIdentStart c = true := by
  simp only [isSign, Bool.or_eq_true, decide_eq_true_eq] at sign
  rcases sign with rfl | rfl <;> decide

/-- Where a name starts, an integer starts if digits follow a sign, and nothing else. -/
theorem lexemeAt_identStart (identStart : isIdentStart c = true) :
    lexemeAt c rest =
      if isSign c && 0 < runLength isDigit rest &&
        runLength isDigit rest = runLength isIdentPart rest
      then ⟨some .int, runLength isDigit rest⟩ else ⟨some .ident, runLength isIdentPart rest⟩ := by
  have wordy := isIdentPart_wordy (isIdentPart_of_isIdentStart identStart)
  rw [wordy.lexemeAt_eq, isDigit_of_isIdentStart identStart, if_neg Bool.false_ne_true,
    if_pos identStart]
  rfl

/-- What a pattern matches is no longer than the lexeme, which is no error then. -/
theorem lexemeAt_longest {kind : Option TokenKind} {text : List Char}
    (matched : MatchesFrom c text kind) (starts : text <+: rest) :
    text.length ≤ (lexemeAt c rest).extra ∧ (lexemeAt c rest).kind ≠ some .error := by
  match kind with
  | none =>
    rcases matched with ⟨blank, blanks⟩ | ⟨rfl, inline⟩
    · have cut : lexemeAt c rest = ⟨none, runLength isBlank rest⟩ := by simp [lexemeAt, blank]
      rw [cut]
      exact ⟨length_le_runLength starts blanks, nofun⟩
    · exact ⟨length_le_runLength starts inline, nofun⟩
  | some .openParen | some .closeParen =>
    obtain ⟨rfl, rfl⟩ := matched
    exact ⟨Nat.zero_le _, nofun⟩
  | some .true | some .false =>
    obtain ⟨rfl, rfl⟩ := matched
    obtain ⟨more, rfl⟩ := starts
    exact ⟨Nat.le_refl _, nofun⟩
  | some .int =>
    obtain ⟨digits, isDigit | ⟨sign, some⟩⟩ := matched
    · have wordy := isIdentPart_wordy (isIdentPart_of_isDigit isDigit)
      rw [wordy.lexemeAt_eq, if_pos isDigit]
      exact ⟨length_le_runLength starts digits, nofun⟩
    · have long := length_le_runLength starts digits
      rw [lexemeAt_identStart (isIdentStart_of_isSign sign)]
      split
      · exact ⟨long, nofun⟩
      · exact ⟨Nat.le_trans long (runLength_isDigit_le rest), nofun⟩
  | some .str =>
    obtain ⟨rfl, body, inside, rfl⟩ := matched
    obtain ⟨more, rfl⟩ := starts
    have length := inside.length_eq more
    have cut : lexemeAt '"' (body ++ ['"'] ++ more) = ⟨some .str, body.length + 1⟩ := by
      simp [lexemeAt, isBlank, length]
    rw [cut]
    exact ⟨by simp, by simp⟩
  | some .keyword =>
    obtain ⟨rfl, d, more, keyStart, parts, rfl⟩ := matched
    obtain ⟨last, rfl⟩ := starts
    have cut : lexemeAt ':' (d :: more ++ last) =
        ⟨some .keyword, runLength isIdentPart (more ++ last) + 1⟩ := by
      simp [lexemeAt, isBlank, keyStart]
    rw [cut]
    exact ⟨Nat.succ_le_succ (length_le_runLength (List.prefix_append _ _) parts), by simp⟩
  | some .ident =>
    obtain ⟨identStart, parts⟩ := matched
    have long := length_le_runLength starts parts
    rw [lexemeAt_identStart identStart]
    split
    · rename_i sign
      simp only [Bool.and_eq_true, decide_eq_true_eq] at sign
      exact ⟨sign.2 ▸ long, nofun⟩
    · exact ⟨long, nofun⟩

/-- The lexeme at the start of a text is as long as it says, and of its kind. -/
structure Lexeme.Sound (c : Char) (rest : List Char) (lexeme : Lexeme) : Prop where
  inside : lexeme.extra ≤ rest.length
  matched : lexeme.kind ≠ some .error -> MatchesFrom c (rest.take lexeme.extra) lexeme.kind

theorem Lexeme.Sound.of_kind {lexeme : Lexeme} (inside : lexeme.extra ≤ rest.length)
    (matched : MatchesFrom c (rest.take lexeme.extra) lexeme.kind) : lexeme.Sound c rest :=
  ⟨inside, fun _ => matched⟩

theorem Lexeme.Sound.error {extra : Nat} (inside : extra ≤ rest.length) :
    Lexeme.Sound c rest ⟨some .error, extra⟩ :=
  ⟨inside, fun noError => absurd rfl noError⟩

/-- A lexeme that an integer could be is one. -/
theorem lexemeAt_int
    (matched : MatchesFrom c (rest.take (lexemeAt c rest).extra) (some .int)) :
    (lexemeAt c rest).kind = some .int := by
  obtain ⟨digits, isDigit | ⟨sign, some⟩⟩ := matched
  · have wordy := isIdentPart_wordy (isIdentPart_of_isDigit isDigit)
    rw [wordy.lexemeAt_eq, if_pos isDigit]
  rw [lexemeAt_identStart (isIdentStart_of_isSign sign)] at digits some ⊢
  split
  · rfl
  · -- all that a name could have after its sign is digits, so it is cut as an integer
    rename_i unsigned
    rw [if_neg unsigned] at digits some
    have longer := length_le_runLength (List.take_prefix _ _) digits
    rw [List.length_take, Nat.min_eq_left (runLength_le _ _)] at longer
    have same : runLength isDigit rest = runLength isIdentPart rest :=
      Nat.le_antisymm (runLength_isDigit_le rest) longer
    have positive : 0 < runLength isDigit rest := by
      refine Nat.pos_of_ne_zero fun zero => some ?_
      rw [← same, zero, List.take_zero]
    refine absurd ?_ unsigned
    simp only [Bool.and_eq_true, decide_eq_true_eq]
    exact ⟨⟨sign, positive⟩, same⟩

/-- The lexeme at the start of a text is of its kind. -/
theorem lexemeAt_sound (c : Char) (rest : List Char) : (lexemeAt c rest).Sound c rest := by
  by_cases word : isIdentStart c = true
  · rw [lexemeAt_identStart word]
    split
    · rename_i signed
      simp only [Bool.and_eq_true, decide_eq_true_eq] at signed
      obtain ⟨⟨sign, some⟩, -⟩ := signed
      refine .of_kind (runLength_le _ _) ⟨all_take_runLength _ _, .inr ⟨sign, ?_⟩⟩
      refine List.ne_nil_of_length_pos ?_
      rwa [List.length_take, Nat.min_eq_left (runLength_le _ _)]
    · exact .of_kind (runLength_le _ _) ⟨word, all_take_runLength _ _⟩
  unfold lexemeAt
  split
  · rename_i blank
    exact .of_kind (runLength_le _ _) (.inl ⟨blank, all_take_runLength _ _⟩)
  split
  · rename_i semicolon
    exact .of_kind (runLength_le _ _) (.inr ⟨semicolon, all_take_runLength _ _⟩)
  split
  · exact .of_kind (Nat.zero_le _) ⟨by assumption, rfl⟩
  split
  · exact .of_kind (Nat.zero_le _) ⟨by assumption, rfl⟩
  split
  · rename_i hash
    split
    · exact .of_kind (Nat.le_add_left _ _) ⟨hash, rfl⟩
    · exact .of_kind (Nat.le_add_left _ _) ⟨hash, rfl⟩
    · exact .error (Nat.zero_le _)
  split
  · rename_i quote
    dsimp only
    split
    · rename_i closes
      obtain ⟨more, after⟩ := List.head?_eq_some_iff.mp closes
      have shape : rest = rest.take (stringBodyLength rest) ++ '"' :: more := by
        rw [← after, List.take_append_drop]
      have taken : rest.take (stringBodyLength rest + 1) =
          rest.take (stringBodyLength rest) ++ ['"'] := by
        rw [List.take_add, after]
        rfl
      have inside : stringBodyLength rest < rest.length := by
        have length := congrArg List.length after
        simp only [List.length_drop, List.length_cons] at length
        omega
      exact .of_kind inside ⟨quote, _, stringBody_take rest, taken⟩
    · exact .error (stringBodyLength_le rest)
  split
  · rename_i colon
    split
    · rename_i d more
      split
      · rename_i keyStart
        exact .of_kind (Nat.succ_le_succ (runLength_le _ _))
          ⟨colon, d, _, keyStart, all_take_runLength _ _, rfl⟩
      · exact .error (Nat.zero_le _)
    · exact .error (Nat.zero_le _)
  split
  · rename_i digit
    exact .of_kind (runLength_le _ _) ⟨all_take_runLength _ _, .inl digit⟩
  exact .error (Nat.zero_le _)

end Trampoline
