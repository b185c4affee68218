import Trampoline.Surface.Form
import Trampoline.Surface.Token
import Trampoline.Text.Quoted

/-!
# Texts of single tokens

What the scanner makes of the text of one token, whatever stands around it. A name, a keyword or an
integer is cut where the next character can not belong to it; a quoted text and a parenthesis end by
themselves. Between its quotes a text is one string token, whatever it holds, and it reads back as
itself exactly if no character of it had to be written by its code point.
-/

/-! ## Quoted texts -/

namespace Trampoline.Quoted

/-- The character is written by its code point, which no reader knows. -/
def byCode (c : Char) : Bool := (escapeLetter? c).isNone && isHidden c

/-- A character is written by a letter, by its code point, or as it is. -/
inductive Encoding (c : Char) : Prop where
  | letter (letter : Char) (written : encodeChar c = ['\\', letter])
      (read : unescapeLetter? letter = some c) (oneLine : letter ≠ '\n') (shown : byCode c = false)
  | code (written : encodeChar c = ['\\', 'u', '\x7b'] ++ Nat.toDigits 16 c.toNat ++ ['\x7d'])
      (coded : byCode c = true)
  | plain (written : encodeChar c = [c]) (noQuote : c ≠ '"') (noEscape : c ≠ '\\')
      (shown : byCode c = false)

/-- Every character is encoded in one of the ways described. -/
theorem encoding (c : Char) : Encoding c := by
  cases letter : escapeLetter? c with
  | some l =>
    have shown : byCode c = false := by simp [byCode, letter]
    have written : encodeChar c = ['\\', l] := by simp [encodeChar, letter]
    have ways : unescapeLetter? l = some c ∧ l ≠ '\n' := by
      unfold escapeLetter? at letter
      repeat' split at letter
      all_goals cases letter
      all_goals
        subst_vars
        decide
    exact .letter l written ways.1 ways.2 shown
  | none =>
    by_cases hidden : isHidden c = true
    · exact .code (by simp [encodeChar, letter, hidden]) (by simp [byCode, letter, hidden])
    · refine .plain (by simp [encodeChar, letter, hidden]) ?_ ?_ (by simp [byCode, hidden])
      · rintro rfl
        cases letter
      · rintro rfl
        cases letter

/-! ## Reading -/

variable {c : Char}

/-- A character other than a backslash is decoded as itself. -/
theorem decode_plain (noEscape : c ≠ '\\') (rest : List Char) :
    decode (c :: rest) = (decode rest).map (c :: ·) := by
  rw [decode]
  · rintro rfl
    exact absurd rfl noEscape
  · rintro _ _ rfl
    exact absurd rfl noEscape

/-- What is encoded without a code point is decoded as it was. -/
theorem decode_encodeChar (shown : byCode c = false) (rest : List Char) :
    decode (encodeChar c ++ rest) = (decode rest).map (c :: ·) := by
  cases encoding c with
  | letter letter written read =>
    rw [written]
    show decode ('\\' :: letter :: rest) = _
    rw [decode, read]
  | code written coded => cases shown.symm.trans coded
  | plain written noQuote noEscape =>
    rw [written]
    exact decode_plain noEscape rest

/-- What is encoded by its code point can not be decoded. -/
theorem decode_byCode (coded : byCode c = true) (rest : List Char) :
    decode (encodeChar c ++ rest) = .error 'u' := by
  cases encoding c with
  | code written =>
    rw [written]
    rfl
  | letter _ _ _ _ shown | plain _ _ _ shown => cases shown.symm.trans coded

/-- What was written reads back, unless some character was written by its code point. -/
theorem decode_encode (text : List Char) :
    decode (encode text) = if text.any byCode then .error 'u' else .ok text := by
  induction text with
  | nil => rfl
  | cons c rest ih =>
    rw [encode, List.flatMap_cons, ← encode]
    cases coded : byCode c with
    | true => simp [decode_byCode coded, coded]
    | false =>
      rw [decode_encodeChar coded, ih, List.any_cons, coded, Bool.false_or]
      split <;> rfl

/-- A string is written between quotes. -/
theorem write_eq (text : String) :
    write text = String.ofList ('"' :: (encode text.toList ++ ['"'])) := by
  rw [← String.toList_inj, String.toList_ofList]
  simp [write]

/-- What is written is read as it was unless a character is written by its code point. -/
theorem read_write (text : String) :
    read (write text) = if text.toList.any byCode then .error 'u' else .ok text := by
  have between : ((write text).toList.drop 1).dropLast = encode text.toList := by
    simp [write]
  rw [read, between, decode_encode]
  split
  · rfl
  · simp [Except.map]

/-! ## The string token -/

/-- A plain character belongs to the body of a string. -/
theorem stringBodyLength_plain (noQuote : c ≠ '"') (noEscape : c ≠ '\\')
    (rest : List Char) : stringBodyLength (c :: rest) = stringBodyLength rest + 1 := by
  cases rest with
  | nil => simp [stringBodyLength, noQuote, noEscape]
  | cons d rest => simp [stringBodyLength, noQuote, noEscape]

/-- Plain characters belong to the body of a string. -/
theorem stringBodyLength_append {text : List Char}
    (plain : ∀ c ∈ text, c ≠ '"' ∧ c ≠ '\\') (rest : List Char) :
    stringBodyLength (text ++ rest) = stringBodyLength rest + text.length := by
  induction text with
  | nil => rfl
  | cons c text ih =>
    obtain ⟨⟨noQuote, noEscape⟩, others⟩ := List.forall_mem_cons.mp plain
    rw [List.cons_append, stringBodyLength_plain noQuote noEscape, ih others, List.length_cons]
    rfl

/-- Digits are characters for numbers below the base. -/
theorem eq_digitChar_of_mem_toDigits {base n : Nat} (more : 1 < base)
    (member : c ∈ Nat.toDigits base n) : ∃ digit : Nat, c = digit.digitChar := by
  induction n using Nat.strongRecOn with
  | ind n ih =>
    rw [Nat.toDigits_eq_if more] at member
    split at member
    · exact ⟨n, List.mem_singleton.mp member⟩
    · rename_i large
      rcases List.mem_append.mp member with member | member
      · exact ih (n / base) (Nat.div_lt_self (by omega) more) member
      · exact ⟨_, List.mem_singleton.mp member⟩

/-- An encoded character belongs to the body of a string, escapes and all. -/
theorem stringBodyLength_encodeChar (c : Char) (rest : List Char) :
    stringBodyLength (encodeChar c ++ rest) =
      stringBodyLength rest + (encodeChar c).length := by
  cases encoding c with
  | letter letter written read oneLine =>
    rw [written]
    simp [stringBodyLength, oneLine]
  | code written =>
    have plain : ∀ d ∈ ['\x7b'] ++ Nat.toDigits 16 c.toNat ++ ['\x7d'], d ≠ '"' ∧ d ≠ '\\' := by
      intro d member
      simp only [List.append_assoc, List.mem_append, List.mem_singleton] at member
      rcases member with rfl | member | rfl
      · decide
      · obtain ⟨digit, rfl⟩ := eq_digitChar_of_mem_toDigits (by decide) member
        exact ⟨Nat.digitChar_ne _ (by decide), Nat.digitChar_ne _ (by decide)⟩
      · decide
    have opened : encodeChar c ++ rest =
        '\\' :: 'u' :: (['\x7b'] ++ Nat.toDigits 16 c.toNat ++ ['\x7d'] ++ rest) := by
      rw [written]
      simp
    have escape (more : List Char) :
        stringBodyLength ('\\' :: 'u' :: more) = stringBodyLength more + 2 := by
      simp [stringBodyLength]
    rw [opened, escape, stringBodyLength_append plain, written]
    simp
    omega
  | plain written noQuote noEscape =>
    rw [written]
    exact stringBodyLength_plain noQuote noEscape rest

/-- The token of a quoted text ends with its last quote. -/
theorem stringBodyLength_encode (text rest : List Char) :
    stringBodyLength (encode text ++ '"' :: rest) = (encode text).length := by
  have closes : stringBodyLength ('"' :: rest) = 0 := by
    cases rest <;> simp [stringBodyLength]
  induction text with
  | nil => exact closes
  | cons c text ih =>
    rw [encode, List.flatMap_cons, ← encode, List.append_assoc, stringBodyLength_encodeChar, ih,
      List.length_append, Nat.add_comm]

end Trampoline.Quoted

/-! ## Tokens in a text -/

namespace Trampoline

/-! ## Characters -/

/-- No other token starts with the character, and nothing between tokens does. -/
structure Wordy (c : Char) : Prop where
  noBlank : isBlank c = false
  noComment : c ≠ ';'
  noOpen : c ≠ '('
  noClose : c ≠ ')'
  noHash : c ≠ '#'
  noQuote : c ≠ '"'
  noColon : c ≠ ':'

variable {c : Char} {inClass : Char -> Bool} {body : List Char}

/-- What goes on in names is no blank, quote or parenthesis. -/
theorem isIdentPart_wordy (part : isIdentPart c = true) : Wordy c := by
  constructor
  case noBlank =>
    rw [← Bool.not_eq_true]
    intro blank
    simp only [isBlank, Bool.or_eq_true, decide_eq_true_eq] at blank
    rcases blank with (((rfl | rfl) | rfl) | rfl) | rfl <;> revert part <;> decide
  all_goals
    rintro rfl
    revert part
    decide

theorem isIdentPart_of_isIdentStart (starts : isIdentStart c = true) : isIdentPart c = true := by
  simp [isIdentPart, starts]

theorem isIdentPart_of_isDigit (digit : isDigit c = true) : isIdentPart c = true := by
  simp [isIdentPart, digit]

/-- No digit begins a name. -/
theorem isDigit_of_isIdentStart (starts : isIdentStart c = true) : isDigit c = false := by
  rw [← Bool.not_eq_true]
  intro digit
  have bounds : '0' ≤ c ∧ c ≤ '9' := by simpa [isDigit] using digit
  simp only [isIdentStart, isKeywordStart, Bool.or_eq_true, Bool.and_eq_true,
    decide_eq_true_eq] at starts
  have letter {low : Char} (above : low ≤ c) (after : ¬ low ≤ '9') : False :=
    after (Char.le_trans above bounds.2)
  rcases starts with ((((((((((((⟨low, -⟩ | ⟨low, -⟩) | rfl) | rfl) | rfl) | rfl) | rfl) | rfl) |
    rfl) | rfl) | rfl) | rfl) | rfl)
  · exact letter low (by decide)
  · exact letter low (by decide)
  all_goals
    revert bounds
    decide

theorem isDigit_eq (c : Char) : isDigit c = c.isDigit := by
  simp [isDigit, Char.isDigit, Char.le_def]

/-! ## Lengths of runs -/

/-- Nothing at the start of the text can belong to a word before it. -/
def Delimits (rest : List Char) : Prop := ∀ c, rest.head? = some c -> isIdentPart c = false

theorem delimits_nil : Delimits [] := nofun

theorem delimits_cons (part : isIdentPart c = false) (rest : List Char) : Delimits (c :: rest) := by
  rintro _ ⟨⟩
  exact part

/-- What ends a token is no digit. -/
theorem Delimits.noDigit {rest : List Char} (delimits : Delimits rest) (c : Char)
    (head : rest.head? = some c) : isDigit c = false := by
  rw [← Bool.not_eq_true]
  intro digit
  cases (delimits c head).symm.trans (isIdentPart_of_isDigit digit)

/-- A run of characters ends before one of another class. -/
theorem takeWhile_stops {rest : List Char}
    (stops : ∀ c, rest.head? = some c -> inClass c = false) : rest.takeWhile inClass = [] := by
  cases rest with
  | nil => rfl
  | cons c rest => simp [stops c rfl]

/-- A run is as long as its characters if another class follows. -/
theorem runLength_append {rest : List Char}
    (all : body.all inClass = true) (stops : ∀ c, rest.head? = some c -> inClass c = false) :
    runLength inClass (body ++ rest) = body.length := by
  rw [runLength, List.takeWhile_append_of_pos (List.all_eq_true.mp all), takeWhile_stops stops,
    List.append_nil]

/-- The run of a longer text is that of the part before the other class. -/
theorem runLength_append_of_stops {rest : List Char}
    (stops : ∀ c, rest.head? = some c -> inClass c = false) :
    runLength inClass (body ++ rest) = (body.takeWhile inClass).length := by
  rw [runLength, List.takeWhile_append]
  split
  · rename_i whole
    rw [takeWhile_stops stops, List.append_nil, whole]
  · rfl

/-! ## Tokens -/

/-- Before this rest, the text is one token. -/
def IsToken (kind : TokenKind) (text rest : List Char) : Prop :=
  ∃ c body, text = c :: body ∧ lexemeAt c (body ++ rest) = ⟨some kind, body.length⟩

/-- A token is scanned first, and the rest behind it. -/
theorem tokensFrom_token {kind : TokenKind} {text rest : List Char}
    (isToken : IsToken kind text rest) (offset : Nat) :
    tokensFrom offset (text ++ rest) =
      ⟨kind, String.ofList text, ⟨offset, offset + byteLength text⟩⟩ ::
        tokensFrom (offset + byteLength text) rest := by
  obtain ⟨c, body, rfl, lexeme⟩ := isToken
  rw [List.cons_append, tokensFrom, lexeme]
  simp only [List.take_left, List.drop_left]

attribute [local simp] lexemeAt

/-- What stands between tokens can be passed character by character. -/
theorem tokensFrom_blank (blank : isBlank c = true) (offset : Nat) (rest : List Char) :
    tokensFrom offset (c :: rest) = tokensFrom (offset + c.utf8Size) rest := by
  have skips (offset : Nat) (c : Char) (rest : List Char) (blank : isBlank c = true) :
      tokensFrom offset (c :: rest) =
        tokensFrom (offset + byteLength (c :: rest.take (runLength isBlank rest)))
          (rest.drop (runLength isBlank rest)) := by
    rw [tokensFrom]
    simp [blank]
  rw [skips offset c rest blank]
  cases rest with
  | nil => simp [runLength, byteLength]
  | cons d more =>
    by_cases more' : isBlank d = true
    · rw [skips _ d more more']
      simp [runLength, more', byteLength, Nat.add_assoc]
    · simp [runLength, more', byteLength]

variable {text rest : List Char}

theorem isToken_open : IsToken .openParen ['('] rest := ⟨'(', [], rfl, rfl⟩

theorem isToken_close : IsToken .closeParen [')'] rest := ⟨')', [], rfl, rfl⟩

theorem isToken_true : IsToken .true ['#', 't'] rest := ⟨'#', ['t'], rfl, rfl⟩

theorem isToken_false : IsToken .false ['#', 'f'] rest := ⟨'#', ['f'], rfl, rfl⟩

/-- The lexeme at a character that only words start with. -/
theorem Wordy.lexemeAt_eq (wordy : Wordy c) (rest : List Char) : lexemeAt c rest =
      if isDigit c then ⟨some .int, runLength isDigit rest⟩
      else if isIdentStart c then
        if (c = '+' || c = '-') && 0 < runLength isDigit rest &&
            runLength isDigit rest = runLength isIdentPart rest then
          ⟨some .int, runLength isDigit rest⟩
        else ⟨some .ident, runLength isIdentPart rest⟩
      else ⟨some .error, 0⟩ := by
  simp only [lexemeAt, wordy.noBlank, wordy.noComment, wordy.noOpen, wordy.noClose, wordy.noHash,
    wordy.noQuote, wordy.noColon, if_false, Bool.false_eq_true]

/-- A quoted text is one token, whatever it holds. -/
theorem isToken_quoted (quoted : List Char) :
    IsToken .str ('"' :: (Quoted.encode quoted ++ ['"'])) rest := by
  refine ⟨'"', _, rfl, ?_⟩
  have body := Quoted.stringBodyLength_encode quoted rest
  simp [isBlank, body]

/-- The text of a name: no sign before nothing but digits. -/
def isSymbolText : List Char -> Bool
  | [] => false
  | c :: body => isIdentStart c && body.all isIdentPart &&
    !((c = '+' || c = '-') && !body.isEmpty && body.all isDigit)

/-- The text of a symbol is a token before what ends one. -/
theorem isToken_symbol (isSymbol : isSymbolText text = true) (delimits : Delimits rest) :
    IsToken .ident text rest := by
  cases text with
  | nil => cases isSymbol
  | cons c body =>
    simp only [isSymbolText, Bool.and_eq_true, Bool.not_eq_true'] at isSymbol
    obtain ⟨⟨starts, parts⟩, noInt⟩ := isSymbol
    have wordy := isIdentPart_wordy (isIdentPart_of_isIdentStart starts)
    have part : runLength isIdentPart (body ++ rest) = body.length :=
      runLength_append parts delimits
    have digits : ¬(((c = '+' || c = '-') && 0 < runLength isDigit (body ++ rest) &&
        runLength isDigit (body ++ rest) = body.length : Bool) = true) := by
      rw [runLength_append_of_stops delimits.noDigit]
      simp only [Bool.and_eq_true, decide_eq_true_eq]
      rintro ⟨⟨sign, longer⟩, whole⟩
      have same : body.takeWhile isDigit = body := (List.takeWhile_prefix _).eq_of_length whole
      have all : body.all isDigit = true := by
        rw [← same]
        exact List.all_takeWhile
      have some : body.isEmpty = false := by
        rw [same] at longer
        simpa using List.ne_nil_of_length_pos longer
      simp [sign, some, all] at noInt
    refine ⟨c, body, rfl, ?_⟩
    rw [wordy.lexemeAt_eq, isDigit_of_isIdentStart starts, if_neg Bool.false_ne_true, if_pos starts,
      part, if_neg digits]

/-- The text of a keyword after its colon. -/
def isKeywordText : List Char -> Bool
  | [] => false
  | c :: body => isKeywordStart c && body.all isIdentPart

/-- The text of a keyword is a token before what ends one. -/
theorem isToken_keyword (isKeyword : isKeywordText text = true) (delimits : Delimits rest) :
    IsToken .keyword (':' :: text) rest := by
  cases text with
  | nil => cases isKeyword
  | cons c body =>
    simp only [isKeywordText, Bool.and_eq_true] at isKeyword
    obtain ⟨starts, parts⟩ := isKeyword
    refine ⟨':', c :: body, rfl, ?_⟩
    show (if isKeywordStart c then ⟨some .keyword, runLength isIdentPart (body ++ rest) + 1⟩
      else ⟨some .error, 0⟩ : Lexeme) = _
    rw [if_pos starts, runLength_append parts delimits, List.length_cons]

/-- Digits, maybe after a minus. -/
theorem isToken_digits (digits : text.all isDigit = true) (some : text ≠ [])
    (delimits : Delimits rest) : IsToken .int text rest := by
  cases text with
  | nil => exact absurd rfl some
  | cons c body =>
    simp only [List.all_cons, Bool.and_eq_true] at digits
    have wordy := isIdentPart_wordy (isIdentPart_of_isDigit digits.1)
    refine ⟨c, body, rfl, ?_⟩
    rw [wordy.lexemeAt_eq, if_pos digits.1, runLength_append digits.2 delimits.noDigit]

/-- Digits behind a minus sign are an integer before what ends a token. -/
theorem isToken_minus (digits : text.all isDigit = true) (some : text ≠ [])
    (delimits : Delimits rest) : IsToken .int ('-' :: text) rest := by
  refine ⟨'-', text, rfl, ?_⟩
  have parts : text.all isIdentPart = true :=
    List.all_eq_true.mpr fun c member =>
      isIdentPart_of_isDigit (List.all_eq_true.mp digits c member)
  have part : runLength isIdentPart (text ++ rest) = text.length := runLength_append parts delimits
  have run : runLength isDigit (text ++ rest) = text.length :=
    runLength_append digits delimits.noDigit
  have long : 0 < text.length := List.length_pos_iff.mpr some
  have wordy : Wordy '-' := isIdentPart_wordy (by decide)
  rw [wordy.lexemeAt_eq, part, run, if_neg (by decide), if_pos (by decide), if_pos (by simp [long])]

/-! ## Integers -/

/-- Decimal digits are digits. -/
theorem toDigits_all (n : Nat) : (Nat.toDigits 10 n).all isDigit = true := by
  refine List.all_eq_true.mpr fun c member => ?_
  rw [isDigit_eq]
  exact Nat.isDigit_of_mem_toDigits (by decide) (by decide) member

theorem toList_toString (value : Int) : (toString value).toList =
    if 0 ≤ value then Nat.toDigits 10 value.toNat else '-' :: Nat.toDigits 10 (-value).toNat := by
  rw [Int.toString_eq_repr, Int.repr_eq_if]
  split <;> simp

/-- The text of an integer is a token before what ends one. -/
theorem isToken_int (value : Int) (delimits : Delimits rest) :
    IsToken .int (toString value).toList rest := by
  rw [toList_toString]
  split
  · exact isToken_digits (toDigits_all _) Nat.toDigits_ne_nil delimits
  · exact isToken_minus (toDigits_all _) Nat.toDigits_ne_nil delimits

namespace Form

theorem digitsValue_toDigits (n : Nat) : digitsValue (Nat.toDigits 10 n) = n :=
  Nat.ofDigitChars_toDigits (by decide) (by decide)

/-- Digits without a sign have their value. -/
theorem signedValue_digits {digits : List Char} (all : digits.all isDigit = true) :
    signedValue (String.ofList digits) = digitsValue digits := by
  rw [signedValue, String.toList_ofList]
  split
  · simp [isDigit] at all
  · simp [isDigit] at all
  · rfl

/-- The text of an integer has its value. -/
theorem signedValue_toString (value : Int) : signedValue (toString value) = value := by
  rw [← String.ofList_toList (s := toString value), toList_toString]
  split
  · rw [signedValue_digits (toDigits_all _), digitsValue_toDigits]
    omega
  · rw [signedValue, String.toList_ofList]
    simp only [digitsValue_toDigits]
    omega

/-- An integer of 64 bits reads back as itself. -/
theorem int64?_toString (value : Int64) : int64? (toString value.toInt) = some value := by
  have inside :
    (Int64.minValue.toInt ≤ value.toInt && value.toInt ≤ Int64.maxValue.toInt) = true := by
    simp only [Bool.and_eq_true, decide_eq_true_eq]
    exact ⟨Int64.minValue_le_toInt value, Int64.toInt_le value⟩
  rw [int64?, signedValue_toString]
  simp only [inside, if_true, Int64.ofInt_toInt]

end Form

end Trampoline
