import Mathlib.Algebra.Group.Int.Defs
import Trampoline.Proofs.Lexing.Cover
import Trampoline.Proofs.Spelling.Forms

/-!
# Tokens that can not be read

A token offends by itself if it is an error, an integer that 64 bits do not hold, or a string with
an escape that is not known; a closing parenthesis offends where none is open. Every other token is
a parenthesis or denotes an atom.

What stands between the quotes of a string token expands, escape by escape, to one text at most. The
decoder comes to that text if all escapes are known, and to the first that is not if some is not. A
backslash with nothing behind it, which the decoder has a case for, can not be left over: in a token
each backslash has its character.

Parentheses balance if each is closed after it was opened. What stands on the stack of a reader are
the parentheses that are open: behind each of them the tokens balance up to the next.
-/

namespace Trampoline

/-! ## Balance -/

/-- How many parentheses the tokens open. -/
def opens (tokens : List Token) : Nat := tokens.countP fun token => token.kind = .openParen

/-- How many parentheses the tokens close. -/
def closes (tokens : List Token) : Nat := tokens.countP fun token => token.kind = .closeParen

/-- As many parentheses are closed as opened, and nowhere more were closed than opened. -/
structure Balanced (tokens : List Token) : Prop where
  ahead : ∀ before, before <+: tokens -> closes before ≤ opens before
  total : opens tokens = closes tokens

section Counts

variable (first second : List Token) (token : Token)

theorem opens_append : opens (first ++ second) = opens first + opens second :=
  List.countP_append

theorem closes_append : closes (first ++ second) = closes first + closes second :=
  List.countP_append

theorem opens_singleton : opens [token] = if token.kind = .openParen then 1 else 0 := by
  simp [opens, List.countP_cons]

theorem closes_singleton : closes [token] = if token.kind = .closeParen then 1 else 0 := by
  simp [closes, List.countP_cons]

end Counts

variable {first second tokens : List Token} {token opening closing : Token}

theorem Balanced.nil : Balanced [] where
  ahead before starts := by rw [List.prefix_nil.mp starts]; exact Nat.le_refl _
  total := rfl

/-- What comes first in two parts is some of the first, or all of it and some of the second. -/
theorem prefix_append_iff {before : List Token} :
    before <+: first ++ second ↔
      before <+: first ∨ ∃ more, before = first ++ more ∧ more <+: second := by
  constructor
  · rintro ⟨after, source⟩
    rcases List.append_eq_append_iff.mp source with ⟨more, rfl, -⟩ | ⟨more, rfl, starts⟩
    · exact .inl (List.prefix_append _ _)
    · exact .inr ⟨more, rfl, _, starts.symm⟩
  · rintro (starts | ⟨more, rfl, starts⟩)
    · exact starts.trans (List.prefix_append _ _)
    · exact (List.prefix_append_right_inj _).mpr starts

theorem Balanced.append (balanced : Balanced first) (balanced' : Balanced second) :
    Balanced (first ++ second) where
  ahead before starts := by
    rcases prefix_append_iff.mp starts with inside | ⟨more, rfl, later⟩
    · exact balanced.ahead before inside
    · rw [opens_append, closes_append, balanced.total]
      exact Nat.add_le_add_left (balanced'.ahead more later) _
  total := by rw [opens_append, closes_append, balanced.total, balanced'.total]

/-- A token that is no parenthesis. -/
theorem Balanced.single (noOpen : token.kind ≠ .openParen) (noClose : token.kind ≠ .closeParen) :
    Balanced [token] where
  ahead before starts := by
    have none : closes [token] = 0 := by rw [closes_singleton, if_neg noClose]
    rcases (List.prefix_concat_iff : before <+: [] ++ [token] ↔ _).mp starts with rfl | starts
    · exact none ▸ Nat.zero_le _
    · rw [List.prefix_nil.mp starts]
      exact Nat.le_refl _
  total := by rw [opens_singleton, closes_singleton, if_neg noOpen, if_neg noClose]

/-- Tokens in parentheses. -/
theorem Balanced.parens (opened : opening.kind = .openParen) (closed : closing.kind = .closeParen)
    (balanced : Balanced tokens) : Balanced (opening :: (tokens ++ [closing])) := by
  have one : opens [opening] = 1 ∧ closes [opening] = 0 := by
    simp [opens_singleton, closes_singleton, opened]
  have last : opens [closing] = 0 ∧ closes [closing] = 1 := by
    simp [opens_singleton, closes_singleton, closed]
  have total := balanced.total
  refine ⟨fun before starts => ?_, ?_⟩
  · rcases List.prefix_cons_iff.mp starts with rfl | ⟨inside, rfl, within⟩
    · exact Nat.le_refl _
    rw [← List.singleton_append, opens_append, closes_append, one.1, one.2]
    rcases List.prefix_concat_iff.mp within with rfl | within
    · rw [opens_append, closes_append, last.1, last.2]
      omega
    · have ahead := balanced.ahead inside within
      omega
  · rw [← List.singleton_append, opens_append, closes_append, opens_append, closes_append, one.1,
      one.2, last.1, last.2]
    omega

/-! ### Open parentheses -/

/-- The tokens leave the parentheses open at which the lists begin, innermost first, and no
others. -/
def LeaveOpen : List Token -> List Form.OpenList -> Prop
  | tokens, [] => Balanced tokens
  | tokens, inner :: outer => ∃ before opening after, tokens = before ++ opening :: after ∧
      opening.kind = .openParen ∧ opening.span.start = inner.start ∧ Balanced after ∧
        LeaveOpen before outer

variable {inner : Form.OpenList} {opened outer : List Form.OpenList}

/-- Only where the open lists begin matters. -/
theorem LeaveOpen.refill {items : List Form} (leave : LeaveOpen tokens (inner :: outer)) :
    LeaveOpen tokens (⟨inner.start, items⟩ :: outer) := leave

theorem LeaveOpen.append (leave : LeaveOpen first opened) (balanced : Balanced second) :
    LeaveOpen (first ++ second) opened := by
  cases opened with
  | nil => exact Balanced.append leave balanced
  | cons inner outer =>
    obtain ⟨before, opening, after, rfl, isOpen, start, balanced', outside⟩ := leave
    refine ⟨before, opening, after ++ second, ?_, isOpen, start, balanced'.append balanced, outside⟩
    rw [List.append_assoc, List.cons_append]

theorem LeaveOpen.push (leave : LeaveOpen tokens opened) (isOpen : opening.kind = .openParen) :
    LeaveOpen (tokens ++ [opening]) (⟨opening.span.start, []⟩ :: opened) :=
  ⟨tokens, opening, [], rfl, isOpen, rfl, .nil, leave⟩

/-- A closing parenthesis closes the innermost. -/
theorem LeaveOpen.pop (leave : LeaveOpen tokens (inner :: outer))
    (isClose : closing.kind = .closeParen) : LeaveOpen (tokens ++ [closing]) outer := by
  obtain ⟨before, opening, after, rfl, isOpen, start, balanced, outside⟩ := leave
  rw [List.append_assoc, List.cons_append]
  exact outside.append (.parens isOpen isClose balanced)

/-- The number of lists is the number of parentheses that are open. -/
theorem LeaveOpen.opens_eq (leave : LeaveOpen tokens opened) :
    opens tokens = closes tokens + opened.length := by
  induction opened generalizing tokens with
  | nil => exact Balanced.total leave
  | cons inner outer ih =>
    obtain ⟨before, opening, after, rfl, isOpen, start, balanced, outside⟩ := leave
    have outer := ih outside
    have inner := balanced.total
    have one : opens [opening] = 1 ∧ closes [opening] = 0 := by
      simp [opens_singleton, closes_singleton, isOpen]
    rw [← List.singleton_append, opens_append, closes_append, opens_append, closes_append, one.1,
      one.2, List.length_cons]
    omega

/-! ## Offences -/

/-- The characters that may stand behind a backslash in a string. -/
def escapeLetters : List Char := ['n', 't', 'r', '0', '"', '\\']

/-- The first character behind a backslash that may not stand there. -/
def strayEscape? : List Char -> Option Char
  | '\\' :: c :: rest => if c ∈ escapeLetters then strayEscape? rest else some c
  | _ :: rest => strayEscape? rest
  | [] => none

namespace Token

/-- What stands between the quotes of a string token. -/
def quoted (token : Token) : List Char := (token.text.toList.drop 1).dropLast

/-- What is wrong with a token wherever it stands. -/
def fault? (token : Token) : Option ParseFault :=
  match token.kind with
  | .error => some (.invalidToken token.text)
  | .int =>
    if -2 ^ 63 ≤ Form.signedValue token.text ∧ Form.signedValue token.text < 2 ^ 63 then none
    else some (.invalidInt token.text)
  | .str => (strayEscape? token.quoted).map .invalidEscape
  | _ => none

/-- What is wrong with a token behind these. -/
def offence? (before : List Token) (token : Token) : Option ParseFault :=
  if token.kind = .closeParen ∧ opens before ≤ closes before then some .unbalanced
  else token.fault?

/-- The atom that a token denotes. -/
inductive Denotes (token : Token) : Form -> Prop where
  | int (value : Int64) (kind : token.kind = .int)
      (number : value.toInt = Form.signedValue token.text) : Denotes token (.int token.span value)
  | str (value : String) (kind : token.kind = .str) (read : Quoted.read token.text = .ok value) :
      Denotes token (.str token.span value)
  | true (kind : token.kind = .true) : Denotes token (.bool token.span true)
  | false (kind : token.kind = .false) : Denotes token (.bool token.span false)
  | keyword (name : String) (kind : token.kind = .keyword) (text : token.text = ":" ++ name) :
      Denotes token (.keyword token.span name)
  | sym (kind : token.kind = .ident) : Denotes token (.sym token.span token.text)

/-- The text of the token is one of its kind. -/
def IsText (token : Token) : Prop :=
  token.kind ≠ .error -> token.text.toList ∈ token.kind.pattern

/-- What becomes of a token by itself. -/
inductive Reads (token : Token) : Except ParseFault (Option Form) -> Prop where
  | fault {fault : ParseFault} (wrong : token.fault? = some fault) : Reads token (.error fault)
  | paren (right : token.fault? = none)
      (paren : token.kind = .openParen ∨ token.kind = .closeParen) : Reads token (.ok none)
  | atom {form : Form} (right : token.fault? = none) (noOpen : token.kind ≠ .openParen)
      (noClose : token.kind ≠ .closeParen) (denotes : token.Denotes form)
      (noList : form.items? = none) : Reads token (.ok (some form))

theorem isText_of_mem {source : String} {token : Token} (member : token ∈ tokenize source) :
    token.IsText := by
  obtain ⟨-, after, -, scanned⟩ := tokensFrom_scanned 0 source.toList [] rfl token member
  exact fun noError => (scanned.longest noError).1

end Token

/-! ### Strings -/

variable {c : Char} {text : List Char}

theorem unescapeLetter?_eq_none : Quoted.unescapeLetter? c = none ↔ c ∉ escapeLetters := by
  simp only [Quoted.unescapeLetter?, escapeLetters, List.mem_cons, List.not_mem_nil, or_false,
    not_or]
  split_ifs <;> simp_all

/-- A string can be read if all its escapes are known; else the first that is not is reported. -/
theorem StringBody.decode (body : StringBody text) : match strayEscape? text with
    | none => ∃ value, Quoted.decode text = .ok value
    | some c => Quoted.decode text = .error c := by
  induction body with
  | nil => exact ⟨[], rfl⟩
  | @plain c rest plain body ih =>
    have noEscape : c ≠ '\\' := by simp_all [isPlain]
    have same : strayEscape? (c :: rest) = strayEscape? rest := by
      cases rest <;> simp [strayEscape?, noEscape]
    rw [same, Quoted.decode_plain noEscape]
    split at ih
    · obtain ⟨value, known⟩ := ih
      exact ⟨c :: value, by rw [known]; rfl⟩
    · rw [ih]
      rfl
  | @escape c rest inline body ih =>
    rw [strayEscape?, Quoted.decode]
    cases letter : Quoted.unescapeLetter? c with
    | none =>
      rw [if_neg (unescapeLetter?_eq_none.mp letter)]
    | some d =>
      have known : c ∈ escapeLetters := by
        by_contra unknown
        cases letter.symm.trans (unescapeLetter?_eq_none.mpr unknown)
      rw [if_pos known]
      split at ih
      · obtain ⟨value, known⟩ := ih
        exact ⟨d :: value, by rw [known]; rfl⟩
      · rw [ih]
        rfl

/-! ### Tokens by themselves -/

namespace Form

/-- The integer of a text, if 64 bits hold it. -/
theorem int64?_eq (text : String) :
    int64? text = if -2 ^ 63 ≤ signedValue text ∧ signedValue text < 2 ^ 63 then
      some (Int64.ofInt (signedValue text)) else none := by
  have least : Int64.minValue.toInt = -2 ^ 63 := rfl
  have most : Int64.maxValue.toInt = 2 ^ 63 - 1 := rfl
  simp only [int64?, least, most, Bool.and_eq_true, decide_eq_true_eq]
  refine if_congr ?_ rfl rfl
  omega

theorem toInt_ofInt {value : Int} (inside : -2 ^ 63 ≤ value ∧ value < 2 ^ 63) :
    (Int64.ofInt value).toInt = value :=
  Int64.toInt_ofInt_of_le inside.1 inside.2

variable {token : Token}

/-- The text of a string token is a body between quotes. -/
theorem stringBody_quoted (isText : token.IsText) (kind : token.kind = .str) :
    StringBody token.quoted := by
  have inside := isText (kind ▸ nofun)
  rw [kind] at inside
  cases text : token.text.toList with
  | nil => exact absurd (text ▸ inside) (nil_notMem_pattern (some .str))
  | cons c rest =>
    rw [text] at inside
    obtain ⟨-, body, isBody, rfl⟩ := (cons_mem_pattern (some .str)).mp inside
    simpa [Token.quoted, text] using isBody

/-- The text of a keyword is a colon and a name. -/
theorem keyword_text (isText : token.IsText) (kind : token.kind = .keyword) :
    token.text = ":" ++ String.ofList (token.text.toList.drop 1) := by
  have inside := isText (kind ▸ nofun)
  rw [kind] at inside
  cases text : token.text.toList with
  | nil => exact absurd (text ▸ inside) (nil_notMem_pattern (some .keyword))
  | cons c rest =>
    rw [text] at inside
    obtain ⟨rfl, -⟩ := (cons_mem_pattern (some .keyword)).mp inside
    rw [← String.toList_inj, text]
    simp

/-- A token by itself is a parenthesis, denotes an atom, or has something wrong with it. -/
theorem ofAtom_reads (isText : token.IsText) : token.Reads (ofAtom token) := by
  obtain ⟨kind, text, span⟩ := token
  cases kind with
  | openParen => exact .paren rfl (.inl rfl)
  | closeParen => exact .paren rfl (.inr rfl)
  | true => exact .atom rfl nofun nofun (.true rfl) rfl
  | false => exact .atom rfl nofun nofun (.false rfl) rfl
  | ident => exact .atom rfl nofun nofun (.sym rfl) rfl
  | error => exact .fault rfl
  | keyword => exact .atom rfl nofun nofun (.keyword _ rfl (keyword_text isText rfl)) rfl
  | int =>
    simp only [ofAtom, int64?_eq]
    by_cases inside : -2 ^ 63 ≤ signedValue text ∧ signedValue text < 2 ^ 63
    · rw [if_pos inside]
      exact .atom (if_pos inside) nofun nofun (.int _ rfl (toInt_ofInt inside)) rfl
    · rw [if_neg inside]
      exact .fault (if_neg inside)
  | str =>
    have decoded := (stringBody_quoted isText rfl).decode
    have read : Quoted.read text =
        (Quoted.decode (Token.quoted ⟨.str, text, span⟩)).map String.ofList := rfl
    simp only [ofAtom]
    split at decoded
    · rename_i none
      obtain ⟨value, known⟩ := decoded
      have value' : Quoted.read text = .ok (String.ofList value) := by rw [read, known]; rfl
      rw [value']
      refine .atom ?_ nofun nofun (.str _ rfl value') rfl
      simp [Token.fault?, none]
    · rename_i c stray
      have unknown : Quoted.read text = .error c := by rw [read, decoded]; rfl
      rw [unknown]
      refine .fault ?_
      simp [Token.fault?, stray]

end Form

/-! ## Decoding -/

namespace Quoted

/-- The letters of the known escapes, and the characters they stand for. -/
def escapes : List (Char × Char) :=
  [('n', '\n'), ('t', '\t'), ('r', '\r'), ('0', '\x00'), ('"', '"'), ('\\', '\\')]

/-- The text expands to the value, from left to right: a backslash and a letter to what the letter
stands for, any other character to itself. -/
inductive Expands : (text value : List Char) -> Prop
  | nil : Expands [] []
  | plain {c : Char} {text value : List Char} (noEscape : c ≠ '\\') (rest : Expands text value) :
      Expands (c :: text) (c :: value)
  | escape {letter c : Char} {text value : List Char} (known : (letter, c) ∈ escapes)
      (rest : Expands text value) : Expands ('\\' :: letter :: text) (c :: value)

/-- Behind what expands, the character stands after a backslash, and may not stand there. -/
def Strays (text : List Char) (c : Char) : Prop :=
  ∃ before value after, text = before ++ '\\' :: c :: after ∧ Expands before value ∧
    c ∉ escapeLetters

/-- Behind what expands, there is a backslash and nothing else. -/
def Dangles (text : List Char) : Prop :=
  ∃ before value, text = before ++ ['\\'] ∧ Expands before value

/-! ### What the decoder comes to -/

variable {letter c : Char} {rest text : List Char} {result : Except Char (List Char)}

theorem mem_escapes : (letter, c) ∈ escapes ↔ unescapeLetter? letter = some c := by
  simp only [escapes, List.mem_cons, List.not_mem_nil, or_false, Prod.mk.injEq, unescapeLetter?]
  split_ifs <;> simp_all [eq_comm]

namespace Expands

variable {text value : List Char}

/-- What can be expanded is decoded as that, whatever comes behind it. -/
theorem decode_append (expands : Expands text value) (rest : List Char) :
    decode (text ++ rest) = (decode rest).map (value ++ ·) := by
  induction expands with
  | nil =>
    rw [List.nil_append]
    cases decode rest <;> rfl
  | plain noEscape _ ih =>
    rw [List.cons_append, decode_plain noEscape, ih]
    cases decode rest <;> rfl
  | escape known _ ih =>
    rw [List.cons_append, List.cons_append, decode, mem_escapes.mp known]
    dsimp only
    rw [ih]
    cases decode rest <;> rfl

theorem decode_eq (expands : Expands text value) : decode text = .ok value := by
  have whole := expands.decode_append []
  rwa [List.append_nil, decode, Except.map, List.append_nil] at whole

end Expands

/-- What the decoder comes to: the value of the text, or what stands behind the first backslash at
which the text does not expand. -/
inductive Decoding (text : List Char) : Except Char (List Char) -> Prop
  | value {value : List Char} (expands : Expands text value) : Decoding text (.ok value)
  | stray {c : Char} (strays : Strays text c) : Decoding text (.error c)
  | dangling (dangles : Dangles text) : Decoding text (.error '\\')

/-- A character other than a backslash stands for itself. -/
theorem Decoding.plain (noEscape : c ≠ '\\') (decoding : Decoding rest result) :
    Decoding (c :: rest) (result.map (c :: ·)) := by
  cases decoding with
  | value expands => exact .value (.plain noEscape expands)
  | stray strays =>
    obtain ⟨before, value, after, rfl, expands, unknown⟩ := strays
    exact .stray ⟨c :: before, _, after, rfl, .plain noEscape expands, unknown⟩
  | dangling dangles =>
    obtain ⟨before, value, rfl, expands⟩ := dangles
    exact .dangling ⟨c :: before, _, rfl, .plain noEscape expands⟩

/-- A letter behind a backslash stands for its character. -/
theorem Decoding.escape (known : (letter, c) ∈ escapes) (decoding : Decoding rest result) :
    Decoding ('\\' :: letter :: rest) (result.map (c :: ·)) := by
  cases decoding with
  | value expands => exact .value (.escape known expands)
  | stray strays =>
    obtain ⟨before, value, after, rfl, expands, unknown⟩ := strays
    exact .stray ⟨'\\' :: letter :: before, _, after, rfl, .escape known expands, unknown⟩
  | dangling dangles =>
    obtain ⟨before, value, rfl, expands⟩ := dangles
    exact .dangling ⟨'\\' :: letter :: before, _, rfl, .escape known expands⟩

/-- Decoding does what is described, for every text. -/
theorem decoding (text : List Char) : Decoding text (decode text) := by
  fun_induction decode text with
  | case1 => exact .value .nil
  | case2 => exact .dangling ⟨[], [], rfl, .nil⟩
  | case3 letter rest unknown =>
    exact .stray ⟨[], [], rest, rfl, .nil, unescapeLetter?_eq_none.mp unknown⟩
  | case4 letter rest c known ih => exact .escape (mem_escapes.mpr known) ih
  | case5 c rest noLast noEscape ih =>
    have plain : c ≠ '\\' := by
      rintro rfl
      cases rest with
      | nil => exact noLast rfl rfl
      | cons letter rest => exact noEscape letter rest rfl rfl
    exact .plain plain ih

theorem Strays.decode_eq (strays : Strays text c) : decode text = .error c := by
  obtain ⟨before, value, after, rfl, expands, unknown⟩ := strays
  rw [expands.decode_append, decode, unescapeLetter?_eq_none.mpr unknown]
  rfl

theorem decode_ok {value : List Char} : decode text = .ok value ↔ Expands text value := by
  refine ⟨fun ends => ?_, Expands.decode_eq⟩
  cases ends ▸ decoding text with
  | value expands => exact expands

end Quoted

/-! ### String tokens -/

/-- Where each backslash has its character, none is left over. -/
theorem StringBody.not_dangles (body : StringBody text) : ¬ Quoted.Dangles text := by
  rintro ⟨before, value, shape, expands⟩
  induction body generalizing before value with
  | nil => simp at shape
  | @plain c rest plain body ih =>
    cases expands with
    | nil =>
      cases shape
      simp [isPlain] at plain
    | plain _ expands => exact ih _ _ (List.cons.inj shape).2 expands
    | escape =>
      obtain ⟨rfl, -⟩ := List.cons.inj shape
      simp [isPlain] at plain
  | @escape c rest inline body ih =>
    cases expands with
    | nil => cases shape
    | plain noEscape => exact noEscape (List.cons.inj shape).1.symm
    | escape known expands =>
      obtain ⟨-, shape⟩ := List.cons.inj shape
      exact ih _ _ (List.cons.inj shape).2 expands

/-- The body of a string fails to decode at its first stray escape. -/
theorem StringBody.decode_error (body : StringBody text) :
    Quoted.decode text = .error c ↔ Quoted.Strays text c := by
  refine ⟨fun fails => ?_, Quoted.Strays.decode_eq⟩
  cases fails ▸ Quoted.decoding text with
  | stray strays => exact strays
  | dangling dangles => exact (body.not_dangles dangles).elim

namespace Token

variable {token : Token}

/-- A string token has its quotes around what stands between them. -/
theorem text_of_str (isText : token.IsText) (kind : token.kind = .str) :
    token.text.toList = '"' :: (token.quoted ++ ['"']) := by
  have inside := isText (kind ▸ nofun)
  rw [kind] at inside
  cases text : token.text.toList with
  | nil => exact absurd (text ▸ inside) (nil_notMem_pattern (some .str))
  | cons c rest =>
    rw [text] at inside
    obtain ⟨rfl, body, -, rfl⟩ := (cons_mem_pattern (some .str)).mp inside
    simp [Token.quoted, text]

end Token

/-- In every string token of every source, what is decoded stands between the first and the last
byte, and no backslash is left over in it. Decoding fails with a character if it is the first behind
a backslash that may not stand there, and comes to a text if the string expands to it; if no
character fails, there is exactly one such text. A text without characters that are written by their
code point is written as one string token, which is read as the text again. -/
theorem strings_decode :
    (∀ (source : String), ∀ token ∈ tokenize source, token.kind = .str ->
      Stands token.text.toList ⟨1, byteLength token.text.toList - 1⟩ token.quoted ['"'] ∧
      ¬ Quoted.Dangles token.quoted ∧
      (∀ c, Quoted.read token.text = .error c ↔ Quoted.Strays token.quoted c) ∧
      (∀ value, Quoted.read token.text = .ok value ↔ Quoted.Expands token.quoted value.toList) ∧
      ((∃ c, Quoted.Strays token.quoted c) ∨
        ∃! value : String, Quoted.Expands token.quoted value.toList)) ∧
    ∀ text : String, text.toList.any Quoted.byCode = false ->
      tokenize (Quoted.write text) =
        [⟨.str, Quoted.write text, ⟨0, byteLength (Quoted.write text).toList⟩⟩] ∧
      Quoted.read (Quoted.write text) = .ok text := by
  constructor
  · intro source token member kind
    have isText := Token.isText_of_mem member
    have body := Form.stringBody_quoted isText kind
    have error (c : Char) : Quoted.read token.text = .error c ↔ Quoted.Strays token.quoted c := by
      rw [← body.decode_error, Quoted.read, ← Token.quoted]
      cases Quoted.decode token.quoted <;> simp [Except.map]
    have ok (value : String) :
        Quoted.read token.text = .ok value ↔ Quoted.Expands token.quoted value.toList := by
      rw [← Quoted.decode_ok, Quoted.read, ← Token.quoted]
      cases Quoted.decode token.quoted <;> simp [Except.map, ← String.toList_inj]
    refine ⟨⟨['"'], Token.text_of_str isText kind, ?_⟩, body.not_dangles, error, ok, ?_⟩
    · have quote : '"'.utf8Size = 1 := rfl
      simp only [Token.text_of_str isText kind, byteLength, byteLength_append,
        List.singleton_append, quote]
      congr 1
    · cases read : Quoted.read token.text with
      | error c => exact .inl ⟨c, (error c).mp read⟩
      | ok value =>
        refine .inr ⟨value, (ok value).mp read, fun other expands => ?_⟩
        exact Except.ok.inj (((ok other).mpr expands).symm.trans read)
  · intro text plain
    constructor
    · have isToken : IsToken .str ('"' :: (Quoted.encode text.toList ++ ['"'])) [] :=
        isToken_quoted text.toList
      have one := tokensFrom_token isToken 0
      rw [List.append_nil, ← Quoted.write_eq, Nat.zero_add] at one
      rw [tokenize, Quoted.write_eq, String.toList_ofList, one, ← Quoted.write_eq, tokensFrom]
    · rw [Quoted.read_write, plain]
      rfl

/-- A backslash before a quote, and a zero before a digit. -/
theorem strings_decode_escapes : ("\\\"\x001".toList.any Quoted.byCode = false) ∧
    Quoted.write "\\\"\x001" = "\"\\\\\\\"\\01\"" ∧
    ∃ token ∈ tokenize (Quoted.write "\\\"\x001"), token.kind = .str ∧
      Quoted.Expands token.quoted "\\\"\x001".toList ∧ ∀ c, ¬ Quoted.Strays token.quoted c := by
  have plain : "\\\"\x001".toList.any Quoted.byCode = false := by decide +kernel
  obtain ⟨one, read⟩ := strings_decode.2 _ plain
  have member := List.mem_of_mem_head? (congrArg List.head? one)
  obtain ⟨-, -, error, ok, -⟩ := strings_decode.1 _ _ member rfl
  refine ⟨plain, by decide +kernel, _, member, rfl, (ok _).mp read, fun c strays => ?_⟩
  cases ((error c).mpr strays).symm.trans read

end Trampoline
