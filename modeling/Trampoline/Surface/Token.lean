import Trampoline.Text.Span

/-!
# Tokens

The lexical grammar. A text is cut into lexemes, each the longest that some pattern matches at
its place: blanks and `;` comments are skipped, everything else becomes a token. Where nothing
matches, an error token is produced and the cutting goes on behind it, so every text has a token
stream.
-/

namespace Trampoline

/-- What a token is. -/
inductive TokenKind where
  | openParen
  | closeParen
  | true
  | false
  | int
  | str
  | keyword
  | ident
  /-- A place where no pattern matches. -/
  | error
  deriving DecidableEq, Repr, Inhabited

/-- A token with its text and its place in the source. -/
structure Token where
  kind : TokenKind
  text : String
  span : Span
  deriving DecidableEq, Repr, Inhabited

/-- Characters between tokens. -/
def isBlank (c : Char) : Bool :=
  c = ' ' || c = '\t' || c = '\r' || c = '\n' || c = '\x0c'

/-- ASCII letters and the underscore: the characters a keyword starts with. -/
def isKeywordStart (c : Char) : Bool :=
  ('a' ≤ c && c ≤ 'z') || ('A' ≤ c && c ≤ 'Z') || c = '_'

/-- The characters an identifier starts with. -/
def isIdentStart (c : Char) : Bool :=
  isKeywordStart c || c = '!' || c = '?' || c = '*' || c = '<' || c = '>' || c = '=' ||
    c = '/' || c = '+' || c = '-' || c = '%'

/-- The decimal digits. -/
def isDigit (c : Char) : Bool :=
  '0' ≤ c && c ≤ '9'

/-- The characters an identifier or keyword goes on with. -/
def isIdentPart (c : Char) : Bool :=
  isIdentStart c || isDigit c || c = '\'' || c = '.'

/-- The number of leading characters of a text in a class. -/
def runLength (inClass : Char -> Bool) (text : List Char) : Nat :=
  (text.takeWhile inClass).length

/-- The number of leading characters of a text that can stand between the quotes of a string
literal: any but a quote or a backslash, and a backslash with any character but a newline. -/
def stringBodyLength : List Char -> Nat
  | [] => 0
  | [c] => if c = '"' || c = '\\' then 0 else 1
  | c :: d :: rest =>
    if c = '"' then 0
    else if c = '\\' then
      if d = '\n' then 0 else stringBodyLength rest + 2
    else stringBodyLength (d :: rest) + 1

/-- One cut of a text. A lexeme is never empty: `extra` counts the characters after its first. -/
structure Lexeme where
  /-- The kind of token, or `none` for what stands between tokens. -/
  kind : Option TokenKind
  extra : Nat
  deriving DecidableEq, Repr

/-- The lexeme at the start of the text `c :: rest`. -/
def lexemeAt (c : Char) (rest : List Char) : Lexeme :=
  if isBlank c then ⟨none, runLength isBlank rest⟩
  else if c = ';' then ⟨none, runLength (· != '\n') rest⟩
  else if c = '(' then ⟨some .openParen, 0⟩
  else if c = ')' then ⟨some .closeParen, 0⟩
  else if c = '#' then
    match rest with
    | 't' :: _ => ⟨some .true, 1⟩
    | 'f' :: _ => ⟨some .false, 1⟩
    | _ => ⟨some .error, 0⟩
  else if c = '"' then
    let body := stringBodyLength rest
    if (rest.drop body).head? = some '"' then ⟨some .str, body + 1⟩ else ⟨some .error, body⟩
  else if c = ':' then
    match rest with
    | d :: more =>
      if isKeywordStart d then ⟨some .keyword, runLength isIdentPart more + 1⟩
      else ⟨some .error, 0⟩
    | [] => ⟨some .error, 0⟩
  else if isDigit c then ⟨some .int, runLength isDigit rest⟩
  else if isIdentStart c then
    let digits := runLength isDigit rest
    let part := runLength isIdentPart rest
    -- a sign before digits only is an integer: of two matches of one length it wins
    if (c = '+' || c = '-') && 0 < digits && digits = part then ⟨some .int, digits⟩
    else ⟨some .ident, part⟩
  else ⟨some .error, 0⟩

/-- The tokens of a text that starts at the byte `offset`. -/
def tokensFrom (offset : Nat) : List Char -> List Token
  | [] => []
  | c :: rest =>
    let lexeme := lexemeAt c rest
    let text := c :: rest.take lexeme.extra
    let stop := offset + byteLength text
    let later := tokensFrom stop (rest.drop lexeme.extra)
    match lexeme.kind with
    | none => later
    | some kind => ⟨kind, String.ofList text, ⟨offset, stop⟩⟩ :: later
termination_by text => text.length
decreasing_by simp only [List.length_drop, List.length_cons]; omega

/-- The tokens of a source text, errors included, in order. -/
def tokenize (source : String) : List Token :=
  tokensFrom 0 source.toList

end Trampoline
