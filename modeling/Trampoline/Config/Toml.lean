/-!
# TOML documents

Reads TOML 1.1 documents whose values are strings, booleans, integers, arrays and inline tables.
A document is read as the list of its lines: pairs of a key path and a value, and table headers.
Dates and floating-point numbers are refused, since no configuration has them.

Every reader takes the rest of the text and answers what it read with what is left, or nothing if
the text is malformed. Readers that go on for an unknown length are given fuel; the length of the
text is always enough.
-/

namespace Trampoline

/-- A value of a document. -/
inductive Toml where
  | str (value : String)
  | bool (value : Bool)
  | int (value : Int)
  | array (items : List Toml)
  /-- An inline table: key paths with their values. -/
  | table (fields : List (List String × Toml))
  deriving Inhabited

/-- A line of a document. -/
inductive TomlLine where
  | pair (path : List String) (value : Toml)
  /-- A header, which puts the pairs after it into a table. -/
  | header (path : List String)
  deriving Inhabited

namespace Toml

/-- Blanks inside a line. -/
def isSpace (c : Char) : Bool :=
  c = ' ' || c = '\t'

/-- Characters that stand for themselves in comments and strings: all but control characters; of
those the tab. -/
def isPlain (c : Char) : Bool :=
  c = '\t' || (0x20 ≤ c.toNat && c.toNat != 0x7F)

/-- The characters of bare keys. -/
def isBareKey (c : Char) : Bool :=
  c.isAlphanum || c = '_' || c = '-'

/-- Skip blanks. -/
def skipSpaces (text : List Char) : List Char :=
  text.dropWhile isSpace

/-- Read a line end. -/
def newline? : List Char -> Option (List Char)
  | '\n' :: rest => some rest
  | '\r' :: '\n' :: rest => some rest
  | _ => none

/-- Skip a comment up to the end of its line. -/
def skipComment : List Char -> List Char
  | '#' :: rest => rest.dropWhile isPlain
  | text => text

/-- Read the end of a line: blanks, a comment, and a line end or the end of the text. -/
def lineEnd? (text : List Char) : Option (List Char) :=
  match skipComment (skipSpaces text) with
  | [] => some []
  | rest => newline? rest

/-- Skip blanks, comments and line ends. -/
def skipLines : (fuel : Nat) -> List Char -> List Char
  | 0, text => text
  | fuel + 1, text =>
    let rest := skipComment (skipSpaces text)
    match newline? rest with
    | some rest => skipLines fuel rest
    | none => rest

/-- The value of a hexadecimal digit. -/
def hexDigit? (c : Char) : Option Nat :=
  if '0' ≤ c && c ≤ '9' then some (c.toNat - '0'.toNat)
  else if 'a' ≤ c && c ≤ 'f' then some (c.toNat - 'a'.toNat + 10)
  else if 'A' ≤ c && c ≤ 'F' then some (c.toNat - 'A'.toNat + 10)
  else none

/-- The number that digits denote in a base of at most sixteen; there must be one at least. -/
def digits? (base : Nat) (text : List Char) : Option Nat :=
  if text.isEmpty then none
  else text.foldlM (fun value c => do
    let digit ← hexDigit? c
    if digit < base then some (base * value + digit) else none) 0

/-- Read a character given by a number of hexadecimal digits. -/
def codePoint? (count : Nat) (text : List Char) : Option (Char × List Char) := do
  let digits := text.take count
  if digits.length != count then none
  let code ← digits? 16 digits
  if Nat.isValidChar code then some (Char.ofNat code, text.drop count) else none

/-- Read what follows the backslash of an escape. -/
def escape? : List Char -> Option (Char × List Char)
  | 'b' :: rest => some ('\x08', rest)
  | 't' :: rest => some ('\t', rest)
  | 'n' :: rest => some ('\n', rest)
  | 'f' :: rest => some ('\x0c', rest)
  | 'r' :: rest => some ('\r', rest)
  | 'e' :: rest => some ('\x1b', rest)
  | '"' :: rest => some ('"', rest)
  | '\\' :: rest => some ('\\', rest)
  | 'x' :: rest => codePoint? 2 rest
  | 'u' :: rest => codePoint? 4 rest
  | 'U' :: rest => codePoint? 8 rest
  | _ => none

/-- Put a character in front of what was read. -/
def cons (c : Char) (read : List Char × List Char) : List Char × List Char :=
  (c :: read.1, read.2)

/-- Read the rest of a basic string on one line. -/
def basic? : (fuel : Nat) -> List Char -> Option (List Char × List Char)
  | 0, _ => none
  | _, [] => none
  | _ + 1, '"' :: rest => some ([], rest)
  | fuel + 1, '\\' :: rest => do
    let (c, rest) ← escape? rest
    let read ← basic? fuel rest
    some (cons c read)
  | fuel + 1, c :: rest =>
    if isPlain c then (basic? fuel rest).map (cons c) else none

/-- Read the rest of a literal string on one line. -/
def literal? : List Char -> Option (List Char × List Char)
  | [] => none
  | '\'' :: rest => some ([], rest)
  | c :: rest => if isPlain c then (literal? rest).map (cons c) else none

/-- Skip the blank text that a backslash at the end of a line hides. -/
def skipHidden : List Char -> List Char
  | '\r' :: '\n' :: rest => skipHidden rest
  | c :: rest => if isSpace c || c = '\n' then skipHidden rest else c :: rest
  | [] => []

/-- Whether a character stands for itself in a string over several lines, given what follows it.
Line ends do, and are kept as they are written; a carriage return is only part of one before a
newline. -/
def isPlainOrLineEnd (c : Char) (rest : List Char) : Bool :=
  isPlain c || c = '\n' || (c = '\r' && rest.head? = some '\n')

/-- Read the rest of a basic string over several lines. Up to two quotes may stand before the
three that close it. -/
def multiBasic? : (fuel : Nat) -> List Char -> Option (List Char × List Char)
  | 0, _ => none
  | _, [] => none
  | _ + 1, '"' :: '"' :: '"' :: '"' :: '"' :: rest => some (['"', '"'], rest)
  | _ + 1, '"' :: '"' :: '"' :: '"' :: rest => some (['"'], rest)
  | _ + 1, '"' :: '"' :: '"' :: rest => some ([], rest)
  | fuel + 1, '\\' :: rest =>
    match newline? (skipSpaces rest) with
    | some rest => multiBasic? fuel (skipHidden rest)
    | none => do
      let (c, rest) ← escape? rest
      let read ← multiBasic? fuel rest
      some (cons c read)
  | fuel + 1, c :: rest =>
    if isPlainOrLineEnd c rest then (multiBasic? fuel rest).map (cons c) else none

/-- Read the rest of a literal string over several lines. -/
def multiLiteral? : (fuel : Nat) -> List Char -> Option (List Char × List Char)
  | 0, _ => none
  | _, [] => none
  | _ + 1, '\'' :: '\'' :: '\'' :: '\'' :: '\'' :: rest => some (['\'', '\''], rest)
  | _ + 1, '\'' :: '\'' :: '\'' :: '\'' :: rest => some (['\''], rest)
  | _ + 1, '\'' :: '\'' :: '\'' :: rest => some ([], rest)
  | fuel + 1, c :: rest =>
    if isPlainOrLineEnd c rest then (multiLiteral? fuel rest).map (cons c) else none

/-- Skip the line end right after the opening of a string over several lines. -/
def skipFirstNewline (text : List Char) : List Char :=
  (newline? text).getD text

/-- Read a string value. -/
def string? : List Char -> Option (String × List Char)
  | '"' :: '"' :: '"' :: rest => do
    let (content, rest) ← multiBasic? (rest.length + 1) (skipFirstNewline rest)
    some (String.ofList content, rest)
  | '"' :: rest => do
    let (content, rest) ← basic? (rest.length + 1) rest
    some (String.ofList content, rest)
  | '\'' :: '\'' :: '\'' :: rest => do
    let (content, rest) ← multiLiteral? (rest.length + 1) (skipFirstNewline rest)
    some (String.ofList content, rest)
  | '\'' :: rest => do
    let (content, rest) ← literal? rest
    some (String.ofList content, rest)
  | _ => none

/-- Read a key without dots. -/
def simpleKey? : List Char -> Option (String × List Char)
  | '"' :: rest => do
    let (content, rest) ← basic? (rest.length + 1) rest
    some (String.ofList content, rest)
  | '\'' :: rest => do
    let (content, rest) ← literal? rest
    some (String.ofList content, rest)
  | text =>
    let name := text.takeWhile isBareKey
    if name.isEmpty then none else some (String.ofList name, text.dropWhile isBareKey)

/-- Read a key path: simple keys with dots between them, and blanks around each. -/
def path? : (fuel : Nat) -> List Char -> Option (List String × List Char)
  | 0, _ => none
  | fuel + 1, text => do
    let (key, rest) ← simpleKey? (skipSpaces text)
    match skipSpaces rest with
    | '.' :: rest => do
      let (keys, rest) ← path? fuel rest
      some (key :: keys, rest)
    | rest => some ([key], rest)

/-- The characters of numbers and words. -/
def isScalar (c : Char) : Bool :=
  c.isAlphanum || c = '_' || c = '-' || c = '+' || c = '.' || c = ':'

/-- Digits with single underscores between them, less the underscores. -/
def withoutUnderscores? : List Char -> Option (List Char)
  | [] => some []
  | [c] => if c = '_' then none else some [c]
  | c :: d :: rest =>
    if c = '_' then none
    else if d = '_' then
      if rest.isEmpty then none else (withoutUnderscores? rest).map (c :: ·)
    else (withoutUnderscores? (d :: rest)).map (c :: ·)

/-- The number that digits with underscores denote in a base. -/
def number? (base : Nat) (text : List Char) : Option Nat := do
  let digits ← withoutUnderscores? text
  digits? base digits

/-- The number that decimal digits denote, which do not start with a needless zero. -/
def decimal? (text : List Char) : Option Nat :=
  match text with
  | '0' :: _ :: _ => none
  | text => number? 10 text

/-- The value that a word is: a truth value or an integer. -/
def scalar? (text : List Char) : Option Toml :=
  match text with
  | ['t', 'r', 'u', 'e'] => some (bool true)
  | ['f', 'a', 'l', 's', 'e'] => some (bool false)
  | '0' :: 'x' :: digits => (number? 16 digits).map fun n => int n
  | '0' :: 'o' :: digits => (number? 8 digits).map fun n => int n
  | '0' :: 'b' :: digits => (number? 2 digits).map fun n => int n
  | '+' :: digits => (decimal? digits).map fun n => int n
  | '-' :: digits => (decimal? digits).map fun n => int (-(n : Int))
  | digits => (decimal? digits).map fun n => int n

mutual

/-- Read a value. -/
def value? (fuel : Nat) (text : List Char) : Option (Toml × List Char) :=
  match fuel with
  | 0 => none
  | fuel + 1 =>
    match text with
    | [] => none
    | '[' :: rest => do
      let (items, rest) ← items? fuel (skipLines (rest.length + 1) rest)
      some (array items, rest)
    | '\x7b' :: rest => do
      let (fields, rest) ← fields? fuel (skipLines (rest.length + 1) rest)
      some (table fields, rest)
    | c :: rest =>
      if c = '"' || c = '\'' then do
        let (content, rest) ← string? (c :: rest)
        some (str content, rest)
      else do
        let value ← scalar? ((c :: rest).takeWhile isScalar)
        some (value, (c :: rest).dropWhile isScalar)

/-- Read the rest of an array, which may go over several lines and end with a comma. -/
def items? (fuel : Nat) (text : List Char) : Option (List Toml × List Char) :=
  match fuel with
  | 0 => none
  | fuel + 1 =>
    match text with
    | ']' :: rest => some ([], rest)
    | text => do
      let (first, rest) ← value? fuel text
      match skipLines (rest.length + 1) rest with
      | ']' :: rest => some ([first], rest)
      | ',' :: rest => do
        let (others, rest) ← items? fuel (skipLines (rest.length + 1) rest)
        some (first :: others, rest)
      | _ => none

/-- Read the rest of an inline table, which like an array may go over several lines and end with a
comma. Lines may end on either side of an equals sign too, but not inside a key path. -/
def fields? (fuel : Nat) (text : List Char) : Option (List (List String × Toml) × List Char) :=
  match fuel with
  | 0 => none
  | fuel + 1 =>
    match text with
    | '\x7d' :: rest => some ([], rest)
    | text => do
      let (path, rest) ← path? (text.length + 1) text
      match skipLines (rest.length + 1) rest with
      | '=' :: rest => do
        let (value, rest) ← value? fuel (skipLines (rest.length + 1) rest)
        match skipLines (rest.length + 1) rest with
        | '\x7d' :: rest => some ([(path, value)], rest)
        | ',' :: rest => do
          let (others, rest) ← fields? fuel (skipLines (rest.length + 1) rest)
          some ((path, value) :: others, rest)
        | _ => none
      | _ => none

end

/-- Read one line that is not empty. -/
def line? (text : List Char) : Option (TomlLine × List Char) :=
  let fuel := text.length + 1
  match text with
  | '[' :: rest => do
    let (path, rest) ← path? fuel rest
    match rest with
    | ']' :: rest => do
      let rest ← lineEnd? rest
      some (.header path, rest)
    | _ => none
  | text => do
    let (path, rest) ← path? fuel text
    match rest with
    | '=' :: rest => do
      let (value, rest) ← value? fuel (skipSpaces rest)
      let rest ← lineEnd? rest
      some (.pair path value, rest)
    | _ => none

/-- Read the lines of a text. -/
def lines? : (fuel : Nat) -> List Char -> Option (List TomlLine)
  | 0, _ => none
  | fuel + 1, text =>
    match skipLines (text.length + 1) text with
    | [] => some []
    | text => do
      let (first, rest) ← line? text
      let others ← lines? fuel rest
      some (first :: others)

/-- The lines of a document. A byte order mark at its start is no part of it. -/
def document? (text : String) : Option (List TomlLine) :=
  let content :=
    match text.toList with
    | '\uFEFF' :: rest => rest
    | content => content
  lines? (content.length + 1) content

end Toml

end Trampoline
