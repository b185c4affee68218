import Trampoline.Text.CodePoints

/-!
# Quoted text

The two ways between a text and its quoted form. Writing escapes the quote, the backslash, four
control characters by a letter, and every other character that does not show by its code point.
Reading knows the letter escapes only, so a text with a hidden character has a quoted form that
does not read back.
-/

namespace Trampoline.Quoted

/-- The letter that stands for a character after a backslash. -/
def escapeLetter? (c : Char) : Option Char :=
  if c = '"' then some '"'
  else if c = '\\' then some '\\'
  else if c = '\n' then some 'n'
  else if c = '\r' then some 'r'
  else if c = '\t' then some 't'
  else if c = '\x00' then some '0'
  else none

/-- The character that a letter after a backslash stands for. -/
def unescapeLetter? (letter : Char) : Option Char :=
  if letter = 'n' then some '\n'
  else if letter = 't' then some '\t'
  else if letter = 'r' then some '\r'
  else if letter = '"' then some '"'
  else if letter = '\\' then some '\\'
  else if letter = '0' then some '\x00'
  else none

/-- The characters that stand between the quotes for one character of the text. -/
def encodeChar (c : Char) : List Char :=
  match escapeLetter? c with
  | some letter => ['\\', letter]
  | none =>
    if isHidden c then
      ['\\', 'u', '\x7b'] ++ Nat.toDigits 16 c.toNat ++ ['\x7d']
    else [c]

/-- What stands between the quotes for a text. -/
def encode (text : List Char) : List Char :=
  text.flatMap encodeChar

/-- Read what stands between the quotes. The error is the first escaped character that no
escape is known for; a backslash at the very end counts as escaped itself. -/
def decode : List Char -> Except Char (List Char)
  | [] => .ok []
  | ['\\'] => .error '\\'
  | '\\' :: letter :: rest =>
    match unescapeLetter? letter with
    | none => .error letter
    | some c => (decode rest).map (c :: ·)
  | c :: rest => (decode rest).map (c :: ·)

/-- Read a quoted text, quotes included. -/
def read (quoted : String) : Except Char String :=
  (decode (quoted.toList.drop 1).dropLast).map String.ofList

/-- The quoted form of a text, quotes included. -/
def write (text : String) : String :=
  "\"" ++ String.ofList (encode text.toList) ++ "\""

end Trampoline.Quoted
