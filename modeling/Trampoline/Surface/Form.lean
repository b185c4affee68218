import Trampoline.Text.Quoted
import Trampoline.Surface.Token
import Trampoline.Surface.ParseError

/-!
# Forms

The nested lists that the parentheses of a source spell out. `Form.ofTokens` accepts the balanced
token streams whose integers and strings have values, and reports the first offending token of
any other.
-/

namespace Trampoline

/-- A piece of source text: an atom or a parenthesized list, with its span. -/
inductive Form where
  | int (span : Span) (value : Int64)
  | str (span : Span) (value : String)
  | bool (span : Span) (value : Bool)
  | sym (span : Span) (name : String)
  /-- A keyword argument's name, without its colon. -/
  | keyword (span : Span) (name : String)
  | list (span : Span) (items : List Form)
  deriving Inhabited

namespace Form

/-- Where the form stands. -/
def span : Form -> Span
  | int span _ | str span _ | bool span _ | sym span _ | keyword span _ | list span _ => span

/-- The name that a symbol is. -/
def symbol? : Form -> Option String
  | sym _ name => some name
  | _ => none

/-- The items of a list. -/
def items? : Form -> Option (List Form)
  | list _ items => some items
  | _ => none

/-- The number that decimal digits denote. -/
def digitsValue (digits : List Char) : Nat :=
  digits.foldl (fun value c => 10 * value + (c.toNat - '0'.toNat)) 0

/-- The integer that an optional sign and digits denote. -/
def signedValue (text : String) : Int :=
  match text.toList with
  | '-' :: digits => -(digitsValue digits : Int)
  | '+' :: digits => digitsValue digits
  | digits => digitsValue digits

/-- The 64-bit integer that an optional sign and digits denote, if it is in range. -/
def int64? (text : String) : Option Int64 :=
  let value := signedValue text
  if Int64.minValue.toInt ≤ value && value ≤ Int64.maxValue.toInt then some (Int64.ofInt value)
  else none

/-- The atom that a token is; parentheses are none. -/
def ofAtom (token : Token) : Except ParseFault (Option Form) :=
  match token.kind with
  | .openParen | .closeParen => .ok none
  | .true => .ok (some (bool token.span true))
  | .false => .ok (some (bool token.span false))
  | .int =>
    match int64? token.text with
    | some value => .ok (some (int token.span value))
    | none => .error (.invalidInt token.text)
  | .str =>
    match Quoted.read token.text with
    | .ok value => .ok (some (str token.span value))
    | .error escape => .error (.invalidEscape escape)
  | .keyword => .ok (some (keyword token.span (String.ofList (token.text.toList.drop 1))))
  | .ident => .ok (some (sym token.span token.text))
  | .error => .error (.invalidToken token.text)

/-- A list whose closing parenthesis is still to come. -/
structure OpenList where
  /-- The offset of its opening parenthesis. -/
  start : Nat
  /-- Its items so far, last first. -/
  items : List Form

/-- Read the remaining tokens, given the open lists, innermost first, and the toplevel forms so
far, last first. -/
def readTokens (table : LineTable) :
    List Token -> List OpenList -> List Form -> Except ParseError (List Form)
  | [], [], top => .ok top.reverse
  | [], inner :: outer, _ =>
    .error ⟨table.locate ⟨inner.start, inner.start + 1⟩, .unclosedParen (outer.length + 1)⟩
  | token :: rest, opened, top =>
    let fail fault := .error ⟨table.locate token.span, fault⟩
    let add (form : Form) (opened : List OpenList) :=
      match opened with
      | [] => readTokens table rest [] (form :: top)
      | inner :: outer => readTokens table rest (⟨inner.start, form :: inner.items⟩ :: outer) top
    match ofAtom token with
    | .error fault => fail fault
    | .ok (some form) => add form opened
    | .ok none =>
      if token.kind = .openParen then readTokens table rest (⟨token.span.start, []⟩ :: opened) top
      else
        match opened with
        | [] => fail .unbalanced
        | inner :: outer => add (list ⟨inner.start, token.span.stop⟩ inner.items.reverse) outer

/-- The toplevel forms of a token stream. -/
def ofTokens (table : LineTable) (tokens : List Token) : Except ParseError (List Form) :=
  readTokens table tokens [] []

/-- The toplevel forms of a source text. -/
def ofSource (source : String) (path : Option String) : Except ParseError (List Form) :=
  ofTokens (LineTable.ofSource source path) (tokenize source)

end Form

end Trampoline
