import Trampoline.Text.Columns

/-!
# Layout documents

Documents say where a text may be broken. A group is laid out flat, each of its lines a blank, if
it fits into the width together with what follows it up to the next break; otherwise its own
lines are broken and the groups inside decide for themselves. Only the choice between a blank and
a break depends on the width.
-/

namespace Trampoline

/-- A text with places where it may be broken. -/
inductive Doc where
  | nil
  | text (content : String)
  /-- A blank, or a newline with indentation. -/
  | line
  | append (first second : Doc)
  /-- Breaks inside indent by `amount` more. -/
  | nest (amount : Nat) (inner : Doc)
  /-- A part that is laid out flat if it fits. -/
  | group (inner : Doc)
  deriving Inhabited

namespace Doc

instance : Append Doc := ⟨Doc.append⟩

/-- The number of columns of a document on one line. -/
def flatWidth : Doc -> Nat
  | nil => 0
  | text content => displayWidth content
  | line => 1
  | append first second => first.flatWidth + second.flatWidth
  | nest _ inner => inner.flatWidth
  | group inner => inner.flatWidth

/-- The number of columns of a document up to its first line, given how many follow it up to the
first line after it. -/
def leadWidth (after : Nat) : Doc -> Nat
  | nil => after
  | text content => displayWidth content + after
  | line => 0
  | append first second => first.leadWidth (second.leadWidth after)
  | nest _ inner => inner.leadWidth after
  | group inner => inner.leadWidth after

/-- A document on one line. -/
def flat : Doc -> String
  | nil => ""
  | text content => content
  | line => " "
  | append first second => first.flat ++ second.flat
  | nest _ inner => inner.flat
  | group inner => inner.flat

/-- A laid-out text with the column at which it ends. -/
structure Placed where
  text : String
  column : Nat

/-- Lay out a document with its lines broken, from a column on. Its breaks indent by `indent`,
except that one at its end indents by `next`, the indentation of what follows. `after` is how
many columns follow it up to the next break. -/
def place (width : Nat) : (indent next after column : Nat) -> Doc -> Placed
  | _, _, _, column, nil => ⟨"", column⟩
  | _, _, _, column, text content => ⟨content, column + displayWidth content⟩
  | _, next, _, _, line => ⟨"\n" ++ "".pushn ' ' next, next⟩
  | indent, next, after, column, append first second =>
    let left := place width indent indent (second.leadWidth after) column first
    let right := place width indent next after left.column second
    ⟨left.text ++ right.text, right.column⟩
  | indent, next, after, column, nest amount inner =>
    place width (indent + amount) next after column inner
  | indent, next, after, column, group inner =>
    if column + inner.flatWidth + after ≤ width then
      ⟨inner.flat, column + inner.flatWidth⟩
    else place width indent next after column inner

/-- A document laid out for a width. -/
def render (width : Nat) (doc : Doc) : String :=
  (place width 0 0 0 0 doc).text

/-- Documents with a line between each and the next. -/
def lines : List Doc -> Doc
  | [] => nil
  | [doc] => doc
  | doc :: rest => doc ++ line ++ lines rest

/-- A parenthesized group: a head, then items on lines of their own or all on one line. -/
def parens (head : Doc) : List Doc -> Doc
  | [] => group (text "(" ++ head ++ nest 2 line ++ text ")")
  | items => group (text "(" ++ head ++ nest 2 (line ++ lines items) ++ text ")")

end Doc

end Trampoline
