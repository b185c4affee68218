/-!
# Special forms

The words that make a list more than a call, inside expressions and around toplevel forms.
-/

namespace Trampoline

/-- The forms with rules of their own. -/
inductive SpecialForm where
  | define
  | defn
  | fn
  | conditional
  | cond
  | and
  | or
  | begin
  | bind
  | assign
  | loop
  | jump
  | capture
  deriving DecidableEq, Repr, Inhabited

namespace SpecialForm

/-- All special forms. -/
def all : List SpecialForm :=
  [define, defn, fn, conditional, cond, and, or, begin, bind, assign, loop, jump, capture]

/-- The word that the form starts with. -/
def word : SpecialForm -> String
  | define => "define"
  | defn => "defn"
  | fn => "fn"
  | conditional => "if"
  | cond => "cond"
  | and => "and"
  | or => "or"
  | begin => "begin"
  | bind => "let"
  | assign => "set!"
  | loop => "while"
  | jump => "jump"
  | capture => "capture"

/-- The form that a word starts. -/
def ofWord? (word : String) : Option SpecialForm :=
  all.find? fun form => form.word == word

/-- The shape of the form. -/
def shape : SpecialForm -> String
  | define => "(define NAME EXPR)"
  | defn => "(defn NAME (PARAM*) BODY*)"
  | fn => "(fn (PARAM*) BODY*)"
  | conditional => "(if COND THEN [ELSE])"
  | cond => "(cond (TEST BODY*)* [(else BODY*)])"
  | and => "(and EXPR*)"
  | or => "(or EXPR*)"
  | begin => "(begin EXPR*)"
  | bind => "(let NAME EXPR)"
  | assign => "(set! NAME EXPR)"
  | loop => "(while COND BODY*)"
  | jump => "(jump F ARG*)"
  | capture => "(capture (NAME*) (F ARG*))"

end SpecialForm

/-- The blocks around toplevel forms. -/
inductive Block where
  | tco
  | continuations
  | lazify
  deriving DecidableEq, Repr, Inhabited

namespace Block

/-- The block that a word starts. -/
def ofWord? (word : String) : Option Block :=
  if word = "tco" then some tco
  else if word = "continuations" then some continuations
  else if word = "lazify" then some lazify
  else none

end Block

end Trampoline
