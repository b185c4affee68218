import Trampoline.Surface.SpecialForm
import Trampoline.Text.Span

/-!
# What can be wrong with a source text

A parse error is a fault at a place. The faults of tokens and parentheses come from reading; a
malformed form comes from building the program.
-/

namespace Trampoline

/-- The ways in which a list of forms fails to be a program. -/
inductive Malformation where
  | wrongShape (form : SpecialForm)
  /-- Something else stands where `form` has a name. -/
  | notAName (form : String)
  /-- Something else stands where `form` has a list of names. -/
  | notNames (form : String)
  | decoratorsNotListed
  | decoratorNotAName
  /-- `define` below the toplevel. -/
  | innerDefinition
  | strayKeyword (keyword : String)
  | keywordWithoutValue (keyword : String)
  | positionalAfterKeyword
  | emptyApplication
  | clauseNotAList
  | elseNotLast
  | noTestClause
  /-- A capture of something that is not a call. -/
  | captureOfNoCall
  deriving DecidableEq, Repr

namespace Malformation

/-- The form that a message names. -/
def form : Malformation -> String
  | wrongShape form => form.word
  | notAName form => form
  | notNames form => form
  | decoratorsNotListed => "fn"
  | decoratorNotAName => "fn"
  | innerDefinition => "define"
  | strayKeyword keyword => keyword
  | keywordWithoutValue _ => "call"
  | positionalAfterKeyword => "call"
  | emptyApplication => "()"
  | clauseNotAList => "cond"
  | elseNotLast => "cond"
  | noTestClause => "cond"
  | captureOfNoCall => "capture"

/-- What a message says about the form. -/
def reason : Malformation -> String
  | wrongShape form => "expected `" ++ form.shape ++ "`"
  | notAName _ => "expected a name"
  | notNames _ => "expected a parenthesized list of names"
  | decoratorsNotListed => "`:decorators` takes a list"
  | decoratorNotAName => "decorators are plain names"
  | innerDefinition => "only allowed at toplevel; use `let`"
  | strayKeyword _ => "keyword outside of a call"
  | keywordWithoutValue keyword => "`:" ++ keyword ++ "` needs a value"
  | positionalAfterKeyword => "positional argument after keyword"
  | emptyApplication => "empty application"
  | clauseNotAList => "clauses are `(TEST BODY*)`"
  | elseNotLast => "`else` must come last"
  | noTestClause => "needs at least one test clause"
  | captureOfNoCall => "the captured expression must be a call"

end Malformation

/-- What is wrong at a place of the source. -/
inductive ParseFault where
  | invalidToken (text : String)
  /-- An integer that 64 bits do not hold. -/
  | invalidInt (text : String)
  | invalidEscape (escape : Char)
  /-- A closing parenthesis that closes nothing. -/
  | unbalanced
  /-- The innermost of `depth` parentheses that are open at the end. -/
  | unclosedParen (depth : Nat)
  | malformed (malformation : Malformation)
  deriving DecidableEq, Repr

/-- A fault and the start of the token or form that has it. -/
structure ParseError where
  location : Location
  fault : ParseFault
  deriving DecidableEq, Repr

/-- The text of a fault without its place. -/
def ParseFault.message : ParseFault -> String
  | invalidToken text => "unrecognized token `" ++ text ++ "`"
  | invalidInt text => "invalid integer literal `" ++ text ++ "`"
  | invalidEscape escape => "unknown escape `\\" ++ escape.toString ++ "` in string literal"
  | unbalanced => "unbalanced `)`"
  | unclosedParen depth =>
    "`(` is never closed (" ++ toString depth ++ " open at end of input)"
  | malformed malformation =>
    "malformed `" ++ malformation.form ++ "`: " ++ malformation.reason

/-- The text of an error: its place, a colon, and the fault. -/
def ParseError.message (error : ParseError) : String :=
  error.location.render ++ ": " ++ error.fault.message

end Trampoline
