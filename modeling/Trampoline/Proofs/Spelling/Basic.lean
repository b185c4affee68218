import Trampoline.Surface.Form
import Trampoline.Syntax.Printer

/-!
# Spellings

A form without its places is a spelling, which has one text with single blanks between the items of
a list. An expression has a spelling too: that of its one-line form. Blocks that are bodies spell
their items only, which stand in the form around them.
-/

namespace Trampoline

/-- What a form spells, wherever it stands. -/
inductive Spelling where
  | int (value : Int64)
  | str (value : String)
  | bool (value : Bool)
  | sym (name : String)
  | keyword (name : String)
  | list (items : List Spelling)
  deriving Inhabited

mutual

/-- What the form spells. -/
def Form.spelling : Form -> Spelling
  | .int _ value => .int value
  | .str _ value => .str value
  | .bool _ value => .bool value
  | .sym _ name => .sym name
  | .keyword _ name => .keyword name
  | .list _ items => .list (Form.spellings items)

/-- What several forms spell. -/
def Form.spellings : List Form -> List Spelling
  | [] => []
  | first :: rest => first.spelling :: Form.spellings rest

end

mutual

/-- The text of a spelling. -/
def Spelling.chars : Spelling -> List Char
  | .int value => (toString value.toInt).toList
  | .str value => '"' :: (Quoted.encode value.toList ++ ['"'])
  | .bool true => ['#', 't']
  | .bool false => ['#', 'f']
  | .sym name => name.toList
  | .keyword name => ':' :: name.toList
  | .list [] => ['(', ')']
  | .list (first :: rest) => '(' :: (first.chars ++ (charsAfter rest ++ [')']))

/-- The texts of several spellings, each after a blank. -/
def charsAfter : List Spelling -> List Char
  | [] => []
  | first :: rest => ' ' :: (first.chars ++ charsAfter rest)

end

mutual

/-- The spellings in a spelling that are no lists. -/
def Spelling.atoms : Spelling -> List Spelling
  | .list items => atomsOfAll items
  | atom => [atom]

/-- The atoms of several spellings. -/
def atomsOfAll : List Spelling -> List Spelling
  | [] => []
  | first :: rest => first.atoms ++ atomsOfAll rest

end

namespace Spelling

/-- The name that a symbol is. -/
def symbol? : Spelling -> Option String
  | sym name => some name
  | _ => none

variable {s : Spelling} {kind : Spelling -> Prop}

theorem symbol?_eq_some {name : String} : s.symbol? = some name ↔ s = .sym name := by
  cases s <;> simp [symbol?]

/-- All atoms of the spelling are of a kind. -/
def Of (kind : Spelling -> Prop) (s : Spelling) : Prop := ∀ atom ∈ s.atoms, kind atom

theorem of_atom (atom : s.atoms = [s]) : s.Of kind ↔ kind s := by
  rw [Of, atom, List.forall_mem_singleton]

/-- A list is of a kind if its items are. -/
theorem of_list {items : List Spelling} : (list items).Of kind ↔ ∀ s ∈ items, s.Of kind := by
  show (∀ atom ∈ atomsOfAll items, kind atom) ↔ _
  induction items with
  | nil => simp [atomsOfAll]
  | cons first rest ih => rw [atomsOfAll, List.forall_mem_append, ih, List.forall_mem_cons, Of]

end Spelling

namespace Form

/-- Several forms spell what each of them spells. -/
theorem spellings_eq_map (forms : List Form) : spellings forms = forms.map spelling := by
  induction forms with
  | nil => rfl
  | cons first rest ih => rw [spellings, ih, List.map_cons]

/-- All atoms of the form are of a kind. -/
def Of (kind : Spelling -> Prop) (form : Form) : Prop := form.spelling.Of kind

/-- A list form is of a kind if its items are. -/
theorem of_list {kind : Spelling -> Prop} {span : Span} {items : List Form} :
    (list span items).Of kind ↔ ∀ item ∈ items, item.Of kind := by
  rw [Of, Form.spelling, Spelling.of_list, spellings_eq_map, List.forall_mem_map]
  rfl

end Form

/-! ## Expressions -/

/-- What a constant spells. -/
def Literal.spelling : Literal -> Spelling
  | nil => .sym "nil"
  | bool value => .bool value
  | int value => .int value
  | str value => .str value

/-- A list of names. -/
def Spelling.names (names : List String) : Spelling := .list (names.map .sym)

/-- What the decorators of a function spell. -/
def decoratorSpellings : List (String × Span) -> List Spelling
  | [] => []
  | decorators => [.keyword "decorators", .names (decorators.map Prod.fst)]

/-- What a function spells before its body. -/
def Signature.headSpelling (signature : Signature) : List Spelling :=
  .sym signature.kind.word :: .names signature.params :: decoratorSpellings signature.decorators

mutual

/-- What an expression spells. -/
def Expr.spelling : Expr -> Spelling
  | .lit _ value => value.spelling
  | .var _ name => .sym name
  | .fn _ signature body =>
    .list (signature.headSpelling ++
      match body with
      | .seq _ items => spellingsOfAll items
      | e => [e.spelling])
  | .call _ func args kwargs =>
    .list (func.spelling :: (spellingsOfAll args ++ spellingsOfKwargs kwargs))
  | .cond _ arms alt =>
    .list (.sym "cond" :: (spellingsOfArms arms ++
      match alt with
      | none => []
      | some (.seq _ items) => [.list (.sym "else" :: spellingsOfAll items)]
      | some e => [.list [.sym "else", e.spelling]]))
  | .short _ op operands => .list (.sym op.word :: spellingsOfAll operands)
  | .seq _ items => .list (.sym "begin" :: spellingsOfAll items)
  | .bind _ name bindee => .list [.sym "let", .sym name, bindee.spelling]
  | .assign _ name bindee => .list [.sym "set!", .sym name, bindee.spelling]
  | .loop _ test body =>
    .list (.sym "while" :: test.spelling ::
      match body with
      | .seq _ items => spellingsOfAll items
      | e => [e.spelling])
  | .jump _ func args kwargs cc =>
    .list (.sym "jump" :: func.spelling :: (spellingsOfAll args ++ spellingsOfKwargs kwargs ++
      match cc with
      | none => []
      | some e => [.keyword "cc", e.spelling]))
  | .capture _ binders e => .list [.sym "capture", .names binders, e.spelling]

/-- What several expressions spell. -/
def spellingsOfAll : List Expr -> List Spelling
  | [] => []
  | e :: rest => e.spelling :: spellingsOfAll rest

/-- What keyword arguments spell. -/
def spellingsOfKwargs : List (String × Expr) -> List Spelling
  | [] => []
  | (name, e) :: rest => .keyword name :: e.spelling :: spellingsOfKwargs rest

/-- What the arms of a conditional spell. -/
def spellingsOfArms : List (Expr × Expr) -> List Spelling
  | [] => []
  | (test, body) :: rest =>
    .list (test.spelling ::
      match body with
      | .seq _ items => spellingsOfAll items
      | e => [e.spelling]) :: spellingsOfArms rest

end

/-- What an expression spells as a body. -/
def Expr.bodySpellings : Expr -> List Spelling
  | .seq _ items => spellingsOfAll items
  | e => [e.spelling]

/-- The text of an expression as a body. -/
def Expr.renderBody : Expr -> String
  | .seq _ items => renderItems items
  | e => " " ++ e.render

/-- What the alternative of a conditional spells. -/
def elseSpellings : Option Expr -> List Spelling
  | none => []
  | some e => [.list (.sym "else" :: e.bodySpellings)]

/-- What the continuation of a jump spells. -/
def ccSpellings : Option Expr -> List Spelling
  | none => []
  | some e => [.keyword "cc", e.spelling]

/-- What a toplevel form spells. -/
def Toplevel.spelling : Toplevel -> Spelling
  | define name bindee => .list [.sym "define", .sym name, bindee.spelling]
  | exec e => e.spelling

/-! ## Bodies -/

section Bodies

variable (mark : Mark) (signature : Signature) (test body : Expr) (arms : List (Expr × Expr))
  (alt : Option Expr) (rest : List (Expr × Expr))

/-- A function spells its head and its body. -/
theorem Expr.spelling_fn : (Expr.fn mark signature body).spelling =
    .list (signature.headSpelling ++ body.bodySpellings) := by
  cases body <;> rfl

/-- A loop spells its test and its body. -/
theorem Expr.spelling_loop : (Expr.loop mark test body).spelling =
    .list (.sym "while" :: test.spelling :: body.bodySpellings) := by
  cases body <;> rfl

/-- A conditional spells its arms and its alternative. -/
theorem Expr.spelling_cond : (Expr.cond mark arms alt).spelling =
    .list (.sym "cond" :: (spellingsOfArms arms ++ elseSpellings alt)) := by
  rcases alt with _ | e
  · rfl
  · cases e <;> rfl

/-- Each arm spells its test and its body. -/
theorem spellingsOfArms_cons : spellingsOfArms ((test, body) :: rest) =
    .list (test.spelling :: body.bodySpellings) :: spellingsOfArms rest := by
  cases body <;> rfl

/-- A jump spells its target, its arguments and its continuation. -/
theorem Expr.spelling_jump (func : Expr) (args : List Expr) (kwargs : List (String × Expr))
    (cc : Option Expr) : (Expr.jump mark func args kwargs cc).spelling =
      .list (.sym "jump" :: func.spelling ::
        (spellingsOfAll args ++ spellingsOfKwargs kwargs ++ ccSpellings cc)) := by
  cases cc <;> rfl

theorem Expr.render_fn : (Expr.fn mark signature body).render =
    "(" ++ signature.renderHead ++ body.renderBody ++ ")" := by
  cases body <;> rfl

theorem Expr.render_loop : (Expr.loop mark test body).render =
    "(while " ++ test.render ++ body.renderBody ++ ")" := by
  cases body <;> rfl

/-- A conditional is shown with its alternative behind its arms. -/
theorem Expr.toList_render_cond_some (alt : Expr) :
    (Expr.cond mark arms (some alt)).render.toList =
      "(cond".toList ++ (renderArms arms).toList ++
        (" (else".toList ++ alt.renderBody.toList ++ ")".toList) ++ ")".toList := by
  cases alt <;> simp [Expr.render, Expr.renderBody]

theorem renderArms_cons : renderArms ((test, body) :: rest) =
    " (" ++ test.render ++ body.renderBody ++ ")" ++ renderArms rest := by
  cases body <;> rfl

end Bodies

/-- The name that an expression is written as. -/
def Expr.symbol? (e : Expr) : Option String := e.spelling.symbol?

variable {e : Expr}

theorem Expr.symbol?_of_list {items : List Spelling} (spells : e.spelling = .list items) :
    e.symbol? = none := by
  simp [symbol?, spells, Spelling.symbol?]

/-- What an expression spells besides its parts and the words of the language. -/
def Expr.ownAtoms : Expr -> List Spelling
  | .lit _ value => [value.spelling]
  | .var _ name | .bind _ name _ | .assign _ name _ => [.sym name]
  | .fn _ signature _ => signature.params.map .sym ++ signature.decorators.map (.sym ∘ Prod.fst)
  | .call _ _ _ kwargs | .jump _ _ _ kwargs _ => kwargs.map (.keyword ∘ Prod.fst)
  | .capture _ binders _ => binders.map .sym
  | _ => []

/-- What an expression spells on its own is of a kind. -/
def Expr.OwnOf (kind : Spelling -> Prop) (e : Expr) : Prop := ∀ atom ∈ e.ownAtoms, kind atom

theorem Expr.ownOf_of_nil {kind : Spelling -> Prop} (none : e.ownAtoms = []) : e.OwnOf kind := by
  rw [OwnOf, none]
  exact fun _ member => absurd member List.not_mem_nil

end Trampoline
