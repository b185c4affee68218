import Trampoline.Surface.Form
import Trampoline.Syntax.Expr

/-!
# Programs from forms

Builds the program that a list of toplevel forms spells. Expressions and functions are numbered
as they are finished, so the parts of an expression have lower numbers than the expression, and
an inner function a lower number than the function around it.
-/

namespace Trampoline

/-- A step of building: it takes numbers, and may find a fault. -/
abbrev Build := StateT Counters (Except ParseError)

namespace Build

/-- The mark of the expression finished next. -/
def newMark (span : Span) : Build Mark := fun counters =>
  .ok (⟨counters.exprs, span⟩, { counters with exprs := counters.exprs + 1 })

/-- The number of the function finished next. -/
def newFunction : Build Nat := fun counters =>
  .ok (counters.functions, { counters with functions := counters.functions + 1 })

/-- Fail on the form at a span. -/
def malformed {α : Type} (table : LineTable) (span : Span) (malformation : Malformation) :
    Build α := fun _ =>
  .error ⟨table.locate span, .malformed malformation⟩

/-- The name that a form must be. -/
def name (table : LineTable) (owner : SpecialForm) (form : Form) : Build String :=
  match form.symbol? with
  | some name => pure name
  | none => malformed table form.span (.notAName owner.word)

/-- The names that a list must hold. -/
def names (table : LineTable) (owner : SpecialForm) (form : Form) : Build (List String) :=
  match form.items? with
  | some items => items.mapM (name table owner)
  | none => malformed table form.span (.notNames owner.word)

/-- A decorator as written, with its place. -/
def decorator (table : LineTable) (form : Form) : Build (String × Span) :=
  match form.symbol? with
  | some name => pure (name, form.span)
  | none => malformed table form.span .decoratorNotAName

/-- What a function has before its body. -/
structure Header where
  params : List String
  decorators : List (String × Span)
  /-- How many forms the decorators take. -/
  skipped : Nat

/-- The header of a function with these parameters, followed by `rest`. -/
def header (table : LineTable) (params : Form) (rest : List Form) : Build Header := do
  let params ← names table .fn params
  match rest with
  | .keyword _ "decorators" :: listed :: _ =>
    match listed.items? with
    | some items => do
      let decorators ← items.mapM (decorator table)
      pure ⟨params, decorators, 2⟩
    | none => malformed table listed.span .decoratorsNotListed
  | _ => pure ⟨params, [], 0⟩

/-- Finish an expression. -/
def finish (span : Span) (expr : Mark -> Expr) : Build Expr := do
  let mark ← newMark span
  pure (expr mark)

/-- Finish a function whose header and items are known; its body is a block with the span of the
whole function. -/
def finishFunction (regions : Regions) (span : Span) (name : Option String) (header : Header)
    (items : List Expr) : Build Expr := do
  let body ← finish span fun mark => .seq mark items
  let id ← newFunction
  let signature : Signature :=
    ⟨id, name, header.params, header.decorators, regions, .plain, []⟩
  finish span fun mark => .fn mark signature body

/-- Whether a form is the name `else`. -/
def isElse (form : Form) : Bool :=
  form.symbol? == some "else"

mutual

/-- The expression that a form spells. -/
def expr (table : LineTable) (regions : Regions) : Form -> Build Expr
  | .int span value => finish span fun mark => .lit mark (.int value)
  | .str span value => finish span fun mark => .lit mark (.str value)
  | .bool span value => finish span fun mark => .lit mark (.bool value)
  | .sym span name =>
    finish span fun mark => if name = "nil" then .lit mark .nil else .var mark name
  | .keyword span name => malformed table span (.strayKeyword name)
  | .list span [] => malformed table span .emptyApplication
  | .list span (head :: items) =>
    match head.symbol?.bind SpecialForm.ofWord? with
    | none => do
      let func ← expr table regions head
      let (args, kwargs) ← args table regions false items
      finish span fun mark => .call mark func args kwargs
    | some .define => malformed table span .innerDefinition
    | some .fn =>
      match items with
      | params :: rest => do
        let header ← header table params rest
        let items ← block table regions header.skipped rest
        finishFunction regions span none header items
      | _ => malformed table span (.wrongShape .fn)
    | some .defn =>
      match items with
      | binder :: params :: rest => do
        let name ← name table .defn binder
        let header ← header table params rest
        let items ← block table regions header.skipped rest
        let func ← finishFunction regions span (some name) header items
        finish span fun mark => .bind mark name func
      | _ => malformed table span (.wrongShape .defn)
    | some .conditional =>
      match items with
      | [test, body] => do
        let test ← expr table regions test
        let body ← expr table regions body
        finish span fun mark => .cond mark [(test, body)] none
      | [test, body, alt] => do
        let test ← expr table regions test
        let body ← expr table regions body
        let alt ← expr table regions alt
        finish span fun mark => .cond mark [(test, body)] (some alt)
      | _ => malformed table span (.wrongShape .conditional)
    | some .cond => do
      let (arms, alt) ← clauses table regions items
      if arms.isEmpty then malformed table span .noTestClause
      else finish span fun mark => .cond mark arms alt
    | some .and => do
      let operands ← block table regions 0 items
      finish span fun mark => .short mark .and operands
    | some .or => do
      let operands ← block table regions 0 items
      finish span fun mark => .short mark .or operands
    | some .begin => do
      let items ← block table regions 0 items
      finish span fun mark => .seq mark items
    | some .bind =>
      match items with
      | [binder, bindee] => do
        let name ← name table .bind binder
        let bindee ← expr table regions bindee
        finish span fun mark => .bind mark name bindee
      | _ => malformed table span (.wrongShape .bind)
    | some .assign =>
      match items with
      | [binder, bindee] => do
        let name ← name table .assign binder
        let bindee ← expr table regions bindee
        finish span fun mark => .assign mark name bindee
      | _ => malformed table span (.wrongShape .assign)
    | some .loop =>
      match items with
      | test :: rest => do
        let test ← expr table regions test
        let items ← block table regions 0 rest
        let body ← finish span fun mark => .seq mark items
        finish span fun mark => .loop mark test body
      | _ => malformed table span (.wrongShape .loop)
    | some .jump =>
      match items with
      | func :: rest => do
        let func ← expr table regions func
        let (args, kwargs) ← args table regions false rest
        finish span fun mark => .jump mark func args kwargs none
      | _ => malformed table span (.wrongShape .jump)
    | some .capture =>
      match items with
      | [binders, call] => do
        let binders ← names table .capture binders
        let call ← expr table regions call
        match call with
        | .call .. => finish span fun mark => .capture mark binders call
        | _ => malformed table span .captureOfNoCall
      | _ => malformed table span (.wrongShape .capture)

/-- The expressions of the forms after the first `skipped`, in order. -/
def block (table : LineTable) (regions : Regions) : (skipped : Nat) -> List Form ->
    Build (List Expr)
  | _, [] => pure []
  | skipped + 1, _ :: rest => block table regions skipped rest
  | 0, form :: rest => do
    let first ← expr table regions form
    let others ← block table regions 0 rest
    pure (first :: others)

/-- The arguments of a call, positional ones before keyword ones. -/
def args (table : LineTable) (regions : Regions) : (afterKeyword : Bool) -> List Form ->
    Build (List Expr × List (String × Expr))
  | _, [] => pure ([], [])
  | _, [.keyword span name] => malformed table span (.keywordWithoutValue name)
  | _, .keyword _ name :: value :: rest => do
    let value ← expr table regions value
    let (args, kwargs) ← args table regions true rest
    pure (args, (name, value) :: kwargs)
  | true, form :: _ => malformed table form.span .positionalAfterKeyword
  | false, form :: rest => do
    let first ← expr table regions form
    let (args, kwargs) ← args table regions false rest
    pure (first :: args, kwargs)

/-- The clauses of a conditional: its arms, and the alternative after them. -/
def clauses (table : LineTable) (regions : Regions) : List Form ->
    Build (List (Expr × Expr) × Option Expr)
  | [] => pure ([], none)
  | .list span (test :: body) :: rest =>
    if isElse test then
      if rest.isEmpty then do
        let items ← block table regions 0 body
        let alt ← finish span fun mark => .seq mark items
        pure ([], some alt)
      else malformed table span .elseNotLast
    else do
      let test ← expr table regions test
      let items ← block table regions 0 body
      let body ← finish span fun mark => .seq mark items
      let (arms, alt) ← clauses table regions rest
      pure ((test, body) :: arms, alt)
  | form :: _ => malformed table form.span .clauseNotAList

end

/-- The regions inside a block. Continuations come with tail calls. -/
def enter (regions : Regions) : Block -> Regions
  | .tco => { regions with tco := true }
  | .continuations => { regions with tco := true, cont := true }
  | .lazify => { regions with lazy := true }

mutual

/-- The toplevel forms that a form spells: those of a block, else one. -/
def toplevel (table : LineTable) (regions : Regions) : Form -> Build (List Toplevel)
  | .list span (head :: items) =>
    match head.symbol?.bind Block.ofWord? with
    | some block => toplevels table (enter regions block) items
    | none =>
      match head.symbol?.bind SpecialForm.ofWord? with
      | some .define =>
        match items with
        | [binder, bindee] => do
          let name ← name table .define binder
          let bindee ← expr table regions bindee
          pure [.define name bindee]
        | _ => malformed table span (.wrongShape .define)
      | some .defn =>
        match items with
        | binder :: params :: rest => do
          let name ← name table .defn binder
          let header ← header table params rest
          let items ← block table regions header.skipped rest
          let func ← finishFunction regions span (some name) header items
          pure [.define name func]
        | _ => malformed table span (.wrongShape .defn)
      | _ => do
        let e ← expr table regions (.list span (head :: items))
        pure [.exec e]
  | form => do
    let e ← expr table regions form
    pure [.exec e]

/-- The toplevel forms that several forms spell. -/
def toplevels (table : LineTable) (regions : Regions) : List Form -> Build (List Toplevel)
  | [] => pure []
  | form :: rest => do
    let first ← toplevel table regions form
    let others ← toplevels table regions rest
    pure (first ++ others)

end

end Build

/-- The program that the toplevel forms of a source spell. -/
def Program.ofForms (table : LineTable) (forms : List Form) : Except ParseError Program :=
  ((Build.toplevels table .none forms).run ⟨0, 0⟩).map fun (top, counters) => ⟨top, counters⟩

/-- The program that a source text spells. -/
def Program.parse (source : String) (path : Option String) : Except ParseError Program := do
  let table := LineTable.ofSource source path
  let forms ← Form.ofTokens table (tokenize source)
  Program.ofForms table forms

end Trampoline
