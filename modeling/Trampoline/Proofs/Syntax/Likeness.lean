import Mathlib.Data.Finset.Sort
import Mathlib.Data.String.Basic
import Trampoline.Proofs.Syntax.Recast

/-!
# Sources that differ in their decorators and blocks

Two sources are alike if they differ only in how decorators are listed and how blocks are nested:
the names in a list of decorators may stand in any order and more than once, and blocks directly
inside each other may change places or be repeated. What such sources spell is compared without
places, and with decorators in a standard order.
-/

namespace Trampoline

/-! ## Forms -/

/-- The same names, in any order and however often. Whatever is no name counts as one thing. -/
def SameNames (listed listed' : List Form) : Prop :=
  ∀ name, name ∈ listed.map Form.symbol? ↔ name ∈ listed'.map Form.symbol?

mutual

/-- Forms that differ only in places and in how decorators are listed. -/
inductive FormAlike : Form -> Form -> Prop
  | int {span span' : Span} {value : Int64} : FormAlike (.int span value) (.int span' value)
  | str {span span' : Span} {value : String} : FormAlike (.str span value) (.str span' value)
  | bool {span span' : Span} {value : Bool} : FormAlike (.bool span value) (.bool span' value)
  | sym {span span' : Span} {name : String} : FormAlike (.sym span name) (.sym span' name)
  | keyword {span span' : Span} {name : String} :
      FormAlike (.keyword span name) (.keyword span' name)
  | list {span span' : Span} {items items' : List Form} (inside : FormsAlike items items') :
    FormAlike (.list span items) (.list span' items')
  | fn {span span' word word' : Span} {params params' : Form} {rest rest' : List Form}
    (named : FormAlike params params') (after : DecoratedAlike rest rest') :
    FormAlike (.list span (.sym word "fn" :: params :: rest))
      (.list span' (.sym word' "fn" :: params' :: rest'))
  | defn {span span' word word' : Span} {binder binder' params params' : Form}
    {rest rest' : List Form} (bound : FormAlike binder binder') (named : FormAlike params params')
    (after : DecoratedAlike rest rest') :
    FormAlike (.list span (.sym word "defn" :: binder :: params :: rest))
      (.list span' (.sym word' "defn" :: binder' :: params' :: rest'))

/-- Forms that are alike one by one. -/
inductive FormsAlike : List Form -> List Form -> Prop
  | nil : FormsAlike [] []
  | cons {form form' : Form} {rest rest' : List Form} (first : FormAlike form form')
    (others : FormsAlike rest rest') : FormsAlike (form :: rest) (form' :: rest')

/-- Decorators with the same names before bodies that are alike. -/
inductive DecoratedAlike : List Form -> List Form -> Prop
  | listed {keyword keyword' span span' : Span} {listed listed' body body' : List Form}
    (names : SameNames listed listed') (bodies : FormsAlike body body') :
    DecoratedAlike (.keyword keyword "decorators" :: .list span listed :: body)
      (.keyword keyword' "decorators" :: .list span' listed' :: body')

end

mutual

/-- Toplevel forms that differ only in places, in how decorators are listed and in how blocks are
nested. -/
inductive TopAlike : Form -> Form -> Prop
  | same {form form' : Form} (alike : FormAlike form form') : TopAlike form form'
  | block {span span' word word' : Span} {name : String} {items items' : List Form}
    (isBlock : (Block.ofWord? name).isSome = true) (inside : TopsAlike items items') :
    TopAlike (.list span (.sym word name :: items)) (.list span' (.sym word' name :: items'))
  | exchange {span inner word word' : Span} {name name' : String} {items : List Form}
    (isBlock : (Block.ofWord? name).isSome = true)
    (isBlock' : (Block.ofWord? name').isSome = true) :
    TopAlike (.list span [.sym word name, .list inner (.sym word' name' :: items)])
      (.list span [.sym word' name', .list inner (.sym word name :: items)])
  | again {span inner word word' : Span} {name : String} {items : List Form}
    (isBlock : (Block.ofWord? name).isSome = true) :
    TopAlike (.list span (.sym word name :: items))
      (.list span [.sym word name, .list inner (.sym word' name :: items)])
  | symm {form form' : Form} (alike : TopAlike form form') : TopAlike form' form
  | trans {form form' form'' : Form} (alike : TopAlike form form')
      (alike' : TopAlike form' form'') :
    TopAlike form form''

/-- Toplevel forms that are alike one by one. -/
inductive TopsAlike : List Form -> List Form -> Prop
  | nil : TopsAlike [] []
  | cons {form form' : Form} {rest rest' : List Form} (first : TopAlike form form')
    (others : TopsAlike rest rest') : TopsAlike (form :: rest) (form' :: rest')

end

variable {form form' : Form}

theorem FormAlike.symbol? (alike : FormAlike form form') : form.symbol? = form'.symbol? := by
  cases alike <;> rfl

/-- Forms that are alike are the same symbols one by one. -/
theorem FormsAlike.symbols {forms forms' : List Form} (alike : FormsAlike forms forms') :
    forms.map Form.symbol? = forms'.map Form.symbol? := by
  induction forms generalizing forms' with
  | nil =>
    cases alike
    rfl
  | cons form rest ih =>
    cases alike with
    | cons first others => rw [List.map_cons, List.map_cons, first.symbol?, ih others]

/-- What is like a form that is no keyword is none either. -/
theorem FormAlike.plain (alike : FormAlike form form')
    (plain : ∀ span name, form ≠ .keyword span name) : ∀ span name, form' ≠ .keyword span name := by
  rintro span name rfl
  cases alike
  exact plain _ _ rfl

mutual

theorem FormAlike.refl : ∀ form : Form, FormAlike form form
  | .int .. => .int
  | .str .. => .str
  | .bool .. => .bool
  | .sym .. => .sym
  | .keyword .. => .keyword
  | .list _ items => .list (FormsAlike.refl items)

theorem FormsAlike.refl : ∀ forms : List Form, FormsAlike forms forms
  | [] => .nil
  | form :: rest => .cons (FormAlike.refl form) (FormsAlike.refl rest)

end

/-- An item is smaller than its list, which the recursion over forms descends by. -/
theorem Form.sizeOf_item {item : Form} (member : item ∈ form.items?.getD []) :
    sizeOf item < sizeOf form := by
  cases form with
  | list span items =>
    have smaller := List.sizeOf_lt_of_mem member
    simp only [Form.items?, Option.getD_some] at smaller
    simp only [Form.list.sizeOf_spec]
    omega
  | _ => cases member

/-- What forms that are alike hold can be told apart by no symbol. -/
theorem FormAlike.symbols (alike : FormAlike form form') :
    form.items?.map (List.map Form.symbol?) = form'.items?.map (List.map Form.symbol?) := by
  cases alike with
  | list inside => simp only [Form.items?, Option.map_some, inside.symbols]
  | fn named after =>
    cases after with
    | listed _ bodies =>
      simp only [Form.items?, Option.map_some, List.map_cons, named.symbol?, bodies.symbols]
      rfl
  | defn bound named after =>
    cases after with
    | listed _ bodies =>
      simp only [Form.items?, Option.map_some, List.map_cons, bound.symbol?, named.symbol?,
        bodies.symbols]
      rfl
  | _ => rfl

/-- The names that a form lists. -/
def Form.names? (form : Form) : Option (List String) := form.items?.bind (·.mapM Form.symbol?)

/-- A form is a list of names if all its items are symbols. -/
theorem Form.names?_eq (form : Form) :
    form.names? = (form.items?.map (List.map Form.symbol?)).bind (·.mapM id) := by
  unfold names?
  cases form.items? with
  | none => rfl
  | some items => rw [Option.map_some, Option.bind_some, Option.bind_some, List.mapM_map,
    Function.id_comp]

/-! ## Expressions -/

/-- The names of decorators without places, sorted and each once. -/
def standardNames : Redecoration := fun decorators =>
  ((decorators.map Prod.fst).toFinset.sort (· ≤ ·)).map (·, .dummy)

theorem mem_standardNames (decorators : List (String × Span)) (name : String) :
    name ∈ (standardNames decorators).map Prod.fst ↔ name ∈ decorators.map Prod.fst := by
  simp [standardNames]

/-- Decorators with the same names have the same standard. -/
theorem standardNames_ext {decorators decorators' : List (String × Span)}
    (same : ∀ name, name ∈ decorators.map Prod.fst ↔ name ∈ decorators'.map Prod.fst) :
    standardNames decorators = standardNames decorators' := by
  have finsets : (decorators.map Prod.fst).toFinset = (decorators'.map Prod.fst).toFinset :=
    Finset.ext fun name => by simpa using same name
  rw [standardNames, standardNames, finsets]

/-- The expression without its places, and with decorators in a standard order. -/
abbrev Expr.standard (e : Expr) : Expr := e.recast (fun _ => .dummy) standardNames

/-- Several expressions without their places. -/
abbrev standardAll (es : List Expr) : List Expr := recastAll (fun _ => .dummy) standardNames es

/-- Keyword arguments without their places. -/
abbrev standardKwargs (kwargs : List (String × Expr)) : List (String × Expr) :=
  recastKwargs (fun _ => .dummy) standardNames kwargs

/-- Arms without their places. -/
abbrev standardArms (arms : List (Expr × Expr)) : List (Expr × Expr) :=
  recastArms (fun _ => .dummy) standardNames arms

/-- A recast expression is a call if the expression is. -/
theorem Expr.isCall_recast (place : Span -> Span) (redecorate : Redecoration) (e : Expr) :
    (e.recast place redecorate).isCall = e.isCall := by
  cases e with
  | cond _ _ alt => cases alt <;> rfl
  | jump _ _ _ _ cc => cases cc <;> rfl
  | _ => rfl

/-- Expressions that differ only in places and in how decorators are listed. -/
abbrev Expr.Alike (e e' : Expr) : Prop := e.standard = e'.standard

end Trampoline
