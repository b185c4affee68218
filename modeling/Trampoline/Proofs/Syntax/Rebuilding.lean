import Trampoline.Proofs.Syntax.Likeness

/-!
# Programs from sources that are alike

Forms that are alike are both malformed, or they spell the same but for places and for how
decorators are listed. Blocks set the regions of what is in them, so it does not matter in which
order they are around it, nor how often.
-/

namespace Trampoline

namespace Build

variable {table table' : LineTable} {regions : Regions}

/-! ## Names -/

/-- The step does not change the state, and ends with the answer if there is one. -/
inductive Answers {σ ε α : Type} (step : StateT σ (Except ε) α) : Option α -> Prop
  | ends {value : α} (runs : ∀ state, step.run state = .ok (value, state)) :
      Answers step (some value)
  | fails (runs : ∀ state, ∃ error, step.run state = .error error) : Answers step none

namespace Answers

variable {σ ε ε' α β : Type} {step : StateT σ (Except ε) α} {answer : Option α}

theorem pure (value : α) : Answers (pure value : StateT σ (Except ε) α) (some value) :=
  .ends fun _ => rfl

theorem malformed (span : Span) (malformation : Malformation) :
    Answers (malformed table span malformation : Build α) none :=
  .fails fun _ => ⟨_, rfl⟩

theorem bind {next : α -> StateT σ (Except ε) β} {answer' : α -> Option β}
    (first : Answers step answer) (second : ∀ value, Answers (next value) (answer' value)) :
    Answers (step >>= next) (answer.bind answer') := by
  cases first with
  | fails runs =>
    refine .fails fun state => ?_
    obtain ⟨error, fails⟩ := runs state
    exact ⟨error, by rw [StateT.run_bind, fails]; rfl⟩
  | @ends value runs =>
    have continues (state : σ) : (step >>= next).run state = (next value).run state := by
      rw [StateT.run_bind, runs]
      rfl
    have after := second value
    rw [Option.bind_some]
    generalize answer' value = answer at after ⊢
    cases after with
    | ends runs' => exact .ends fun state => (continues state).trans (runs' state)
    | fails runs' =>
      exact .fails fun state => (runs' state).imp fun _ fails => (continues state).trans fails

theorem mapM {γ : Type} {read : γ -> StateT σ (Except ε) α} {answers : γ -> Option α}
    (each : ∀ item, Answers (read item) (answers item)) (items : List γ) :
    Answers (items.mapM read) (items.mapM answers) := by
  induction items with
  | nil => exact .pure []
  | cons item rest ih =>
    rw [List.mapM_cons, List.mapM_cons]
    exact .bind (each item) fun _ => .bind ih fun _ => .pure _

/-- Steps with answers that are related, side by side. -/
theorem alongside {step' : StateT σ (Except ε') β} {answer' : Option β} {related : α -> β -> Prop}
    (answers : Answers step answer) (answers' : Answers step' answer')
    (same : Option.Rel related answer answer') : Alongside related step step' := by
  intro state
  cases same with
  | none =>
    cases answers with | fails runs =>
    cases answers' with | fails runs' =>
    obtain ⟨error, fails⟩ := runs state
    obtain ⟨error', fails'⟩ := runs' state
    exact .inl ⟨error, error', fails, fails'⟩
  | some holds =>
    cases answers with | ends runs =>
    cases answers' with | ends runs' =>
    exact .inr ⟨_, _, state, runs state, runs' state, holds⟩

theorem alike {step' : StateT σ (Except ε') α} (answers : Answers step answer)
    (answers' : Answers step' answer) : Alongside (· = ·) step step' := by
  refine answers.alongside answers' ?_
  cases answer with
  | none => exact .none
  | some value => exact .some rfl

end Answers

/-- A form is read as a name if it is a symbol. -/
theorem name_answers (owner : SpecialForm) (form : Form) :
    Answers (name table owner form) form.symbol? := by
  unfold name
  cases form.symbol? with
  | none => exact .malformed ..
  | some name => exact .pure name

/-- A form is read as names if it is a list of symbols. -/
theorem names_answer (owner : SpecialForm) (form : Form) :
    Answers (names table owner form) form.names? := by
  unfold names Form.names?
  cases form.items? with
  | none => exact .malformed ..
  | some items => exact .mapM (name_answers owner) items

theorem name_alike (owner : SpecialForm) {form form' : Form} (alike : FormAlike form form') :
    Alongside (· = ·) (name table owner form) (name table' owner form') :=
  (name_answers owner form).alike (alike.symbol? ▸ name_answers owner form')

/-- Forms that are alike are read as the same names. -/
theorem names_alike (owner : SpecialForm) {form form' : Form} (alike : FormAlike form form') :
    Alongside (· = ·) (names table owner form) (names table' owner form') :=
  (names_answer owner form).alike (by
    rw [form.names?_eq, alike.symbols, ← form'.names?_eq]
    exact names_answer owner form')

/-! ## Decorators -/

/-- A decorator as written, if it is a name. -/
def decorator? (form : Form) : Option (String × Span) := form.symbol?.map (·, form.span)

/-- A form is read as a decorator if it is a symbol. -/
theorem decorator_answers (form : Form) : Answers (decorator table form) (decorator? form) := by
  unfold decorator decorator?
  cases form.symbol? with
  | none => exact .malformed ..
  | some name => exact .pure _

/-- Decorators are read if all of them are names. -/
theorem decorators?_eq (listed : List Form) :
    (none ∈ listed.map Form.symbol? ∧ listed.mapM decorator? = none) ∨
      ∃ decorators, listed.mapM decorator? = some decorators ∧
        listed.map Form.symbol? = (decorators.map Prod.fst).map some := by
  induction listed with
  | nil => exact .inr ⟨[], rfl, rfl⟩
  | cons form rest ih =>
    cases symbol : form.symbol? with
    | none => exact .inl ⟨by simp [symbol], by simp [decorator?, symbol]⟩
    | some name =>
      rcases ih with ⟨member, none⟩ | ⟨decorators, reads, names⟩
      · exact .inl ⟨by simp [symbol, member], by simp [none]⟩
      · exact .inr ⟨(name, form.span) :: decorators, by simp [decorator?, symbol, reads],
          by simp [symbol, names]⟩

/-- Decorators of the same names. -/
def SameDecorators (decorators decorators' : List (String × Span)) : Prop :=
  standardNames decorators = standardNames decorators'

/-- Lists with the same names are read as the same decorators. -/
theorem decorators_alike {listed listed' : List Form} (same : SameNames listed listed') :
    Alongside SameDecorators (listed.mapM (decorator table)) (listed'.mapM (decorator table')) := by
  refine (Answers.mapM decorator_answers listed).alongside (.mapM decorator_answers listed') ?_
  rcases decorators?_eq listed with ⟨member, none⟩ | ⟨decorators, reads, names⟩ <;>
    rcases decorators?_eq listed' with ⟨member', none'⟩ | ⟨decorators', reads', names'⟩
  · rw [none, none']
    exact .none
  · rw [same, names'] at member
    simp at member
  · rw [← same, names] at member'
    simp at member'
  · rw [reads, reads']
    refine .some (standardNames_ext fun name => ?_)
    have both := same (some name)
    rw [names, names'] at both
    simpa using both

/-- What a function has before its body, and what follows, alike. -/
structure HeaderAlike (rest rest' : List Form) (header header' : Header) : Prop where
  params : header.params = header'.params
  decorators : SameDecorators header.decorators header'.decorators
  body : FormsAlike (rest.drop header.skipped) (rest'.drop header'.skipped)

/-- Headers that are alike have the same parameters and decorators, and leave bodies alike. -/
theorem header_alike {params params' : Form} {rest rest' : List Form}
    (named : FormAlike params params')
    (after : FormsAlike rest rest' ∨ DecoratedAlike rest rest') :
    Alongside (HeaderAlike rest rest') (header table params rest)
      (header table' params' rest') := by
  unfold header
  refine .bind (names_alike .fn named) ?_
  rintro params _ rfl
  rcases after with after | ⟨names, bodies⟩
  · split
    · cases after with | cons first others =>
      cases first
      cases others with | cons listing bodies =>
      have symbols := listing.symbols
      rename_i listed _ _ listed' _
      simp only
      cases items : listed.items? with
      | none =>
        cases items' : listed'.items? with
        | none => exact fun _ => .inl ⟨_, _, rfl, rfl⟩
        | some _ => simp [items, items'] at symbols
      | some _ =>
        cases items' : listed'.items? with
        | none => simp [items, items'] at symbols
        | some _ =>
          simp only [items, items', Option.map_some, Option.some.injEq] at symbols
          refine .bind (decorators_alike fun name => by rw [symbols]) fun _ _ same => .pure ?_
          exact ⟨rfl, same, bodies⟩
    · rename_i undecorated
      split
      · cases after with | cons first others =>
        cases first
        cases others with | cons listing bodies =>
        exact absurd rfl (undecorated _ _ _)
      · exact .pure ⟨rfl, rfl, after⟩
  · exact .bind (decorators_alike names) fun _ _ same => .pure ⟨rfl, same, bodies⟩

/-! ## Bodies -/

theorem finish_alike {span span' : Span} {make make' : Mark -> Expr}
    (alike : ∀ id, (make ⟨id, span⟩).Alike (make' ⟨id, span'⟩)) :
    Alongside Expr.Alike (finish span make) (finish span' make') :=
  fun counters => .inr ⟨_, _, _, rfl, rfl, alike counters.exprs⟩

theorem newFunction_alike : Alongside (· = ·) newFunction newFunction :=
  fun _ => .inr ⟨_, _, _, rfl, rfl, rfl⟩

/-- Malformed forms fail on both sides. -/
theorem malformed_alike {α β : Type} {related : α -> β -> Prop} {span span' : Span}
    {malformation malformation' : Malformation} :
    Alongside related (malformed table span malformation : Build α)
      (malformed table' span' malformation' : Build β) :=
  fun _ => .inl ⟨_, _, rfl, rfl⟩

/-- Blocks of items that are alike are alike. -/
theorem finishBlock_alike {span span' : Span} {items items' : List Expr}
    (same : standardAll items = standardAll items') :
    Alongside Expr.Alike (finish span fun mark => .seq mark items)
      (finish span' fun mark => .seq mark items') :=
  finish_alike fun id => by simp only [Expr.Alike, Expr.standard, Expr.recast, same, Mark.recast]

/-- Functions with headers and bodies alike are alike. -/
theorem finishFunction_alike {span span' : Span} {rest rest' : List Form} {header header' : Header}
    {items items' : List Expr} (binder : Option String)
    (alike : HeaderAlike rest rest' header header')
    (same : standardAll items = standardAll items') :
    Alongside Expr.Alike (finishFunction regions span binder header items)
      (finishFunction regions span' binder header' items') := by
  unfold finishFunction
  refine .bind (finishBlock_alike same) fun body body' bodies => ?_
  refine .bind newFunction_alike ?_
  rintro id _ rfl
  refine finish_alike fun number => ?_
  simp only [Expr.Alike, Expr.standard] at bodies ⊢
  simp only [Expr.recast, bodies, Mark.recast, Signature.recast, alike.params]
  rw [show standardNames header.decorators = standardNames header'.decorators from alike.decorators]

/-- A body is read without the forms that its header took. -/
theorem block_drop : ∀ (skipped : Nat) (forms : List Form),
    block table regions skipped forms = block table regions 0 (forms.drop skipped)
  | _, [] => by simp [block]
  | 0, _ :: _ => rfl
  | skipped + 1, _ :: rest => by
    rw [block, List.drop_succ_cons, block_drop skipped rest]

/-- What comes of reading the arguments of a call twice. -/
structure ArgsAlike (read read' : List Expr × List (String × Expr)) : Prop where
  args : standardAll read.1 = standardAll read'.1
  kwargs : standardKwargs read.2 = standardKwargs read'.2

/-- What comes of reading the clauses of a conditional twice. -/
structure ClausesAlike (read read' : List (Expr × Expr) × Option Expr) : Prop where
  arms : standardArms read.1 = standardArms read'.1
  alt : read.2.map Expr.standard = read'.2.map Expr.standard

/-- Conditionals with clauses alike are alike. -/
theorem cond_alike {arms arms' : List (Expr × Expr)} {alt alt' : Option Expr} {span span' : Span}
    (alike : ClausesAlike (arms, alt) (arms', alt')) (id : Nat) :
    (Expr.cond ⟨id, span⟩ arms alt).Alike (.cond ⟨id, span'⟩ arms' alt') := by
  obtain ⟨same, other⟩ := alike
  cases alt <;> cases alt' <;> simp only [Option.map_some, Option.map_none, Option.some.injEq,
    reduceCtorEq] at other <;>
    simp only [Expr.Alike, Expr.standard, Expr.recast, same, other, Mark.recast]

/-- Clauses that are alike are empty on both sides or on neither. -/
theorem ClausesAlike.isEmpty {read read' : List (Expr × Expr) × Option Expr}
    (alike : ClausesAlike read read') : read.1.isEmpty = read'.1.isEmpty := by
  obtain ⟨arms, alt⟩ := read
  obtain ⟨arms', alt'⟩ := read'
  have same := alike.arms
  cases arms <;> cases arms' <;> first | rfl | cases same

/-- Arms are alike if the first and the others are. -/
theorem arms_alike {test test' body body' : Expr} {rest rest' : List (Expr × Expr)}
    (tests : test.Alike test') (bodies : body.Alike body')
    (others : standardArms rest = standardArms rest') :
    standardArms ((test, body) :: rest) = standardArms ((test', body') :: rest') := by
  simp only [Expr.Alike, Expr.standard, standardArms] at tests bodies others ⊢
  rw [recastArms, recastArms, tests, bodies, others]

/-- Bindings of bindees alike are alike. -/
theorem bind_alike {bindee bindee' : Expr} {span span' : Span} {name : String} {id : Nat}
    (same : bindee.Alike bindee') :
    (Expr.bind ⟨id, span⟩ name bindee).Alike (.bind ⟨id, span'⟩ name bindee') := by
  simp only [Expr.Alike, Expr.standard] at same ⊢
  simp only [Expr.recast, same, Mark.recast]

/-- Whatever is like the form spells something alike. -/
def SpellsAlike (table table' : LineTable) (regions : Regions) (form : Form) : Prop :=
  ∀ form', FormAlike form form' ->
    Alongside Expr.Alike (expr table regions form) (expr table' regions form')

/-- Whatever is like a form in one of the lists spells something alike. -/
abbrev InsideAlike (table table' : LineTable) (regions : Regions) (forms : List Form) : Prop :=
  ∀ form ∈ forms, ∀ item ∈ form.items?.getD [], SpellsAlike table table' regions item

section Parts

variable {forms forms' : List Form}

/-- Forms that are alike are blocks that are. -/
theorem block_alike (each : ∀ form ∈ forms, SpellsAlike table table' regions form)
    (alike : FormsAlike forms forms') :
    Alongside (fun es es' => standardAll es = standardAll es') (block table regions 0 forms)
      (block table' regions 0 forms') := by
  induction forms generalizing forms' with
  | nil =>
    cases alike
    exact .pure rfl
  | cons form rest ih =>
    obtain ⟨spells, spell⟩ := List.forall_mem_cons.mp each
    cases alike with | cons first others =>
    rw [block, block]
    refine .bind (spells _ first) fun e e' same =>
      .bind (ih spell others) fun es es' hold => .pure ?_
    simp only [Expr.Alike, Expr.standard, standardAll] at same hold ⊢
    rw [recastAll, recastAll, same, hold]

/-- A positional argument is read alike if it and the others are. -/
theorem positional_alike {form form' : Form} {rest rest' : List Form}
    (plain : ∀ span name, form ≠ .keyword span name) (alike : FormAlike form form')
    (first : Alongside Expr.Alike (expr table regions form) (expr table' regions form'))
    (others :
      Alongside ArgsAlike (args table regions false rest) (args table' regions false rest')) :
    Alongside ArgsAlike (args table regions false (form :: rest))
      (args table' regions false (form' :: rest')) := by
  rw [args_positional rest plain, args_positional rest' (alike.plain plain)]
  refine .bind first fun e e' same => .bind others ?_
  rintro ⟨args, kwargs⟩ ⟨args', kwargs'⟩ ⟨values, named⟩
  refine .pure ⟨?_, named⟩
  simp only [Expr.Alike, Expr.standard, standardAll] at same values ⊢
  rw [recastAll, recastAll, same, values]

/-- A keyword argument is read alike if its value and the others are. -/
theorem keyword_alike {span span' : Span} {word : String} {afterKeyword : Bool}
    {value value' : Form} {rest rest' : List Form}
    (first : Alongside Expr.Alike (expr table regions value) (expr table' regions value'))
    (others : Alongside ArgsAlike (args table regions true rest) (args table' regions true rest')) :
    Alongside ArgsAlike (args table regions afterKeyword (.keyword span word :: value :: rest))
      (args table' regions afterKeyword (.keyword span' word :: value' :: rest')) := by
  rw [args, args]
  refine .bind first fun e e' same => .bind others ?_
  rintro ⟨args, kwargs⟩ ⟨args', kwargs'⟩ ⟨values, named⟩
  refine .pure ⟨values, ?_⟩
  simp only [Expr.Alike, Expr.standard, standardKwargs] at same named ⊢
  rw [recastKwargs, recastKwargs, same, named]

/-- A positional argument after a keyword is refused. -/
theorem args_late {form : Form} (rest : List Form)
    (plain : ∀ span name, form ≠ .keyword span name) :
    args table regions true (form :: rest) = malformed table form.span .positionalAfterKeyword := by
  cases form with
  | keyword span name => exact absurd rfl (plain span name)
  | _ => rw [args] <;> simp

/-- Forms that are alike are read as arguments alike. -/
theorem args_alike : ∀ (afterKeyword : Bool) {forms forms' : List Form},
    (∀ form ∈ forms, SpellsAlike table table' regions form) -> FormsAlike forms forms' ->
    Alongside ArgsAlike (args table regions afterKeyword forms)
      (args table' regions afterKeyword forms')
  | afterKeyword, [], _, _, alike => by
    cases alike
    cases afterKeyword <;> exact .pure ⟨rfl, rfl⟩
  | afterKeyword, form :: rest, _, each, alike => by
    obtain ⟨spells, spell⟩ := List.forall_mem_cons.mp each
    cases alike with | cons first others =>
    by_cases keyword : ∃ span name, form = .keyword span name
    · obtain ⟨span, name, rfl⟩ := keyword
      cases first
      cases others with
      | nil => cases afterKeyword <;> exact malformed_alike
      | cons value rest =>
        obtain ⟨spells, spell⟩ := List.forall_mem_cons.mp spell
        exact keyword_alike (spells _ value) (args_alike true spell rest)
    · have plain : ∀ span name, form ≠ .keyword span name :=
        fun span name same => keyword ⟨span, name, same⟩
      cases afterKeyword with
      | true =>
        rw [args_late rest plain, args_late _ (first.plain plain)]
        exact malformed_alike
      | false => exact positional_alike plain first (spells _ first) (args_alike false spell others)

/-- A keyword is no expression of a block. -/
theorem block_keyword (span : Span) (name : String) {forms : List Form}
    (member : .keyword span name ∈ forms) :
    Produces True (block table regions 0 forms) fun _ => False := by
  induction forms with
  | nil => cases member
  | cons form rest ih =>
    rw [block]
    rcases List.mem_cons.mp member with rfl | member
    · rw [expr]
      exact ⟨fun _ => .inr ⟨trivial, _, rfl⟩⟩
    · exact .bind (.any _) fun _ _ => .bind (ih member) fun _ => False.elim

/-- A function is no clause if it has decorators. -/
theorem clauses_function {span word keyword : Span} {name : String} (before : List Form)
    {after rest : List Form} (plain : name ≠ "else") :
    Produces True (clauses table regions
      (.list span (.sym word name :: (before ++ .keyword keyword "decorators" :: after)) :: rest))
      fun _ => False := by
  have isElse : isElse (.sym word name) = false := by simpa [isElse, Form.symbol?] using plain
  rw [clauses]
  simp only [isElse, Bool.false_eq_true, if_false]
  refine .bind (.any _) fun _ _ => .bind (block_keyword keyword "decorators" ?_) fun _ => False.elim
  simp

/-- Forms that are alike are read as clauses alike. -/
theorem clauses_alike (each : InsideAlike table table' regions forms)
    (alike : FormsAlike forms forms') :
    Alongside ClausesAlike (clauses table regions forms) (clauses table' regions forms') := by
  induction forms generalizing forms' with
  | nil =>
    cases alike
    exact .pure ⟨rfl, rfl⟩
  | cons form rest ih =>
    obtain ⟨spells, spell⟩ := List.forall_mem_cons.mp each
    cases alike with | @cons _ _ _ rest' first others =>
    have others_alike := ih spell others
    cases first with
    | list inside =>
      cases inside with
      | nil =>
        rw [clauses, clauses] <;> first | exact malformed_alike | simp
      | cons tests bodies =>
        rename_i test test' body body'
        obtain ⟨spells, spell⟩ := List.forall_mem_cons.mp spells
        have sameElse : isElse test = isElse test' := by rw [isElse, isElse, tests.symbol?]
        have sameEnd : rest.isEmpty = rest'.isEmpty := by cases others <;> rfl
        rw [clauses, clauses, sameElse, sameEnd]
        split
        · split
          · refine .bind (block_alike spell bodies) fun items items' same => ?_
            refine .bind (finishBlock_alike same) fun alt alt' alts => .pure ⟨rfl, ?_⟩
            exact congrArg some alts
          · exact malformed_alike
        · refine .bind (spells _ tests) fun test test' sameTest => ?_
          refine .bind (block_alike spell bodies) fun items items' same => ?_
          refine .bind (finishBlock_alike same) fun body body' sameBody => .bind others_alike ?_
          rintro ⟨arms, alt⟩ ⟨arms', alt'⟩ ⟨sameArms, sameAlt⟩
          exact .pure ⟨arms_alike sameTest sameBody sameArms, sameAlt⟩
    | fn named after =>
      cases after
      exact .of_never (clauses_function [_] (by decide)) (clauses_function [_] (by decide))
    | defn bound named after =>
      cases after
      exact .of_never (clauses_function [_, _] (by decide)) (clauses_function [_, _] (by decide))
    | _ => rw [clauses, clauses] <;> first | exact malformed_alike | simp

end Parts

/-! ## Special forms -/

section Functions

variable {params params' : Form} {rest rest' : List Form}

/-- The header and the items of a function, however the function is finished. -/
theorem function_alike {α β : Type} {related : α -> β -> Prop}
    (each : ∀ form ∈ rest, SpellsAlike table table' regions form)
    (named : FormAlike params params') (after : FormsAlike rest rest' ∨ DecoratedAlike rest rest')
    {next : Header -> List Expr -> Build α} {next' : Header -> List Expr -> Build β}
    (finishes : ∀ header header' items items', HeaderAlike rest rest' header header' ->
      standardAll items = standardAll items' ->
      Alongside related (next header items) (next' header' items')) :
    Alongside related
      (do
        let header ← header table params rest
        let items ← block table regions header.skipped rest
        next header items)
      (do
        let header ← header table' params' rest'
        let items ← block table' regions header.skipped rest'
        next' header items) := by
  refine .bind (header_alike named after) fun header header' alike => ?_
  rw [block_drop header.skipped, block_drop header'.skipped]
  have inBody : ∀ form ∈ rest.drop header.skipped, SpellsAlike table table' regions form :=
    fun form member => each form (List.mem_of_mem_drop member)
  exact .bind (block_alike inBody alike.body) fun items items' same =>
    finishes header header' items items' alike same

variable {head head' : Form} {span span' : Span} (heads : FormAlike head head')
  (each : ∀ form ∈ rest, SpellsAlike table table' regions form) (named : FormAlike params params')
  (after : FormsAlike rest rest' ∨ DecoratedAlike rest rest')

include heads each named after

/-- Functions without a name are read alike, also with other lists of decorators. -/
theorem anonymous_alike (special : head.symbol?.bind SpecialForm.ofWord? = some .fn) :
    Alongside Expr.Alike (expr table regions (.list span (head :: params :: rest)))
      (expr table' regions (.list span' (head' :: params' :: rest'))) := by
  unfold expr
  rw [← heads.symbol?, special]
  exact function_alike each named after fun _ _ _ _ alike same =>
    finishFunction_alike none alike same

/-- Definitions of functions are read alike, also with other lists of decorators. -/
theorem definition_alike {binder binder' : Form} (bound : FormAlike binder binder')
    (special : head.symbol?.bind SpecialForm.ofWord? = some .defn) :
    Alongside Expr.Alike (expr table regions (.list span (head :: binder :: params :: rest)))
      (expr table' regions (.list span' (head' :: binder' :: params' :: rest'))) := by
  unfold expr
  rw [← heads.symbol?, special]
  refine .bind (name_alike .defn bound) ?_
  rintro name _ rfl
  refine function_alike each named after fun _ _ _ _ alike same => ?_
  refine .bind (finishFunction_alike (some name) alike same) fun func func' funcs => ?_
  exact finish_alike fun _ => bind_alike funcs

end Functions

section Forms

variable {head head' : Form} {items items' : List Form} {span span' : Span}

/-- Captures of calls that are alike are alike, and of anything else refused. -/
theorem capture_alike {call call' : Expr} {binders : List String} (same : call.Alike call') :
    Alongside Expr.Alike
      (match call with
      | .call .. => finish span fun mark => .capture mark binders call
      | _ => malformed table span .captureOfNoCall)
      (match call' with
      | .call .. => finish span' fun mark => .capture mark binders call'
      | _ => malformed table' span' .captureOfNoCall) := by
  have sameCall : call.isCall = call'.isCall := by
    rw [← call.isCall_recast (fun _ => .dummy) standardNames,
      ← call'.isCall_recast (fun _ => .dummy) standardNames]
    exact congrArg Expr.isCall same
  cases call with
  | call =>
    cases call' with
    | call =>
      exact finish_alike fun id => congrArg (Expr.capture ⟨id, .dummy⟩ binders) same
    | _ => cases sameCall
  | _ => cases call' <;> first | exact malformed_alike | cases sameCall

variable (heads : FormAlike head head')
  (each : ∀ form ∈ items, SpellsAlike table table' regions form) (others : FormsAlike items items')

include heads each others

/-- Calls are read alike if their callees are. -/
theorem call_alike (special : head.symbol?.bind SpecialForm.ofWord? = none)
    (callee : SpellsAlike table table' regions head) :
    Alongside Expr.Alike (expr table regions (.list span (head :: items)))
      (expr table' regions (.list span' (head' :: items'))) := by
  unfold expr
  rw [← heads.symbol?, special]
  refine .bind (callee _ heads) fun func func' funcs => .bind (args_alike false each others) ?_
  rintro ⟨args, kwargs⟩ ⟨args', kwargs'⟩ ⟨values, named⟩
  refine finish_alike fun _ => ?_
  simp only [Expr.Alike, Expr.standard] at funcs values named ⊢
  simp only [Expr.recast, funcs, values, named, Mark.recast]

/-- Forms of `if` are read alike. -/
theorem conditional_alike (special : head.symbol?.bind SpecialForm.ofWord? = some .conditional) :
    Alongside Expr.Alike (expr table regions (.list span (head :: items)))
      (expr table' regions (.list span' (head' :: items'))) := by
  unfold expr
  rw [← heads.symbol?, special]
  rcases others with _ | ⟨tests, _ | ⟨bodies, _ | ⟨alts, _ | _⟩⟩⟩
  · exact malformed_alike
  · exact malformed_alike
  · refine .bind (each _ (by simp) _ tests) fun test test' tests => ?_
    refine .bind (each _ (by simp) _ bodies) fun body body' bodies => ?_
    exact finish_alike (cond_alike ⟨arms_alike tests bodies rfl, rfl⟩)
  · refine .bind (each _ (by simp) _ tests) fun test test' tests => ?_
    refine .bind (each _ (by simp) _ bodies) fun body body' bodies => ?_
    refine .bind (each _ (by simp) _ alts) fun alt alt' alts => ?_
    exact finish_alike (cond_alike ⟨arms_alike tests bodies rfl, congrArg some alts⟩)
  · exact malformed_alike

omit each in
/-- Forms of `cond` are read alike. -/
theorem clausal_alike (inside : InsideAlike table table' regions items)
    (special : head.symbol?.bind SpecialForm.ofWord? = some .cond) :
    Alongside Expr.Alike (expr table regions (.list span (head :: items)))
      (expr table' regions (.list span' (head' :: items'))) := by
  unfold expr
  rw [← heads.symbol?, special]
  refine .bind (clauses_alike inside others) ?_
  rintro ⟨arms, alt⟩ ⟨arms', alt'⟩ same
  simp only
  rw [same.isEmpty]
  split
  · exact malformed_alike
  · exact finish_alike (cond_alike same)

/-- Connectives and blocks are read alike. -/
theorem block_word_alike (special : head.symbol?.bind SpecialForm.ofWord? = some .and ∨
    head.symbol?.bind SpecialForm.ofWord? = some .or ∨
    head.symbol?.bind SpecialForm.ofWord? = some .begin) :
    Alongside Expr.Alike (expr table regions (.list span (head :: items)))
      (expr table' regions (.list span' (head' :: items'))) := by
  rcases special with special | special | special <;>
  · unfold expr
    rw [← heads.symbol?, special]
    refine .bind (block_alike each others) fun es es' same => finish_alike fun _ => ?_
    simp only [Expr.Alike, Expr.standard, Expr.recast, same, Mark.recast]

/-- Forms of `let` are read alike. -/
theorem binding_alike (special : head.symbol?.bind SpecialForm.ofWord? = some .bind) :
    Alongside Expr.Alike (expr table regions (.list span (head :: items)))
      (expr table' regions (.list span' (head' :: items'))) := by
  unfold expr
  rw [← heads.symbol?, special]
  rcases others with _ | ⟨bound, _ | ⟨bindees, _ | _⟩⟩
  · exact malformed_alike
  · exact malformed_alike
  · refine .bind (name_alike .bind bound) ?_
    rintro name _ rfl
    refine .bind (each _ (by simp) _ bindees) fun bindee bindee' same => ?_
    exact finish_alike fun _ => bind_alike same
  · exact malformed_alike

/-- Assignments are read alike. -/
theorem assignment_alike (special : head.symbol?.bind SpecialForm.ofWord? = some .assign) :
    Alongside Expr.Alike (expr table regions (.list span (head :: items)))
      (expr table' regions (.list span' (head' :: items'))) := by
  unfold expr
  rw [← heads.symbol?, special]
  rcases others with _ | ⟨bound, _ | ⟨bindees, _ | _⟩⟩
  · exact malformed_alike
  · exact malformed_alike
  · refine .bind (name_alike .assign bound) ?_
    rintro name _ rfl
    refine .bind (each _ (by simp) _ bindees) fun bindee bindee' same => finish_alike fun _ => ?_
    simp only [Expr.Alike, Expr.standard] at same ⊢
    simp only [Expr.recast, same, Mark.recast]
  · exact malformed_alike

/-- Loops are read alike. -/
theorem loop_alike (special : head.symbol?.bind SpecialForm.ofWord? = some .loop) :
    Alongside Expr.Alike (expr table regions (.list span (head :: items)))
      (expr table' regions (.list span' (head' :: items'))) := by
  unfold expr
  rw [← heads.symbol?, special]
  rcases others with _ | ⟨tests, after⟩
  · exact malformed_alike
  · obtain ⟨first, inBody⟩ := List.forall_mem_cons.mp each
    refine .bind (first _ tests) fun test test' sameTest => ?_
    refine .bind (block_alike inBody after) fun items items' same => ?_
    refine .bind (finishBlock_alike same) fun body body' sameBody => finish_alike fun _ => ?_
    simp only [Expr.Alike, Expr.standard] at sameTest sameBody ⊢
    simp only [Expr.recast, sameTest, sameBody, Mark.recast]

/-- Jumps are read alike. -/
theorem jump_alike (special : head.symbol?.bind SpecialForm.ofWord? = some .jump) :
    Alongside Expr.Alike (expr table regions (.list span (head :: items)))
      (expr table' regions (.list span' (head' :: items'))) := by
  unfold expr
  rw [← heads.symbol?, special]
  rcases others with _ | ⟨funcs, after⟩
  · exact malformed_alike
  · obtain ⟨first, inArgs⟩ := List.forall_mem_cons.mp each
    refine .bind (first _ funcs) fun func func' funcs => .bind (args_alike false inArgs after) ?_
    rintro ⟨args, kwargs⟩ ⟨args', kwargs'⟩ ⟨values, named⟩
    refine finish_alike fun _ => ?_
    simp only [Expr.Alike, Expr.standard] at funcs values named ⊢
    simp only [Expr.recast, funcs, values, named, Mark.recast]

/-- Captures are read alike. -/
theorem captured_alike (special : head.symbol?.bind SpecialForm.ofWord? = some .capture) :
    Alongside Expr.Alike (expr table regions (.list span (head :: items)))
      (expr table' regions (.list span' (head' :: items'))) := by
  unfold expr
  rw [← heads.symbol?, special]
  rcases others with _ | ⟨bound, _ | ⟨calls, _ | _⟩⟩
  · exact malformed_alike
  · exact malformed_alike
  · refine .bind (names_alike .capture bound) ?_
    rintro binders _ rfl
    exact .bind (each _ (by simp) _ calls) fun call call' same => capture_alike same
  · exact malformed_alike

/-- A list spells something alike if its items do, and theirs. -/
theorem list_alike (callee : SpellsAlike table table' regions head)
    (inside : InsideAlike table table' regions items) :
    Alongside Expr.Alike (expr table regions (.list span (head :: items)))
      (expr table' regions (.list span' (head' :: items'))) := by
  cases special : head.symbol?.bind SpecialForm.ofWord? with
  | none => exact call_alike heads each others special callee
  | some word =>
    cases word with
    | define =>
      unfold expr
      rw [← heads.symbol?, special]
      exact malformed_alike
    | fn =>
      rcases others with _ | ⟨named, after⟩
      · unfold expr
        rw [← heads.symbol?, special]
        exact malformed_alike
      · exact anonymous_alike heads (List.forall_mem_cons.mp each).2 named (.inl after) special
    | defn =>
      rcases others with _ | ⟨bound, _ | ⟨named, after⟩⟩
      · unfold expr
        rw [← heads.symbol?, special]
        exact malformed_alike
      · unfold expr
        rw [← heads.symbol?, special]
        exact malformed_alike
      · have inBody := (List.forall_mem_cons.mp (List.forall_mem_cons.mp each).2).2
        exact definition_alike heads inBody named (.inl after) bound special
    | conditional => exact conditional_alike heads each others special
    | cond => exact clausal_alike heads others inside special
    | and => exact block_word_alike heads each others (.inl special)
    | or => exact block_word_alike heads each others (.inr (.inl special))
    | begin => exact block_word_alike heads each others (.inr (.inr special))
    | bind => exact binding_alike heads each others special
    | assign => exact assignment_alike heads each others special
    | loop => exact loop_alike heads each others special
    | jump => exact jump_alike heads each others special
    | capture => exact captured_alike heads each others special

end Forms

/-- Forms that are alike spell expressions that are. -/
theorem expr_alike (form : Form) : SpellsAlike table table' regions form := by
  induction size : sizeOf form using Nat.strongRecOn generalizing form with
  | ind size ih =>
    subst size
    have inside : ∀ item ∈ form.items?.getD [], SpellsAlike table table' regions item :=
      fun item member => ih _ (Form.sizeOf_item member) item rfl
    intro form' alike
    cases alike with
    | @list span span' items items' others =>
      cases others with
      | nil =>
        unfold expr
        exact malformed_alike
      | cons heads others =>
        obtain ⟨callee, each⟩ := List.forall_mem_cons.mp inside
        refine list_alike heads each others callee fun form member item deeper => ?_
        refine ih _ (Nat.lt_trans (Form.sizeOf_item deeper) ?_) item rfl
        exact Form.sizeOf_item (List.mem_cons_of_mem _ member)
    | fn named after =>
      have inBody := (List.forall_mem_cons.mp (List.forall_mem_cons.mp inside).2).2
      exact anonymous_alike .sym inBody named (.inr after) rfl
    | defn bound named after =>
      have inBody := (List.forall_mem_cons.mp (List.forall_mem_cons.mp inside).2).2
      exact definition_alike .sym (List.forall_mem_cons.mp inBody).2 named (.inr after) bound rfl
    | keyword =>
      unfold expr
      exact malformed_alike
    | sym =>
      unfold expr
      refine finish_alike fun _ => ?_
      split <;> rfl
    | _ =>
      unfold expr
      exact finish_alike fun _ => rfl

/-! ## Toplevel forms -/

/-- Toplevel forms that differ only in places and in how decorators are listed. -/
abbrev TopsSame (top top' : List Toplevel) : Prop :=
  top.map (Toplevel.recast (fun _ => .dummy) standardNames) =
    top'.map (Toplevel.recast (fun _ => .dummy) standardNames)

/-- Toplevel forms made of expressions alike are the same up to their places. -/
theorem single_alike {step step' : Build Expr} (alike : Alongside Expr.Alike step step')
    {make : Expr -> Toplevel} (makes : ∀ e e' : Expr, e.Alike e' -> TopsSame [make e] [make e']) :
    Alongside TopsSame
      (do
        let e ← step
        pure [make e])
      (do
        let e ← step'
        pure [make e]) :=
  .bind alike fun e e' same => .pure (makes e e' same)

/-- Forms that are alike are executed alike. -/
theorem exec_alike {form form' : Form} (alike : FormAlike form form') :
    Alongside TopsSame
      (do
        let e ← expr table regions form
        pure [.exec e])
      (do
        let e ← expr table' regions form'
        pure [.exec e]) :=
  single_alike (expr_alike form form' alike) fun _ _ same =>
    congrArg (fun e => [Toplevel.exec e]) same

/-- Toplevel forms are read alike one after the other. -/
theorem toplevels_alike {forms forms' : List Form}
    (each : ∀ form ∈ forms, ∀ form', FormAlike form form' ->
      Alongside TopsSame (toplevel table regions form) (toplevel table' regions form'))
    (alike : FormsAlike forms forms') :
    Alongside TopsSame (toplevels table regions forms) (toplevels table' regions forms') := by
  induction forms generalizing forms' with
  | nil =>
    cases alike
    exact .pure rfl
  | cons form rest ih =>
    obtain ⟨spells, spell⟩ := List.forall_mem_cons.mp each
    cases alike with | cons first others =>
    rw [toplevels, toplevels]
    refine .bind (spells _ first) fun top top' same => .bind (ih spell others) ?_
    intro others others' hold
    refine .pure ?_
    simp only [TopsSame] at same hold ⊢
    rw [List.map_append, List.map_append, same, hold]

/-- A block of regions is read as its items inside of it. -/
theorem toplevel_block {head : Form} {block : Block}
    (isBlock : head.symbol?.bind Block.ofWord? = some block) (span : Span) (items : List Form) :
    toplevel table regions (.list span (head :: items)) =
      toplevels table (enter regions block) items := by
  unfold toplevel
  rw [isBlock]

/-- Definitions of globals are read alike. -/
theorem define_alike {head head' : Form} {items items' : List Form} {span span' : Span}
    (heads : FormAlike head head') (others : FormsAlike items items')
    (noBlock : head.symbol?.bind Block.ofWord? = none)
    (special : head.symbol?.bind SpecialForm.ofWord? = some .define) :
    Alongside TopsSame (toplevel table regions (.list span (head :: items)))
      (toplevel table' regions (.list span' (head' :: items'))) := by
  unfold toplevel
  rw [← heads.symbol?, noBlock, special]
  rcases others with _ | ⟨bound, _ | ⟨bindees, _ | _⟩⟩
  · exact malformed_alike
  · exact malformed_alike
  · refine .bind (name_alike .define bound) ?_
    rintro name _ rfl
    exact single_alike (expr_alike _ _ bindees) fun _ _ same =>
      congrArg (fun e => [Toplevel.define name e]) same
  · exact malformed_alike

/-- Definitions of functions at the toplevel are read alike. -/
theorem defined_alike {head head' binder binder' params params' : Form} {rest rest' : List Form}
    {span span' : Span} (heads : FormAlike head head') (bound : FormAlike binder binder')
    (named : FormAlike params params') (after : FormsAlike rest rest' ∨ DecoratedAlike rest rest')
    (noBlock : head.symbol?.bind Block.ofWord? = none)
    (special : head.symbol?.bind SpecialForm.ofWord? = some .defn) :
    Alongside TopsSame (toplevel table regions (.list span (head :: binder :: params :: rest)))
      (toplevel table' regions (.list span' (head' :: binder' :: params' :: rest'))) := by
  unfold toplevel
  rw [← heads.symbol?, noBlock, special]
  refine .bind (name_alike .defn bound) ?_
  rintro name _ rfl
  refine function_alike (fun form _ => expr_alike form) named after fun _ _ _ _ alike same => ?_
  exact single_alike (finishFunction_alike (some name) alike same) fun _ _ same =>
    congrArg (fun e => [Toplevel.define name e]) same

/-- Definitions by a list of name and parameters are read alike. -/
theorem definedList_alike {head head' : Form} {items items' : List Form} {span span' : Span}
    (heads : FormAlike head head') (others : FormsAlike items items')
    (noBlock : head.symbol?.bind Block.ofWord? = none)
    (special : head.symbol?.bind SpecialForm.ofWord? = some .defn) :
    Alongside TopsSame (toplevel table regions (.list span (head :: items)))
      (toplevel table' regions (.list span' (head' :: items'))) := by
  rcases others with _ | ⟨bound, _ | ⟨named, after⟩⟩
  · unfold toplevel
    rw [← heads.symbol?, noBlock, special]
    exact malformed_alike
  · unfold toplevel
    rw [← heads.symbol?, noBlock, special]
    exact malformed_alike
  · exact defined_alike heads bound named (.inl after) noBlock special

/-- A list that is no block and defines nothing is an expression. -/
theorem toplevel_exec {head : Form} {items : List Form} {span : Span}
    (noBlock : head.symbol?.bind Block.ofWord? = none)
    (plain : ∀ word, head.symbol?.bind SpecialForm.ofWord? = some word ->
      word ≠ .define ∧ word ≠ .defn) :
    toplevel table regions (.list span (head :: items)) = (do
      let e ← expr table regions (.list span (head :: items))
      pure [.exec e]) := by
  unfold toplevel
  rw [noBlock]
  cases special : head.symbol?.bind SpecialForm.ofWord? with
  | none => rfl
  | some word =>
    obtain ⟨noDefine, noDefn⟩ := plain word special
    cases word with
    | define => exact absurd rfl noDefine
    | defn => exact absurd rfl noDefn
    | _ => rfl

/-- Toplevel forms that are alike spell toplevel forms that are. -/
theorem toplevel_alike (form : Form) : ∀ (regions : Regions) (form' : Form), FormAlike form form' ->
    Alongside TopsSame (toplevel table regions form) (toplevel table' regions form') := by
  induction size : sizeOf form using Nat.strongRecOn generalizing form with
  | ind size ih =>
    subst size
    have inside (regions : Regions) : ∀ item ∈ form.items?.getD [], ∀ item', FormAlike item item' ->
        Alongside TopsSame (toplevel table regions item) (toplevel table' regions item') :=
      fun item member => ih _ (Form.sizeOf_item member) item rfl regions
    intro regions form' alike
    have whole : Alongside TopsSame
        (do
          let e ← expr table regions form
          pure [.exec e])
        (do
          let e ← expr table' regions form'
          pure [.exec e]) := exec_alike alike
    cases alike with
    | @list span span' items items' others =>
      cases others with
      | nil => exact whole
      | @cons head head' items items' heads others =>
        cases isBlock : head.symbol?.bind Block.ofWord? with
        | some block =>
          rw [toplevel_block isBlock, toplevel_block (heads.symbol? ▸ isBlock)]
          exact toplevels_alike (List.forall_mem_cons.mp (inside _)).2 others
        | none =>
          by_cases defines : head.symbol?.bind SpecialForm.ofWord? = some .define
          · exact define_alike heads others isBlock defines
          by_cases names : head.symbol?.bind SpecialForm.ofWord? = some .defn
          · exact definedList_alike heads others isBlock names
          have plain (word : SpecialForm)
              (special : head.symbol?.bind SpecialForm.ofWord? = some word) :
              word ≠ .define ∧ word ≠ .defn := by
            constructor <;> (rintro rfl; contradiction)
          rw [toplevel_exec isBlock plain,
            toplevel_exec (heads.symbol? ▸ isBlock) (heads.symbol? ▸ plain)]
          exact whole
    | fn named after => exact whole
    | defn bound named after => exact defined_alike .sym bound named (.inr after) rfl rfl
    | _ => exact whole

/-! ## Blocks -/

theorem enter_comm (regions : Regions) (block block' : Block) :
    enter (enter regions block) block' = enter (enter regions block') block := by
  cases block <;> cases block' <;> rfl

theorem enter_again (regions : Regions) (block : Block) :
    enter (enter regions block) block = enter regions block := by
  cases block <;> rfl

theorem toplevels_single (form : Form) :
    toplevels table regions [form] = toplevel table regions form := by
  simp [toplevels]

/-- The word of a block begins the block. -/
theorem toplevel_word {name : String} {block : Block} (isBlock : Block.ofWord? name = some block)
    (span word : Span) (items : List Form) :
    toplevel table regions (.list span (.sym word name :: items)) =
      toplevels table (enter regions block) items :=
  toplevel_block (by exact isBlock) span items

/-- A block directly inside another. -/
theorem toplevel_nested {name name' : String} {block block' : Block}
    (isBlock : Block.ofWord? name = some block) (isBlock' : Block.ofWord? name' = some block')
    (span word inner word' : Span) (items : List Form) :
    toplevel table regions (.list span [.sym word name, .list inner (.sym word' name' :: items)]) =
      toplevels table (enter (enter regions block) block') items := by
  rw [toplevel_word isBlock, toplevels_single, toplevel_word isBlock']

theorem toplevels_same (items : List Form) :
    Alongside TopsSame (toplevels table regions items) (toplevels table' regions items) :=
  toplevels_alike (fun form _ => toplevel_alike form regions) (.refl items)

mutual

/-- However blocks are nested, the same is read. -/
theorem top_alike : ∀ {form form' : Form}, TopAlike form form' ->
    ∀ (table table' : LineTable) (regions : Regions),
      Alongside TopsSame (toplevel table regions form) (toplevel table' regions form')
  | form, _, .same alike, _, _, regions => toplevel_alike form regions _ alike
  | _, _, .block isBlock inside, table, table', regions => by
    obtain ⟨block, isBlock⟩ := Option.isSome_iff_exists.mp isBlock
    rw [toplevel_word isBlock, toplevel_word isBlock]
    exact tops_alike inside table table' (enter regions block)
  | _, _, .exchange isBlock isBlock', table, table', regions => by
    obtain ⟨block, isBlock⟩ := Option.isSome_iff_exists.mp isBlock
    obtain ⟨block', isBlock'⟩ := Option.isSome_iff_exists.mp isBlock'
    rw [toplevel_nested isBlock isBlock', toplevel_nested isBlock' isBlock, enter_comm]
    exact toplevels_same _
  | _, _, .again isBlock, table, table', regions => by
    obtain ⟨block, isBlock⟩ := Option.isSome_iff_exists.mp isBlock
    rw [toplevel_nested isBlock isBlock, toplevel_word isBlock, enter_again]
    exact toplevels_same _
  | _, _, .symm alike, table, table', regions =>
    (top_alike alike table' table regions).symm.imp fun _ _ => Eq.symm
  | _, _, .trans alike alike', table, table', regions =>
    ((top_alike alike table table regions).trans (top_alike alike' table table' regions)).imp
      fun _ _ ⟨_, same, same'⟩ => same.trans same'

theorem tops_alike : ∀ {forms forms' : List Form}, TopsAlike forms forms' ->
    ∀ (table table' : LineTable) (regions : Regions),
      Alongside TopsSame (toplevels table regions forms) (toplevels table' regions forms')
  | _, _, .nil, _, _, _ => by
    rw [toplevels, toplevels]
    exact .pure rfl
  | _, _, .cons first others, table, table', regions => by
    rw [toplevels, toplevels]
    refine .bind (top_alike first table table' regions) fun top top' same => ?_
    refine .bind (tops_alike others table table' regions) fun rest rest' hold => .pure ?_
    simp only [TopsSame] at same hold ⊢
    rw [List.map_append, List.map_append, same, hold]

end

end Build

end Trampoline
