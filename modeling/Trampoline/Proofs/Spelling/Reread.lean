import Trampoline.Proofs.Spelling.Expressions
import Trampoline.Proofs.Syntax.Source
import Trampoline.Proofs.Syntax.Steps

/-!
# Expressions read again

The forms that the one-line form of a program spells are read as a program again, with the same
one-line form and the same functions, unless an arm tests the name of the alternative: such an arm
is then read as the alternative of a conditional that has no arms left.
-/

namespace Trampoline

/-- What the one-line form shows of a function besides its body. -/
def Function.head (function : Function) : List String × List String :=
  (function.signature.params, function.signature.decorators.map Prod.fst)

/-- Whether an expression is the bare name `else`. -/
def Expr.isElse : Expr -> Bool
  | .var _ name => name == "else"
  | _ => false

/-- Whether an expression is a conditional that tests the bare name `else`. The arms of a `cond` do
not, so it is written as an `if`. -/
def Expr.testsElse : Expr -> Bool
  | .cond _ arms _ => arms.any fun arm => arm.1.isElse
  | _ => false

/-- An expression is the bare name `else` if it is written as that symbol. -/
theorem Expr.isElse_iff {e : Expr} : e.isElse = true ↔ e.symbol? = some "else" := by
  cases e with
  | lit mark value =>
    cases value <;> simp [isElse, symbol?, spelling, Literal.spelling, Spelling.symbol?]
  | var mark name => simp [isElse, symbol?, spelling, Spelling.symbol?]
  | fn => simp [isElse, symbol?_of_list (spelling_fn ..)]
  | cond => simp [isElse, symbol?_of_list (spelling_cond ..)]
  | loop => simp [isElse, symbol?_of_list (spelling_loop ..)]
  | jump => simp [isElse, symbol?_of_list (spelling_jump ..)]
  | _ => exact iff_of_false Bool.false_ne_true (Option.some_ne_none _).symm

/-- No arm in the expressions tests the bare name `else`. -/
def Expr.IsPlain (e : Expr) : Prop := e.testsElse = false

namespace Form

variable {form : Form} {forms : List Form}

theorem symbol?_eq (form : Form) : form.symbol? = form.spelling.symbol? := by
  cases form <;> rfl

variable {name : String}

theorem spelling_eq_sym (spells : form.spelling = .sym name) : ∃ span, form = .sym span name := by
  cases form <;> cases spells
  exact ⟨_, rfl⟩

/-- A form that spells a keyword is one. -/
theorem spelling_eq_keyword (spells : form.spelling = .keyword name) :
    ∃ span, form = .keyword span name := by
  cases form <;> cases spells
  exact ⟨_, rfl⟩

theorem spelling_eq_list {items : List Spelling} (spells : form.spelling = .list items) :
    ∃ span forms, form = .list span forms ∧ spellings forms = items := by
  cases form <;> cases spells
  exact ⟨_, _, rfl, rfl⟩

/-- Only no forms spell nothing. -/
theorem spellings_eq_nil (spell : spellings forms = []) : forms = [] := by
  cases forms with
  | nil => rfl
  | cons => cases spell

/-- Forms that spell several things are one for the first and others for the rest. -/
theorem spellings_eq_cons {first : Spelling} {rest : List Spelling}
    (spell : spellings forms = first :: rest) :
    ∃ form others, forms = form :: others ∧ form.spelling = first ∧ spellings others = rest := by
  cases forms with
  | nil => cases spell
  | cons form others =>
    cases spell
    exact ⟨form, others, rfl, rfl, rfl⟩

/-- A form that begins with a word spells a list that does. -/
theorem spelling_of_head? {word : String} (starts : form.head? = some word) :
    ∃ rest, form.spelling = .list (.sym word :: rest) := by
  cases form with
  | list span items =>
    cases items with
    | nil => cases starts
    | cons head items =>
      have isWord : head.spelling = .sym word :=
        Spelling.symbol?_eq_some.mp ((symbol?_eq head).symm.trans starts)
      exact ⟨spellings items, by rw [Form.spelling, spellings, isWord]⟩
  | _ => cases starts

end Form

theorem SpecialForm.ofWord?_word (special : SpecialForm) :
    SpecialForm.ofWord? special.word = some special := by
  cases special <;> rfl

namespace Build

open Form

variable {table : LineTable} {regions : Regions}

/-! ## Names -/

variable {owner : SpecialForm} {form : Form} {names : List String}

/-- A form that spells a symbol is read as the name. -/
theorem name_eq {name : String}
    (spells : form.spelling = .sym name) : Build.name table owner form = pure name := by
  obtain ⟨span, rfl⟩ := spelling_eq_sym spells
  rfl

/-- A form that spells a list of names is read as these names. -/
theorem names_eq (spells : form.spelling = .names names) :
    Build.names table owner form = pure names := by
  obtain ⟨span, forms, rfl, spell⟩ := spelling_eq_list spells
  clear spells
  show forms.mapM (Build.name table owner) = pure names
  induction names generalizing forms with
  | nil =>
    cases spellings_eq_nil spell
    rfl
  | cons name rest ih =>
    obtain ⟨form, others, rfl, first, later⟩ := spellings_eq_cons spell
    rw [List.mapM_cons, name_eq first, pure_bind, ih others later, pure_bind]

/-- Forms that spell the names of decorators are read as them. -/
theorem decorators_eq (table : LineTable) {forms : List Form}
    (spell : spellings forms = names.map .sym) : ∃ decorators : List (String × Span),
      forms.mapM (decorator table) = pure decorators ∧ decorators.map Prod.fst = names := by
  induction names generalizing forms with
  | nil =>
    cases spellings_eq_nil spell
    exact ⟨[], rfl, rfl⟩
  | cons name rest ih =>
    obtain ⟨form, others, rfl, first, later⟩ := spellings_eq_cons spell
    obtain ⟨span, rfl⟩ := spelling_eq_sym first
    obtain ⟨decorators, reads, same⟩ := ih later
    refine ⟨(name, span) :: decorators, ?_, congrArg (name :: ·) same⟩
    rw [List.mapM_cons, reads]
    rfl

/-- A header before a body is read as it was, and the body begins after it. -/
theorem header_eq (table : LineTable) (regions : Regions) {params : Form} {rest : List Form}
    {decorators : List (String × Span)} {items : List Spelling}
    (ofParams : params.spelling = .names names)
    (ofRest : spellings rest = decoratorSpellings decorators ++ items)
    (noKeyword : ∀ name, items.head? ≠ some (.keyword name)) : ∃ header later,
      Build.header table params rest = pure header ∧
        (header.params, header.decorators.map Prod.fst) = (names, decorators.map Prod.fst) ∧
        block table regions header.skipped rest = block table regions 0 later ∧
        spellings later = items := by
  cases decorators with
  | nil =>
    refine ⟨⟨names, [], 0⟩, rest, ?_, rfl, rfl, ofRest⟩
    rw [Build.header, names_eq ofParams]
    refine (pure_bind _ _).trans ?_
    split
    · exact absurd (congrArg List.head? ofRest).symm (noKeyword "decorators")
    · rfl
  | cons first others =>
    obtain ⟨word, more, rfl, isWord, ofMore⟩ := spellings_eq_cons ofRest
    obtain ⟨list, later, rfl, isList, ofLater⟩ := spellings_eq_cons ofMore
    obtain ⟨span, rfl⟩ := spelling_eq_keyword isWord
    obtain ⟨span', listed, rfl, ofListed⟩ := spelling_eq_list isList
    obtain ⟨decorators, reads, same⟩ := decorators_eq table ofListed
    refine ⟨⟨names, decorators, 2⟩, later, ?_, Prod.ext rfl same, ?_, ofLater⟩
    · rw [Build.header, names_eq ofParams]
      refine (pure_bind _ _).trans ?_
      show (listed.mapM (decorator table) >>= _) = _
      rw [reads, pure_bind]
    · simp only [block]

end Build

/-! ## What is read again -/

/-- The expression is spelled as another, with the same functions, and is a call if that is one. -/
structure Expr.Like (e again : Expr) : Prop where
  spelling : again.spelling = e.spelling
  functions : again.functions.map Function.head = e.functions.map Function.head
  call : e.isCall = true -> again.isCall = true

/-- The items are spelled as others, with the same functions. -/
structure LikeAll (spellings : List Spelling) (functions : List Function) (again : List Expr) :
    Prop where
  spellings : spellingsOfAll again = spellings
  functions : (functionsOfAll again).map Function.head = functions.map Function.head

/-- The arguments are spelled as others, with the same functions. -/
structure LikeArgs (read again : List Expr × List (String × Expr)) : Prop where
  args : spellingsOfAll again.1 = spellingsOfAll read.1
  kwargs : spellingsOfKwargs again.2 = spellingsOfKwargs read.2
  functions : (Build.functionsOfArgs again).map Function.head =
    (Build.functionsOfArgs read).map Function.head

/-- The clauses are spelled as others, with the same functions. -/
structure LikeClauses (read again : List (Expr × Expr) × Option Expr) : Prop where
  arms : spellingsOfArms again.1 = spellingsOfArms read.1
  alt : elseSpellings again.2 = elseSpellings read.2
  functions : (Build.functionsOfClauses again).map Function.head =
    (Build.functionsOfClauses read).map Function.head

/-- The expression is read again, in its own form and where it is a body, exactly if it is plain. -/
structure Expr.Rereads (e : Expr) : Prop where
  form : ∀ (table : LineTable) (regions : Regions) (form : Form), form.spelling = e.spelling ->
    EndsIff (e.All Expr.IsPlain) (Build.expr table regions form) e.Like
  body : ∀ (table : LineTable) (regions : Regions) (forms : List Form),
    Form.spellings forms = e.bodySpellings ->
      EndsIff (e.All Expr.IsPlain) (Build.block table regions 0 forms)
        (LikeAll e.bodySpellings e.functions)

/-- The items of a block are read again exactly if they are plain. -/
def RereadAll (es : List Expr) : Prop :=
  ∀ (table : LineTable) (regions : Regions) (forms : List Form),
    Form.spellings forms = spellingsOfAll es ->
      EndsIff (AllOf Expr.IsPlain es) (Build.block table regions 0 forms)
        (LikeAll (spellingsOfAll es) (functionsOfAll es))

/-- The keyword arguments of a call are read again exactly if they are plain. -/
def RereadKwargs (kwargs : List (String × Expr)) : Prop :=
  ∀ (table : LineTable) (regions : Regions) (afterKeyword : Bool) (forms : List Form),
    Form.spellings forms = spellingsOfKwargs kwargs ->
      EndsIff (AllOfKwargs Expr.IsPlain kwargs) (Build.args table regions afterKeyword forms)
        fun again => again.1 = [] ∧ LikeArgs ([], kwargs) again

/-- The arguments of a call are read again exactly if they are plain. -/
def RereadArgs (args : List Expr) (kwargs : List (String × Expr)) : Prop :=
  ∀ (table : LineTable) (regions : Regions) (forms : List Form),
    Form.spellings forms = spellingsOfAll args ++ spellingsOfKwargs kwargs ->
      EndsIff (AllOf Expr.IsPlain args ∧ AllOfKwargs Expr.IsPlain kwargs)
        (Build.args table regions false forms) (LikeArgs (args, kwargs))

/-- The clauses of a conditional are read again exactly if they are plain. -/
def RereadClauses (arms : List (Expr × Expr)) (alt : Option Expr) : Prop :=
  ∀ (table : LineTable) (regions : Regions) (forms : List Form),
    Form.spellings forms = spellingsOfArms arms ++ elseSpellings alt ->
      EndsIff (AllOfArms Expr.IsPlain arms ∧ AllOf Expr.IsPlain alt.toList)
        (Build.clauses table regions forms) (LikeClauses (arms, alt))

/-- No expression spells a keyword, so arguments can be told from keyword arguments. -/
theorem Expr.spelling_ne_keyword (e : Expr) (name : String) : e.spelling ≠ .keyword name := by
  cases e with
  | lit mark value => cases value <;> nofun
  | fn => rw [spelling_fn]; nofun
  | cond => rw [spelling_cond]; nofun
  | loop => rw [spelling_loop]; nofun
  | jump => rw [spelling_jump]; nofun
  | _ => nofun

/-- A body does not begin with a keyword, so it can be told from decorators. -/
theorem Expr.bodySpellings_no_keyword (e : Expr) (name : String) :
    e.bodySpellings.head? ≠ some (.keyword name) := by
  cases e with
  | seq mark items =>
    cases items with
    | nil => nofun
    | cons first rest => exact fun same => first.spelling_ne_keyword name (Option.some.inj same)
  | _ => exact fun same => Expr.spelling_ne_keyword _ name (Option.some.inj same)

namespace Build

open Form

variable {table : LineTable} {regions : Regions}

variable {word name : String} {form : Form} {rest : List Spelling} {span : Span}
  {post : Expr -> Prop} {items args : List Expr} {e bindee test body func : Expr} {mark : Mark}
  {kwargs : List (String × Expr)} {alt : Option Expr}

/-- A list that starts with a word. -/
theorem word_form (spells : form.spelling = .list (.sym word :: rest)) : ∃ span head items,
      form = .list span (head :: items) ∧ head.symbol? = some word ∧ spellings items = rest := by
  obtain ⟨span, forms, rfl, spell⟩ := spelling_eq_list spells
  obtain ⟨head, items, rfl, first, later⟩ := spellings_eq_cons spell
  exact ⟨span, head, items, rfl, by rw [symbol?_eq, first, Spelling.symbol?], later⟩

/-- A list that starts with the word of a special form. -/
theorem special_form (special : SpecialForm)
    (spells : form.spelling = .list (.sym special.word :: rest)) : ∃ span head items,
      form = .list span (head :: items) ∧ head.symbol?.bind SpecialForm.ofWord? = some special ∧
        spellings items = rest := by
  obtain ⟨span, head, items, rfl, symbol, later⟩ := word_form spells
  exact ⟨span, head, items, rfl, by rw [symbol, Option.bind_some, special.ofWord?_word], later⟩

/-- A list that starts with a word and a name, before one more item. -/
theorem binding_form {bindee : Spelling}
    (spells : form.spelling = .list [.sym word, .sym name, bindee]) : ∃ span head binder item,
      form = .list span [head, binder, item] ∧ head.symbol? = some word ∧
        binder.spelling = .sym name ∧ item.spelling = bindee := by
  obtain ⟨span, head, forms, rfl, symbol, ofForms⟩ := word_form spells
  obtain ⟨binder, others, rfl, isName, ofOthers⟩ := spellings_eq_cons ofForms
  obtain ⟨item, none, rfl, isItem, isNone⟩ := spellings_eq_cons ofOthers
  cases spellings_eq_nil isNone
  exact ⟨span, head, binder, item, rfl, symbol, isName, isItem⟩

theorem finish_again {make : Mark -> Expr}
    (holds : ∀ mark, post (make mark)) : EndsIff True (finish span make) post :=
  ⟨fun _ => .inl ⟨_, _, rfl, trivial, holds _⟩⟩

theorem finishBlock_again : EndsIff True (finish span fun mark => .seq mark items) fun body =>
      ∃ mark, body = .seq mark items :=
  finish_again fun mark => ⟨mark, rfl⟩

/-! ## Blocks -/

/-- An expression that is not a block is its own body. -/
theorem body_again (own : e.bodySpellings = [e.spelling])
    (form : ∀ (table : LineTable) (regions : Regions) (form : Form), form.spelling = e.spelling ->
      EndsIff (e.All Expr.IsPlain) (expr table regions form) e.Like) : e.Rereads where
  form := form
  body := by
    intro table regions forms spell
    rw [own] at spell
    obtain ⟨only, others, rfl, first, none⟩ := spellings_eq_cons spell
    cases spellings_eq_nil none
    have alone : block table regions 0 [only] = (do
        let first ← expr table regions only
        pure [first]) := by
      simp only [block, pure_bind]
    rw [alone]
    refine .iff (and_iff_left trivial).symm
      (.bind (form table regions only first) fun again like => .pure ?_)
    refine ⟨?_, ?_⟩
    · rw [own, ← like.spelling]
      rfl
    · simpa [functionsOfAll] using like.functions

/-- No items are read again. -/
theorem all_nil_again : RereadAll [] := by
  intro table regions forms spell
  cases spellings_eq_nil spell
  unfold block
  exact .iff (iff_true_intro fun _ member => absurd member List.not_mem_nil) (.pure ⟨rfl, rfl⟩)

/-- Items are read again if the first and the others are. -/
theorem all_cons_again {rest : List Expr} (ofFirst : e.Rereads)
    (ofRest : RereadAll rest) : RereadAll (e :: rest) := by
  intro table regions forms spell
  obtain ⟨form, others, rfl, first, later⟩ := spellings_eq_cons spell
  unfold block
  refine .iff (by rw [allOf_cons, and_true])
    (.bind (ofFirst.form table regions form first) fun again like =>
      .bind (ofRest table regions others later) fun agains likes => .pure ?_)
  refine ⟨?_, ?_⟩
  · rw [spellingsOfAll, like.spelling, likes.spellings, spellingsOfAll]
  · rw [functionsOfAll, List.map_append, like.functions, likes.functions, ← List.map_append,
      functionsOfAll]

/-- A block is read again if its items are. -/
theorem seq_again (ofItems : RereadAll items) : (Expr.seq mark items).Rereads where
  form := by
    intro table regions form spells
    obtain ⟨span, head, forms, rfl, isSpecial, ofForms⟩ := special_form .begin spells
    unfold expr
    simp only [isSpecial]
    refine .iff (by simp [Expr.all_seq, Expr.IsPlain, Expr.testsElse])
      (.bind (ofItems table regions forms ofForms) fun again like => finish_again fun _ => ?_)
    refine ⟨?_, like.functions, nofun⟩
    rw [Expr.spelling, like.spellings, Expr.spelling]
  body := by
    intro table regions forms spell
    refine .iff ?_ (ofItems table regions forms spell)
    simp [Expr.all_seq, Expr.IsPlain, Expr.testsElse]

/-! ## Atoms and simple forms -/

/-- A constant is read again. -/
theorem lit_again {value : Literal} : (Expr.lit mark value).Rereads := by
  refine body_again rfl fun table regions form spells => ?_
  have plain : (Expr.lit mark value).All Expr.IsPlain := List.forall_mem_singleton.mpr rfl
  have same : EndsIff True (expr table regions form) (Expr.lit mark value).Like := by
    cases value with
    | nil =>
      obtain ⟨span, rfl⟩ := spelling_eq_sym spells
      unfold expr
      exact finish_again fun _ => ⟨rfl, rfl, nofun⟩
    | bool | int | str =>
      cases form <;> cases spells
      unfold expr
      exact finish_again fun _ => ⟨rfl, rfl, nofun⟩
  exact same.iff (iff_true_intro plain)

/-- A variable is read again. -/
theorem var_again : (Expr.var mark name).Rereads := by
  refine body_again rfl fun table regions form spells => ?_
  have plain : (Expr.var mark name).All Expr.IsPlain := List.forall_mem_singleton.mpr rfl
  obtain ⟨span, rfl⟩ := spelling_eq_sym spells
  have same : EndsIff True (expr table regions (.sym span name)) (Expr.var mark name).Like := by
    unfold expr
    by_cases isNil : name = "nil"
    · subst isNil
      exact finish_again fun _ => ⟨rfl, rfl, nofun⟩
    · simp only [if_neg isNil]
      exact finish_again fun _ => ⟨rfl, rfl, nofun⟩
  exact same.iff (iff_true_intro plain)

/-- A connective is read again if its operands are. -/
theorem short_again {op : Connective} {operands : List Expr}
    (ofOperands : RereadAll operands) : (Expr.short mark op operands).Rereads := by
  refine body_again rfl fun table regions form spells => ?_
  have plain : (Expr.short mark op operands).All Expr.IsPlain ↔
      AllOf Expr.IsPlain operands ∧ True := by
    simp [Expr.all_short, Expr.IsPlain, Expr.testsElse]
  have like {again : List Expr} (items : LikeAll (spellingsOfAll operands) (functionsOfAll operands)
      again) (mark' : Mark) : (Expr.short mark op operands).Like (.short mark' op again) := by
    refine ⟨?_, items.functions, nofun⟩
    rw [Expr.spelling, items.spellings, Expr.spelling]
  cases op with
  | and =>
    obtain ⟨span, head, forms, rfl, isSpecial, ofForms⟩ := special_form .and spells
    unfold expr
    simp only [isSpecial]
    exact .iff plain (.bind (ofOperands table regions forms ofForms) fun again items =>
      finish_again (like items))
  | or =>
    obtain ⟨span, head, forms, rfl, isSpecial, ofForms⟩ := special_form .or spells
    unfold expr
    simp only [isSpecial]
    exact .iff plain (.bind (ofOperands table regions forms ofForms) fun again items =>
      finish_again (like items))

/-- A `let` is read again if its bindee is. -/
theorem bind_again (ofBindee : bindee.Rereads) : (Expr.bind mark name bindee).Rereads := by
  refine body_again rfl fun table regions form spells => ?_
  obtain ⟨span, head, binder, form, rfl, symbol, isName, isForm⟩ := binding_form spells
  have isSpecial : head.symbol?.bind SpecialForm.ofWord? = some .bind := by
    rw [symbol]
    rfl
  unfold expr
  simp only [isSpecial, name_eq isName, pure_bind]
  refine .iff (by simp [Expr.all_bind, Expr.IsPlain, Expr.testsElse])
    (.bind (ofBindee.form table regions form isForm) fun again like => finish_again fun _ => ?_)
  refine ⟨?_, like.functions, fun isCall => absurd isCall Bool.false_ne_true⟩
  rw [Expr.spelling, like.spelling, Expr.spelling]

/-- An assignment is read again if its bindee is. -/
theorem assign_again (ofBindee : bindee.Rereads) : (Expr.assign mark name bindee).Rereads := by
  refine body_again rfl fun table regions form spells => ?_
  obtain ⟨span, head, binder, form, rfl, symbol, isName, isForm⟩ := binding_form spells
  have isSpecial : head.symbol?.bind SpecialForm.ofWord? = some .assign := by
    rw [symbol]
    rfl
  unfold expr
  simp only [isSpecial, name_eq isName, pure_bind]
  refine .iff (by simp [Expr.all_assign, Expr.IsPlain, Expr.testsElse])
    (.bind (ofBindee.form table regions form isForm) fun again like => finish_again fun _ => ?_)
  refine ⟨?_, like.functions, fun isCall => absurd isCall Bool.false_ne_true⟩
  rw [Expr.spelling, like.spelling, Expr.spelling]

/-- A loop is read again if its test and body are. -/
theorem loop_again (ofTest : test.Rereads)
    (ofBody : body.Rereads) : (Expr.loop mark test body).Rereads := by
  refine body_again rfl fun table regions form spells => ?_
  rw [Expr.spelling_loop] at spells
  obtain ⟨span, head, forms, rfl, isSpecial, ofForms⟩ := special_form .loop spells
  obtain ⟨form, others, rfl, isForm, ofOthers⟩ := spellings_eq_cons ofForms
  unfold expr
  simp only [isSpecial]
  refine .iff (by simp [Expr.all_loop, Expr.IsPlain, Expr.testsElse])
    (.bind (ofTest.form table regions form isForm) fun again like =>
      .bind (ofBody.body table regions others ofOthers) fun items likes =>
        .bind finishBlock_again fun body' isBody => finish_again fun _ => ?_)
  obtain ⟨mark', rfl⟩ := isBody
  refine ⟨?_, ?_, nofun⟩
  · rw [Expr.spelling_loop, like.spelling, Expr.bodySpellings, likes.spellings, Expr.spelling_loop]
  · rw [Expr.functions, List.map_append, like.functions, Expr.functions, likes.functions,
      ← List.map_append, Expr.functions]

/-- A capture is read again if its call is, as a call. -/
theorem capture_again {binders : List String} {call : Expr} (ofCall : call.Rereads)
    (isCall : call.isCall = true) : (Expr.capture mark binders call).Rereads := by
  refine body_again rfl fun table regions form spells => ?_
  obtain ⟨span, head, forms, rfl, isSpecial, ofForms⟩ := special_form .capture spells
  obtain ⟨names, others, rfl, areNames, ofOthers⟩ := spellings_eq_cons ofForms
  obtain ⟨form, none, rfl, isForm, isNone⟩ := spellings_eq_cons ofOthers
  cases spellings_eq_nil isNone
  unfold expr
  simp only [isSpecial, names_eq areNames, pure_bind]
  have plain : (Expr.capture mark binders call).All Expr.IsPlain ↔
      call.All Expr.IsPlain ∧ True := by
    simp [Expr.all_capture, Expr.IsPlain, Expr.testsElse]
  refine .iff plain (.bind (ofCall.form table regions form isForm) fun again like => ?_)
  cases again with
  | call =>
    refine finish_again fun _ =>
      ⟨?_, like.functions, fun isCall => absurd isCall Bool.false_ne_true⟩
    rw [Expr.spelling, like.spelling, Expr.spelling]
  | _ => exact absurd (like.call isCall) Bool.false_ne_true

/-! ## Calls -/

/-- No keyword arguments are read again. -/
theorem kwargs_nil_again : RereadKwargs [] := by
  intro table regions afterKeyword forms spell
  cases spellings_eq_nil spell
  unfold args
  exact .iff (iff_true_intro fun _ member => absurd member List.not_mem_nil)
    (.pure ⟨rfl, rfl, rfl, rfl⟩)

/-- Keyword arguments are read again if the first value and the others are. -/
theorem kwargs_cons_again {rest : List (String × Expr)}
    (ofValue : e.Rereads) (ofRest : RereadKwargs rest) : RereadKwargs ((name, e) :: rest) := by
  intro table regions afterKeyword forms spell
  obtain ⟨word, others, rfl, isKeyword, ofOthers⟩ := spellings_eq_cons spell
  obtain ⟨value, more, rfl, isValue, ofMore⟩ := spellings_eq_cons ofOthers
  obtain ⟨span, rfl⟩ := spelling_eq_keyword isKeyword
  unfold args
  refine .iff (by rw [allOfKwargs_cons, and_true])
    (.bind (ofValue.form table regions value isValue) fun again like =>
      .bind (ofRest table regions true more ofMore) fun agains likes => .pure ?_)
  obtain ⟨args, kwargs⟩ := agains
  obtain ⟨none, likes⟩ := likes
  refine ⟨none, likes.args, ?_, ?_⟩
  · rw [spellingsOfKwargs, like.spelling, likes.kwargs, spellingsOfKwargs]
  · cases none
    have functions := likes.functions
    simp only [functionsOfArgs, functionsOfAll, functionsOfKwargs, List.nil_append,
      List.map_append] at functions ⊢
    rw [like.functions, functions]

/-- Keyword arguments alone are read again as arguments. -/
theorem args_nil_again (ofKwargs : RereadKwargs kwargs) : RereadArgs [] kwargs := by
  intro table regions forms spell
  refine .iff ?_ ((ofKwargs table regions false forms spell).imp fun _ => And.right)
  exact and_iff_right fun _ member => absurd member List.not_mem_nil

/-- Arguments are read again if the first and the others are. -/
theorem args_cons_again {rest : List Expr}
    (ofFirst : e.Rereads) (ofRest : RereadArgs rest kwargs) : RereadArgs (e :: rest) kwargs := by
  intro table regions forms spell
  obtain ⟨form, others, rfl, first, later⟩ := spellings_eq_cons spell
  have plain (span name) : form ≠ .keyword span name := by
    rintro rfl
    exact e.spelling_ne_keyword name first.symm
  rw [args_positional others plain]
  refine .iff (by rw [allOf_cons, and_true, and_assoc])
    (.bind (ofFirst.form table regions form first) fun again like =>
      .bind (ofRest table regions others later) fun agains likes => .pure ?_)
  obtain ⟨args, kwargs'⟩ := agains
  refine ⟨?_, likes.kwargs, ?_⟩
  · rw [spellingsOfAll, like.spelling, likes.args, spellingsOfAll]
  · have functions := likes.functions
    simp only [functionsOfArgs, functionsOfAll, List.append_assoc, List.map_append]
      at functions ⊢
    rw [like.functions, functions]

/-- A call is read again unless its callee is written as the word of a special form. -/
theorem call_again (legible : func.symbol?.bind SpecialForm.ofWord? = none) (ofFunc : func.Rereads)
    (ofArgs : RereadArgs args kwargs) : (Expr.call mark func args kwargs).Rereads := by
  refine body_again rfl fun table regions form spells => ?_
  obtain ⟨span, forms, rfl, spell⟩ := spelling_eq_list spells
  obtain ⟨head, others, rfl, isHead, ofOthers⟩ := spellings_eq_cons spell
  have noSpecial : head.symbol?.bind SpecialForm.ofWord? = none := by
    rw [symbol?_eq, isHead]
    exact legible
  unfold expr
  simp only [noSpecial]
  refine .iff (by simp [Expr.all_call, Expr.IsPlain, Expr.testsElse])
    (.bind (ofFunc.form table regions head isHead) fun again like =>
      .bind (ofArgs table regions others ofOthers) fun agains likes => finish_again fun _ => ?_)
  refine ⟨?_, ?_, fun _ => rfl⟩
  · rw [Expr.spelling, like.spelling, likes.args, likes.kwargs, Expr.spelling]
  · have functions := likes.functions
    simp only [functionsOfArgs, Expr.functions, List.append_assoc, List.map_append]
      at functions ⊢
    rw [like.functions, functions]

/-- A jump is read again if its target and arguments are. -/
theorem jump_again (ofFunc : func.Rereads) (ofArgs : RereadArgs args kwargs) :
    (Expr.jump mark func args kwargs none).Rereads := by
  refine body_again rfl fun table regions form spells => ?_
  rw [Expr.spelling_jump] at spells
  obtain ⟨span, head, forms, rfl, isSpecial, ofForms⟩ := special_form .jump spells
  obtain ⟨first, others, rfl, isFirst, ofOthers⟩ := spellings_eq_cons ofForms
  rw [ccSpellings, List.append_nil] at ofOthers
  unfold expr
  simp only [isSpecial]
  refine .iff (by simp [Expr.all_jump_none, Expr.IsPlain, Expr.testsElse])
    (.bind (ofFunc.form table regions first isFirst) fun again like =>
      .bind (ofArgs table regions others ofOthers) fun agains likes => finish_again fun _ => ?_)
  refine ⟨?_, ?_, nofun⟩
  · rw [Expr.spelling_jump, like.spelling, likes.args, likes.kwargs, Expr.spelling_jump]
  · have functions := likes.functions
    simp only [functionsOfArgs, Expr.functions, List.append_assoc, List.map_append, List.append_nil]
      at functions ⊢
    rw [like.functions, functions]

/-! ## Functions -/

/-- Decorators with the same names spell the same. -/
theorem decoratorSpellings_congr {first second : List (String × Span)}
    (same : first.map Prod.fst = second.map Prod.fst) :
    decoratorSpellings first = decoratorSpellings second := by
  cases first with
  | nil =>
    cases second with
    | nil => rfl
    | cons => cases same
  | cons =>
    cases second with
    | nil => cases same
    | cons => rw [decoratorSpellings, decoratorSpellings, same] <;> rintro ⟨⟩

/-- A function is finished with the head that was read. -/
theorem finishFunction_again {name : Option String} {header : Header}
    (holds : ∀ mark mark' id, post (.fn mark
      ⟨id, name, header.params, header.decorators, regions, .plain, []⟩ (.seq mark' items))) :
    EndsIff True (finishFunction regions span name header items) post :=
  ⟨fun _ => .inl ⟨_, _, rfl, trivial, holds _ _ _⟩⟩

/-- A function is read again if its body is. -/
theorem fn_again {signature : Signature} (plain : signature.kind = .plain) (ofBody : body.Rereads) :
    (Expr.fn mark signature body).Rereads := by
  refine body_again rfl fun table regions form spells => ?_
  rw [Expr.spelling_fn, Signature.headSpelling, plain] at spells
  obtain ⟨span, head, forms, rfl, isSpecial, ofForms⟩ := special_form .fn spells
  obtain ⟨params, rest, rfl, ofParams, ofRest⟩ := spellings_eq_cons ofForms
  obtain ⟨header, later, reads, same, skip, ofLater⟩ :=
    header_eq table regions ofParams ofRest body.bodySpellings_no_keyword
  obtain ⟨sameParams, sameDecorators⟩ := Prod.mk.inj same
  unfold expr
  simp only [isSpecial, reads, pure_bind, skip]
  refine .iff (by simp [Expr.all_fn, Expr.IsPlain, Expr.testsElse])
    (.bind (ofBody.body table regions later ofLater) fun items likes =>
      finishFunction_again fun mark' mark'' id => ?_)
  refine ⟨?_, ?_, nofun⟩
  · rw [Expr.spelling_fn, Expr.spelling_fn, Signature.headSpelling, Signature.headSpelling, plain,
      sameParams, decoratorSpellings_congr sameDecorators, Expr.bodySpellings, likes.spellings]
  · simp only [Expr.functions, List.map_append, likes.functions]
    simp [Function.head, sameParams, sameDecorators]

/-! ## Conditionals -/

theorem isElse_eq (spells : form.spelling = e.spelling) :
    isElse form = (e.symbol? == some "else") := by
  rw [isElse, symbol?_eq, spells, Expr.symbol?]

theorem isElse_word (spells : form.spelling = .sym "else") : isElse form = true := by
  rw [isElse, symbol?_eq, spells]
  rfl

/-- No clauses are read again as a conditional without arms. -/
theorem clauses_none_again : RereadClauses [] none := by
  intro table regions forms spell
  cases spellings_eq_nil spell
  unfold clauses
  exact .iff (iff_true_intro ⟨fun _ member => absurd member List.not_mem_nil,
    fun _ member => absurd member List.not_mem_nil⟩) (.pure ⟨rfl, rfl, rfl⟩)

/-- An alternative is read again after the word `else`. -/
theorem clauses_some_again {alt : Expr} (ofAlt : alt.Rereads) : RereadClauses [] (some alt) := by
  intro table regions forms spell
  obtain ⟨form, none, rfl, isForm, isNone⟩ := spellings_eq_cons spell
  cases spellings_eq_nil isNone
  obtain ⟨span, inner, rfl, ofInner⟩ := spelling_eq_list isForm
  obtain ⟨word, items, rfl, isWord, ofItems⟩ := spellings_eq_cons ofInner
  unfold clauses
  simp only [isElse_word isWord, List.isEmpty_nil, if_true]
  refine .iff (by simp [AllOfArms, nodesOfArms, AllOf, nodesOfAll, Expr.All])
    (.bind (ofAlt.body table regions items ofItems) fun items likes =>
      .bind finishBlock_again fun body isBody => .pure ?_)
  obtain ⟨mark', rfl⟩ := isBody
  refine ⟨rfl, ?_, ?_⟩
  · rw [elseSpellings, Expr.bodySpellings, likes.spellings, elseSpellings]
  · simpa [functionsOfClauses, functionsOfArms, functionsOfAll, Expr.functions]
      using likes.functions

/-- Arms are read again if no test is written as `else`. -/
theorem clauses_cons_again {rest : List (Expr × Expr)}
    (noElse : test.symbol? ≠ some "else") (ofTest : test.Rereads) (ofBody : body.Rereads)
    (ofRest : RereadClauses rest alt) : RereadClauses ((test, body) :: rest) alt := by
  intro table regions forms spell
  rw [spellingsOfArms_cons, List.cons_append] at spell
  obtain ⟨form, others, rfl, isForm, ofOthers⟩ := spellings_eq_cons spell
  obtain ⟨span, inner, rfl, ofInner⟩ := spelling_eq_list isForm
  obtain ⟨first, items, rfl, isFirst, ofItems⟩ := spellings_eq_cons ofInner
  have isTest : isElse first = false := by
    rw [isElse_eq isFirst]
    simpa using noElse
  unfold clauses
  simp only [isTest, Bool.false_eq_true, if_false]
  refine .iff (by simp [allOfArms_cons, and_assoc])
    (.bind (ofTest.form table regions first isFirst) fun again like =>
      .bind (ofBody.body table regions items ofItems) fun items likes =>
        .bind finishBlock_again fun body' isBody =>
          .bind (ofRest table regions others ofOthers) fun agains more => .pure ?_)
  obtain ⟨mark', rfl⟩ := isBody
  obtain ⟨arms, alt'⟩ := agains
  refine ⟨?_, more.alt, ?_⟩
  · rw [spellingsOfArms_cons, like.spelling, Expr.bodySpellings, likes.spellings, more.arms,
      spellingsOfArms_cons]
  · have functions := more.functions
    simp only [functionsOfClauses, functionsOfArms, List.append_assoc, List.map_append]
      at functions ⊢
    rw [like.functions, Expr.functions, likes.functions, functions]

/-- A conditional whose only arm tests the name of the alternative is not read again. -/
theorem lone_else_fails {forms : List Form} {first : Spelling}
    {items : List Spelling} (isElse : first = .sym "else")
    (spell : spellings forms = .list (first :: items) :: rest) :
    Produces True (do
      let (arms, alt) ← clauses table regions forms
      if arms.isEmpty then malformed table span .noTestClause
      else finish span fun mark => .cond mark arms alt) fun _ => False := by
  obtain ⟨form, others, rfl, isForm, -⟩ := spellings_eq_cons spell
  obtain ⟨span', inner, rfl, ofInner⟩ := spelling_eq_list isForm
  obtain ⟨word, more, rfl, isWord, -⟩ := spellings_eq_cons ofInner
  have noArms : Produces True (clauses table regions (.list span' (word :: more) :: others))
      fun read => read.1 = [] := by
    unfold clauses
    simp only [isElse_word (isWord.trans isElse), if_true]
    split
    · exact .bind (.any _) fun _ _ => .bind (.any _) fun _ _ => .pure rfl
    · exact ⟨fun _ => .inr ⟨trivial, _, rfl⟩⟩
  refine .bind noArms ?_
  rintro ⟨arms, alt⟩ rfl
  exact ⟨fun _ => .inr ⟨trivial, _, rfl⟩⟩

/-- A conditional is read again, as `if` or as `cond`, exactly if it is plain. -/
theorem cond_again {arms : List (Expr × Expr)} (legible : (Expr.cond mark arms alt).IsLegible)
    (ofClauses : (∀ arm ∈ arms, arm.1.symbol? ≠ some "else") -> RereadClauses arms alt) :
    (Expr.cond mark arms alt).Rereads := by
  obtain ⟨nonempty, lone⟩ := legible
  refine body_again rfl fun table regions form spells => ?_
  rw [Expr.spelling_cond] at spells
  obtain ⟨span, head, forms, rfl, isSpecial, ofForms⟩ := special_form .cond spells
  unfold expr
  simp only [isSpecial]
  by_cases plain : ∀ arm ∈ arms, arm.1.symbol? ≠ some "else"
  · have isPlain : (Expr.cond mark arms alt).IsPlain := by
      simpa [Expr.IsPlain, Expr.testsElse, ← Expr.isElse_iff] using plain
    have parts : (Expr.cond mark arms alt).All Expr.IsPlain ↔
        (AllOfArms Expr.IsPlain arms ∧ AllOf Expr.IsPlain alt.toList) ∧ True := by
      rw [Expr.all_cond, and_iff_right isPlain, and_true]
    refine .iff parts (.bind (ofClauses plain table regions forms ofForms) fun again likes => ?_)
    obtain ⟨arms', alt'⟩ := again
    have nonempty' : arms'.isEmpty = false := by
      cases arms' with
      | nil =>
        cases arms with
        | nil => exact absurd rfl nonempty
        | cons arm rest => exact absurd likes.arms (by rw [spellingsOfArms_cons]; nofun)
      | cons => rfl
    simp only [nonempty', Bool.false_eq_true, if_false]
    refine finish_again fun mark' => ⟨?_, ?_, nofun⟩
    · rw [Expr.spelling_cond, likes.arms, likes.alt, Expr.spelling_cond]
    · rw [functions_cond, likes.functions, functions_cond]
  · obtain ⟨arm, member, isElse⟩ : ∃ arm ∈ arms, arm.1.symbol? = some "else" := by
      simpa using plain
    have single := lone arm member isElse
    obtain ⟨only, rfl⟩ := List.length_eq_one_iff.mp single
    cases List.mem_singleton.mp member
    refine .fails (fun all => ?_) (lone_else_fails (Spelling.symbol?_eq_some.mp isElse)
      (ofForms.trans (by rw [spellingsOfArms_cons]; rfl)))
    have notPlain : (Expr.cond mark [arm] alt).testsElse = true := by
      simp [Expr.testsElse, Expr.isElse_iff, isElse]
    exact absurd all.self (by simp [Expr.IsPlain, notPlain])

end Build

/-! ## All expressions -/

section All

open Build

variable {kind : Spelling -> Prop} {regions : Regions}

mutual

/-- Expressions that were read from a source are read again exactly if they are plain. -/
theorem Expr.rereads : ∀ {e : Expr}, e.All (Expr.IsReadFrom kind regions) -> e.Rereads
  | .lit .., _ => lit_again
  | .var .., _ => var_again
  | .fn .., all => by
    obtain ⟨own, ofBody⟩ := Expr.all_fn.mp all
    exact fn_again own.source.1 (Expr.rereads ofBody)
  | .call _ _ args _, all => by
    obtain ⟨own, ofFunc, ofArgs, ofKwargs⟩ := Expr.all_call.mp all
    exact call_again own.legible (Expr.rereads ofFunc)
      (rereadArgs ofArgs (rereadKwargs ofKwargs))
  | .cond _ _ none, all => by
    obtain ⟨own, ofArms⟩ := Expr.all_cond_none.mp all
    exact cond_again own.legible fun plain => rereadClauses plain ofArms clauses_none_again
  | .cond _ _ (some _), all => by
    obtain ⟨own, ofArms, ofAlt⟩ := Expr.all_cond_some.mp all
    exact cond_again own.legible fun plain =>
      rereadClauses plain ofArms (clauses_some_again (Expr.rereads ofAlt))
  | .short .., all => short_again (rereadAll (Expr.all_short.mp all).2)
  | .seq .., all => seq_again (rereadAll (Expr.all_seq.mp all).2)
  | .bind .., all => bind_again (Expr.rereads (Expr.all_bind.mp all).2)
  | .assign .., all => assign_again (Expr.rereads (Expr.all_assign.mp all).2)
  | .loop .., all => by
    obtain ⟨-, ofTest, ofBody⟩ := Expr.all_loop.mp all
    exact loop_again (Expr.rereads ofTest) (Expr.rereads ofBody)
  | .jump _ _ _ _ none, all => by
    obtain ⟨-, ofFunc, ofArgs, ofKwargs⟩ := Expr.all_jump_none.mp all
    exact jump_again (Expr.rereads ofFunc) (rereadArgs ofArgs (rereadKwargs ofKwargs))
  | .jump _ _ _ _ (some _), all => absurd (Expr.All.self all).source nofun
  | .capture .., all => by
    obtain ⟨own, ofCall⟩ := Expr.all_capture.mp all
    exact capture_again (Expr.rereads ofCall) own.legible

theorem rereadAll : ∀ {es : List Expr}, AllOf (Expr.IsReadFrom kind regions) es -> RereadAll es
  | [], _ => all_nil_again
  | _ :: _, all => by
    obtain ⟨first, others⟩ := allOf_cons.mp all
    exact all_cons_again (Expr.rereads first) (rereadAll others)

theorem rereadKwargs : ∀ {kwargs : List (String × Expr)},
    AllOfKwargs (Expr.IsReadFrom kind regions) kwargs -> RereadKwargs kwargs
  | [], _ => kwargs_nil_again
  | (_, _) :: _, all => by
    obtain ⟨first, others⟩ := allOfKwargs_cons.mp all
    exact kwargs_cons_again (Expr.rereads first) (rereadKwargs others)

theorem rereadArgs : ∀ {args : List Expr} {kwargs : List (String × Expr)},
    AllOf (Expr.IsReadFrom kind regions) args -> RereadKwargs kwargs -> RereadArgs args kwargs
  | [], _, _, ofKwargs => args_nil_again ofKwargs
  | _ :: _, _, all, ofKwargs => by
    obtain ⟨first, others⟩ := allOf_cons.mp all
    exact args_cons_again (Expr.rereads first) (rereadArgs others ofKwargs)

theorem rereadClauses : ∀ {arms : List (Expr × Expr)} {alt : Option Expr},
    (∀ arm ∈ arms, arm.1.symbol? ≠ some "else") ->
      AllOfArms (Expr.IsReadFrom kind regions) arms -> RereadClauses [] alt ->
        RereadClauses arms alt
  | [], _, _, _, ofAlt => ofAlt
  | (_, _) :: _, _, plain, all, ofAlt => by
    obtain ⟨noElse, others⟩ := List.forall_mem_cons.mp plain
    obtain ⟨ofTest, ofBody, ofRest⟩ := allOfArms_cons.mp all
    exact clauses_cons_again noElse (Expr.rereads ofTest) (Expr.rereads ofBody)
      (rereadClauses others ofRest ofAlt)

end

end All

end Trampoline
