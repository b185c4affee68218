import Trampoline.Proofs.Spelling.Forms
import Trampoline.Proofs.Syntax.Nodes

/-!
# The one-line form of expressions

The one-line form of an expression is the text of what it spells, and the atoms of this are what its
expressions spell on their own, besides the words of the language.
-/

namespace Trampoline

/-! ## The texts -/

/-- The texts of two lists of spellings come one after the other. -/
theorem charsAfter_append (first second : List Spelling) :
    charsAfter (first ++ second) = charsAfter first ++ charsAfter second := by
  induction first with
  | nil => rfl
  | cons s rest ih => simp [charsAfter, ih]

/-- A constant is shown as what it spells. -/
theorem Literal.render_eq (value : Literal) :
    value.render.toList = value.spelling.chars := by
  cases value with
  | nil => rfl
  | bool value => cases value <;> rfl
  | int value => rfl
  | str value => simp [render, Quoted.write_eq, spelling, Spelling.chars]

/-- Names after each other, with blanks between them. -/
theorem toList_names (names : List String) :
    '(' :: ((" ".intercalate names).toList ++ [')']) = (Spelling.names names).chars := by
  cases names with
  | nil => rfl
  | cons first rest =>
    have after : (" ".intercalate (first :: rest)).toList =
        first.toList ++ charsAfter (rest.map .sym) := by
      induction rest generalizing first with
      | nil => simp [String.intercalate_singleton, charsAfter]
      | cons second rest ih =>
        simp [String.intercalate_cons_cons, charsAfter, Spelling.chars, ih second]
    simp [after, Spelling.names, Spelling.chars]

/-- The head of a function is shown as what it spells. -/
theorem toList_renderHead (signature : Signature) :
    signature.renderHead.toList =
      signature.kind.word.toList ++ charsAfter signature.headSpelling.tail := by
  have params := toList_names signature.params
  simp only [Signature.renderHead, Signature.headSpelling, List.tail_cons, charsAfter, ← params]
  cases signature.decorators with
  | nil => simp [decoratorSpellings, charsAfter]
  | cons first rest =>
    have decorators := toList_names ((first :: rest).map Prod.fst)
    simp only [decoratorSpellings, charsAfter, ← decorators, Spelling.chars]
    simp

/-- The text of a body is that of its items, each after a blank. -/
theorem Expr.toList_renderBody {body : Expr} (whole : body.render.toList = body.spelling.chars) :
    body.renderBody.toList = charsAfter body.bodySpellings := by
  cases body with
  | seq mark items =>
    have both : '(' :: ("begin".toList ++ ((renderItems items).toList ++ [')'])) =
        '(' :: ("begin".toList ++ (charsAfter (spellingsOfAll items) ++ [')'])) := by
      simpa [Expr.render, Expr.spelling, Spelling.chars] using whole
    show (renderItems items).toList = charsAfter (spellingsOfAll items)
    simpa using both
  | _ => simp [renderBody, bodySpellings, charsAfter, whole]

mutual

/-- The one-line form of an expression is the text of what it spells. -/
theorem Expr.toList_render : ∀ e : Expr, e.render.toList = e.spelling.chars
  | .lit _ value => by
    rw [Expr.render, Expr.spelling, Literal.render_eq]
  | .var _ name => rfl
  | .fn mark signature body => by
    have body' := Expr.toList_renderBody body.toList_render
    rw [Expr.render_fn, Expr.spelling_fn]
    simp [Spelling.chars, Signature.headSpelling, toList_renderHead, charsAfter, charsAfter_append,
      body']
  | .call _ func args kwargs => by
    simp [Expr.render, Expr.spelling, Spelling.chars, charsAfter_append, func.toList_render,
      toList_renderItems args, toList_renderKwargs kwargs]
  | .cond mark arms none => by
    simp [Expr.render, Expr.spelling, Spelling.chars, toList_renderArms arms]
  | .cond mark arms (some alt) => by
    have alt' := Expr.toList_renderBody alt.toList_render
    rw [Expr.toList_render_cond_some, Expr.spelling_cond]
    simp [Spelling.chars, charsAfter_append, elseSpellings, charsAfter,
      toList_renderArms arms, alt']
  | .short _ op operands => by
    simp [Expr.render, Expr.spelling, Spelling.chars, toList_renderItems operands]
  | .seq _ items => by
    simp [Expr.render, Expr.spelling, Spelling.chars, toList_renderItems items]
  | .bind _ name bindee => by
    simp [Expr.render, Expr.spelling, Spelling.chars, charsAfter, bindee.toList_render]
  | .assign _ name bindee => by
    simp [Expr.render, Expr.spelling, Spelling.chars, charsAfter, bindee.toList_render]
  | .loop mark test body => by
    have body' := Expr.toList_renderBody body.toList_render
    rw [Expr.render_loop, Expr.spelling_loop]
    simp [Spelling.chars, charsAfter, test.toList_render, body']
  | .jump _ func args kwargs none => by
    simp [Expr.render, Expr.spelling, Spelling.chars, charsAfter, charsAfter_append,
      func.toList_render, toList_renderItems args, toList_renderKwargs kwargs]
  | .jump _ func args kwargs (some cc) => by
    simp [Expr.render, Expr.spelling, Spelling.chars, charsAfter, charsAfter_append,
      func.toList_render, toList_renderItems args, toList_renderKwargs kwargs, cc.toList_render]
  | .capture _ binders e => by
    have names := toList_names binders
    simp only [Expr.spelling, Spelling.chars, charsAfter, ← names]
    simp [Expr.render, e.toList_render]

theorem toList_renderItems : ∀ es : List Expr,
    (renderItems es).toList = charsAfter (spellingsOfAll es)
  | [] => rfl
  | e :: rest => by
    simp [renderItems, spellingsOfAll, charsAfter, e.toList_render, toList_renderItems rest]

theorem toList_renderKwargs : ∀ es : List (String × Expr),
    (renderKwargs es).toList = charsAfter (spellingsOfKwargs es)
  | [] => rfl
  | (name, e) :: rest => by
    simp [renderKwargs, spellingsOfKwargs, charsAfter, Spelling.chars, e.toList_render,
      toList_renderKwargs rest]

theorem toList_renderArms : ∀ es : List (Expr × Expr),
    (renderArms es).toList = charsAfter (spellingsOfArms es)
  | [] => rfl
  | (test, body) :: rest => by
    have body' := Expr.toList_renderBody body.toList_render
    rw [renderArms_cons, spellingsOfArms_cons]
    simp [charsAfter, Spelling.chars, test.toList_render, body', toList_renderArms rest]

end

/-- A toplevel form is shown as what it spells. -/
theorem Toplevel.toList_render (form : Toplevel) : form.render.toList = form.spelling.chars := by
  cases form with
  | define name bindee =>
    simp [render, spelling, Spelling.chars, charsAfter, bindee.toList_render]
  | exec e => exact e.toList_render

/-! ## The atoms -/

/-- The words of the language that expressions are spelled with. -/
def Spelling.words : List Spelling :=
  ["fn", "cont", "cond", "else", "and", "or", "begin", "let", "set!", "while", "jump",
    "capture"].map .sym ++ ["decorators", "cc"].map .keyword

section Atoms

variable {kind : Spelling -> Prop}

theorem Spelling.of_sym {name : String} : (sym name).Of kind ↔ kind (sym name) := of_atom rfl

theorem Spelling.of_keyword {name : String} : (keyword name).Of kind ↔ kind (keyword name) :=
  of_atom rfl

/-- A list of names is of a kind if each name is. -/
theorem Spelling.of_names {names : List String} :
    (Spelling.names names).Of kind ↔ ∀ name ∈ names, kind (.sym name) := by
  simp [Spelling.names, of_list, of_sym]

theorem Literal.spelling_of {value : Literal} : value.spelling.Of kind ↔ kind value.spelling := by
  cases value <;> exact Spelling.of_atom rfl

/-- The decorators of a function are of a kind if their names are. -/
theorem decoratorSpellings_of (words : ∀ word ∈ Spelling.words, kind word)
    (decorators : List (String × Span)) :
    (∀ s ∈ decoratorSpellings decorators, s.Of kind) ↔
      ∀ decorator ∈ decorators, kind (.sym decorator.1) := by
  have word : kind (.keyword "decorators") := words _ (by simp [Spelling.words])
  cases decorators with
  | nil => simp [decoratorSpellings]
  | cons => simp [decoratorSpellings, Spelling.of_names, Spelling.of_keyword, word]

/-- The head of a function is of a kind if its parameters and decorators are. -/
theorem Signature.headSpelling_of (words : ∀ word ∈ Spelling.words, kind word)
    (signature : Signature) :
    (∀ s ∈ signature.headSpelling, s.Of kind) ↔ (∀ name ∈ signature.params, kind (.sym name)) ∧
      ∀ decorator ∈ signature.decorators, kind (.sym decorator.1) := by
  have word : kind (.sym signature.kind.word) := by
    cases signature.kind <;> exact words _ (by simp [Spelling.words, FunctionKind.word])
  rw [headSpelling, List.forall_mem_cons, List.forall_mem_cons, Spelling.of_sym, Spelling.of_names,
    decoratorSpellings_of words]
  exact and_iff_right word

/-- As a body an expression spells atoms of a kind if it does on its own. -/
theorem Expr.bodySpellings_of (words : ∀ word ∈ Spelling.words, kind word)
    (body : Expr) :
    (∀ s ∈ body.bodySpellings, s.Of kind) ↔ body.spelling.Of kind := by
  have word : kind (.sym "begin") := words _ (by simp [Spelling.words])
  cases body with
  | seq mark items => simp [bodySpellings, spelling, Spelling.of_list, Spelling.of_sym, word]
  | _ => simp [bodySpellings]

mutual

/-- The spelling of an expression is of a kind if all that its expressions spell on their own is. -/
theorem Expr.spelling_of (words : ∀ word ∈ Spelling.words, kind word) :
    ∀ e : Expr, e.spelling.Of kind ↔ e.All (Expr.OwnOf kind)
  | .lit _ value => by
    simp [Expr.spelling, Literal.spelling_of, Expr.All, Expr.nodes, Expr.OwnOf, Expr.ownAtoms]
  | .var _ name => by
    simp [Expr.spelling, Spelling.of_sym, Expr.All, Expr.nodes, Expr.OwnOf, Expr.ownAtoms]
  | .fn mark signature body => by
    rw [Expr.spelling_fn, Spelling.of_list, List.forall_mem_append, signature.headSpelling_of words,
      body.bodySpellings_of words, body.spelling_of words, Expr.all_fn]
    refine and_congr_left' ?_
    rw [Expr.OwnOf, Expr.ownAtoms, List.forall_mem_append, List.forall_mem_map, List.forall_mem_map]
    rfl
  | .call _ func args kwargs => by
    rw [Expr.spelling, Spelling.of_list, List.forall_mem_cons, List.forall_mem_append,
      func.spelling_of words, spellingsOfAll_of words args, spellingsOfKwargs_of words kwargs,
        Expr.all_call,
      Expr.OwnOf, Expr.ownAtoms, List.forall_mem_map]
    exact ⟨fun ⟨ofFunc, ofArgs, keywords, ofKwargs⟩ => ⟨keywords, ofFunc, ofArgs, ofKwargs⟩,
      fun ⟨keywords, ofFunc, ofArgs, ofKwargs⟩ => ⟨ofFunc, ofArgs, keywords, ofKwargs⟩⟩
  | .cond mark arms none => by
    have word : kind (.sym "cond") := words _ (by simp [Spelling.words])
    rw [Expr.spelling_cond, Spelling.of_list, List.forall_mem_cons, Spelling.of_sym,
      List.forall_mem_append, spellingsOfArms_of words arms, Expr.all_cond_none]
    have own : (Expr.cond mark arms none).OwnOf kind := Expr.ownOf_of_nil rfl
    simp [elseSpellings, own, word]
  | .cond mark arms (some alt) => by
    have word : kind (.sym "cond") := words _ (by simp [Spelling.words])
    have word' : kind (.sym "else") := words _ (by simp [Spelling.words])
    rw [Expr.spelling_cond, Spelling.of_list, List.forall_mem_cons, Spelling.of_sym,
      List.forall_mem_append, spellingsOfArms_of words arms, elseSpellings,
        List.forall_mem_singleton,
      Spelling.of_list, List.forall_mem_cons, Spelling.of_sym, alt.bodySpellings_of words,
      alt.spelling_of words, Expr.all_cond_some]
    have own : (Expr.cond mark arms (some alt)).OwnOf kind := Expr.ownOf_of_nil rfl
    simp [own, word, word']
  | .short _ op operands => by
    have word : kind (.sym op.word) := by
      cases op <;> exact words _ (by simp [Spelling.words, Connective.word])
    rw [Expr.spelling, Spelling.of_list, List.forall_mem_cons, Spelling.of_sym,
      spellingsOfAll_of words operands, Expr.all_short]
    simp [Expr.OwnOf, Expr.ownAtoms, word]
  | .seq _ items => by
    have word : kind (.sym "begin") := words _ (by simp [Spelling.words])
    rw [Expr.spelling, Spelling.of_list, List.forall_mem_cons, Spelling.of_sym,
      spellingsOfAll_of words items, Expr.all_seq]
    simp [Expr.OwnOf, Expr.ownAtoms, word]
  | .bind _ name bindee => by
    have word : kind (.sym "let") := words _ (by simp [Spelling.words])
    simp [Expr.spelling, Spelling.of_list, Spelling.of_sym, bindee.spelling_of words, Expr.all_bind,
      Expr.OwnOf, Expr.ownAtoms, word]
  | .assign _ name bindee => by
    have word : kind (.sym "set!") := words _ (by simp [Spelling.words])
    simp [Expr.spelling, Spelling.of_list, Spelling.of_sym, bindee.spelling_of words,
      Expr.all_assign,
      Expr.OwnOf, Expr.ownAtoms, word]
  | .loop mark test body => by
    have word : kind (.sym "while") := words _ (by simp [Spelling.words])
    rw [Expr.spelling_loop, Spelling.of_list, List.forall_mem_cons, List.forall_mem_cons,
      Spelling.of_sym, test.spelling_of words, body.bodySpellings_of words, body.spelling_of words,
      Expr.all_loop]
    simp [Expr.OwnOf, Expr.ownAtoms, word]
  | .jump mark func args kwargs none => by
    have word : kind (.sym "jump") := words _ (by simp [Spelling.words])
    rw [Expr.spelling_jump, Spelling.of_list, List.forall_mem_cons, List.forall_mem_cons,
      List.forall_mem_append, List.forall_mem_append, Spelling.of_sym, func.spelling_of words,
      spellingsOfAll_of words args, spellingsOfKwargs_of words kwargs,
        Expr.all_jump_none, Expr.OwnOf,
      Expr.ownAtoms, List.forall_mem_map, ccSpellings]
    exact ⟨fun ⟨_, ofFunc, ⟨ofArgs, keywords, ofKwargs⟩, _⟩ => ⟨keywords, ofFunc, ofArgs, ofKwargs⟩,
      fun ⟨keywords, ofFunc, ofArgs, ofKwargs⟩ =>
        ⟨word, ofFunc, ⟨ofArgs, keywords, ofKwargs⟩,
          fun _ member => absurd member List.not_mem_nil⟩⟩
  | .jump mark func args kwargs (some cc) => by
    have word : kind (.sym "jump") := words _ (by simp [Spelling.words])
    have word' : kind (.keyword "cc") := words _ (by simp [Spelling.words])
    rw [Expr.spelling_jump, Spelling.of_list, List.forall_mem_cons, List.forall_mem_cons,
      List.forall_mem_append, List.forall_mem_append, Spelling.of_sym, func.spelling_of words,
      spellingsOfAll_of words args, spellingsOfKwargs_of words kwargs,
        Expr.all_jump_some, Expr.OwnOf,
      Expr.ownAtoms, List.forall_mem_map, ccSpellings, List.forall_mem_cons,
      List.forall_mem_singleton, Spelling.of_keyword, cc.spelling_of words]
    exact ⟨fun ⟨_, ofFunc, ⟨ofArgs, keywords, ofKwargs⟩, _, ofCc⟩ =>
        ⟨keywords, ofFunc, ofArgs, ofKwargs, ofCc⟩,
      fun ⟨keywords, ofFunc, ofArgs, ofKwargs, ofCc⟩ =>
        ⟨word, ofFunc, ⟨ofArgs, keywords, ofKwargs⟩, word', ofCc⟩⟩
  | .capture _ binders e => by
    have word : kind (.sym "capture") := words _ (by simp [Spelling.words])
    simp [Expr.spelling, Spelling.of_list, Spelling.of_sym, Spelling.of_names, e.spelling_of words,
      Expr.all_capture, Expr.OwnOf, Expr.ownAtoms, word]

theorem spellingsOfAll_of (words : ∀ word ∈ Spelling.words, kind word) : ∀ es : List Expr,
    (∀ s ∈ spellingsOfAll es, s.Of kind) ↔ AllOf (Expr.OwnOf kind) es
  | [] => by simp [spellingsOfAll, AllOf, nodesOfAll]
  | e :: rest => by
    rw [spellingsOfAll, List.forall_mem_cons, e.spelling_of words, spellingsOfAll_of words rest,
      allOf_cons]

theorem spellingsOfKwargs_of (words : ∀ word ∈ Spelling.words, kind word) :
    ∀ kwargs : List (String × Expr),
    (∀ s ∈ spellingsOfKwargs kwargs, s.Of kind) ↔
      (∀ arg ∈ kwargs, kind (.keyword arg.1)) ∧ AllOfKwargs (Expr.OwnOf kind) kwargs
  | [] => by simp [spellingsOfKwargs, AllOfKwargs, nodesOfKwargs]
  | (name, e) :: rest => by
    rw [spellingsOfKwargs, List.forall_mem_cons, List.forall_mem_cons, Spelling.of_keyword,
      e.spelling_of words, spellingsOfKwargs_of words rest, allOfKwargs_cons, List.forall_mem_cons]
    exact ⟨fun ⟨name, ofE, names, ofRest⟩ => ⟨⟨name, names⟩, ofE, ofRest⟩,
      fun ⟨⟨name, names⟩, ofE, ofRest⟩ => ⟨name, ofE, names, ofRest⟩⟩

theorem spellingsOfArms_of (words : ∀ word ∈ Spelling.words, kind word) :
    ∀ arms : List (Expr × Expr),
    (∀ s ∈ spellingsOfArms arms, s.Of kind) ↔ AllOfArms (Expr.OwnOf kind) arms
  | [] => by simp [spellingsOfArms, AllOfArms, nodesOfArms]
  | (test, body) :: rest => by
    rw [spellingsOfArms_cons, List.forall_mem_cons, Spelling.of_list, List.forall_mem_cons,
      test.spelling_of words, body.bodySpellings_of words, body.spelling_of words,
      spellingsOfArms_of words rest,
      allOfArms_cons, and_assoc]

end

end Atoms

end Trampoline
