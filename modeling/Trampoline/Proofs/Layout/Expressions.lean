import Trampoline.Syntax.Layout
import Trampoline.Proofs.Layout.Documents
import Trampoline.Proofs.Spelling.Programs

/-!
# The tokens of laid-out expressions

However an expression is laid out, its tokens are those of its one-line form without the decorators
of the functions that are laid out.
-/

namespace Trampoline

/-! ## What is laid out -/

mutual

/-- What the layout of an expression spells. -/
def Expr.layoutSpelling : Expr -> Spelling
  | .fn _ signature body =>
    .list ([.sym signature.kind.word, .names signature.params] ++
      match body with
      | .seq _ items => layoutSpellingsOfAll items
      | e => [e.layoutSpelling])
  | .cond _ arms alt =>
    .list ([.sym "cond"] ++ (layoutSpellingsOfArms arms ++
      match alt with
      | none => []
      | some (.seq _ items) => [.list ([.sym "else"] ++ layoutSpellingsOfAll items)]
      | some e => [.list ([.sym "else"] ++ [e.layoutSpelling])]))
  | .seq _ items => .list ([.sym "begin"] ++ layoutSpellingsOfAll items)
  | .loop _ test body =>
    .list ([.sym "while", test.layoutSpelling] ++
      match body with
      | .seq _ items => layoutSpellingsOfAll items
      | e => [e.layoutSpelling])
  | e => e.spelling

/-- What the layouts of several expressions spell. -/
def layoutSpellingsOfAll : List Expr -> List Spelling
  | [] => []
  | e :: rest => e.layoutSpelling :: layoutSpellingsOfAll rest

/-- What the layouts of the arms of a conditional spell. -/
def layoutSpellingsOfArms : List (Expr × Expr) -> List Spelling
  | [] => []
  | (test, body) :: rest =>
    .list ([test.layoutSpelling] ++
      match body with
      | .seq _ items => layoutSpellingsOfAll items
      | e => [e.layoutSpelling]) :: layoutSpellingsOfArms rest

end

/-- What the layout of an expression spells as a body. -/
def Expr.layoutBodySpellings : Expr -> List Spelling
  | .seq _ items => layoutSpellingsOfAll items
  | e => [e.layoutSpelling]

/-- The layout of an expression as a body. -/
def Expr.layoutBody : Expr -> List Doc
  | .seq _ items => layoutItems items
  | e => [e.layout]

section Bodies

variable (mark : Mark) (signature : Signature) (test body : Expr) (arms : List (Expr × Expr))

theorem Expr.layoutSpelling_fn : (Expr.fn mark signature body).layoutSpelling =
    .list ([.sym signature.kind.word, .names signature.params] ++ body.layoutBodySpellings) := by
  cases body <;> rfl

/-- A loop spells its test and its body. -/
theorem Expr.layoutSpelling_loop : (Expr.loop mark test body).layoutSpelling =
    .list ([.sym "while", test.layoutSpelling] ++ body.layoutBodySpellings) := by
  cases body <;> rfl

/-- A conditional spells its arms, and then its alternative under `else`. -/
theorem Expr.layoutSpelling_cond_some (alt : Expr) :
    (Expr.cond mark arms (some alt)).layoutSpelling =
      .list ([.sym "cond"] ++ (layoutSpellingsOfArms arms ++
        [.list ([.sym "else"] ++ alt.layoutBodySpellings)])) := by
  cases alt <;> rfl

/-- Each arm spells its test and its body. -/
theorem layoutSpellingsOfArms_cons : layoutSpellingsOfArms ((test, body) :: arms) =
    .list ([test.layoutSpelling] ++ body.layoutBodySpellings) :: layoutSpellingsOfArms arms := by
  cases body <;> rfl

theorem Expr.layout_fn : (Expr.fn mark signature body).layout =
    Doc.parens signature.layoutHead body.layoutBody := by
  cases body <;> rfl

/-- A loop is laid out with its test before its body. -/
theorem Expr.layout_loop : (Expr.loop mark test body).layout =
    Doc.parens (.text "while " ++ test.layout) body.layoutBody := by
  cases body <;> rfl

/-- A conditional is laid out with its arms, and then its alternative under `else`. -/
theorem Expr.layout_cond_some (alt : Expr) : (Expr.cond mark arms (some alt)).layout =
    Doc.parens (.text "cond") (layoutArms arms ++
      [Doc.parens (.text "else") alt.layoutBody]) := by
  cases alt <;> rfl

/-- Each arm is laid out with its test before its body. -/
theorem layoutArms_cons : layoutArms ((test, body) :: arms) =
    Doc.parens test.layout body.layoutBody :: layoutArms arms := by
  cases body <;> rfl

end Bodies

/-! ## Tokens -/

/-- An expression with well-named atoms only. -/
def Expr.WellNamed (e : Expr) : Prop := e.All (Expr.OwnOf (·.wellNamed = true))

variable {e : Expr} {docs : List Doc} {items : List Spelling} {word s : Spelling} {text : String}
  {doc : Doc}

theorem Expr.WellNamed.fair (named : e.WellNamed) : e.spelling.Fair :=
  (e.spelling_of Spelling.words_wellNamed).mpr named

/-- A group yields what its head and its items spell. -/
theorem Doc.parens_spell {head : Doc} {first : List Spelling}
    (ofHead : head.YieldsTokens (contentsOfAll first)) (ofItems : YieldAll docs items) :
    (parens head docs).YieldsTokens (Spelling.list (first ++ items)).contents := by
  rw [Spelling.contents, contentsOfAll_append]
  exact parens_yields ofHead ofItems

/-- A word that is laid out as its characters yields its own token. -/
theorem Doc.word_yields (fair : word.Fair)
    (same : text.toList = word.chars) : (Doc.text text).YieldsTokens (contentsOfAll [word]) := by
  rw [contentsOfAll_singleton]
  refine text_yields ?_
  rw [same]
  exact word.yields fair

/-- The head of a function yields its word and its parameters. -/
theorem Signature.layoutHead_yields {signature : Signature}
    (named : ∀ name ∈ signature.params, (Spelling.sym name).wellNamed = true) :
    signature.layoutHead.YieldsTokens
      (contentsOfAll [.sym signature.kind.word, .names signature.params]) := by
  have word : (Spelling.sym signature.kind.word).Fair := by
    cases signature.kind <;> exact Spelling.of_sym.mpr (by decide)
  have names : (Spelling.names signature.params).Fair := Spelling.of_names.mpr named
  have params := toList_names signature.params
  have shape : (signature.kind.word ++ " (" ++ " ".intercalate signature.params ++ ")").toList =
      (Spelling.sym signature.kind.word).chars ++ charsAfter [.names signature.params] := by
    simp [Spelling.chars, charsAfter, ← params]
  refine Doc.text_yields ?_
  rw [shape]
  exact ((Spelling.sym signature.kind.word).yields word).append
    (Spelling.yields_after _ (List.forall_mem_singleton.mpr names))
    fun _ => Spelling.delimits_charsAfter _

theorem Doc.YieldAll.append {docs' : List Doc} {items' : List Spelling}
    (yields : YieldAll docs items) (yields' : YieldAll docs' items') :
    YieldAll (docs ++ docs') (items ++ items') :=
  List.rel_append yields yields'

theorem Doc.YieldAll.single (yields : doc.YieldsTokens s.contents) : YieldAll [doc] [s] :=
  .cons yields .nil

/-- The one-line form of an expression yields what it spells. -/
theorem Expr.render_yields (named : e.WellNamed) :
    (Doc.text e.render).YieldsTokens e.spelling.contents := by
  refine Doc.text_yields ?_
  rw [e.toList_render]
  exact e.spelling.yields named.fair

/-- What stands after a word and a blank. -/
theorem Doc.wordBefore_yields (fair : word.Fair)
    (same : text.toList = word.chars ++ [' ']) (yields : doc.YieldsTokens s.contents) :
    (Doc.text text ++ doc).YieldsTokens (contentsOfAll [word, s]) := by
  intro out laidOut
  obtain ⟨front, back, ofWord, ofDoc, rfl⟩ := Doc.laidOut_append.mp laidOut
  obtain rfl := Doc.laidOut_text.mp ofWord
  rw [same, List.append_assoc, contentsOfAll, contentsOfAll_singleton]
  exact (word.yields fair).append (yields back ofDoc).afterBlank fun _ _ =>
    delimits_cons (by decide) _

/-- However an expression is laid out, alone or as a body, it has the same tokens. -/
structure Expr.LaysOut (e : Expr) : Prop where
  whole : e.layout.YieldsTokens e.layoutSpelling.contents
  body : Doc.YieldAll e.layoutBody e.layoutBodySpellings

mutual

/-- Every expression with proper names yields what it spells, as itself and as a body. -/
theorem Expr.laysOut : ∀ e : Expr, e.WellNamed -> e.LaysOut
  | .fn mark signature body, named => by
    obtain ⟨own, inside⟩ := Expr.all_fn.mp named
    have whole : (Expr.fn mark signature body).layout.YieldsTokens
        (Expr.fn mark signature body).layoutSpelling.contents := by
      rw [Expr.layout_fn, Expr.layoutSpelling_fn]
      refine Doc.parens_spell (Signature.layoutHead_yields fun name member => ?_)
        (body.laysOut inside).body
      exact own _ (List.mem_append_left _ (List.mem_map_of_mem member))
    exact ⟨whole, .single whole⟩
  | .cond mark arms none, named => by
    have ofArms := layoutArms_yield arms (Expr.all_cond_none.mp named).2
    have word : (Spelling.sym "cond").Fair := Spelling.of_sym.mpr (by decide)
    have whole : (Expr.cond mark arms none).layout.YieldsTokens
        (Expr.cond mark arms none).layoutSpelling.contents :=
      Doc.parens_spell (Doc.word_yields word rfl) (ofArms.append .nil)
    exact ⟨whole, .single whole⟩
  | .cond mark arms (some alt), named => by
    obtain ⟨-, ofArms, ofAlt⟩ := Expr.all_cond_some.mp named
    have word : (Spelling.sym "cond").Fair := Spelling.of_sym.mpr (by decide)
    have word' : (Spelling.sym "else").Fair := Spelling.of_sym.mpr (by decide)
    have last := Doc.parens_spell (Doc.word_yields word' rfl) (alt.laysOut ofAlt).body
    have whole : (Expr.cond mark arms (some alt)).layout.YieldsTokens
        (Expr.cond mark arms (some alt)).layoutSpelling.contents := by
      rw [Expr.layout_cond_some, Expr.layoutSpelling_cond_some]
      exact Doc.parens_spell (Doc.word_yields word rfl)
        ((layoutArms_yield arms ofArms).append (.single last))
    exact ⟨whole, .single whole⟩
  | .seq mark items, named => by
    have ofItems := layoutItems_yield items (Expr.all_seq.mp named).2
    have word : (Spelling.sym "begin").Fair := Spelling.of_sym.mpr (by decide)
    exact ⟨Doc.parens_spell (Doc.word_yields word rfl) ofItems, ofItems⟩
  | .loop mark test body, named => by
    obtain ⟨-, ofTest, ofBody⟩ := Expr.all_loop.mp named
    have word : (Spelling.sym "while").Fair := Spelling.of_sym.mpr (by decide)
    have whole : (Expr.loop mark test body).layout.YieldsTokens
        (Expr.loop mark test body).layoutSpelling.contents := by
      rw [Expr.layout_loop, Expr.layoutSpelling_loop]
      exact Doc.parens_spell (Doc.wordBefore_yields word rfl (test.laysOut ofTest).whole)
        (body.laysOut ofBody).body
    exact ⟨whole, .single whole⟩
  | .lit .., named | .var .., named | .call .., named | .short .., named | .bind .., named
  | .assign .., named | .jump .., named | .capture .., named =>
    have whole := Expr.render_yields named
    ⟨whole, .single whole⟩

theorem layoutItems_yield : ∀ items : List Expr, AllOf (Expr.OwnOf (·.wellNamed = true)) items ->
    Doc.YieldAll (layoutItems items) (layoutSpellingsOfAll items)
  | [], _ => .nil
  | e :: rest, named => by
    obtain ⟨first, others⟩ := allOf_cons.mp named
    exact .cons (e.laysOut first).whole (layoutItems_yield rest others)

theorem layoutArms_yield : ∀ arms : List (Expr × Expr),
    AllOfArms (Expr.OwnOf (·.wellNamed = true)) arms ->
      Doc.YieldAll (layoutArms arms) (layoutSpellingsOfArms arms)
  | [], _ => .nil
  | (test, body) :: rest, named => by
    obtain ⟨ofTest, ofBody, others⟩ := allOfArms_cons.mp named
    have ofHead : test.layout.YieldsTokens (contentsOfAll [test.layoutSpelling]) := by
      rw [contentsOfAll_singleton]
      exact (test.laysOut ofTest).whole
    rw [layoutArms_cons, layoutSpellingsOfArms_cons]
    exact .cons (Doc.parens_spell ofHead (body.laysOut ofBody).body) (layoutArms_yield rest others)

end

/-! ## Without decorators -/

/-- The expression is no function with decorators. -/
def Expr.IsBare : Expr -> Prop
  | .fn _ signature _ => signature.decorators = []
  | _ => True

mutual

/-- Without decorators the layout of an expression spells the expression, alone and as a body. -/
theorem Expr.layoutSpelling_eq : ∀ e : Expr, e.All Expr.IsBare ->
    e.layoutSpelling = e.spelling ∧ e.layoutBodySpellings = e.bodySpellings
  | .fn mark signature body, bare => by
    obtain ⟨undecorated, inside⟩ := Expr.all_fn.mp bare
    have undecorated : signature.decorators = [] := undecorated
    have whole : (Expr.fn mark signature body).layoutSpelling =
        (Expr.fn mark signature body).spelling := by
      rw [Expr.layoutSpelling_fn, Expr.spelling_fn, (body.layoutSpelling_eq inside).2,
        Signature.headSpelling, undecorated]
      rfl
    exact ⟨whole, congrArg (fun s => [s]) whole⟩
  | .cond mark arms none, bare => by
    have whole :
      (Expr.cond mark arms none).layoutSpelling = (Expr.cond mark arms none).spelling := by
      rw [Expr.layoutSpelling, layoutSpellingsOfArms_eq arms (Expr.all_cond_none.mp bare).2]
      rfl
    exact ⟨whole, congrArg (fun s => [s]) whole⟩
  | .cond mark arms (some alt), bare => by
    obtain ⟨-, ofArms, ofAlt⟩ := Expr.all_cond_some.mp bare
    have whole : (Expr.cond mark arms (some alt)).layoutSpelling =
        (Expr.cond mark arms (some alt)).spelling := by
      rw [Expr.layoutSpelling_cond_some, Expr.spelling_cond, layoutSpellingsOfArms_eq arms ofArms,
        (alt.layoutSpelling_eq ofAlt).2]
      rfl
    exact ⟨whole, congrArg (fun s => [s]) whole⟩
  | .seq mark items, bare => by
    have same := layoutSpellingsOfAll_eq items (Expr.all_seq.mp bare).2
    exact ⟨congrArg (fun items => Spelling.list (.sym "begin" :: items)) same, same⟩
  | .loop mark test body, bare => by
    obtain ⟨-, ofTest, ofBody⟩ := Expr.all_loop.mp bare
    have whole : (Expr.loop mark test body).layoutSpelling =
        (Expr.loop mark test body).spelling := by
      rw [Expr.layoutSpelling_loop, Expr.spelling_loop, (test.layoutSpelling_eq ofTest).1,
        (body.layoutSpelling_eq ofBody).2]
      rfl
    exact ⟨whole, congrArg (fun s => [s]) whole⟩
  | .lit .., _ | .var .., _ | .call .., _ | .short .., _ | .bind .., _ | .assign .., _
  | .jump .., _ | .capture .., _ => ⟨rfl, rfl⟩

theorem layoutSpellingsOfAll_eq : ∀ items : List Expr, AllOf Expr.IsBare items ->
    layoutSpellingsOfAll items = spellingsOfAll items
  | [], _ => rfl
  | e :: rest, bare => by
    obtain ⟨first, others⟩ := allOf_cons.mp bare
    rw [layoutSpellingsOfAll, (e.layoutSpelling_eq first).1, layoutSpellingsOfAll_eq rest others,
      spellingsOfAll]

theorem layoutSpellingsOfArms_eq : ∀ arms : List (Expr × Expr), AllOfArms Expr.IsBare arms ->
    layoutSpellingsOfArms arms = spellingsOfArms arms
  | [], _ => rfl
  | (test, body) :: rest, bare => by
    obtain ⟨ofTest, ofBody, others⟩ := allOfArms_cons.mp bare
    rw [layoutSpellingsOfArms_cons, spellingsOfArms_cons, (test.layoutSpelling_eq ofTest).1,
      (body.layoutSpelling_eq ofBody).2, layoutSpellingsOfArms_eq rest others]
    rfl

end

end Trampoline
