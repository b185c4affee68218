import Trampoline.Proofs.Spelling.Names
import Trampoline.Proofs.Spelling.Reread
import Trampoline.Syntax.Dump

/-!
# Programs printed and read again

The text of a program, one toplevel form on each line, reads as a program with the same text and the
same functions, unless a conditional tests the bare name `else` or a string has a character that is
written by its code point.
-/

namespace Trampoline

/-- Whether an expression is a string with a character that is written by its code point. -/
def Expr.isCoded : Expr -> Bool
  | .lit _ (.str value) => value.toList.any Quoted.byCode
  | _ => false

/-- The text of a program: its toplevel forms, one on each line. -/
def Program.text (program : Program) : String :=
  String.join (program.top.map fun form => form.render ++ "\n")

/-! ## Toplevel forms -/

namespace Build

open Form

variable {kind : Spelling -> Prop} {regions : Regions}

/-- A toplevel form that is read again is one form, spelled the same and with the same functions. -/
structure LikeForm (form : Toplevel) (again : List Toplevel) : Prop where
  spelling : again.map Toplevel.spelling = [form.spelling]
  functions : (functionsOfTop again).map Function.head = form.expr.functions.map Function.head

/-- The word starts a bare expression: it is none of a block or a definition. -/
def Bare (word : String) : Prop :=
  Block.ofWord? word = none ∧ SpecialForm.ofWord? word ≠ some .define ∧
    SpecialForm.ofWord? word ≠ some .defn

variable {e : Expr} {table : LineTable} {form : Form}

/-- An expression that was read does not begin with the word of a block. -/
theorem bare_word (own : e.IsReadFrom kind regions)
    (noBlock : (Toplevel.exec e).IsLegible kind) {word : String} {rest : List Spelling}
    (spells : e.spelling = .list (.sym word :: rest)) : Bare word := by
  have first {items : List Spelling} {other : String}
      (same : e.spelling = .list (.sym other :: items)) (bare : Bare other) : Bare word := by
    cases same.symm.trans spells
    exact bare
  cases e with
  | lit mark value => cases value <;> cases spells
  | var => cases spells
  | call mark func args kwargs =>
    have called : func.symbol? = some word :=
      Spelling.symbol?_eq_some.mpr (List.cons.inj (Spelling.list.inj spells)).1
    have noSpecial : SpecialForm.ofWord? word = none := by
      simpa [Expr.IsLegible, called] using own.legible
    refine ⟨noBlock word called, ?_, ?_⟩ <;> rw [noSpecial] <;> nofun
  | fn mark signature body =>
    refine first (Expr.spelling_fn mark signature body) ?_
    rw [own.source.1]
    exact ⟨rfl, by decide, by decide⟩
  | cond => exact first (Expr.spelling_cond ..) ⟨rfl, by decide, by decide⟩
  | short mark op operands =>
    refine first rfl ?_
    cases op <;> exact ⟨rfl, by decide, by decide⟩
  | loop => exact first (Expr.spelling_loop ..) ⟨rfl, by decide, by decide⟩
  | jump => exact first (Expr.spelling_jump ..) ⟨rfl, by decide, by decide⟩
  | seq | bind | assign | capture => exact first rfl ⟨rfl, by decide, by decide⟩

/-- A form that does not begin with the word of a block is an expression. -/
theorem toplevel_bare {regions : Regions} (bare : ∀ word, form.head? = some word -> Bare word) :
    toplevel table regions form = (do
      let e ← expr table regions form
      pure [.exec e]) := by
  cases form with
  | list span items =>
    cases items with
    | nil =>
      rw [toplevel]
      rintro _ _ _ ⟨⟩
    | cons head items =>
      unfold toplevel
      cases symbol : head.symbol? with
      | none => rfl
      | some word =>
        obtain ⟨noBlock, noDefine, noDefn⟩ := bare word symbol
        simp only [Option.bind_some, noBlock]
  | _ =>
    rw [toplevel]
    rintro _ _ _ ⟨⟩

/-- An expression is read again from its text if it can be. -/
theorem exec_again (all : e.All (Expr.IsReadFrom kind regions))
    (noBlock : (Toplevel.exec e).IsLegible kind) (spells : form.spelling = e.spelling) :
    EndsIff (e.All Expr.IsPlain) (toplevel table .none form) (LikeForm (.exec e)) := by
  have bare (word : String) (starts : form.head? = some word) : Bare word := by
    obtain ⟨rest, spelled⟩ := spelling_of_head? starts
    exact bare_word all.self noBlock (spells.symm.trans spelled)
  rw [toplevel_bare bare]
  refine .iff (and_iff_left trivial).symm
    (.bind ((Expr.rereads all).form table .none form spells) fun again like => .pure ?_)
  refine ⟨congrArg (fun s => [s]) like.spelling, ?_⟩
  rw [functionsOfTop_singleton]
  exact like.functions

/-- A definition is read again from its text if it can be. -/
theorem define_again {name : String} {bindee : Expr}
    (all : bindee.All (Expr.IsReadFrom kind regions))
    (spells : form.spelling = (Toplevel.define name bindee).spelling) :
    EndsIff (bindee.All Expr.IsPlain) (toplevel table .none form)
      (LikeForm (.define name bindee)) := by
  obtain ⟨span, head, binder, form, rfl, isWord, isName, isForm⟩ := binding_form spells
  have noBlock : Block.ofWord? "define" = Option.none := rfl
  unfold toplevel
  simp only [isWord, Option.bind_some, noBlock, name_eq isName, pure_bind]
  refine .iff (and_iff_left trivial).symm
    (.bind ((Expr.rereads all).form table .none form isForm) fun again like => .pure ?_)
  refine ⟨?_, ?_⟩
  · rw [List.map_singleton, Toplevel.spelling, like.spelling, Toplevel.spelling]
  · rw [functionsOfTop_singleton]
    exact like.functions

/-- The forms of a program are read again exactly if they are plain. -/
theorem toplevels_again {top : List Toplevel} (read : ∀ form ∈ top, TopReadFrom kind form)
    {forms : List Form} (spell : spellings forms = top.map Toplevel.spelling) :
    EndsIff (∀ form ∈ top, form.expr.All Expr.IsPlain) (toplevels table .none forms) fun again =>
      again.map Toplevel.spelling = top.map Toplevel.spelling ∧
        (functionsOfTop again).map Function.head = (functionsOfTop top).map Function.head := by
  induction top generalizing forms with
  | nil =>
    cases spellings_eq_nil spell
    unfold toplevels
    exact .iff (iff_true_intro fun _ member => absurd member List.not_mem_nil) (.pure ⟨rfl, rfl⟩)
  | cons first rest ih =>
    obtain ⟨⟨legible, regions, -, all⟩, others⟩ := List.forall_mem_cons.mp read
    obtain ⟨form, more, rfl, isFirst, ofMore⟩ := spellings_eq_cons spell
    have ofFirst : EndsIff (first.expr.All Expr.IsPlain) (toplevel table .none form)
        (LikeForm first) := by
      cases first with
      | define => exact define_again all isFirst
      | exec => exact exec_again all legible isFirst
    unfold toplevels
    refine .iff (by rw [List.forall_mem_cons, and_true]) (.bind ofFirst fun again like =>
      .bind (ih others ofMore) fun agains likes => .pure ?_)
    refine ⟨?_, ?_⟩
    · rw [List.map_append, like.spelling, likes.1]
      rfl
    · rw [functionsOfTop_append, List.map_append, like.functions, likes.2, ← List.map_append]
      rfl

end Build

/-! ## Programs -/

namespace Program

variable {program : Program}

/-- Functions numbered in order stand in their order. -/
theorem functions_of_numbered
    (numbered : Build.Numbered (Build.functionsOfTop program.top) program.counters) :
    program.functions = Build.functionsOfTop program.top := by
  have ordered : (Build.functionsOfTop program.top).Pairwise
      fun first second => first.signature.id < second.signature.id := by
    rw [← List.pairwise_map, numbered.1]
    exact List.pairwise_lt_range
  have sorted {functions : List Function} (ordered : functions.Pairwise
      fun first second => first.signature.id < second.signature.id) :
      functions.foldr insertById [] = functions := by
    induction functions with
    | nil => rfl
    | cons first rest ih =>
      obtain ⟨before, others⟩ := List.pairwise_cons.mp ordered
      rw [List.foldr_cons, ih others]
      cases rest with
      | nil => rfl
      | cons second rest => rw [insertById, if_pos (before second List.mem_cons_self)]
  rw [functions, ← List.flatMap_map, ← functionsOfAll_eq_flatMap]
  exact sorted ordered

/-- The text of a program has a line for each toplevel form. -/
theorem toList_text (program : Program) :
    program.text.toList = Spelling.lines (program.top.map Toplevel.spelling) := by
  unfold text
  induction program.top with
  | nil => rfl
  | cons first rest ih =>
    simp [String.join_cons, Spelling.lines, first.toList_render, ih]

/-- What a parsed program spells can be told apart, and holds only names of the source. -/
theorem parse_reads {source : String} {path : Option String}
    (parsed : Program.parse source path = .ok program) :
    Build.Numbered (Build.functionsOfTop program.top) program.counters ∧
      ∀ form ∈ program.top, Build.TopReadFrom (·.wellNamed = true) form := by
  obtain ⟨forms, reads, built⟩ := Program.parse_eq_ok.mp parsed
  exact Program.ofForms_reads (Form.ofTokens_fair reads) built

end Program

theorem Spelling.words_wellNamed : ∀ word ∈ Spelling.words, word.wellNamed = true := by
  decide +kernel

theorem Spelling.words_readable : ∀ word ∈ Spelling.words, word.readable = true := by
  decide +kernel

/-- What an expression spells on its own can be read back unless it is coded. -/
theorem Expr.ownOf_readable {e : Expr} : e.OwnOf (·.readable = true) ↔ e.isCoded = false := by
  cases e with
  | lit mark value =>
    cases value <;> simp [OwnOf, ownAtoms, Literal.spelling, Spelling.readable, isCoded]
  | fn =>
    refine iff_of_true (List.forall_mem_append.mpr ⟨?_, ?_⟩) rfl
    · exact List.forall_mem_map.mpr fun _ _ => rfl
    · exact List.forall_mem_map.mpr fun _ _ => rfl
  | call | jump | capture => exact iff_of_true (List.forall_mem_map.mpr fun _ _ => rfl) rfl
  | var | bind | assign => exact iff_of_true (List.forall_mem_singleton.mpr rfl) rfl
  | cond | short | seq | loop => exact iff_of_true (ownOf_of_nil rfl) rfl

namespace Toplevel

/-- What a toplevel form spells is of a kind if its name is and all that its expressions spell. -/
theorem spelling_of {kind : Spelling -> Prop} (words : ∀ word ∈ Spelling.words, kind word)
    (word : kind (.sym "define")) (form : Toplevel) : form.spelling.Of kind ↔
      (∀ name bindee, form = .define name bindee -> kind (.sym name)) ∧
        form.expr.All (Expr.OwnOf kind) := by
  cases form with
  | define name bindee =>
    simp [spelling, Spelling.of_list, Spelling.of_sym, word, Expr.spelling_of words, expr]
  | exec e => simp [spelling, Expr.spelling_of words, expr]

/-- What a form that was read spells can be scanned. -/
theorem fair {form : Toplevel} (read : Build.TopReadFrom (·.wellNamed = true) form) :
    form.spelling.Fair := by
  obtain ⟨legible, regions, -, all⟩ := read
  refine (form.spelling_of Spelling.words_wellNamed rfl).mpr ⟨?_, ?_⟩
  · rintro name bindee rfl
    exact legible
  · exact all.imp fun _ _ isRead => isRead.atoms

/-- What a form spells can be read back if no node is coded. -/
theorem clean_iff (form : Toplevel) :
    form.spelling.Clean ↔ form.expr.All (·.isCoded = false) := by
  refine (form.spelling_of Spelling.words_readable rfl).trans ?_
  refine (and_iff_right fun _ _ _ => rfl).trans ?_
  exact forall₂_congr fun _ _ => Expr.ownOf_readable

end Toplevel

namespace Program

variable {source : String} {path path' : Option String} {program : Program}

theorem forall_nodes {kind : Expr -> Prop} :
    (∀ node ∈ program.nodes, kind node) ↔ ∀ form ∈ program.top, form.expr.All kind :=
  List.forall_mem_flatMap

/-- A parsed program has no wrappers, so its dump is its text. -/
theorem dump_parsed (parsed : Program.parse source path = .ok program) :
    program.dump none = program.text := by
  have bare : (program.functions.filter fun function =>
      !function.signature.wrappers.isEmpty) = [] := by
    refine List.filter_eq_nil_iff.mpr fun function member => ?_
    obtain ⟨mark, inProgram⟩ := Program.mem_functions.mp member
    obtain ⟨-, none, -⟩ := Program.parse_isSource parsed _ inProgram
    simp [none]
  unfold dump
  rw [bare]
  exact String.append_empty

/-- A program is spelled as another, with the same functions. -/
structure Like (program again : Program) : Prop where
  spelling : again.top.map Toplevel.spelling = program.top.map Toplevel.spelling
  functions : (Build.functionsOfTop again.top).map Function.head =
    (Build.functionsOfTop program.top).map Function.head

/-- The text of a program is read exactly if no conditional tests the bare name `else` and no string
has a character that is written by its code point. -/
theorem parse_text (parsed : Program.parse source path = .ok program) (path' : Option String) :
    (∃ again, Program.parse program.text path' = .ok again ∧ program.Like again ∧
      (∀ node ∈ program.nodes, node.testsElse = false) ∧
        ∀ node ∈ program.nodes, node.isCoded = false) ∨
    (∃ error, Program.parse program.text path' = .error error) ∧
      ¬((∀ node ∈ program.nodes, node.testsElse = false) ∧
        ∀ node ∈ program.nodes, node.isCoded = false) := by
  obtain ⟨-, read⟩ := parse_reads parsed
  have fair : ∀ s ∈ program.top.map Toplevel.spelling, s.Fair :=
    List.forall_mem_map.mpr fun form member => Toplevel.fair (read form member)
  have clean : (∀ s ∈ program.top.map Toplevel.spelling, s.Clean) ↔
      ∀ node ∈ program.nodes, node.isCoded = false := by
    rw [List.forall_mem_map, forall_nodes]
    exact forall₂_congr fun form _ => form.clean_iff
  have parse : Program.parse program.text path' = (do
      let table := LineTable.ofSource program.text path'
      let forms ← Form.readTokens table
        (tokensFrom 0 (Spelling.lines (program.top.map Toplevel.spelling))) [] []
      ofForms table forms) := by
    rw [Program.parse, Form.ofTokens, tokenize, toList_text]
  rw [parse, ← clean]
  by_cases readable : ∀ s ∈ program.top.map Toplevel.spelling, s.Clean
  · obtain ⟨forms, spell, reads⟩ :=
      Spelling.read_lines_clean (LineTable.ofSource program.text path') fair readable 0
    simp only [reads, List.reverse_nil, List.nil_append, bind, Except.bind, ofForms, forall_nodes]
    rcases (Build.toplevels_again read spell).ends ⟨0, 0⟩ with
      ⟨top, counters, ends, plain, spelling, functions⟩ | ⟨never, error, ends⟩
    · exact .inl ⟨⟨top, counters⟩, by rw [ends]; rfl, ⟨spelling, functions⟩, plain, readable⟩
    · exact .inr ⟨⟨error, by rw [ends]; rfl⟩, fun both => never both.1⟩
  · obtain ⟨span, reads⟩ :=
      Spelling.read_lines_unclean (LineTable.ofSource program.text path') fair readable 0
    simp only [reads, bind, Except.bind]
    exact .inr ⟨⟨_, rfl⟩, fun both => readable both.2⟩

theorem Like.text {again : Program} (like : program.Like again) : again.text = program.text := by
  rw [← String.toList_inj, toList_text, toList_text, like.spelling]

/-- A program read from a source prints as a text that reads as a program again exactly if no
conditional tests the bare name `else`, and no string has a character that is written by its code
point. That program has the same text, as many toplevel forms, and the same functions in the same
order, with the same parameters and decorators. -/
theorem text_rereads (parsed : Program.parse source path = .ok program) :
    program.dump none = program.text ∧
    ((∃ again, Program.parse program.text path' = .ok again) ↔
      (∀ node ∈ program.nodes, node.testsElse = false) ∧
        ∀ node ∈ program.nodes, node.isCoded = false) ∧
    ∀ again, Program.parse program.text path' = .ok again ->
      again.text = program.text ∧ again.top.length = program.top.length ∧
        again.functions.map Function.head = program.functions.map Function.head := by
  refine ⟨dump_parsed parsed, ?_⟩
  rcases parse_text parsed path' with ⟨again, parsed', like, may⟩ | ⟨⟨error, fails⟩, never⟩
  · refine ⟨iff_of_true ⟨again, parsed'⟩ may, fun other parsedOther => ?_⟩
    cases parsed'.symm.trans parsedOther
    refine ⟨like.text, by simpa using congrArg List.length like.spelling, ?_⟩
    rw [functions_of_numbered (parse_reads parsed).1, functions_of_numbered (parse_reads parsed').1]
    exact like.functions
  · rw [fails]
    exact ⟨iff_of_false nofun never, fun _ => nofun⟩

end Program

/-- A program with a decorated function, branches of both kinds and keyword arguments. -/
def branchesSource : String :=
  "(defn pick (a b) :decorators (memo)
    (if a (begin 1 \"x\\n\") (cond (b -2) (else (fn () a)))))
  (pick #f :b nil)"

/-- A program with branches is an instance: its text is read as a program like it. -/
theorem branches_reread :
    Program.parse branchesSource none = .ok (Program.ofText branchesSource) ∧
    ∃ again, Program.parse (Program.ofText branchesSource).text none = .ok again ∧
      again.functions.map Function.head = [([], []), (["a", "b"], ["memo"])] := by
  have ⟨parses, noElse, uncoded, heads⟩ :
      (Program.parse branchesSource none).toOption.isSome = true ∧
      (∀ node ∈ (Program.ofText branchesSource).nodes, node.testsElse = false) ∧
      (∀ node ∈ (Program.ofText branchesSource).nodes, node.isCoded = false) ∧
      (Program.ofText branchesSource).functions.map Function.head =
        [([], []), (["a", "b"], ["memo"])] := by
    rw [Program.ofText, branchesSource, Program.parse_ofList]
    decide +kernel
  have parsed := Program.parse_ofText parses
  obtain ⟨-, reads, same⟩ := @Program.text_rereads branchesSource none none _ parsed
  obtain ⟨again, parsed'⟩ := reads.mpr ⟨noElse, uncoded⟩
  obtain ⟨-, -, functions⟩ := same again parsed'
  exact ⟨parsed, again, parsed', functions.trans heads⟩

end Trampoline
