import Trampoline.Syntax.Dump
import Trampoline.Proofs.Layout.Expressions
import Trampoline.Proofs.Rewriting.Materials
import Trampoline.Proofs.Rewriting.Origins
import Trampoline.Proofs.Syntax.Forest

/-!
# The tokens of shown programs

A transformed program is shown as code and comments after it. For all widths the code has the same
tokens. Without decorators these are the tokens of its one-line form too.
-/

namespace Trampoline

/-! ## Lines -/

/-- Lines have the tokens of what stands on them. -/
theorem contents_lines {texts : List (List Char)} {items : List Spelling}
    (yield : List.Forall₂ (fun text s => YieldsTokens text s.contents) texts items)
    (rest : List Char) :
    contents (texts.flatMap (· ++ ['\n']) ++ rest) = contentsOfAll items ++ contents rest := by
  induction yield with
  | nil => rfl
  | @cons text s texts items first others ih =>
    rw [List.flatMap_cons, List.append_assoc, List.append_assoc, List.singleton_append,
      first _ (Spelling.delimits_lines _), contents_blank (by decide), ih, contentsOfAll,
      List.append_assoc]

/-- Texts on lines of their own, after each other. -/
theorem toList_intercalate {texts : List String} (some : texts ≠ []) :
    ("\n".intercalate texts ++ "\n").toList = (texts.map String.toList).flatMap (· ++ ['\n']) := by
  induction texts with
  | nil => exact absurd rfl some
  | cons text rest ih =>
    cases rest with
    | nil => simp [String.intercalate_singleton]
    | cons next rest =>
      have others := ih (List.cons_ne_nil next rest)
      rw [List.map_cons, List.flatMap_cons, ← others, String.intercalate_cons_cons]
      simp

/-- The line is a comment: a semicolon and what follows it, up to the newline. -/
def IsComment (line : String) : Prop := ∃ body, line.toList = ';' :: (body ++ ['\n']) ∧ '\n' ∉ body

/-- A comment line has no tokens. -/
theorem contents_comment {line : String} (comment : IsComment line) (rest : List Char) :
    contents (line.toList ++ rest) = contents rest := by
  obtain ⟨body, shape, oneLine⟩ := comment
  have all : body.all (· != '\n') = true := by
    simp only [List.all_eq_true, bne_iff_ne]
    rintro _ member rfl
    exact oneLine member
  have stops : ∀ c, ('\n' :: rest).head? = some c -> (c != '\n') = false := by
    rintro _ ⟨⟩
    rfl
  have lexeme : lexemeAt ';' (body ++ '\n' :: rest) = ⟨none, body.length⟩ := by
    rw [← runLength_append all stops]
    rfl
  rw [shape, List.cons_append, List.append_assoc, List.singleton_append, contents,
    tokensFrom, lexeme]
  simp only [List.drop_left]
  rw [tokensFrom_blank (by decide), map_content_tokensFrom]

/-- Comment lines after a text add no tokens to it. -/
theorem contents_comments {lines : List String} (comments : ∀ line ∈ lines, IsComment line)
    (text : List Char) (ends : ∀ rest, contents (text ++ rest) = contents text ++ contents rest) :
    contents (text ++ (String.join lines).toList) = contents text := by
  have nothing : contents (String.join lines).toList = [] := by
    rw [String.toList_join]
    induction lines with
    | nil => exact contents_nil
    | cons line rest ih =>
      obtain ⟨first, others⟩ := List.forall_mem_cons.mp comments
      rw [List.flatMap_cons, contents_comment first, ih others]
  rw [ends, nothing, List.append_nil]

/-! ## Toplevel forms -/

/-- What the layout of a toplevel form spells. -/
def Toplevel.layoutSpelling : Toplevel -> Spelling
  | define name bindee => .list ([.sym "define", .sym name] ++ [bindee.layoutSpelling])
  | exec e => e.layoutSpelling

/-- A toplevel form with well-named atoms only. -/
structure Toplevel.WellNamed (form : Toplevel) : Prop where
  name : ∀ name bindee, form = .define name bindee -> (Spelling.sym name).wellNamed = true
  expr : form.expr.WellNamed

namespace Toplevel

variable {form : Toplevel}

theorem WellNamed.fair (named : form.WellNamed) : form.spelling.Fair :=
  (form.spelling_of Spelling.words_wellNamed rfl).mpr ⟨named.name, named.expr⟩

/-- However a form with proper names is laid out, it yields what its layout spells. -/
theorem layout_yields (named : form.WellNamed) :
    form.layout.YieldsTokens form.layoutSpelling.contents := by
  cases form with
  | exec e => exact (e.laysOut named.expr).whole
  | define name bindee =>
    have word : (Spelling.sym "define").Fair := Spelling.of_sym.mpr (by decide)
    have named' : (Spelling.sym name).Fair := Spelling.of_sym.mpr (named.name name bindee rfl)
    refine Doc.parens_spell (Doc.text_yields ?_) (.single (bindee.laysOut named.expr).whole)
    have shape : ("define " ++ name).toList =
        (Spelling.sym "define").chars ++ charsAfter [.sym name] := by
      simp [Spelling.chars, charsAfter]
    rw [shape]
    exact ((Spelling.sym "define").yields word).append
      (Spelling.yields_after _ (List.forall_mem_singleton.mpr named'))
      fun _ => Spelling.delimits_charsAfter _

theorem render_yields (named : form.WellNamed) :
    Trampoline.YieldsTokens form.render.toList form.spelling.contents := by
  rw [form.toList_render]
  exact form.spelling.yields named.fair

/-- A form without decorators spells in its layout what it spells on one line. -/
theorem layoutSpelling_eq (bare : form.expr.All Expr.IsBare) :
    form.layoutSpelling = form.spelling := by
  cases form with
  | exec e => exact (e.layoutSpelling_eq bare).1
  | define name bindee =>
    rw [layoutSpelling, (bindee.layoutSpelling_eq bare).1]
    rfl

end Toplevel

/-! ## Programs -/

namespace Program

variable {program : Program} {width : Nat}

/-- The code that is shown of a program. -/
def code (width : Option Nat) (program : Program) : String :=
  match width with
  | some width => program.renderLayout width ++ "\n"
  | none => String.join (program.top.map fun top => top.render ++ "\n")

/-- The lines that are shown after the code, one for each function with wrappers. -/
def wrapperLines (program : Program) : List String :=
  (program.functions.filter fun function => !function.signature.wrappers.isEmpty).map
    Function.renderWrappers

theorem dump_eq (width : Option Nat) (program : Program) :
    program.dump width = program.code width ++ String.join program.wrapperLines := by
  cases width <;> rfl

/-- The toplevel forms of the program have well-named atoms only. -/
def WellNamed (program : Program) : Prop := ∀ form ∈ program.top, form.WellNamed

/-- However the forms are laid out, on lines of their own they have the tokens of their layouts. -/
theorem contents_laidOut (named : program.WellNamed) {texts : List (List Char)}
    (laidOut : List.Forall₂ (fun form text => form.layout.LaidOut text) program.top texts)
    (rest : List Char) : contents (texts.flatMap (· ++ ['\n']) ++ rest) =
      contentsOfAll (program.top.map Toplevel.layoutSpelling) ++ contents rest := by
  refine contents_lines ?_ rest
  have both := (List.forall₂_and_left _ _).mpr ⟨named, laidOut⟩
  rw [List.forall₂_map_right_iff]
  exact .flip (both.imp fun form text ⟨named, laidOut⟩ => form.layout_yields named text laidOut)

/-- For every width the code has the tokens of the laid-out forms. -/
theorem code_some (named : program.WellNamed) (width : Nat) (rest : List Char) :
    contents ((program.code (some width)).toList ++ rest) =
      contentsOfAll (program.top.map Toplevel.layoutSpelling) ++ contents rest := by
  by_cases empty : program.top = []
  · have blank : (program.code (some width)).toList = ['\n'] := by
      simp [code, renderLayout, empty]
    rw [blank, empty]
    exact contents_blank (by decide) rest
  · unfold code renderLayout
    dsimp only
    rw [toList_intercalate (by simpa using empty), List.map_map]
    refine contents_laidOut named (List.forall₂_map_right_iff.mpr ?_) rest
    exact List.forall₂_same.mpr fun form _ => Doc.render_laidOut width form.layout

/-- Without a width the code has the tokens of the one-line forms. -/
theorem code_none (named : program.WellNamed) (rest : List Char) :
    contents ((program.code none).toList ++ rest) =
      contentsOfAll (program.top.map Toplevel.spelling) ++ contents rest := by
  have shape : (program.code none).toList =
      (program.top.map fun form => form.render.toList).flatMap (· ++ ['\n']) := by
    simp [code, String.toList_join, List.flatMap_map]
  rw [shape]
  refine contents_lines ?_ rest
  simp only [List.forall₂_map_left_iff, List.forall₂_map_right_iff]
  exact List.forall₂_same.mpr fun form member => form.render_yields (named form member)

/-- What the code of a program spells, with or without a width. -/
def codeSpellings (program : Program) : Option Nat -> List Spelling
  | some _ => program.top.map Toplevel.layoutSpelling
  | none => program.top.map Toplevel.spelling

/-- The tokens of the code are what the forms spell, whatever comes after it. -/
theorem contents_code (named : program.WellNamed) (width : Option Nat) (rest : List Char) :
    contents ((program.code width).toList ++ rest) =
      contentsOfAll (program.codeSpellings width) ++ contents rest := by
  cases width with
  | some width => exact code_some named width rest
  | none => exact code_none named rest

/-- Without decorators, what the code spells does not depend on the width. -/
theorem codeSpellings_eq (bare : ∀ form ∈ program.top, form.expr.All Expr.IsBare)
    (width : Option Nat) : program.codeSpellings width = program.top.map Toplevel.spelling := by
  cases width with
  | none => rfl
  | some width =>
    exact List.map_congr_left fun form member => form.layoutSpelling_eq (bare form member)

/-! ## Parsed and transformed programs -/

variable {source : String} {path : Option String} {table : DecoratorTable} {escapes : List String}
  {transformed : Transformed}

/-- Parsing takes names from identifier tokens, so all names of a parsed program are proper. -/
theorem parse_wellNamed (parsed : Program.parse source path = .ok program) : program.WellNamed := by
  intro form member
  obtain ⟨legible, regions, -, all⟩ := (parse_reads parsed).2 form member
  constructor
  · rintro name bindee rfl
    exact legible
  · exact all.imp fun _ _ isRead => isRead.atoms

/-- The names that the transformation adds are proper, and it keeps the others. -/
theorem transform_wellNamed (succeeds : program.transform table escapes = .ok transformed)
    (named : program.WellNamed) : transformed.program.WellNamed := by
  have made : ∀ form ∈ transformed.program.top,
      form.expr.All (Expr.MadeOf (fun _ => True) (·.wellNamed = true)) :=
    transform_madeOf ⟨by decide, by decide⟩ succeeds fun form member =>
      (named form member).expr.imp fun _ _ own => ⟨trivial, own⟩
  obtain ⟨middle, rewriting, dressing⟩ := transform_mappingTop succeeds
  intro form member
  constructor
  · rintro name bindee rfl
    obtain ⟨_, inMiddle, -⟩ := dressing.defined member
    obtain ⟨_, inProgram, -⟩ := rewriting.defined inMiddle
    exact (named _ inProgram).name name _ rfl
  · exact (made form member).imp fun _ _ isMade => isMade.own

/-- A named function of a parsed program has a proper name. -/
theorem parse_functionNamed (parsed : Program.parse source path = .ok program)
    {function : Function} (member : function ∈ program.functions) {name : String}
    (named : function.signature.name = some name) : (Spelling.sym name).wellNamed = true := by
  obtain ⟨mark, inProgram⟩ := mem_functions.mp member
  exact (parse_filed parsed).named _ inProgram name named

/-- The transformation adds no decorators to functions without them. -/
theorem transform_bare (succeeds : program.transform table escapes = .ok transformed)
    (bare : ∀ function ∈ program.functions, function.signature.decorators = []) :
    ∀ form ∈ transformed.program.top, form.expr.All Expr.IsBare := by
  rw [← forall_nodes]
  intro node member
  cases node with
  | fn mark signature body =>
    obtain ⟨function, written, rewritten, ⟨wrappers, -, same⟩, origin⟩ :=
      transform_origin succeeds (mem_functions_of_mem member)
    cases same
    rcases origin with ⟨params, rfl⟩ | ⟨id, binders, rfl⟩
    · exact bare function written
    · rfl
  | _ => trivial

end Program

/-- A proper name fits on one line. -/
theorem oneLine_symbol {name : String} (named : (Spelling.sym name).wellNamed = true) :
    '\n' ∉ name.toList := by
  intro member
  have symbol : isSymbolText name.toList = true := named
  have part : isIdentPart '\n' = true := by
    cases shape : name.toList with
    | nil => simp [shape] at member
    | cons c body =>
      simp only [shape, isSymbolText, Bool.and_eq_true, List.all_eq_true] at symbol
      rw [shape] at member
      rcases List.mem_cons.mp member with rfl | inBody
      · exact isIdentPart_of_isIdentStart symbol.1.1
      · exact symbol.1.2 _ inBody
  revert part
  decide

/-- Digits fit on one line. -/
theorem oneLine_digits (n : Nat) : '\n' ∉ Nat.toDigits 10 n := by
  intro member
  have digit := Nat.isDigit_of_mem_toDigits (by decide) (by decide) member
  revert digit
  decide

/-- The names of decorators fit on one line. -/
theorem oneLine_decoratorNames (decorators : List Decorator) :
    '\n' ∉ (decoratorNames decorators).toList := by
  have each : ∀ decorator : Decorator, '\n' ∉ decorator.name.toList := by
    rintro (_ | _ | _ | _ | _ | _) <;> decide
  unfold decoratorNames
  induction decorators with
  | nil => exact List.not_mem_nil
  | cons first rest ih =>
    cases rest with
    | nil => simpa using each first
    | cons second rest =>
      simp only [List.map_cons, String.intercalate_cons_cons, String.toList_append, List.mem_append,
        not_or] at ih ⊢
      exact ⟨⟨each first, by decide⟩, ih⟩

/-- The line of the wrappers of a function is a comment, if the name of the function is a name. -/
theorem Function.renderWrappers_isComment {function : Function}
    (named : ∀ name, function.signature.name = some name -> (Spelling.sym name).wellNamed = true) :
    IsComment function.renderWrappers := by
  have nameLine : '\n' ∉
      (function.signature.name.getD ("fn #" ++ toString function.signature.id)).toList := by
    cases found : function.signature.name with
    | none => simp [String.toList_append, oneLine_digits]
    | some name => exact oneLine_symbol (named name found)
  refine ⟨' ' ::
    ((function.signature.name.getD ("fn #" ++ toString function.signature.id)).toList ++
    ':' :: ' ' :: (decoratorNames function.signature.wrappers).toList), ?_, ?_⟩
  · simp [renderWrappers, String.toList_append]
  · simp only [List.mem_cons, List.mem_append, not_or]
    exact ⟨by decide, nameLine, by decide, by decide, oneLine_decoratorNames _⟩

namespace Program

variable {program : Program} {source : String} {path : Option String} {table : DecoratorTable}
  {escapes : List String} {transformed : Transformed}

/-- The wrapper lines of a transformed program are comment lines. -/
theorem transform_comments (parsed : Program.parse source path = .ok program)
    (succeeds : program.transform table escapes = .ok transformed) :
    ∀ line ∈ transformed.program.wrapperLines, IsComment line := by
  refine List.forall_mem_map.mpr fun dressed member => dressed.renderWrappers_isComment ?_
  intro name named
  obtain ⟨function, written, rewritten, ⟨wrappers, -, same⟩, origin⟩ :=
    transform_origin succeeds (List.mem_filter.mp member).1
  rw [same] at named
  rcases origin with ⟨params, rfl⟩ | ⟨id, binders, rfl⟩
  · exact parse_functionNamed parsed written named
  · cases named

/-- The kinds and texts of the tokens of what is shown of a program. -/
def shownContents (width : Option Nat) (program : Program) : List (TokenKind × String) :=
  (tokenize (program.dump width)).map Token.content

/-- What a dump shows is what its code spells, since the rest of it is comments. -/
theorem shownContents_eq (named : program.WellNamed)
    (comments : ∀ line ∈ program.wrapperLines, IsComment line) (width : Option Nat) :
    program.shownContents width = contentsOfAll (program.codeSpellings width) := by
  have own := contents_code named width []
  simp only [List.append_nil, contents_nil] at own
  have shown : program.shownContents width = contents ((program.code width).toList ++
      (String.join program.wrapperLines).toList) := by
    rw [← String.toList_append, ← dump_eq]
    rfl
  rw [shown, contents_comments comments _ fun rest => ?_, own]
  rw [contents_code named width rest, own]

/-- What is shown of a transformed program has the same tokens for all widths, and however else its
forms are laid out. None is an error, and they are those of the code: the lines after it are
comments. If the program has no decorators they are also shown without a width. -/
theorem layouts_lex_alike (parsed : Program.parse source path = .ok program)
    (succeeds : program.transform table escapes = .ok transformed) :
    (∀ width width' : Nat, transformed.program.shownContents (some width) =
      transformed.program.shownContents (some width')) ∧
    ((∀ function ∈ program.functions, function.signature.decorators = []) ->
      ∀ width : Nat, transformed.program.shownContents (some width) =
        transformed.program.shownContents none) ∧
    (∀ width, ∀ token ∈ tokenize (transformed.program.dump width), token.kind ≠ .error) ∧
    (∀ width, transformed.program.dump width =
        transformed.program.code width ++ String.join transformed.program.wrapperLines ∧
      transformed.program.shownContents width =
        (tokenize (transformed.program.code width)).map Token.content) ∧
    (∀ line ∈ transformed.program.wrapperLines, IsComment line) ∧
    ∀ texts : List String,
      List.Forall₂
        (fun form text => form.layout.LaidOut text.toList) transformed.program.top texts ->
        ∀ width : Nat, (tokenize (String.join (texts.map (· ++ "\n")))).map Token.content =
          transformed.program.shownContents (some width) := by
  have named := transform_wellNamed succeeds (parse_wellNamed parsed)
  have comments := transform_comments parsed succeeds
  have shown := shownContents_eq named comments
  refine ⟨fun width width' => ?_, fun bare width => ?_, fun width token member => ?_,
    fun width => ?_,
    comments, fun texts laidOut width => ?_⟩
  · rw [shown, shown]
    rfl
  · have bare := transform_bare succeeds bare
    rw [shown, shown, codeSpellings_eq bare, codeSpellings_eq bare]
  · have listed : token.content ∈ transformed.program.shownContents width :=
      List.mem_map_of_mem member
    rw [shown] at listed
    exact contentsOfAll_noError _ _ listed
  · refine ⟨dump_eq width _, ?_⟩
    have own := contents_code named width []
    simp only [List.append_nil, contents_nil] at own
    rw [shown, ← own]
    rfl
  · have own := contents_laidOut named (List.forall₂_map_right_iff.mpr laidOut) []
    simp only [List.append_nil, contents_nil] at own
    rw [shown, codeSpellings, ← own]
    simp [contents, tokenize, String.toList_join, List.flatMap_map]

end Program

/-- A block for continuations that takes more than one line if lines are short. -/
def branchingSteps : String :=
  "(continuations
    (defn steps (n)
      (capture (m) (next n))
      (cond ((< m 3) (print \"low\")) (else (next m)))))
  (steps 1)"

/-- A program whose dumps differ between two widths is an instance: their tokens do not differ. -/
theorem branchingSteps_lex_alike : ∃ transformed,
    (Program.ofText branchingSteps).transform .default [] = .ok transformed ∧
    transformed.program.dump (some 20) ≠ transformed.program.dump (some 200) ∧
    transformed.program.shownContents (some 20) = transformed.program.shownContents (some 200) ∧
    transformed.program.shownContents (some 200) = transformed.program.shownContents none := by
  have ⟨reads, bare, differ⟩ :
      (Program.parse branchingSteps none).toOption.isSome = true ∧
      (∀ function ∈ (Program.ofText branchingSteps).functions, function.signature.decorators = []) ∧
      ((Program.ofText branchingSteps).transform .default []).toOption.any (fun transformed =>
        transformed.program.dump (some 20) != transformed.program.dump (some 200)) = true := by
    rw [Program.ofText, branchingSteps, Program.parse_ofList]
    decide +kernel
  cases succeeds : (Program.ofText branchingSteps).transform .default [] with
  | error error => simp [succeeds, Except.toOption] at differ
  | ok transformed =>
    simp only [succeeds, Except.toOption, Option.any_some, bne_iff_ne] at differ
    obtain ⟨alike, undecorated, -⟩ :=
      Program.layouts_lex_alike (Program.parse_ofText reads) succeeds
    exact ⟨transformed, rfl, differ, alike 20 200, undecorated bare 200⟩

end Trampoline
