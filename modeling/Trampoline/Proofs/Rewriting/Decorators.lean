import Mathlib
import Trampoline.Syntax.Dump
import Trampoline.Proofs.Rewriting.Origins
import Trampoline.Proofs.Rewriting.Recasting
import Trampoline.Proofs.Syntax.Rebuilding

/-!
# Decorators and blocks commute

It does not matter in which order the decorators of a function are listed, nor how often, nor in
which order and how often the blocks around it are nested. The wrappers of a function are those that
it lists and those that the blocks around it imply, in the order of their positions.
-/

namespace Trampoline

open Transform

/-! ## Programs without decorators -/

/-- The program without its lists of decorators. -/
def Program.undecorated (program : Program) : Program :=
  program.recast (fun span => span) fun _ => []

/-- The program without places, and with decorators in a standard order. -/
def Program.standard (program : Program) : Program :=
  program.recast (fun _ => .dummy) standardNames

section Recast

variable (place place' : Span -> Span) (redecorate redecorate' : Redecoration) (program : Program)

/-- Recasting twice is recasting once by both. -/
theorem Program.recast_recast :
    (program.recast place redecorate).recast place' redecorate' =
      program.recast (place' ∘ place) (redecorate' ∘ redecorate) := by
  have each (form : Toplevel) : (form.recast place redecorate).recast place' redecorate' =
      form.recast (place' ∘ place) (redecorate' ∘ redecorate) := by
    cases form <;> simp only [Toplevel.recast, Expr.recast_recast]
  simp only [recast, List.map_map]
  congr 1
  exact List.map_congr_left fun form _ => each form

theorem insertById_recast (function : Function) (functions : List Function) :
    Program.insertById (function.recast place redecorate)
      (functions.map (Function.recast place redecorate)) =
      (Program.insertById function functions).map (Function.recast place redecorate) := by
  induction functions with
  | nil => rfl
  | cons first rest ih =>
    have same : (function.recast place redecorate).signature.id <
        (first.recast place redecorate).signature.id ↔ function.signature.id < first.signature.id :=
      Iff.rfl
    rw [List.map_cons, Program.insertById, Program.insertById, ih]
    simp only [same]
    split <;> rfl

/-- The functions of a program that is recast are its functions, recast. -/
theorem Program.functions_recast : (program.recast place redecorate).functions =
    program.functions.map (Function.recast place redecorate) := by
  have inForms : (program.recast place redecorate).top.flatMap (fun form => form.expr.functions) =
      (program.top.flatMap fun form => form.expr.functions).map
        (Function.recast place redecorate) := by
    simp only [recast, List.flatMap_map, List.map_flatMap]
    refine List.flatMap_congr fun form _ => ?_
    cases form <;> exact Expr.functions_recast ..
  rw [functions, functions, inForms]
  induction program.top.flatMap fun form => form.expr.functions with
  | nil => rfl
  | cons first rest ih => rw [List.map_cons, List.foldr_cons, ih, insertById_recast]; rfl

/-- The text of a program does not depend on places. -/
theorem Program.dump_recast :
    (program.recast place fun decorators => decorators).dump none = program.dump none := by
  have code (form : Toplevel) :
      (form.recast place fun decorators => decorators).render = form.render := by
    cases form <;> simp only [Toplevel.recast, Toplevel.render, Expr.render_recast]
  have lines : (program.functions.map (Function.recast place fun decorators => decorators)).filter
      (fun function => !function.signature.wrappers.isEmpty) = (program.functions.filter
        fun function => !function.signature.wrappers.isEmpty).map (Function.recast place _) :=
    List.filter_map
  simp only [dump, functions_recast, lines, List.map_map]
  simp only [recast, List.map_map, Function.comp_def, code]
  rfl

end Recast

/-- Programs that differ only in places and in how decorators are listed have the same functions and
the same text but for their decorators. -/
theorem Program.undecorated_of_standard {program program' : Program}
    (same : program.standard = program'.standard) :
    program.undecorated.functions.map Function.signature =
        program'.undecorated.functions.map Function.signature ∧
      program.undecorated.dump none = program'.undecorated.dump none := by
  have bare (program : Program) :
    program.undecorated.recast (fun _ => .dummy) (fun names => names) =
      program.standard.recast (fun span => span) fun _ => [] := by
    rw [undecorated, standard, recast_recast, recast_recast]
    rfl
  have signatures (program : Program) : program.undecorated.functions.map Function.signature =
      (program.undecorated.recast (fun _ => .dummy) fun names => names).functions.map
        Function.signature := by
    rw [functions_recast, List.map_map]
    rfl
  constructor
  · rw [signatures, signatures, bare, bare, same]
  · rw [← dump_recast (fun _ => .dummy), ← dump_recast (fun _ => .dummy) program'.undecorated, bare,
      bare, same]

/-! ## Sources that are alike -/

section Alike

variable {table : DecoratorTable} {escapes : List String}

variable {forms : List Form} {program : Program} {transformed : Transformed}

/-- Forms that are alike are both no program, or programs that are the same but for places and for
how decorators are listed. -/
theorem Program.ofForms_alike {forms' : List Form} (alike : TopsAlike forms forms')
    (lines lines' : LineTable) :
    (∃ error error', Program.ofForms lines forms = .error error ∧
      Program.ofForms lines' forms' = .error error') ∨
    ∃ program program', Program.ofForms lines forms = .ok program ∧
      Program.ofForms lines' forms' = .ok program' ∧ program.standard = program'.standard := by
  unfold ofForms
  rcases Build.tops_alike alike lines lines' .none ⟨0, 0⟩ with
    ⟨error, error', fails, fails'⟩ | ⟨top, top', counters, ends, ends', same⟩
  · exact .inl ⟨error, error', by rw [fails]; rfl, by rw [fails']; rfl⟩
  · refine .inr ⟨_, _, by rw [ends]; rfl, by rw [ends']; rfl, ?_⟩
    simp only [standard, recast, same]

/-- Programs that are the same but for places and for how decorators are listed are both rejected,
or they become programs that are the same. -/
theorem Program.transform_alike (distinct : table.Distinct) {program' : Program}
    (same : program.standard = program'.standard) :
    (∃ error error', program.transform table escapes = .error error ∧
      program'.transform table escapes = .error error') ∨
    ∃ transformed transformed', program.transform table escapes = .ok transformed ∧
      program'.transform table escapes = .ok transformed' ∧
      transformed.program.standard = transformed'.program.standard := by
  have common (program : Program) :
      (∃ error error', program.transform table escapes = .error error ∧
        program.standard.transform table escapes = .error error') ∨
      ∃ transformed transformed', program.transform table escapes = .ok transformed ∧
        program.standard.transform table escapes = .ok transformed' ∧
        transformed.program.standard = transformed'.program :=
    program.transform_recast distinct mem_standardNames
  rcases common program with
    ⟨error, _, rejects, fails⟩ | ⟨transformed, middle, accepts, ends, becomes⟩ <;>
  rcases common program' with
    ⟨error', _, rejects', fails'⟩ | ⟨transformed', middle', accepts', ends', becomes'⟩ <;>
  rw [same] at *
  · exact .inl ⟨error, error', rejects, rejects'⟩
  · cases fails.symm.trans ends'
  · cases ends.symm.trans fails'
  · cases ends.symm.trans ends'
    exact .inr ⟨transformed, transformed', accepts, accepts', becomes.trans becomes'.symm⟩

/-! ## Wrappers -/

/-- The decorators that a block implies. -/
def Block.implied : Block -> List Decorator
  | .tco => [.trampolined]
  | .continuations => [.trampolined, .continuations]
  | .lazify => [.lazy]

/-- Wrappers of a function inside blocks are as asked: those that it lists and those that the blocks
imply, each once and in the order of their positions. -/
structure AsAsked (table : DecoratorTable) (around : List Block) (signature : Signature)
    (wrappers : List Decorator) : Prop where
  asked : ∀ decorator, decorator ∈ wrappers ↔
    (∃ listed ∈ signature.decorators, listed.1 = decorator.name) ∨
      ∃ block ∈ around, decorator ∈ block.implied
  once : wrappers.Nodup
  increasing : wrappers.Pairwise table.Outside

/-- The blocks around a function imply one wrapper each. -/
theorem mem_impliedWrappers {signature : Signature} (plain : signature.kind = .plain)
    (decorator : Decorator) : decorator ∈ impliedWrappers signature ↔
      decorator = .trampolined ∧ signature.regions.tco = true ∨
        decorator = .continuations ∧ signature.regions.cont = true ∨
        decorator = .lazy ∧ signature.regions.lazy = true := by
  rw [impliedWrappers, plain]
  cases signature.regions.tco <;> cases signature.regions.cont <;>
    cases signature.regions.lazy <;> simp

/-- The regions inside blocks imply what each of the blocks does. -/
theorem implied_iff (around : List Block) (decorator : Decorator) :
    decorator = .trampolined ∧ (Build.regionsWithin around).tco = true ∨
        decorator = .continuations ∧ (Build.regionsWithin around).cont = true ∨
        decorator = .lazy ∧ (Build.regionsWithin around).lazy = true ↔
      ∃ block ∈ around, decorator ∈ block.implied := by
  induction around with
  | nil => simp [Build.regionsWithin, Regions.none]
  | cons block around ih =>
    have inside : Build.regionsWithin (block :: around) =
        Build.enter (Build.regionsWithin around) block := rfl
    simp only [List.mem_cons, exists_eq_or_imp, ← ih, inside]
    cases block <;> cases decorator <;> simp [Build.enter, Block.implied]

/-- A function that is read inside blocks is transformed with wrappers as asked. -/
theorem Program.transform_asAsked (distinct : table.Distinct)
    (succeeds : program.transform table escapes = .ok transformed) {function : Function}
    (member : function ∈ program.functions) {around : List Block}
    (plain : function.signature.kind = .plain)
    (within : function.signature.regions = Build.regionsWithin around) :
    ∃ result ∈ transformed.program.functions, result.signature.id = function.signature.id ∧
      AsAsked table around function.signature result.signature.wrappers := by
  obtain ⟨inside, rewritten, body, -, rewrites, -, dressed, listed, dresses⟩ :=
    transform_functions succeeds member
  have same : rewritten.signature =
    { function.signature with params := rewrittenParams function.signature } :=
    rewrites.of (functionBody_params _)
  obtain ⟨⟨wrappers, resolves, dressing⟩, -⟩ := dresses.akin
  rw [same] at resolves dressing
  refine ⟨dressed, listed, by rw [dressing], ?_⟩
  rw [dressing]
  obtain ⟨_, -, nests⟩ := resolveWrappers_nests resolves
  refine ⟨fun decorator => ?_, nests.once, resolveWrappers_increasing distinct resolves⟩
  refine (mem_resolveWrappers resolves).trans (or_congr_right ?_)
  rw [mem_impliedWrappers (by exact plain), ← implied_iff, ← within]

/-- The forms of a source are the toplevel forms of a program, one by one, and the functions in each
are transformed with wrappers as asked by the blocks around it. -/
def WrapsAsAsked (table : DecoratorTable) (forms : List Form) (program : Program)
    (transformed : Transformed) : Prop :=
  List.Forall₂ (fun leaf form => ∀ function ∈ form.expr.functions,
      (∃ result ∈ transformed.program.functions, result.signature.id = function.signature.id) ∧
      ∀ result ∈ transformed.program.functions, result.signature.id = function.signature.id ->
        AsAsked table leaf.1 function.signature result.signature.wrappers)
    (Build.leavesOfAll [] forms) program.top

/-- The functions of a transformed program have the wrappers that they were asked to have. -/
theorem Program.wrapsAsAsked (distinct : table.Distinct) {source : String} {path : Option String}
    (reads : Form.ofSource source path = .ok forms)
    (parsed : Program.parse source path = .ok program)
    (succeeds : program.transform table escapes = .ok transformed) :
    WrapsAsAsked table forms program transformed := by
  obtain ⟨forms', reads', built⟩ := Program.parse_eq_ok.mp parsed
  cases reads.symm.trans reads'
  have anyKind : ∀ form ∈ forms, form.Of fun _ => True := fun _ _ _ _ => trivial
  have once : (transformed.program.functions.map (·.signature.id)).Nodup :=
    transform_functionIds parsed succeeds ▸ List.nodup_range
  obtain ⟨same, read⟩ := List.forall₂_iff_zip.mp (Program.ofForms_leaves anyKind built).2
  refine List.forall₂_iff_zip.mpr ⟨same, fun {leaf form} paired function inside => ?_⟩
  have inProgram : function ∈ program.functions := by
    rw [Program.mem_functions_iff, functionsOfAll_eq_flatMap, List.flatMap_map]
    exact List.mem_flatMap.mpr ⟨form, (List.of_mem_zip paired).2, inside⟩
  obtain ⟨mark, node⟩ := form.expr.mem_functions.mp inside
  obtain ⟨plain, -, within, -⟩ := ((read paired).source _ node).source
  obtain ⟨result, member, id, asAsked⟩ :=
    Program.transform_asAsked distinct succeeds inProgram plain within
  refine ⟨⟨result, member, id⟩, fun other member' id' => ?_⟩
  rwa [List.inj_on_of_nodup_map once member' member (id'.trans id.symm)]

/-- Sources that differ only in how decorators are listed and how blocks are nested are both no
program, or both rejected, or they are transformed alike at distinct positions: their functions have
the same wrappers and regions, and their text is the same but for the lists of decorators. The
wrappers of every function are those that it lists and those that the blocks around it imply, each
once and in the order of their positions. -/
theorem Program.decorators_commute (distinct : table.Distinct) (escapes : List String)
    {source source' : String} {path path' : Option String} {forms forms' : List Form}
    (reads : Form.ofSource source path = .ok forms)
    (reads' : Form.ofSource source' path' = .ok forms') (alike : TopsAlike forms forms') :
    (∃ error error', Program.parse source path = .error error ∧
      Program.parse source' path' = .error error') ∨
    ∃ program program', Program.parse source path = .ok program ∧
      Program.parse source' path' = .ok program' ∧
      ((∃ error error', program.transform table escapes = .error error ∧
          program'.transform table escapes = .error error') ∨
        ∃ transformed transformed', program.transform table escapes = .ok transformed ∧
          program'.transform table escapes = .ok transformed' ∧
          transformed.program.undecorated.functions.map Function.signature =
            transformed'.program.undecorated.functions.map Function.signature ∧
          transformed.program.undecorated.dump none = transformed'.program.undecorated.dump none ∧
          WrapsAsAsked table forms program transformed ∧
          WrapsAsAsked table forms' program' transformed') := by
  have parse_eq {source : String} {path : Option String} {forms : List Form}
      (reads : Form.ofSource source path = .ok forms) :
      Program.parse source path = Program.ofForms (LineTable.ofSource source path) forms := by
    unfold Form.ofSource at reads
    simp only [Program.parse, reads, bind, Except.bind]
  have parsed := parse_eq reads
  have parsed' := parse_eq reads'
  rcases Program.ofForms_alike alike (LineTable.ofSource source path)
      (LineTable.ofSource source' path') with
    ⟨error, error', fails, fails'⟩ | ⟨program, program', builds, builds', same⟩
  · exact .inl ⟨error, error', parsed.trans fails, parsed'.trans fails'⟩
  · refine .inr ⟨program, program', parsed.trans builds, parsed'.trans builds', ?_⟩
    refine (Program.transform_alike distinct same).imp_right ?_
    rintro ⟨transformed, transformed', accepts, accepts', same⟩
    obtain ⟨signatures, text⟩ := Program.undecorated_of_standard same
    exact ⟨transformed, transformed', accepts, accepts', signatures, text,
      Program.wrapsAsAsked distinct reads (parsed.trans builds) accepts,
      Program.wrapsAsAsked distinct reads' (parsed'.trans builds') accepts'⟩

end Alike

/-- A function with two decorators inside two blocks. -/
def decoratedOnce : String :=
  "(tco (lazify (defn f () :decorators (looped memoize) 1)))"

/-- The same function with a decorator repeated and a block repeated, both in another order. -/
def decoratedTwice : String :=
  "(lazify (tco (tco (defn f () :decorators (memoize looped memoize) 1))))"

/-- What the first source holds inside its blocks. -/
def decoratedOnceForm : Form :=
  .list ⟨13, 55⟩ [.sym ⟨14, 18⟩ "defn", .sym ⟨19, 20⟩ "f", .list ⟨21, 23⟩ [],
    .keyword ⟨24, 35⟩ "decorators",
    .list ⟨36, 52⟩ [.sym ⟨37, 43⟩ "looped", .sym ⟨44, 51⟩ "memoize"], .int ⟨53, 54⟩ 1]

/-- What the second source holds inside its blocks. -/
def decoratedTwiceForm : Form :=
  .list ⟨18, 68⟩ [.sym ⟨19, 23⟩ "defn", .sym ⟨24, 25⟩ "f", .list ⟨26, 28⟩ [],
    .keyword ⟨29, 40⟩ "decorators",
    .list ⟨41, 65⟩ [.sym ⟨42, 49⟩ "memoize", .sym ⟨50, 56⟩ "looped", .sym ⟨57, 64⟩ "memoize"],
    .int ⟨66, 67⟩ 1]

/-- The first program is read as these forms. -/
theorem decoratedOnce_reads : Form.ofSource decoratedOnce none = .ok
    [.list ⟨0, 57⟩ [.sym ⟨1, 4⟩ "tco",
      .list ⟨5, 56⟩ [.sym ⟨6, 12⟩ "lazify", decoratedOnceForm]]] := by
  rw [decoratedOnce, Form.ofSource, tokenize, LineTable.ofSource, String.toList_ofList]
  cbv

/-- The second program is read as these forms. -/
theorem decoratedTwice_reads : Form.ofSource decoratedTwice none = .ok
    [.list ⟨0, 71⟩ [.sym ⟨1, 7⟩ "lazify",
      .list ⟨8, 70⟩ [.sym ⟨9, 12⟩ "tco",
        .list ⟨13, 69⟩ [.sym ⟨14, 17⟩ "tco", decoratedTwiceForm]]]] := by
  rw [decoratedTwice, Form.ofSource, tokenize, LineTable.ofSource, String.toList_ofList]
  cbv

theorem decoratedForms_alike : FormAlike decoratedOnceForm decoratedTwiceForm := by
  refine .defn .sym (.list .nil) (.listed (fun name => ?_) (.cons .int .nil))
  simp only [List.map_cons, List.map_nil, Form.symbol?, List.mem_cons, List.not_mem_nil, or_false]
  tauto

/-- The two programs are an instance: they are transformed to the same code. -/
theorem decoratedTwice_transforms : ∃ transformed transformed',
    (Program.ofText decoratedOnce).transform .default [] = .ok transformed ∧
    (Program.ofText decoratedTwice).transform .default [] = .ok transformed' ∧
    transformed.program.undecorated.functions.map Function.signature =
      transformed'.program.undecorated.functions.map Function.signature ∧
    transformed.program.undecorated.dump none = transformed'.program.undecorated.dump none ∧
    transformed.program.functions.map (·.signature.wrappers) =
      [[.memoize, .trampolined, .looped, .lazy]] := by
  have ⟨parses, parses', wrappers⟩ : (Program.parse decoratedOnce none).toOption.isSome = true ∧
      (Program.parse decoratedTwice none).toOption.isSome = true ∧
      ((Program.ofText decoratedOnce).transform .default []).toOption.map (fun transformed =>
        transformed.program.functions.map (·.signature.wrappers)) =
          some [[.memoize, .trampolined, .looped, .lazy]] := by
    rw [Program.ofText, decoratedOnce, decoratedTwice, Program.parse_ofList, Program.parse_ofList]
    decide +kernel
  have alike : TopAlike
      (.list ⟨0, 57⟩ [.sym ⟨1, 4⟩ "tco",
        .list ⟨5, 56⟩ [.sym ⟨6, 12⟩ "lazify", decoratedOnceForm]])
      (.list ⟨0, 71⟩ [.sym ⟨1, 7⟩ "lazify",
        .list ⟨8, 70⟩ [.sym ⟨9, 12⟩ "tco",
          .list ⟨13, 69⟩ [.sym ⟨14, 17⟩ "tco", decoratedTwiceForm]]]) :=
    .trans (.exchange rfl rfl) <| .block rfl <| .cons
      (.trans (@TopAlike.again _ .dummy _ .dummy _ _ rfl) <| .block rfl <| .cons
        (.block rfl <| .cons (.same decoratedForms_alike) .nil) .nil) .nil
  have parsed := Program.parse_ofText parses
  have parsed' := Program.parse_ofText parses'
  have distinct : DecoratorTable.default.Distinct := by decide
  rcases Program.decorators_commute distinct [] decoratedOnce_reads decoratedTwice_reads
      (.cons alike .nil) with
    ⟨_, _, fails, -⟩ | ⟨_, _, reads, reads', outcome⟩
  · cases parsed.symm.trans fails
  cases parsed.symm.trans reads
  cases parsed'.symm.trans reads'
  rcases outcome with
    ⟨_, _, rejects, -⟩ | ⟨transformed, transformed', accepts, accepts', same, text, -⟩
  · simp [rejects, Except.toOption] at wrappers
  · simp only [accepts, Except.toOption, Option.map_some, Option.some.injEq] at wrappers
    exact ⟨transformed, transformed', accepts, accepts', same, text, wrappers⟩

end Trampoline
