import Trampoline.Proofs.Meaning.Rewriting
import Trampoline.Proofs.Need.Toplevels
import Trampoline.Proofs.Rewriting.Inner

/-!
# Laziness keeps the values of pure programs

A program whose only blocks are `lazify` blocks and that has no effects comes to a value after the
transformation if it comes to one without. Both values are the one that the program has by name.
-/

namespace Trampoline

open Exec Transform

/-! ## Pure programs -/

/-- Whether an expression on its own has an effect, or names a native that has one. -/
def Expr.hasEffect : Expr -> Bool
  | .assign .. | .jump .. | .capture .. => true
  | .var _ name => Native.all.any fun op => !op.isPure && op.name == name
  | _ => false

/-- Whether an expression is a block. -/
def Expr.isBlock : Expr -> Bool
  | .seq .. => true
  | _ => false

/-- The globals that toplevel forms define, in order. -/
def Program.definedNames (program : Program) : List String := ByName.definedNames program.top

/-- A program without effects, whose only blocks are `lazify` blocks. Names are bound by the items
of blocks, and every global is defined once. -/
structure Program.IsPure (program : Program) : Prop where
  direct : ∀ function ∈ program.functions,
    function.signature.regions.tco = false ∧ function.signature.regions.cont = false
  undecorated : ∀ function ∈ program.functions, function.signature.decorators = []
  effectless : ∀ node ∈ program.nodes, node.hasEffect = false
  inBlocks : ∀ node ∈ program.nodes, node.isBlock = false ->
    ∀ child ∈ node.children, child.isBind = false
  once : program.definedNames.Nodup
  unbuilt : ∀ name ∈ program.definedNames, name ∉ Machine.builtins.map Prod.fst

instance (program : Program) : Decidable program.IsPure :=
  decidable_of_iff ((∀ function ∈ program.functions,
      function.signature.regions.tco = false ∧ function.signature.regions.cont = false) ∧
    (∀ function ∈ program.functions, function.signature.decorators = []) ∧
    (∀ node ∈ program.nodes, node.hasEffect = false) ∧
    (∀ node ∈ program.nodes, node.isBlock = false ->
      ∀ child ∈ node.children, child.isBind = false) ∧
    program.definedNames.Nodup ∧
    ∀ name ∈ program.definedNames, name ∉ Machine.builtins.map Prod.fst)
    ⟨fun ⟨direct, undecorated, effectless, inBlocks, once, unbuilt⟩ =>
        ⟨direct, undecorated, effectless, inBlocks, once, unbuilt⟩,
      fun ⟨direct, undecorated, effectless, inBlocks, once, unbuilt⟩ =>
        ⟨direct, undecorated, effectless, inBlocks, once, unbuilt⟩⟩

theorem Native.mem_all (op : Native) : op ∈ Native.all := by cases op <;> decide

/-- A variable without effect does not name an impure native. -/
theorem Expr.ne_name_of_pure {mark : Mark} {name : String}
    (effectless : (Expr.var mark name).hasEffect = false) (op : Native)
    (impure : op.isPure = false) :
    name ≠ op.name := by
  rintro rfl
  have listed := List.any_eq_false.mp effectless op op.mem_all
  simp [impure] at listed

variable {program : Program} {e : Expr}

/-- What evaluation by name asks of the forms of a program. -/
theorem Program.IsPure.suits (isPure : program.IsPure) (source : Build.TopIsSource program.top) :
    ∀ form ∈ program.top, form.expr.All (ByName.Suits false) := by
  intro form inTop node member
  have listed : node ∈ program.nodes := List.mem_flatMap.mpr ⟨form, inTop, member⟩
  obtain ⟨regions, -, isRead⟩ := source form inTop
  have effectless := isPure.effectless node listed
  have direct := isPure.inBlocks node listed
  refine ⟨?_, nofun⟩
  cases node with
  | var mark name => exact fun op impure => Expr.ne_name_of_pure effectless op impure
  | fn mark signature body =>
    obtain ⟨kind, -, same, blockMark, items, rfl⟩ := isRead _ member
    refine ⟨kind, rfl, fun inLazy => ?_⟩
    have inside := (Expr.all_fn.mp (isRead.nested _ member)).2
    intro inner innerMember mark' signature' body' equal
    subst equal
    obtain ⟨-, -, same', -⟩ := inside _ innerMember
    rw [same', ← same, inLazy]
  | seq => trivial
  | assign | jump | capture => cases effectless
  | _ => exact direct rfl

/-! ## What the transformation makes of them -/

/-- A function that is transformed by getting the wrapper of its block, if it has one. -/
def Expr.IsUndressed : Expr -> Prop
  | .fn _ signature body => signature.kind = .plain ∧ signature.wrappers = [] ∧
    signature.regions.tco = false ∧ signature.regions.cont = false ∧ signature.decorators = [] ∧
    body.hasCapture = false
  | _ => True

/-- An expression without captures has none to be refused. -/
theorem Expr.hasCapture_eq_false (free : e.All fun node => node.isCapture = false) :
    e.hasCapture = false := by
  refine Bool.eq_false_iff.mpr fun captures => ?_
  obtain ⟨node, member, isCapture⟩ := e.exists_capture captures
  exact absurd isCapture (ne_true_of_eq_false (free node member))

theorem Expr.isCapture_eq_false (effectless : e.hasEffect = false) : e.isCapture = false := by
  cases e <;> first | rfl | cases effectless

/-- No form of a pure program captures anything. -/
theorem Program.IsPure.free (isPure : program.IsPure) {form : Toplevel}
    (inTop : form ∈ program.top) : form.expr.All fun node => node.isCapture = false :=
  fun node member => Expr.isCapture_eq_false
    (isPure.effectless node (List.mem_flatMap.mpr ⟨form, inTop, member⟩))

/-- A pure program that was parsed has no wrappers yet. -/
theorem Program.IsPure.undressed (isPure : program.IsPure)
    (source : program.IsSource) : ∀ form ∈ program.top, form.expr.All Expr.IsUndressed := by
  intro form inTop node member
  have listed : node ∈ program.nodes := List.mem_flatMap.mpr ⟨form, inTop, member⟩
  cases node with
  | fn mark signature body =>
    obtain ⟨kind, bare, -, -⟩ := source _ listed
    have inFunctions := Program.mem_functions_of_mem listed
    obtain ⟨tco, cont⟩ := isPure.direct _ inFunctions
    have inside := (Expr.all_fn.mp ((isPure.free inTop).nested _ member)).2
    exact ⟨kind, bare, tco, cont, isPure.undecorated _ inFunctions, Expr.hasCapture_eq_false inside⟩
  | _ => trivial

section Steps

variable {escapes : List String}

/-- Without tail calls and continuations bodies stay as they are. -/
theorem functionBody_stepsOn :
    StepsOn False Expr.IsUndressed (fun function other => other = function)
      (functionBody escapes) := by
  rintro mark signature body body' ⟨-, -, tco, cont, -, free⟩ mapping
  rw [mapping.eq]
  unfold functionBody
  simp only [tco, cont, Bool.false_eq_true, if_false]
  exact .bind (forbidCapture_produces _ _ fun captures => absurd captures (by simp [free]))
    fun _ _ => .pure rfl

/-- A program that is not transformed is one without wrappers. -/
theorem mapping_undressed {top : List Toplevel}
    (undressed : ∀ form ∈ top, form.expr.All Expr.IsUndressed) :
    MappingTop (ByName.Wears false) top top := by
  have bare : StepsOn False Expr.IsUndressed (ByName.Wears false) pure := by
    rintro mark signature body body' ⟨-, none, -⟩ -
    exact .pure (by simp [ByName.Wears, ByName.wrappersOf, ← none])
  have same : StepsOn False Expr.IsUndressed (fun function other => other = function) pure :=
    fun _ _ _ _ _ _ => .pure rfl
  have produces := (mapFunctionsOfTop_mapping bare top undressed).and
    (mapFunctionsOfTop_mapping same top undressed)
  rcases produces.ends ⟨⟨0, 0⟩, []⟩ with ⟨top', _, _, mapping, kept⟩ | ⟨never, _⟩
  · exact kept.eq ▸ mapping
  · exact never.elim

/-- Functions get the wrapper of their block. -/
theorem functionWrappers_stepsOn :
    StepsOn False Expr.IsUndressed (ByName.Wears true) (functionWrappers .default) := by
  rintro mark signature body body' ⟨plain, -, tco, cont, undecorated, -⟩ -
  refine (functionWrappers_produces undecorated body').imp ?_
  rintro _ rfl
  simp [ByName.Wears, ByName.wrappersOf, impliedWrappers, plain, tco, cont]

/-- Forms without captures pass the check. -/
theorem checkTop_succeeds : ∀ top : List Toplevel, (∀ form ∈ top, form.expr.hasCapture = false) ->
    Produces False (checkTop top) fun _ => True
  | [], _ => .pure trivial
  | form :: rest, free => by
    obtain ⟨first, others⟩ := List.forall_mem_cons.mp free
    exact .bind (forbidCapture_produces _ _ fun captures => absurd captures (by simp [first]))
      fun _ _ => checkTop_succeeds rest others

end Steps

/-- A pure program is transformed by giving its functions the wrappers of their blocks. -/
theorem Program.IsPure.transform (isPure : program.IsPure)
    (source : program.IsSource) (escapes : List String) :
    ∃ transformed, program.transform .default escapes = .ok transformed ∧
      MappingTop (ByName.Wears true) program.top transformed.program.top := by
  have undressed := isPure.undressed source
  have produces : Produces False (toplevels .default escapes program.top)
      (MappingTop (ByName.Wears true) program.top) := by
    refine .bind (checkTop_succeeds _ fun form inTop =>
      Expr.hasCapture_eq_false (isPure.free inTop)) fun _ _ => ?_
    refine .bind (mapFunctionsOfTop_mapping functionBody_stepsOn _ undressed) fun top kept => ?_
    rw [kept.eq]
    exact mapFunctionsOfTop_mapping functionWrappers_stepsOn _ undressed
  rcases produces.ends ⟨program.counters, []⟩ with ⟨top, progress, ends, mapping⟩ | ⟨never, _⟩
  · refine ⟨⟨⟨top, progress.counters⟩, progress.log.reverse⟩, ?_, mapping⟩
    simp only [Program.transform, ends, Except.map]
  · exact never.elim

/-! ## Values by name -/

theorem ByName.builtins_names : ByName.builtins.map Prod.fst ⊆ Machine.builtins.map Prod.fst := by
  decide

/-- With or without wrappers, a pure program comes to the value that it has by name. -/
theorem Program.IsPure.follows (isPure : program.IsPure)
    (source : Build.TopIsSource program.top) {dressed : Bool} {top : List Toplevel}
    (mapping : MappingTop (ByName.Wears dressed) program.top top) (closedOutput : Bool) :
    ByName.Follows dressed (Machine.start closedOutput) ((Plan.toplevels top .nil).run Task.full)
      (ByName.runForms ByName.builtins 0 program.top .nil)
      fun value val m => m.repr value = val.repr := by
  have fresh : ∀ name ∈ ByName.definedNames program.top, ByName.builtins.lookup name = none :=
    fun name member => List.lookup_eq_none_iff.mpr fun bound listed =>
      bne_iff_ne.mpr fun same => isPure.unbuilt name member
        (ByName.builtins_names (same ▸ List.mem_map_of_mem listed))
  refine (ByName.runForms_follows mapping (isPure.suits source) fresh isPure.once
    (ByName.stage_start dressed closedOutput) .nil).imp ?_
  rintro value val m ⟨globals, index, reading, -, stage, means⟩
  exact stage.agrees.repr means

/-- Call by need agrees with call by value: if a pure program ends with a value, then so does the
transformed program, and both values are shown alike. -/
theorem Program.lazify_preserves {source : String} {path : Option String} {program : Program}
    (parsed : Program.parse source path = .ok program) (isPure : program.IsPure)
    (escapes : List String) (closedOutput : Bool) {value : Value} {m : Machine}
    (ends : program.EndsOn (Machine.start closedOutput) (.ok value, m)) :
    ∃ transformed, program.transform .default escapes = .ok transformed ∧ ∃ value' m',
      transformed.program.EndsOn (Machine.start closedOutput) (.ok value', m') ∧
        m'.repr value' = m.repr value := by
  have source := Program.parse_topIsSource parsed
  obtain ⟨transformed, succeeds, dressed⟩ :=
    isPure.transform (Program.parse_isSource parsed) escapes
  have undressed := mapping_undressed (isPure.undressed (Program.parse_isSource parsed))
  obtain ⟨val, answered, shown⟩ := isPure.follows source undressed closedOutput value m
    (Program.endsOn_iff_full.mp ends)
  obtain ⟨value', m', ends', shown'⟩ := isPure.follows source dressed closedOutput val answered
  exact ⟨transformed, succeeds, value', m', Program.endsOn_iff_full.mpr ends',
    shown'.trans shown.symm⟩

/-- Lazy functions, one of which needs its first argument only. -/
def unneededArgument : String :=
  "(lazify
    (defn first (a b) a)
    (defn pairs (n) (let both (list n (first n (+ n 1)))) (first both (- n 1))))
  (pairs 20)"

/-- An argument that is never needed is an instance, with the same value as by name. -/
theorem unneededArgument_preserved : ∃ transformed,
    (Program.ofText unneededArgument).transform .default [] = .ok transformed ∧ ∃ value m,
      transformed.program.EndsOn (Machine.start false) (.ok value, m) ∧
        m.repr value = "(list 20 20)" := by
  have ⟨reads, isPure, ends⟩ : (Program.parse unneededArgument none).toOption.isSome = true ∧
      (Program.ofText unneededArgument).IsPure ∧
      ((Program.ofText unneededArgument).run 100 (Machine.start false)).any (fun outcome =>
        outcome.1.toOption.any fun value => outcome.2.repr value == "(list 20 20)") = true := by
    rw [Program.ofText, unneededArgument, Program.parse_ofList]
    decide +kernel
  obtain ⟨⟨result, m⟩, ran, shown⟩ := (Option.any_eq_true _ _).mp ends
  cases result with
  | error error => simp [Except.toOption] at shown
  | ok value =>
    obtain ⟨transformed, succeeds, value', m', ends', same⟩ := Program.lazify_preserves
      (Program.parse_ofText reads) isPure [] false ⟨100, ran⟩
    refine ⟨transformed, succeeds, value', m', ends', same.trans ?_⟩
    simpa [Except.toOption] using shown

end Trampoline
