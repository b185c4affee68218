import Trampoline.Proofs.Rewriting.Direct
import Trampoline.Proofs.Syntax.Source

/-!
# Rewriting keeps the meaning of programs

What makes a program fit for a comparison with its transformed form, and how a comparison of runs
that let some errors pass becomes one of all runs of programs that never raise them.

A program whose only blocks are `tco` blocks ends as its transformed form does, and what it leaves
behind differs in nothing but the trampolines around functions. A function that takes a continuation
gives its results to it. Where nothing captures, that is the identity in the end, and the program
means what it meant before. Where captures cut bodies, the program means what it does in direct
style.
-/

namespace Trampoline

/-! ## Programs compared with their transformed forms -/

section Comparison

variable {mode : Rewriting} {escapes : List String}

/-- A program without `lazify` blocks, without decorators and without jumps of its own. -/
structure Program.IsStrict (program : Program) : Prop where
  strict : ∀ function ∈ program.functions, function.signature.regions.lazy = false
  undecorated : ∀ function ∈ program.functions, function.signature.decorators = []
  noJumps : ∀ node ∈ program.nodes, node.isJump = false

/-- No expression of the program reads, binds or assigns the name. -/
def Program.Avoids (program : Program) (name : String) : Prop :=
  ∀ node ∈ program.nodes, name ∉ node.names

/-- No call of the program passes the keyword. -/
def Program.AvoidsKeyword (program : Program) (keyword : String) : Prop :=
  ∀ node ∈ program.nodes, keyword ∉ node.keywords

instance (program : Program) (name : String) : Decidable (program.Avoids name) :=
  inferInstanceAs (Decidable (∀ node ∈ program.nodes, name ∉ node.names))

instance (program : Program) (keyword : String) : Decidable (program.AvoidsKeyword keyword) :=
  inferInstanceAs (Decidable (∀ node ∈ program.nodes, keyword ∉ node.keywords))

instance (program : Program) : Decidable program.IsStrict :=
  decidable_of_iff ((∀ function ∈ program.functions, function.signature.regions.lazy = false) ∧
    (∀ function ∈ program.functions, function.signature.decorators = []) ∧
    ∀ node ∈ program.nodes, node.isJump = false)
    ⟨fun ⟨strict, undecorated, noJumps⟩ => ⟨strict, undecorated, noJumps⟩,
      fun ⟨strict, undecorated, noJumps⟩ => ⟨strict, undecorated, noJumps⟩⟩

variable {program : Program} {closedOutput : Bool}

/-- A strict program fits if its names do, and its functions with continuations and captures. -/
theorem Rewriting.fits_of (source : program.IsSource) (strict : program.IsStrict)
    (seen : ∀ node ∈ program.nodes, ∀ name ∈ node.names, mode.Sees name)
    (named : ∀ node ∈ program.nodes, ∀ keyword ∈ node.keywords, mode.Names keyword)
    (passing : ∀ mark signature body, .fn mark signature body ∈ program.nodes ->
      signature.regions.cont = true ->
      mode.passing = true ∧ ∀ node ∈ body.tailPath, mode.HandsOver escapes node)
    (captures : ∀ node ∈ program.nodes, node.isCapture = true ->
      mode.total = true ∧ ∃ name, node.names = [name]) : mode.FitsProgram escapes program := by
  intro node member
  have names := seen node member
  cases node with
  | var mark name => exact names name List.mem_cons_self
  | bind mark name e => exact names name List.mem_cons_self
  | assign mark name e => exact names name List.mem_cons_self
  | fn mark signature body =>
    obtain ⟨kind, bare, nested, block⟩ := source _ member
    have inFunctions := Program.mem_functions_of_mem member
    exact ⟨kind, bare, strict.undecorated _ inFunctions, strict.strict _ inFunctions, names, block,
      fun continuations => ⟨nested continuations, passing _ _ _ member continuations⟩⟩
  | call mark func args kwargs =>
    exact fun kwarg inside => named _ member kwarg.1 (List.mem_map_of_mem inside)
  | jump mark func args kwargs cc => exact absurd (strict.noJumps _ member) Bool.noConfusion
  | capture mark binders call =>
    obtain ⟨total, name, single⟩ := captures _ member rfl
    exact ⟨total, name, single, names name (single ▸ List.mem_cons_self)⟩
  | _ => trivial

/-- A program that never raises the lost errors ends as its rewritten form does. -/
theorem Simulates.matches {program' : Program}
    (simulates : Simulates mode program program' closedOutput)
    (itself : Simulates (.same mode.lost) program program closedOutput)
    (never : ¬ program.Raises mode.lost closedOutput) :
    program.Matches program' SameEnd closedOutput where
  forth := by
    intro outcome ends
    obtain ⟨letting, ends', lost | same⟩ := itself.back outcome ends
    · exact absurd (.of_lost ends' lost) never
    · rcases simulates.forth letting ends' with lost | ⟨other, ends'', same'⟩
      · exact absurd (.of_lost ends' lost) never
      · exact ⟨other, ends'', same.sameEnd.compare same'.sameEnd⟩
  back := by
    intro other ends
    obtain ⟨letting, ends', lost | same⟩ := simulates.back other ends
    · exact absurd (.of_lost ends' lost) never
    · rcases itself.forth letting ends' with lost | ⟨outcome, ends'', same'⟩
      · exact absurd (.of_lost ends' lost) never
      · exact ⟨outcome, ends'', same'.sameEnd.compare same.sameEnd⟩

/-- A program in direct style that never raises the lost errors ends as the transformed program. -/
theorem Program.transform_matches (undressed : mode.dressed = false)
    (fits : mode.FitsProgram escapes program) {transformed : Transformed}
    (succeeds : program.transform .default escapes = .ok transformed)
    (never : ¬ program.direct.Raises mode.lost closedOutput) :
    program.direct.Matches transformed.program SameEnd closedOutput :=
  Simulates.matches ((Program.transform_related undressed fits succeeds).simulates rfl closedOutput)
    ((Program.direct_same fits mode.lost).simulates rfl closedOutput) never

end Comparison

/-! ## Tail calls -/

section TailCalls

/-! ## Values up to trampolines -/

/-- The same callable, but for trampolines around the second. Closures are told by the function
that they were made of, by their number and by their scope. -/
inductive Callable.Alike : Callable -> Callable -> Prop where
  | native {op} : Alike (.native op) (.native op)
  | identity {ref} : Alike (.identity ref) (.identity ref)
  | closure {ref function function' env} : function'.signature.id = function.signature.id ->
      function'.signature.name = function.signature.name ->
      function'.signature.params = function.signature.params ->
      Alike (.closure ref function env) (.closure ref function' env)
  | trampolined {callable inner variant} : Alike callable inner ->
      Alike callable (.trampolined inner variant)

mutual

/-- The same value, but for trampolines around the functions in the second. -/
inductive Value.Alike : Value -> Value -> Prop where
  | nil : Value.Alike .nil .nil
  | bool {value} : Value.Alike (.bool value) (.bool value)
  | int {value} : Value.Alike (.int value) (.int value)
  | str {value} : Value.Alike (.str value) (.str value)
  | tuple {items items'} : ValuesAlike items items' -> Value.Alike (.tuple items) (.tuple items')
  | list {ref} : Value.Alike (.list ref) (.list ref)
  | func {callable callable'} : Callable.Alike callable callable' ->
      Value.Alike (.func callable) (.func callable')

/-- The same values, one by one. -/
inductive ValuesAlike : List Value -> List Value -> Prop where
  | nil : ValuesAlike [] []
  | cons {value value' rest rest'} : Value.Alike value value' -> ValuesAlike rest rest' ->
      ValuesAlike (value :: rest) (value' :: rest')

end

/-- The same globals, one by one. -/
inductive GlobalsAlike : List (String × Value) -> List (String × Value) -> Prop where
  | nil : GlobalsAlike [] []
  | cons {name value value' rest rest'} : value.Alike value' -> GlobalsAlike rest rest' ->
      GlobalsAlike ((name, value) :: rest) ((name, value') :: rest')

/-- Machines with the same globals, cells and lists, but for trampolines around the functions in
the second. -/
structure Machine.Alike (machine machine' : Machine) : Prop where
  globals : GlobalsAlike machine.globals machine'.globals
  size : machine'.cells.size = machine.cells.size
  cells : ∀ ref, (machine.cell ref).Alike (machine'.cell ref)
  lists : machine'.lists.size = machine.lists.size
  items : ∀ ref, ValuesAlike (machine.items ref).toList (machine'.items ref).toList

/-- The same end on machines that are alike. -/
def AlikeEnd (outcome other : Outcome Machine Value) : Prop :=
  SameEnd outcome other ∧ outcome.2.Alike other.2

section Alike

variable {mode : Rewriting} {cells : Pairing} {world : World} {source target : Machine}

theorem CallableRel.alike (kept : mode.passing = false)
    (exact : ∀ left right, cells left right -> left = right) {callable callable' : Callable}
    (related : CallableRel mode cells callable callable') : callable.Alike callable' := by
  cases related with
  | native => exact .native
  | identity => exact .identity
  | @closure how ref function function' env env' same closed =>
    have signature := same.signature
    have scope := closed.eq kept exact
    subst scope
    cases how with
    | kept => exact .closure signature.id signature.name signature.params
    | deferring => exact .trampolined (.closure signature.id signature.name signature.params)
    | passing => simp [signature.passing rfl] at kept

mutual

theorem ValueRel.alike (kept : mode.passing = false)
    (exact : ∀ left right, cells left right -> left = right) :
    ∀ {value value' : Value}, ValueRel mode cells value value' -> value.Alike value'
  | _, _, .nil => .nil
  | _, _, .bool => .bool
  | _, _, .int => .int
  | _, _, .str => .str
  | _, _, .tuple items => .tuple (ValuesRel.alike kept exact items)
  | _, _, .list => .list
  | _, _, .func same => .func (same.alike kept exact)

theorem ValuesRel.alike (kept : mode.passing = false)
    (exact : ∀ left right, cells left right -> left = right) :
    ∀ {values values' : List Value}, ValuesRel mode cells values values' ->
      ValuesAlike values values'
  | _, _, .nil => .nil
  | _, _, .cons first rest =>
    .cons (ValueRel.alike kept exact first) (ValuesRel.alike kept exact rest)

end

/-- Where nothing takes a continuation and every name is seen, globals are alike. -/
theorem GlobalsRel.alike (kept : mode.passing = false) (partly : mode.total = false)
    (exact : ∀ left right, cells left right -> left = right)
    {globals globals' : List (String × Value)} (related : GlobalsRel mode cells globals globals') :
    GlobalsAlike globals globals' := by
  have seen (name : String) : mode.Sees name :=
    ⟨fun passing => by simp [kept] at passing, fun total => by simp [partly] at total⟩
  induction related with
  | nil => exact .nil
  | cons same _ ih => exact .cons ((same (seen _)).alike kept exact) ih

theorem MachineRel.alike (kept : mode.passing = false) (partly : mode.total = false)
    (machines : MachineRel mode world source target) : source.Alike target := by
  obtain ⟨size, paired⟩ := machines.exact kept
  have exact (left right : Nat) (holds : world.cells left right) : left = right :=
    ((paired left right).mp holds).1
  refine ⟨machines.globals.alike kept partly exact, size.symm, fun ref => ?_, machines.lists.symm,
    fun ref => (machines.items ref).alike kept exact⟩
  by_cases less : ref < source.cells.size
  · exact (machines.cells ref ref ((paired ref ref).mpr ⟨rfl, less⟩)).2.2.alike kept exact
  · have beyond : source.cell ref = .nil := by
      simp [Machine.cell, Array.getD, less]
    have beyond' : target.cell ref = .nil := by
      simp [Machine.cell, Array.getD, ← size, less]
    rw [beyond, beyond']
    exact .nil

theorem EndRel.alike (kept : mode.passing = false) (partly : mode.total = false)
    {outcome other : Outcome Machine Value} (related : EndRel mode outcome other) :
    AlikeEnd outcome other := by
  refine ⟨related.sameEnd, ?_⟩
  obtain ⟨result, machine⟩ := outcome
  obtain ⟨result', machine'⟩ := other
  cases result with
  | ok value =>
    cases result' with
    | ok value' =>
      obtain ⟨later, _, _, machines⟩ := related
      exact machines.alike kept partly
    | error _ => exact related.elim
  | error error =>
    cases result' with
    | ok _ => exact related.elim
    | error error' =>
      obtain ⟨_, later, _, machines⟩ := related
      exact machines.alike kept partly

end Alike

/-! ## Programs with tail calls -/

/-- The comparison of a program whose only blocks are `tco` blocks with its transformed form,
before functions get their wrappers. -/
def Rewriting.deferred : Rewriting :=
  ⟨false, false, false, fun _ => false, fun passing => absurd passing Bool.noConfusion⟩

/-- Deferring tail calls keeps what a program does: the transformed program ends when it does, with
the same output and in the same way, on a machine that is alike. -/
theorem Program.tailCalls_preserve {source : String} {path : Option String}
    {program : Program} (parsed : Program.parse source path = .ok program)
    (strict : program.IsStrict)
    (noContinuations : ∀ function ∈ program.functions, function.signature.regions.cont = false)
    (noCaptures : ∀ node ∈ program.nodes, node.isCapture = false) (escapes : List String)
    (closedOutput : Bool) :
    ∃ transformed, program.transform .default escapes = .ok transformed ∧
      program.Matches transformed.program AlikeEnd closedOutput := by
  have fits : Rewriting.deferred.FitsProgram escapes program := by
    refine Rewriting.fits_of (Program.parse_isSource parsed) strict ?_ ?_ ?_ ?_
    · exact fun _ _ _ _ => ⟨fun passing => absurd passing Bool.noConfusion,
        fun total => absurd total Bool.noConfusion⟩
    · exact fun _ _ _ _ passing => absurd passing Bool.noConfusion
    · intro mark signature body member continuations
      have outside : signature.regions.cont = false :=
        noContinuations _ (Program.mem_functions_of_mem member)
      exact absurd (outside.symm.trans continuations) Bool.noConfusion
    · exact fun node member captures => absurd captures (by simp [noCaptures node member])
  obtain ⟨transformed, succeeds⟩ := Program.transform_succeeds rfl rfl fits
  have related := Program.transform_related rfl fits succeeds
  rw [Program.direct_eq noCaptures] at related
  have simulates := related.simulates rfl closedOutput
  refine ⟨transformed, succeeds, fun outcome ends => ?_, fun other ends => ?_⟩
  · rcases simulates.forth outcome ends with lost | ⟨other, ends', same⟩
    · obtain ⟨_ | error, machine⟩ := outcome
      · exact absurd lost.1 Bool.noConfusion
      · exact lost.elim
    · exact ⟨other, ends', same.alike rfl rfl⟩
  · obtain ⟨outcome, ends', lost | same⟩ := simulates.back other ends
    · obtain ⟨_ | error, machine⟩ := outcome
      · exact absurd lost.1 Bool.noConfusion
      · exact lost.elim
    · exact ⟨outcome, ends', same.alike rfl rfl⟩

/-- A loop by tail calls. -/
def countdown : String :=
  "(tco (defn count (n) (if (= n 0) \"done\" (count (- n 1)))))\n(count 3)"

/-- A countdown is an instance: its tail calls become jumps and it prints the same. -/
theorem countdown_preserved :
    ∃ transformed, (Program.ofText countdown).transform .default [] = .ok transformed ∧
      (Program.ofText countdown).Matches transformed.program AlikeEnd false := by
  have ⟨reads, strict, noContinuations, noCaptures⟩ :
      (Program.parse countdown none).toOption.isSome = true ∧
      (Program.ofText countdown).IsStrict ∧
      (∀ function ∈ (Program.ofText countdown).functions,
        function.signature.regions.cont = false) ∧
      ∀ node ∈ (Program.ofText countdown).nodes, node.isCapture = false := by
    rw [Program.ofText, countdown, Program.parse_ofList]
    decide +kernel
  exact Program.tailCalls_preserve (Program.parse_ofText reads) strict noContinuations noCaptures
    [] false

end TailCalls

/-! ## Continuations -/

section Continuations

/-- Whether an error is that a call had too many or too few arguments. -/
def EvalError.isArity : EvalError -> Bool
  | .arity .. => true
  | _ => false

/-- No name of the program or keyword of a call is that of the continuation parameter. -/
structure Program.AvoidsCc (program : Program) : Prop where
  names : program.Avoids continuationParam
  keywords : program.AvoidsKeyword continuationParam

instance (program : Program) : Decidable program.AvoidsCc :=
  decidable_of_iff
    (program.Avoids continuationParam ∧ program.AvoidsKeyword continuationParam)
    ⟨fun ⟨names, keywords⟩ => ⟨names, keywords⟩, fun ⟨names, keywords⟩ => ⟨names, keywords⟩⟩

/-- The comparison of a program without captures with its transformed form, before functions get
their wrappers. -/
def Rewriting.partly : Rewriting :=
  ⟨true, false, false, EvalError.isArity, fun _ _ _ _ => rfl⟩

/-- The comparison of a program with captures, in which every return is handed over. -/
def Rewriting.totally : Rewriting :=
  ⟨true, true, false, EvalError.isArity, fun _ _ _ _ => rfl⟩

/-- Continuations change nothing where nothing captures. If no call of the program as it is has
too many or too few arguments, the transformed program ends when it does and in the same way. -/
theorem Program.continuations_preserve {source : String} {path : Option String}
    {program : Program} (parsed : Program.parse source path = .ok program)
    (strict : program.IsStrict) (noCaptures : ∀ node ∈ program.nodes, node.isCapture = false)
    (avoids : program.AvoidsCc) (escapes : List String) (closedOutput : Bool)
    (fits : ¬ program.Raises EvalError.isArity closedOutput) :
    ∃ transformed, program.transform .default escapes = .ok transformed ∧
      program.Matches transformed.program SameEnd closedOutput := by
  have fitsProgram : Rewriting.partly.FitsProgram escapes program := by
    refine Rewriting.fits_of (Program.parse_isSource parsed) strict ?_ ?_ ?_ ?_
    · rintro node member name inside
      refine ⟨?_, fun total => absurd total Bool.noConfusion⟩
      rintro _ rfl
      exact avoids.names node member inside
    · rintro node member keyword inside _ rfl
      exact avoids.keywords node member inside
    · exact fun _ _ _ _ _ => ⟨rfl, fun _ _ total => absurd total Bool.noConfusion⟩
    · exact fun node member captures => absurd captures (by simp [noCaptures node member])
  obtain ⟨transformed, succeeds⟩ := Program.transform_succeeds rfl rfl fitsProgram
  refine ⟨transformed, succeeds, ?_⟩
  have direct := Program.direct_eq noCaptures
  rw [← direct] at fits ⊢
  exact Program.transform_matches rfl fitsProgram succeeds fits

/-- Functions with continuations that call each other, a native function and one that falls off
the end of a conditional. -/
def cappedSteps : String :=
  "(continuations
    (defn capped (n) (if (< n 3) (+ n 1)))
    (defn twice (f n) (f (f n))))
  (twice capped 1)"

/-- Steps through a continuation are an instance: both programs end in the same way. -/
theorem cappedSteps_preserved :
    ∃ transformed, (Program.ofText cappedSteps).transform .default [] = .ok transformed ∧
      (Program.ofText cappedSteps).Matches transformed.program SameEnd false := by
  have ⟨reads, strict, noCaptures, avoids, fits⟩ :
      (Program.parse cappedSteps none).toOption.isSome = true ∧
      (Program.ofText cappedSteps).IsStrict ∧
      (∀ node ∈ (Program.ofText cappedSteps).nodes, node.isCapture = false) ∧
      (Program.ofText cappedSteps).AvoidsCc ∧
      ((Program.ofText cappedSteps).run 100 (Machine.startLetting EvalError.isArity false)).any
        (fun outcome => outcome.1.toBool) = true := by
    rw [Program.ofText, cappedSteps, Program.parse_ofList]
    decide +kernel
  exact Program.continuations_preserve
    (Program.parse_ofText reads) strict noCaptures avoids [] false
    (Program.not_raises 100 fits)

/-- A program whose functions with continuations hand over every return means what it does in
direct style, if no call there has too many or too few arguments. -/
theorem Program.captures_preserve {source : String} {path : Option String}
    {program : Program} (parsed : Program.parse source path = .ok program)
    (strict : program.IsStrict) (avoids : program.AvoidsCc)
    (noIdentity : program.Avoids "identity") (escapes : List String)
    (noEscapes : ∀ node ∈ program.nodes, node.isCallTo escapes = false)
    (single : ∀ node ∈ program.nodes, node.isCapture = true -> node.names.length = 1)
    (handsOver : ∀ function ∈ program.functions, function.signature.regions.cont = true ->
      ∀ node ∈ function.body.tailPath, node.hasAlternative = true ∧ node.runsThrough = true)
    {transformed : Transformed}
    (succeeds : program.transform .default escapes = .ok transformed) (closedOutput : Bool)
    (fits : ¬ program.direct.Raises EvalError.isArity closedOutput) :
    program.direct.Matches transformed.program SameEnd closedOutput := by
  have fitsProgram : Rewriting.totally.FitsProgram escapes program := by
    refine Rewriting.fits_of (Program.parse_isSource parsed) strict ?_ ?_ ?_ ?_
    · intro node member name inside
      constructor
      · rintro _ rfl
        exact avoids.names node member inside
      · rintro _ rfl
        exact noIdentity node member inside
    · rintro node member keyword inside _ rfl
      exact avoids.keywords node member inside
    · intro mark signature body member continuations
      refine ⟨rfl, fun node inside _ => ?_⟩
      obtain ⟨alternative, through⟩ :=
        handsOver _ (Program.mem_functions_of_mem member) continuations node inside
      exact ⟨alternative, through,
        Expr.All.tailPath (Program.all_body noEscapes member) node inside⟩
    · intro node member captures
      exact ⟨rfl, List.length_eq_one_iff.mp (single node member captures)⟩
  exact Program.transform_matches rfl fitsProgram succeeds fits

/-- A capture of a call, with what follows as its continuation. -/
def capturedStep : String :=
  "(continuations
    (defn next (n) (+ n 1))
    (defn steps (n) (capture (m) (next n)) (print m) (if (< m 3) (next m) m)))
  (steps 1)"

/-- A captured step is an instance: it ends as the direct program does. -/
theorem capturedStep_preserved : ∃ transformed,
    (Program.ofText capturedStep).transform .default ["ec"] = .ok transformed ∧
      (Program.ofText capturedStep).direct.Matches transformed.program SameEnd false := by
  have ⟨reads, strict, avoids, noIdentity, noEscapes, single, handsOver, transforms, fits⟩ :
      (Program.parse capturedStep none).toOption.isSome = true ∧
      (Program.ofText capturedStep).IsStrict ∧
      (Program.ofText capturedStep).AvoidsCc ∧
      (Program.ofText capturedStep).Avoids "identity" ∧
      (∀ node ∈ (Program.ofText capturedStep).nodes, node.isCallTo ["ec"] = false) ∧
      (∀ node ∈ (Program.ofText capturedStep).nodes,
        node.isCapture = true -> node.names.length = 1) ∧
      (∀ function ∈ (Program.ofText capturedStep).functions,
        function.signature.regions.cont = true -> ∀ node ∈ function.body.tailPath,
          node.hasAlternative = true ∧ node.runsThrough = true) ∧
      ((Program.ofText capturedStep).transform .default ["ec"]).toBool = true ∧
      ((Program.ofText capturedStep).direct.run 100
        (Machine.startLetting EvalError.isArity false)).any
          (fun outcome => outcome.1.toBool) = true := by
    rw [Program.ofText, capturedStep, Program.parse_ofList]
    decide +kernel
  cases succeeds : (Program.ofText capturedStep).transform .default ["ec"] with
  | error error => simp [succeeds, Except.toBool] at transforms
  | ok transformed =>
    exact ⟨transformed, rfl, Program.captures_preserve (Program.parse_ofText reads) strict avoids
      noIdentity ["ec"] noEscapes single handsOver succeeds false (Program.not_raises 100 fits)⟩

end Continuations

end Trampoline
