import Trampoline.Proofs.Promises.Strictness

/-!
# Data without promises

In a program whose functions are all lazy, promises get into cells and among arguments that are
passed on, but into no list, tuple or global, and neither into what a native gets nor into what a
run or an escape returns.
-/

namespace Trampoline

open Transform

/-! ## Values -/

mutual

/-- The value neither is a promise nor holds one. -/
def Value.PromiseFree : Value -> Prop
  | .tuple items => AllPromiseFree items
  | .promise _ => False
  | .nil | .bool _ | .int _ | .str _ | .list _ | .func _ | .jump _ => True

/-- None of the values is a promise or holds one. -/
def AllPromiseFree : List Value -> Prop
  | [] => True
  | value :: rest => value.PromiseFree ∧ AllPromiseFree rest

end

/-- The value may be a promise but holds none. -/
def Value.HoldsNone (value : Value) : Prop := value.isPromise = true ∨ value.PromiseFree

variable {m : Machine}

mutual

theorem Value.Plain.promiseFree : ∀ {value : Value}, value.Plain m -> value.PromiseFree
  | .tuple _, plain => AllPlain.promiseFree plain
  | .nil, _ | .bool _, _ | .int _, _ | .str _, _ | .list _, _ | .func _, _ => trivial

theorem AllPlain.promiseFree : ∀ {values : List Value}, AllPlain m values -> AllPromiseFree values
  | [], _ => trivial
  | _ :: _, plain => ⟨plain.1.promiseFree, plain.2.promiseFree⟩

end

namespace Value

variable {value : Value} {delayed : Prop}

theorem Fits.holdsNone (fits : value.Fits delayed m) : value.HoldsNone :=
  fits.elim (fun plain => .inr plain.promiseFree) fun promise => .inl promise.1

/-- What is returned neither is a promise nor holds one. -/
theorem Returns.promiseFree (returns : value.Returns m) : value.PromiseFree := by
  rcases returns with isJump | plain
  · cases value with
    | jump => trivial
    | _ => cases isJump
  · exact plain.promiseFree

end Value

/-! ## Machines and calls -/

/-- No list, tuple or global has a promise in it, wherever it is stored. -/
structure Machine.DataFree (m : Machine) : Prop where
  globals : ∀ named ∈ m.globals, named.2.PromiseFree
  lists : ∀ items ∈ m.lists, ∀ item ∈ items, item.PromiseFree
  cells : ∀ value ∈ m.cells, value.HoldsNone
  forced : ∀ value, .forced value ∈ m.promises -> value.PromiseFree
  cached : ∀ entries ∈ m.caches, ∀ entry ∈ entries, entry.value.PromiseFree
  args : ∀ jump, .pending jump ∈ m.jumps -> ∀ arg ∈ jump.args, arg.HoldsNone
  kwargs : ∀ jump, .pending jump ∈ m.jumps -> ∀ kwarg ∈ jump.kwargs, kwarg.2.HoldsNone
  cc : ∀ jump, .pending jump ∈ m.jumps -> ∀ cc ∈ jump.cc, cc.PromiseFree

/-- On a tidy machine no data has a promise in it. -/
theorem Machine.Tidy.dataFree (tidy : m.Tidy) : m.DataFree where
  globals named member := (tidy.globals named member).promiseFree
  lists items member item inside := by
    have plain := allPlain_iff.mp (tidy.lists items member) item (Array.mem_toList_iff.mpr inside)
    exact plain.promiseFree
  cells value member := (tidy.cells value member).holdsNone
  forced value member := by
    have plain : value.Plain m := tidy.promises _ member
    exact plain.promiseFree
  cached entries member entry inside := (tidy.caches entries member entry inside).promiseFree
  args jump member arg inside := ((tidy.jumps jump member).args arg inside).holdsNone
  kwargs jump member kwarg inside := ((tidy.jumps jump member).kwargs kwarg inside).holdsNone
  cc jump member cc inside := ((tidy.jumps jump member).cc cc inside).promiseFree

/-- The call finds no promise in data, applies no native to one, returns none from a callable and
escapes with none. -/
structure Call.DataFree (call : Call) : Prop where
  machine : call.machine.DataFree
  natives : ∀ op args kwargs, call.task = .apply (.native op) args kwargs ->
    (∀ arg ∈ args, arg.PromiseFree) ∧ ∀ kwarg ∈ kwargs, kwarg.2.PromiseFree
  args : ∀ callable args kwargs, call.task = .apply callable args kwargs ->
    (∀ arg ∈ args, arg.HoldsNone) ∧ ∀ kwarg ∈ kwargs, kwarg.2.HoldsNone
  returns : ∀ callable args kwargs, call.task = .apply callable args kwargs ->
    ∀ value last,
      Call.Ends ⟨call.fuel, .apply callable args kwargs, call.machine⟩ (.ok value, last) ->
        value.PromiseFree
  escapes : ∀ tag value, call.Fails (.escape tag value) -> value.PromiseFree

/-- No call of a program that keeps promises where they may be finds one in data. -/
theorem Program.Prompt.dataFree {program : Program} (prompt : program.Prompt) (tidy : m.Tidy)
    {n : Nat} {call : Call} {callers : List Call}
    (stack : Entry.Stack (.program program) n m (call :: callers)) : call.DataFree := by
  obtain ⟨asks, tidy'⟩ := prompt.stack tidy stack
  have ends := fun outcome (ran : call.Ends outcome) => prompt.ends tidy stack ran
  obtain ⟨fuel, task, later⟩ := call
  refine ⟨tidy'.dataFree, ?_, ?_, ?_, ?_⟩
  · rintro op args kwargs rfl
    obtain ⟨-, fit, namedFit⟩ := asks
    exact ⟨fun arg member => ((fit arg member).plain id).promiseFree,
      fun kwarg member => ((namedFit kwarg member).plain id).promiseFree⟩
  · rintro callable args kwargs rfl
    obtain ⟨-, fit, namedFit⟩ := asks
    exact ⟨fun arg member => (fit arg member).holdsNone,
      fun kwarg member => (namedFit kwarg member).holdsNone⟩
  · rintro callable args kwargs rfl value last ran
    exact (ends _ ran).ends.1.promiseFree
  · rintro tag value ⟨last, ran⟩
    have plain : value.Plain last := (ends _ ran).ends
    exact plain.promiseFree

/-! ## Programs -/

namespace Signature.Dressed

variable {signature dressed : Signature} {table : DecoratorTable}

theorem implied_lazy (dresses : signature.Dressed table dressed) (plain : signature.kind = .plain)
    (isLazy : signature.regions.lazy = true) : .lazy ∈ dressed.wrappers := by
  obtain ⟨wrappers, resolves, rfl⟩ := dresses
  exact (mem_resolveWrappers resolves).mpr (.inr (by simp [impliedWrappers, plain, isLazy]))

/-- Continuation functions get no wrappers before they are captured. -/
theorem bare {regions : Regions} {id : Nat} {binders : List String}
    (dresses : (continuationSignature regions id binders).Dressed table dressed)
    (decorator : Decorator) : decorator ∉ dressed.wrappers := by
  obtain ⟨wrappers, resolves, rfl⟩ := dresses
  intro member
  rcases (mem_resolveWrappers resolves).mp member with ⟨written, listed, -⟩ | implied
  · cases listed
  · cases implied

/-- By default the mark of a lazy function is inside its trampoline, and its cache outside. -/
theorem trampolines (dresses : signature.Dressed .default dressed)
    (isLazy : .lazy ∈ dressed.wrappers) {outer inner : List Decorator}
    (split : dressed.wrappers = outer ++ .trampolined :: inner) :
    .lazy ∈ inner ∧ .memoize ∉ inner := by
  obtain ⟨wrappers, resolves, rfl⟩ := dresses
  obtain ⟨decorators, -, nests⟩ := resolveWrappers_nests resolves
  change wrappers = outer ++ .trampolined :: inner at split
  subst split
  have ordered := default_ordered nests
  rw [Callable.Wears.Ordered, List.pairwise_append, List.pairwise_cons] at ordered
  obtain ⟨-, ⟨further, -⟩, apart⟩ := ordered
  constructor
  · rcases List.mem_append.mp isLazy with outside | inside
    · exact absurd (apart _ outside _ List.mem_cons_self) (by decide)
    · exact (List.mem_cons.mp inside).resolve_left (by decide)
  · intro cached
    exact absurd (further _ cached) (by decide)

end Signature.Dressed

/-- Where all functions are in lazy blocks and have the default wrappers, promises are kept where
they may be. -/
theorem Program.prompt_of_lazy {program : Program} (isSource : program.IsSource)
    (without : program.WithoutJumps)
    (allLazy : ∀ function ∈ program.functions, function.signature.regions.lazy = true)
    {escapes : List String} {transformed : Transformed}
    (succeeds : program.transform .default escapes = .ok transformed) :
    transformed.program.Prompt where
  obey := Program.transform_obeys without isSource succeeds
  prompt := by
    have stillLazy : ∀ dressed ∈ transformed.program.functions,
        dressed.signature.regions.lazy = true := by
      intro dressed member
      obtain ⟨function, listed, rewritten, ⟨wrappers, -, same⟩, origin⟩ :=
        Program.transform_origin succeeds member
      rw [same]
      rcases origin with ⟨params, rfl⟩ | ⟨id, binders, rfl⟩ <;> exact allLazy function listed
    intro dressed member
    have member := Program.mem_functions_iff.mpr member
    refine ⟨⟨fun _ => stillLazy dressed member, fun outer inner split => ?_⟩, nofun, ?_⟩
    · obtain ⟨function, listed, rewritten, dresses, origin⟩ :=
        Program.transform_origin succeeds member
      rcases origin with ⟨params, rfl⟩ | ⟨id, binders, rfl⟩
      · obtain ⟨mark, inProgram⟩ := Program.mem_functions.mp listed
        have plain := (isSource _ inProgram).1
        exact dresses.trampolines (dresses.implied_lazy plain (allLazy function listed)) split
      · have trampolined : .trampolined ∈ dressed.signature.wrappers := by simp [split]
        exact absurd trampolined (dresses.bare _)
    · intro _ inner inside
      have inProgram := Program.mem_functions_inner member inside
      simp [Signature.isLazy, stillLazy inner inProgram]

/-- Promises stay out of data. In a program whose functions are all in lazy blocks, whatever other
blocks and decorators there are, without written jumps and handles and under the default table: the
machines of a run have no promise in a list, tuple or global, no native is applied to one, and
neither the result of a run nor what an escape carries is one or holds one. -/
theorem Program.lazy_data_promiseFree {source : String} {path : Option String} {program : Program}
    (parsed : Program.parse source path = .ok program)
    (allLazy : ∀ function ∈ program.functions, function.signature.regions.lazy = true)
    (noJumps : ∀ node ∈ program.nodes, node.isJump = false)
    (noHandles : ∀ function ∈ program.functions, ∀ written ∈ function.signature.decorators,
      written.1 ≠ Decorator.looped.name)
    {escapes : List String} {transformed : Transformed}
    (succeeds : program.transform .default escapes = .ok transformed)
    {errors : EvalError -> Bool} {closedOutput : Bool} {m : Machine}
    (runs : transformed.program.RunsFrom (.startLetting errors closedOutput) m) :
    (∀ outcome, transformed.program.EndsOn m outcome ->
      outcome.2.DataFree ∧ (∀ value, outcome.1 = .ok value -> value.PromiseFree) ∧
        ∀ tag value, outcome.1 = .error (.escape tag value) -> value.PromiseFree) ∧
    ∀ n call callers,
      Entry.Stack (.program transformed.program) n m (call :: callers) -> call.DataFree := by
  have prompt := Program.prompt_of_lazy (Program.parse_isSource parsed) ⟨noJumps, noHandles⟩ allLazy
    succeeds
  have tidy := prompt.runs (Machine.tidy_startLetting errors closedOutput) runs
  refine ⟨fun outcome ends => ?_, fun n call callers stack => prompt.dataFree tidy stack⟩
  have admits := prompt.run tidy ends
  obtain ⟨result, last⟩ := outcome
  refine ⟨admits.reaches.holds.dataFree, ?_, ?_⟩
  · rintro value rfl
    exact admits.ends.promiseFree
  · rintro tag value rfl
    have plain : value.Plain last := admits.ends
    exact plain.promiseFree

/-- A lazy function that captures a call, and so jumps with an argument that is delayed. -/
def delayedItem : String :=
  "(continuations (lazify (defn f (n) (capture (r) (list (+ n 1))) r)))
  (f 1)"

/-- A jump with a delayed argument is an instance: the list in the end holds no promise. -/
theorem delayedItem_promiseFree : ∃ transformed outcome,
    (Program.ofText delayedItem).transform .default [] = .ok transformed ∧
    transformed.program.EndsOn (.startLetting (fun _ => true) false) outcome ∧
    0 < outcome.2.promises.size ∧ 0 < outcome.2.lists.size ∧ outcome.2.DataFree := by
  have ⟨reads, allLazy, noJumps, noHandles, ran⟩ :
      (Program.parse delayedItem none).toOption.isSome = true ∧
      (∀ function ∈ (Program.ofText delayedItem).functions,
        function.signature.regions.lazy = true) ∧
      (∀ node ∈ (Program.ofText delayedItem).nodes, node.isJump = false) ∧
      (∀ function ∈ (Program.ofText delayedItem).functions,
        ∀ written ∈ function.signature.decorators, written.1 ≠ Decorator.looped.name) ∧
      ((Program.ofText delayedItem).transform .default []).toOption.any (fun transformed =>
        (transformed.program.run 40 (.startLetting (fun _ => true) false)).any fun outcome =>
          decide (0 < outcome.2.promises.size ∧ 0 < outcome.2.lists.size)) = true := by
    rw [Program.ofText, delayedItem, Program.parse_ofList]
    decide +kernel
  cases succeeds : (Program.ofText delayedItem).transform .default [] with
  | error error => simp [succeeds, Except.toOption] at ran
  | ok transformed =>
    simp only [succeeds, Except.toOption, Option.any_some] at ran
    obtain ⟨outcome, ran, stored⟩ := (Option.any_eq_true _ _).mp ran
    obtain ⟨promises, lists⟩ := of_decide_eq_true stored
    have ends : transformed.program.EndsOn _ outcome := ⟨40, ran⟩
    have runs : transformed.program.RunsFrom (.startLetting (fun _ => true) false) _ := .first
    have dataFree := Program.lazy_data_promiseFree (Program.parse_ofText reads) allLazy noJumps
      noHandles succeeds runs
    exact ⟨transformed, outcome, rfl, ends, promises, lists, (dataFree.1 outcome ends).1⟩

/-- A lazy function whose handle is called by a native, and which then jumps to another native. -/
def calledHandle : String :=
  "(define n nil)
  (tco (lazify (defn f (g) :decorators (looped)
    (if n (type-of (tuple)) (begin (set! n 1) (try g g))))))
  (f)"

/-- The handle of a lazy function says that it takes no promises. So the trampoline of its call
forces none, and passes a promise to the native. -/
theorem calledHandle_reachesNative :
    (∀ function ∈ (Program.ofText calledHandle).functions,
      function.signature.regions.lazy = true) ∧
    (∀ node ∈ (Program.ofText calledHandle).nodes, node.isJump = false) ∧
    ∃ transformed fuel op args kwargs later callers,
      (Program.ofText calledHandle).transform .default [] = .ok transformed ∧
      Entry.Stack (.program transformed.program) 40 (.startLetting (fun _ => true) false)
        (⟨fuel, .apply (.native op) args kwargs, later⟩ :: callers) ∧
      ∃ arg ∈ args, arg.isPromise = true := by
  have ⟨allLazy, noJumps, applies⟩ :
      (∀ function ∈ (Program.ofText calledHandle).functions,
        function.signature.regions.lazy = true) ∧
      (∀ node ∈ (Program.ofText calledHandle).nodes, node.isJump = false) ∧
      Program.appliesNative calledHandle (fun args _ => args.any Value.isPromise) = true := by
    rw [Program.appliesNative, Program.ofText, calledHandle, Program.parse_ofList]
    decide +kernel
  obtain ⟨transformed, fuel, op, args, kwargs, later, callers, succeeds, stack, such⟩ :=
    Program.appliesNative_stack applies
  exact ⟨allLazy, noJumps, transformed, fuel, op, args, kwargs, later, callers, succeeds, stack,
    List.any_eq_true.mp such⟩

end Trampoline
