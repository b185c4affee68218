import Trampoline.Proofs.Promises.Sessions
import Trampoline.Proofs.Rewriting.Nesting
import Trampoline.Proofs.Rewriting.Origins

/-!
# Trampolines around lazy functions

A trampoline is made promise-aware when the callable that it is put around takes promises. So it
depends on the positions of the decorators: the wrapper that takes promises has to be inside the
trampoline, with no cache in between. Of every table it is checked that the escape point is inside;
that the lazy wrapper is inside is not checked.
-/

namespace Trampoline

open Transform

/-- The variant of the outermost trampoline around a callable. -/
def Callable.trampoline? : Callable -> Option Variant
  | trampolined _ variant => some variant
  | memoized inner _ | looped inner | escapePoint inner | contEnabled inner | lazyFn inner =>
    inner.trampoline?
  | closure .. | native _ | loopHandle .. | escape _ | continuation .. | identity _ => none

/-- Whether a function with these wrappers takes promises: from the outside, one that takes promises
comes before a cache. -/
def takesPromises : List Decorator -> Bool
  | [] => false
  | .lazy :: _ => true
  | .memoize :: _ => false
  | .trampolined :: inside | .looped :: inside | .callEc :: inside | .continuations :: inside =>
    takesPromises inside

/-- The variant that suits wrappers inside a trampoline. -/
def variantFor (inside : List Decorator) : Variant :=
  if takesPromises inside then .promiseAware else .strict

/-! ## Wrapping -/

section Wrapping

variable {base callable : Callable} {wrappers : List Decorator}

namespace Callable.Wears

/-- With wrappers around it, a strict callable is lazy if the outermost that decides says so. -/
theorem isLazy_eq (wears : base.Wears wrappers callable) (strict : base.isLazy = false) :
    callable.isLazy = takesPromises wrappers := by
  induction wears with
  | bare => exact strict
  | memoize | lazy => rfl
  | trampolined _ ih | looped _ ih | callEc _ ih | continuations _ ih => exact ih

/-- The trampoline around a strict function suits the wrappers inside it. -/
theorem trampoline?_eq (wears : base.Wears wrappers callable) (strict : base.isLazy = false)
    (runs : .trampolined ∈ wrappers) : ∃ outer inside, wrappers = outer ++ .trampolined :: inside ∧
      callable.trampoline? = some (variantFor inside) := by
  induction wears with
  | bare => cases runs
  | @trampolined inside inner rest _ =>
    refine ⟨[], inside, rfl, ?_⟩
    rw [Callable.trampoline?, Variant.of, rest.isLazy_eq strict, variantFor]
  | memoize _ ih | looped _ ih | callEc _ ih | continuations _ ih | lazy _ ih =>
    obtain ⟨outer, inside, rfl, suits⟩ := ih (by simpa using runs)
    exact ⟨_ :: outer, inside, rfl, suits⟩

end Callable.Wears

variable {table : DecoratorTable}

/-- In the order of their positions, wrappers take promises if they have the one that does, and no
cache further out. -/
theorem takesPromises_iff (increasing : wrappers.Pairwise table.Outside) :
    takesPromises wrappers = true ↔
      .lazy ∈ wrappers ∧ ¬(.memoize ∈ wrappers ∧ table.Outside .memoize .lazy) := by
  induction wrappers with
  | nil => simp [takesPromises]
  | cons wrapper inside ih =>
    obtain ⟨first, rest⟩ := List.pairwise_cons.mp increasing
    cases wrapper with
    | lazy =>
      refine iff_of_true rfl ⟨List.mem_cons_self, fun ⟨cached, further⟩ => ?_⟩
      exact (first .memoize (by simpa using cached)).asymm further
    | memoize =>
      refine iff_of_false nofun fun ⟨takes, uncached⟩ => uncached ⟨List.mem_cons_self, ?_⟩
      exact first .lazy (by simpa using takes)
    | trampolined | looped | callEc | continuations => simpa [takesPromises] using ih rest

/-- Among wrappers in the order of their positions, those behind one are those of higher ones. -/
theorem mem_behind {outer inside : List Decorator} {wrapper other : Decorator}
    (increasing : (outer ++ wrapper :: inside).Pairwise table.Outside) :
    other ∈ inside ↔ other ∈ outer ++ wrapper :: inside ∧ table.Outside wrapper other := by
  obtain ⟨-, behind, before⟩ := List.pairwise_append.mp increasing
  obtain ⟨after, -⟩ := List.pairwise_cons.mp behind
  constructor
  · exact fun member => ⟨by simp [member], after other member⟩
  · rintro ⟨member, further⟩
    rcases List.mem_append.mp member with inOuter | behind
    · exact absurd further (before other inOuter wrapper List.mem_cons_self).asymm
    · refine (List.mem_cons.mp behind).resolve_left ?_
      rintro rfl
      exact further.asymm further

/-- The lazy wrapper stands inside the trampoline, and no cache between them. -/
def DecoratorTable.KeepsAware (table : DecoratorTable) (wrappers : List Decorator) : Prop :=
  table.Outside .trampolined .lazy ∧
    ¬(.memoize ∈ wrappers ∧ table.Outside .trampolined .memoize ∧ table.Outside .memoize .lazy)

/-- The trampoline around a strict function that is marked lazy is promise-aware if the table keeps
it so. -/
theorem Callable.Wears.aware_iff (wears : base.Wears wrappers callable)
    (strict : base.isLazy = false) (increasing : wrappers.Pairwise table.Outside)
    (runs : .trampolined ∈ wrappers) (takes : .lazy ∈ wrappers) : ∃ variant,
      callable.trampoline? = some variant ∧
        (variant = .promiseAware ↔ table.KeepsAware wrappers) := by
  obtain ⟨outer, inside, rfl, suits⟩ := wears.trampoline?_eq strict runs
  refine ⟨_, suits, ?_⟩
  have behind : inside.Pairwise table.Outside :=
    (List.pairwise_cons.mp (List.pairwise_append.mp increasing).2.1).2
  have aware : variantFor inside = .promiseAware ↔ takesPromises inside = true := by
    unfold variantFor
    split <;> simp_all
  rw [aware, takesPromises_iff behind, mem_behind increasing, mem_behind increasing]
  simp only [takes, true_and, DecoratorTable.KeepsAware, and_assoc]

end Wrapping

/-! ## Arguments of jumps -/

section Jumps

variable {n : Nat} {m m' : Machine}

theorem force_resolves {value forced : Value} (resolved : m.Resolved)
    (ends : force n value m = some (.ok forced, m')) : forced.isPromise = false ∧ m'.Resolved :=
  ⟨(Unfolding.tasks n).resolves value m forced m' resolved ends,
    ((Unfolding.tasks n).settles (.force value) m _ _ ends).resolved resolved⟩

/-- Arguments that were forced are no promises. -/
theorem forceArgs_resolve {args forced : List Value} (resolved : m.Resolved)
    (ends : forceArgs n args m = some (.ok forced, m')) :
    (∀ value ∈ forced, value.isPromise = false) ∧ m'.Resolved := by
  induction args generalizing n forced m with
  | nil =>
    cases n with
    | zero => cases ends
    | succ n =>
      cases ends
      exact ⟨nofun, resolved⟩
  | cons value rest ih =>
    cases n with
    | zero => cases ends
    | succ n =>
      obtain ⟨first, middle, forces, ends⟩ := Exec.bind_eq_ok.mp ends
      obtain ⟨others, last, continues, ends⟩ := Exec.bind_eq_ok.mp ends
      cases ends
      obtain ⟨plain, resolved⟩ := force_resolves resolved forces
      obtain ⟨plains, resolved⟩ := ih resolved continues
      exact ⟨List.forall_mem_cons.mpr ⟨plain, plains⟩, resolved⟩

/-- Keyword arguments that were forced are no promises. -/
theorem forceKwargs_resolve {kwargs forced : Kwargs} (resolved : m.Resolved)
    (ends : forceKwargs n kwargs m = some (.ok forced, m')) :
    (∀ named ∈ forced, named.2.isPromise = false) ∧ m'.Resolved := by
  induction kwargs generalizing n forced m with
  | nil =>
    cases n with
    | zero => cases ends
    | succ n =>
      cases ends
      exact ⟨nofun, resolved⟩
  | cons named rest ih =>
    cases n with
    | zero => cases ends
    | succ n =>
      obtain ⟨first, middle, forces, ends⟩ := Exec.bind_eq_ok.mp ends
      obtain ⟨others, last, continues, ends⟩ := Exec.bind_eq_ok.mp ends
      cases ends
      obtain ⟨plain, resolved⟩ := force_resolves resolved forces
      obtain ⟨plains, resolved⟩ := ih resolved continues
      exact ⟨List.forall_mem_cons.mpr ⟨plain, plains⟩, resolved⟩

/-- What a promise-aware trampoline hands to a strict callable has no promises. -/
theorem forceForStrict_resolves {callee : Callable} {args args' : List Value}
    {kwargs kwargs' : Kwargs} (resolved : m.Resolved) (strict : callee.isLazy = false)
    (ends : forceForStrict n .promiseAware callee args kwargs m = some (.ok (args', kwargs'), m')) :
    (∀ value ∈ args', value.isPromise = false) ∧ ∀ named ∈ kwargs', named.2.isPromise = false := by
  cases n with
  | zero => cases ends
  | succ n =>
    simp only [forceForStrict, strict, Bool.not_false, Bool.and_true, decide_true, if_true] at ends
    obtain ⟨first, middle, forces, ends⟩ := Exec.bind_eq_ok.mp ends
    obtain ⟨named, last, continues, ends⟩ := Exec.bind_eq_ok.mp ends
    cases ends
    obtain ⟨plains, resolved⟩ := forceArgs_resolve resolved forces
    exact ⟨plains, (forceKwargs_resolve resolved continues).1⟩

end Jumps

/-! ## Programs -/

variable {table : DecoratorTable} {escapes : List String}

/-- The wrappers of a function of a transformed program stand in the order of their positions, and
its blocks imply those of its trampoline and its promises. -/
theorem Program.transform_wrappers {program : Program} {transformed : Transformed}
    (distinct : table.Distinct) (succeeds : program.transform table escapes = .ok transformed)
    {function : Function} (member : function ∈ transformed.program.functions)
    (plain : function.signature.kind = .plain) :
    function.signature.wrappers.Pairwise table.Outside ∧
      (function.signature.regions.tco = true -> .trampolined ∈ function.signature.wrappers) ∧
      (function.signature.regions.lazy = true -> .lazy ∈ function.signature.wrappers) := by
  obtain ⟨_, -, rewritten, ⟨wrappers, resolves, same⟩, -⟩ := transform_origin succeeds member
  rw [same] at plain ⊢
  refine ⟨resolveWrappers_increasing distinct resolves, fun tco => ?_, fun isLazy => ?_⟩
  · refine (mem_resolveWrappers resolves).mpr (.inr ?_)
    simp only at plain tco
    simp [impliedWrappers, plain, tco]
  · refine (mem_resolveWrappers resolves).mpr (.inr ?_)
    simp only at plain isLazy
    simp [impliedWrappers, plain, isLazy]

/-- In `tco` and `lazify` blocks, functions get a trampoline that is promise-aware exactly if the
table has the lazy wrapper inside the trampoline and puts no cache between them. What such a
trampoline hands to a strict callable has no promises. -/
theorem Program.lazy_trampolines {program : Program} {transformed : Transformed}
    (distinct : table.Distinct) (succeeds : program.transform table escapes = .ok transformed)
    {function : Function} (member : function ∈ transformed.program.functions)
    (plain : function.signature.kind = .plain) (tco : function.signature.regions.tco = true)
    (isLazy : function.signature.regions.lazy = true) (ref : Nat) (env : Env) (m : Machine) :
    ∃ callable m' variant,
      wrap (.closure ref function env) function.signature.wrappers m = some (.ok callable, m') ∧
      callable.trampoline? = some variant ∧
      (variant = .promiseAware ↔ table.KeepsAware function.signature.wrappers) ∧
      (variant = .promiseAware -> ∀ n callee args kwargs args' kwargs' (start ended : Machine),
        start.Resolved -> callee.isLazy = false ->
          forceForStrict n variant callee args kwargs start = some (.ok (args', kwargs'), ended) ->
            (∀ value ∈ args', value.isPromise = false) ∧
              ∀ named ∈ kwargs', named.2.isPromise = false) := by
  obtain ⟨increasing, runs, takes⟩ := transform_wrappers distinct succeeds member plain
  obtain ⟨callable, m', wraps⟩ :=
    wrap_ends (.closure ref function env) function.signature.wrappers m
  obtain ⟨variant, suits, aware⟩ :=
    (wrap_wears wraps).aware_iff rfl increasing (runs tco) (takes isLazy)
  refine ⟨callable, m', variant, wraps, suits, aware, ?_⟩
  rintro rfl n callee args kwargs args' kwargs' start ended resolved strict ends
  exact forceForStrict_resolves resolved strict ends

/-- A lazy function that makes a tail call to a strict native. -/
def lazySum : String :=
  "(tco (lazify (defn f (x) (type-of (+ 1 2)))))
  (f 1)"

/-- Whether blocks ask for jumps and for promises. -/
def Signature.isLazyJumper (signature : Signature) : Bool :=
  signature.kind = .plain && signature.regions.tco && signature.regions.lazy

/-- With the default order, the trampoline of a lazy function is aware of promises. -/
theorem lazySum_aware : ∃ transformed,
    (Program.ofText lazySum).transform .default [] = .ok transformed ∧
    ∃ function ∈ transformed.program.functions, ∃ callable m',
      wrap (.closure 0 function []) function.signature.wrappers (Machine.start false) =
        some (.ok callable, m') ∧ callable.trampoline? = some .promiseAware := by
  have ends : ((Program.ofText lazySum).transform .default []).toOption.any (fun transformed =>
      transformed.program.functions.any fun function => function.signature.isLazyJumper &&
        function.signature.wrappers = [.trampolined, .lazy]) = true := by
    rw [Program.ofText, lazySum, Program.parse_ofList]
    decide +kernel
  cases succeeds : (Program.ofText lazySum).transform .default [] with
  | error error => simp [succeeds, Except.toOption] at ends
  | ok transformed =>
    simp only [succeeds, Except.toOption, Option.any_some, List.any_eq_true, Bool.and_eq_true,
      decide_eq_true_eq, Signature.isLazyJumper] at ends
    obtain ⟨function, member, ⟨⟨plain, tco⟩, isLazy⟩, wrappers⟩ := ends
    obtain ⟨callable, m', variant, wraps, suits, aware, -⟩ := Program.lazy_trampolines
      (by decide) succeeds member plain tco isLazy 0 [] (Machine.start false)
    have keeps : DecoratorTable.default.KeepsAware function.signature.wrappers := by
      rw [wrappers]
      exact ⟨⟨⟨.trampolined, 20⟩, ⟨.lazy, 60⟩, rfl, rfl, by decide⟩,
        fun cached => by simp at cached⟩
    exact ⟨transformed, rfl, function, member, callable, m', wraps, aware.mpr keeps ▸ suits⟩

/-- All decorators at their default positions, but the lazy wrapper outermost. -/
def lazyOutermost : DecoratorTable :=
  ⟨Decorator.all.map fun decorator =>
    ⟨decorator, if decorator = .lazy then 5 else decorator.defaultPosition⟩⟩

/-- A table that passes the check and has `lazy` outermost makes the trampoline strict. -/
theorem lazySum_strict : lazyOutermost.validate = .ok () ∧
    (∀ decorator, (lazyOutermost.record? decorator).isSome = true) ∧
    ((Program.ofText lazySum).transform lazyOutermost []).toOption.any (fun transformed =>
      transformed.program.functions.any fun function => function.signature.isLazyJumper &&
        match wrap (.closure 0 function []) function.signature.wrappers (Machine.start false) with
        | some (.ok callable, _) => callable.trampoline? = some .strict
        | _ => false) = true := by
  refine ⟨rfl, fun decorator => by cases decorator <;> rfl, ?_⟩
  rw [Program.ofText, lazySum, Program.parse_ofList]
  decide +kernel

end Trampoline
