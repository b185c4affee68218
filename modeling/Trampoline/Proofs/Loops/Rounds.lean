import Trampoline.Proofs.Continuations.Arity
import Trampoline.Proofs.Loops.Recursion
import Trampoline.Proofs.Memo.Bindings

/-!
# Rounds of loops

Applying the loop binds the handle besides the parameters that the recursive function has; then the
bodies run side by side to their ends. A round that ends with a call of the handle is gone on with
by the next, so what a trampoline makes of the rounds is what the recursive function comes to.
-/

namespace Trampoline

open Exec

variable {name handle : String} {function : Function} {reflection later : Reflection}
  {m m' last : Machine} {ref ref' : Nat}

/-! ## Parameters -/

section Parameters

variable {func other : String} {bound : List (String × Option Value)} {kwargs : Kwargs}

/-- Names that are no parameters stand for what they stood for. -/
theorem lookup_bindCells {env scope : Env}
    (ran : bindCells func bound env m = some (.ok scope, last))
    (unlisted : other ∉ bound.map Prod.fst) : scope.lookup other = env.lookup other := by
  induction bound generalizing env m with
  | nil =>
    cases ran
    rfl
  | cons first rest ih =>
    obtain ⟨param, _ | value⟩ := first
    · cases ran
    · obtain ⟨differs, unlisted⟩ := not_or.mp (mt List.mem_cons.mpr unlisted)
      rw [ih ran unlisted, List.lookup_cons, beq_false_of_ne differs]

/-- Names that are no parameters stand for what they stood for outside. -/
theorem lookup_parameterScope {signature : Signature} {env scope : Env} {args : List Value}
    (ran : parameterScope signature env args kwargs m = some (.ok scope, last))
    (unlisted : other ∉ signature.params) : scope.lookup other = env.lookup other := by
  simp only [parameterScope] at ran
  split at ran
  · cases ran
  · obtain ⟨bound, middle, binds, ran⟩ := bind_eq_ok.mp ran
    obtain ⟨result, ends, names⟩ :=
      bindKeywords_same signature.label kwargs (bindPositional signature.params args)
    cases (ends m).symm.trans binds
    refine lookup_bindCells ran ?_
    rwa [names bound rfl, map_fst_bindPositional]

/-- A keyword that names no parameter is not bound. -/
theorem bindKeyword_eq_none (unlisted : other ∉ bound.map Prod.fst) (value : Value) :
    bindKeyword other value bound = none := by
  induction bound with
  | nil => rfl
  | cons first rest ih =>
    obtain ⟨differs, unlisted⟩ := not_or.mp (mt List.mem_cons.mpr unlisted)
    simp only [bindKeyword, if_neg (Ne.symm differs), ih unlisted, Option.map_none]

/-- A keyword argument without its parameter is an error, or one before it is. -/
theorem bindKeywords_unexpected (func : String) (named : other ∈ kwargs.map Prod.fst)
    (unlisted : other ∉ bound.map Prod.fst) : ∃ keyword, ∀ m,
      bindKeywords func kwargs bound m = some (.error (.unexpectedKeyword func keyword), m) := by
  induction kwargs generalizing bound with
  | nil => cases named
  | cons first rest ih =>
    obtain ⟨keyword, value⟩ := first
    simp only [bindKeywords]
    cases binds : bindKeyword keyword value bound with
    | none => exact ⟨keyword, fun _ => rfl⟩
    | some after =>
      have different : other ≠ keyword := by
        rintro rfl
        rw [bindKeyword_eq_none unlisted] at binds
        cases binds
      refine ih ((List.mem_cons.mp named).resolve_left different) ?_
      rwa [map_fst_bindKeyword binds]

/-- A parameter that is not named by keyword keeps what it is bound to. -/
theorem bindKeywords_cons {param : String} (unnamed : param ∉ kwargs.map Prod.fst)
    (old : Option Value) (bound : List (String × Option Value)) :
    bindKeywords func kwargs ((param, old) :: bound) =
      bindKeywords func kwargs bound >>= fun after => pure ((param, old) :: after) := by
  induction kwargs generalizing bound with
  | nil => rfl
  | cons first rest ih =>
    obtain ⟨keyword, value⟩ := first
    obtain ⟨differs, unnamed⟩ := not_or.mp (mt List.mem_cons.mpr unnamed)
    simp only [bindKeywords, bindKeyword, if_neg differs]
    cases bindKeyword keyword value bound with
    | none => rfl
    | some after => exact ih unnamed after

end Parameters

/-- The recursive function has the parameters of the loop but the handle. -/
theorem Function.Loops.unloop_eq (loops : function.Loops name handle) : ∃ params,
    function.signature.params = handle :: params ∧ function.unloop name =
      ⟨{ function.signature with params := params, decorators := [], wrappers := [] },
        function.body.unloop handle name⟩ := by
  have takes := loops.takes
  unfold Function.unloop
  cases own : function.signature.params with
  | nil =>
    rw [own] at takes
    cases takes
  | cons first params =>
    rw [own] at takes
    obtain rfl := Option.some.inj takes
    exact ⟨params, rfl, rfl⟩

/-- Binding parameters on the side of the recursive function fails, so that nothing is compared. -/
theorem Machine.Mirrors.lost_scopes {α β : Type} {run : Run α} {run' : Run β} {error : EvalError}
    {post : Reflection -> α -> β -> Prop}
    (machines : m.Mirrors (.looping name handle function) reflection m')
    (fails : run' m' = some (.error error, m')) (lost : error.tellsLoops = true) :
    (Mirror.looping name handle function).Agrees reflection (.lift run) (.lift run') m m' post := by
  refine .of_lost' (Exec.le_refl _) fails ⟨lost, ?_⟩
  rw [machines.passed']
  exact Bool.or_eq_true_iff.mpr (.inl lost)

/-- The scope of the body of the loop, with the handle in a cell of its own, and that of the body of
the recursive function. -/
theorem Function.Loops.scopes (loops : function.Loops name handle) {inner : Value}
    {args args' : List Value} {kwargs kwargs' : Kwargs}
    (values : ValuesMirror (.looping name handle function) reflection args args')
    (named : KwargsMirror (.looping name handle function) reflection kwargs kwargs')
    (machines : m.Mirrors (.looping name handle function) reflection m') :
    (Mirror.looping name handle function).Agrees reflection
      (.lift (parameterScope function.signature [] (inner :: args) kwargs))
      (.lift (parameterScope (function.unloop name).signature [] args' kwargs')) m m'
      fun later scope scope' =>
        Env.Mirrors (.looping name handle function) later true scope scope' ∧
          ∃ cell, scope.lookup handle = some cell ∧ later.held cell inner := by
  obtain ⟨params, own, recursive⟩ := loops.unloop_eq
  have once : handle ∉ params := by
    have once := loops.once
    rwa [own] at once
  have length := values.length_eq
  rw [recursive]
  by_cases more : params.length < args'.length
  · exact machines.lost_scopes (parameterScope_overflows _ [] kwargs' more m') rfl
  have fits : ¬ (handle :: params).length < (inner :: args).length := by
    rw [length] at more
    simpa using more
  by_cases byKeyword : handle ∈ kwargs'.map Prod.fst
  · have unlisted : handle ∉ (bindPositional params args').map Prod.fst := by
      rwa [map_fst_bindPositional]
    obtain ⟨keyword, fails⟩ := bindKeywords_unexpected function.signature.label byKeyword unlisted
    have unexpected :
      parameterScope { function.signature with params := params, decorators := [], wrappers := [] }
        [] args' kwargs' m' =
          some (.error (.unexpectedKeyword function.signature.label keyword), m') := by
      simp only [parameterScope, if_neg more]
      exact bind_eq_some.mpr (.inr ⟨_, _, fails m', rfl⟩)
    exact machines.lost_scopes unexpected rfl
  · rw [named.names_eq] at byKeyword
    simp only [parameterScope, own, if_neg more, if_neg fits, bindPositional,
      bindKeywords_cons byKeyword,
      bind_assoc, pure_bind, bindCells]
    rw [Bounded.lift_bind, Bounded.lift_bind]
    refine (Mirror.Moves.bindKeywords _ named (values.bindPositional params) m m' machines).bind
      (Exec.le_refl _) (Exec.le_refl _) ?_
    intro later bound bound' middle middle' order binds machines ran ran'
    rw [Bounded.lift_bind]
    refine .left (Exec.le_refl _)
      (rfl : Run.newCell inner middle = some (.ok middle.cells.size, _)) ?_
    have order' := later.le_hold middle.cells.size inner
    have hidden :
      Env.Mirrors (.looping name handle function) (later.hold middle.cells.size inner) true
        [(handle, middle.cells.size)] [] := .hidden rfl rfl .nil
    have agrees := Mirror.Moves.bindCells function.signature.label (BoundMirror.mono order' binds)
      hidden _ _ (machines.hold rfl rfl inner)
    refine (agrees.reached (Exec.le_refl _) (Exec.le_refl _) ?_).earlier order'
    intro latest scope scope' last last' order'' scopes ended _
    refine ⟨scopes, middle.cells.size, ?_, order''.held (.inr ⟨rfl, rfl⟩)⟩
    have listed : handle ∉ bound.map Prod.fst := by
      obtain ⟨result, ends, names⟩ :=
        bindKeywords_same function.signature.label kwargs (bindPositional params args)
      cases (ends m).symm.trans ran
      rwa [names bound rfl, map_fst_bindPositional]
    rw [lookup_bindCells ended listed, List.lookup_cons_self]

/-! ## Rounds -/

/-- What calls of the recursive function are to come to: no jumps, and no promises either if calls
of the handle are joined, which forces what the recursive calls come to. -/
structure Function.Settles (function : Function) (handle : String) (value : Value) : Prop where
  noJump : ∀ ref, value ≠ .jump ref
  noPromise : function.body.JoinsCalls handle -> ∀ ref, value ≠ .promise ref

/-- A strict loop, and calls of the recursive function under watch that come to what they are to. -/
structure Function.Runs (function : Function) (name handle : String) (watch : Watch) : Prop where
  loops : function.Loops name handle
  kept : ∀ node ∈ (function.body.unloop handle name).nodes, node.assigns name = false
  strict : function.signature.isLazy = false
  settles : ∀ {ref args kwargs m value last},
    watch.visits (.apply (.closure ref (function.unloop name) []) args kwargs) m ->
    (Task.apply (.closure ref (function.unloop name) []) args kwargs).full m =
      some (.ok value, last) -> function.Settles handle value

namespace Function.Runs

variable {watch : Watch} {n : Nat} {token : Nat} {args args' : List Value} {kwargs kwargs' : Kwargs}

theorem tame (runs : function.Runs name handle watch) :
    (function.body.unloop handle name).All (Expr.Tame name handle) :=
  fun node inside =>
    ⟨runs.loops.calls node inside, runs.loops.sees node inside, runs.kept node inside⟩

/-- The recursive function is lazy exactly if the loop is. -/
theorem unloop_isLazy (runs : function.Runs name handle watch) :
    (function.unloop name).signature.isLazy = function.signature.isLazy := by
  have strict := runs.strict
  obtain ⟨params, -, recursive⟩ := runs.loops.unloop_eq
  rw [strict, recursive]
  exact Bool.or_eq_false_iff.mpr ⟨(Bool.or_eq_false_iff.mp strict).1, rfl⟩

/-- Applied to the handle, the loop comes to the jump to the next round or to its value. Run on, it
comes to what the recursive function comes to. -/
theorem joins (runs : function.Runs name handle watch)
    (performs : (Mirror.looping name handle function).Performs .all watch n)
    (round : function.GoesRound name handle watch n ref ref')
    (knows : reflection.Knows name function ref ref')
    (machines : m.Mirrors (.looping name handle function) reflection m')
    (values : ValuesMirror (.looping name handle function) reflection args args')
    (named : KwargsMirror (.looping name handle function) reflection kwargs kwargs')
    (visits : watch.visits (.apply (.closure ref' (function.unloop name) []) args' kwargs') m') :
    (Mirror.looping name handle function).Joins n reflection
      ((Task.apply (.closure ref function [])
          (.func (.loopHandle token (.closure ref function [])) :: args) kwargs).plan >>=
        fun value => .sub (.runJumps .strict value))
      (Task.apply (.closure ref' (function.unloop name) []) args' kwargs').plan m m' := by
  have suits : (Task.apply (.closure ref' (function.unloop name) []) args' kwargs').plan.Suits watch
      (function.Settles handle) m' := by
    refine ⟨fun asks => watch.asks visits asks, fun ended => ?_⟩
    rw [← Task.full_eq] at ended
    exact runs.settles visits ended
  obtain ⟨params, own, recursive⟩ := runs.loops.unloop_eq
  have fits :
    FitsEnds handle True (∀ value, function.Settles handle value -> ∀ ref, value ≠ .promise ref)
      function.body.tailPath := by
    refine fun node inside =>
      ⟨fun _ => trivial, fun isShort inner within isCall value settles => ?_⟩
    exact settles.noPromise ⟨node, inside, isShort, inner, within, isCall⟩
  refine .step (runs.loops.scopes values named machines) ?_
  intro later scope scope' middle middle' order ⟨scopes, cell, found, held⟩ machines ran ran'
  have free : scope'.lookup name = none := by
    have unlisted : name ∉ (function.unloop name).signature.params := by
      have unlisted := runs.loops.params
      rw [own] at unlisted
      rw [recursive]
      exact fun inside => unlisted (List.mem_cons_of_mem _ inside)
    rw [lookup_parameterScope ran' unlisted, List.lookup_nil]
  have stands :
    Frame.Stands name handle function ref ref' later ⟨scope, function.signature.isLazy, none⟩
      ⟨scope', (function.unloop name).signature.isLazy, none⟩ :=
    ⟨knows.mono order, ⟨scopes, runs.unloop_isLazy, .none⟩, ⟨cell, token, found, held⟩, free⟩
  have suits := suits.step ran'
  have body : (function.unloop name).body = function.body.unloop handle name := by rw [recursive]
  rw [body] at suits ⊢
  exact Expr.ends_join ⟨performs, round, runs.settles⟩ function.body runs.tame fits
    (.rounds fun value settles => settles.noJump) machines stands suits

/-- The next round comes to what the call of the recursive function comes to, if the rounds after it
do with less fuel. -/
theorem goesRound_succ (runs : function.Runs name handle watch)
    (performs : (Mirror.looping name handle function).Performs .all watch n)
    (round : function.GoesRound name handle watch n ref ref') :
    function.GoesRound name handle watch (n + 1) ref ref' := by
  intro reflection m m' token record args args' kwargs kwargs' knows machines values
    named waits alone
    visits
  rw [Task.cut_succ, Task.cut_succ]
  refine Mirror.Joins.open_left ?_
  have taken : Run.takeJump record m = some (.ok ⟨.closure ref function [],
      .func (.loopHandle token (.closure ref function [])) :: args, kwargs, none⟩,
      { m with jumps := m.jumps.setIfInBounds record .consumed }) := by
    simp only [Run.takeJump, waits]
  have unforced (m : Machine) (args : List Value) : (Task.forceForStrict .strict
      (.closure ref function []) args kwargs).full m = some (.ok (args, kwargs), m) := by
    rw [Task.full_eq]
    rfl
  refine .step_left taken (.ask_left (unforced _ _) (.step_left rfl (.open_left ?_)))
  refine runs.joins performs round knows ?_ values named visits
  exact (machines.alter_alone rfl rfl (m.alters_jump record .consumed)
    (by simp) alone).resembling_alone
    rfl rfl (Machine.resembles_trace _ _)

/-- With any fuel, the next round of the loop comes to what the recursive call comes to. -/
theorem goesRound (runs : function.Runs name handle watch)
    (performs : (Mirror.looping name handle function).Performs .all watch n) :
    function.GoesRound name handle watch n ref ref' := by
  induction n with
  | zero =>
    intro reflection m m' token record args args' kwargs kwargs' _ _ _ _ _ _ _
    exact .zero rfl rfl
  | succ n ih =>
    have fewer : (Mirror.looping name handle function).Performs .all watch n := by
      intro reflection task task' post m m' same machines visits visits'
      exact (performs same machines visits visits').mono (task.chain.cut_le (Nat.le_succ n))
        (task'.chain.cut_le (Nat.le_succ n))
    exact runs.goesRound_succ fewer (ih fewer)

/-- Called from outside, the loop comes to what the recursive function comes to. -/
theorem handles (runs : function.Runs name handle watch)
    (performs : (Mirror.looping name handle function).Performs .all watch n) :
    (Mirror.looping name handle function).Handles .all watch n := by
  rintro reflection callable callable' args args' kwargs kwargs' m m'
    ⟨ref, ref', knows, rfl, rfl⟩ values
    named machines - visits
  rw [Task.cut_succ, Task.cut_succ]
  refine Mirror.Joins.step_left rfl (.trampolined rfl rfl (.open_left ?_))
  exact runs.joins performs (runs.goesRound performs) knows
    (machines.gain_alone rfl rfl m.gains_handle (by simp)) values named visits

end Function.Runs

end Trampoline
