import Trampoline.Proofs.Escapes.Arrival
import Trampoline.Proofs.Loops.Rounds

/-!
# Programs with loops

A program with a loop at its toplevel and the program with the recursive function in its place do
the same up to the definition. From there on the name stands for the loop in the one and for the
function in the other.
-/

namespace Trampoline

open Exec

variable {mirror : Mirror} {reflection : Reflection} {m m' : Machine} {name handle : String}
  {function : Function}

/-! ## Globals that stay as they are -/

/-- One more global that keeps its values. -/
def Reflection.fix (reflection : Reflection) (name : String) (value value' : Value) : Reflection :=
  { reflection with fixed := fun other kept kept' =>
      reflection.fixed other kept kept' ∨ other = name ∧ kept = value ∧ kept' = value' }

theorem Reflection.le_fix (reflection : Reflection) (name : String) (value value' : Value) :
    reflection ≤ reflection.fix name value value' := ⟨id, id, .inl⟩

theorem Reflection.fix_self {value value' : Value} :
    (reflection.fix name value value').fixed name value value' := .inr ⟨rfl, rfl, rfl⟩

/-- A global that is assigned nowhere is defined. -/
theorem Machine.Mirrors.define_fixed (machines : m.Mirrors mirror reflection m')
    (constant : mirror.constant name)
    (unfixed : ∀ value value', ¬ reflection.fixed name value value')
    {value value' : Value} (same : value.Mirrors mirror (reflection.fix name value value') value') :
    (m.define name value).Mirrors mirror (reflection.fix name value value')
      (m'.define name value') where
  bounded := machines.bounded
  oneToOne := ⟨machines.oneToOne.eq_iff⟩
  contents {store a b} known := by
    have same := (machines.contents known).mono (reflection.le_fix name value value')
    cases store <;> exact same
  globals other := by
    simp only [global?, Machine.define, ByName.lookup_setGlobal]
    by_cases here : other = name
    · simpa only [if_pos here] using .some same
    · simp only [if_neg here]
      exact optionRel_imp (machines.globals other) fun _ _ same => same.mono (reflection.le_fix ..)
  fixed {other kept kept'} known := by
    rcases known with known | ⟨rfl, rfl, rfl⟩
    · obtain ⟨constant, found, found'⟩ := machines.fixed known
      have differs : other ≠ name := by
        rintro rfl
        exact unfixed _ _ known
      simp only [global?, Machine.define, ByName.lookup_setGlobal, if_neg differs]
      exact ⟨constant, found, found'⟩
    · simp only [global?, Machine.define, ByName.lookup_setGlobal, if_true]
      exact ⟨constant, trivial, trivial⟩
  held := machines.held
  sized := machines.sized
  aligned := machines.aligned
  stack tracked := (machines.stack tracked).mono (reflection.le_fix ..)
  passed := machines.passed
  passed' := machines.passed'
  closedOutput := machines.closedOutput
  output := machines.output

/-! ## From the definition on -/

/-- The machine after a toplevel form that defines a function. -/
def Machine.making (m : Machine) (name : String) (callable : Callable) : Machine :=
  let made := Machine.unwindTo m.stack.size { m with closures := m.closures + 1 }
  { made with trace := .defined name :: made.trace }.define name (.func callable)

/-- The definition of a function makes a closure, wraps it and defines the name. -/
theorem full_define_fn (mark : Mark) (name : String) (last : Value)
    (plain : function.signature.kind = .plain)
    {callable : Callable}
    (wraps : wrap (.closure m.closures function []) function.signature.wrappers
      { m with closures := m.closures + 1 } =
        some (.ok callable, { m with closures := m.closures + 1 })) :
    (Plan.toplevels [.define name (.fn mark function.signature function.body)] last).run
      Task.full m =
      some (.ok last, m.making name callable) := by
  have made : (Task.eval (.fn mark function.signature function.body) Frame.toplevel).full m =
      some (.ok (.func callable, Frame.toplevel), { m with closures := m.closures + 1 }) := by
    rw [Task.full_eq]
    simp only [Task.plan, Plan.run_body, makeClosure, expose_bind, expose_frame, pure_bind, plain,
      expose_within, expose_pure]
    refine (bind_apply rfl _).trans ?_
    exact bind_eq_ok.mpr ⟨_, _, bind_eq_ok.mpr ⟨_, _, wraps, rfl⟩, rfl⟩
  exact bind_eq_ok.mpr ⟨_, _, guarded_eq_some.mpr ⟨_, bind_apply made _, rfl⟩, rfl⟩

/-- Both machines make their function, and the name stands for it from then on. -/
theorem Machine.Mirrors.making
    (machines : m.Mirrors (.looping name handle function) reflection m')
    (unfixed : ∀ value value', ¬ reflection.fixed name value value') : ∃ later, reflection ≤ later ∧
      (m.making name (.looped (.closure m.closures function []))).Mirrors
        (.looping name handle function)
        later (m'.making name (.closure m'.closures (function.unloop name) [])) := by
  have order := reflection.le_pair .closure m.closures m'.closures
  have made :=
    machines.unwind order (machines.gain m.gains_closure m'.gains_closure rfl rfl .number)
  refine ⟨_, Reflection.le_trans order (Reflection.le_fix _ name
    (.func (.looped (.closure m.closures function [])))
    (.func (.closure m'.closures (function.unloop name) []))), ?_⟩
  refine (made.resembling (Machine.resembles_trace _ _) (Machine.resembles_trace _ _)).define_fixed
    rfl
    unfixed ?_
  exact .func (.special ⟨_, _, ⟨Reflection.pair_self, Reflection.fix_self⟩, rfl, rfl⟩)

namespace Function.Runs

variable {watch : Watch} {n : Nat}

/-- After the definition, the toplevel forms do the same. -/
theorem define_joins (runs : function.Runs name handle watch)
    (plain : function.signature.kind = .plain) (wrapped : function.signature.wrappers = [.looped])
    (machines : m.Mirrors (.looping name handle function) reflection m')
    (unfixed : ∀ value value', ¬ reflection.fixed name value value') {rest : List Toplevel}
    (allows : ∀ form ∈ rest, form.expr.All ((Mirror.looping name handle function).Allows false))
    (once : ∀ bindee, .define name bindee ∉ rest) {last last' : Value}
    (same : last.Mirrors (.looping name handle function) reflection last') {mark : Mark}
    (watched : (Plan.toplevels (.define name (.fn mark (function.unloop name).signature
      (function.unloop name).body) :: rest) last').Watched watch m') :
    (Mirror.looping name handle function).Joins n reflection
      (.toplevels (.define name (.fn mark function.signature function.body) :: rest) last)
      (.toplevels (.define name (.fn mark (function.unloop name).signature
        (function.unloop name).body) :: rest) last') m m' := by
  obtain ⟨params, -, recursive⟩ := runs.loops.unloop_eq
  have plain' : (function.unloop name).signature.kind = .plain := by rw [recursive]; exact plain
  have bare' : (function.unloop name).signature.wrappers = [] := by rw [recursive]
  have ran := full_define_fn (m := m) mark name last plain (by rw [wrapped]; rfl)
  have ran' := full_define_fn (m := m') mark name last' plain' (by rw [bare']; rfl)
  obtain ⟨later, order, made⟩ := machines.making unfixed
  have performs : (Mirror.looping name handle function).Performs .all watch n :=
    Mirror.performs (fun _ => .inl rfl) (fun n performs => runs.handles performs) n
  have free : ∀ other bindee, .define other bindee ∈ rest -> ¬ other = name := by
    rintro other bindee member rfl
    exact once bindee member
  have plans := Plan.toplevels_mirror allows free (same.mono order)
  rw [← List.singleton_append, Plan.toplevels_append] at watched
  rw [Mirror.Joins, ← List.singleton_append, Plan.toplevels_append, Plan.cut_bind,
    ← List.singleton_append (l := rest), Plan.toplevels_append, Plan.cut_bind]
  refine .left (Chain.cut_below _ n) ((congrFun (Plan.cut_chain_full _ n) m).trans ran) ?_
  refine .right (Chain.cut_below _ n) ((congrFun (Plan.cut_chain_full _ n) m').trans ran') ?_
  refine (plans.agrees performs (fun _ => .inl rfl) made (Watch.all_watched ..) ?_).earlier order
  exact watched.rest ran'

end Function.Runs

/-! ## Programs -/

/-- An end that mirrors another is the same end. -/
theorem Mirror.Ends.sameEnd (sized : mirror.sized = true) (printed : mirror.printed = "")
    (printed' : mirror.printed' = "") {outcome outcome' : Outcome Machine Value}
    (noEscape : ∀ error last, outcome = (.error error, last) -> error.isEscape = false)
    (ends : mirror.Ends reflection (Value.Mirrors mirror) outcome outcome') :
    SameEnd outcome outcome' := by
  have output {m m' : Machine} {later : Reflection} (machines : m.Mirrors mirror later m') :
      m'.output = m.output := by
    obtain ⟨text, shown, shown'⟩ := machines.output
    rw [shown, shown', printed, printed']
  cases ends with
  | value order same machines => exact ⟨machines.repr_eq (.inl sized) same, output machines⟩
  | error order same kept kept' machines =>
    cases same with
    | plain => exact ⟨rfl, output machines⟩
    | escape => cases noEscape _ _ rfl

/-- Computations that agree come to the same end, if nothing is lost and nothing escapes. -/
theorem Mirror.Agrees.sameEnd {run run' : Run Value} (sized : mirror.sized = true)
    (printed : mirror.printed = "") (printed' : mirror.printed' = "")
    (agrees : mirror.Agrees reflection (.lift run) (.lift run') m m' (Value.Mirrors mirror))
    (keeps : ∀ outcome, run m = some outcome -> ¬ mirror.Lost outcome)
    (keeps' : ∀ outcome', run' m' = some outcome' -> ¬ mirror.Lost' outcome')
    (noEscape : ∀ error last, run m = some (.error error, last) -> error.isEscape = false) :
    Option.Rel SameEnd (run m) (run' m') := by
  have together := agrees.together keeps keeps'
  generalize run m = ended at together noEscape
  generalize run' m' = ended' at together
  cases together with
  | none => exact .none
  | some ends =>
    refine .some (ends.sameEnd sized printed printed' ?_)
    rintro error last rfl
    exact noEscape error last rfl

section Outcomes

variable {program : Program} {errors : EvalError -> Bool} {closedOutput : Bool}

/-- What the program comes to on the machine, if it ends. -/
noncomputable def Program.outcome? (program : Program) (m : Machine) :
    Option (Outcome Machine Value) :=
  (Plan.toplevels program.top .nil).run Task.full m

/-- Programs match if they end together on a new machine, and the ends belong together. -/
theorem Program.Matches.of_outcome? {program' : Program}
    {rel : Outcome Machine Value -> Outcome Machine Value -> Prop}
    (together : Option.Rel rel (program.outcome? (.start closedOutput))
      (program'.outcome? (.start closedOutput))) : program.Matches program' rel closedOutput := by
  constructor
  · intro outcome ends
    have ended : program.outcome? (.start closedOutput) = some outcome :=
      Program.endsOn_iff_full.mp ends
    rw [ended] at together
    generalize ended' : program'.outcome? (.start closedOutput) = found at together
    cases together with
    | some same => exact ⟨_, Program.endsOn_iff_full.mpr ended', same⟩
  · intro other ends
    have ended : program'.outcome? (.start closedOutput) = some other :=
      Program.endsOn_iff_full.mp ends
    rw [ended] at together
    generalize ended' : program.outcome? (.start closedOutput) = found at together
    cases together with
    | some same => exact ⟨_, Program.endsOn_iff_full.mpr ended', same⟩

/-- No run of a program on a new machine ends with an escape. -/
theorem Program.outcome?_not_escape {error : EvalError} {last : Machine}
    (ended : program.outcome? (.startLetting errors closedOutput) = some (.error error, last)) :
    error.isEscape = false := by
  obtain ⟨fuel, ran⟩ := Program.endsOn_iff_full.mpr ended
  have fails : (Entry.program program).Fails fuel (.startLetting errors closedOutput) error :=
    ⟨last, ran⟩
  exact fails.not_escape fun tag => by simp [Machine.running, Machine.startLetting, Machine.start]

/-- A run that lets errors pass, beside one that handles them. -/
def Mirror.letting (errors : EvalError -> Bool)
    (stays : ∀ {error}, errors error = true -> error.isEscape = false) : Mirror :=
  { Mirror.faithful (fun _ => True) fun _ => false with
    lost' := errors
    lost_stays' := stays
    invalidated_lost' := fun untracked => nomatch untracked }

/-- A program that never raises the errors ends in the same way where handlers let them pass. -/
theorem Program.outcome?_letting (stays : ∀ {error}, errors error = true -> error.isEscape = false)
    (never : ¬ program.Raises errors closedOutput) :
    Option.Rel SameEnd (program.outcome? (.start closedOutput))
      (program.outcome? (.startLetting errors closedOutput)) := by
  have machines := Machine.Mirrors.start (.letting errors stays) rfl rfl rfl rfl (fun _ _ => id)
    closedOutput
  have plans : (Plan.toplevels program.top .nil).Mirrors (.letting errors stays) .start
      (Plan.toplevels program.top .nil) (Value.Mirrors (.letting errors stays)) :=
    Plan.toplevels_mirror (fun _ _ _ _ => ⟨trivial, by simp⟩) (fun _ _ _ => id) .nil
  have agrees := Mirror.Agrees.full (Mirror.Agrees.of_plans rfl (fun _ _ _ => id) plans machines)
  rw [Plan.full_chain] at agrees
  have lets : (fun error => (Mirror.letting errors stays).lost' error ||
      (Mirror.letting errors stays).passed error) = errors := funext fun error => Bool.or_false _
  rw [lets] at agrees
  refine agrees.sameEnd rfl rfl rfl (fun outcome _ => Mirror.not_lost (fun _ => rfl) outcome) ?_ ?_
  · rintro ⟨error | value, last⟩ ended lost
    · exact never ⟨error, last, lost.1, Program.endsOn_iff_full.mpr ended⟩
    · exact lost
  · intro error last ended
    exact @Program.outcome?_not_escape _ (fun _ => false) _ _ _ ended

/-- Forms that do not assign the name leave a machine that mirrors itself. -/
theorem Program.EndsOn.looping (handle : String) (function : Function) {before : Program}
    {value : Value} {last : Machine} (kept : ∀ node ∈ before.nodes, node.assigns name = false)
    (ends : before.EndsOn (.startLetting EvalError.tellsLoops closedOutput) (.ok value, last)) :
    ∃ reflection : Reflection, (∀ value value', ¬ reflection.fixed name value value') ∧
      value.Mirrors (.looping name handle function) reflection value ∧
      last.Mirrors (.looping name handle function) reflection last := by
  have same : (Mirror.faithful (fun e => e.assigns name = false) EvalError.tellsLoops).Ends .start
      (Value.Mirrors (.faithful _ _)) (.ok value, last) (.ok value, last) := ends.mirrors kept
  cases same with
  | @value later _ _ _ _ _ same machines =>
    have passed (error : EvalError) : (false || error.tellsLoops) = (error.tellsLoops || false) :=
      (Bool.or_comm _ _)
    have within {store : Store} {a b : Nat} (known : later.pairs store a b) :
        later.bare.pairs store a b := known
    refine ⟨later.bare, fun _ _ => id, ?_, ?_⟩
    · refine same.across within ?_ (fun _ => id) fun _ _ _ => id
      exact fun _ fits => fits
    · exact machines.across (fun _ fits => fits) (fun _ => id) (fun _ _ _ => id) rfl rfl rfl passed
        passed rfl rfl

/-- Where the errors pass that loops and recursive functions may differ by, the program with the
loop ends as the program with the recursive function does. -/
theorem Program.HasLoop.outcome? (has : program.HasLoop name handle function)
    (wrapped : function.signature.wrappers = [.looped]) (strict : function.signature.isLazy = false)
    (settles : ∀ {ref args kwargs middle value last}, (program.unloop name).GetsTo
        (.startLetting EvalError.tellsLoops closedOutput)
        (.apply (.closure ref (function.unloop name) []) args kwargs) middle ->
      (Task.apply (.closure ref (function.unloop name) []) args kwargs).full middle =
        some (.ok value, last) -> function.Settles handle value)
    (never : ¬ program.Raises EvalError.tellsLoops closedOutput)
    (never' : ¬ (program.unloop name).Raises EvalError.tellsLoops closedOutput) :
    Option.Rel SameEnd (program.outcome? (.startLetting EvalError.tellsLoops closedOutput))
      ((program.unloop name).outcome? (.startLetting EvalError.tellsLoops closedOutput)) := by
  obtain ⟨mark, before, after, top, notBefore, notAfter⟩ := has.defined
  have top' :
    (program.unloop name).top = before ++ .define name (.fn mark (function.unloop name).signature
      (function.unloop name).body) :: after := by
    rw [unloop, top]
    simp only [List.map_append, List.map_cons, Toplevel.map_unloop notBefore,
      Toplevel.map_unloop notAfter, Toplevel.unloop, if_true, Expr.unloopFunction]
  have runs : function.Runs name handle
      ((program.unloop name).watch (.startLetting EvalError.tellsLoops closedOutput)) := by
    refine ⟨has.loops, fun node inside => has.kept node ?_, strict, settles⟩
    refine List.mem_flatMap.mpr ⟨.define name (.fn mark (function.unloop name).signature
      (function.unloop name).body), ?_, ?_⟩
    · rw [top']
      simp
    · obtain ⟨params, -, recursive⟩ := has.loops.unloop_eq
      rw [recursive]
      exact List.mem_cons_of_mem _ inside
  have ofForm : ∀ form ∈ before ++ after, ∀ node ∈ form.expr.nodes, node.assigns name = false := by
    intro form member node inside
    refine has.kept node (List.mem_flatMap.mpr ⟨form, ?_, inside⟩)
    rw [top']
    rcases List.mem_append.mp member with first | second
    · exact List.mem_append_left _ first
    · exact List.mem_append_right _ (List.mem_cons_of_mem _ second)
  have whole : program.outcome? = (Plan.toplevels before .nil).run Task.full >>= fun value =>
      (Plan.toplevels (.define name (.fn mark function.signature function.body) :: after) value).run
        Task.full := by
    funext m
    rw [Program.outcome?, top, Plan.toplevels_append, Plan.run_bind]
  have whole' :
    (program.unloop name).outcome? = (Plan.toplevels before .nil).run Task.full >>= fun value =>
      (Plan.toplevels (.define name (.fn mark (function.unloop name).signature
        (function.unloop name).body) :: after) value).run Task.full := by
    funext m
    rw [Program.outcome?, top', Plan.toplevels_append, Plan.run_bind]
  have watched := (program.unloop name).watched (.startLetting EvalError.tellsLoops closedOutput)
  rw [top', Plan.toplevels_append] at watched
  have keeps {program : Program} (never : ¬ program.Raises EvalError.tellsLoops closedOutput) :
      ∀ outcome,
        program.outcome? (.startLetting EvalError.tellsLoops closedOutput) = some outcome ->
        ¬ (Mirror.looping name handle function).Lost outcome := by
    rintro ⟨error | value, last⟩ ended lost
    · exact never ⟨error, last, lost.1, Program.endsOn_iff_full.mpr ended⟩
    · exact lost
  have keeps' := keeps never'
  have keeps := keeps never
  have noEscape (error : EvalError) (last : Machine) (ended : program.outcome?
      (.startLetting EvalError.tellsLoops closedOutput) = some (.error error, last)) :=
    Program.outcome?_not_escape ended
  rw [whole] at keeps noEscape ⊢
  rw [whole'] at keeps' ⊢
  rcases ran : (Plan.toplevels before .nil).run Task.full
    (.startLetting EvalError.tellsLoops closedOutput) with _ | ⟨error | value, middle⟩
  · show Option.Rel SameEnd (Exec.bind _ _ _) (Exec.bind _ _ _)
    simp only [Exec.bind, ran]
    exact .none
  · show Option.Rel SameEnd (Exec.bind _ _ _) (Exec.bind _ _ _)
    simp only [Exec.bind, ran]
    exact .some ⟨rfl, rfl⟩
  · rw [bind_apply ran] at keeps keeps' noEscape ⊢
    rw [bind_apply ran]
    have ends : (⟨before, program.counters⟩ : Program).EndsOn
        (.startLetting EvalError.tellsLoops closedOutput) (.ok value, middle) :=
      Program.endsOn_iff_full.mpr ran
    have keptBefore : ∀ node ∈ (⟨before, program.counters⟩ : Program).nodes,
      node.assigns name = false := by
      intro node inside
      obtain ⟨form, member, inside⟩ := List.mem_flatMap.mp inside
      exact ofForm form (List.mem_append_left _ member) node inside
    have allows : ∀ form ∈ after,
      form.expr.All ((Mirror.looping name handle function).Allows false) :=
      fun form member node inside =>
        ⟨ofForm form (List.mem_append_right _ member) node inside, by simp⟩
    obtain ⟨reflection, unfixed, same, machines⟩ := ends.looping handle function keptBefore
    have agrees := Mirror.Agrees.full fun n => runs.define_joins (n := n) has.plain wrapped machines
      unfixed allows notAfter same (watched.rest ran)
    rw [Plan.full_chain, Plan.full_chain] at agrees
    exact agrees.sameEnd rfl rfl rfl keeps keeps' noEscape

/-- A program with a loop matches the program with the recursive function, if its calls come to what
they are to and neither program raises errors that the two may differ by. -/
theorem Program.HasLoop.matches (has : program.HasLoop name handle function)
    (wrapped : function.signature.wrappers = [.looped]) (strict : function.signature.isLazy = false)
    (settles : ∀ {ref args kwargs middle value last}, (program.unloop name).GetsTo
        (.startLetting EvalError.tellsLoops closedOutput)
        (.apply (.closure ref (function.unloop name) []) args kwargs) middle ->
      (Task.apply (.closure ref (function.unloop name) []) args kwargs).full middle =
        some (.ok value, last) -> function.Settles handle value)
    (never : ¬ program.Raises EvalError.tellsLoops closedOutput)
    (never' : ¬ (program.unloop name).Raises EvalError.tellsLoops closedOutput) :
    program.Matches (program.unloop name) SameEnd closedOutput := by
  have stays {error : EvalError} (tells : error.tellsLoops = true) : error.isEscape = false := by
    cases error <;> first | rfl | cases tells
  have first := Program.outcome?_letting stays never
  have both := has.outcome? wrapped strict settles never never'
  have second := Program.outcome?_letting stays never'
  refine .of_outcome? ?_
  generalize program.outcome? (.start closedOutput) = outcome at first ⊢
  generalize (program.unloop name).outcome? (.start closedOutput) = outcome' at second ⊢
  generalize program.outcome? (.startLetting EvalError.tellsLoops closedOutput) = ended
    at first both
  generalize (program.unloop name).outcome? (.startLetting EvalError.tellsLoops closedOutput) =
    ended'
    at both second
  cases first with
  | none =>
    cases both
    cases second
    exact .none
  | some same =>
    cases both with
    | some same' =>
      cases second with
      | some same'' => exact .some ((same.trans same').trans same''.symm)

end Outcomes

end Trampoline
