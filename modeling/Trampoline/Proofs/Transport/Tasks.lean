import Trampoline.Proofs.Transport.Scopes

/-!
# Tasks that mirror each other

The plans of tasks that mirror each other do so, part by part. What is left open is how special
callables are applied; if that agrees, then whatever evaluation is asked for agrees.
-/

namespace Trampoline

open Exec

variable {α β γ δ : Type} {mirror : Mirror} {reflection later : Reflection} {veiled : Bool}

/-! ## Parts of plans -/

namespace Plan.Mirrors

variable {mid : Reflection -> γ -> δ -> Prop} {post : Reflection -> α -> β -> Prop}

theorem lift {run : Run α} {run' : Run β} (moves : mirror.Moves reflection run run' post) :
    (Plan.lift run).Mirrors mirror reflection (Plan.lift run') post :=
  .step (fun m m' machines _ => moves m m' machines) fun _ _ _ _ known => .done known

variable {run : Run γ} {run' : Run δ} {next : γ -> Plan α} {next' : δ -> Plan β}
  {view : Machine -> γ} {view' : Machine -> δ} {task task' : Task} {error : EvalError}

/-- Plans mirror each other after steps that move alike. -/
theorem moving (moves : mirror.Moves reflection run run' mid)
    (after : ∀ later value value', reflection ≤ later -> mid later value value' ->
      (next value).Mirrors mirror later (next' value') post) :
    (Plan.lift run >>= next).Mirrors mirror reflection (Plan.lift run' >>= next') post :=
  .step (fun m m' machines _ => moves m m' machines) after

/-- Reading what the machines have in common. -/
theorem reading (mid : Reflection -> γ -> δ -> Prop)
    (same : ∀ {m m'}, m.Mirrors mirror reflection m' -> mid reflection (view m) (view' m'))
    (after : ∀ later value value', reflection ≤ later -> mid later value value' ->
      (next value).Mirrors mirror later (next' value') post) :
    (Plan.lift (Exec.read view) >>= next).Mirrors mirror reflection
      (Plan.lift (Exec.read view') >>= next') post :=
  .moving (.read same) after

/-- Reading what the machines have in common if they show values in the same way. -/
theorem showing (mid : Reflection -> γ -> δ -> Prop)
    (same : ∀ {m m'}, m.Mirrors mirror reflection m' ->
      (∀ value, Exec.Shows value (Exec.read view) -> mirror.Comparable value m) ->
      mid reflection (view m) (view' m'))
    (after : ∀ later value value', reflection ≤ later -> mid later value value' ->
      (next value).Mirrors mirror later (next' value') post) :
    (Plan.lift (Exec.read view) >>= next).Mirrors mirror reflection
      (Plan.lift (Exec.read view') >>= next') post :=
  .step (fun _ _ machines comparable => .value rfl rfl (Reflection.le_refl _)
    (same machines comparable) machines) after

theorem sub {post : Reflection -> task.Answer -> task'.Answer -> Prop}
    (asks : task.Mirrors mirror reflection task' post) :
    (Plan.sub task).Mirrors mirror reflection (Plan.sub task') post :=
  .ask asks fun _ _ _ _ known => .done known

/-- Plans mirror each other after tasks that do. -/
theorem asking {mid : Reflection -> task.Answer -> task'.Answer -> Prop}
    {next : task.Answer -> Plan α} {next' : task'.Answer -> Plan β}
    (asks : task.Mirrors mirror reflection task' mid)
    (after : ∀ later answer answer', reflection ≤ later -> mid later answer answer' ->
      (next answer).Mirrors mirror later (next' answer') post) :
    (Plan.sub task >>= next).Mirrors mirror reflection (Plan.sub task' >>= next') post :=
  .ask asks after

theorem pure {value : α} {value' : β} (known : post reflection value value') :
    (Pure.pure value : Plan α).Mirrors mirror reflection (Pure.pure value' : Plan β) post :=
  .done known

/-- Parts that go on after values and after errors. -/
theorem settling (mid : Reflection -> γ -> δ -> Prop) {inner : Plan γ} {inner' : Plan δ}
    {next : Except EvalError γ -> Plan α} {next' : Except EvalError δ -> Plan β}
    (inside : inner.Mirrors mirror reflection inner' mid)
    (relays : ∀ error, error.isEscape = false -> (next (.error error)).Relays error ∧
      (next' (.error error)).Relays error)
    (afterOk : ∀ later value value', reflection ≤ later -> mid later value value' ->
      (next (.ok value)).Mirrors mirror later (next' (.ok value')) post)
    (afterError : ∀ later error error', reflection ≤ later -> error.Mirrors mirror later error' ->
      mirror.lost error = false -> mirror.lost' error' = false ->
      (next (.error error)).Mirrors mirror later (next' (.error error')) post) :
    (Plan.settle inner next).Mirrors mirror reflection (Plan.settle inner' next') post :=
  .settle inside (fun error lost => (relays error (mirror.lost_stays lost)).1)
    (fun error lost => (relays error (mirror.lost_stays' lost)).2) afterOk afterError

/-- If the first side is lost, the other may do anything. -/
theorem losing (lost : mirror.lost error = true) :
    (Plan.lift (Exec.fail error : Run α)).Mirrors mirror reflection
      (Plan.lift run' >>= next') post := by
  have fails : ∀ m m', m.Mirrors mirror reflection m' ->
      mirror.Agrees reflection (.lift (Exec.fail error : Run α)) (.lift run') m m'
        fun _ _ _ => False := by
    intro m m' machines
    have isLost : mirror.Lost ((.error error, m) : Outcome Machine α) :=
      ⟨lost, by simp only [machines.passed, lost, Bool.true_or]⟩
    refine ⟨?_, fun _ _ => .inr ⟨_, rfl, .inl isLost⟩⟩
    rintro outcome ⟨⟩
    exact .inl isLost
  exact .step (fun m m' machines _ => fails m m' machines) fun _ _ _ _ => False.elim

/-- Nothing is compared after an error of the second machine that is lost. -/
theorem losing' (lost : mirror.lost' error = true) :
    (Plan.lift run >>= next).Mirrors mirror reflection
      (Plan.lift (Exec.fail error : Run β)) post := by
  have fails : ∀ m m', m.Mirrors mirror reflection m' ->
      mirror.Agrees reflection (.lift run) (.lift (Exec.fail error : Run β)) m m'
        fun _ _ _ => False := by
    intro m m' machines
    have isLost : mirror.Lost' ((.error error, m') : Outcome Machine β) :=
      ⟨lost, by simp only [machines.passed', lost, Bool.true_or]⟩
    refine ⟨fun _ _ => .inr ⟨_, rfl, .inl isLost⟩, ?_⟩
    rintro outcome ⟨⟩
    exact .inl isLost
  exact .step (fun m m' machines _ => fails m m' machines) fun _ _ _ _ => False.elim

/-- Tests that come out alike on both sides. -/
theorem ite {test test' : Prop} [Decidable test] [Decidable test'] (same : test' ↔ test)
    {first second : Plan α} {first' second' : Plan β}
    (yes : test -> first.Mirrors mirror reflection first' post)
    (no : ¬ test -> second.Mirrors mirror reflection second' post) :
    (if test then first else second).Mirrors mirror reflection
      (if test' then first' else second') post := by
  by_cases holds : test
  · rw [if_pos holds, if_pos (same.mpr holds)]
    exact yes holds
  · rw [if_neg holds, if_neg fun holds' => holds (same.mp holds')]
    exact no holds

end Plan.Mirrors

/-- Names for cells that stand for each other are bound in frames alike. -/
theorem Frame.Mirrors.bindName {frame frame' : Frame} {name : String} {ref ref' : Nat}
    (frames : frame.Mirrors mirror reflection veiled frame')
    (known : reflection.pairs .cell ref ref') :
    Frame.Mirrors mirror reflection veiled { frame with env := (name, ref) :: frame.env }
      { frame' with env := (name, ref') :: frame'.env } :=
  ⟨.cons known frames.env, frames.isLazy, frames.extent⟩

namespace Task

open Plan

variable {frame frame' : Frame}

/-! ## Expressions -/

variable {e : Expr} {policy : Policy} {es : List Expr} {last last' value value' : Value}
  {values values' : List Value} {variant : Variant} {function : Function} {env env' : Env}
  {isLazy : Bool} {ref ref' : Nat} {callable callable' : Callable}

/-- An expression is evaluated alike in frames that are alike. -/
theorem eval_mirrors (allows : e.All (mirror.Allows veiled))
    (frames : frame.Mirrors mirror reflection veiled frame') :
    (eval e frame).plan.Mirrors mirror reflection (eval e frame').plan
      (InFrame mirror veiled (Value.Mirrors mirror)) := by
  cases e with
  | lit mark value => exact .pure ⟨.ofLiteral value, frames⟩
  | var mark name =>
    refine .moving (.lookup allows.self frames) fun later value value' order same => ?_
    have frames := frames.mono order
    refine .ite (by rw [frames.isLazy]) (fun _ => ?_) fun _ => .pure ⟨same, frames⟩
    exact .asking (.force same) fun later value value' order same => .pure ⟨same, frames.mono order⟩
  | fn mark signature body => exact .lift (.makeClosure (Expr.all_fn.mp allows).2 frames)
  | call mark func args kwargs =>
    obtain ⟨-, ofFunc, ofArgs, ofKwargs⟩ := Expr.all_call.mp allows
    refine .asking (.evalForced veiled ofFunc frames) ?_
    rintro later ⟨value, frame⟩ ⟨value', frame'⟩ - ⟨same, frames⟩
    refine .moving (.callable same) fun later callee callee' order same => ?_
    have frames := frames.mono order
    have lazily : (frame'.isLazy && callee'.isLazy) = (frame.isLazy && callee.isLazy) := by
      rw [frames.isLazy, same.resembles.isLazy]
    dsimp only
    rw [lazily]
    refine .asking (.operands veiled ofArgs frames) ?_
    rintro later ⟨args, frame⟩ ⟨args', frame'⟩ order ⟨values, frames⟩
    have same := same.mono order
    refine .asking (.keywords veiled ofKwargs frames) ?_
    rintro later ⟨kwargs, frame⟩ ⟨kwargs', frame'⟩ order ⟨named, frames⟩
    refine .asking (.apply (same.mono order) (values.mono order) named) ?_
    exact fun later value value' order same => .pure ⟨same, frames.mono order⟩
  | cond mark arms alt =>
    obtain ⟨-, ofArms, ofAlt⟩ := Expr.all_cond.mp allows
    exact .sub (.evalArms veiled ofArms ofAlt frames)
  | short mark op es =>
    exact .sub (.evalShort veiled (Expr.all_short.mp allows).2 .bool frames)
  | seq mark items =>
    refine .asking (.evalItems veiled (Expr.all_seq.mp allows).2 .nil frames) ?_
    rintro later ⟨value, last⟩ ⟨value', last'⟩ order ⟨same, lasts⟩
    exact .pure ⟨same, frames.env.mono order, lasts.isLazy, lasts.extent⟩
  | bind mark name bindee =>
    have ofBindee := (Expr.all_bind.mp allows).2
    cases bindee with
    | fn mark signature code =>
      refine .moving (.newCell .nil) fun later ref ref' order known => ?_
      refine .asking (.eval veiled ofBindee ((frames.mono order).bindName known)) ?_
      rintro later ⟨value, frame⟩ ⟨value', frame'⟩ order ⟨same, frames⟩
      refine .moving (.setCell (order.pairs known) same) fun later _ _ order _ => ?_
      exact .pure ⟨.nil, frames.mono order⟩
    | _ =>
      refine .asking (.operand veiled ofBindee frames) ?_
      rintro later ⟨value, frame⟩ ⟨value', frame'⟩ order ⟨same, frames⟩
      refine .moving (.newCell same) fun later ref ref' order known => ?_
      exact .pure ⟨.nil, (frames.mono order).bindName known⟩
  | assign mark name bindee =>
    refine .asking (.operand veiled (Expr.all_assign.mp allows).2 frames) ?_
    rintro later ⟨value, frame⟩ ⟨value', frame'⟩ order ⟨same, frames⟩
    refine .moving (.assign allows.self frames same) fun later _ _ order _ => ?_
    exact .pure ⟨.nil, frames.mono order⟩
  | loop mark test body =>
    obtain ⟨-, ofTest, ofBody⟩ := Expr.all_loop.mp allows
    exact .sub (.evalLoop veiled ofTest ofBody frames)
  | jump mark func args kwargs cc =>
    obtain ⟨-, ofFunc, ofArgs, ofKwargs, ofCc⟩ := Expr.all_jump.mp allows
    refine .asking (.evalForced veiled ofFunc frames) ?_
    rintro later ⟨value, frame⟩ ⟨value', frame'⟩ - ⟨same, frames⟩
    refine .moving (.callable same) fun later target target' order same => ?_
    refine .asking (.operands veiled ofArgs (frames.mono order)) ?_
    rintro later ⟨args, frame⟩ ⟨args', frame'⟩ order ⟨values, frames⟩
    have same := same.mono order
    refine .asking (.keywords veiled ofKwargs frames) ?_
    rintro later ⟨kwargs, frame⟩ ⟨kwargs', frame'⟩ order ⟨named, frames⟩
    have same := same.mono order
    have values := values.mono order
    refine .asking (.evalContinuation veiled ofCc frames) ?_
    rintro later ⟨cc, frame⟩ ⟨cc', frame'⟩ order ⟨conts, frames⟩
    refine .moving (.newJump ⟨same.mono order, values.mono order, named.mono order, conts⟩) ?_
    exact fun later value value' order same => .pure ⟨same, frames.mono order⟩
  | capture mark binders e =>
    exact .lift (.fail (.plain rfl fun _ => ⟨_, rfl, allows.self.node⟩))

/-- An expression is evaluated and forced alike in frames that are alike. -/
theorem evalForced_mirrors (allows : e.All (mirror.Allows veiled))
    (frames : frame.Mirrors mirror reflection veiled frame') :
    (evalForced e frame).plan.Mirrors mirror reflection (evalForced e frame').plan
      (InFrame mirror veiled (Value.Mirrors mirror)) := by
  refine .asking (.eval veiled allows frames) ?_
  rintro later ⟨value, frame⟩ ⟨value', frame'⟩ - ⟨same, frames⟩
  exact .asking (.force same) fun later value value' order same => .pure ⟨same, frames.mono order⟩

/-- The continuation of a jump is evaluated alike. -/
theorem evalContinuation_mirrors {cc : Option Expr}
    (allows : AllOf (mirror.Allows veiled) (Option.toList cc))
    (frames : frame.Mirrors mirror reflection veiled frame') :
    (evalContinuation cc frame).plan.Mirrors mirror reflection (evalContinuation cc frame').plan
      (InFrame mirror veiled fun later => Option.Rel (Value.Mirrors mirror later)) := by
  cases cc with
  | none => exact .pure ⟨.none, frames⟩
  | some e =>
    refine .asking (.evalForced veiled (allOf_cons.mp allows).1 frames) ?_
    rintro later ⟨value, frame⟩ ⟨value', frame'⟩ - ⟨same, frames⟩
    exact .pure ⟨.some same, frames⟩

/-- An operand is evaluated alike, whatever the policy. -/
theorem operand_mirrors (allows : e.All (mirror.Allows veiled))
    (frames : frame.Mirrors mirror reflection veiled frame') :
    (operand policy e frame).plan.Mirrors mirror reflection (operand policy e frame').plan
      (InFrame mirror veiled (Value.Mirrors mirror)) := by
  refine .ite (by rw [frames.isLazy]) (fun _ => .sub (.eval veiled allows frames)) fun _ => ?_
  cases policy with
  | strict => exact .sub (.evalForced veiled allows frames)
  | delay => exact .sub (.delayed veiled allows frames)

/-- An expression is delayed alike, as promises that stand for each other. -/
theorem delayed_mirrors (allows : e.All (mirror.Allows veiled))
    (frames : frame.Mirrors mirror reflection veiled frame') :
    (delayed e frame).plan.Mirrors mirror reflection (delayed e frame').plan
      (InFrame mirror veiled (Value.Mirrors mirror)) := by
  cases e with
  | var mark name =>
    refine .moving (.lookup allows.self frames) fun later value value' order same => ?_
    exact .pure ⟨same, frames.mono order⟩
  | lit mark value => exact .sub (.eval veiled allows frames)
  | fn mark signature body => exact .sub (.eval veiled allows frames)
  | _ =>
    refine .moving (.newPromise (.expr veiled allows frames.env)) ?_
    exact fun later value value' order same => .pure ⟨same, frames.mono order⟩

/-- Operands are evaluated alike, one after the other. -/
theorem operands_mirrors (allows : AllOf (mirror.Allows veiled) es)
    (frames : frame.Mirrors mirror reflection veiled frame') :
    (operands policy es frame).plan.Mirrors mirror reflection (operands policy es frame').plan
      (InFrame mirror veiled (ValuesMirror mirror)) := by
  cases es with
  | nil => exact .pure ⟨.nil, frames⟩
  | cons e rest =>
    obtain ⟨ofFirst, ofRest⟩ := allOf_cons.mp allows
    refine .asking (.operand veiled ofFirst frames) ?_
    rintro later ⟨value, frame⟩ ⟨value', frame'⟩ - ⟨same, frames⟩
    refine .asking (.operands veiled ofRest frames) ?_
    rintro later ⟨others, frame⟩ ⟨others', frame'⟩ order ⟨values, frames⟩
    exact .pure ⟨.cons (same.mono order) values, frames⟩

/-- Keyword operands are evaluated alike, one after the other. -/
theorem keywords_mirrors {es : List (String × Expr)}
    (allows : AllOfKwargs (mirror.Allows veiled) es)
    (frames : frame.Mirrors mirror reflection veiled frame') :
    (keywords policy es frame).plan.Mirrors mirror reflection (keywords policy es frame').plan
      (InFrame mirror veiled (KwargsMirror mirror)) := by
  cases es with
  | nil => exact .pure ⟨.nil, frames⟩
  | cons named rest =>
    obtain ⟨ofFirst, ofRest⟩ := allOfKwargs_cons.mp allows
    refine .asking (.operand veiled ofFirst frames) ?_
    rintro later ⟨value, frame⟩ ⟨value', frame'⟩ - ⟨same, frames⟩
    refine .asking (.keywords veiled ofRest frames) ?_
    rintro later ⟨others, frame⟩ ⟨others', frame'⟩ order ⟨values, frames⟩
    exact .pure ⟨.cons ⟨rfl, same.mono order⟩ values, frames⟩

/-- The same arm of a conditional is chosen. -/
theorem evalArms_mirrors {arms : List (Expr × Expr)} {alt : Option Expr}
    (ofArms : AllOfArms (mirror.Allows veiled) arms)
    (ofAlt : AllOf (mirror.Allows veiled) (Option.toList alt))
    (frames : frame.Mirrors mirror reflection veiled frame') :
    (evalArms arms alt frame).plan.Mirrors mirror reflection (evalArms arms alt frame').plan
      (InFrame mirror veiled (Value.Mirrors mirror)) := by
  cases arms with
  | nil =>
    cases alt with
    | none => exact .pure ⟨.nil, frames⟩
    | some e => exact .sub (.eval veiled (allOf_cons.mp ofAlt).1 frames)
  | cons arm rest =>
    obtain ⟨ofTest, ofBody, ofRest⟩ := allOfArms_cons.mp ofArms
    refine .asking (.evalForced veiled ofTest frames) ?_
    rintro later ⟨value, frame⟩ ⟨value', frame'⟩ - ⟨same, frames⟩
    refine .ite (by rw [same.truthy_eq]) (fun _ => ?_) fun _ => ?_
    · exact .sub (.eval veiled ofBody frames)
    · exact .sub (.evalArms veiled ofRest ofAlt frames)

/-- A connective stops at the same operand. -/
theorem evalShort_mirrors {op : Connective}
    (allows : AllOf (mirror.Allows veiled) es) (same : last.Mirrors mirror reflection last')
    (frames : frame.Mirrors mirror reflection veiled frame') :
    (evalShort op es last frame).plan.Mirrors mirror reflection (evalShort op es last' frame').plan
      (InFrame mirror veiled (Value.Mirrors mirror)) := by
  cases es with
  | nil => exact .pure ⟨same, frames⟩
  | cons e rest =>
    obtain ⟨ofFirst, ofRest⟩ := allOf_cons.mp allows
    refine .asking (.evalForced veiled ofFirst frames) ?_
    rintro later ⟨value, frame⟩ ⟨value', frame'⟩ - ⟨same, frames⟩
    refine .ite (by rw [same.truthy_eq]) (fun _ => .pure ⟨same, frames⟩) fun _ => ?_
    exact .sub (.evalShort veiled ofRest same frames)

/-- A block is evaluated alike, item after item. -/
theorem evalItems_mirrors (allows : AllOf (mirror.Allows veiled) es)
    (same : last.Mirrors mirror reflection last')
    (frames : frame.Mirrors mirror reflection veiled frame') :
    (evalItems es last frame).plan.Mirrors mirror reflection (evalItems es last' frame').plan
      (InFrame mirror veiled (Value.Mirrors mirror)) := by
  cases es with
  | nil => exact .pure ⟨same, frames⟩
  | cons e rest =>
    obtain ⟨ofFirst, ofRest⟩ := allOf_cons.mp allows
    refine .asking (.eval veiled ofFirst frames) ?_
    rintro later ⟨value, frame⟩ ⟨value', frame'⟩ - ⟨same, frames⟩
    exact .sub (.evalItems veiled ofRest same frames)

/-- A loop takes the same rounds. -/
theorem evalLoop_mirrors {test body : Expr} (ofTest : test.All (mirror.Allows veiled))
    (ofBody : body.All (mirror.Allows veiled))
    (frames : frame.Mirrors mirror reflection veiled frame') :
    (evalLoop test body frame).plan.Mirrors mirror reflection (evalLoop test body frame').plan
      (InFrame mirror veiled (Value.Mirrors mirror)) := by
  refine .asking (.evalForced veiled ofTest frames) ?_
  rintro later ⟨value, frame⟩ ⟨value', frame'⟩ - ⟨same, frames⟩
  refine .ite (by rw [same.truthy_eq]) (fun _ => ?_) fun _ => .pure ⟨.nil, frames⟩
  refine .asking (.eval veiled ofBody frames) ?_
  rintro later ⟨value, frame⟩ ⟨value', frame'⟩ - ⟨-, frames⟩
  exact .sub (.evalLoop veiled ofTest ofBody frames)

/-! ## Promises -/

/-- Values that are the same up to numbers are forced alike. -/
theorem force_mirrors (same : value.Mirrors mirror reflection value') :
    (force value).plan.Mirrors mirror reflection (force value').plan (Value.Mirrors mirror) := by
  have whole := same
  cases same with
  | @promise ref ref' known =>
    refine .moving (.read fun machines => machines.promise known) ?_
    rintro later state state' order same
    have known := order.pairs known
    cases same with
    | forced same => exact .pure same
    | forcing => exact .lift (.failing rfl (by simp))
    | @pending thunk thunk' same =>
      refine .settling (Value.Mirrors mirror) ?_ ?_ ?_ ?_
      · refine .moving (.setPromise known .forcing) fun later _ _ order₁ _ => ?_
        refine .moving (.tell _ _) fun later _ _ order₂ _ => ?_
        refine .asking (.runThunk ((same.mono order₁).mono order₂)) fun _ _ _ _ same => ?_
        exact .sub (.force same)
      · exact fun error _ =>
          ⟨fun _ _ passes => ⟨_, rfl, passes⟩, fun _ _ passes => ⟨_, rfl, passes⟩⟩
      · intro later value value' order answer
        refine .moving (.setPromise (order.pairs known) (.forced answer)) fun _ _ _ order _ => ?_
        exact .pure (answer.mono order)
      · intro later error error' order failure kept kept'
        refine .moving (.setPromise (order.pairs known) (.pending (same.mono order))) ?_
        exact fun _ _ _ order _ => .lift (.fail (failure.mono order))
  | _ => exact .pure whole

/-- Thunks that are the same up to numbers run alike. -/
theorem runThunk_mirrors {thunk thunk' : Thunk} (same : thunk.Mirrors mirror reflection thunk') :
    (runThunk thunk).plan.Mirrors mirror reflection (runThunk thunk').plan
      (Value.Mirrors mirror) := by
  cases same with
  | expr veiled allows scope =>
    refine .asking (.eval veiled allows ⟨scope, rfl, .none⟩) ?_
    rintro later ⟨value, frame⟩ ⟨value', frame'⟩ - ⟨same, -⟩
    exact .pure same
  | @global name =>
    refine .reading (fun later => Option.Rel (Value.Mirrors mirror later))
      (fun machines => machines.globals name) ?_
    rintro later found found' - same
    cases same with
    | none => exact .lift (.failing rfl (by simp))
    | some same =>
      have whole := same
      cases same with
      | func same => exact .sub (.call same .nil .nil)
      | _ => exact .sub (.force whole)

/-- Values that are the same up to numbers are forced deep alike. -/
theorem forceDeep_mirrors (same : value.Mirrors mirror reflection value') :
    (forceDeep value).plan.Mirrors mirror reflection (forceDeep value').plan
      (Value.Mirrors mirror) := by
  refine .asking (.force same) ?_
  rintro later value value' - same
  have whole := same
  cases same with
  | @list ref ref' known =>
    refine .reading (fun later items items' => ValuesMirror mirror later items.toList items'.toList)
      (fun machines => machines.items known) fun later _ _ order₁ same => ?_
    refine .asking (.forceAll same) fun later items items' order₂ same => ?_
    have known := order₂.pairs (order₁.pairs known)
    refine .moving (.setItems known same) fun _ _ _ order _ => ?_
    exact .pure (.list (order.pairs known))
  | tuple items =>
    refine .asking (.forceAll items) fun later items items' order same => ?_
    exact .pure (.tuple same)
  | _ => exact .pure whole

/-- Several values are forced deep alike. -/
theorem forceAll_mirrors (same : ValuesMirror mirror reflection values values') :
    (forceAll values).plan.Mirrors mirror reflection (forceAll values').plan
      (ValuesMirror mirror) := by
  cases same with
  | nil => exact .pure .nil
  | cons first rest =>
    refine .asking (.forceDeep first) fun later value value' order₁ first => ?_
    refine .asking (.forceAll (rest.mono order₁)) fun later others others' order₂ rest => ?_
    exact .pure (.cons (first.mono order₂) rest)

/-- The arguments of a strict callee are forced alike. -/
theorem forceArgs_mirrors (same : ValuesMirror mirror reflection values values') :
    (forceArgs values).plan.Mirrors mirror reflection (forceArgs values').plan
      (ValuesMirror mirror) := by
  cases same with
  | nil => exact .pure .nil
  | cons first rest =>
    refine .asking (.force first) fun later value value' order₁ first => ?_
    refine .asking (.forceArgs (rest.mono order₁)) fun later others others' order₂ rest => ?_
    exact .pure (.cons (first.mono order₂) rest)

/-- The keyword arguments of a strict callee are forced alike. -/
theorem forceKwargs_mirrors {kwargs kwargs' : Kwargs}
    (same : KwargsMirror mirror reflection kwargs kwargs') :
    (forceKwargs kwargs).plan.Mirrors mirror reflection (forceKwargs kwargs').plan
      (KwargsMirror mirror) := by
  cases same with
  | nil => exact .pure .nil
  | @cons named named' _ _ first rest =>
    obtain ⟨name, value⟩ := named
    obtain ⟨name', value'⟩ := named'
    obtain ⟨rfl, first⟩ : name' = name ∧ value.Mirrors mirror reflection value' := first
    refine .asking (.force first) fun later value value' order₁ first => ?_
    refine .asking (.forceKwargs (KwargsMirror.mono order₁ rest)) ?_
    intro later others others' order₂ rest
    exact .pure (.cons ⟨rfl, first.mono order₂⟩ rest)

/-- Trampolines of one variant force alike for callees that are the same up to numbers. -/
theorem forceForStrict_mirrors {callee callee' : Callable}
    (same : callee.Mirrors mirror reflection callee') {args args' : List Value}
    (values : ValuesMirror mirror reflection args args') {kwargs kwargs' : Kwargs}
    (named : KwargsMirror mirror reflection kwargs kwargs') :
    (forceForStrict variant callee args kwargs).plan.Mirrors mirror reflection
      (forceForStrict variant callee' args' kwargs').plan fun later answer answer' =>
        ValuesMirror mirror later answer.1 answer'.1 ∧
          KwargsMirror mirror later answer.2 answer'.2 := by
  refine .ite (by rw [same.resembles.isLazy]) (fun _ => ?_) fun _ => .pure ⟨values, named⟩
  refine .asking (.forceArgs values) fun later args args' order₁ values => ?_
  refine .asking (.forceKwargs (named.mono order₁)) fun later kwargs kwargs' order₂ named => ?_
  exact .pure ⟨values.mono order₂, named⟩

/-- Arguments of a cached call have the same keys. -/
theorem forceKeys_mirrors (same : ValuesMirror mirror reflection values values') :
    (forceKeys values).plan.Mirrors mirror reflection (forceKeys values').plan
      fun later answer answer' => ValuesMirror mirror later answer.1 answer'.1 ∧
        answer'.2 = answer.2 := by
  cases same with
  | nil => exact .pure ⟨.nil, rfl⟩
  | cons first rest =>
    refine .asking (.force first) fun later value value' order₁ first => ?_
    dsimp only
    rw [first.memoKey?_eq, first.type_eq]
    cases value.memoKey? with
    | none => exact .lift (.failing rfl (by simp))
    | some key =>
      refine .asking (.forceKeys (rest.mono order₁)) ?_
      rintro later ⟨others, keys⟩ ⟨others', keys'⟩ order₂ ⟨rest, rfl⟩
      exact .pure ⟨.cons (first.mono order₂) rest, rfl⟩

/-- Keyword arguments of a cached call have the same keys. -/
theorem forceKwargKeys_mirrors {kwargs kwargs' : Kwargs}
    (same : KwargsMirror mirror reflection kwargs kwargs') :
    (forceKwargKeys kwargs).plan.Mirrors mirror reflection (forceKwargKeys kwargs').plan
      fun later answer answer' => KwargsMirror mirror later answer.1 answer'.1 ∧
        answer'.2 = answer.2 := by
  cases same with
  | nil => exact .pure ⟨.nil, rfl⟩
  | @cons named named' _ _ first rest =>
    obtain ⟨name, value⟩ := named
    obtain ⟨name', value'⟩ := named'
    obtain ⟨rfl, first⟩ : name' = name ∧ value.Mirrors mirror reflection value' := first
    refine .asking (.force first) fun later value value' order₁ first => ?_
    dsimp only
    rw [first.memoKey?_eq, first.type_eq]
    cases value.memoKey? with
    | none => exact .lift (.failing rfl (by simp))
    | some key =>
      refine .asking (.forceKwargKeys (KwargsMirror.mono order₁ rest)) ?_
      rintro later ⟨others, keys⟩ ⟨others', keys'⟩ order₂ ⟨rest, rfl⟩
      exact .pure ⟨.cons ⟨rfl, first.mono order₂⟩ rest, rfl⟩

/-- Several values are shown alike. -/
theorem shownDeep_mirrors (same : ValuesMirror mirror reflection values values') :
    (shownDeep values).plan.Mirrors mirror reflection (shownDeep values').plan
      fun _ answer answer' => answer' = answer := by
  cases same with
  | nil => exact .pure rfl
  | cons first rest =>
    refine .asking (.forceDeep first) fun later value value' order₁ first => ?_
    refine .showing (fun _ shown shown' => shown' = shown)
      (fun machines comparable => machines.display_eq (comparable _ .display) first) ?_
    rintro later shown _ order₂ rfl
    refine .asking (.shownDeep ((rest.mono order₁).mono order₂)) ?_
    rintro later others _ order₃ rfl
    exact .pure rfl

/-! ## Calls -/

variable {args args' : List Value} {kwargs kwargs' : Kwargs}

/-- What a continuation that is valid does. -/
def resuming (function : Function) (env : Env) (isLazy : Bool) (args : List Value)
    (kwargs : Kwargs) : Plan Value := do
  lift (noKwargs "continuation" kwargs)
  match resumeValues function.signature.params.length args with
  | .error error => lift (Exec.fail error)
  | .ok values => do
    let scope ← lift (bindValues function.signature.params values env)
    let (value, _) ← sub (eval function.body ⟨scope, isLazy, none⟩)
    pure value

theorem plan_continuation (ref : Nat) (function : Function) (env : Env) (extent : Nat)
    (isLazy : Bool) (args : List Value) (kwargs : Kwargs) :
    (apply (.continuation ref function env extent isLazy) args kwargs).plan =
      lift (Run.extentValid extent) >>= fun valid =>
        if !valid then lift (Exec.fail .continuationInvalidated)
        else resuming function env isLazy args kwargs := rfl

/-- Continuations whose bodies are the same resume alike. -/
theorem resuming_mirrors (allows : function.body.All (mirror.Allows veiled))
    (scope : Env.Mirrors mirror reflection veiled env env')
    (values : ValuesMirror mirror reflection args args')
    (named : KwargsMirror mirror reflection kwargs kwargs') :
    (resuming function env isLazy args kwargs).Mirrors mirror reflection
      (resuming function env' isLazy args' kwargs') (Value.Mirrors mirror) := by
  refine .moving (.noKwargs _ named) fun later _ _ order _ => ?_
  rcases (values.mono order).resumeValues function.signature.params.length with
    ⟨error, noEscape, noCapture, fails, fails'⟩ | ⟨values, values', same, gives, gives'⟩
  · simp only [fails, fails']
    exact .lift (.failing noEscape noCapture)
  · simp only [gives, gives']
    refine .moving (.bindValues _ same (scope.mono order)) fun later _ _ order scopes => ?_
    refine .asking (.eval veiled allows ⟨scopes, rfl, .none⟩) ?_
    rintro later ⟨value, frame⟩ ⟨value', frame'⟩ - ⟨same, -⟩
    exact .pure same

/-- A continuation that is valid on one side only is lost, as it is tracked on neither. -/
theorem continuation_mirrors {extent extent' : Nat}
    (allows : function.body.All (mirror.Allows veiled))
    (scope : Env.Mirrors mirror reflection veiled env env')
    (known : reflection.pairs .extent extent extent')
    (values : ValuesMirror mirror reflection args args')
    (named : KwargsMirror mirror reflection kwargs kwargs') :
    (apply (.continuation ref function env extent isLazy) args kwargs).plan.Mirrors
      mirror reflection
      (apply (.continuation ref' function env' extent' isLazy) args' kwargs').plan
      (Value.Mirrors mirror) := by
  rw [plan_continuation, plan_continuation]
  refine .reading (fun _ valid valid' => mirror.tracked = true -> valid' = valid)
    (fun machines tracked => machines.valid known tracked) fun later valid valid' order same => ?_
  by_cases alike : valid' = valid
  · subst alike
    refine .ite Iff.rfl (fun _ => .lift (.failing rfl (by simp))) fun _ => ?_
    exact resuming_mirrors allows (scope.mono order) (values.mono order) (named.mono order)
  · have untracked : mirror.tracked = false :=
      eq_false_of_ne_true fun tracked => alike (same tracked)
    cases valid <;> cases valid'
    · exact absurd rfl alike
    · exact .losing (mirror.invalidated_lost untracked)
    · exact .losing' (mirror.invalidated_lost' untracked)
    · exact absurd rfl alike

/-- Escape points enter and leave points that stand for each other. -/
theorem escapePoint_mirrors {inner inner' : Callable}
    (same : inner.Mirrors mirror reflection inner')
    (values : ValuesMirror mirror reflection args args')
    (named : KwargsMirror mirror reflection kwargs kwargs') :
    (apply (.escapePoint inner) args kwargs).plan.Mirrors mirror reflection
      (apply (.escapePoint inner') args' kwargs').plan (Value.Mirrors mirror) := by
  refine .moving .enterPoint fun later tag tag' order known => ?_
  have escapes : Value.Mirrors mirror later (.func (.escape tag)) (.func (.escape tag')) :=
    .func (.escape known)
  refine .settling (Value.Mirrors mirror) ?_ ?_ ?_ ?_
  · exact .sub (.apply (same.mono order) (.cons escapes (values.mono order)) (named.mono order))
  · intro error noEscape
    cases error with
    | escape => cases noEscape
    | _ => exact ⟨fun _ _ passes => ⟨_, rfl, passes⟩, fun _ _ passes => ⟨_, rfl, passes⟩⟩
  · intro later value value' order same
    refine .moving (.leavePoint (order.pairs known)) fun later _ _ order _ => ?_
    exact .pure (same.mono order)
  · intro later error error' order same kept kept'
    have known := order.pairs known
    cases same with
    | @escape target target' value value' pair same =>
      refine .moving (.leavePoint known) fun later _ _ order exact' => ?_
      have arrives := exact'.eq_iff (order.pairs pair) (order.pairs known)
      refine .ite arrives.symm (fun _ => ?_) fun _ => ?_
      · refine .moving (.tell _ _) fun later _ _ order' _ => ?_
        exact .pure ((same.mono order).mono order')
      · exact .lift (.fail (.escape (order.pairs pair) (same.mono order)))
    | @plain error noEscape noCapture =>
      cases error with
      | escape => cases noEscape
      | _ =>
        refine .moving (.leavePoint known) fun later _ _ order _ => ?_
        exact .lift (.fail (.plain noEscape noCapture))

/-- Callables that are the same, but for special ones, are applied in the same way. -/
theorem apply_mirrors (same : callable.Mirrors mirror reflection callable')
    (plain : ¬ mirror.special reflection callable callable')
    (values : ValuesMirror mirror reflection args args')
    (named : KwargsMirror mirror reflection kwargs kwargs') :
    (apply callable args kwargs).plan.Mirrors mirror reflection (apply callable' args' kwargs').plan
      (Value.Mirrors mirror) := by
  cases same with
  | closure veiled known allows scope =>
    refine .moving (.parameterScope _ scope values named) fun later _ _ order scopes => ?_
    refine .asking (.eval veiled allows ⟨scopes, rfl, .none⟩) ?_
    rintro later ⟨value, frame⟩ ⟨value', frame'⟩ - ⟨same, -⟩
    exact .pure same
  | @native op =>
    refine .moving (.noKwargs _ named) fun later _ _ order _ => ?_
    have values := values.mono order
    cases op.arity with
    | none => exact .sub (.applyNative values)
    | some expected =>
      rw [values.length_eq]
      exact .ite Iff.rfl (fun _ => .sub (.applyNative values)) fun _ =>
        .lift (.failing rfl (by simp))
  | trampolined same =>
    exact .asking (.apply same values named) fun _ _ _ _ same => .sub (.trampoline same)
  | memoized same known =>
    refine .asking (.forceKeys values) ?_
    rintro later ⟨args, keys⟩ ⟨args', _⟩ order₁ ⟨values, rfl⟩
    refine .asking (.forceKwargKeys (named.mono order₁)) ?_
    rintro later ⟨kwargs, others⟩ ⟨kwargs', _⟩ order₂ ⟨named, rfl⟩
    have known := order₂.pairs (order₁.pairs known)
    refine .moving (.cached known _) ?_
    rintro later hit hit' order₃ hits
    have known := order₃.pairs known
    cases hits with
    | some same => exact .pure same
    | none =>
      have same := ((same.mono order₁).mono order₂).mono order₃
      refine .asking (.call same ((values.mono order₂).mono order₃) (named.mono order₃)) ?_
      intro later value value' order same
      refine .moving (.remember (order.pairs known) _ same) fun later _ _ order _ => ?_
      exact .pure (same.mono order)
  | looped same =>
    refine .moving .newHandle fun later ref ref' order known => ?_
    have same := same.mono order
    have handles :
      Value.Mirrors mirror later (.func (.loopHandle ref _)) (.func (.loopHandle ref' _)) :=
      .func (.loopHandle known same)
    rw [same.variant]
    refine .asking (.apply same (.cons handles (values.mono order)) (named.mono order)) ?_
    exact fun _ _ _ _ same => .sub (.trampoline same)
  | loopHandle known same =>
    exact .lift (.newJump ⟨same, .cons (.func (.loopHandle known same)) values, named, .none⟩)
  | escapePoint same => exact escapePoint_mirrors same values named
  | escape known =>
    refine .moving (.pointRunning known) ?_
    rintro later running _ order₁ rfl
    refine .ite Iff.rfl (fun _ => .lift (.failing rfl (by simp))) fun _ => ?_
    refine .moving (.noKwargs _ (named.mono order₁)) fun later _ _ order₂ _ => ?_
    have order := Reflection.le_trans order₁ order₂
    exact .lift (.fail (.escape (order.pairs known) (values.mono order).pack))
  | contEnabled same =>
    refine .ite (by rw [named.any_isCc]) (fun _ => .sub (.apply same values named)) fun _ => ?_
    refine .moving .newIdentity fun later identity identity' order known => ?_
    refine .sub (.apply (same.mono order) (values.mono order) ?_)
    exact List.rel_append (named.mono order) (.cons ⟨rfl, .func known⟩ .nil)
  | lazyFn same => exact .sub (.apply same values named)
  | continuation veiled _ allows scope known =>
    exact continuation_mirrors allows scope known values named
  | identity _ =>
    refine .moving (.noKwargs _ named) fun later _ _ order _ => ?_
    exact .pure (values.mono order).pack
  | special special => exact absurd special plain

/-- Callables that are the same up to numbers are called alike. -/
theorem call_mirrors (same : callable.Mirrors mirror reflection callable')
    (values : ValuesMirror mirror reflection args args')
    (named : KwargsMirror mirror reflection kwargs kwargs') :
    (call callable args kwargs).plan.Mirrors mirror reflection (call callable' args' kwargs').plan
      (Value.Mirrors mirror) := by
  refine .asking (.apply same values named) fun later value value' order answer => ?_
  have whole := answer
  cases answer with
  | jump known =>
    dsimp only
    rw [same.variant]
    exact .sub (.trampoline (.jump known))
  | _ => exact .pure whole

/-- Trampolines of one variant run alike. -/
theorem trampoline_mirrors {first first' : Value} (same : first.Mirrors mirror reflection first') :
    (trampoline variant first).plan.Mirrors mirror reflection (trampoline variant first').plan
      (Value.Mirrors mirror) :=
  .guarded (.sub (.runJumps same)) fun _ _ _ _ same => .done same

/-- Trampolines of one variant take the same jumps. -/
theorem runJumps_mirrors {current current' : Value}
    (same : current.Mirrors mirror reflection current') :
    (runJumps variant current).plan.Mirrors mirror reflection (runJumps variant current').plan
      (Value.Mirrors mirror) := by
  have whole := same
  cases same with
  | jump known => exact .asking (.takeStep known) fun _ _ _ _ same => .sub (.runJumps same)
  | _ => exact .pure whole

/-- A step of a trampoline takes jumps that stand for each other. -/
theorem takeStep_mirrors (known : reflection.pairs .jump ref ref') :
    (takeStep variant ref).plan.Mirrors mirror reflection (takeStep variant ref').plan
      (Value.Mirrors mirror) := by
  refine .moving (.takeJump known) ?_
  rintro later ⟨target, args, kwargs, cc⟩
    ⟨target', args', kwargs', cc'⟩ - ⟨same, values, named, ofCc⟩
  have callee := same.underTrampoline
  refine .asking (.forceForStrict callee values named) ?_
  rintro later ⟨args, kwargs⟩ ⟨args', kwargs'⟩ order₁ ⟨given, givenNamed⟩
  refine .moving (.tell _ _) fun later _ _ order₂ _ => ?_
  have order := Reflection.le_trans order₁ order₂
  have callee := callee.mono order
  have given := given.mono order₂
  have givenNamed := givenNamed.mono order₂
  cases ofCc with
  | none => exact .sub (.apply callee given givenNamed)
  | some cc =>
    refine .ite (by rw [callee.resembles.acceptsCc]) (fun _ => ?_) fun _ => ?_
    · exact .sub (.apply callee given (givenNamed.replaceCc (cc.mono order)))
    · refine .ite (by rw [callee.resembles.isContinuation])
        (fun _ => .sub (.apply callee given givenNamed)) fun _ => ?_
      refine .asking (.call (same.mono order) given givenNamed) ?_
      intro later result result' order₃ answer
      refine .moving
        (.callable ((cc.mono order).mono order₃)) fun later next next' order₄ next => ?_
      exact .lift (.newJump ⟨next, .cons (answer.mono order₄) .nil, .nil, .none⟩)

/-! ## Natives -/

/-- Natives that only compute. -/
theorem compute_mirrors (op : Native) (values : ValuesMirror mirror reflection args args') :
    (match op.compute? args with
      | some compute => lift compute
      | none => pure .nil : Plan Value).Mirrors mirror reflection
      (match op.compute? args' with
      | some compute => lift compute
      | none => pure .nil) (Value.Mirrors mirror) := by
  have computes := Native.compute_mirrors op values
  generalize op.compute? args = compute at computes
  generalize op.compute? args' = compute' at computes
  cases computes with
  | none => exact .pure .nil
  | some moves => exact .lift moves

theorem attempt_mirrors (values : ValuesMirror mirror reflection args args') :
    (applyNative .attempt args).plan.Mirrors mirror reflection (applyNative .attempt args').plan
      (Value.Mirrors mirror) := by
  refine .moving (.callable values.two.1) fun later thunk thunk' order₁ thunks => ?_
  refine .moving (.callable (values.two.2.mono order₁)) fun later handler handler' order₂ same => ?_
  refine .settling (Value.Mirrors mirror) ?_ ?_ ?_ ?_
  · refine .guarded (.sub (.call (thunks.mono order₂) .nil .nil)) fun _ _ _ _ same => .done same
  · intro error noEscape
    have relays : ∀ handler : Callable, Plan.Relays error
        (if error.isEscape then lift (Exec.fail error)
        else do
          let passes ← lift (Exec.read fun m : Machine => m.passed error)
          if passes then lift (Exec.fail error)
          else do
            lift (Run.tell (.caught error.message))
            sub (call handler [.str error.message] []) : Plan Value) := by
      intro handler perform m passes
      refine ⟨m, ?_, passes⟩
      rw [if_neg (by rw [noEscape]; exact Bool.false_ne_true)]
      show (if m.passed error then lift (Exec.fail error) else _ : Plan Value).run perform m = _
      rw [if_pos passes]
      rfl
    exact ⟨relays handler, relays handler'⟩
  · exact fun _ _ _ _ same => .pure same
  · intro later error error' order failure kept kept'
    refine .ite (by rw [failure.isEscape_eq]) (fun _ => .lift (.fail failure)) fun noEscape => ?_
    have noEscape := eq_false_of_ne_true noEscape
    refine .reading (fun _ passes passes' => passes' = passes)
      (fun machines => machines.passed_eq failure noEscape kept kept') ?_
    rintro later passes _ order' rfl
    have failure := failure.mono order'
    refine .ite Iff.rfl (fun _ => .lift (.fail failure)) fun _ => ?_
    cases failure with
    | escape => cases noEscape
    | plain =>
      refine .moving (.tell _ _) fun later _ _ order'' _ => ?_
      have order := Reflection.le_trans (Reflection.le_trans order order') order''
      exact .sub (.call (same.mono order) (.cons .str .nil) .nil)

theorem applyNative_mirrors (op : Native) (values : ValuesMirror mirror reflection args args') :
    (applyNative op args).plan.Mirrors mirror reflection (applyNative op args').plan
      (Value.Mirrors mirror) := by
  have computes := compute_mirrors op values
  cases op with
  | print =>
    refine .asking (.shownDeep values) ?_
    rintro later parts _ - rfl
    exact .moving (.write _) fun _ _ _ _ _ => .pure .nil
  | str =>
    refine .asking (.shownDeep values) ?_
    rintro later parts _ - rfl
    exact .pure .str
  | raise =>
    refine .asking (.shownDeep values) ?_
    rintro later parts _ - rfl
    exact .lift (.failing rfl (by simp))
  | assertEq =>
    refine .asking (.forceDeep values.two.1) fun later left left' order₁ same => ?_
    refine .asking (.forceDeep (values.two.2.mono order₁)) fun later right right' order₂ same' => ?_
    have same := same.mono order₂
    refine .reading (fun _ equal equal' => equal' = equal)
      (fun machines => machines.equal_eq same same') ?_
    rintro later equal _ order₃ rfl
    refine .ite Iff.rfl (fun _ => .pure .nil) fun _ => ?_
    have same := same.mono order₃
    have same' := same'.mono order₃
    refine .showing (fun _ shown shown' => shown' = shown) (fun machines comparable => ?_) ?_
    · rw [machines.repr_eq (comparable _ (.left _)) same,
        machines.repr_eq (comparable _ (.right _)) same']
    · rintro later shown _ - rfl
      exact .lift (.failing rfl (by simp))
  | force => exact .sub (.force values.one)
  | forceDeep => exact .sub (.forceDeep values.one)
  | attempt => exact attempt_mirrors values
  | _ => exact computes

end Task

/-! ## All tasks -/

/-- Tasks that mirror each other have plans that do, but for applying special callables. -/
theorem Task.Mirrors.plan {task task' : Task}
    {post : Reflection -> task.Answer -> task'.Answer -> Prop}
    (mirrors : task.Mirrors mirror reflection task' post)
    (plain : ∀ {callable args kwargs callable' args' kwargs'}, task = .apply callable args kwargs ->
      task' = .apply callable' args' kwargs' -> ¬ mirror.special reflection callable callable') :
    task.plan.Mirrors mirror reflection task'.plan post := by
  cases mirrors with
  | eval veiled allows frames => exact eval_mirrors allows frames
  | evalForced veiled allows frames => exact evalForced_mirrors allows frames
  | evalContinuation veiled allows frames => exact evalContinuation_mirrors allows frames
  | operand veiled allows frames => exact operand_mirrors allows frames
  | delayed veiled allows frames => exact delayed_mirrors allows frames
  | operands veiled allows frames => exact operands_mirrors allows frames
  | keywords veiled allows frames => exact keywords_mirrors allows frames
  | evalArms veiled ofArms ofAlt frames => exact evalArms_mirrors ofArms ofAlt frames
  | evalShort veiled allows same frames => exact evalShort_mirrors allows same frames
  | evalItems veiled allows same frames => exact evalItems_mirrors allows same frames
  | evalLoop veiled ofTest ofBody frames => exact evalLoop_mirrors ofTest ofBody frames
  | force same => exact force_mirrors same
  | runThunk same => exact runThunk_mirrors same
  | forceDeep same => exact forceDeep_mirrors same
  | forceAll same => exact forceAll_mirrors same
  | apply same values named => exact apply_mirrors same (plain rfl rfl) values named
  | call same values named => exact call_mirrors same values named
  | trampoline same => exact trampoline_mirrors same
  | runJumps same => exact runJumps_mirrors same
  | takeStep known => exact takeStep_mirrors known
  | forceForStrict same values named => exact forceForStrict_mirrors same values named
  | forceArgs same => exact forceArgs_mirrors same
  | forceKwargs same => exact forceKwargs_mirrors same
  | forceKeys same => exact forceKeys_mirrors same
  | forceKwargKeys same => exact forceKwargKeys_mirrors same
  | shownDeep same => exact shownDeep_mirrors same
  | applyNative same => exact applyNative_mirrors _ same

/-- With one more unit of fuel a task is as far as its plan was. -/
theorem Task.cut_succ (task : Task) (n : Nat) :
    task.chain.cut (n + 1) = task.plan.chain.cut n := by
  refine Bounded.ext ?_ ?_
  · rw [Plan.cut_chain_limited]
    exact Task.run_succ n task
  · rw [Plan.cut_chain_full]
    exact task.full_eq

namespace Mirror

variable {watch watch' : Watch}

/-- Special callables agree when they are applied, if tasks with less fuel do. -/
def Handles (mirror : Mirror) (watch watch' : Watch) (n : Nat) : Prop :=
  ∀ {reflection callable callable' args args' kwargs kwargs' m m'},
    mirror.special reflection callable callable' -> ValuesMirror mirror reflection args args' ->
    KwargsMirror mirror reflection kwargs kwargs' -> m.Mirrors mirror reflection m' ->
    watch.visits (.apply callable args kwargs) m ->
      watch'.visits (.apply callable' args' kwargs') m' ->
    mirror.Agrees reflection ((Task.apply callable args kwargs).chain.cut (n + 1))
      ((Task.apply callable' args' kwargs').chain.cut (n + 1)) m m' (Value.Mirrors mirror)

/-- Tasks that mirror each other agree. -/
theorem performs (compares : mirror.Compares watch)
    (handles : ∀ n, mirror.Performs watch watch' n -> mirror.Handles watch watch' n) (n : Nat) :
    mirror.Performs watch watch' n := by
  induction n with
  | zero =>
    intro reflection task task' post m m' _ _ _ _
    refine .zero ?_ ?_
    · cases task <;> rfl
    · cases task' <;> rfl
  | succ n ih =>
    intro reflection task task' post m m' mirrors machines visits visits'
    by_cases plain : ∀ {callable args kwargs callable' args' kwargs'},
      task = .apply callable args kwargs -> task' = .apply callable' args' kwargs' ->
        ¬ mirror.special reflection callable callable'
    · rw [Task.cut_succ, Task.cut_succ]
      exact (mirrors.plan plain).agrees ih compares machines (Watch.watched visits)
        (Watch.watched visits')
    · push Not at plain
      obtain ⟨callable, args, kwargs, callable', args', kwargs', rfl, rfl, special⟩ := plain
      cases mirrors with
      | apply same values named => exact handles n ih special values named machines visits visits'

end Mirror

end Trampoline
