import Trampoline.Proofs.Evaluation.Endings
import Trampoline.Proofs.Rewriting.Handover

/-!
# What functions with continuations return

The body of a function that takes a continuation returns a jump that hands its result over: to the
continuation itself, with the continuation, or with the rest of the body where it was captured. Only
where a connective at its end is decided early does a plain value come out.
-/

namespace Trampoline

variable {body : Expr} {frame : Frame} {machine last : Machine} {value : Value}

/-- The body, run in a frame of its own, ends with the value. -/
def Expr.Returns (body : Expr) (frame : Frame) (machine : Machine) (value : Value)
    (last : Machine) : Prop :=
  ∃ fuel, Body.run (eval fuel body) frame machine = some (.ok value, last)

/-- A connective at the end of the body is decided by an operand before its last, with this
value. -/
def Expr.StopsEarly (body : Expr) (frame : Frame) (machine : Machine) (value : Value) : Prop :=
  ∃ after, body.follow ⟨frame, machine⟩ = some (.ok (.stops value), after)

/-- The variable of the continuation stands for the value. -/
def Activation.HoldsContinuation (activation : Activation) (value : Value) : Prop :=
  ∃ fuel mark after,
    evalForced fuel (.var mark continuationParam) activation = some (.ok value, after)

/-- Evaluate the target and the arguments of a jump. -/
noncomputable def targetAndArgs (func : Expr) (args : List Expr) (kwargs : List (String × Expr)) :
    Body (Callable × List Value × Kwargs) := do
  let func ← (Chain.evalForced func).full
  let target ← func.callable
  let args ← (Chain.operands .delay args).full
  let kwargs ← (Chain.keywords .delay kwargs).full
  pure (target, args, kwargs)

/-- The jump that an expression makes from here hands the result of its body over. -/
inductive HandingJump : Expr -> Activation -> Jump -> Prop where
  /-- It goes to the continuation. -/
  | target {mark ccMark args kwargs start jump} :
      start.HoldsContinuation (.func jump.target) ->
      HandingJump (.jump mark (.var ccMark continuationParam) args kwargs none) start jump
  /-- It takes the continuation along. -/
  | pass {mark func args kwargs ccMark start middle jump cc} :
      targetAndArgs func args kwargs start =
        some (.ok (jump.target, jump.args, jump.kwargs), middle) ->
      middle.HoldsContinuation cc -> jump.cc = some cc ->
      HandingJump (.jump mark func args kwargs (some (.var ccMark continuationParam))) start jump
  /-- It takes the rest of the body along, as it was captured. -/
  | capture {mark func args kwargs ccMark signature rest start jump ref env extent isLazy variant} :
      jump.cc = some (.func (.trampolined
        (.continuation ref ⟨signature, rest⟩ env extent isLazy) variant)) ->
      HandingJump (.jump mark func args kwargs (some (.fn ccMark signature rest))) start jump

/-- The value is a record of the jump at the end of the body, which hands the result over. -/
def Expr.HandedOver (body : Expr) (frame : Frame) (machine : Machine) (value : Value)
    (last : Machine) : Prop :=
  ∃ e connectives start jump ref,
    body.follow ⟨frame, machine⟩ = some (.ok (.returns e connectives), start) ∧
    HandingJump e start jump ∧ value = .jump ref ∧ last.jump ref = .pending jump

/-! ## Jumps -/

/-- A jump evaluates its target and arguments, then its continuation, and makes a record. -/
theorem Expr.meaning_jump (mark : Mark) (func : Expr) (args : List Expr)
    (kwargs : List (String × Expr)) (cc : Option Expr) :
    (Expr.jump mark func args kwargs cc).meaning = (do
      let parts ← targetAndArgs func args kwargs
      let cc ← (Chain.evalContinuation cc).full
      Run.within (Run.newJump ⟨parts.1, parts.2.1, parts.2.2, cc⟩)) := by
  refine (Chain.full_eq (Chain.eval_jump mark func args kwargs cc 0)).trans ?_
  simp only [Chain.cut, Chain.full_bind, Chain.full_lift, targetAndArgs, bind_assoc, pure_bind]

variable {mark : Mark} {start : Activation} {signature : Signature} {rest e : Expr}

/-- Where the continuation is the target, it is what the variable stands for. -/
theorem targetAndArgs_target {args : List Expr} {kwargs : List (String × Expr)}
    {middle : Activation} {target : Callable} {parts : List Value × Kwargs}
    (ends : targetAndArgs (.var mark continuationParam) args kwargs start =
      some (.ok (target, parts), middle)) : start.HoldsContinuation (.func target) := by
  obtain ⟨func, after, evaluated, rest⟩ := Exec.bind_eq_ok.mp ends
  obtain ⟨callee, after', isCallable, rest⟩ := Exec.bind_eq_ok.mp rest
  obtain ⟨values, _, _, rest⟩ := Exec.bind_eq_ok.mp rest
  obtain ⟨named, _, _, rest⟩ := Exec.bind_eq_ok.mp rest
  cases rest
  obtain ⟨fuel, evaluated⟩ := Chain.full_eq_some.mp evaluated
  cases func with
  | func callable =>
    cases isCallable
    exact ⟨fuel, mark, after, evaluated⟩
  | _ => cases isCallable

/-- A continuation function becomes a captured continuation. -/
theorem makeClosure_yields (kind : signature.kind = .continuation) :
    (makeClosure ⟨signature, rest⟩).Yields fun value => ∃ ref env extent isLazy variant,
      value = .func (.trampolined
        (.continuation ref ⟨signature, rest⟩ env extent isLazy) variant) := by
  unfold makeClosure
  simp only [kind]
  refine .bind (.any _) fun frame _ => .bind (.any _) fun extent _ => .bind (.any _) fun ref _ => ?_
  exact .bind (.any _) fun _ _ => .pure ⟨ref, frame.env, extent, _, _, rfl⟩

/-- What the continuation of a jump is evaluated to. -/
theorem evalContinuation_full (e : Expr) : (Chain.evalContinuation (some e)).full = (do
    let value ← (Chain.evalForced e).full
    pure (some value)) := by
  rw [Chain.full_eq (Chain.evalContinuation_some e 0)]
  simp only [Chain.cut, Chain.full_bind, Chain.full_pure]

/-- A captured rest is evaluated to a continuation over the scope in which it stands. -/
theorem evalContinuation_captured (kind : signature.kind = .continuation) :
    (Chain.evalContinuation (some (.fn mark signature rest))).full.Yields fun cc =>
      ∃ ref env extent isLazy variant, cc = some (.func (.trampolined
        (.continuation ref ⟨signature, rest⟩ env extent isLazy) variant)) := by
  have meaning : (Expr.fn mark signature rest).meaning = makeClosure ⟨signature, rest⟩ :=
    (Chain.full_eq (Chain.eval_fn mark signature rest 0)).trans (Chain.full_lift _)
  rw [evalContinuation_full, Chain.evalForced_full, meaning]
  refine .bind (.bind (makeClosure_yields kind) fun value made => ?_) fun _ made => .pure made
  obtain ⟨ref, env, extent, isLazy, variant, rfl⟩ := made
  rw [Value.forced_of_plain]
  · exact .pure ⟨ref, env, extent, isLazy, variant, rfl⟩
  · nofun

/-- An end that hands over makes a record of a jump that does. -/
theorem Expr.HandsOver.makesJump (hands : e.HandsOver) (isEnd : e.isEnd = true)
    {after : Activation} (ends : e.meaning start = some (.ok value, after)) :
    ∃ jump ref, HandingJump e start jump ∧ value = .jump ref ∧
      after.machine.jump ref = .pending jump := by
  cases e with
  | jump mark func args kwargs cc =>
    rw [Expr.meaning_jump] at ends
    obtain ⟨⟨target, values, named⟩, middle, parts, rest⟩ := Exec.bind_eq_ok.mp ends
    obtain ⟨cc', after', evaluated, made⟩ := Exec.bind_eq_ok.mp rest
    cases made
    refine ⟨⟨target, values, named, cc'⟩, after'.machine.jumps.size, ?_, rfl, ?_⟩
    · match cc, func with
      | none, .var ccMark name =>
        obtain rfl : name = continuationParam := hands
        exact .target (targetAndArgs_target parts)
      | some (.var ccMark name), func =>
        obtain rfl : name = continuationParam := hands
        rw [evalContinuation_full] at evaluated
        obtain ⟨continuation, later, evaluated, rest⟩ := Exec.bind_eq_ok.mp evaluated
        cases rest
        obtain ⟨fuel, evaluated⟩ := Chain.full_eq_some.mp evaluated
        exact .pass parts ⟨fuel, ccMark, _, evaluated⟩ rfl
      | some (.fn ccMark signature rest), func =>
        obtain ⟨ref, env, extent, isLazy, variant, captured⟩ :=
          evalContinuation_captured hands middle cc' after' evaluated
        exact .capture captured
    · simp [Machine.jump]
  | short mark op operands => cases operands <;> simp_all [Expr.HandsOver, Expr.isEnd]
  | seq => cases isEnd
  | cond => cases isEnd
  | _ => exact hands.elim

/-! ## Bodies -/

/-- A jump record is no promise, however often it is forced. -/
theorem Ending.forceTimes_jump (ref : Nat) : ∀ times : Nat,
    Ending.forceTimes times (.jump ref) = pure (.jump ref)
  | 0 => rfl
  | times + 1 => by
    rw [Ending.forceTimes, Ending.forceTimes_jump ref times, pure_bind, Value.forced_of_plain]
    nofun

/-- What a body returns is what it comes to at the end of its tail path. -/
theorem Expr.Returns.follow (returns : body.Returns frame machine value last) :
    ∃ ending start after, body.follow ⟨frame, machine⟩ = some (.ok ending, start) ∧
      ending.LiesOn body.tailPath ∧
      ending.value start = some (.ok value, after) ∧ after.machine = last := by
  obtain ⟨fuel, ends⟩ := returns
  have run : Body.run body.meaning frame machine = some (.ok value, last) := by
    refine Exec.bodyRun_le (fun state outcome ended => ?_) frame machine _ ends
    exact Chain.full_eq_some.mpr ⟨fuel, ended⟩
  rw [Expr.run_follow, Exec.bodyRun_eq_around] at run
  obtain ⟨⟨result, after⟩, inner, equal⟩ := Option.map_eq_some_iff.mp run
  cases equal
  obtain ⟨ending, start, followed, rest⟩ := Exec.bind_eq_ok.mp inner
  have lies := Expr.follow_liesOn body (List.Subset.refl _) _ _ _ followed
  exact ⟨ending, start, after, followed, lies, rest, rfl⟩

theorem Expr.HandsOver.hasAlternative (hands : e.HandsOver) : e.hasAlternative = true := by
  cases e <;> first | rfl | exact hands

/-- A body that hands over returns a record of a jump that hands its result over, unless a
connective at its end is decided early. Then it returns the value that decided. -/
theorem Expr.HandsAllOver.returns (all : body.HandsAllOver)
    (returns : body.Returns frame machine value last) :
    body.HandedOver frame machine value last ∨ body.StopsEarly frame machine value := by
  obtain ⟨ending, start, after, followed, lies, ends, rfl⟩ := returns.follow
  cases ending with
  | returns e connectives =>
    obtain ⟨member, isEnd⟩ := lies
    obtain ⟨value', middle, ends, rest⟩ := Exec.bind_eq_ok.mp ends
    obtain ⟨jump, ref, handing, rfl, pending⟩ := (all e member).makesJump isEnd ends
    rw [Ending.forceTimes_jump] at rest
    cases rest
    exact .inl ⟨e, connectives, start, jump, ref, followed, handing, rfl, pending⟩
  | fallsThrough =>
    obtain ⟨mark, member⟩ := lies
    exact absurd rfl (all _ member)
  | noArm =>
    obtain ⟨node, member, without⟩ := lies
    exact absurd (all node member).hasAlternative (by simp [without])
  | stops early =>
    cases ends
    exact .inr ⟨_, followed⟩

/-- Where every connective at the end of a body has one operand, none is decided early. -/
theorem Expr.StopsEarly.connective (stops : body.StopsEarly frame machine value) :
    ∃ node ∈ body.tailPath, node.runsThrough = false := by
  obtain ⟨after, followed⟩ := stops
  exact Expr.follow_liesOn body (List.Subset.refl _) _ _ _ followed

/-- What is handed over at the end of a body was not decided before. -/
theorem Expr.HandedOver.not_stopsEarly {early : Value}
    (handed : body.HandedOver frame machine value last) :
    ¬ body.StopsEarly frame machine early := by
  rintro ⟨after, stopped⟩
  obtain ⟨e, connectives, start, jump, ref, followed, -⟩ := handed
  cases followed.symm.trans stopped

/-! ## Programs -/

/-- A function that takes a continuation returns a record of a jump that hands its result over, at
the end of its body and of every piece that the body is cut into: exactly if no connective there is
decided early. Then it returns the value that decided. -/
theorem Program.returns_handOver {source : String} {path : Option String} {program : Program}
    (parsed : Program.parse source path = .ok program) {table : DecoratorTable}
    {escapes : List String} {transformed : Transformed}
    (succeeds : program.transform table escapes = .ok transformed) {function : Function}
    (member : function ∈ program.functions)
    (continuations : function.signature.regions.cont = true)
    (ends : ∀ node ∈ function.body.tailPath,
      node.hasAlternative = true ∧ node.isCallTo escapes = false) :
    ∃ rewritten ∈ transformed.program.functions,
      rewritten.signature.id = function.signature.id ∧
      rewritten.signature.name = function.signature.name ∧
      ∀ piece ∈ rewritten.body.pieces, ∀ frame machine value last,
        piece.Returns frame machine value last ->
          (piece.HandedOver frame machine value last ↔
            ¬ ∃ early, piece.StopsEarly frame machine early) ∧
          ∀ early, piece.StopsEarly frame machine early -> value = early := by
  obtain ⟨rewritten, listed, id, name, all⟩ := Program.transform_handsOver
    (Program.parse_isSource parsed) succeeds member continuations ends
  refine ⟨rewritten, listed, id, name, fun piece inside frame machine value last returns => ?_⟩
  rcases (all piece inside).returns returns with handed | stopped
  · refine ⟨iff_of_true handed ?_, fun early stops => ?_⟩
    · rintro ⟨early, stops⟩
      exact handed.not_stopsEarly stops
    · exact absurd stops handed.not_stopsEarly
  · refine ⟨iff_of_false (fun handed => handed.not_stopsEarly stopped) ?_, fun early stops => ?_⟩
    · exact not_not_intro ⟨value, stopped⟩
    · obtain ⟨after, stopped⟩ := stopped
      obtain ⟨after', stops⟩ := stops
      cases stopped.symm.trans stops
      rfl

/-- A scope of an argument and a continuation. -/
def Frame.called : Frame := ⟨[("x", 0), (continuationParam, 1)], false, none⟩

/-- A machine on which the argument is false. -/
def Machine.called : Machine :=
  { Machine.start false with cells := #[.bool false, .func (.identity 0)] }

/-- The transformed text has one function, whose body ends with a value as asked, in this scope. -/
def Program.endsCalled (source : String) (asked : Function -> Value -> Bool) : Bool :=
  ((Program.ofText source).transform .default ["ec"]).toOption.any fun transformed =>
    match transformed.program.functions with
    | [rewritten] => (Body.run (eval 20 rewritten.body) .called .called).any fun outcome =>
      outcome.1.toOption.any (asked rewritten)
    | _ => false

/-- A program that is seen to end in a call has a body that returns there. -/
theorem Program.endsCalled_returns {source : String} {asked : Function -> Value -> Bool}
    (ends : Program.endsCalled source asked = true) : ∃ transformed rewritten value last,
    (Program.ofText source).transform .default ["ec"] = .ok transformed ∧
      transformed.program.functions = [rewritten] ∧
      rewritten.body.Returns .called .called value last ∧ asked rewritten value = true := by
  unfold Program.endsCalled at ends
  cases succeeds : (Program.ofText source).transform .default ["ec"] with
  | error error => simp [succeeds, Except.toOption] at ends
  | ok transformed =>
    simp only [succeeds, Except.toOption, Option.any_some] at ends
    split at ends
    next rewritten single =>
      obtain ⟨⟨result, last⟩, ran, isAsked⟩ := (Option.any_eq_true _ _).mp ends
      cases result with
      | error error => cases isAsked
      | ok value => exact ⟨transformed, rewritten, value, last, rfl, single, ⟨20, ran⟩, isAsked⟩
    next => cases ends

/-- A function that returns its argument or a number to its continuation. -/
def returnedArgument : String := "(continuations (defn f (x) (if x 1 x)))"

/-- An argument that is returned is an instance: it goes to the continuation. -/
theorem returnedArgument_handsOver : ∃ transformed,
    (Program.ofText returnedArgument).transform .default ["ec"] = .ok transformed ∧
    ∃ rewritten ∈ transformed.program.functions, ∃ value last,
      rewritten.body.Returns .called .called value last ∧
      rewritten.body.HandedOver .called .called value last := by
  have ⟨reads, ⟨function, member, continuations, ends⟩, runs⟩ :
      (Program.parse returnedArgument none).toOption.isSome = true ∧
      (∃ function ∈ (Program.ofText returnedArgument).functions,
        function.signature.regions.cont = true ∧ ∀ node ∈ function.body.tailPath,
          node.hasAlternative = true ∧ node.isCallTo ["ec"] = false) ∧
      Program.endsCalled returnedArgument (fun rewritten _ =>
        ∀ node ∈ rewritten.body.tailPath, node.runsThrough = true) = true := by
    rw [Program.endsCalled, Program.ofText, returnedArgument, Program.parse_ofList]
    decide +kernel
  obtain ⟨transformed, rewritten, value, last, succeeds, single, returns, through⟩ :=
    Program.endsCalled_returns runs
  obtain ⟨other, listed, -, -, handsOver⟩ := Program.returns_handOver
    (Program.parse_ofText reads) succeeds member continuations ends
  obtain rfl : other = rewritten := List.mem_singleton.mp (single ▸ listed)
  refine ⟨transformed, succeeds, other, listed, value, last, returns, ?_⟩
  refine (handsOver _ List.mem_cons_self _ _ _ _ returns).1.mpr ?_
  rintro ⟨early, stops⟩
  obtain ⟨node, inPath, stopping⟩ := stops.connective
  exact absurd (of_decide_eq_true through node inPath) (by simp [stopping])

/-- A function whose result may be decided early. -/
def guardedResult : String := "(continuations (defn f (x) (and x 1)))"

def Value.isFalse : Value -> Bool
  | .bool false => true
  | _ => false

/-- A value that counts as false is `#f`. -/
theorem Value.eq_of_isFalse {value : Value} (isFalse : value.isFalse = true) :
    value = .bool false := by
  unfold Value.isFalse at isFalse
  split at isFalse
  · rfl
  · cases isFalse

/-- A result that is decided early is returned and not handed over. -/
theorem guardedResult_returnsEarly : Frame.called.isLazy = false ∧ ∃ transformed,
    (Program.ofText guardedResult).transform .default ["ec"] = .ok transformed ∧
    ∃ function ∈ (Program.ofText guardedResult).functions,
      function.signature.regions.cont = true ∧
      (∀ node ∈ function.body.nodes,
        node.hasAlternative = true ∧ node.isCallTo ["ec"] = false) ∧
      ∃ rewritten ∈ transformed.program.functions,
        rewritten.signature.id = function.signature.id ∧ ∃ last,
          rewritten.body.Returns .called .called (.bool false) last := by
  have ⟨function, member, continuations, ends, runs⟩ :
      ∃ function ∈ (Program.ofText guardedResult).functions,
        function.signature.regions.cont = true ∧
        (∀ node ∈ function.body.nodes,
          node.hasAlternative = true ∧ node.isCallTo ["ec"] = false) ∧
        Program.endsCalled guardedResult (fun rewritten value =>
          rewritten.signature.id == function.signature.id && value.isFalse) = true := by
    unfold Program.endsCalled
    rw [Program.ofText, guardedResult, Program.parse_ofList]
    decide +kernel
  obtain ⟨transformed, rewritten, value, last, succeeds, single, returns, asked⟩ :=
    Program.endsCalled_returns runs
  have listed : rewritten ∈ transformed.program.functions := single ▸ List.mem_singleton_self _
  obtain ⟨id, isFalse⟩ := (Bool.and_eq_true _ _).mp asked
  refine ⟨rfl, transformed, succeeds, function, member, continuations, ends, rewritten, listed,
    eq_of_beq id, last, ?_⟩
  exact Value.eq_of_isFalse isFalse ▸ returns

end Trampoline
