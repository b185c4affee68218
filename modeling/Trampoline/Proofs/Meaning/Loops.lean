import Trampoline.Proofs.Jumps.Linearity
import Trampoline.Proofs.Loops.Programs
import Trampoline.Proofs.Rewriting.Unlooping

/-!
# Looping is recursion

A loop outside all blocks does what the recursive function does that calls itself where the loop
returns a call of its handle. A loop runs the jumps that it returns and forces nothing, so this asks
that the recursive function comes to no jump, and to no promise where calls of the handle are
joined.
-/

namespace Trampoline

variable {name handle : String} {function : Function} {program : Program}
  {transformed : Transformed}
  {table : DecoratorTable} {escapes : List String} {source : String} {path : Option String}
  {closedOutput : Bool}

/-- Calls of what the program defines under the name come to such values, if they come to any. -/
def Program.CallsComeTo (program : Program) (name : String) (m : Machine) (post : Value -> Prop) :
    Prop :=
  ∀ ⦃mark target ref args kwargs middle value last⦄,
    .define name (.fn mark target.signature target.body) ∈ program.top ->
    program.GetsTo m (.apply (.closure ref target []) args kwargs) middle ->
    (Task.apply (.closure ref target []) args kwargs).full middle = some (.ok value, last) ->
      post value

/-- Looping through the handle is recursion: a program with a loop outside all blocks ends as the
program with the recursive function does, with the same output and the same value or error, if
neither raises an error that tells loops from recursive functions and the calls of the recursive
function come to what they are to. -/
theorem Program.HasLoop.recursion (parsed : Program.parse source path = .ok program)
    (has : program.HasLoop name handle function) (outside : function.signature.regions = .none)
    (written : function.signature.decorators.map Prod.fst = ["looped"])
    (succeeds : program.transform table escapes = .ok transformed) : ∃ transformed',
      (program.unloop name).transform table escapes = .ok transformed' ∧ ∀ closedOutput,
        ¬ transformed.program.Raises EvalError.tellsLoops closedOutput ->
        ¬ transformed'.program.Raises EvalError.tellsLoops closedOutput ->
        transformed'.program.CallsComeTo name (.startLetting EvalError.tellsLoops closedOutput)
          (function.Settles handle) ->
        transformed.program.Matches transformed'.program SameEnd closedOutput := by
  obtain ⟨transformed', dressed, succeeds', top, has', signature, joins⟩ :=
    has.transform parsed outside written succeeds
  refine ⟨transformed', succeeds', fun closedOutput never never' settles => ?_⟩
  obtain ⟨⟨forms, counters⟩, log⟩ := transformed'
  obtain rfl : forms = (transformed.program.unloop name).top := top
  have wrapped : dressed.signature.wrappers = [.looped] := by rw [signature]
  have strict : dressed.signature.isLazy = false := by
    rw [signature, Signature.isLazy, outside]
    rfl
  obtain ⟨mark, once⟩ := has'.defined
  have same :
    transformed.program.Matches (transformed.program.unloop name) SameEnd closedOutput := by
    refine has'.matches wrapped strict (fun gets ends => ?_) never never'
    obtain ⟨noJump, noPromise⟩ := settles once.unloop.mem gets ends
    exact ⟨noJump, fun inBody => noPromise (joins inBody)⟩
  exact ⟨same.forth, same.back⟩

/-! ## Programs without jumps -/

/-- The kind is that of all expressions but functions and jumps. -/
def IsLax (kind : Expr -> Prop) : Prop :=
  ∀ e : Expr, e.function? = none -> e.isJump = false -> kind e

variable {kind : Expr -> Prop} {e : Expr} {errors : EvalError -> Bool}

/-- A lax kind does not change with the callee that is replaced. -/
theorem IsLax.unloopCallee (lax : IsLax kind) (all : e.All kind) :
    (e.unloopCallee handle name).All kind := by
  cases e with
  | var => exact List.forall_mem_singleton.mpr (lax _ rfl rfl)
  | _ => exact all

mutual

/-- Replacing loops by recursion keeps all nodes of a lax kind. -/
theorem IsLax.unloop (lax : IsLax kind) : ∀ {e : Expr}, e.All kind ->
    (e.unloop handle name).All kind
  | .seq .., all => Expr.all_seq.mpr ⟨lax _ rfl rfl, lax.unloopLast (Expr.all_seq.mp all).2⟩
  | .short .., all => Expr.all_short.mpr ⟨lax _ rfl rfl, lax.unloopLast (Expr.all_short.mp all).2⟩
  | .cond _ _ none, all =>
    Expr.all_cond_none.mpr ⟨lax _ rfl rfl, lax.unloopArms (Expr.all_cond_none.mp all).2⟩
  | .cond _ _ (some _), all => by
    obtain ⟨-, ofArms, ofAlt⟩ := Expr.all_cond_some.mp all
    exact Expr.all_cond_some.mpr ⟨lax _ rfl rfl, lax.unloopArms ofArms, lax.unloop ofAlt⟩
  | .call .., all => by
    obtain ⟨-, ofFunc, ofArgs, ofKwargs⟩ := Expr.all_call.mp all
    exact Expr.all_call.mpr ⟨lax _ rfl rfl, lax.unloopCallee ofFunc, ofArgs, ofKwargs⟩
  | .lit .., all | .var .., all | .fn .., all | .bind .., all | .assign .., all | .loop .., all
  | .jump .., all | .capture .., all => all

theorem IsLax.unloopLast (lax : IsLax kind) : ∀ {es : List Expr},
    AllOf kind es -> AllOf kind (Trampoline.unloopLast handle name es)
  | [], all => all
  | [_], all => allOf_cons.mpr ⟨lax.unloop (allOf_cons.mp all).1, fun _ member =>
    absurd member List.not_mem_nil⟩
  | _ :: _ :: _, all =>
    allOf_cons.mpr ⟨(allOf_cons.mp all).1, lax.unloopLast (allOf_cons.mp all).2⟩

theorem IsLax.unloopArms (lax : IsLax kind) : ∀ {arms : List (Expr × Expr)},
    AllOfArms kind arms -> AllOfArms kind (Trampoline.unloopArms handle name arms)
  | [], all => all
  | (_, _) :: _, all => by
    obtain ⟨ofTest, ofBody, others⟩ := allOfArms_cons.mp all
    exact allOfArms_cons.mpr ⟨ofTest, lax.unloop ofBody, lax.unloopArms others⟩

end

/-- A source with a recursive function in place of a loop is a source. -/
theorem Program.IsSource.unloop (isSource : program.IsSource) : (program.unloop name).IsSource := by
  have lax : IsLax Expr.IsSource := by
    intro e none noJump
    cases e with
    | fn => cases none
    | jump => cases noJump
    | _ => trivial
  intro node member
  obtain ⟨form', listed, inside⟩ := List.mem_flatMap.mp member
  obtain ⟨form, inTop, rfl⟩ := List.mem_map.mp listed
  have all : form.expr.All Expr.IsSource :=
    fun node inside => isSource node (List.mem_flatMap.mpr ⟨form, inTop, inside⟩)
  cases form with
  | exec e => exact all node inside
  | define other bindee =>
    by_cases here : other = name
    · rw [Toplevel.unloop, if_pos here] at inside
      cases bindee with
      | fn mark signature body =>
        obtain ⟨⟨kind, bare, nested, block⟩, ofBody⟩ := Expr.all_fn.mp all
        have whole : (Expr.fn mark (Function.unloop name ⟨signature, body⟩).signature
            (Function.unloop name ⟨signature, body⟩).body).All Expr.IsSource := by
          cases params : signature.params with
          | nil =>
            simp only [Function.unloop, params]
            exact all
          | cons handle rest =>
            simp only [Function.unloop, params]
            obtain ⟨blockMark, items, rfl⟩ := block
            exact Expr.all_fn.mpr ⟨⟨kind, rfl, nested, blockMark, _, rfl⟩, lax.unloop ofBody⟩
        exact whole node inside
      | _ => exact all node inside
    · rw [Toplevel.unloop, if_neg here] at inside
      exact all node inside

/-- Each of several expressions that stand by the rules does. -/
theorem AllObey.of_mem {rules : JumpRules} {es : List Expr} (obey : AllObey rules es)
    (member : e ∈ es) : e.Obeys rules false := by
  induction es with
  | nil => cases member
  | cons first rest ih =>
    simp only [AllObey] at obey
    rcases List.mem_cons.mp member with rfl | later
    · exact obey.1
    · exact ih obey.2 later

namespace Contract.Kept

variable {Ghost : Type} {contract : Contract Ghost} {ghost : Ghost} {m later : Machine}

/-- Tasks keep to the contract whatever the fuel. -/
theorem full (kept : contract.Kept) (task : Task) (ghost : Ghost)
    (asks : contract.asks task ghost) :
    Exec.Ensures contract ghost task.full (contract.answers task) := by
  intro m outcome holds ends
  obtain ⟨n, ran⟩ := Task.full_eq_some.mp ends
  exact kept.task n task ghost asks m outcome holds ran

/-- Tasks on the way of a task can rely on the contract. -/
theorem leads (kept : contract.Kept) {task next : Task} (leads : task.Leads m next later)
    (asks : contract.asks task ghost) (holds : contract.holds ghost m) :
    ∃ ghost', contract.asks next ghost' ∧ contract.holds ghost' later := by
  induction leads with
  | here => exact ⟨ghost, asks, holds⟩
  | on _ further ih =>
    obtain ⟨ghost', asks', holds'⟩ := ih
    exact (kept _ ghost' asks').asks kept.full holds' further

end Contract.Kept

/-- Where jumps stand by the rules, what the program defines under a name comes to no jump, if no
trampoline is to run it. -/
theorem Program.callsComeTo_noJump (obey : AllObey .dressed (program.top.map Toplevel.expr))
    (direct : ∀ mark (target : Function),
      .define name (.fn mark target.signature target.body) ∈ program.top ->
      JumpRules.dressed.loose target.signature = false) :
    program.CallsComeTo name (.startLetting errors closedOutput)
      fun value => ∀ ref, value ≠ .jump ref := by
  intro mark target ref args kwargs middle value last defined gets ends
  obtain ⟨first, before, asks, leads⟩ := gets
  have jumpless : Value.nil.Jumpless := trivial
  obtain ⟨own, asks, owes⟩ := (toplevels_meets obey jumpless).asks linearity_kept.full
    (Machine.owes_startLetting errors closedOutput) asks
  obtain ⟨own, asks, owes⟩ := linearity_kept.leads leads asks owes
  have obeys := obey.of_mem (List.mem_map_of_mem (f := Toplevel.expr) defined)
  simp only [Toplevel.expr, Expr.Obeys, direct mark target defined] at obeys
  obtain ⟨own, ⟨carries, strict⟩, -⟩ := linearity_kept.full _ own asks _ _ owes ends
  obtain rfl := strict obeys.2
  rintro ref rfl
  exact carries

/-- In a program without written jumps and other handles the recursive function comes to no jump. -/
theorem Program.HasLoop.callsComeTo {transformed' : Transformed}
    (parsed : Program.parse source path = .ok program) (has : program.HasLoop name handle function)
    (outside : function.signature.regions = .none)
    (written : function.signature.decorators.map Prod.fst = ["looped"])
    (succeeds : program.transform table escapes = .ok transformed)
    (without : (program.unloop name).WithoutJumps)
    (succeeds' : (program.unloop name).transform table escapes = .ok transformed') :
    transformed'.program.CallsComeTo name (.startLetting errors closedOutput)
      fun value => ∀ ref, value ≠ .jump ref := by
  obtain ⟨other, dressed, same, top, has', signature, -⟩ :=
    has.transform parsed outside written succeeds
  cases succeeds'.symm.trans same
  have isSource : (program.unloop name).IsSource := (Program.parse_isSource parsed).unloop
  refine Program.callsComeTo_noJump (Program.transform_obeys without isSource succeeds') ?_
  intro mark target defined
  rw [top] at defined
  obtain ⟨mark', once⟩ := has'.defined
  obtain ⟨params, -, recursive⟩ := has'.loops.unloop_eq
  have only := once.unloop.eq defined
  rw [Expr.unloopFunction, recursive] at only
  have found : target.signature.kind = .plain ∧ target.signature.wrappers = [] := by
    injection only with _ same
    rw [same]
    exact ⟨has'.plain, rfl⟩
  simp [JumpRules.dressed, found.1, found.2]

/-! ## Runs of loops -/

/-- The errors of arguments that do not fit the parameters. -/
def EvalError.misfits : EvalError -> Bool
  | .arity .. | .missingArgument .. | .unexpectedKeyword .. => true
  | _ => false

/-- The program with the loop prints the one text and the program with the recursive function the
other. Neither raises one of the errors. -/
structure Program.LoopPrints (program : Program) (name handle : String) (function : Function)
    (transformed transformed' : Transformed) (errors : EvalError -> Bool) (text text' : String) :
    Prop where
  has : program.HasLoop name handle function
  outside : function.signature.regions = .none
  written : function.signature.decorators.map Prod.fst = ["looped"]
  succeeds : program.transform .default ["ec", "brk"] = .ok transformed
  succeeds' : (program.unloop name).transform .default ["ec", "brk"] = .ok transformed'
  never : ¬ transformed.program.Raises errors false
  never' : ¬ transformed'.program.Raises errors false
  prints : ∃ outcome, transformed.program.EndsOn (.start false) outcome ∧ outcome.2.output = text
  prints' : ∃ outcome, transformed'.program.EndsOn (.start false) outcome ∧ outcome.2.output = text'

section Prints

variable {fuel : Nat} {errors : EvalError -> Bool} {text text' : String}

/-- Whether the program ends with a value where handlers let the errors pass, and prints the
text. -/
def Program.prints (program : Program) (fuel : Nat) (errors : EvalError -> Bool) (text : String) :
    Bool :=
  (program.run fuel (.startLetting errors false)).any (·.1.toBool) &&
    (program.run fuel (.start false)).any (·.2.output == text)

/-- A program that is seen to print ends so, and raises none of the excepted errors. -/
theorem Program.prints_spec (prints : program.prints fuel errors text = true) :
    ¬ program.Raises errors false ∧
      ∃ outcome, program.EndsOn (.start false) outcome ∧ outcome.2.output = text := by
  obtain ⟨never, ran⟩ := Bool.and_eq_true_iff.mp prints
  obtain ⟨outcome, ran, printed⟩ := (Option.any_eq_true _ _).mp ran
  exact ⟨Program.not_raises fuel never, outcome, ⟨fuel, ran⟩, eq_of_beq printed⟩

/-- Whether the program is transformed to one that prints the text. -/
def Program.transformPrints (program : Program) (fuel : Nat) (errors : EvalError -> Bool)
    (text : String) : Bool :=
  (program.transform .default ["ec", "brk"]).toOption.any (·.program.prints fuel errors text)

/-- A program whose transformed form is seen to print has been transformed. -/
theorem Program.transformPrints_spec (prints : program.transformPrints fuel errors text = true) :
    ∃ transformed, program.transform .default ["ec", "brk"] = .ok transformed ∧
      transformed.program.prints fuel errors text = true := by
  unfold transformPrints at prints
  cases succeeds : program.transform .default ["ec", "brk"] with
  | error error => simp [succeeds, Except.toOption] at prints
  | ok transformed =>
    simp only [succeeds, Except.toOption, Option.any_some] at prints
    exact ⟨transformed, rfl, prints⟩

/-- Whether the program has a loop outside all blocks, and the programs with the loop and with the
recursive function print the texts. -/
def Program.loopPrints (program : Program) (name handle : String) (fuel : Nat)
    (errors : EvalError -> Bool) (text text' : String) : Bool :=
  (program.definition? name).any (fun function => function.Loops name handle ∧
    function.signature.kind = .plain ∧ function.signature.regions = .none ∧
    function.signature.decorators.map Prod.fst = ["looped"]) &&
  (program.unloop name).nodes.all (fun node => !node.assigns name) &&
  program.transformPrints fuel errors text &&
    (program.unloop name).transformPrints fuel errors text'

/-- What is seen of both forms of a loop is what is said of their runs. -/
theorem Program.loopPrints_spec
    (holds : program.loopPrints name handle fuel errors text text' = true) :
    ∃ function transformed transformed', program.definition? name = some function ∧
      program.LoopPrints name handle function transformed transformed' errors text text' := by
  simp only [loopPrints, Bool.and_eq_true, Option.any_eq_true, List.all_eq_true, decide_eq_true_eq,
    Bool.not_eq_true'] at holds
  obtain ⟨⟨⟨⟨function, defined, loops, plain, outside, written⟩, kept⟩, first⟩, second⟩ := holds
  obtain ⟨transformed, succeeds, first⟩ := transformPrints_spec first
  obtain ⟨transformed', succeeds', second⟩ := transformPrints_spec second
  obtain ⟨never, prints⟩ := prints_spec first
  obtain ⟨never', prints'⟩ := prints_spec second
  exact ⟨function, transformed, transformed', defined, ⟨definesOnce defined, loops, plain, kept⟩,
    outside, written, succeeds, succeeds', never, never', prints, prints'⟩

/-- Programs that match print the same. -/
theorem Program.Matches.output {first second : Program}
    (same : first.Matches second SameEnd closedOutput)
    {outcome other : Outcome Machine Value} (ends : first.EndsOn (.start closedOutput) outcome)
    (ends' : second.EndsOn (.start closedOutput) other) : other.2.output = outcome.2.output := by
  obtain ⟨found, ended, same⟩ := same.forth outcome ends
  obtain rfl := ends'.unique ended
  obtain ⟨error | value, last⟩ := outcome <;> obtain ⟨error' | value', last'⟩ := other
  · exact same.2
  · exact same.elim
  · exact same.elim
  · exact same.2

/-- Two forms that print different texts are not the same program. -/
theorem Program.LoopPrints.differ {transformed' : Transformed}
    (prints : program.LoopPrints name handle function transformed transformed' errors text text')
    (different : text' ≠ text) :
    ¬ transformed.program.Matches transformed'.program SameEnd false := by
  intro same
  obtain ⟨outcome, ends, rfl⟩ := prints.prints
  obtain ⟨other, ends', rfl⟩ := prints.prints'
  exact different (same.output ends ends')

end Prints

/-- A loop that sums up. -/
def summing : String :=
  "(defn sum-to (loop i acc) :decorators (looped)
    (if (> i 3) acc (loop (+ i 1) (+ acc i))))
  (print (sum-to 1 0))"

/-- A loop that adds up numbers is an instance: it does what the recursion does. -/
theorem summing_recursion : ∃ transformed transformed',
    (Program.ofText summing).transform .default ["ec", "brk"] = .ok transformed ∧
    ((Program.ofText summing).unloop "sum-to").transform .default ["ec", "brk"] = .ok transformed' ∧
    transformed.program.Matches transformed'.program SameEnd false := by
  obtain ⟨reads, prints, apart, noJumps, noHandles⟩ :
      (Program.parse summing none).toOption.isSome = true ∧
      (Program.ofText summing).loopPrints "sum-to" "loop" 60 EvalError.tellsLoops "6\n" "6\n" =
        true ∧
      (∀ function ∈ (Program.ofText summing).definition? "sum-to",
        ¬ function.body.JoinsCalls "loop") ∧
      (∀ node ∈ ((Program.ofText summing).unloop "sum-to").nodes, node.isJump = false) ∧
      ∀ function ∈ ((Program.ofText summing).unloop "sum-to").functions,
        ∀ written ∈ function.signature.decorators, written.1 ≠ Decorator.looped.name := by
    rw [Program.ofText, summing, Program.parse_ofList]
    decide +kernel
  have parsed := Program.parse_ofText reads
  obtain ⟨function, transformed, transformed', defined, prints⟩ := Program.loopPrints_spec prints
  obtain ⟨other, succeeds', same⟩ :=
    prints.has.recursion parsed prints.outside prints.written prints.succeeds
  cases prints.succeeds'.symm.trans succeeds'
  refine ⟨transformed, transformed', prints.succeeds, prints.succeeds', ?_⟩
  refine same false prints.never prints.never' fun _ _ _ _ _ _ _ _ listed gets ends => ?_
  have noJump := prints.has.callsComeTo parsed prints.outside prints.written prints.succeeds
    ⟨noJumps, noHandles⟩ prints.succeeds' listed gets ends
  exact ⟨noJump, fun joins => absurd joins (apart function defined)⟩

/-- A loop that ends with a jump. -/
def jumpingLoop : String :=
  "(defn f (h x) :decorators (looped) (if (= x 0) (jump identity 7) (h (- x 1))))
  (print (f 1))"

/-- A loop that joins what the next round comes to, a promise. -/
def promisingLoop : String :=
  "(lazify (defn late () (jump identity (print \"forced\"))))
  (tco (defn promise () (late)))
  (defn f (h x) :decorators (looped) (if (= x 0) (promise) (and #t (h 0))))
  (define result (f 1))
  (print \"after\")
  result"

/-- A loop whose second round captures a continuation, before a handler catches an error. -/
def capturingLoop : String :=
  "(define k nil)
  (continuations
    (defn h () (set! k cc) 1)
    (defn g () (capture (r) (h)) r))
  (defn f (loop i) :decorators (looped) (if (= i 0) 0 (begin (g) (loop (- i 1)))))
  (try (fn () (f 2) (raise \"x\")) (fn (m) (print m)))
  (print (try (fn () (k 5)) (fn (m) \"refused\")))"

/-- The loop runs the jump that the recursive function comes to, it does not force the promise that
the recursive function forces, and an error after its end leaves the continuations valid that were
captured in its later rounds. -/
theorem loops_differ :
    (∃ function transformed transformed', (Program.ofText jumpingLoop).LoopPrints "f" "h" function
        transformed transformed' EvalError.misfits "7\n" "<jump>\n" ∧
      ¬ transformed.program.Matches transformed'.program SameEnd false) ∧
    (∃ function transformed transformed', (Program.ofText promisingLoop).LoopPrints "f" "h" function
        transformed transformed' EvalError.misfits "after\nforced\n" "forced\nafter\n" ∧
      ¬ transformed.program.Matches transformed'.program SameEnd false) ∧
    ∃ function transformed transformed',
      (Program.ofText capturingLoop).LoopPrints "f" "loop" function
        transformed transformed' EvalError.misfits "x\n5\n" "x\nrefused\n" ∧
      ¬ transformed.program.Matches transformed'.program SameEnd false := by
  obtain ⟨jumping, promising, capturing⟩ :
      (Program.ofText jumpingLoop).loopPrints "f" "h" 60 EvalError.misfits "7\n" "<jump>\n" = true ∧
      (Program.ofText promisingLoop).loopPrints "f" "h" 60 EvalError.misfits "after\nforced\n"
        "forced\nafter\n" = true ∧
      (Program.ofText capturingLoop).loopPrints "f" "loop" 60 EvalError.misfits "x\n5\n"
        "x\nrefused\n" = true := by
    rw [Program.ofText, jumpingLoop, Program.parse_ofList, Program.ofText, promisingLoop,
      Program.parse_ofList, Program.ofText, capturingLoop, Program.parse_ofList]
    decide +kernel
  obtain ⟨function, transformed, transformed', -, prints⟩ := Program.loopPrints_spec jumping
  obtain ⟨function', other, other', -, prints'⟩ := Program.loopPrints_spec promising
  obtain ⟨function'', another, another', -, prints''⟩ := Program.loopPrints_spec capturing
  exact ⟨⟨function, transformed, transformed', prints, prints.differ (by decide)⟩,
    ⟨function', other, other', prints', prints'.differ (by decide)⟩,
    function'', another, another', prints'', prints''.differ (by decide)⟩

end Trampoline
