import Trampoline.Proofs.Evaluation.Stacks
import Trampoline.Proofs.Transport.Diagonal

/-!
# Sessions with whole machines

A machine that refers only to what it has mirrors itself, and so do the machines that it becomes. If
a host works with it by what it has, then every call of the session is made on such a machine, and
the call refers only to what the machine has.
-/

namespace Trampoline

open Exec

variable {α : Type} {m later : Machine} {reflection : Reflection} {n : Nat}

/-! ## Machines as their own images -/

/-- The mirror by which the machine is its own image. -/
def Machine.mirror (m : Machine) : Mirror := .faithful (fun _ => True) m.passed

/-- A machine all of whose references exist is the same as itself, number by number. -/
theorem Machine.Whole.mirrors (whole : m.Whole) : m.Mirrors m.mirror m.diagonal m where
  bounded := by
    rintro store a b ⟨rfl, inside⟩
    exact ⟨inside, inside⟩
  oneToOne := diagonal_oneToOne
  contents := by
    rintro store a b ⟨rfl, inside⟩
    exact (whole.contents store a inside).across id (fun _ _ => trivial) (fun _ => id)
      (fun _ _ _ => id) fun _ => rfl
  globals name := by
    cases found : m.global? name with
    | none => exact .none
    | some value => exact .some ((whole.globals name value found).mirrors fun _ => trivial)
  fixed := False.elim
  held := False.elim
  sized _ := rfl
  aligned _ store := by
    refine ⟨rfl, fun _ => False.elim, fun a b => ?_⟩
    simp only [diagonal, mirror, Mirror.faithful, not_false_eq_true, and_true]
  stack _ := ⟨Nat.zero_le _, Nat.zero_le _,
    List.forall₂_same.mpr fun extent member =>
      ⟨rfl, whole.stack extent (List.mem_of_mem_drop member)⟩⟩
  passed := rfl
  passed' := rfl
  closedOutput := rfl
  output := ⟨m.output, String.empty_append.symm, String.empty_append.symm⟩

/-- What the machine is a mirror image of refers only to what the machine has. -/
theorem Machine.Mirrors.le_diagonal {passed : EvalError -> Bool}
    (mirrors : m.Mirrors (.faithful (fun _ => True) passed) reflection m) :
    reflection ≤ m.diagonal where
  pairs {store a b} known := by
    obtain ⟨same, inside, -⟩ := ((mirrors.aligned rfl store).2.2 a b).mp known
    exact ⟨same, inside⟩
  held {ref value} known := by
    obtain ⟨inside, -, alone⟩ := mirrors.held known
    exact absurd (((mirrors.aligned rfl .cell).2.2 ref ref).mpr ⟨rfl, inside, id⟩) (alone ref)
  fixed known := (mirrors.fixed known).1.elim

/-! ## Calls on whole machines -/

/-- The machine refers only to what it has, and the task only to what the machine has. -/
def Call.Whole (call : Call) : Prop :=
  ∃ reflection post, call.machine.Mirrors call.machine.mirror reflection call.machine ∧
    call.task.Mirrors call.machine.mirror reflection call.task post

namespace Call.Whole

variable {callable : Callable} {args : List Value} {kwargs : Kwargs}

theorem machine {call : Call} (whole : call.Whole) : call.machine.Whole := by
  obtain ⟨reflection, post, machines, -⟩ := whole
  exact machines.whole

/-- What is applied is what the machine has. -/
theorem applies (whole : Call.Whole ⟨n, .apply callable args kwargs, m⟩) :
    m.Has (.func callable) ∧ m.HasAll args kwargs := by
  obtain ⟨reflection, post, machines, tasks⟩ := whole
  have within {store : Store} {a b : Nat} (known : reflection.pairs store a b) :
      m.diagonal.pairs store a b := machines.le_diagonal.pairs known
  have nodes (e : Expr) : m.mirror.node e -> Mirror.plain.node e := fun _ => trivial
  have across {value value' : Value} (same : value.Mirrors m.mirror reflection value') :
      value.Mirrors .plain m.diagonal value' :=
    same.across within nodes (fun _ => id) fun _ _ _ => id
  cases tasks with
  | apply same values named =>
    refine ⟨across (.func same), fun value member => ?_, fun entry member => ?_⟩
    · exact across (List.forall₂_same.mp values.forall₂ value member)
    · exact across (List.forall₂_same.mp named entry member).2

end Call.Whole

section Calls

variable {passed : EvalError -> Bool}

/-- On a whole machine all calls of a plan are whole. -/
theorem Plan.Mirrors.calls_whole {plan : Plan α} {post : Reflection -> α -> α -> Prop}
    (mirrors : plan.Mirrors (.faithful (fun _ => True) passed) reflection plan post)
    (machines : m.Mirrors (.faithful (fun _ => True) passed) reflection m)
    (inside : ∀ {reflection task post m},
      Task.Mirrors (.faithful (fun _ => True) passed) reflection task task post ->
      m.Mirrors (.faithful (fun _ => True) passed) reflection m ->
      ∀ call ∈ task.calls n m, call.Whole) :
    ∀ call ∈ plan.calls (Task.run n) (Task.calls n) m, call.Whole := by
  have below {β : Type} (plan : Plan β) : (plan.chain.cut n).limited ≤ (plan.chain.cut n).full :=
    Chain.cut_below _ n
  have performs : (Mirror.faithful (fun _ => True) passed).Performs .all .all n :=
    Mirror.performs_plain (fun _ => .inl rfl) (fun _ _ _ => id) n
  induction plan generalizing reflection m with
  | done value => simp [Plan.calls]
  | step run next ih =>
    cases mirrors with
    | step moves after =>
    intro call member
    rw [Plan.calls] at member
    split at member
    · rename_i value middle ran
      cases (moves m m machines fun _ _ => .inl rfl).itself (Exec.le_refl _) ran with
      | value order known machines =>
      exact ih value (after _ _ _ order known) machines call member
    · cases member
  | ask task next ih =>
    cases mirrors with
    | ask asks after =>
    intro call member
    rw [Plan.calls] at member
    rcases List.mem_append.mp member with member | member
    · exact inside asks machines call member
    · split at member
      · rename_i answer middle ran
        cases (performs asks machines trivial trivial).itself (Chain.cut_below _ n) ran with
        | value order known machines =>
        exact ih answer (after _ _ _ order known) machines call member
      · cases member
  | guarded inner next ihInner ih =>
    cases mirrors with
    | guarded within after =>
    intro call member
    rw [Plan.calls] at member
    rcases List.mem_append.mp member with member | member
    · exact ihInner within machines call member
    · split at member
      · rename_i value middle ran
        have agrees := Mirror.Agrees.of_plans rfl (fun _ _ _ => id) within machines n
        rw [← Plan.cut_chain_limited] at ran
        cases (agrees.guarded machines).itself (guarded_le (below inner)) ran with
        | value order known machines =>
        exact ih value (after _ _ _ order known) machines call member
      · cases member
  | settle inner next ihInner ih =>
    cases mirrors with
    | settle within relays relays' afterOk afterError =>
    intro call member
    rw [Plan.calls] at member
    rcases List.mem_append.mp member with member | member
    · exact ihInner within machines call member
    · split at member
      · rename_i result middle ran
        have agrees := Mirror.Agrees.of_plans rfl (fun _ _ _ => id) within machines n
        rw [← Plan.cut_chain_limited] at ran
        cases agrees.itself (below inner) ran with
        | value order known machines =>
          exact ih _ (afterOk _ _ _ order known) machines call member
        | error order same kept kept' machines =>
          exact ih _ (afterError _ _ _ order same kept kept') machines call member
      · cases member

/-- On a whole machine all calls of a task are whole. -/
theorem Task.Mirrors.calls_whole {task : Task}
    {post : Reflection -> task.Answer -> task.Answer -> Prop}
    (mirrors : task.Mirrors (.faithful (fun _ => True) passed) reflection task post)
    (machines : m.Mirrors (.faithful (fun _ => True) passed) reflection m) (n : Nat) :
    ∀ call ∈ task.calls n m, call.Whole := by
  have first (n : Nat) {reflection : Reflection} {task : Task}
      {post : Reflection -> task.Answer -> task.Answer -> Prop} {m : Machine}
      (mirrors : task.Mirrors (.faithful (fun _ => True) passed) reflection task post)
      (machines : m.Mirrors (.faithful (fun _ => True) passed) reflection m) :
      Call.Whole ⟨n, task, m⟩ := by
    obtain rfl : m.passed = passed := by
      rw [machines.passed]
      rfl
    exact ⟨reflection, post, machines, mirrors⟩
  induction n generalizing reflection task m with
  | zero =>
    intro call member
    obtain rfl := List.mem_singleton.mp member
    exact first 0 mirrors machines
  | succ n ih =>
    refine List.forall_mem_cons.mpr ⟨first (n + 1) mirrors machines, ?_⟩
    exact (mirrors.plan fun _ _ => id).calls_whole machines ih

end Calls

/-! ## Sessions -/

/-- The calls of a task that a host has done come before those of the rest of the session. -/
theorem history_task {task : Task} {result : Except EvalError task.Answer}
    (ran : task.run n m = some (result, later)) (rest : List Operation) :
    history n (.task task :: rest) m = task.calls n m ++ history n rest later := by
  have ends : ∃ result',
    (Plan.operation (.task task)).run (Task.run n) m = some (result', later) := by
    show ∃ result', Exec.bind (task.run n) _ m = some (result', later)
    cases result <;> simp [Exec.bind, ran, Plan.run]
  obtain ⟨result', ends⟩ := ends
  have inside :
    (Plan.operation (.task task)).calls (Task.run n) (Task.calls n) m = task.calls n m := by
    rw [Plan.operation, Plan.calls]
    split <;> exact List.append_nil _
  rw [history, Plan.session, Plan.calls, inside, ends]
  rfl

/-- The operation is about what the machine has. -/
def Operation.Known (m : Machine) : Operation -> Prop
  | .task asked => ∃ post, asked.Mirrors m.mirror m.diagonal asked post
  | .run _ => True
  | .define _ value => value.Mirrors m.mirror m.diagonal value
  | .delay thunk => thunk.Mirrors m.mirror m.diagonal thunk
  | .list items => ValuesMirror m.mirror m.diagonal items items
  | .jump postponed => postponed.Mirrors m.mirror m.diagonal postponed

/-- Every operation of the session is about what the machine has by then. -/
def Machine.Serves (n : Nat) : List Operation -> Machine -> Prop
  | [], _ => True
  | first :: rest, m => first.Known m ∧ ∀ result later,
    (Plan.operation first).run (Task.run n) m = some (result, later) -> Machine.Serves n rest later

/-- An operation that a machine knows mirrors itself. -/
theorem Operation.Known.mirrors {operation : Operation} (known : operation.Known m) :
    (Plan.operation operation).Mirrors m.mirror m.diagonal (Plan.operation operation)
      fun _ _ _ => True := by
  cases operation with
  | task task =>
    obtain ⟨post, tasks⟩ := known
    exact .ask tasks fun _ _ _ _ _ => .done trivial
  | run program =>
    have allows : ∀ form ∈ program.top, form.expr.All (m.mirror.Allows false) :=
      fun form _ => .all (fun _ => trivial) _
    exact (Plan.toplevels_mirror allows (fun _ _ _ => id) .nil).bind fun _ _ _ _ _ => .done trivial
  | define name value =>
    refine .lift fun _ _ machines => ?_
    exact .value rfl rfl (Reflection.le_refl _) trivial (machines.define id known)
  | delay thunk => exact .moving (.newPromise known) fun _ _ _ _ _ => .done trivial
  | list items => exact .moving (.newList known) fun _ _ _ _ _ => .done trivial
  | jump jump => exact .moving (.newJump known) fun _ _ _ _ _ => .done trivial

/-- Every call of a session with a whole machine is made on a whole machine. -/
theorem Machine.Whole.history_whole {operations : List Operation} (whole : m.Whole)
    (serves : m.Serves n operations) : ∀ call ∈ history n operations m, call.Whole := by
  induction operations generalizing m with
  | nil => simp [history, Plan.session, Plan.calls]
  | cons first rest ih =>
    obtain ⟨known, after⟩ := serves
    have mirrors := known.mirrors
    intro call member
    rw [history, Plan.session, Plan.calls] at member
    rcases List.mem_append.mp member with member | member
    · exact mirrors.calls_whole whole.mirrors (fun same machines => same.calls_whole machines n)
        call member
    · split at member
      · rename_i result later ran
        have agrees := Mirror.Agrees.of_plans rfl (fun _ _ _ => id) mirrors whole.mirrors n
        rw [← Plan.cut_chain_limited] at ran
        have later_whole : later.Whole := by
          cases agrees.itself (Chain.cut_below _ n) ran with
          | value _ _ machines => exact machines.whole
          | error _ _ _ _ machines => exact machines.whole
        rw [Plan.cut_chain_limited] at ran
        exact ih later_whole (after _ _ ran) call member
      · cases member

end Trampoline
