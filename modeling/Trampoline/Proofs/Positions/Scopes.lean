import Trampoline.Proofs.Positions.Cells

/-!
# Scopes of a running body

A running body adds names to the scope that it begins in, and they stand for cells that it makes
itself; at the end of a block it goes back to an earlier scope. So whatever it evaluates, a name
stands for such a cell or for what it stood for in the beginning.
-/

namespace Trampoline

open Exec

/-- The later scope has more of the names, for some of the cells. -/
def Env.Extends (env : Env) (names : String -> Prop) (cells : List CellRef) (later : Env) : Prop :=
  ∃ added, later = added ++ env ∧ ∀ entry ∈ added, names entry.1 ∧ entry.2 ∈ cells

namespace Env.Extends

variable {env middle later : Env} {names others : String -> Prop} {cells more : List CellRef}

theorem refl (env : Env) (names : String -> Prop) (cells : List CellRef) :
    Env.Extends env names cells env := ⟨[], rfl, by simp⟩

theorem mono (wider : Env.Extends env names cells later)
    (known : ∀ name, names name -> others name) (subset : cells ⊆ more) :
    Env.Extends env others more later := by
  obtain ⟨added, same, ofCells⟩ := wider
  refine ⟨added, same, fun entry member => ?_⟩
  exact (ofCells entry member).imp (known entry.1) fun inside => subset inside

theorem trans (first : Env.Extends env names cells middle)
    (second : Env.Extends middle names more later) :
    Env.Extends env names (cells ++ more) later := by
  obtain ⟨added, rfl, ofCells⟩ := first
  obtain ⟨others, rfl, ofMore⟩ := second
  refine ⟨others ++ added, (List.append_assoc ..).symm, List.forall_mem_append.mpr ⟨?_, ?_⟩⟩
  · exact fun entry member => (ofMore entry member).imp_right (List.mem_append_right _)
  · exact fun entry member => (ofCells entry member).imp_right (List.mem_append_left _)

variable {name : String} {ref : CellRef}

theorem bind (wider : Env.Extends env names cells later) (known : names name)
    (member : ref ∈ cells) : Env.Extends env names cells ((name, ref) :: later) := by
  obtain ⟨added, rfl, ofCells⟩ := wider
  exact ⟨(name, ref) :: added, rfl, List.forall_mem_cons.mpr ⟨⟨known, member⟩, ofCells⟩⟩

/-- A name stands for one of the cells or for what it stood for. -/
theorem lookup (wider : Env.Extends env names cells later)
    (found : later.lookup name = some ref) : ref ∈ cells ∨ env.lookup name = some ref := by
  obtain ⟨added, rfl, ofCells⟩ := wider
  rw [List.lookup_append] at found
  rcases Option.or_eq_some_iff.mp found with found | ⟨-, found⟩
  · obtain ⟨before, after, rfl, -⟩ := List.lookup_eq_some_iff.mp found
    exact .inl (ofCells (name, ref) (by simp)).2
  · exact .inr found

/-- Another name stands for what it stood for. -/
theorem lookup_eq (wider : Env.Extends env names cells later)
    (other : ¬ names name) : later.lookup name = env.lookup name := by
  obtain ⟨added, rfl, ofCells⟩ := wider
  have missing : added.lookup name = none := by
    refine List.lookup_eq_none_iff.mpr fun entry member => bne_iff_ne.mpr ?_
    rintro rfl
    exact other (ofCells entry member).1
  rw [List.lookup_append, missing, Option.none_or]

end Env.Extends

/-- One of the expressions has a `let` of the name. -/
def Binds (es : List Expr) (name : String) : Prop :=
  ∃ mark bindee, Expr.bind mark name bindee ∈ nodesOfAll es

variable {name : String}

theorem Binds.mono {es more : List Expr} (subset : es ⊆ more)
    (binds : Binds es name) : Binds more name := by
  obtain ⟨mark, bindee, member⟩ := binds
  exact ⟨mark, bindee, nodesOfAll_subset subset member⟩

/-- What the parts of a task bind, the task binds. -/
theorem Binds.inner {task : Task} (binds : Binds task.inner name) : Binds task.exprs name := by
  cases task with
  | eval e frame =>
    obtain ⟨mark, bindee, member⟩ := binds
    refine ⟨mark, bindee, ?_⟩
    simp only [Task.exprs, nodesOfAll, List.append_nil]
    rw [e.nodes_parts]
    exact List.mem_cons_of_mem _ (nodesOfAll_subset e.children_subset_parts member)
  | _ => exact binds

/-! ## Tasks and their scopes -/

namespace Task

/-- The scope that a task of a body begins in. -/
def scope : Task -> Env
  | eval _ frame | evalForced _ frame | evalContinuation _ frame | operand _ _ frame
  | delayed _ frame | operands _ _ frame | keywords _ _ frame | evalArms _ _ frame
  | evalShort _ _ _ frame | evalItems _ _ frame | evalLoop _ _ frame => frame.env
  | _ => []

/-- The scope that a task of a body ends in. -/
def endScope : (task : Task) -> task.Answer -> Env
  | eval .., answer | evalForced .., answer | evalContinuation .., answer | operand .., answer
  | delayed .., answer | operands .., answer | keywords .., answer | evalArms .., answer
  | evalShort .., answer | evalItems .., answer | evalLoop .., answer => answer.2.env
  | _, _ => []

end Task

namespace Plan

variable {α β : Type} {env : Env} {names : String -> Prop} {ends : α -> Env}
  {made more : List CellRef}

/-- The plan begins in the scope, with some cells made before. What it asks of the body is asked in
scopes that extend it, and it ends in one. -/
def Widens (env : Env) (names : String -> Prop) {α : Type} (ends : α -> Env) :
    Plan α -> List CellRef -> Prop
  | done value, made => Env.Extends env names made (ends value)
  | step run next, made => ∀ m value later, run m = some (.ok value, later) ->
    (next value).Widens env names ends (made ++ m.newCells later)
  | ask task next, made => (task.isOfBody = true -> Env.Extends env names made task.scope) ∧
    ∀ answer cells,
      (task.isOfBody = true -> Env.Extends task.scope names cells (task.endScope answer)) ->
      (next answer).Widens env names ends (made ++ cells)
  | guarded .., _ => False
  | settle .., _ => False

theorem append_subset {α : Type} {first more : List α} (subset : first ⊆ more) (rest : List α) :
    first ++ rest ⊆ more ++ rest :=
  List.append_subset.mpr
    ⟨List.Subset.trans subset (List.subset_append_left _ _), List.subset_append_right _ _⟩

namespace Widens

theorem mono {plan : Plan α} (widens : plan.Widens env names ends made) (subset : made ⊆ more) :
    plan.Widens env names ends more := by
  induction plan generalizing made more with
  | done value => exact Env.Extends.mono widens (fun _ => id) subset
  | step run next ih =>
    exact fun m value later ran =>
      ih value (widens m value later ran) (append_subset subset _)
  | ask task next ih =>
    refine ⟨fun ofBody => (widens.1 ofBody).mono (fun _ => id) subset, fun answer cells known => ?_⟩
    exact ih answer (widens.2 answer cells known)
      (append_subset subset _)
  | guarded => exact widens.elim
  | settle => exact widens.elim

theorem pure {value : α} (known : Env.Extends env names made (ends value)) :
    (Pure.pure value : Plan α).Widens env names ends made := known

/-- A step that makes a cell. -/
theorem newCell {value : Value} {next : CellRef -> Plan α}
    (after : ∀ ref cells, ref ∈ cells -> made ⊆ cells -> (next ref).Widens env names ends cells) :
    (lift (Run.newCell value) >>= next).Widens env names ends made := by
  rintro m ref later ⟨⟩
  refine after _ _ (List.mem_append_right _ ?_) (List.subset_append_left _ _)
  rw [Machine.newCells, List.mem_range'_1, Array.size_push]
  omega

/-- A step that binds nothing. -/
theorem skip {run : Run β} {next : β -> Plan α}
    (after : ∀ value, (next value).Widens env names ends made) :
    (lift run >>= next).Widens env names ends made :=
  fun _ value _ _ => (after value).mono (List.subset_append_left _ _)

variable {task : Task} {next : task.Answer -> Plan α}

/-- A task that is not of the body has no scope of it to be asked in. -/
theorem foreign (other : task.isOfBody = false)
    (after : ∀ answer, (next answer).Widens env names ends made) :
    (sub task >>= next).Widens env names ends made := by
  refine ⟨fun ofBody => ?_, fun answer cells _ => (after answer).mono (List.subset_append_left _ _)⟩
  rw [other] at ofBody
  cases ofBody

/-- A task of the body. -/
theorem own (ofBody : task.isOfBody = true)
    (known : Env.Extends env names made task.scope) (after : ∀ answer cells, made ⊆ cells ->
      Env.Extends env names cells (task.endScope answer) ->
        (next answer).Widens env names ends cells) :
    (sub task >>= next).Widens env names ends made :=
  ⟨fun _ => known, fun answer _ wider =>
    after answer _ (List.subset_append_left _ _) (known.trans (wider ofBody))⟩

/-- A last task of the body is asked in the scope, and the plan ends where it does. -/
theorem last (task : Task) {ends : task.Answer -> Env} (ofBody : task.isOfBody = true)
    (known : Env.Extends env names made task.scope)
    (same : ∀ answer, ends answer = task.endScope answer) :
    (sub task).Widens env names ends made := by
  refine ⟨fun _ => known, fun answer cells wider => ?_⟩
  show Env.Extends env names _ (ends answer)
  rw [same]
  exact known.trans (wider ofBody)

end Widens

end Plan

/-- Making a closure leaves the scope as it is. -/
theorem expose_makeClosure_env {function : Function} {frame frame' : Frame} {value : Value}
    {m last : Machine}
    (ran : expose (makeClosure function) frame m = some (.ok (value, frame'), last)) :
    frame'.env = frame.env := by
  unfold makeClosure at ran
  rw [expose_bind, expose_frame, pure_bind] at ran
  cases kind : function.signature.kind with
  | plain =>
    simp only [kind, expose_bind, expose_within, expose_pure, bind_assoc, pure_bind] at ran
    obtain ⟨ref, middle, -, ran⟩ := bind_eq_ok.mp ran
    obtain ⟨callable, middle, -, ran⟩ := bind_eq_ok.mp ran
    cases ran
    rfl
  | continuation =>
    simp only [kind, expose_bind, expose_within, expose_pure, bind_assoc, pure_bind] at ran
    obtain ⟨⟨extent, frame''⟩, middle, captured, ran⟩ := bind_eq_ok.mp ran
    obtain ⟨ref, middle, -, ran⟩ := bind_eq_ok.mp ran
    obtain ⟨_, middle, -, ran⟩ := bind_eq_ok.mp ran
    cases ran
    simp only [expose, around, Body.captureExtent] at captured
    split at captured <;> cases captured <;> rfl

namespace Task

open Plan

variable {e : Expr} {frame : Frame}

/-- The plan of an evaluation widens its scope by names that the expression binds. -/
theorem eval_widens (e : Expr) (frame : Frame) :
    (eval e frame).plan.Widens frame.env (Binds [e]) (eval e frame).endScope [] := by
  have here {cells : List CellRef} : Env.Extends frame.env (Binds [e]) cells frame.env :=
    .refl _ _ _
  cases e with
  | lit mark value => exact .pure here
  | var mark name =>
    refine .skip fun value => ?_
    split
    · exact .foreign rfl fun value => .pure here
    · exact .pure here
  | fn mark signature code =>
    rintro m ⟨value, frame'⟩ later ran
    show Env.Extends frame.env _ _ frame'.env
    rw [expose_makeClosure_env ran]
    exact here
  | call mark func args kwargs =>
    refine .own rfl here ?_
    rintro ⟨_, frame₁⟩ cells - known
    refine .skip fun callee => ?_
    refine .own rfl known ?_
    rintro ⟨_, frame₂⟩ cells - known
    refine .own rfl known ?_
    rintro ⟨_, frame₃⟩ cells - known
    exact .foreign rfl fun value => .pure known
  | cond mark arms alt => exact .last (evalArms arms alt frame) rfl here fun _ => rfl
  | short mark op es => exact .last (evalShort op es _ frame) rfl here fun _ => rfl
  | seq mark items => exact .own rfl here fun answer cells _ _ => .pure here
  | bind mark name bindee =>
    have binds : Binds [.bind mark name bindee] name :=
      ⟨mark, bindee, mem_nodesOfAll List.mem_cons_self⟩
    cases bindee with
    | fn inner signature code =>
      refine .newCell fun ref cells member _ => ?_
      refine .own rfl (here.bind binds member) ?_
      rintro ⟨_, frame₁⟩ cells - known
      exact .skip fun _ => .pure known
    | _ =>
      refine .own rfl here ?_
      rintro ⟨_, frame₁⟩ cells - known
      exact .newCell fun ref cells member subset =>
        .pure ((known.mono (fun _ => id) subset).bind binds member)
  | assign mark name bindee =>
    refine .own rfl here ?_
    rintro ⟨_, frame₁⟩ cells - known
    exact .skip fun _ => .pure known
  | loop mark test body => exact .last (evalLoop test body frame) rfl here fun _ => rfl
  | jump mark func args kwargs cc =>
    refine .own rfl here ?_
    rintro ⟨_, frame₁⟩ cells - known
    refine .skip fun target => ?_
    refine .own rfl known ?_
    rintro ⟨_, frame₂⟩ cells - known
    refine .own rfl known ?_
    rintro ⟨_, frame₃⟩ cells - known
    refine .own rfl known ?_
    rintro ⟨_, frame₄⟩ cells - known
    exact .skip fun _ => .pure known
  | capture mark binders captured =>
    rintro m answer later ⟨⟩

/-- What a running body evaluates, it evaluates in scopes that extend the one it begins in. -/
theorem plan_widens {task : Task} (ofBody : task.isOfBody = true) :
    task.plan.Widens task.scope (Binds task.exprs) task.endScope [] := by
  have here {cells : List CellRef} : Env.Extends task.scope (Binds task.exprs) cells task.scope :=
    .refl _ _ _
  cases task with
  | eval e frame => exact eval_widens e frame
  | evalForced e frame =>
    refine .own rfl here ?_
    rintro ⟨_, frame₁⟩ cells - known
    exact .foreign rfl fun _ => .pure known
  | evalContinuation cc frame =>
    cases cc with
    | none => exact .pure here
    | some e =>
      refine .own rfl here ?_
      rintro ⟨_, frame₁⟩ cells - known
      exact .pure known
  | operand policy e frame =>
    simp only [plan]
    split
    · exact .last (eval e frame) rfl here fun _ => rfl
    · cases policy with
      | strict => exact .last (evalForced e frame) rfl here fun _ => rfl
      | delay => exact .last (delayed e frame) rfl here fun _ => rfl
  | delayed e frame =>
    cases e with
    | var mark name => exact .skip fun _ => .pure here
    | lit mark value => exact .last (eval (.lit mark value) frame) rfl here fun _ => rfl
    | fn mark signature body => exact .last (eval (.fn mark signature body) frame) rfl here fun _ =>
      rfl
    | _ => exact .skip fun _ => .pure here
  | operands policy es frame =>
    cases es with
    | nil => exact .pure here
    | cons e rest =>
      refine .own rfl here ?_
      rintro ⟨_, frame₁⟩ cells - known
      refine .own rfl known ?_
      rintro ⟨_, frame₂⟩ cells - known
      exact .pure known
  | keywords policy es frame =>
    rcases es with _ | ⟨⟨name, e⟩, rest⟩
    · exact .pure here
    · refine .own rfl here ?_
      rintro ⟨_, frame₁⟩ cells - known
      refine .own rfl known ?_
      rintro ⟨_, frame₂⟩ cells - known
      exact .pure known
  | evalArms arms alt frame =>
    rcases arms with _ | ⟨⟨test, body⟩, rest⟩
    · cases alt with
      | none => exact .pure here
      | some e => exact .last (eval e frame) rfl here fun _ => rfl
    · refine .own rfl here ?_
      rintro ⟨value, frame₁⟩ cells - known
      dsimp only
      split
      · exact .last (eval body frame₁) rfl known fun _ => rfl
      · exact .last (evalArms rest alt frame₁) rfl known fun _ => rfl
  | evalShort op es before frame =>
    cases es with
    | nil => exact .pure here
    | cons e rest =>
      refine .own rfl here ?_
      rintro ⟨value, frame₁⟩ cells - known
      dsimp only
      split
      · exact .pure known
      · exact .last (evalShort op rest value frame₁) rfl known fun _ => rfl
  | evalItems es before frame =>
    cases es with
    | nil => exact .pure here
    | cons e rest =>
      refine .own rfl here ?_
      rintro ⟨value, frame₁⟩ cells - known
      exact .last (evalItems rest value frame₁) rfl known fun _ => rfl
  | evalLoop test body frame =>
    refine .own rfl here ?_
    rintro ⟨value, frame₁⟩ cells - known
    dsimp only
    split
    · refine .own rfl known ?_
      rintro ⟨_, frame₂⟩ cells - known
      exact .last (evalLoop test body frame₂) rfl known fun _ => rfl
    · exact .pure known
  | _ => cases ofBody

end Task

/-! ## Scopes on the way -/

/-- The call begins or ends in the scope. -/
def Call.StandsIn (call : Call) (scope : Env) : Prop :=
  scope = call.task.scope ∨ ∃ answer last,
    call.task.run call.fuel call.machine = some (.ok answer, last) ∧
      scope = call.task.endScope answer

namespace Task

variable {n : Nat} {m : Machine}

theorem visits_foreign {task : Task} (other : task.isOfBody = false) : task.visits n m = [] := by
  cases n <;> cases task <;> first | rfl | cases other

/-- What is visited on the way of a task of a body, and its end, stand in scopes that extend the one
it begins in by names for cells that it makes. -/
structure StaysIn (n : Nat) (task : Task) (m : Machine) : Prop where
  ends : ∀ answer last, task.run n m = some (.ok answer, last) ->
    Env.Extends task.scope (Binds task.exprs) (task.ownCells n m) (task.endScope answer)
  visits : ∀ visit ∈ task.visits n m, ∀ scope, visit.StandsIn scope ->
    Env.Extends task.scope (Binds task.exprs) (task.ownCells n m) scope

/-- What its plan widens, a task widens, and so does everything that is visited. -/
theorem stays_of_widens {α : Type} {plan : Plan α} {env : Env} {names : String -> Prop}
    {ends : α -> Env} {made : List CellRef} (widens : plan.Widens env names ends made)
    (only : plan.Only fun asked => ∀ name, Binds asked.exprs name -> names name)
    (tasks : ∀ task m, task.isOfBody = true -> StaysIn n task m) :
    (∀ answer last, plan.run (Task.run n) m = some (.ok answer, last) ->
      Env.Extends env names (made ++ plan.makes (Task.run n) (ownCells n) m) (ends answer)) ∧
    ∀ visit ∈ plan.calls (Task.run n) (visits n) m, ∀ scope, visit.StandsIn scope ->
      Env.Extends env names (made ++ plan.makes (Task.run n) (ownCells n) m) scope := by
  induction plan generalizing made m with
  | done value =>
    refine ⟨?_, by simp [Plan.calls]⟩
    rintro answer last ⟨⟩
    exact Env.Extends.mono widens (fun _ => id) (List.subset_append_left _ _)
  | step run next ih =>
    refine ⟨fun answer last ran => ?_, fun visit member scope stands => ?_⟩
    · obtain ⟨value, middle, first, rest⟩ := bind_eq_ok.mp ran
      have inside := (ih value (widens m value middle first) (only value)).1 answer last rest
      rwa [Plan.makes, first, ← List.append_assoc]
    · rw [Plan.calls] at member
      split at member
      · rename_i value middle first
        have inside := (ih value (widens m value middle first) (only value)).2 visit member
        have inside := inside scope stands
        rwa [Plan.makes, first, ← List.append_assoc]
      · cases member
  | ask task next ih =>
    have known (answer : task.Answer) (middle : Machine)
        (first : task.run n m = some (.ok answer, middle)) :
        (next answer).Widens env names ends (made ++ task.ownCells n m) :=
      widens.2 answer _ fun ofBody =>
        ((tasks task m ofBody).ends answer middle first).mono only.1 (List.Subset.refl _)
    refine ⟨fun answer last ran => ?_, fun visit member scope stands => ?_⟩
    · obtain ⟨value, middle, first, rest⟩ := bind_eq_ok.mp ran
      have inside := (ih value (known value middle first) (only.2 value)).1 answer last rest
      rwa [Plan.makes, first, ← List.append_assoc]
    · rw [Plan.calls] at member
      rcases List.mem_append.mp member with member | member
      · rw [Plan.makes, ← List.append_assoc]
        cases ofBody : task.isOfBody with
        | false =>
          rw [visits_foreign ofBody] at member
          cases member
        | true =>
          have inside := ((tasks task m ofBody).visits visit member scope stands).mono only.1
            (List.Subset.refl _)
          exact ((widens.1 ofBody).trans inside).mono (fun _ => id) (List.subset_append_left _ _)
      · split at member
        · rename_i value middle first
          have inside := (ih value (known value middle first) (only.2 value)).2 visit member
          have inside := inside scope stands
          rwa [Plan.makes, first, ← List.append_assoc]
        · cases member
  | guarded => exact widens.elim
  | settle => exact widens.elim

/-- Every task of a body stays in its scope, by induction on the fuel. -/
theorem staysIn (n : Nat) (task : Task) (m : Machine) (ofBody : task.isOfBody = true) :
    StaysIn n task m := by
  induction n generalizing task m with
  | zero =>
    have stuck : task.run 0 m = none := by cases task <;> rfl
    refine ⟨fun answer last ran => ?_, fun visit member scope stands => ?_⟩
    · rw [stuck] at ran
      cases ran
    · cases task with
      | eval e frame =>
        obtain rfl := List.mem_singleton.mp member
        rcases stands with rfl | ⟨answer, last, ran, -⟩
        · exact .refl _ _ _
        · cases stuck.symm.trans ran
      | _ => cases member
  | succ n ih =>
    have only : task.plan.Only fun asked => ∀ name, Binds asked.exprs name ->
      Binds task.exprs name :=
      (only_inner ofBody).imp fun asked subset name binds => Binds.inner (binds.mono subset)
    obtain ⟨ends, inside⟩ := stays_of_widens (m := m) (plan_widens ofBody) only ih
    have own : task.ownCells (n + 1) m = task.plan.makes (Task.run n) (ownCells n) m := by
      rw [ownCells, if_pos ofBody]
    have ends (answer : task.Answer) (last : Machine)
        (ran : task.run (n + 1) m = some (.ok answer, last)) :
        Env.Extends task.scope (Binds task.exprs) (task.ownCells (n + 1) m)
          (task.endScope answer) := by
      rw [own]
      rw [Task.run_succ] at ran
      exact ends answer last ran
    refine ⟨ends, fun visit member scope stands => ?_⟩
    rw [visits, if_pos ofBody] at member
    rcases List.mem_append.mp member with first | member
    · cases task with
      | eval e frame =>
        obtain rfl := List.mem_singleton.mp first
        rcases stands with rfl | ⟨answer, last, ran, rfl⟩
        · exact .refl _ _ _
        · exact ends answer last ran
      | _ => cases first
    · rw [own]
      exact inside visit member scope stands

end Task

end Trampoline
