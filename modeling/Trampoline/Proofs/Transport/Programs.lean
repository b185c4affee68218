import Trampoline.Proofs.Evaluation.Stacks
import Trampoline.Proofs.Transport.Tasks

/-!
# Programs on machines that mirror each other

A new machine mirrors itself, so every run is mirrored by itself. What a mirror rules out, such as a
kind of expression and the errors that only it raises, is then out of all runs.
-/

namespace Trampoline

open Exec

variable {mirror : Mirror} {reflection later : Reflection} {m m' : Machine}

/-- The mirror in which all is the same but for numbers, where handlers let these errors pass. -/
def Mirror.faithful (node : Expr -> Prop) (passed : EvalError -> Bool) : Mirror where
  lost _ := false
  lost' _ := false
  passed := passed
  tracked := true
  sized := true
  aligned := true
  spare _ _ := False
  node := node
  hides _ := False
  constant _ := False
  special _ _ _ := False
  printed := ""
  printed' := ""
  depth := 0
  depth' := 0
  special_le _ special := special
  special_resembles := False.elim
  special_bare := False.elim
  assigns_none _ := id
  lost_stays lost := nomatch lost
  lost_stays' lost := nomatch lost
  invalidated_lost untracked := nomatch untracked
  invalidated_lost' untracked := nomatch untracked

theorem Mirror.performs_plain {watch watch' : Watch} (compares : mirror.Compares watch)
    (plain : ∀ reflection callable callable', ¬ mirror.special reflection callable callable')
    (n : Nat) : mirror.Performs watch watch' n :=
  mirror.performs compares (fun _ _ _ _ _ _ _ _ _ _ _ special => absurd special (plain _ _ _)) n

/-! ## New machines -/

/-- What a new machine has under numbers is the identity continuation. -/
def Reflection.start : Reflection :=
  ⟨fun store a b => store = .identity ∧ a = 0 ∧ b = 0, fun _ _ => False, fun _ _ _ => False⟩

/-- The builtins of a new machine are the same as themselves. -/
theorem Machine.builtins_mirrors (name : String) :
    Option.Rel (Value.Mirrors mirror .start) (builtins.lookup name) (builtins.lookup name) := by
  have ofAll : ∀ entry ∈ builtins, entry.2.Mirrors mirror .start entry.2 := by
    intro entry member
    rcases List.mem_append.mp member with listed | listed
    · obtain ⟨op, -, rfl⟩ := List.mem_map.mp listed
      exact .func .native
    · obtain rfl := List.mem_singleton.mp listed
      exact .func (.identity ⟨rfl, rfl, rfl⟩)
  generalize builtins = entries at ofAll
  induction entries with
  | nil => exact .none
  | cons entry rest ih =>
    obtain ⟨other, value⟩ := entry
    obtain ⟨first, others⟩ := List.forall_mem_cons.mp ofAll
    rw [List.lookup_cons]
    split
    · exact .some first
    · exact ih others

/-- New machines mirror each other. -/
theorem Machine.Mirrors.start (mirror : Mirror) (printed : mirror.printed = "")
    (printed' : mirror.printed' = "") (depth : mirror.depth = 0) (depth' : mirror.depth' = 0)
    (whole : ∀ store ref, ¬ mirror.spare store ref) (closedOutput : Bool) :
    (Machine.startLetting (fun error => mirror.lost error || mirror.passed error)
      closedOutput).Mirrors mirror .start
      (Machine.startLetting (fun error => mirror.lost' error || mirror.passed error) closedOutput)
    where
  bounded := by
    rintro store a b ⟨rfl, rfl, rfl⟩
    exact ⟨Nat.zero_lt_one, Nat.zero_lt_one⟩
  oneToOne := by
    refine ⟨?_⟩
    rintro store a b a' b' ⟨rfl, rfl, rfl⟩ ⟨-, rfl, rfl⟩
    exact Iff.rfl
  contents := by
    rintro store a b ⟨rfl, rfl, rfl⟩
    exact .number
  globals name := builtins_mirrors name
  fixed := False.elim
  held := False.elim
  sized _ := rfl
  aligned _ store := by
    refine ⟨by cases store <;> rfl, fun ref spare => absurd spare (whole _ _), fun a b => ?_⟩
    simp only [Reflection.start, whole, not_false_eq_true, and_true]
    cases store with
    | identity =>
      simp only [true_and, Machine.count, startLetting, Machine.start]
      omega
    | _ => simp [Machine.count, startLetting, Machine.start]
  stack _ := by
    refine ⟨?_, ?_, ?_⟩
    · rw [depth]
      exact Nat.zero_le _
    · rw [depth']
      exact Nat.zero_le _
    · rw [depth, depth']
      exact .nil
  passed := rfl
  passed' := rfl
  closedOutput := rfl
  output := ⟨"", by rw [printed]; rfl, by rw [printed']; rfl⟩

/-! ## Toplevel forms -/

namespace Plan

variable {α β : Type}

/-- What comes after a plan that ends with an error does not matter. -/
theorem Relays.bind {error : EvalError} {plan : Plan α} (relays : plan.Relays error)
    (next : α -> Plan β) : (plan >>= next).Relays error := by
  intro perform m passes
  obtain ⟨last, ran, kept⟩ := relays perform m passes
  refine ⟨last, ?_, kept⟩
  rw [run_bind]
  exact bind_eq_some.mpr (.inr ⟨_, _, ran, rfl⟩)

/-- Go on after plans that mirror each other. -/
theorem Mirrors.bind {γ δ : Type} {plan : Plan γ} {plan' : Plan δ}
    {mid : Reflection -> γ -> δ -> Prop} (mirrors : plan.Mirrors mirror reflection plan' mid)
    {next : γ -> Plan α} {next' : δ -> Plan β} {post : Reflection -> α -> β -> Prop}
    (after : ∀ later value value', reflection ≤ later -> mid later value value' ->
      (next value).Mirrors mirror later (next' value') post) :
    (plan >>= next).Mirrors mirror reflection (plan' >>= next') post := by
  induction mirrors with
  | done known => exact after _ _ _ (Reflection.le_refl _) known
  | step moves _ ih =>
    refine .step moves fun later _ _ order known => ih _ _ _ order known fun latest _ _ above => ?_
    exact after latest _ _ (Reflection.le_trans order above)
  | ask asks _ ih =>
    refine .ask asks fun later _ _ order known => ih _ _ _ order known fun latest _ _ above => ?_
    exact after latest _ _ (Reflection.le_trans order above)
  | guarded inside _ _ ih =>
    refine .guarded inside fun later _ _ order known =>
      ih _ _ _ order known fun latest _ _ above => ?_
    exact after latest _ _ (Reflection.le_trans order above)
  | settle inside relays relays' _ _ _ ihOk ihError =>
    refine .settle inside (fun error lost => (relays error lost).bind _)
      (fun error lost => (relays' error lost).bind _) ?_ ?_
    · refine fun later _ _ order known => ihOk _ _ _ order known fun latest _ _ above => ?_
      exact after latest _ _ (Reflection.le_trans order above)
    · refine fun later _ _ order failure kept kept' =>
        ihError _ _ _ order failure kept kept' fun latest _ _ above => ?_
      exact after latest _ _ (Reflection.le_trans order above)

/-- A toplevel form that is allowed mirrors itself. -/
theorem toplevel_mirrors {e : Expr} (allows : e.All (mirror.Allows false)) :
    (toplevel e).Mirrors mirror reflection (toplevel e) (Value.Mirrors mirror) := by
  have frames : Frame.toplevel.Mirrors mirror reflection false Frame.toplevel :=
    ⟨.nil, rfl, .none⟩
  refine .guarded (.ask (.eval false allows frames) ?_) fun _ _ _ _ known => .done known
  exact fun later answer answer' _ known => .done known.1

/-- Toplevel forms do the same on both sides, if they define nothing that is to stay as it is. -/
theorem toplevels_mirror {top : List Toplevel}
    (allows : ∀ form ∈ top, form.expr.All (mirror.Allows false))
    (free : ∀ name bindee, .define name bindee ∈ top -> ¬ mirror.constant name) {last last' : Value}
    (same : last.Mirrors mirror reflection last') :
    (toplevels top last).Mirrors mirror reflection (toplevels top last')
      (Value.Mirrors mirror) := by
  induction top generalizing reflection last last' with
  | nil => exact .pure same
  | cons form rest ih =>
    obtain ⟨ofForm, ofRest⟩ := List.forall_mem_cons.mp allows
    have others {reflection : Reflection} {last last' : Value}
        (same : last.Mirrors mirror reflection last') :=
      ih ofRest (fun name bindee member => free name bindee (List.mem_cons_of_mem _ member)) same
    cases form with
    | define name bindee =>
      refine (toplevel_mirrors ofForm).bind fun later value value' order answer => ?_
      refine .moving (.define (free name bindee List.mem_cons_self) answer) ?_
      exact fun later _ _ order' _ => others (same.mono (Reflection.le_trans order order'))
    | exec e =>
      refine (toplevel_mirrors ofForm).bind fun later value value' order answer => ?_
      exact .asking (.force answer) fun _ _ _ _ same => others same

end Plan

/-! ## Runs -/

variable {α β : Type} {post : Reflection -> α -> β -> Prop} {run : Run α} {run' : Run β}

/-- Plans that mirror each other agree on machines that do, if nothing has to be compared but what
can be. -/
theorem Mirror.Agrees.of_plans {plan : Plan α} {plan' : Plan β} (sized : mirror.sized = true)
    (plain : ∀ reflection callable callable', ¬ mirror.special reflection callable callable')
    (mirrors : plan.Mirrors mirror reflection plan' post)
    (machines : m.Mirrors mirror reflection m')
    (n : Nat) : mirror.Agrees reflection (plan.chain.cut n) (plan'.chain.cut n) m m' post := by
  have compares : mirror.Compares .all := fun _ => .inl sized
  exact mirrors.agrees (Mirror.performs_plain compares plain n) compares machines
    (Watch.all_watched plan m) (Watch.all_watched plan' m')

/-- What agrees with any amount of fuel agrees in full. -/
theorem Mirror.Agrees.full {chain : Chain Machine α} {chain' : Chain Machine β}
    (agrees : ∀ n, mirror.Agrees reflection (chain.cut n) (chain'.cut n) m m' post) :
    mirror.Agrees reflection (.lift chain.full) (.lift chain'.full) m m' post where
  forth outcome ran := by
    obtain ⟨n, limited⟩ := Chain.full_eq_some.mp ran
    exact (agrees n).forth outcome limited
  back outcome ran := by
    obtain ⟨n, limited⟩ := Chain.full_eq_some.mp ran
    exact (agrees n).back outcome limited

/-- Computations that agree end together, and in the same way, if nothing is lost. -/
theorem Mirror.Agrees.together
    (agrees : mirror.Agrees reflection (.lift run) (.lift run') m m' post)
    (keeps : ∀ outcome, run m = some outcome -> ¬ mirror.Lost outcome)
    (keeps' : ∀ outcome', run' m' = some outcome' -> ¬ mirror.Lost' outcome') :
    Option.Rel (mirror.Ends reflection post) (run m) (run' m') := by
  cases ran : run m with
  | none =>
    cases ran' : run' m' with
    | none => exact .none
    | some outcome' =>
      obtain ⟨outcome, ended, -⟩ := (agrees.back outcome' ran').resolve_left (keeps' outcome' ran')
      cases ran.symm.trans ended
  | some outcome =>
    obtain ⟨outcome', ended, same⟩ := (agrees.forth outcome ran).resolve_left (keeps outcome ran)
    change run' m' = some outcome' at ended
    rw [ended]
    exact .some (same.resolve_left (keeps' outcome' ended))

/-- Computations that agree come to the same, if no error is lost. -/
theorem Mirror.Agrees.alike (agrees : mirror.Agrees reflection (.lift run) (.lift run') m m' post)
    (keeps : ∀ error, mirror.lost error = false) (keeps' : ∀ error, mirror.lost' error = false) :
    (∀ outcome, run m = some outcome -> ∃ outcome', run' m' = some outcome' ∧
      mirror.Ends reflection post outcome outcome') ∧
    ∀ outcome', run' m' = some outcome' -> ∃ outcome, run m = some outcome ∧
      mirror.Ends reflection post outcome outcome' := by
  have together := agrees.together (fun outcome _ => Mirror.not_lost keeps outcome)
    fun outcome' _ => Mirror.not_lost' keeps' outcome'
  constructor
  · intro outcome ran
    rw [ran] at together
    generalize run' m' = ended at together
    cases together with
    | some same => exact ⟨_, rfl, same⟩
  · intro outcome' ran'
    rw [ran'] at together
    generalize run m = ended at together
    cases together with
    | some same => exact ⟨_, rfl, same⟩

/-- Tasks that mirror each other agree in full. -/
theorem Task.Mirrors.full {task task' : Task}
    {post : Reflection -> task.Answer -> task'.Answer -> Prop}
    (mirrors : task.Mirrors mirror reflection task' post) (sized : mirror.sized = true)
    (plain : ∀ reflection callable callable', ¬ mirror.special reflection callable callable')
    (machines : m.Mirrors mirror reflection m') :
    mirror.Agrees reflection (.lift task.full) (.lift task'.full) m m' post := by
  have compares : mirror.Compares .all := fun _ => .inl sized
  have performs (n : Nat) : mirror.Performs .all .all n := Mirror.performs_plain compares plain n
  exact .full fun n => performs n mirrors machines trivial trivial

/-! ## What is shown on the way -/

namespace Task

/-- The later task is asked for on the way of the first one. -/
inductive Leads (task : Task) (m : Machine) : Task -> Machine -> Prop where
  | here : Leads task m task m
  | on {asked next : Task} {before later : Machine} : Leads task m asked before ->
      asked.plan.Asks Task.full next later before -> Leads task m next later

/-- The value is shown on the way of the task. -/
def Shows (task : Task) (m : Machine) (value : Value) (later : Machine) : Prop :=
  ∃ asked before, task.Leads m asked before ∧ asked.plan.Shows Task.full value later before

/-- No list that contains itself is shown on the way of the task. -/
def ShowsGrounded (task : Task) (m : Machine) : Prop :=
  ∀ value later, task.Shows m value later -> later.Grounded value

/-- All that happens on the way of a task. -/
def watch (task : Task) (m : Machine) : Watch where
  visits := task.Leads m
  shows := task.Shows m
  asks leads asks := .on leads asks
  steps leads shows := ⟨_, _, leads, shows⟩

/-- Tasks that mirror each other agree in full, also on machines with different numbers of lists, if
no list that contains itself is shown. -/
theorem Mirrors.full_grounded {task task' : Task}
    {post : Reflection -> task.Answer -> task'.Answer -> Prop}
    (mirrors : task.Mirrors mirror reflection task' post) (grounded : task.ShowsGrounded m)
    (plain : ∀ reflection callable callable', ¬ mirror.special reflection callable callable')
    (machines : m.Mirrors mirror reflection m') :
    mirror.Agrees reflection (.lift task.full) (.lift task'.full) m m' post := by
  have compares : mirror.Compares (task.watch m) := fun shows => .inr (grounded _ _ shows)
  have performs (n : Nat) : mirror.Performs (task.watch m) .all n :=
    Mirror.performs_plain compares plain n
  exact .full fun n => performs n mirrors machines .here trivial

end Task

/-- On the way of running the program on the machine `m`, the task is asked for. -/
def Program.GetsTo (program : Program) (m : Machine) (task : Task) (later : Machine) : Prop :=
  ∃ first before, (Plan.toplevels program.top .nil).Asks Task.full first before m ∧
    first.Leads before task later

/-- All tasks on the way of running a program. -/
def Program.watch (program : Program) (m : Machine) : Watch where
  visits := program.GetsTo m
  shows _ _ := True
  asks := fun ⟨first, before, asks, leads⟩ further => ⟨first, before, asks, .on leads further⟩
  steps _ _ := trivial

theorem Program.watched (program : Program) (m : Machine) :
    (Plan.toplevels program.top .nil).Watched (program.watch m) m :=
  ⟨fun asks => ⟨_, _, asks, .here⟩, fun _ => trivial⟩

/-- What agrees with itself ends as its own image. -/
theorem Mirror.Agrees.itself {node : Expr -> Prop} {passed : EvalError -> Bool}
    {run : Bounded Machine α} {post : Reflection -> α -> α -> Prop} {outcome : Outcome Machine α}
    (agrees : (Mirror.faithful node passed).Agrees reflection run run m m post)
    (below : run.limited ≤ run.full) (ran : run.limited m = some outcome) :
    (Mirror.faithful node passed).Ends reflection post outcome outcome := by
  obtain ⟨outcome', ran', same⟩ :=
    (agrees.forth outcome ran).resolve_left (Mirror.not_lost (fun _ => rfl) outcome)
  cases ran'.symm.trans (below _ _ ran)
  exact same.resolve_left (Mirror.not_lost' (fun _ => rfl) outcome)

namespace Program

variable {program : Program} {node : Expr -> Prop} {passed : EvalError -> Bool}
  {closedOutput : Bool}

/-- The end of a run mirrors itself. -/
theorem EndsOn.mirrors {outcome : Outcome Machine Value} (allows : ∀ e ∈ program.nodes, node e)
    (ends : program.EndsOn (.startLetting passed closedOutput) outcome) :
    (Mirror.faithful node passed).Ends .start (Value.Mirrors (.faithful node passed)) outcome
      outcome := by
  have ofForm : ∀ form ∈ program.top,
      form.expr.All ((Mirror.faithful node passed).Allows false) := fun form inTop e inside =>
    ⟨allows e (List.mem_flatMap.mpr ⟨form, inTop, inside⟩), by simp⟩
  have machines := Machine.Mirrors.start (.faithful node passed) rfl rfl rfl rfl (fun _ _ => id)
    closedOutput
  have plans := Plan.toplevels_mirror ofForm (fun _ _ _ => id)
    (.nil : Value.Mirrors (.faithful node passed) .start .nil .nil)
  obtain ⟨fuel, ran⟩ := ends
  have agrees := Mirror.Agrees.of_plans rfl (fun _ _ _ => id) plans machines fuel
  have limited : ((Plan.toplevels program.top .nil).chain.cut fuel).limited
      (.startLetting passed closedOutput) = some outcome := by
    rw [Plan.cut_chain_limited, Plan.run_toplevels]
    exact ran
  exact agrees.itself (Chain.cut_below _ fuel) limited

/-- Without captures in the program, no run fails for want of a block to capture in. -/
theorem EndsOn.not_captures {error : EvalError} {last : Machine}
    (free : ∀ e ∈ program.nodes, e.isCapture = false)
    (ends : program.EndsOn (.startLetting passed closedOutput) (.error error, last)) :
    error ≠ .captureOutsideBlock := by
  rintro rfl
  cases ends.mirrors free with
  | error order same kept kept' machines =>
    cases same with
    | plain noEscape captures =>
      obtain ⟨e, captures, free⟩ := captures rfl
      rw [free] at captures
      cases captures

end Program

end Trampoline
