import Trampoline.Proofs.Jumps.Calls
import Trampoline.Proofs.Transport.Programs

/-!
# Steps of one machine alone

Machines go on mirroring each other when only one of them takes a step, if the step touches nothing
that stands for something of the other machine. So a part of a computation that has no counterpart
can be left out of a comparison, if it is known what it comes to.
-/

namespace Trampoline

open Exec

variable {mirror : Mirror} {reflection later : Reflection} {m m' next : Machine}

/-! ## Machines -/

/-- One more cell of the first machine alone. -/
def Reflection.hold (reflection : Reflection) (ref : CellRef) (value : Value) : Reflection :=
  { reflection with held := fun other kept => reflection.held other kept ∨ other = ref ∧
    kept = value }

theorem Reflection.le_hold (reflection : Reflection) (ref : CellRef) (value : Value) :
    reflection ≤ reflection.hold ref value := ⟨id, .inl, id⟩

namespace Machine.Mirrors

section Aside

variable (untracked : mirror.tracked = false) (unaligned : mirror.aligned = false)

include untracked unaligned

/-- What the first machine does to what has no counterpart shows nowhere. -/
theorem aside (mirrors : m.Mirrors mirror reflection m') (carries : m.Carries next)
    (lists : next.lists.size = m.lists.size) (count : ∀ store, m.count store ≤ next.count store)
    (contents : ∀ {store a b}, reflection.pairs store a b ->
      (next.content store a).Mirrors mirror reflection (m'.content store b))
    (cells : ∀ ref < m.cells.size, next.cell ref = m.cell ref) :
    next.Mirrors mirror reflection m' where
  bounded known :=
    ⟨Nat.lt_of_lt_of_le (mirrors.bounded known).1 (count _), (mirrors.bounded known).2⟩
  oneToOne := mirrors.oneToOne
  contents := contents
  globals name := by
    simp only [global?, carries.globals]
    exact mirrors.globals name
  fixed known := by
    simp only [global?, carries.globals]
    exact mirrors.fixed known
  held {ref value} known := by
    obtain ⟨inside, holds, alone⟩ := mirrors.held known
    exact ⟨Nat.lt_of_lt_of_le inside (count .cell), (cells ref inside).trans holds, alone⟩
  sized alike := (mirrors.sized alike).trans lists.symm
  aligned alike := absurd (unaligned.symm.trans alike) Bool.noConfusion
  stack tracked := absurd (untracked.symm.trans tracked) Bool.noConfusion
  passed := carries.passed.trans mirrors.passed
  passed' := mirrors.passed'
  closedOutput := mirrors.closedOutput.trans carries.closedOutput.symm
  output := by
    rw [carries.output]
    exact mirrors.output

variable {store : Store}

/-- Only the first machine gives out a number. -/
theorem gain_alone (mirrors : m.Mirrors mirror reflection m')
    (gains : m.Gains store next) (other : store ≠ .list) : next.Mirrors mirror reflection m' := by
  refine mirrors.aside untracked unaligned gains.toCarries ?_ ?_ ?_ ?_
  · have count := gains.count .list
    rwa [if_neg other.symm] at count
  · intro store
    rw [gains.count]
    exact Nat.le_add_right _ _
  · intro store a b known
    rw [gains.content (mirrors.bounded known).1]
    exact mirrors.contents known
  · intro ref inside
    have same : next.content .cell ref = m.content .cell ref := gains.content inside
    simpa only [Machine.content, Content.cell.injEq] using same

/-- Only the first machine writes, under a number without a counterpart. -/
theorem alter_alone {ref : Nat} (mirrors : m.Mirrors mirror reflection m')
    (alters : m.Alters store ref next) (other : store ≠ .cell)
    (alone : ∀ ref', ¬ reflection.pairs store ref ref') : next.Mirrors mirror reflection m' := by
  refine mirrors.aside untracked unaligned alters.toCarries (alters.count .list)
    (fun store => (alters.count store).ge) ?_ ?_
  · intro store' a b known
    have there : ¬ (store' = store ∧ a = ref) := by
      rintro ⟨rfl, rfl⟩
      exact alone b known
    rw [alters.content there]
    exact mirrors.contents known
  · intro ref' inside
    have same : next.content .cell ref' = m.content .cell ref' :=
      alters.content fun here => other here.1.symm
    simpa only [Machine.content, Content.cell.injEq] using same

/-- Only the first machine tells something. -/
theorem resembling_alone (mirrors : m.Mirrors mirror reflection m') (same : m.Resembles next) :
    next.Mirrors mirror reflection m' := by
  refine mirrors.aside untracked unaligned same.toCarries (same.count .list)
    (fun store => (same.count store).ge) ?_ ?_
  · intro store a b known
    rw [same.content]
    exact mirrors.contents known
  · intro ref inside
    have same : next.content .cell ref = m.content .cell ref := same.content
    simpa only [Machine.content, Content.cell.injEq] using same

/-- Where extents are not compared, machines may differ in them. -/
theorem loosely (mirrors : m.Mirrors mirror reflection m') (loosely : m.Loosely next) :
    next.Mirrors mirror reflection m' := by
  obtain ⟨extents, stack, size, rfl⟩ := loosely
  refine mirrors.aside untracked unaligned ⟨rfl, rfl, rfl, rfl⟩ rfl ?_ ?_ fun _ _ => rfl
  · intro store
    cases store with
    | extent => exact size.ge
    | _ => exact Nat.le_refl _
  · intro store a b known
    have same := mirrors.contents known
    cases store with
    | extent => exact .extent fun tracked => absurd (untracked.symm.trans tracked) Bool.noConfusion
    | _ => exact same

/-- Only the first machine makes a cell, which keeps its value for good. -/
theorem hold (mirrors : m.Mirrors mirror reflection m') (value : Value) :
    Machine.Mirrors mirror (reflection.hold m.cells.size value)
      { m with cells := m.cells.push value } m' := by
  have order := reflection.le_hold m.cells.size value
  have after := mirrors.gain_alone untracked unaligned (m.gains_cell value) (by simp)
  refine { after with
    oneToOne := ⟨mirrors.oneToOne.eq_iff⟩
    contents := fun known => (after.contents known).mono order
    globals := fun name => optionRel_imp (after.globals name) fun _ _ same => same.mono order
    held := ?_
    stack := fun tracked => absurd (untracked.symm.trans tracked) Bool.noConfusion }
  rintro ref kept (old | ⟨rfl, rfl⟩)
  · exact after.held old
  · refine ⟨by simp, by simp [Machine.cell], fun ref' known => ?_⟩
    exact Nat.lt_irrefl _ (mirrors.bounded known).1

end Aside

end Machine.Mirrors

/-! ## Computations -/

namespace Mirror.Agrees

variable {α β γ : Type} {post : Reflection -> α -> β -> Prop}

variable {run : Bounded Machine α} {run' : Bounded Machine β} {part : Bounded Machine γ} {value : γ}

/-- What computations come to that agree may be known better from how they end. -/
theorem reached
    {better : Reflection -> α -> β -> Prop} (agrees : mirror.Agrees reflection run run' m m' post)
    (below : run.limited ≤ run.full) (below' : run'.limited ≤ run'.full)
    (implies : ∀ later value value' last last', reflection ≤ later -> post later value value' ->
      run.full m = some (.ok value, last) -> run'.full m' = some (.ok value', last') ->
      better later value value') : mirror.Agrees reflection run run' m m' better := by
  rw [← bind_pure run, ← bind_pure run']
  refine agrees.bind below below' ?_
  intro later value value' last last' order known machines ran ran'
  exact .pure (implies _ _ _ _ _ order known ran ran') machines

/-- The first computation begins with a part that comes to something known. -/
theorem left {after : γ -> Bounded Machine α}
    (below : part.limited ≤ part.full) (ran : part.full m = some (.ok value, next))
    (agrees : mirror.Agrees reflection (after value) run' next m' post) :
    mirror.Agrees reflection (part >>= after) run' m m' post where
  forth outcome ended := by
    rcases bind_eq_some.mp ended with ⟨other, middle, first, rest⟩ | ⟨error, last, first, -⟩
    · cases ran.symm.trans (below _ _ first)
      exact agrees.forth outcome rest
    · cases ran.symm.trans (below _ _ first)
  back outcome' ended := by
    refine (agrees.back outcome' ended).imp_right ?_
    rintro ⟨outcome, rest, same⟩
    exact ⟨outcome, bind_eq_some.mpr (.inl ⟨value, next, ran, rest⟩), same⟩

/-- The second computation begins with a part that comes to something known. -/
theorem right {after : γ -> Bounded Machine β}
    (below : part.limited ≤ part.full) (ran : part.full m' = some (.ok value, next))
    (agrees : mirror.Agrees reflection run (after value) m next post) :
    mirror.Agrees reflection run (part >>= after) m m' post where
  forth outcome ended := by
    refine (agrees.forth outcome ended).imp_right ?_
    rintro ⟨outcome', rest, same⟩
    exact ⟨outcome', bind_eq_some.mpr (.inl ⟨value, next, ran, rest⟩), same⟩
  back outcome' ended := by
    rcases bind_eq_some.mp ended with ⟨other, middle, first, rest⟩ | ⟨error, last, first, -⟩
    · cases ran.symm.trans (below _ _ first)
      exact agrees.back outcome' rest
    · cases ran.symm.trans (below _ _ first)

/-- If the second computation is lost, the first may do anything. -/
theorem of_lost' {outcome' : Outcome Machine β}
    (below : run'.limited ≤ run'.full) (ran : run'.full m' = some outcome')
    (lost : mirror.Lost' outcome') : mirror.Agrees reflection run run' m m' post where
  forth _ _ := .inr ⟨outcome', ran, .inl lost⟩
  back other ended := by
    cases ran.symm.trans (below _ _ ended)
    exact .inl lost

/-- Where extents are not compared, it does not matter what the first computation guards. -/
theorem loosen {other : Bounded Machine α}
    (untracked : mirror.tracked = false) (unaligned : mirror.aligned = false)
    (agrees : mirror.Agrees reflection run run' m m' post)
    (limited : Loosens run.limited other.limited) (full : Loosens run.full other.full) :
    mirror.Agrees reflection other run' m m' post := by
  have lost {result : Except EvalError α} {last last' : Machine} (loosely : last.Loosely last')
      (lost : mirror.Lost (result, last)) : mirror.Lost (result, last') := by
    obtain ⟨extents, stack, -, rfl⟩ := loosely
    cases result <;> exact lost
  have ends {result : Except EvalError α} {last last' : Machine} (loosely : last.Loosely last')
      {outcome' : Outcome Machine β} (ends : mirror.Ends reflection post (result, last) outcome') :
      mirror.Ends reflection post (result, last') outcome' := by
    cases ends with
    | value order known machines =>
      exact .value order known (machines.loosely untracked unaligned loosely)
    | error order same kept kept' machines =>
      exact .error order same kept kept' (machines.loosely untracked unaligned loosely)
  constructor
  · rintro ⟨result, last'⟩ ran
    have both := limited m
    rw [ran] at both
    generalize ran₁ : run.limited m = outcome at both
    cases both with
    | @some first _ same =>
      obtain ⟨result₁, last⟩ := first
      obtain ⟨rfl, loosely⟩ : result = result₁ ∧ last.Loosely last' := same
      refine (agrees.forth _ ran₁).imp (lost loosely) ?_
      rintro ⟨outcome', ran', same⟩
      exact ⟨outcome', ran', same.imp id (ends loosely)⟩
  · intro outcome' ran'
    refine (agrees.back outcome' ran').imp_right ?_
    rintro ⟨⟨result, last⟩, ran, same⟩
    have both := full m
    rw [ran] at both
    generalize ran₁ : other.full m = outcome at both
    cases both with
    | @some _ first same₁ =>
      obtain ⟨result₁, last'⟩ := first
      obtain ⟨rfl, loosely⟩ : result₁ = result ∧ last.Loosely last' := same₁
      exact ⟨_, rfl, same.imp (lost loosely) (ends loosely)⟩

end Mirror.Agrees

/-! ## Plans -/

/-- The plan of a task does not need less fuel than the task. -/
theorem Task.cut_le_plan (task : Task) (n : Nat) :
    task.chain.cut n ≤ task.plan.chain.cut n := by
  rw [← Task.cut_succ]
  exact ⟨task.run_le n, rfl⟩

namespace Plan

variable {α β : Type} {perform : (task : Task) -> Run task.Answer} {task : Task}

variable {γ : Type} {last middle : Machine} {plan : Plan α} {value : α}

/-- What is asked for after a part of two plans one after the other. -/
theorem asks_after {run : Run γ} {rest : γ -> Plan α} {next : α -> Plan β}
    (each : ∀ value middle, (rest value >>= next).Asks perform task last middle ↔
      (rest value).Asks perform task last middle ∨ ∃ answer later,
        (rest value).run perform middle = some (.ok answer, later) ∧
          (next answer).Asks perform task last later) :
    (∃ value middle, run m = some (.ok value, middle) ∧
      (rest value >>= next).Asks perform task last middle) ↔
    (∃ value middle, run m = some (.ok value, middle) ∧
      (rest value).Asks perform task last middle) ∨ ∃ answer later,
        (run >>= fun value => (rest value).run perform) m = some (.ok answer, later) ∧
          (next answer).Asks perform task last later := by
  constructor
  · rintro ⟨value, middle, ran, asks⟩
    rcases (each value middle).mp asks with asks | ⟨answer, later, ends, asks⟩
    · exact .inl ⟨value, middle, ran, asks⟩
    · exact .inr ⟨answer, later, bind_eq_ok.mpr ⟨value, middle, ran, ends⟩, asks⟩
  · rintro (⟨value, middle, ran, asks⟩ | ⟨answer, later, ends, asks⟩)
    · exact ⟨value, middle, ran, (each value middle).mpr (.inl asks)⟩
    · obtain ⟨value, middle, ran, ends⟩ := bind_eq_ok.mp ends
      exact ⟨value, middle, ran, (each value middle).mpr (.inr ⟨answer, later, ends, asks⟩)⟩

/-- What two plans ask for one after the other. -/
theorem asks_bind {next : α -> Plan β} :
    (plan >>= next).Asks perform task last m ↔ plan.Asks perform task last m ∨
      ∃ value middle, plan.run perform m = some (.ok value, middle) ∧
        (next value).Asks perform task last middle := by
  induction plan generalizing m with
  | done value =>
    constructor
    · exact fun asks => .inr ⟨value, m, rfl, asks⟩
    · rintro (asks | ⟨_, _, ⟨⟩, asks⟩)
      · exact asks.elim
      · exact asks
  | step run rest ih => exact asks_after fun value _ => ih value
  | ask first rest ih =>
    exact (or_congr_right (asks_after fun value _ => ih value)).trans or_assoc.symm
  | guarded inner rest _ ih =>
    exact (or_congr_right (asks_after fun value _ => ih value)).trans or_assoc.symm
  | settle inner rest _ ih =>
    refine (or_congr_right ?_).trans or_assoc.symm
    constructor
    · rintro ⟨result, middle, ran, asks⟩
      rcases (ih result).mp asks with asks | ⟨answer, later, ends, asks⟩
      · exact .inl ⟨result, middle, ran, asks⟩
      · exact .inr ⟨answer, later, settle_eq_some.mpr ⟨result, middle, ran, ends⟩, asks⟩
    · rintro (⟨result, middle, ran, asks⟩ | ⟨answer, later, ends, asks⟩)
      · exact ⟨result, middle, ran, (ih result).mpr (.inl asks)⟩
      · obtain ⟨result, middle, ran, ends⟩ := settle_eq_some.mp ends
        exact ⟨result, middle, ran, (ih result).mpr (.inr ⟨answer, later, ends, asks⟩)⟩

/-- Plans can be grouped in either way. -/
theorem bind_assoc (plan : Plan α) (next : α -> Plan β) (more : β -> Plan γ) :
    plan >>= next >>= more = plan >>= fun value => next value >>= more := by
  show (plan.bind next).bind more = plan.bind fun value => (next value).bind more
  induction plan with
  | done value => rfl
  | step run rest ih => exact congrArg (Plan.step run) (funext fun value => ih value next)
  | ask first rest ih => exact congrArg (Plan.ask first) (funext fun answer => ih answer next)
  | guarded inner rest _ ih =>
    exact congrArg (Plan.guarded inner) (funext fun value => ih value next)
  | settle inner rest _ ih =>
    exact congrArg (Plan.settle inner) (funext fun result => ih result next)

/-- Cutting two plans, one after the other, is cutting each. -/
theorem cut_bind (plan : Plan α) (next : α -> Plan β) (n : Nat) :
    (plan >>= next).chain.cut n = plan.chain.cut n >>= fun value => (next value).chain.cut n := by
  refine Bounded.ext ?_ ?_
  · rw [cut_chain_limited, run_bind, ← cut_chain_limited]
    exact bind_congr fun value => (cut_chain_limited _ n).symm
  · rw [cut_chain_full, run_bind, ← cut_chain_full plan n]
    exact bind_congr fun value => (cut_chain_full _ n).symm

/-- What the second of two plans shows is shown by both one after the other. -/
theorem shows_bind {next : α -> Plan β} {shown : Value}
    (ran : plan.run perform m = some (.ok value, middle))
    (shows : (next value).Shows perform shown last middle) :
    (plan >>= next).Shows perform shown last m := by
  induction plan generalizing m with
  | done value =>
    cases ran
    exact shows
  | step run rest ih =>
    obtain ⟨value, later, first, ran⟩ := bind_eq_ok.mp ran
    exact .inr ⟨value, later, first, ih value ran shows⟩
  | ask first rest ih =>
    obtain ⟨answer, later, first, ran⟩ := bind_eq_ok.mp ran
    exact ⟨answer, later, first, ih answer ran shows⟩
  | guarded inner rest _ ih =>
    obtain ⟨value, later, first, ran⟩ := bind_eq_ok.mp ran
    exact .inr ⟨value, later, first, ih value ran shows⟩
  | settle inner rest _ ih =>
    obtain ⟨result, later, first, ran⟩ := settle_eq_some.mp ran
    exact .inr ⟨result, later, first, ih result ran shows⟩

/-- What comes after the first of two plans is watched from where the first one ends. -/
theorem Watched.rest {watch : Watch} {next : α -> Plan β}
    (watched : (plan >>= next).Watched watch m)
    (ran : plan.run Task.full m = some (.ok value, middle)) : (next value).Watched watch middle :=
  ⟨fun asks => watched.asks (asks_bind.mpr (.inr ⟨value, middle, ran, asks⟩)),
    fun shows => watched.shows (shows_bind ran shows)⟩

/-- Toplevel forms are run one after another. -/
theorem toplevels_append (before rest : List Toplevel) (last : Value) :
    toplevels (before ++ rest) last = toplevels before last >>= fun last =>
      toplevels rest last := by
  induction before generalizing last with
  | nil => rfl
  | cons form before ih =>
    cases form with
    | define name bindee =>
      simp only [List.cons_append, toplevels, bind_assoc, ih]
    | exec e => simp only [List.cons_append, toplevels, bind_assoc, ih]

end Plan

/-- What the plan asks for is under watch, and it ends with values as asked. -/
structure Plan.Suits (watch : Watch) (settled : Value -> Prop) (plan : Plan Value) (m : Machine) :
    Prop where
  asks : ∀ {asked last}, plan.Asks Task.full asked last m -> watch.visits asked last
  ends : ∀ {value last}, plan.run Task.full m = some (.ok value, last) -> settled value

namespace Plan.Suits

variable {watch : Watch} {settled : Value -> Prop} {task : Task} {next : task.Answer -> Plan Value}

theorem visits (suits : (ask task next).Suits watch settled m) : watch.visits task m :=
  suits.asks (.inl ⟨rfl, rfl⟩)

variable {middle : Machine}

theorem after (suits : (ask task next).Suits watch settled m) {answer : task.Answer}
    (ran : task.full m = some (.ok answer, middle)) : (next answer).Suits watch settled middle where
  asks asks := suits.asks (.inr ⟨answer, middle, ran, asks⟩)
  ends ended := suits.ends (bind_eq_ok.mpr ⟨answer, middle, ran, ended⟩)

/-- The plan of the task that comes first may be followed instead. -/
theorem opened (suits : (ask task next).Suits watch settled m) :
    (task.plan >>= next).Suits watch settled m where
  asks asks := by
    rcases asks_bind.mp asks with asks | ⟨answer, middle, ran, asks⟩
    · exact watch.asks suits.visits asks
    · rw [← Task.full_eq] at ran
      exact (suits.after ran).asks asks
  ends ended := by
    rw [run_bind, ← Task.full_eq] at ended
    exact suits.ends ended

/-- After its first step, a plan that suits a watch still does. -/
theorem step {β : Type} {run : Run β} {next : β -> Plan Value}
    (suits : (Plan.step run next).Suits watch settled m) {value : β}
    (ran : run m = some (.ok value, middle)) : (next value).Suits watch settled middle where
  asks asks := suits.asks ⟨value, middle, ran, asks⟩
  ends ended := suits.ends (bind_eq_ok.mpr ⟨value, middle, ran, ended⟩)

end Plan.Suits

/-- With any fuel for the tasks of one plan the other comes to the same in full. -/
def Mirror.Joins (mirror : Mirror) (n : Nat) (reflection : Reflection) (plan plan' : Plan Value)
    (m m' : Machine) : Prop :=
  mirror.Agrees reflection (plan.chain.cut n) (plan'.chain.cut n) m m' (Value.Mirrors mirror)

namespace Mirror.Joins

variable {n : Nat} {plan plan' : Plan Value}

theorem cut_done (value : Value) (n : Nat) : (Plan.done value).chain.cut n = pure value :=
  Chain.cut_pure value n

variable {task : Task} {β : Type} {answer : task.Answer} {middle : Machine} {run : Run β}
  {value : β}

theorem cut_ask (next : task.Answer -> Plan Value) (n : Nat) :
    (Plan.ask task next).chain.cut n = task.chain.cut n >>= fun answer =>
      (next answer).chain.cut n := by
  rw [Plan.chain, Chain.cut_bind]

theorem cut_step (run : Run β) (next : β -> Plan Value) (n : Nat) :
    (Plan.step run next).chain.cut n = .lift run >>= fun value => (next value).chain.cut n := by
  rw [Plan.chain, Chain.cut_bind, Chain.cut_lift]

theorem cut_guarded (inner : Plan β) (next : β -> Plan Value) (n : Nat) :
    (Plan.guarded inner next).chain.cut n =
      (inner.chain.cut n).guarded >>= fun value => (next value).chain.cut n := by
  rw [Plan.chain, Chain.cut_bind, Chain.cut_guarded]

/-- Plans that are done with the same value have joined. -/
theorem done {value value' : Value} (same : value.Mirrors mirror reflection value')
    (machines : m.Mirrors mirror reflection m') :
    mirror.Joins n reflection (.done value) (.done value') m m' := by
  rw [Joins, cut_done, cut_done]
  exact .pure same machines

/-- Following the plan of the first task takes less fuel. -/
theorem cut_open (next : task.Answer -> Plan Value) (n : Nat) :
    (Plan.ask task next).chain.cut n ≤ (task.plan >>= next).chain.cut n := by
  refine ⟨?_, ?_⟩
  · rw [cut_ask, Plan.cut_chain_limited, Plan.run_bind, ← Plan.cut_chain_limited]
    refine Exec.bind_le (task.cut_le_plan n).limited fun answer => ?_
    rw [← Plan.cut_chain_limited]
    exact Exec.le_refl _
  · rw [Plan.cut_chain_full, Plan.cut_chain_full, Plan.run_bind, ← Task.full_eq]
    rfl

/-- On the left a task may be opened into its plan. -/
theorem open_left {next : task.Answer -> Plan Value}
    (joins : mirror.Joins n reflection (task.plan >>= next) plan' m m') :
    mirror.Joins n reflection (.ask task next) plan' m m' :=
  joins.mono (cut_open next n) (Bounded.le_refl _)

/-- On the right a task may be opened into its plan. -/
theorem open_right {next : task.Answer -> Plan Value}
    (joins : mirror.Joins n reflection plan (task.plan >>= next) m m') :
    mirror.Joins n reflection plan (.ask task next) m m' :=
  joins.mono (Bounded.le_refl _) (cut_open next n)

/-- On the left a task may be done alone. -/
theorem ask_left {next : task.Answer -> Plan Value} (ran : task.full m = some (.ok answer, middle))
    (joins : mirror.Joins n reflection (next answer) plan' middle m') :
    mirror.Joins n reflection (.ask task next) plan' m m' := by
  rw [Joins, cut_ask]
  exact .left (Chain.cut_below _ n) ran joins

/-- On the right a task may be done alone. -/
theorem ask_right {next : task.Answer -> Plan Value}
    (ran : task.full m' = some (.ok answer, middle))
    (joins : mirror.Joins n reflection plan (next answer) m middle) :
    mirror.Joins n reflection plan (.ask task next) m m' := by
  rw [Joins, cut_ask]
  exact .right (Chain.cut_below _ n) ran joins

/-- On the left a step may be taken alone. -/
theorem step_left {next : β -> Plan Value} (ran : run m = some (.ok value, middle))
    (joins : mirror.Joins n reflection (next value) plan' middle m') :
    mirror.Joins n reflection (.step run next) plan' m m' := by
  rw [Joins, cut_step]
  exact .left (Exec.le_refl _) ran joins

/-- On the right a step may be taken alone. -/
theorem step_right {next : β -> Plan Value} (ran : run m' = some (.ok value, middle))
    (joins : mirror.Joins n reflection plan (next value) m middle) :
    mirror.Joins n reflection plan (.step run next) m m' := by
  rw [Joins, cut_step]
  exact .right (Exec.le_refl _) ran joins

/-- It does not matter whether jumps are run inside a trampoline of their own. -/
theorem trampolined {callable : Callable} {args : List Value} {kwargs : Kwargs} {variant : Variant}
    (untracked : mirror.tracked = false) (unaligned : mirror.aligned = false)
    (joins : mirror.Joins n reflection
      (.ask (.apply callable args kwargs) fun value => .sub (.runJumps variant value)) plan' m m') :
    mirror.Joins n reflection
      (.ask (.apply callable args kwargs) fun value => .sub (.trampoline variant value))
        plan' m m' := by
  have opened (value : Value) : (Plan.sub (.trampoline variant value)).chain.cut n ≤
      ((Plan.sub (.runJumps variant value)).chain.cut n).guarded := by
    refine Bounded.le_trans (cut_open _ n) (Bounded.le_of_eq ?_)
    refine (cut_guarded (.sub (.runJumps variant value)) .done n).trans ?_
    simp only [cut_done, bind_pure]
  rw [Joins, cut_ask] at joins
  have guarded : mirror.Agrees reflection ((Task.apply callable args kwargs).chain.cut n >>=
      fun value => ((Plan.sub (.runJumps variant value)).chain.cut n).guarded)
      (plan'.chain.cut n) m m' (Value.Mirrors mirror) :=
    joins.loosen untracked unaligned (.bind _ fun value => .guarded _)
      (.bind _ fun value => .guarded _)
  rw [Joins, cut_ask]
  refine guarded.mono ⟨?_, ?_⟩ (Bounded.le_refl _)
  · exact Exec.bind_le (Exec.le_refl _) fun value => (opened value).limited
  · exact congrArg (fun next => ((Task.apply callable args kwargs).chain.cut n).full >>= next)
      (funext fun value => (opened value).full)

/-- Tasks on both sides that mirror each other, and what comes after them. -/
theorem ask {watch watch' : Watch} {task' : Task}
    {mid : Reflection -> task.Answer -> task'.Answer -> Prop} {next : task.Answer -> Plan Value}
    {next' : task'.Answer -> Plan Value} (performs : mirror.Performs watch watch' n)
    (asks : task.Mirrors mirror reflection task' mid) (machines : m.Mirrors mirror reflection m')
    (visits : watch.visits task m) (visits' : watch'.visits task' m')
    (after : ∀ later answer answer' middle middle', reflection ≤ later ->
      mid later answer answer' ->
      middle.Mirrors mirror later middle' -> task.full m = some (.ok answer, middle) ->
      task'.full m' = some (.ok answer', middle') ->
      mirror.Joins n later (next answer) (next' answer') middle middle') :
    mirror.Joins n reflection (.ask task next) (.ask task' next') m m' := by
  rw [Joins, cut_ask, cut_ask]
  exact (performs asks machines visits visits').bind (Chain.cut_below _ n)
    (Chain.cut_below _ n) after

/-- Steps on both sides that agree, and what comes after them. -/
theorem step {γ : Type} {run' : Run γ} {mid : Reflection -> β -> γ -> Prop}
    {next : β -> Plan Value} {next' : γ -> Plan Value}
    (agrees : mirror.Agrees reflection (.lift run) (.lift run') m m' mid)
    (after : ∀ later value value' middle middle', reflection ≤ later -> mid later value value' ->
      middle.Mirrors mirror later middle' -> run m = some (.ok value, middle) ->
      run' m' = some (.ok value', middle') ->
      mirror.Joins n later (next value) (next' value') middle middle') :
    mirror.Joins n reflection (.step run next) (.step run' next') m m' := by
  rw [Joins, cut_step, cut_step]
  exact agrees.bind (Exec.le_refl _) (Exec.le_refl _) after

end Mirror.Joins

end Trampoline
