import Trampoline.Proofs.Evaluation.Runs
import Trampoline.Proofs.Need.Reference

/-!
# Following an answer

A computation on the machine and an answer of evaluation by name are compared in either of two
directions: if the computation ends with a value then there is an answer, or the other way round.
In both cases the value and the answer belong together. What is put together from parts is compared
part by part, whatever the direction.
-/

namespace Trampoline.ByName

open Exec

/-- From the machine, the computation ends with a value if there is an answer (`total`), or only if
there is, and the two belong together. -/
def Follows {α β : Type} (total : Bool) (m : Machine) (run : Run α) (answer : Option β)
    (post : α -> β -> Machine -> Prop) : Prop :=
  match total with
  | true => ∀ val, answer = some val ->
    ∃ value m', run m = some (.ok value, m') ∧ post value val m'
  | false => ∀ value m', run m = some (.ok value, m') ->
    ∃ val, answer = some val ∧ post value val m'

namespace Follows

variable {α β γ δ : Type} {total : Bool} {m : Machine} {run : Run α} {answer : Option β}
  {post : α -> β -> Machine -> Prop}

theorem imp {weaker : α -> β -> Machine -> Prop} (follows : Follows total m run answer post)
    (implies : ∀ value val m', post value val m' -> weaker value val m') :
    Follows total m run answer weaker := by
  cases total with
  | true =>
    intro val answered
    obtain ⟨value, m', ran, holds⟩ := follows val answered
    exact ⟨value, m', ran, implies value val m' holds⟩
  | false =>
    intro value m' ran
    obtain ⟨val, answered, holds⟩ := follows value m' ran
    exact ⟨val, answered, implies value val m' holds⟩

/-- The value follows the answer that there is. -/
theorem answered (follows : Follows total m run answer post) :
    Follows total m run answer fun value val m' => post value val m' ∧ answer = some val := by
  cases total with
  | true =>
    intro val answered
    obtain ⟨value, m', ran, holds⟩ := follows val answered
    exact ⟨value, m', ran, holds, answered⟩
  | false =>
    intro value m' ran
    obtain ⟨val, answered, holds⟩ := follows value m' ran
    exact ⟨val, answered, holds, answered⟩

variable {value : α} {m' : Machine} {val : β} {next : α -> Run γ} {goesOn : β -> Option δ}
  {last : γ -> δ -> Machine -> Prop} {test : Prop}

/-- A computation that ends with a value, where there is an answer. -/
theorem ends (ran : run m = some (.ok value, m'))
    (holds : post value val m') : Follows total m run (some val) post := by
  cases total with
  | true =>
    rintro _ ⟨⟩
    exact ⟨value, m', ran, holds⟩
  | false =>
    intro other last ran'
    cases ran.symm.trans ran'
    exact ⟨val, rfl, holds⟩

theorem pure (holds : post value val m) : Follows total m (pure value) (some val) post :=
  ends rfl holds

/-- A computation that does not end with a value, where there is no answer. -/
theorem fails (never : ∀ value m', run m ≠ some (.ok value, m')) :
    Follows total m run (none : Option β) post := by
  cases total with
  | true => exact nofun
  | false => exact fun value m' ran => absurd ran (never value m')

/-- A computation that does not end with a value; there is no answer either if that matters. -/
theorem never (never : ∀ value m', run m ≠ some (.ok value, m'))
    (unanswered : total = true -> ∀ val, answer ≠ some val) : Follows total m run answer post := by
  cases total with
  | true => exact fun val answered => absurd answered (unanswered rfl val)
  | false => exact fun value m' ran => absurd ran (never value m')

theorem fail (error : EvalError) : Follows total m (fail error : Run α) (none : Option β) post :=
  fails nofun

theorem bind (follows : Follows total m run answer post)
    (after : ∀ value val m', post value val m' ->
      Follows total m' (next value) (goesOn val) last) :
    Follows total m (run >>= next) (answer >>= goesOn) last := by
  cases total with
  | true =>
    intro val answered
    obtain ⟨mid, answered, rest⟩ := Option.bind_eq_some_iff.mp answered
    obtain ⟨value, m', ran, holds⟩ := follows mid answered
    obtain ⟨value', m'', ran', holds'⟩ := after value mid m' holds val rest
    exact ⟨value', m'', bind_eq_ok.mpr ⟨value, m', ran, ran'⟩, holds'⟩
  | false =>
    intro value' m'' ran
    obtain ⟨value, m', ran, rest⟩ := bind_eq_ok.mp ran
    obtain ⟨mid, answered, holds⟩ := follows value m' ran
    obtain ⟨val, answered', holds'⟩ := after value mid m' holds value' m'' rest
    exact ⟨val, Option.bind_eq_some_iff.mpr ⟨mid, answered, answered'⟩, holds'⟩

/-- A change to the answer alone. -/
theorem map {make : β -> δ} {last : α -> δ -> Machine -> Prop}
    (follows : Follows total m run answer post)
    (makes : ∀ value val m', post value val m' -> last value (make val) m') :
    Follows total m run (answer >>= fun val => some (make val)) last := by
  rw [← bind_pure run]
  exact follows.bind fun value val m' holds => .pure (makes value val m' holds)

/-- A change to the value alone. -/
theorem mapRun {make : α -> γ} {last : γ -> β -> Machine -> Prop}
    (follows : Follows total m run answer post)
    (makes : ∀ value val m', post value val m' -> last (make value) val m') :
    Follows total m (run >>= fun value => Pure.pure (make value)) answer last := by
  rw [← bind_pure answer]
  exact follows.bind fun value val m' holds => .pure (makes value val m' holds)

/-- A step of the machine alone. -/
theorem step {answer : Option δ}
    (ran : run m = some (.ok value, m')) (after : Follows total m' (next value) answer last) :
    Follows total m (run >>= next) answer last := by
  cases total with
  | true =>
    intro val answered
    obtain ⟨value', m'', ran', holds⟩ := after val answered
    exact ⟨value', m'', bind_eq_ok.mpr ⟨value, m', ran, ran'⟩, holds⟩
  | false =>
    intro value' m'' ran'
    rw [bind_apply ran] at ran'
    exact after value' m'' ran'

/-- Where a step of the machine does not end with a value, nothing after it does. -/
theorem stops (never : ∀ value m', run m ≠ some (.ok value, m')) :
    Follows total m (run >>= next) (none : Option δ) last :=
  fails fun _ _ ran => by
    obtain ⟨value, m', ran, -⟩ := bind_eq_ok.mp ran
    exact never value m' ran

/-- After a part that ends with a value, whatever would be done about an error. -/
theorem settle {next : Except EvalError α -> Run γ}
    (follows : Follows total m run answer post) (after : ∀ value val m', post value val m' ->
      Follows total m' (next (.ok value)) (goesOn val) last)
    (stops : ∀ error m' value m'', next (.error error) m' ≠ some (.ok value, m'')) :
    Follows total m (Exec.settle run next) (answer >>= goesOn) last := by
  cases total with
  | true =>
    intro val answered
    obtain ⟨mid, answered, rest⟩ := Option.bind_eq_some_iff.mp answered
    obtain ⟨value, m', ran, holds⟩ := follows mid answered
    obtain ⟨value', m'', ran', holds'⟩ := after value mid m' holds val rest
    exact ⟨value', m'', settle_eq_some.mpr ⟨.ok value, m', ran, ran'⟩, holds'⟩
  | false =>
    intro value' m'' ran
    obtain ⟨result, m', ran, rest⟩ := settle_eq_some.mp ran
    cases result with
    | error error => exact absurd rest (stops error m' value' m'')
    | ok value =>
      obtain ⟨mid, answered, holds⟩ := follows value m' ran
      obtain ⟨val, answered', holds'⟩ := after value mid m' holds value' m'' rest
      exact ⟨val, Option.bind_eq_some_iff.mpr ⟨mid, answered, answered'⟩, holds'⟩

/-- A guarded computation takes the stack back down. -/
theorem guarded (follows : Follows total m run answer post) :
    Follows total m run.guarded answer fun value val m' =>
      ∃ last, post value val last ∧ m' = last.unwindTo m.stack.size := by
  cases total with
  | true =>
    intro val answered
    obtain ⟨value, m', ran, holds⟩ := follows val answered
    exact ⟨value, _, guarded_eq_some.mpr ⟨m', ran, rfl⟩, m', holds, rfl⟩
  | false =>
    intro value m' ran
    obtain ⟨last, inside, rfl⟩ := guarded_eq_some.mp ran
    obtain ⟨val, answered, holds⟩ := follows value last inside
    exact ⟨val, answered, last, holds, rfl⟩

theorem ite [Decidable test] {other : Run α} {answer' : Option β}
    (follows : test -> Follows total m run answer post)
    (follows' : ¬test -> Follows total m other answer' post) :
    Follows total m (if test then run else other) (if test then answer else answer') post := by
  split
  · exact follows ‹_›
  · exact follows' ‹_›

/-- With less fuel there is a value less often. -/
theorem below {full : Run α} (follows : Follows total m full answer post) (lower : run ≤ full)
    (same : total = true -> run = full) : Follows total m run answer post := by
  cases total with
  | true => exact same rfl ▸ follows
  | false => exact fun value m' ran => follows value m' (lower _ _ ran)

/-! ## Plans and courses -/

variable {perform : (task : Task) -> Run task.Answer}
  {refer : (query : Query) -> Option query.Answer}

theorem sub {task : Task} {query : Query} {last : task.Answer -> query.Answer -> Machine -> Prop}
    (follows : Follows total m (perform task) (refer query) last) :
    Follows total m ((Plan.sub task).run perform) ((Course.sub query).run refer) last := by
  rwa [Plan.run_sub, Course.run_sub]

/-- Conditionals of plan and course follow each other if their tests agree. -/
theorem branch {test' : Prop} [Decidable test] [Decidable test'] {plan plan' : Plan α}
    {course course' : Course β} (same : test ↔ test')
    (follows : test' -> Follows total m (plan.run perform) (course.run refer) post)
    (follows' : ¬test' -> Follows total m (plan'.run perform) (course'.run refer) post) :
    Follows total m ((if test then plan else plan').run perform)
      ((if test' then course else course').run refer) post := by
  by_cases holds : test'
  · rw [if_pos (same.mpr holds), if_pos holds]
    exact follows holds
  · rw [if_neg (holds ∘ same.mp), if_neg holds]
    exact follows' holds

end Follows

end Trampoline.ByName
