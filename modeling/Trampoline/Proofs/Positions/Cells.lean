import Trampoline.Proofs.Evaluation.Effects
import Trampoline.Proofs.Positions.Visits

/-!
# Cells and the bodies that make them

Cells are numbered in the order in which they are made, and each is made by one step of one call.
The tasks of a running body make cells for the call that runs it; what calls, promises and escape
points make on the way is theirs. So no two calls of a session make the same cell.
-/

namespace Trampoline

open Exec

/-! ## Cells in the order in which they are made -/

/-- The cells that the later machine has besides those of the earlier one. -/
def Machine.newCells (m later : Machine) : List CellRef :=
  List.range' m.cells.size (later.cells.size - m.cells.size)

/-- The cells made on the way of a plan; `inside` are those of a task. -/
def Plan.makes {α : Type} (perform : (task : Task) -> Run task.Answer)
    (inside : Task -> Machine -> List CellRef) : Plan α -> Machine -> List CellRef
  | done _, _ => []
  | step run next, m =>
    match run m with
    | some (.ok value, middle) => m.newCells middle ++ (next value).makes perform inside middle
    | _ => []
  | ask task next, m => inside task m ++
    match perform task m with
    | some (.ok answer, middle) => (next answer).makes perform inside middle
    | _ => []
  | guarded inner next, m => inner.makes perform inside m ++
    match (inner.run perform).guarded m with
    | some (.ok value, middle) => (next value).makes perform inside middle
    | _ => []
  | settle inner next, m => inner.makes perform inside m ++
    match inner.run perform m with
    | some (result, middle) => (next result).makes perform inside middle
    | none => []

/-- The cells made on the way of a task. -/
def Task.makes : Nat -> Task -> Machine -> List CellRef
  | 0, _, _ => []
  | n + 1, task, m => task.plan.makes (Task.run n) (Task.makes n) m

/-- The cells that a task of a running body makes for the body. -/
def Task.ownCells : Nat -> Task -> Machine -> List CellRef
  | 0, _, _ => []
  | n + 1, task, m =>
    if task.isOfBody then task.plan.makes (Task.run n) (Task.ownCells n) m else []

/-- The cells that a call makes itself, in the body that it runs, if it is no part of a body. -/
def Call.cells : Call -> List CellRef
  | ⟨0, _, _⟩ => []
  | ⟨n + 1, task, m⟩ =>
    if task.isOfBody then [] else task.plan.makes (Task.run n) (Task.ownCells n) m

/-- Cells that are new to the machine, up to the end of a computation, each made after the others
before it. -/
structure Ascending {α : Type} (m : Machine) (ended : Option (Outcome Machine α))
    (cells : List CellRef) : Prop where
  sorted : cells.Pairwise (· < ·)
  above : ∀ cell ∈ cells, m.cells.size ≤ cell
  grows : ∀ {result last}, ended = some (result, last) -> m.cells.size ≤ last.cells.size
  below : ∀ {result last}, ended = some (result, last) -> ∀ cell ∈ cells, cell < last.cells.size

namespace Ascending

variable {α β : Type} {m middle : Machine} {first : Option (Outcome Machine β)}
  {ended : Option (Outcome Machine α)} {cells others : List CellRef}

theorem nil (grows : ∀ {result last}, ended = some (result, last) ->
    m.cells.size ≤ last.cells.size) : Ascending m ended [] :=
  ⟨.nil, by simp, grows, by simp⟩

/-- The cells of one part and then those of the next. -/
theorem append {result : Except EvalError β} (one : Ascending m (some (result, middle)) cells)
    (two : Ascending middle ended others) : Ascending m ended (cells ++ others) where
  sorted := by
    refine List.pairwise_append.mpr ⟨one.sorted, two.sorted, fun cell member other member' => ?_⟩
    exact Nat.lt_of_lt_of_le (one.below rfl cell member) (two.above other member')
  above := by
    refine List.forall_mem_append.mpr ⟨one.above, fun cell member => ?_⟩
    exact Nat.le_trans (one.grows rfl) (two.above cell member)
  grows ran := Nat.le_trans (one.grows rfl) (two.grows ran)
  below ran := by
    refine List.forall_mem_append.mpr ⟨fun cell member => ?_, two.below ran⟩
    exact Nat.lt_of_lt_of_le (one.below rfl cell member) (two.grows ran)

/-- Another computation that ends on a machine with as many cells. -/
theorem ending (one : Ascending m first cells) (same : ∀ {result last},
    ended = some (result, last) -> ∃ result' last', first = some (result', last') ∧
      last.cells = last'.cells) : Ascending m ended cells where
  sorted := one.sorted
  above := one.above
  grows ran := by
    obtain ⟨result', last', ran', equal⟩ := same ran
    exact equal ▸ one.grows ran'
  below ran := by
    obtain ⟨result', last', ran', equal⟩ := same ran
    exact equal ▸ one.below ran'

/-- The new cells of one step are in ascending order. -/
theorem newCells {value : Except EvalError α} (grows : m.cells.size ≤ middle.cells.size) :
    Ascending m (some (value, middle)) (m.newCells middle) where
  sorted := List.pairwise_lt_range'
  above cell member := (List.mem_range'_1.mp member).1
  grows := by
    rintro result last ⟨⟩
    exact grows
  below := by
    rintro result last ⟨⟩ cell member
    have bound := (List.mem_range'_1.mp member).2
    rwa [Nat.add_sub_cancel' grows] at bound

/-- A computation that stops after its first part. -/
theorem stops {error : EvalError}
    (one : Ascending m (some (.error error, middle) : Option (Outcome Machine β)) cells) :
    Ascending m (some (.error error, middle) : Option (Outcome Machine α)) (cells ++ []) := by
  rw [List.append_nil]
  refine one.ending ?_
  rintro result last ⟨⟩
  exact ⟨_, _, rfl, rfl⟩

theorem stuck (one : Ascending m (none : Option (Outcome Machine β)) cells) :
    Ascending m (none : Option (Outcome Machine α)) (cells ++ []) := by
  rw [List.append_nil]
  exact one.ending (by simp)

theorem guarded {run : Run α} (inside : Ascending m (run m) cells) :
    Ascending m (run.guarded m) cells := by
  refine inside.ending fun {result last} ran => ?_
  obtain ⟨last', ran', rfl⟩ := guarded_eq_some.mp ran
  refine ⟨result, last', ran', ?_⟩
  exact @holds_guardedState _ (fun left => left.cells = last'.cells)
    (fun _ _ _ => id) _ result _ rfl

end Ascending

/-- No cell is ever given up. -/
theorem Machine.cells_grow :
    Machine.Preserved (fun _ => True) fun m later => m.cells.size ≤ later.cells.size where
  refl _ := Nat.le_refl _
  trans := Nat.le_trans
  effect {effect} m _ := by
    cases effect with
    | newCell value => simp only [Effect.on, Array.size_push, Nat.le_succ]
    | setCell ref value => simp only [Effect.on, Array.size_setIfInBounds, Nat.le_refl]
    | _ => exact Nat.le_refl _
  guarded {_ m _} result grows :=
    @holds_guardedState _ (fun left => m.cells.size ≤ left.cells.size)
      (fun _ _ _ => id) _ result _ grows

section Makes

variable {α : Type} {perform : (task : Task) -> Run task.Answer} {m : Machine}

/-- A plan makes cells in ascending order if its tasks do. -/
theorem Plan.makes_ascending {inside : Task -> Machine -> List CellRef}
    (performs : ∀ task m, Ascending m (perform task m) (inside task m)) {plan : Plan α}
    (does : plan.Does fun _ => True) :
    Ascending m (plan.run perform m) (plan.makes perform inside m) := by
  induction plan generalizing m with
  | done value =>
    refine .nil ?_
    rintro result last ⟨⟩
    exact Nat.le_refl _
  | step act next ih =>
    show Ascending m (Exec.bind act _ m) _
    rw [makes]
    simp only [Exec.bind]
    have grows {result middle} (ran : act m = some (result, middle)) :
        m.cells.size ≤ middle.cells.size := Machine.cells_grow.undergoes (does.1 _ _ _ ran)
    generalize act m = ended at grows
    rcases ended with _ | ⟨error | value, middle⟩
    · exact .nil (by simp)
    · refine .nil ?_
      rintro result last ⟨⟩
      exact grows rfl
    · have one : Ascending m (some (.ok value, middle)) (m.newCells middle) := .newCells (grows rfl)
      exact one.append (ih value (does.2 value))
  | ask task next ih =>
    show Ascending m (Exec.bind (perform task) _ m) _
    rw [makes]
    simp only [Exec.bind]
    have one := performs task m
    generalize perform task m = ended at one
    rcases ended with _ | ⟨error | answer, middle⟩
    · exact one.stuck
    · exact one.stops
    · exact one.append (ih answer (does answer))
  | guarded inner next ihInner ih =>
    show Ascending m (Exec.bind (inner.run perform).guarded _ m) _
    rw [makes]
    simp only [Exec.bind]
    have one : Ascending m _ _ := (ihInner does.1).guarded
    generalize (inner.run perform).guarded m = ended at one
    rcases ended with _ | ⟨error | answer, middle⟩
    · exact one.stuck
    · exact one.stops
    · exact one.append (ih answer (does.2 answer))
  | settle inner next ihInner ih =>
    show Ascending m (Exec.settle (inner.run perform) _ m) _
    rw [makes]
    simp only [Exec.settle]
    have one : Ascending m _ _ := ihInner does.1
    generalize inner.run perform m = ended at one
    rcases ended with _ | ⟨result, middle⟩
    · exact one.stuck
    · exact one.append (ih result (does.2 result))

/-- A task makes its cells in ascending order. -/
theorem Task.makes_ascending (n : Nat) (task : Task) (m : Machine) :
    Ascending m (task.run n m) (task.makes n m) := by
  induction n generalizing task m with
  | zero =>
    have stuck : task.run 0 m = none := by cases task <;> rfl
    rw [stuck]
    exact .nil (by simp)
  | succ n ih =>
    rw [Task.run_succ]
    exact Plan.makes_ascending ih (task.plan_does.imp fun _ _ => trivial)

/-! ## Every cell has one maker -/

/-- What is made on the way of a plan is made by its own steps and bodies or by a call on its
way. -/
theorem Plan.makes_perm {inside own : Task -> Machine -> List CellRef}
    {within : Task -> Machine -> List Call} (splits : ∀ task m, (inside task m).Perm
      (own task m ++ (within task m).flatMap Call.cells))
    (perform : (task : Task) -> Run task.Answer) (plan : Plan α) (m : Machine) :
    (plan.makes perform inside m).Perm
      (plan.makes perform own m ++ (plan.calls perform within m).flatMap Call.cells) := by
  have join {first ours theirs second ours' theirs' : List CellRef}
      (split : first.Perm (ours ++ theirs)) (split' : second.Perm (ours' ++ theirs')) :
      (first ++ second).Perm ((ours ++ ours') ++ (theirs ++ theirs')) := by
    refine (split.append split').trans ?_
    rw [List.append_assoc, List.append_assoc, ← List.append_assoc theirs, ← List.append_assoc ours']
    exact ((List.perm_append_comm).append_right theirs').append_left ours
  induction plan generalizing m with
  | done value => exact .nil
  | step act next ih =>
    rw [makes, makes, calls]
    generalize act m = ended
    rcases ended with _ | ⟨error | value, middle⟩
    · exact .nil
    · exact .nil
    · rw [List.append_assoc]
      exact (ih value _).append_left _
  | ask task next ih =>
    rw [makes, makes, calls, List.flatMap_append]
    refine join (splits task m) ?_
    generalize perform task m = ended
    rcases ended with _ | ⟨error | answer, middle⟩
    · exact .nil
    · exact .nil
    · exact ih answer _
  | guarded inner next ihInner ih =>
    rw [makes, makes, calls, List.flatMap_append]
    refine join (ihInner m) ?_
    generalize (inner.run perform).guarded m = ended
    rcases ended with _ | ⟨error | value, middle⟩
    · exact .nil
    · exact .nil
    · exact ih value _
  | settle inner next ihInner ih =>
    rw [makes, makes, calls, List.flatMap_append]
    refine join (ihInner m) ?_
    generalize inner.run perform m = ended
    rcases ended with _ | ⟨result, middle⟩
    · exact .nil
    · exact ih result _

/-- The cells that a task makes are its own and those of its calls, in some order. -/
theorem Task.makes_perm (n : Nat) (task : Task) (m : Machine) : (task.makes n m).Perm
    (task.ownCells n m ++ (task.calls n m).flatMap Call.cells) := by
  induction n generalizing task m with
  | zero => exact .nil
  | succ n ih =>
    have splits := Plan.makes_perm ih (Task.run n) task.plan m
    rw [makes, ownCells, calls, List.flatMap_cons, Call.cells]
    split
    · exact splits
    · exact splits

/-- A call makes new cells only. -/
theorem Call.cells_fresh (call : Call) : ∀ cell ∈ call.cells, call.machine.cells.size ≤ cell := by
  intro cell member
  obtain ⟨n, task, m⟩ := call
  cases n with
  | zero => cases member
  | succ n =>
    rw [Call.cells] at member
    split at member
    · cases member
    · have splits := Plan.makes_perm (Task.makes_perm n) (Task.run n) task.plan m
      have made : cell ∈ task.makes (n + 1) m :=
        splits.mem_iff.mpr (List.mem_append_left _ member)
      exact (Task.makes_ascending (n + 1) task m).above cell made

/-- No two calls of a session make the same cell. -/
theorem history_cells_nodup (n : Nat) (operations : List Operation) (m : Machine) :
    ((history n operations m).flatMap Call.cells).Nodup := by
  have ascends : Ascending m ((Plan.session operations).run (Task.run n) m)
      ((Plan.session operations).makes (Task.run n) (Task.makes n) m) :=
    Plan.makes_ascending (Task.makes_ascending n)
      ((Plan.does_session operations).imp fun _ _ => trivial)
  have distinct := ascends.sorted.imp Nat.ne_of_lt
  have splits := Plan.makes_perm (Task.makes_perm n) (Task.run n) (Plan.session operations) m
  exact (List.nodup_append.mp (splits.nodup_iff.mp distinct)).2.1

end Makes

end Trampoline
