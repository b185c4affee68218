import Trampoline.Proofs.Evaluation.Order

/-!
# Computations on growing fuel

A chain is a computation for every amount of fuel, in which more fuel keeps every answer. Its full
computation gives the answers of all amounts. `Chain.cut` keeps of a chain one amount and the full
computation: proofs about all runs go by the amount on one side and find the full computation on
the other. Chains and their cuts are built by the same operations as computations, and cutting
passes through all of them.
-/

namespace Trampoline

open Exec

/-- A computation for every amount of fuel. -/
structure Chain (σ α : Type) where
  upTo : Nat -> Exec σ α
  rising : ∀ n, upTo n ≤ upTo (n + 1)

namespace Chain

variable {σ τ α β : Type}

/-- A chain with more fuel ends wherever it ended with less. -/
theorem upTo_le (chain : Chain σ α) {n k : Nat} (less : n ≤ k) : chain.upTo n ≤ chain.upTo k := by
  induction less with
  | refl => exact le_refl _
  | step _ below => exact le_trans below (chain.rising _)

open Classical in
/-- The answers that some amount of fuel gives. -/
noncomputable def full (chain : Chain σ α) : Exec σ α := fun state =>
  if ends : ∃ n, (chain.upTo n state).isSome then chain.upTo ends.choose state else none

variable {chain : Chain σ α}

/-- In full, a chain ends as it does with enough fuel. -/
theorem full_eq_some {state : σ} {outcome : Outcome σ α} :
    chain.full state = some outcome ↔ ∃ n, chain.upTo n state = some outcome := by
  unfold full
  constructor
  · intro ended
    split at ended
    · exact ⟨_, ended⟩
    · cases ended
  · rintro ⟨n, ended⟩
    have ends : ∃ n, (chain.upTo n state).isSome := ⟨n, by rw [ended]; rfl⟩
    rw [dif_pos ends]
    obtain ⟨other, chosen⟩ := Option.isSome_iff_exists.mp ends.choose_spec
    rcases Nat.le_total n ends.choose with less | less
    · exact chain.upTo_le less state outcome ended
    · have same := chain.upTo_le less state other chosen
      rw [ended] at same
      rw [chosen, same]

/-- A chain ends in full wherever it ends with some fuel. -/
theorem upTo_le_full (chain : Chain σ α) (n : Nat) : chain.upTo n ≤ chain.full :=
  fun _ _ ended => full_eq_some.mpr ⟨n, ended⟩

/-- The full computation is the one whose answers some amount of fuel gives. -/
theorem full_eq_of_iff {run : Exec σ α}
    (same : ∀ state outcome, run state = some outcome ↔ ∃ n, chain.upTo n state = some outcome) :
    chain.full = run := by
  funext state
  refine Option.ext fun outcome => ?_
  rw [full_eq_some, same]

/-- Chains that differ by a unit of fuel have the same full computation. -/
theorem full_eq_of_succ {next : Chain σ α}
    (same : ∀ n, chain.upTo (n + 1) = next.upTo n) : chain.full = next.full := by
  refine full_eq_of_iff fun state outcome => ?_
  rw [full_eq_some]
  constructor
  · rintro ⟨n, ended⟩
    exact ⟨n + 1, same n ▸ ended⟩
  · rintro ⟨n, ended⟩
    exact ⟨n, same n ▸ chain.rising n state outcome ended⟩

/-- A choice that does not depend on fuel is made first. -/
theorem upTo_ite (test : Prop) [Decidable test] (first second : Chain σ α) (n : Nat) :
    (if test then first else second).upTo n = if test then first.upTo n else second.upTo n :=
  apply_ite (fun chain : Chain σ α => chain.upTo n) test first second

/-- The same computation whatever the fuel. -/
def lift (run : Exec σ α) : Chain σ α := ⟨fun _ => run, fun _ => le_refl run⟩

instance : Monad (Chain σ) where
  pure value := lift (pure value)
  bind first next := ⟨fun n => first.upTo n >>= fun value => (next value).upTo n,
    fun n => bind_le (first.rising n) fun value => (next value).rising n⟩

/-- Go on with the outcome of a chain, a value or an error. -/
def settle (first : Chain σ α) (next : Except EvalError α -> Chain σ β) : Chain σ β :=
  ⟨fun n => Exec.settle (first.upTo n) fun result => (next result).upTo n,
    fun n => settle_le (first.rising n) fun result => (next result).rising n⟩

/-- A chain on the machine as a part of a running body. -/
def within (chain : Chain Machine α) : Chain Activation α :=
  ⟨fun n => Run.within (chain.upTo n), fun n => within_le (chain.rising n)⟩

/-- A chain of a body as a block. -/
def inBlock (chain : Chain Activation α) : Chain Activation α :=
  ⟨fun n => Body.inBlock (chain.upTo n), fun n => inBlock_le (chain.rising n)⟩

/-- A chain of a body in a frame of its own. -/
def bodyRun (chain : Chain Activation α) (frame : Frame) : Chain Machine α :=
  ⟨fun n => Body.run (chain.upTo n) frame, fun n => bodyRun_le (chain.rising n) frame⟩

/-- A guarded chain. -/
def guarded (chain : Chain Machine α) : Chain Machine α :=
  ⟨fun n => Run.guarded (chain.upTo n), fun n => guarded_le (chain.rising n)⟩

end Chain

/-- A computation with a limited amount of fuel, beside the full one. -/
@[ext]
structure Bounded (σ α : Type) where
  limited : Exec σ α
  full : Exec σ α

namespace Bounded

variable {σ τ α β : Type}

/-- A computation that takes no fuel. -/
def lift (run : Exec σ α) : Bounded σ α := ⟨run, run⟩

instance : Monad (Bounded σ) where
  pure value := lift (pure value)
  bind first next := ⟨first.limited >>= fun value => (next value).limited,
    first.full >>= fun value => (next value).full⟩

instance : LawfulMonad (Bounded σ) :=
  LawfulMonad.mk' _
    (fun run => Bounded.ext (bind_pure run.limited) (bind_pure run.full))
    (fun _ _ => rfl)
    (fun _ _ _ => Bounded.ext (bind_assoc ..) (bind_assoc ..))

theorem lift_bind (first : Exec σ α) (next : α -> Exec σ β) :
    lift (first >>= next) = lift first >>= fun value => lift (next value) := rfl

theorem lift_pure (value : α) : lift (pure value : Exec σ α) = pure value := rfl

/-- Go on with an outcome, a value or an error. -/
def settle (first : Bounded σ α) (next : Except EvalError α -> Bounded σ β) : Bounded σ β :=
  ⟨Exec.settle first.limited fun result => (next result).limited,
    Exec.settle first.full fun result => (next result).full⟩

/-- A computation on the machine as a part of a running body. -/
def within (run : Bounded Machine α) : Bounded Activation α :=
  ⟨Run.within run.limited, Run.within run.full⟩

/-- A body as a block. -/
def inBlock (body : Bounded Activation α) : Bounded Activation α :=
  ⟨Body.inBlock body.limited, Body.inBlock body.full⟩

/-- A body in a frame of its own. -/
def bodyRun (body : Bounded Activation α) (frame : Frame) : Bounded Machine α :=
  ⟨Body.run body.limited frame, Body.run body.full frame⟩

/-- A guarded operation. -/
def guarded (run : Bounded Machine α) : Bounded Machine α :=
  ⟨Run.guarded run.limited, Run.guarded run.full⟩

/-- The second computation has the same full answers, and at least the limited ones. -/
structure Within (first second : Bounded σ α) : Prop where
  limited : first.limited ≤ second.limited
  full : first.full = second.full

instance : LE (Bounded σ α) := ⟨Within⟩

/-- Every computation is below itself. -/
theorem le_refl (run : Bounded σ α) : run ≤ run := ⟨Exec.le_refl _, rfl⟩

variable {first second : Bounded σ α}

/-- What is below one that is below a third is below that. -/
theorem le_trans {third : Bounded σ α} (lower : first ≤ second)
    (upper : second ≤ third) : first ≤ third :=
  ⟨Exec.le_trans lower.limited upper.limited, lower.full.trans upper.full⟩

/-- Equal computations are below each other. -/
theorem le_of_eq (equal : first = second) : first ≤ second :=
  equal ▸ le_refl first

/-- Computations one after another are below others that are above them one by one. -/
theorem bind_le {next later : α -> Bounded σ β}
    (lower : first ≤ second) (after : ∀ value, next value ≤ later value) :
    first >>= next ≤ second >>= later :=
  ⟨Exec.bind_le lower.limited fun value => (after value).limited, by
    show (first.full >>= fun value => (next value).full) =
      second.full >>= fun value => (later value).full
    rw [lower.full]
    exact bind_congr fun value => (after value).full⟩

/-- A computation inside of a body is below others as it is by itself. -/
theorem within_le {first second : Bounded Machine α} (lower : first ≤ second) :
    first.within ≤ second.within :=
  ⟨Exec.within_le lower.limited, congrArg Run.within lower.full⟩

/-- A body run in a frame is below others as it is by itself. -/
theorem bodyRun_le {first second : Bounded Activation α} (lower : first ≤ second) (frame : Frame) :
    first.bodyRun frame ≤ second.bodyRun frame :=
  ⟨Exec.bodyRun_le lower.limited frame, congrArg (Body.run · frame) lower.full⟩

/-- A body in a frame of its own, with the frame that it ends in. -/
def expose (body : Bounded Activation α) (frame : Frame) : Bounded Machine (α × Frame) :=
  ⟨Exec.expose body.limited frame, Exec.expose body.full frame⟩

/-- A body of two parts ends in the frame that the second makes of that of the first. -/
theorem bodyRun_bind (body : Bounded Activation α) (next : α -> Bounded Activation β)
    (frame : Frame) :
    (body >>= next).bodyRun frame =
      body.expose frame >>= fun result => (next result.1).bodyRun result.2 :=
  Bounded.ext (Exec.bodyRun_bind _ _ _) (Exec.bodyRun_bind _ _ _)

/-- What a block forgets is not seen where a body is run for its value. -/
theorem bodyRun_inBlock (body : Bounded Activation α) (frame : Frame) :
    body.inBlock.bodyRun frame = body.bodyRun frame :=
  Bounded.ext (Exec.bodyRun_inBlock _ _) (Exec.bodyRun_inBlock _ _)

/-- What leaves the frame alone may be run without it. -/
theorem bodyRun_within (run : Bounded Machine α) (frame : Frame) :
    run.within.bodyRun frame = run :=
  Bounded.ext (Exec.bodyRun_within _ _) (Exec.bodyRun_within _ _)

/-- It may be run first. -/
theorem bodyRun_within_bind (run : Bounded Machine α) (next : α -> Bounded Activation β)
    (frame : Frame) :
    (run.within >>= next).bodyRun frame = run >>= fun value => (next value).bodyRun frame :=
  Bounded.ext (Exec.bodyRun_within_bind _ _ _) (Exec.bodyRun_within_bind _ _ _)

/-- It may be run last, on what the body comes to. -/
theorem bodyRun_bind_within (body : Bounded Activation α) (next : α -> Bounded Machine β)
    (frame : Frame) :
    (body >>= fun value => (next value).within).bodyRun frame = body.bodyRun frame >>= next :=
  Bounded.ext (Exec.bodyRun_bind_within _ _ _) (Exec.bodyRun_bind_within _ _ _)

theorem bodyRun_pure (value : α) (frame : Frame) :
    (pure value : Bounded Activation α).bodyRun frame = pure value := rfl

theorem within_lift (run : Run α) : (lift run).within = lift run.within := rfl

end Bounded

namespace Chain

variable {σ τ α β : Type}

/-- A chain up to an amount of fuel, beside its full computation. -/
noncomputable def cut (chain : Chain σ α) (n : Nat) : Bounded σ α := ⟨chain.upTo n, chain.full⟩

variable {n : Nat} {chain : Chain σ α} {run : Bounded σ α}

/-- A chain that is cut later is above one that is cut earlier. -/
theorem cut_le (chain : Chain σ α) {k : Nat} (less : n ≤ k) : chain.cut n ≤ chain.cut k :=
  ⟨chain.upTo_le less, rfl⟩

/-- A chain that is another one with a unit of fuel more. -/
theorem cut_succ {next : Chain σ α} (same : ∀ n, chain.upTo (n + 1) = next.upTo n)
    (n : Nat) : chain.cut (n + 1) = next.cut n :=
  Bounded.ext (same n) (full_eq_of_succ same)

/-- A chain is within what it is equal to with a unit of fuel more. -/
theorem cut_le_of_eq (equal : chain.cut (n + 1) = run) : chain.cut n ≤ run :=
  equal ▸ chain.cut_le (Nat.le_succ n)

@[simp] theorem cut_lift (run : Exec σ α) (n : Nat) : (lift run).cut n = .lift run := by
  refine Bounded.ext rfl (full_eq_of_iff fun state outcome => ?_)
  exact ⟨fun ended => ⟨0, ended⟩, fun ⟨_, ended⟩ => ended⟩

/-- A chain that takes a unit of fuel and no more. -/
theorem cut_succ_lift {run : Exec σ α} (same : ∀ n, chain.upTo (n + 1) = run)
    (n : Nat) : chain.cut (n + 1) = .lift run :=
  (cut_succ (fun k => (same k : _ = (lift run).upTo k)) n).trans (cut_lift run n)

@[simp] theorem cut_pure (value : α) (n : Nat) : (pure value : Chain σ α).cut n = pure value :=
  cut_lift (pure value) n

@[simp] theorem cut_bind (first : Chain σ α) (next : α -> Chain σ β) (n : Nat) :
    (first >>= next).cut n = first.cut n >>= fun value => (next value).cut n := by
  refine Bounded.ext rfl (full_eq_of_iff fun state outcome => ?_)
  show (first.full >>= fun value => (next value).full) state = some outcome ↔
    ∃ n, (first.upTo n >>= fun value => (next value).upTo n) state = some outcome
  simp only [bind_eq_some, full_eq_some]
  constructor
  · rintro (⟨value, middle, ⟨n, ends⟩, k, rest⟩ | ⟨error, last, ⟨n, ends⟩, equal⟩)
    · exact ⟨max n k, .inl ⟨value, middle, first.upTo_le (Nat.le_max_left n k) _ _ ends,
        (next value).upTo_le (Nat.le_max_right n k) _ _ rest⟩⟩
    · exact ⟨n, .inr ⟨error, last, ends, equal⟩⟩
  · rintro ⟨n, ⟨value, middle, ends, rest⟩ | ⟨error, last, ends, equal⟩⟩
    · exact .inl ⟨value, middle, ⟨n, ends⟩, n, rest⟩
    · exact .inr ⟨error, last, ⟨n, ends⟩, equal⟩

@[simp] theorem cut_settle (first : Chain σ α) (next : Except EvalError α -> Chain σ β) (n : Nat) :
    (first.settle next).cut n = (first.cut n).settle fun result => (next result).cut n := by
  refine Bounded.ext rfl (full_eq_of_iff fun state outcome => ?_)
  show Exec.settle first.full (fun result => (next result).full) state = some outcome ↔
    ∃ n, Exec.settle (first.upTo n) (fun result => (next result).upTo n) state = some outcome
  simp only [settle_eq_some, full_eq_some]
  constructor
  · rintro ⟨result, middle, ⟨n, ends⟩, k, rest⟩
    exact ⟨max n k, result, middle, first.upTo_le (Nat.le_max_left n k) _ _ ends,
      (next result).upTo_le (Nat.le_max_right n k) _ _ rest⟩
  · rintro ⟨n, result, middle, ends, rest⟩
    exact ⟨result, middle, ⟨n, ends⟩, n, rest⟩

/-- What changes states on the way in and outcomes on the way out is done to the full computation
as it is done to the limited ones. -/
theorem full_eq_of_around {change : Exec σ α -> Exec τ β} {enter : τ -> σ}
    {leave : τ -> Outcome σ α -> Outcome τ β} (shape : ∀ run, change run = around enter leave run)
    {changed : Chain τ β} (same : ∀ n, changed.upTo n = change (chain.upTo n)) :
    changed.full = change chain.full := by
  refine full_eq_of_iff fun state outcome => ?_
  simp only [same, shape, around, Option.map_eq_some_iff, full_eq_some]
  constructor
  · rintro ⟨inner, ⟨n, ends⟩, equal⟩
    exact ⟨n, inner, ends, equal⟩
  · rintro ⟨n, inner, ends, equal⟩
    exact ⟨inner, ⟨n, ends⟩, equal⟩

@[simp] theorem cut_within (chain : Chain Machine α) (n : Nat) :
    chain.within.cut n = (chain.cut n).within :=
  Bounded.ext rfl (full_eq_of_around within_eq_around fun _ => rfl)

@[simp] theorem cut_inBlock (chain : Chain Activation α) (n : Nat) :
    chain.inBlock.cut n = (chain.cut n).inBlock :=
  Bounded.ext rfl (full_eq_of_around inBlock_eq_around fun _ => rfl)

@[simp] theorem cut_bodyRun (chain : Chain Activation α) (frame : Frame) (n : Nat) :
    (chain.bodyRun frame).cut n = (chain.cut n).bodyRun frame :=
  Bounded.ext rfl (full_eq_of_around (fun body => bodyRun_eq_around body frame) fun _ => rfl)

@[simp] theorem cut_guarded (chain : Chain Machine α) (n : Nat) :
    chain.guarded.cut n = (chain.cut n).guarded :=
  Bounded.ext rfl (full_eq_of_around guarded_eq_around fun _ => rfl)

@[simp] theorem cut_ite (test : Prop) [Decidable test] (first second : Chain σ α) (n : Nat) :
    (if test then first else second).cut n = if test then first.cut n else second.cut n :=
  apply_ite (fun chain : Chain σ α => chain.cut n) test first second

/-! ## Full computations -/

/-- A chain has the full computation of what it is equal to with a unit of fuel more. -/
theorem full_eq (equal : chain.cut (n + 1) = run) : chain.full = run.full :=
  congrArg Bounded.full equal

@[simp] theorem full_lift (run : Exec σ α) : (lift run).full = run :=
  congrArg Bounded.full (cut_lift run 0)

@[simp] theorem full_pure (value : α) : (pure value : Chain σ α).full = pure value :=
  full_lift (pure value)

@[simp] theorem full_bind (first : Chain σ α) (next : α -> Chain σ β) :
    (first >>= next).full = first.full >>= fun value => (next value).full :=
  congrArg Bounded.full (cut_bind first next 0)

@[simp] theorem full_within (chain : Chain Machine α) :
    chain.within.full = Run.within chain.full :=
  congrArg Bounded.full (cut_within chain 0)

@[simp] theorem full_ite (test : Prop) [Decidable test] (first second : Chain σ α) :
    (if test then first else second).full = if test then first.full else second.full :=
  apply_ite Chain.full test first second

end Chain

end Trampoline
