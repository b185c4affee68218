import Trampoline.Proofs.Evaluation.Equations
import Trampoline.Proofs.Syntax.Nodes

/-!
# Where bodies end

The evaluation of a body runs along its tail path: through blocks to their last items, through
conditionals into the arms that are taken, through connectives to their last operands. What it comes
to decides how the body ends. Following the path and then ending so is all that evaluation does.
-/

namespace Trampoline

/-- How a body ends. -/
inductive Ending where
  /-- With the value of an expression, forced once for each connective around it. -/
  | returns (e : Expr) (connectives : Nat)
  /-- With the nil of an empty block. -/
  | fallsThrough
  /-- With the nil of a conditional without alternative. -/
  | noArm
  /-- With the value of an operand that decides a connective and is not its last one. -/
  | stops (value : Value)

/-- The expression with as much fuel as it takes. -/
noncomputable def Expr.meaning (e : Expr) : Body Value := (Chain.eval e).full

/-- The value behind a promise. -/
noncomputable def Value.forced (value : Value) : Run Value := (Chain.force value).full

namespace Ending

/-- Force a value several times. -/
noncomputable def forceTimes : Nat -> Value -> Run Value
  | 0, value => pure value
  | times + 1, value => do
    let value ← forceTimes times value
    value.forced

/-- The value that a body ends with. -/
noncomputable def value : Ending -> Body Value
  | returns e connectives => do
    let value ← e.meaning
    Run.within (forceTimes connectives value)
  | fallsThrough | noArm => pure .nil
  | stops value => pure value

/-- The ending inside one more connective. -/
noncomputable def inConnective : Ending -> Body Ending
  | returns e connectives => pure (returns e (connectives + 1))
  | fallsThrough => pure fallsThrough
  | noArm => pure noArm
  | stops value => do
    let value ← Run.within value.forced
    pure (stops value)

end Ending

mutual

/-- Follow the tail path of a body to its end. -/
noncomputable def Expr.follow : Expr -> Body Ending
  | .seq _ [] => pure .fallsThrough
  | .seq _ items => followItems items
  | .cond _ arms alt =>
    followArms arms
      (match alt with
      | none => pure .noArm
      | some e => e.follow)
  | .short mark op [] => pure (.returns (.short mark op []) 0)
  | .short _ op operands => followShort op operands
  | e => pure (.returns e 0)

/-- Evaluate items but the last, and follow this one. -/
noncomputable def followItems : List Expr -> Body Ending
  | [] => pure .fallsThrough
  | [e] => e.follow
  | e :: rest => do
    let _ ← e.meaning
    followItems rest

/-- Follow the first arm whose test holds, or else what comes after the arms. -/
noncomputable def followArms : List (Expr × Expr) -> Body Ending -> Body Ending
  | [], otherwise => otherwise
  | (test, body) :: rest, otherwise => do
    let value ← test.meaning
    let value ← Run.within value.forced
    if value.truthy then body.follow else followArms rest otherwise

/-- Evaluate operands until one decides, and follow the last. -/
noncomputable def followShort (op : Connective) : List Expr -> Body Ending
  | [] => pure .fallsThrough
  | [e] => do
    let ending ← e.follow
    ending.inConnective
  | e :: rest => do
    let value ← e.meaning
    let value ← Run.within value.forced
    if value.truthy = (op = .or) then pure (.stops value) else followShort op rest

end

/-! ## Evaluation without fuel -/

namespace Chain

/-- Forcing an expression is taking its meaning and forcing that. -/
theorem evalForced_full (e : Expr) : (evalForced e).full = (do
    let value ← e.meaning
    Run.within value.forced) := by
  rw [full_eq (evalForced_eq e 0)]
  simp only [cut, full_bind, full_within]
  rfl

/-- A block goes on after its first item with the value of that. -/
theorem evalItems_full (e : Expr) (rest : List Expr) (last : Value) :
    (evalItems (e :: rest) last).full = e.meaning >>= fun value => (evalItems rest value).full := by
  rw [full_eq (evalItems_cons e rest last 0)]
  exact full_bind _ _

/-- The value of the last item is that of the block. -/
theorem evalItems_one_full (e : Expr) (last : Value) : (evalItems [e] last).full = e.meaning := by
  have nil (value : Value) : (evalItems [] value).full = pure value :=
    full_eq (evalItems_nil value 0)
  rw [evalItems_full]
  simp only [nil, bind_pure]

/-- The first arm whose test holds is taken. -/
theorem evalArms_full (test body : Expr) (rest : List (Expr × Expr)) (alt : Option Expr) :
    (evalArms ((test, body) :: rest) alt).full = (do
      let value ← test.meaning
      let value ← Run.within value.forced
      if value.truthy then body.meaning else (evalArms rest alt).full) := by
  rw [full_eq (evalArms_cons test body rest alt 0)]
  simp only [cut, full_bind, full_ite, evalForced_full, bind_assoc]
  rfl

/-- A connective goes on until an operand decides. -/
theorem evalShort_full (op : Connective) (e : Expr) (rest : List Expr) (last : Value) :
    (evalShort op (e :: rest) last).full = (do
      let value ← e.meaning
      let value ← Run.within value.forced
      if value.truthy = (op = .or) then pure value else (evalShort op rest value).full) := by
  rw [full_eq (evalShort_cons op e rest last 0)]
  simp only [cut, full_bind, full_ite, full_pure, evalForced_full, bind_assoc]

/-- The last operand is forced, whatever it decides. -/
theorem evalShort_one_full (op : Connective) (e : Expr) (last : Value) :
    (evalShort op [e] last).full = (do
      let value ← e.meaning
      Run.within value.forced) := by
  have nil (value : Value) : (evalShort op [] value).full = pure value :=
    full_eq (evalShort_nil op value 0)
  rw [evalShort_full]
  simp only [nil, ite_self, bind_pure]

end Chain

/-- Only promises need to be forced. -/
theorem Value.forced_of_plain {value : Value} (plain : ∀ ref, value ≠ .promise ref) :
    value.forced = pure value :=
  Chain.full_eq (Chain.force_value value plain 0)

/-- A block means what its items come to, without the names that they bind. -/
theorem Expr.meaning_seq (mark : Mark) (items : List Expr) :
    (Expr.seq mark items).meaning = Body.inBlock (Chain.evalItems items .nil).full :=
  Chain.full_eq (Chain.eval_seq mark items 0)

/-- A conditional means what its arms come to. -/
theorem Expr.meaning_cond (mark : Mark) (arms : List (Expr × Expr)) (alt : Option Expr) :
    (Expr.cond mark arms alt).meaning = (Chain.evalArms arms alt).full :=
  Chain.full_eq (Chain.eval_cond mark arms alt 0)

/-- A connective means what its operands come to. -/
theorem Expr.meaning_short (mark : Mark) (op : Connective) (operands : List Expr) :
    (Expr.short mark op operands).meaning =
      (Chain.evalShort op operands (.bool (op = .and))).full :=
  Chain.full_eq (Chain.eval_short mark op operands 0)

/-! ## Following the tail path -/

namespace Ending

theorem value_returns (e : Expr) : (returns e 0).value = e.meaning := bind_pure e.meaning

/-- An ending inside one more connective has its value forced once more. -/
theorem value_inConnective (ending : Ending) :
    (do
      let value ← ending.value
      Run.within value.forced) = (do
      let ending ← ending.inConnective
      ending.value) := by
  have nil : Value.nil.forced = pure .nil := Value.forced_of_plain fun _ => nofun
  cases ending with
  | returns e connectives =>
    show (e.meaning >>= _) >>= _ = pure _ >>= _
    rw [bind_assoc, pure_bind]
    refine bind_congr fun value => ?_
    exact (Exec.within_bind _ _).symm
  | fallsThrough | noArm =>
    show pure Value.nil >>= _ = pure _ >>= _
    rw [pure_bind, pure_bind, nil]
    rfl
  | stops value =>
    show pure value >>= _ = (_ >>= _) >>= _
    rw [pure_bind, bind_assoc]
    exact (bind_pure _).symm

end Ending

mutual

/-- What a body evaluates to is what it ends with at the end of its tail path. -/
theorem Expr.run_follow : ∀ (e : Expr) (frame : Frame),
    Body.run e.meaning frame = Body.run (e.follow >>= Ending.value) frame
  | .seq mark [], frame => by
    rw [Expr.meaning_seq, Exec.bodyRun_inBlock, Chain.full_eq (Chain.evalItems_nil .nil 0)]
    rfl
  | .seq mark (e :: rest), frame => by
    rw [Expr.meaning_seq, Exec.bodyRun_inBlock]
    exact run_followItems (e :: rest) .nil frame (List.cons_ne_nil e rest)
  | .cond mark arms none, frame => by
    rw [Expr.meaning_cond]
    refine run_followArms arms none _ (fun frame => ?_) frame
    rw [Chain.full_eq (Chain.evalArms_nil_none 0)]
    rfl
  | .cond mark arms (some e), frame => by
    rw [Expr.meaning_cond]
    refine run_followArms arms (some e) _ (fun frame => ?_) frame
    rw [Chain.full_eq (Chain.evalArms_nil_some e 0)]
    exact Expr.run_follow e frame
  | .short mark op [], frame => by
    rw [Expr.follow, pure_bind, Ending.value_returns]
  | .short mark op (e :: rest), frame => by
    rw [Expr.meaning_short]
    exact run_followShort op (e :: rest) _ frame (List.cons_ne_nil e rest)
  | .lit .., frame | .var .., frame | .fn .., frame | .call .., frame | .bind .., frame
  | .assign .., frame | .loop .., frame | .jump .., frame | .capture .., frame => by
    simp only [Expr.follow, pure_bind, Ending.value_returns]

theorem run_followItems : ∀ (items : List Expr) (last : Value) (frame : Frame), items ≠ [] ->
    Body.run (Chain.evalItems items last).full frame =
      Body.run (followItems items >>= Ending.value) frame
  | [], _, _, some' => absurd rfl some'
  | [e], last, frame, _ => by
    rw [Chain.evalItems_one_full, followItems]
    exact Expr.run_follow e frame
  | e :: next :: rest, last, frame, _ => by
    rw [Chain.evalItems_full, followItems, bind_assoc, Exec.bodyRun_bind, Exec.bodyRun_bind]
    · refine bind_congr fun result => ?_
      exact run_followItems (next :: rest) result.1 result.2 (List.cons_ne_nil next rest)
    · nofun

theorem run_followArms : ∀ (arms : List (Expr × Expr)) (alt : Option Expr)
    (otherwise : Body Ending),
    (∀ frame, Body.run (Chain.evalArms [] alt).full frame =
      Body.run (otherwise >>= Ending.value) frame) -> ∀ frame : Frame,
    Body.run (Chain.evalArms arms alt).full frame =
      Body.run (followArms arms otherwise >>= Ending.value) frame
  | [], alt, otherwise, after, frame => after frame
  | (test, body) :: rest, alt, otherwise, after, frame => by
    rw [Chain.evalArms_full, followArms]
    simp only [bind_assoc]
    rw [Exec.bodyRun_bind, Exec.bodyRun_bind]
    refine bind_congr fun result => ?_
    rw [Exec.bodyRun_within_bind, Exec.bodyRun_within_bind]
    refine bind_congr fun value => ?_
    split
    · exact Expr.run_follow body result.2
    · exact run_followArms rest alt otherwise after result.2

theorem run_followShort (op : Connective) : ∀ (operands : List Expr) (last : Value)
    (frame : Frame), operands ≠ [] -> Body.run (Chain.evalShort op operands last).full frame =
      Body.run (followShort op operands >>= Ending.value) frame
  | [], _, _, some' => absurd rfl some'
  | [e], last, frame, _ => by
    rw [Chain.evalShort_one_full, followShort, bind_assoc]
    simp only [← Ending.value_inConnective]
    rw [← bind_assoc, Exec.bodyRun_bind_within, Exec.bodyRun_bind_within, Expr.run_follow e frame]
  | e :: next :: rest, last, frame, _ => by
    rw [Chain.evalShort_full, followShort]
    · simp only [bind_assoc]
      rw [Exec.bodyRun_bind, Exec.bodyRun_bind]
      refine bind_congr fun result => ?_
      rw [Exec.bodyRun_within_bind, Exec.bodyRun_within_bind]
      refine bind_congr fun value => ?_
      split
      · rfl
      · exact run_followShort op (next :: rest) value result.2 (List.cons_ne_nil next rest)
    · nofun

end

/-! ## Where the endings lie -/

/-- Every value that the computation ends with is as asked. -/
def Exec.Yields {σ α : Type} (run : Exec σ α) (post : α -> Prop) : Prop :=
  ∀ state value last, run state = some (.ok value, last) -> post value

namespace Exec.Yields

variable {σ α β : Type} {first : Exec σ α} {post : α -> Prop}

theorem pure {value : α} (holds : post value) : (pure value : Exec σ α).Yields post := by
  rintro state _ last ⟨⟩
  exact holds

theorem bind {next : α -> Exec σ β} {post' : β -> Prop} (yields : first.Yields post)
    (after : ∀ value, post value -> (next value).Yields post') : (first >>= next).Yields post' := by
  intro state value last ends
  obtain ⟨value', middle, ends, rest⟩ := Exec.bind_eq_ok.mp ends
  exact after value' (yields state value' middle ends) middle value last rest

theorem any (run : Exec σ α) : run.Yields fun _ => True := fun _ _ _ _ => trivial

end Exec.Yields

/-- Whether a body that comes to the expression ends with its value. -/
def Expr.isEnd : Expr -> Bool
  | .seq .. | .cond .. => false
  | .short _ _ operands => operands.isEmpty
  | _ => true

/-- The ending comes of an expression among these. -/
def Ending.LiesOn (path : List Expr) : Ending -> Prop
  | returns e _ => e ∈ path ∧ e.isEnd = true
  | fallsThrough => ∃ mark, .seq mark [] ∈ path
  | noArm => ∃ node ∈ path, node.hasAlternative = false
  | stops _ => ∃ node ∈ path, node.runsThrough = false

variable {path : List Expr}

/-- An end on a path is on it inside of a connective too. -/
theorem Ending.inConnective_liesOn {ending : Ending} (lies : ending.LiesOn path) :
    ending.inConnective.Yields (LiesOn path) := by
  cases ending with
  | returns e connectives => exact .pure lies
  | fallsThrough => exact .pure lies
  | noArm => exact .pure lies
  | stops value => exact .bind (.any _) fun _ _ => .pure lies

mutual

/-- A body ends with an expression on its tail path, or at one. -/
theorem Expr.follow_liesOn : ∀ e : Expr, e.tailPath ⊆ path -> e.follow.Yields (Ending.LiesOn path)
  | .seq mark [], inside => .pure ⟨mark, inside List.mem_cons_self⟩
  | .seq mark (e :: rest), inside =>
    followItems_liesOn (e :: rest) (List.cons_ne_nil e rest) (List.subset_of_cons_subset inside)
  | .cond mark arms none, inside => by
    refine followArms_liesOn arms ?_ ?_
    · exact fun node member => inside (List.mem_cons_of_mem _ (List.mem_append_left _ member))
    · exact .pure ⟨.cond mark arms none, inside List.mem_cons_self, rfl⟩
  | .cond mark arms (some e), inside => by
    refine followArms_liesOn arms ?_ (Expr.follow_liesOn e ?_)
    · exact fun node member => inside (List.mem_cons_of_mem _ (List.mem_append_left _ member))
    · exact fun node member => inside (List.mem_cons_of_mem _ (List.mem_append_right _ member))
  | .short mark op [], inside => .pure ⟨inside List.mem_cons_self, rfl⟩
  | .short mark op (e :: rest), inside => by
    refine followShort_liesOn op (e :: rest) (List.cons_ne_nil e rest) (fun several => ?_)
      (List.subset_of_cons_subset inside)
    refine ⟨.short mark op (e :: rest), inside List.mem_cons_self, ?_⟩
    exact decide_eq_false (Nat.not_le.mpr several)
  | .lit .., inside | .var .., inside | .fn .., inside | .call .., inside | .bind .., inside
  | .assign .., inside | .loop .., inside | .jump .., inside | .capture .., inside =>
    .pure ⟨inside List.mem_cons_self, rfl⟩

theorem followItems_liesOn : ∀ items : List Expr, items ≠ [] ->
    tailPathOfLast items ⊆ path -> (followItems items).Yields (Ending.LiesOn path)
  | [], some', _ => absurd rfl some'
  | [e], _, inside => Expr.follow_liesOn e inside
  | _ :: next :: rest, _, inside =>
    .bind (.any _) fun _ _ => followItems_liesOn (next :: rest) (List.cons_ne_nil next rest) inside

theorem followArms_liesOn {otherwise : Body Ending} :
    ∀ arms : List (Expr × Expr), tailPathOfArms arms ⊆ path ->
      otherwise.Yields (Ending.LiesOn path) ->
      (followArms arms otherwise).Yields (Ending.LiesOn path)
  | [], _, after => after
  | (_, body) :: rest, inside, after => by
    refine .bind (.any _) fun _ _ => .bind (.any _) fun value _ => ?_
    split
    · exact Expr.follow_liesOn body fun node member => inside (List.mem_append_left _ member)
    · exact followArms_liesOn rest
        (fun node member => inside (List.mem_append_right _ member)) after

theorem followShort_liesOn (op : Connective) : ∀ operands : List Expr, operands ≠ [] ->
      (2 ≤ operands.length -> ∃ node ∈ path, node.runsThrough = false) ->
      tailPathOfLast operands ⊆ path -> (followShort op operands).Yields (Ending.LiesOn path)
  | [], some', _, _ => absurd rfl some'
  | [e], _, _, inside =>
    .bind (Expr.follow_liesOn e inside) fun _ lies => Ending.inConnective_liesOn lies
  | _ :: next :: rest, _, several, inside => by
    have early := several (by simp)
    refine .bind (.any _) fun _ _ => .bind (.any _) fun value _ => ?_
    split
    · exact .pure early
    · exact followShort_liesOn op (next :: rest) (List.cons_ne_nil next rest)
        (fun _ => early) inside

end

end Trampoline
