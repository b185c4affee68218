import Trampoline.Proofs.Rewriting.Origins
import Trampoline.Proofs.Syntax.Owners

/-!
# Numbers in rewritten programs

Rewriting moves expressions, takes new numbers and cuts functions at captures. What it makes is
accounted for by counting: no number is given to two expressions, every function keeps its number,
and every capture becomes one continuation function, which has a number of its own.
-/

namespace Trampoline

open Transform

/-! ## Labels -/

/-- What is counted of an expression. -/
structure Label where
  id : Nat
  /-- The number of the function that it holds. -/
  function : Option Nat
  /-- The variables of a capture, or of the continuation function made of one. -/
  cut : Option (List String)
  isCapture : Bool
  deriving DecidableEq

/-- The variables that a capture binds, as a capture or as the continuation function made of it. -/
def Expr.cut? : Expr -> Option (List String)
  | .fn _ signature _ =>
    match signature.kind with
    | .plain => none
    | .continuation => some signature.params
  | .capture _ binders _ => some binders
  | _ => none

/-- What is counted of an expression on its own. -/
def Expr.label (e : Expr) : Label := ⟨e.id, e.functionId?, e.cut?, e.isCapture⟩

/-- The label of an expression that is neither a function nor a capture. -/
def Label.plain (id : Nat) : Label := ⟨id, none, none, false⟩

/-- The labels of the expressions in an expression. -/
def Expr.labels (e : Expr) : List Label := e.nodes.map Expr.label

/-- The labels of the expressions in several expressions. -/
def labelsOfAll (es : List Expr) : List Label := (nodesOfAll es).map Expr.label

/-- The labels of the expressions in keyword arguments. -/
def labelsOfKwargs (kwargs : List (String × Expr)) : List Label :=
  (nodesOfKwargs kwargs).map Expr.label

/-- The labels of the expressions in arms. -/
def labelsOfArms (arms : List (Expr × Expr)) : List Label := (nodesOfArms arms).map Expr.label

/-- The labels of an expression are its own and those of its parts. -/
theorem Expr.labels_parts (e : Expr) : e.labels = e.label :: labelsOfAll e.parts := by
  rw [Expr.labels, e.nodes_parts, List.map_cons, labelsOfAll]

/-- Another mark changes the number in the label of the expression alone. -/
theorem Expr.labels_withMark (e : Expr) (mark : Mark) :
    (e.withMark mark).labels = { e.label with id := mark.id } :: labelsOfAll e.parts := by
  rw [Expr.labels_parts]
  cases e <;> rfl

section Labels

attribute [local simp] Expr.labels labelsOfAll labelsOfKwargs labelsOfArms Expr.nodes nodesOfAll
  nodesOfKwargs nodesOfArms

variable (mark : Mark) (e func test body : Expr) (es args : List Expr)
  (kwargs : List (String × Expr)) (arms : List (Expr × Expr))

/-- The labels of several expressions are those of the first and of the others. -/
theorem labelsOfAll_cons : labelsOfAll (e :: es) = e.labels ++ labelsOfAll es := by simp

/-- The labels of keyword arguments are those of the first and of the others. -/
theorem labelsOfKwargs_cons (name : String) :
    labelsOfKwargs ((name, e) :: kwargs) = e.labels ++ labelsOfKwargs kwargs := by simp

/-- The labels of arms are those of the first and of the others. -/
theorem labelsOfArms_cons :
    labelsOfArms ((test, body) :: arms) = test.labels ++ body.labels ++ labelsOfArms arms := by simp

namespace Expr

theorem labels_call : (call mark func args kwargs).labels =
    .plain mark.id :: (func.labels ++ labelsOfAll args ++ labelsOfKwargs kwargs) := by
  simp
  rfl

theorem labels_jump_none : (jump mark func args kwargs none).labels =
    .plain mark.id :: (func.labels ++ labelsOfAll args ++ labelsOfKwargs kwargs) := by
  simp
  rfl

theorem labels_jump_some : (jump mark func args kwargs (some e)).labels =
    .plain mark.id :: (func.labels ++ labelsOfAll args ++ labelsOfKwargs kwargs ++ e.labels) := by
  simp
  rfl

theorem labels_cond_none : (cond mark arms none).labels = .plain mark.id :: labelsOfArms arms := by
  simp
  rfl

theorem labels_cond_some : (cond mark arms (some e)).labels =
    .plain mark.id :: (labelsOfArms arms ++ e.labels) := by
  simp
  rfl

theorem labels_short (op : Connective) :
    (short mark op es).labels = .plain mark.id :: labelsOfAll es := by
  simp
  rfl

theorem labels_seq : (seq mark es).labels = .plain mark.id :: labelsOfAll es := by
  simp
  rfl

theorem labels_bind (name : String) : (bind mark name e).labels = .plain mark.id :: e.labels := by
  simp
  rfl

theorem labels_assign (name : String) :
    (assign mark name e).labels = .plain mark.id :: e.labels := by
  simp
  rfl

theorem labels_loop :
    (loop mark test body).labels = .plain mark.id :: (test.labels ++ body.labels) := by
  simp
  rfl

theorem labels_capture (binders : List String) : (capture mark binders e).labels =
    ⟨mark.id, none, some binders, true⟩ :: e.labels := by
  simp
  rfl

theorem labels_fn (signature : Signature) : (fn mark signature body).labels =
    (fn mark signature body).label :: body.labels := by
  simp

end Expr

end Labels

/-! ## Accounts -/

/-- Whether a number was given out, as a count. -/
def given (count id : Nat) : Nat := if id < count then 1 else 0

/-- The second labels come of the first, with the numbers given out in between. -/
structure Redraws (before : Counters) (old : List Label) (after : Counters) (new : List Label) :
    Prop where
  later : before.functions ≤ after.functions
  /-- No number is used more often than before, and new ones are used once. -/
  numbers : ∀ id, new.countP (·.id = id) + given before.exprs id ≤
    old.countP (·.id = id) + given after.exprs id
  /-- Functions keep their numbers, and every new number is that of one function. -/
  functions : ∀ id, new.countP (·.function = some id) + given before.functions id =
    old.countP (·.function = some id) + given after.functions id
  /-- There is a new function for every capture that is gone. -/
  captures : new.countP (·.isCapture) + after.functions =
    old.countP (·.isCapture) + before.functions
  /-- It has the variables of the capture. -/
  cuts : ∀ names, new.countP (·.cut = some names) = old.countP (·.cut = some names)

namespace Redraws

variable {first second third : Counters} {old mid new more further : List Label}

theorem refl (counters : Counters) (labels : List Label) :
    Redraws counters labels counters labels :=
  ⟨le_rfl, fun _ => le_rfl, fun _ => rfl, rfl, fun _ => rfl⟩

/-- Numbers are accounted for in two steps if they are in each. -/
theorem trans (redraws : Redraws first old second mid) (redraws' : Redraws second mid third new) :
    Redraws first old third new where
  later := redraws.later.trans redraws'.later
  numbers id := by
    have := redraws.numbers id
    have := redraws'.numbers id
    omega
  functions id := by
    have := redraws.functions id
    have := redraws'.functions id
    omega
  captures := by
    have := redraws.captures
    have := redraws'.captures
    omega
  cuts names := (redraws'.cuts names).trans (redraws.cuts names)

/-- Labels side by side are accounted for, one list after the other. -/
theorem append (redraws : Redraws first old second new)
    (redraws' : Redraws second more third further) :
    Redraws first (old ++ more) third (new ++ further) where
  later := redraws.later.trans redraws'.later
  numbers id := by
    have := redraws.numbers id
    have := redraws'.numbers id
    simp only [List.countP_append]
    omega
  functions id := by
    have := redraws.functions id
    have := redraws'.functions id
    simp only [List.countP_append]
    omega
  captures := by
    have := redraws.captures
    have := redraws'.captures
    simp only [List.countP_append]
    omega
  cuts names := by
    simp only [List.countP_append, redraws.cuts names, redraws'.cuts names]

theorem cons (label : Label) (redraws : Redraws first old second new) :
    Redraws first (label :: old) second (label :: new) :=
  append (refl first [label]) redraws

theorem grow (labels : List Label) (redraws : Redraws first [] second new) :
    Redraws first labels second (labels ++ new) := by
  simpa using (refl first labels).append redraws

/-- Where there is no capture, none comes about. -/
theorem free (redraws : Redraws first old second new)
    (free : ∀ label ∈ old, label.isCapture = false) :
    ∀ label ∈ new, label.isCapture = false := by
  have none : old.countP (·.isCapture) = 0 :=
    List.countP_eq_zero.mpr fun label member => by simp [free label member]
  have same := redraws.captures
  have later := redraws.later
  have gone : new.countP (·.isCapture) = 0 := by omega
  intro label member
  simpa using List.countP_eq_zero.mp gone label member

/-- The order of the labels does not matter. -/
theorem perm {old' new' : List Label} (redraws : Redraws first old second new)
    (same : old.Perm old') (same' : new.Perm new') : Redraws first old' second new' where
  later := redraws.later
  numbers id := by
    rw [← same.countP_eq, ← same'.countP_eq]
    exact redraws.numbers id
  functions id := by
    rw [← same.countP_eq, ← same'.countP_eq]
    exact redraws.functions id
  captures := by
    rw [← same.countP_eq, ← same'.countP_eq]
    exact redraws.captures
  cuts names := by
    rw [← same.countP_eq, ← same'.countP_eq]
    exact redraws.cuts names

/-- An expression under the next number. -/
theorem drawn (counters : Counters) :
    Redraws counters [] { counters with exprs := counters.exprs + 1 } [.plain counters.exprs] where
  later := le_rfl
  numbers id := by
    simp only [List.countP_singleton, List.countP_nil, Label.plain, given, decide_eq_true_eq]
    split_ifs <;> omega
  functions id := by simp [Label.plain]
  captures := by simp [Label.plain]
  cuts names := by simp [Label.plain]

/-- An expression that moves to the next number leaves its own to another. -/
theorem moved (counters : Counters) (label : Label) :
    Redraws counters [label] { counters with exprs := counters.exprs + 1 }
      [.plain label.id, { label with id := counters.exprs }] where
  later := le_rfl
  numbers id := by
    simp only [List.countP_cons, List.countP_nil, Label.plain, given, decide_eq_true_eq]
    split_ifs <;> omega
  functions id := by simp [Label.plain, List.countP_cons]
  captures := by simp [Label.plain, List.countP_cons]
  cuts names := by simp [Label.plain, List.countP_cons]

end Redraws

/-! ## Bodies -/

/-- What the step makes comes of the labels. -/
def Draws {α : Type} (old : List Label) (step : Transform α) (new : α -> List Label) : Prop :=
  ∀ progress value later, step.run progress = .ok (value, later) ->
    Redraws progress.counters old later.counters (new value)

variable {escapes : List String} {table : DecoratorTable}

/-- Recording an event draws no numbers. -/
theorem record_draws (event : TransformEvent) : Draws [] (record event) fun _ => [] := by
  rintro progress _ _ ⟨⟩
  exact .refl _ _

/-- Forbidding captures draws no numbers. -/
theorem forbidCapture_draws (owner : Owner) (fault : CaptureFault) (e : Expr) :
    Draws [] (forbidCapture owner fault e) fun _ => [] := by
  intro progress value later ends
  unfold forbidCapture at ends
  split at ends <;> cases ends
  exact .refl _ _

/-- The variable of the continuation draws one number. -/
theorem continuationVar_draws (span : Span) : Draws [] (continuationVar span) Expr.labels := by
  rintro progress _ _ ⟨⟩
  exact .drawn progress.counters

/-- Handing `nil` over draws numbers for the call and its parts. -/
theorem handOverNil_draws (span : Span) : Draws [] (handOverNil span) Expr.labels := by
  rintro progress _ _ ⟨⟩
  have marks := ((Redraws.drawn progress.counters).append (.drawn _)).append (.drawn _)
  exact marks.perm .rfl (List.reverse_perm _).symm

/-- Relocating an expression gives it a new number and leaves its own to what replaces it. -/
theorem relocate_draws (e : Expr) :
    Draws e.labels (relocate e) fun value => .plain e.id :: value.labels := by
  rintro progress _ _ ⟨⟩
  have moved := (Redraws.moved progress.counters e.label).append (.refl _ (labelsOfAll e.parts))
  show Redraws _ _ _ (.plain e.id :: (e.withMark ⟨progress.counters.exprs, e.span⟩).labels)
  rw [e.labels_parts, Expr.labels_withMark]
  exact moved

/-- The value that is handed over moves, and the jump takes its place. -/
theorem relocate_handOver_draws (e : Expr) :
    Draws e.labels (relocate e >>= fun value => handOver e.mark value) Expr.labels := by
  intro progress value later ends
  obtain ⟨moved, middle, moves, ends⟩ := run_bind_ok ends
  obtain ⟨cc, last, ofCc, ends⟩ := run_bind_ok ends
  cases ends
  have labels := (relocate_draws e _ _ _ moves).trans (.grow _ (continuationVar_draws _ _ _ _ ofCc))
  refine labels.perm .rfl ?_
  rw [Expr.labels_jump_none, labelsOfAll_cons]
  exact .cons _ (by simpa [labelsOfAll, labelsOfKwargs, nodesOfAll, nodesOfKwargs] using
    List.perm_append_comm)

mutual

/-- Passing returns takes new numbers only. -/
theorem passTails_draws : ∀ e : Expr, Draws e.labels (passTails escapes e) Expr.labels
  | .seq mark [], progress, _, _, ends => by
    obtain ⟨jump, middle, ofJump, ends⟩ := run_bind_ok ends
    cases ends
    rw [Expr.labels_seq, Expr.labels_seq, labelsOfAll_cons]
    exact .cons _ (.append (handOverNil_draws _ _ _ _ ofJump) (.refl _ _))
  | .seq mark (e :: rest), progress, _, _, ends => by
    obtain ⟨items, middle, ofItems, ends⟩ := run_bind_ok ends
    cases ends
    rw [Expr.labels_seq, Expr.labels_seq]
    exact .cons _ (passLast_draws (e :: rest) _ _ _ ofItems)
  | .cond mark arms none, progress, _, _, ends => by
    obtain ⟨arms', middle, ofArms, ends⟩ := run_bind_ok ends
    cases ends
    rw [Expr.labels_cond_none, Expr.labels_cond_none]
    exact .cons _ (passArms_draws arms _ _ _ ofArms)
  | .cond mark arms (some e), progress, _, _, ends => by
    obtain ⟨arms', middle, ofArms, ends⟩ := run_bind_ok ends
    obtain ⟨alt, last, ofAlt, ends⟩ := run_bind_ok ends
    cases ends
    rw [Expr.labels_cond_some, Expr.labels_cond_some]
    exact .cons _ (.append (passArms_draws arms _ _ _ ofArms) (passTails_draws e _ _ _ ofAlt))
  | .short mark op [], progress, _, _, ends =>
    relocate_handOver_draws (.short mark op []) _ _ _ ends
  | .short mark op (e :: rest), progress, _, _, ends => by
    obtain ⟨operands, middle, ofOperands, ends⟩ := run_bind_ok ends
    cases ends
    rw [Expr.labels_short, Expr.labels_short]
    exact .cons _ (passLast_draws (e :: rest) _ _ _ ofOperands)
  | .call mark func args kwargs, progress, _, _, ends => by
    unfold passTails at ends
    split at ends
    · cases ends
      exact .refl _ _
    · obtain ⟨cc, middle, ofCc, ends⟩ := run_bind_ok ends
      cases ends
      rw [Expr.labels_call, Expr.labels_jump_some]
      exact .cons _ (.grow _ (continuationVar_draws _ _ _ _ ofCc))
  | .jump mark func args kwargs none, progress, _, _, ends => by
    obtain ⟨cc, middle, ofCc, ends⟩ := run_bind_ok ends
    cases ends
    rw [Expr.labels_jump_none, Expr.labels_jump_some]
    exact .cons _ (.grow _ (continuationVar_draws _ _ _ _ ofCc))
  | .jump mark func args kwargs (some cc), progress, _, _, ends => by
    cases ends
    exact .refl _ _
  | .lit mark value, _, _, _, ends => relocate_handOver_draws (.lit mark value) _ _ _ ends
  | .var mark name, _, _, _, ends => relocate_handOver_draws (.var mark name) _ _ _ ends
  | .fn mark signature body, _, _, _, ends =>
    relocate_handOver_draws (.fn mark signature body) _ _ _ ends
  | .bind mark name e, _, _, _, ends => relocate_handOver_draws (.bind mark name e) _ _ _ ends
  | .assign mark name e, _, _, _, ends => relocate_handOver_draws (.assign mark name e) _ _ _ ends
  | .loop mark test body, _, _, _, ends =>
    relocate_handOver_draws (.loop mark test body) _ _ _ ends
  | .capture mark binders e, _, _, _, ends =>
    relocate_handOver_draws (.capture mark binders e) _ _ _ ends

theorem passLast_draws : ∀ es : List Expr,
    Draws (labelsOfAll es) (passLast escapes es) labelsOfAll
  | [], progress, _, _, ends => by
    cases ends
    exact .refl _ _
  | [e], progress, _, _, ends => by
    obtain ⟨e', middle, ofE, ends⟩ := run_bind_ok ends
    cases ends
    rw [labelsOfAll_cons, labelsOfAll_cons]
    exact .append (passTails_draws e _ _ _ ofE) (.refl _ _)
  | e :: next :: rest, progress, _, _, ends => by
    obtain ⟨rest', middle, ofRest, ends⟩ := run_bind_ok ends
    cases ends
    rw [labelsOfAll_cons, labelsOfAll_cons e]
    exact .append (.refl _ _) (passLast_draws (next :: rest) _ _ _ ofRest)

theorem passArms_draws : ∀ arms : List (Expr × Expr),
    Draws (labelsOfArms arms) (passArms escapes arms) labelsOfArms
  | [], progress, _, _, ends => by
    cases ends
    exact .refl _ _
  | (test, body) :: rest, progress, _, _, ends => by
    obtain ⟨body', middle, ofBody, ends⟩ := run_bind_ok ends
    obtain ⟨rest', last, ofRest, ends⟩ := run_bind_ok ends
    cases ends
    rw [labelsOfArms_cons, labelsOfArms_cons]
    exact .append (.append (.refl _ _) (passTails_draws body _ _ _ ofBody))
      (passArms_draws rest _ _ _ ofRest)

end

mutual

/-- Deferring calls takes no numbers. -/
theorem Expr.labels_deferTails : ∀ e : Expr, (e.deferTails escapes).labels = e.labels
  | .seq mark es => by
    simp only [Expr.deferTails, Expr.labels_seq, labelsOfAll_deferLast es]
  | .cond mark arms none => by
    simp only [Expr.deferTails, Expr.labels_cond_none, labelsOfArms_deferArms arms]
  | .cond mark arms (some e) => by
    simp only [Expr.deferTails, Expr.labels_cond_some, labelsOfArms_deferArms arms,
      e.labels_deferTails]
  | .short mark op es => by
    simp only [Expr.deferTails, Expr.labels_short, labelsOfAll_deferLast es]
  | .call mark func args kwargs => by
    simp only [Expr.deferTails]
    split
    · rfl
    · rw [Expr.labels_jump_none, Expr.labels_call]
  | .lit .. | .var .. | .fn .. | .bind .. | .assign .. | .loop .. | .jump .. | .capture .. => rfl

theorem labelsOfAll_deferLast : ∀ es : List Expr,
    labelsOfAll (deferLast escapes es) = labelsOfAll es
  | [] => rfl
  | [e] => by simp only [deferLast, labelsOfAll_cons, e.labels_deferTails]
  | e :: next :: rest => by
    rw [deferLast, labelsOfAll_cons, labelsOfAll_deferLast (next :: rest), ← labelsOfAll_cons]
    exact List.cons_ne_nil next rest

theorem labelsOfArms_deferArms : ∀ arms : List (Expr × Expr),
    labelsOfArms (deferArms escapes arms) = labelsOfArms arms
  | [] => rfl
  | (test, body) :: rest => by
    simp only [deferArms, labelsOfArms_cons, body.labels_deferTails, labelsOfArms_deferArms rest]

end

/-- A capture becomes a jump with a continuation function over what follows. -/
theorem Redraws.cut (mark callMark : Nat) (binders : List String) (callee : List Label)
    {first second : Counters} {rest items : List Label}
    (redraws : Redraws { first with exprs := first.exprs + 1 } rest second items) :
    Redraws first (⟨mark, none, some binders, true⟩ :: .plain callMark :: (callee ++ rest))
      ⟨second.exprs + 2, second.functions + 1⟩
      (.plain (second.exprs + 1) :: (callee ++ ⟨second.exprs, some second.functions, some binders,
        false⟩ :: .plain first.exprs :: items)) where
  later := redraws.later.trans (Nat.le_succ _)
  numbers id := by
    have := redraws.numbers id
    simp only [List.countP_cons, List.countP_append, Label.plain, given, decide_eq_true_eq]
      at this ⊢
    split_ifs at this ⊢ <;> omega
  functions id := by
    have := redraws.functions id
    simp only [List.countP_cons, List.countP_append, Label.plain, given, decide_eq_true_eq,
      Option.some.injEq, reduceCtorEq, if_false] at this ⊢
    split_ifs at this ⊢ <;> omega
  captures := by
    have := redraws.captures
    simp only [List.countP_cons, List.countP_append, Label.plain] at this ⊢
    simp
    omega
  cuts names := by
    have := redraws.cuts names
    simp only [List.countP_cons, List.countP_append, Label.plain, decide_eq_true_eq,
      Option.some.injEq, reduceCtorEq, if_false] at this ⊢
    omega

/-- Cutting a block takes a number for each capture, besides those of the expressions that it
makes. -/
theorem cutItems_draws (owner : Owner) (regions : Regions) : ∀ (items : List Expr) (span : Span),
    Draws (labelsOfAll items) (cutItems escapes owner regions span items) labelsOfAll
  | [], span, progress, _, _, ends => by
    obtain ⟨jump, middle, ofJump, ends⟩ := run_bind_ok ends
    cases ends
    rw [labelsOfAll_cons]
    exact .append (handOverNil_draws span _ _ _ ofJump) (.refl _ [])
  | item :: rest, span, progress, cut, last, ends => by
    have after := cutItems_draws owner regions rest
    cases isCapture : item.isCapture with
    | true =>
      cases item with
      | capture mark binders captured =>
        unfold cutItems at ends
        obtain ⟨_, begun, forbids, ends⟩ := run_bind_ok ends
        have checked := forbidCapture_draws _ _ _ _ _ _ forbids
        cases captured with
        | call callMark func args kwargs =>
          obtain ⟨bodyMark, marked, ofMark, ends⟩ := run_bind_ok ends
          obtain ⟨items, middle, ofItems, ends⟩ := run_bind_ok ends
          have items' := after _ _ _ _ ofItems
          cases ends
          cases ofMark
          have cut := Redraws.cut mark.id callMark.id binders
            (func.labels ++ labelsOfAll args ++ labelsOfKwargs kwargs) items'
          refine (checked.append cut).perm ?_ ?_
          · simp only [labelsOfAll_cons, Expr.labels_capture, Expr.labels_call, List.nil_append,
              List.cons_append]
            exact .rfl
          · simp only [labelsOfAll_cons, Expr.labels_jump_some, Expr.labels_fn, Expr.labels_seq,
              List.nil_append, List.cons_append]
            simp only [labelsOfAll, nodesOfAll, List.map_nil, List.append_nil]
            exact .rfl
        | _ => cases ends
      | _ => cases isCapture
    | false =>
      cases rest with
      | nil =>
        rw [cutItems_one isCapture] at ends
        obtain ⟨_, begun, forbids, ends⟩ := run_bind_ok ends
        obtain ⟨item', middle, ofItem, ends⟩ := run_bind_ok ends
        cases ends
        rw [labelsOfAll_cons, labelsOfAll_cons]
        have checked := forbidCapture_draws _ _ _ _ _ _ forbids
        exact checked.append (.append (passTails_draws item _ _ _ ofItem) (.refl _ _))
      | cons next rest =>
        rw [cutItems_cons isCapture] at ends
        obtain ⟨_, begun, forbids, ends⟩ := run_bind_ok ends
        obtain ⟨rest', middle, ofRest, ends⟩ := run_bind_ok ends
        cases ends
        rw [labelsOfAll_cons, labelsOfAll_cons item rest']
        have checked := forbidCapture_draws _ _ _ _ _ _ forbids
        exact checked.append (.append (.refl _ _) (after span _ _ _ ofRest))

/-- Cutting a body accounts for its labels. -/
theorem cutBody_draws (owner : Owner) (regions : Regions) (body : Expr) :
    Draws body.labels (cutBody escapes owner regions body) Expr.labels := by
  intro progress value later ends
  unfold cutBody at ends
  split at ends
  · obtain ⟨items, middle, ofItems, ends⟩ := run_bind_ok ends
    cases ends
    rw [Expr.labels_seq, Expr.labels_seq]
    exact .cons _ (cutItems_draws owner regions _ _ _ _ _ ofItems)
  · obtain ⟨item, middle, moves, ends⟩ := run_bind_ok ends
    obtain ⟨items, last, ofItems, ends⟩ := run_bind_ok ends
    cases ends
    rw [Expr.labels_seq]
    have cut := cutItems_draws owner regions _ _ _ _ _ ofItems
    rw [labelsOfAll_cons, labelsOfAll, nodesOfAll, List.map_nil, List.append_nil] at cut
    exact (relocate_draws body _ _ _ moves).trans (.cons _ cut)

/-- Rewriting a body takes numbers for the expressions and functions that it makes. -/
theorem functionBody_draws (function : Function) :
    Draws function.body.labels (functionBody escapes function) (·.body.labels) := by
  intro progress value later ends
  unfold functionBody at ends
  simp only at ends
  split at ends
  · obtain ⟨_, begun, records, ends⟩ := run_bind_ok ends
    obtain ⟨body, middle, cuts, ends⟩ := run_bind_ok ends
    cases ends
    exact (record_draws _ _ _ _ records).append (cutBody_draws _ _ _ _ _ _ cuts)
  · obtain ⟨_, begun, forbids, ends⟩ := run_bind_ok ends
    have checked := forbidCapture_draws _ _ _ _ _ _ forbids
    split at ends
    · obtain ⟨_, middle, records, ends⟩ := run_bind_ok ends
      cases ends
      have recorded := record_draws _ _ _ _ records
      simp only [Expr.labels_deferTails]
      exact (checked.append recorded).append (.refl _ _)
    · cases ends
      exact checked.append (.refl _ _)

/-! ## Programs -/

/-- The step accounts for the functions of a kind: it keeps their numbers, and what it makes of a
body comes of the labels of the body. -/
def StepDraws (kind : Signature -> Prop) (step : Function -> Transform Function) : Prop :=
  ∀ mark signature body, kind signature -> Draws (Expr.fn mark signature body).labels
    (step ⟨signature, body⟩) fun other => (Expr.fn mark other.signature other.body).labels

/-- The function that an expression holds is of a kind. -/
def Expr.HoldsOnly (kind : Signature -> Prop) (e : Expr) : Prop :=
  ∀ function, e.function? = some function -> kind function.signature

section Steps

variable {kind : Signature -> Prop} {step : Function -> Transform Function}

mutual

/-- A step on functions that accounts for each does so for all in an expression. -/
theorem mapFunctions_draws (draws : StepDraws kind step) : ∀ e : Expr,
    e.All (Expr.HoldsOnly kind) -> Draws e.labels (e.mapFunctions step) Expr.labels
  | .lit .., _, _, _, _, ends | .var .., _, _, _, _, ends => by
    cases ends
    exact .refl _ _
  | .fn mark signature body, all, _, _, _, ends => by
    obtain ⟨self, inside⟩ := Expr.all_fn.mp all
    obtain ⟨body', _, ofBody, ends⟩ := run_bind_ok ends
    obtain ⟨function, _, ofFunction, ends⟩ := run_bind_ok ends
    cases ends
    have inner := mapFunctions_draws draws body inside _ _ _ ofBody
    have outer := draws mark signature body' (self _ rfl) _ _ _ ofFunction
    rw [Expr.labels_fn] at outer ⊢
    exact .trans (.cons _ inner) outer
  | .call mark func args kwargs, all, _, _, _, ends => by
    obtain ⟨-, funcs, values, named⟩ := Expr.all_call.mp all
    obtain ⟨func', _, ofFunc, ends⟩ := run_bind_ok ends
    obtain ⟨args', _, ofArgs, ends⟩ := run_bind_ok ends
    obtain ⟨kwargs', _, ofKwargs, ends⟩ := run_bind_ok ends
    cases ends
    rw [Expr.labels_call, Expr.labels_call]
    exact .cons _ (.append (.append (mapFunctions_draws draws func funcs _ _ _ ofFunc)
      (mapFunctionsOfAll_draws draws args values _ _ _ ofArgs))
      (mapFunctionsOfKwargs_draws draws kwargs named _ _ _ ofKwargs))
  | .cond mark arms none, all, _, _, _, ends => by
    obtain ⟨arms', _, ofArms, ends⟩ := run_bind_ok ends
    cases ends
    rw [Expr.labels_cond_none, Expr.labels_cond_none]
    exact .cons _ (mapFunctionsOfArms_draws draws arms (Expr.all_cond_none.mp all).2 _ _ _ ofArms)
  | .cond mark arms (some e), all, _, _, _, ends => by
    obtain ⟨-, allArms, allAlt⟩ := Expr.all_cond_some.mp all
    obtain ⟨arms', _, ofArms, ends⟩ := run_bind_ok ends
    obtain ⟨alt, _, ofAlt, ends⟩ := run_bind_ok ends
    cases ends
    rw [Expr.labels_cond_some, Expr.labels_cond_some]
    exact .cons _ (.append (mapFunctionsOfArms_draws draws arms allArms _ _ _ ofArms)
      (mapFunctions_draws draws e allAlt _ _ _ ofAlt))
  | .short mark op es, all, _, _, _, ends => by
    obtain ⟨es', _, ofOperands, ends⟩ := run_bind_ok ends
    cases ends
    rw [Expr.labels_short, Expr.labels_short]
    exact .cons _ (mapFunctionsOfAll_draws draws es (Expr.all_short.mp all).2 _ _ _ ofOperands)
  | .seq mark es, all, _, _, _, ends => by
    obtain ⟨es', _, ofItems, ends⟩ := run_bind_ok ends
    cases ends
    rw [Expr.labels_seq, Expr.labels_seq]
    exact .cons _ (mapFunctionsOfAll_draws draws es (Expr.all_seq.mp all).2 _ _ _ ofItems)
  | .bind mark name e, all, _, _, _, ends => by
    obtain ⟨e', _, ofBindee, ends⟩ := run_bind_ok ends
    cases ends
    rw [Expr.labels_bind, Expr.labels_bind]
    exact .cons _ (mapFunctions_draws draws e (Expr.all_bind.mp all).2 _ _ _ ofBindee)
  | .assign mark name e, all, _, _, _, ends => by
    obtain ⟨e', _, ofBindee, ends⟩ := run_bind_ok ends
    cases ends
    rw [Expr.labels_assign, Expr.labels_assign]
    exact .cons _ (mapFunctions_draws draws e (Expr.all_assign.mp all).2 _ _ _ ofBindee)
  | .loop mark test body, all, _, _, _, ends => by
    obtain ⟨-, allTest, allBody⟩ := Expr.all_loop.mp all
    obtain ⟨test', _, ofTest, ends⟩ := run_bind_ok ends
    obtain ⟨body', _, ofBody, ends⟩ := run_bind_ok ends
    cases ends
    rw [Expr.labels_loop, Expr.labels_loop]
    exact .cons _ (.append (mapFunctions_draws draws test allTest _ _ _ ofTest)
      (mapFunctions_draws draws body allBody _ _ _ ofBody))
  | .jump mark func args kwargs none, all, _, _, _, ends => by
    obtain ⟨-, funcs, values, named⟩ := Expr.all_jump_none.mp all
    obtain ⟨func', _, ofFunc, ends⟩ := run_bind_ok ends
    obtain ⟨args', _, ofArgs, ends⟩ := run_bind_ok ends
    obtain ⟨kwargs', _, ofKwargs, ends⟩ := run_bind_ok ends
    cases ends
    rw [Expr.labels_jump_none, Expr.labels_jump_none]
    exact .cons _ (.append (.append (mapFunctions_draws draws func funcs _ _ _ ofFunc)
      (mapFunctionsOfAll_draws draws args values _ _ _ ofArgs))
      (mapFunctionsOfKwargs_draws draws kwargs named _ _ _ ofKwargs))
  | .jump mark func args kwargs (some e), all, _, _, _, ends => by
    obtain ⟨-, funcs, values, named, allCc⟩ := Expr.all_jump_some.mp all
    obtain ⟨func', _, ofFunc, ends⟩ := run_bind_ok ends
    obtain ⟨args', _, ofArgs, ends⟩ := run_bind_ok ends
    obtain ⟨kwargs', _, ofKwargs, ends⟩ := run_bind_ok ends
    obtain ⟨cc, _, ofCc, ends⟩ := run_bind_ok ends
    cases ends
    rw [Expr.labels_jump_some, Expr.labels_jump_some]
    exact .cons _ (.append (.append (.append (mapFunctions_draws draws func funcs _ _ _ ofFunc)
      (mapFunctionsOfAll_draws draws args values _ _ _ ofArgs))
      (mapFunctionsOfKwargs_draws draws kwargs named _ _ _ ofKwargs))
      (mapFunctions_draws draws e allCc _ _ _ ofCc))
  | .capture mark binders e, all, _, _, _, ends => by
    obtain ⟨e', _, ofCall, ends⟩ := run_bind_ok ends
    cases ends
    rw [Expr.labels_capture, Expr.labels_capture]
    exact .cons _ (mapFunctions_draws draws e (Expr.all_capture.mp all).2 _ _ _ ofCall)

theorem mapFunctionsOfAll_draws (draws : StepDraws kind step) : ∀ es : List Expr,
    AllOf (Expr.HoldsOnly kind) es -> Draws (labelsOfAll es) (mapFunctionsOfAll step es) labelsOfAll
  | [], _, _, _, _, ends => by
    cases ends
    exact .refl _ _
  | e :: rest, all, _, _, _, ends => by
    obtain ⟨first, others⟩ := allOf_cons.mp all
    obtain ⟨e', _, ofFirst, ends⟩ := run_bind_ok ends
    obtain ⟨rest', _, ofRest, ends⟩ := run_bind_ok ends
    cases ends
    rw [labelsOfAll_cons, labelsOfAll_cons]
    exact .append (mapFunctions_draws draws e first _ _ _ ofFirst)
      (mapFunctionsOfAll_draws draws rest others _ _ _ ofRest)

theorem mapFunctionsOfKwargs_draws (draws : StepDraws kind step) :
    ∀ kwargs : List (String × Expr), AllOfKwargs (Expr.HoldsOnly kind) kwargs ->
      Draws (labelsOfKwargs kwargs) (mapFunctionsOfKwargs step kwargs) labelsOfKwargs
  | [], _, _, _, _, ends => by
    cases ends
    exact .refl _ _
  | (name, e) :: rest, all, _, _, _, ends => by
    obtain ⟨first, others⟩ := allOfKwargs_cons.mp all
    obtain ⟨e', _, ofFirst, ends⟩ := run_bind_ok ends
    obtain ⟨rest', _, ofRest, ends⟩ := run_bind_ok ends
    cases ends
    rw [labelsOfKwargs_cons, labelsOfKwargs_cons]
    exact .append (mapFunctions_draws draws e first _ _ _ ofFirst)
      (mapFunctionsOfKwargs_draws draws rest others _ _ _ ofRest)

theorem mapFunctionsOfArms_draws (draws : StepDraws kind step) : ∀ arms : List (Expr × Expr),
    AllOfArms (Expr.HoldsOnly kind) arms ->
      Draws (labelsOfArms arms) (mapFunctionsOfArms step arms) labelsOfArms
  | [], _, _, _, _, ends => by
    cases ends
    exact .refl _ _
  | (test, body) :: rest, all, _, _, _, ends => by
    obtain ⟨allTest, allBody, others⟩ := allOfArms_cons.mp all
    obtain ⟨test', _, ofTest, ends⟩ := run_bind_ok ends
    obtain ⟨body', _, ofBody, ends⟩ := run_bind_ok ends
    obtain ⟨rest', _, ofRest, ends⟩ := run_bind_ok ends
    cases ends
    rw [labelsOfArms_cons, labelsOfArms_cons]
    exact .append (.append (mapFunctions_draws draws test allTest _ _ _ ofTest)
      (mapFunctions_draws draws body allBody _ _ _ ofBody))
      (mapFunctionsOfArms_draws draws rest others _ _ _ ofRest)

end

/-- The labels of the expressions in toplevel forms. -/
def labelsOfTop (top : List Toplevel) : List Label := labelsOfAll (top.map Toplevel.expr)

/-- A step on functions that accounts for each does so in toplevel forms. -/
theorem mapFunctionsOfTop_draws (draws : StepDraws kind step) : ∀ top : List Toplevel,
    (∀ form ∈ top, form.expr.All (Expr.HoldsOnly kind)) ->
      Draws (labelsOfTop top) (mapFunctionsOfTop step top) labelsOfTop
  | [], _, _, _, _, ends => by
    cases ends
    exact .refl _ _
  | .define name e :: rest, all, _, _, _, ends | .exec e :: rest, all, _, _, _, ends => by
    obtain ⟨first, others⟩ := List.forall_mem_cons.mp all
    obtain ⟨e', _, ofFirst, ends⟩ := run_bind_ok ends
    obtain ⟨rest', _, ofRest, ends⟩ := run_bind_ok ends
    cases ends
    simp only [labelsOfTop, List.map_cons, labelsOfAll_cons]
    exact .append (mapFunctions_draws draws e first _ _ _ ofFirst)
      (mapFunctionsOfTop_draws draws rest others _ _ _ ofRest)

end Steps

/-- Rewriting the body of a function accounts for its labels. -/
theorem functionBody_stepDraws : StepDraws (·.kind = .plain) (functionBody escapes) := by
  intro mark signature body plain progress other later ends
  obtain ⟨params, same⟩ := (functionBody_signature ⟨signature, body⟩).of_ok ends
  have drawn := functionBody_draws ⟨signature, body⟩ _ _ _ ends
  show Redraws _ _ _ (Expr.fn mark other.signature other.body).labels
  rw [Expr.labels_fn, Expr.labels_fn, same]
  have label : (Expr.fn mark { signature with params := params } other.body).label =
      (Expr.fn mark signature body).label := by
    simp [Expr.label, Expr.cut?, Expr.functionId?, Expr.function?, Expr.isCapture, Expr.id,
      Expr.mark, plain]
  rw [label]
  exact .cons _ drawn

/-- Giving functions their wrappers keeps their labels. -/
theorem functionWrappers_stepDraws : StepDraws (fun _ => True) (functionWrappers table) := by
  intro mark signature body _ progress other later ends
  obtain ⟨wrappers, rfl⟩ := (functionWrappers_keeps ⟨signature, body⟩).of_ok ends
  have same : later.counters = progress.counters := by
    unfold functionWrappers at ends
    split at ends
    · cases ends
    · split at ends <;> cases ends <;> rfl
  rw [same]
  exact .refl _ _

/-- Checking for captures at the toplevel changes nothing. -/
theorem checkTop_still : ∀ top : List Toplevel, Still (checkTop top)
  | [] => .pure ()
  | form :: rest => by
    refine .bind (fun progress value later ends => ?_) fun _ => checkTop_still rest
    unfold forbidCapture at ends
    split at ends <;> cases ends
    rfl

/-- The numbers in a transformed program come of those in the program. -/
theorem Program.transform_redraws {program : Program} (source : program.IsSource)
    {transformed : Transformed} (succeeds : program.transform table escapes = .ok transformed) :
    Redraws program.counters (program.nodes.map Expr.label) transformed.program.counters
      (transformed.program.nodes.map Expr.label) := by
  have plain : ∀ form ∈ program.top, form.expr.All (Expr.HoldsOnly (·.kind = .plain)) := by
    intro form member node inside
    have isSource := source node (List.mem_flatMap.mpr ⟨form, member, inside⟩)
    cases node with
    | fn mark signature body =>
      rintro _ ⟨⟩
      exact isSource.1
    | _ => exact fun _ held => nomatch held
  have anyKind : ∀ top : List Toplevel, ∀ form ∈ top,
      form.expr.All (Expr.HoldsOnly fun _ => True) := fun _ _ _ _ _ _ _ => trivial
  obtain ⟨checked, middle, rewritten, log, checks, rewrites, dresses⟩ :=
    Program.transform_stages succeeds
  have started := checkTop_still _ _ _ _ checks
  have first := mapFunctionsOfTop_draws functionBody_stepDraws _ plain _ _ _ rewrites
  have second := mapFunctionsOfTop_draws functionWrappers_stepDraws _ (anyKind _) _ _ _ dresses
  rw [started] at first
  rw [Program.nodes_eq, Program.nodes_eq]
  exact first.trans second

end Trampoline
