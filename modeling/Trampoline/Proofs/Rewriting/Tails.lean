import Trampoline.Proofs.Rewriting.Steps
import Trampoline.Proofs.Simulation.Relation
import Trampoline.Proofs.Syntax.Nodes

/-!
# Rewritten returns

What deferring tail calls and passing returns to a continuation make of an expression that was
related to its source before.
-/

namespace Trampoline

open Transform

variable {mode : Rewriting} {fallible : Prop}

/-! ## Deferred calls -/

mutual

/-- Deferring the calls at the ends of a related expression defers them as described. -/
theorem ExprRel.defer (escapes : List String) :
    ∀ {e e' : Expr}, ExprRel mode e e' -> TailRel mode .deferring e (e'.deferTails escapes)
  | _, .call _ func' _ _, .call funcs values named => by
    by_cases escape : func'.isNameIn escapes = true
    · simp only [Expr.deferTails, if_pos escape]
      exact .keep (mode.mayReturn_of_ne Treatment.noConfusion) (.call funcs values named)
    · simp only [Expr.deferTails, if_neg escape]
      exact .defer funcs values named
  | _, _, .condNone same =>
    .condNone (mode.mayReturn_of_ne Treatment.noConfusion) (same.defer escapes)
  | _, _, .condSome same other => .condSome (same.defer escapes) (other.defer escapes)
  | .short _ _ [], _, .short .nil =>
    .keep (mode.mayReturn_of_ne Treatment.noConfusion) (.short .nil)
  | .short _ _ (_ :: _), _, .short same =>
    .short (.inl (mode.mayReturn_of_ne Treatment.noConfusion))
      (same.deferLast escapes (List.cons_ne_nil _ _))
  | .seq _ [], _, .seq .nil => .keep (mode.mayReturn_of_ne Treatment.noConfusion) (.seq .nil)
  | .seq _ (_ :: _), _, .seq same => .seq (same.deferLast escapes (List.cons_ne_nil _ _))
  | _, _, .lit => .keep (mode.mayReturn_of_ne Treatment.noConfusion) .lit
  | _, _, .var seen => .keep (mode.mayReturn_of_ne Treatment.noConfusion) (.var seen)
  | _, _, .fn same bodies => .keep (mode.mayReturn_of_ne Treatment.noConfusion) (.fn same bodies)
  | _, _, .bind seen same => .keep (mode.mayReturn_of_ne Treatment.noConfusion) (.bind seen same)
  | _, _, .assign seen same =>
    .keep (mode.mayReturn_of_ne Treatment.noConfusion) (.assign seen same)
  | _, _, .loop tests bodies =>
    .keep (mode.mayReturn_of_ne Treatment.noConfusion) (.loop tests bodies)

theorem ExprsRel.deferLast (escapes : List String) :
    ∀ {es es' : List Expr}, ExprsRel mode es es' -> es ≠ [] ->
      LastRel mode .deferring es (Trampoline.deferLast escapes es')
  | _, _, .nil, more => absurd rfl more
  | _, _, .cons first .nil, _ => .one (first.defer escapes)
  | _, _, .cons first (.cons second rest), _ =>
    .cons first (ExprsRel.deferLast escapes (.cons second rest) (List.cons_ne_nil _ _))

theorem ArmsRel.defer (escapes : List String) :
    ∀ {arms arms' : List (Expr × Expr)}, ArmsRel mode arms arms' ->
      TailArmsRel mode .deferring arms (deferArms escapes arms')
  | _, _, .nil => .nil
  | _, _, .cons tests bodies rest => .cons tests (bodies.defer escapes) (rest.defer escapes)

end

/-! ## Passed returns -/

variable {e e' : Expr}

/-- The mark of an expression says nothing about what is related to it. -/
theorem ExprRel.withMark (related : ExprRel mode e e') (mark : Mark) :
    ExprRel mode e (e'.withMark mark) := by
  cases related with
  | lit => exact .lit
  | var seen => exact .var seen
  | fn same bodies => exact .fn same bodies
  | call funcs values named => exact .call funcs values named
  | condNone same => exact .condNone same
  | condSome same other => exact .condSome same other
  | short same => exact .short same
  | seq same => exact .seq same
  | bind seen same => exact .bind seen same
  | assign seen same => exact .assign seen same
  | loop tests bodies => exact .loop tests bodies

/-- Handing a related value over is passing it to the continuation. -/
theorem handOver_produces (related : ExprRel mode e e') (mark : Mark) :
    Produces fallible (handOver mark e') (TailRel mode .passing e) := by
  refine .bind (continuationVar_produces mark.span) ?_
  rintro _ ⟨ccMark, rfl⟩
  exact .pure (.handOver related)

theorem relocate_produces (related : ExprRel mode e e') :
    Produces fallible (relocate e') (ExprRel mode e) :=
  .bind (newMark_produces _) fun mark _ => .pure (related.withMark mark)

/-- What is no way to further ends is handed over. -/
theorem relocate_handOver (related : ExprRel mode e e') :
    Produces fallible (relocate e' >>= fun value => handOver e'.mark value)
      (TailRel mode .passing e) :=
  .bind (relocate_produces related) fun _ related => handOver_produces related e'.mark

/-- An expression on the way to the end of a function that takes a continuation: one that hands
over every value, if all are to be. -/
def Rewriting.HandsOver (mode : Rewriting) (escapes : List String) (e : Expr) : Prop :=
  mode.total = true ->
    e.hasAlternative = true ∧ e.runsThrough = true ∧ e.isCallTo escapes = false

/-- A function that may stop on the way to its end may return there. -/
theorem Rewriting.HandsOver.mayReturn {escapes : List String}
    (handsOver : mode.HandsOver escapes e) (stops : e.hasAlternative = false ∨
      e.runsThrough = false ∨ e.isCallTo escapes = true) : mode.MayReturn .passing := by
  intro _
  refine Bool.eq_false_iff.mpr fun total => ?_
  obtain ⟨alternative, through, noCall⟩ := handsOver total
  simp [alternative, through, noCall] at stops

theorem ExprRel.isNameIn_eq (related : ExprRel mode e e') (names : List String) :
    e'.isNameIn names = e.isNameIn names := by
  cases related <;> rfl

/-- The direct expression is the same name. -/
theorem Expr.isNameIn_direct (e : Expr) (names : List String) :
    e.direct.isNameIn names = e.isNameIn names := by
  cases e with
  | capture mark binders e =>
    unfold Expr.direct
    split <;> first | rfl | simp_all
  | cond mark arms alt => cases alt <;> rfl
  | jump mark func args kwargs cc => cases cc <;> rfl
  | _ => rfl

/-- There are as many direct expressions as expressions. -/
theorem directAll_length (es : List Expr) : (directAll es).length = es.length := by
  induction es with
  | nil => rfl
  | cons e rest ih => simp only [directAll, List.length_cons, ih]

mutual

/-- Handing over the values at the ends relates the body to the direct one. -/
theorem passTails_produces (escapes : List String) : ∀ (e : Expr) {e' : Expr},
    ExprRel mode e.direct e' -> (∀ node ∈ e.tailPath, mode.HandsOver escapes node) ->
      Produces fallible (passTails escapes e') (TailRel mode .passing e.direct)
  | .seq mark [], _, related, _ => by
    cases related with
    | seq same =>
      cases same
      simp only [passTails]
      refine .bind (handOverNil_produces _) ?_
      rintro _ ⟨jumpMark, ccMark, litMark, rfl⟩
      exact .pure .handOverNil
  | .seq mark (e :: rest), _, related, handsOver => by
    cases related with
    | seq same =>
      have last := passLast_produces escapes (e :: rest) same (List.cons_ne_nil _ _)
        fun node member => handsOver node (List.mem_cons_of_mem _ member)
      cases same with
      | cons first others =>
        simp only [passTails]
        exact .bind last fun es same => .pure (.seq same)
  | .cond mark arms none, _, related, handsOver => by
    cases related with
    | condNone same =>
      have may := (handsOver _ List.mem_cons_self).mayReturn (.inl rfl)
      simp only [passTails]
      exact .bind (passArms_produces escapes arms same fun node member =>
        handsOver node (List.mem_cons_of_mem _ (List.mem_append_left _ member)))
        fun arms same => .pure (.condNone may same)
  | .cond mark arms (some alt), _, related, handsOver => by
    cases related with
    | condSome same other =>
      simp only [passTails]
      refine .bind (passArms_produces escapes arms same fun node member =>
        handsOver node (List.mem_cons_of_mem _ (List.mem_append_left _ member))) fun arms same => ?_
      exact .bind (passTails_produces escapes alt other fun node member =>
        handsOver node (List.mem_cons_of_mem _ (List.mem_append_right _ member)))
        fun alt other => .pure (.condSome same other)
  | .short mark op [], _, related, _ => by
    cases related with
    | short same =>
      cases same
      simp only [passTails]
      exact relocate_handOver (.short .nil)
  | .short mark op (e :: rest), _, related, handsOver => by
    cases related with
    | short same =>
      have last := passLast_produces escapes (e :: rest) same (List.cons_ne_nil _ _)
        fun node member => handsOver node (List.mem_cons_of_mem _ member)
      have may : mode.MayReturn .passing ∨ (directAll (e :: rest)).length = 1 := by
        rw [directAll_length]
        cases rest with
        | nil => exact .inr rfl
        | cons second others =>
          exact .inl ((handsOver _ List.mem_cons_self).mayReturn
            (.inr (.inl (by simp [Expr.runsThrough]))))
      cases same with
      | cons first others =>
        simp only [passTails]
        exact .bind last fun es same => .pure (.short may same)
  | .call mark func args kwargs, .call mark' func' args' kwargs', related, handsOver => by
    cases related with
    | call funcs values named =>
      have sameName : func'.isNameIn escapes = func.isNameIn escapes :=
        (funcs.isNameIn_eq escapes).trans (func.isNameIn_direct escapes)
      by_cases escape : func.isNameIn escapes = true
      · simp only [passTails, sameName, if_pos escape]
        have may := (handsOver _ List.mem_cons_self).mayReturn (.inr (.inr escape))
        exact .pure (.keep may (.call funcs values named))
      · simp only [passTails, sameName, if_neg escape]
        refine .bind (continuationVar_produces _) ?_
        rintro _ ⟨ccMark, rfl⟩
        exact .pure (.pass funcs values named)
  | .lit mark value, _, related, _ => by
    cases related
    exact relocate_handOver .lit
  | .var mark name, _, related, _ => by
    cases related with
    | var seen => exact relocate_handOver (.var seen)
  | .fn mark signature body, _, related, _ => by
    cases related with
    | fn same bodies => exact relocate_handOver (.fn same bodies)
  | .bind mark name e, _, related, _ => by
    cases related with
    | bind seen same => exact relocate_handOver (.bind seen same)
  | .assign mark name e, _, related, _ => by
    cases related with
    | assign seen same => exact relocate_handOver (.assign seen same)
  | .loop mark test body, _, related, _ => by
    cases related with
    | loop tests bodies => exact relocate_handOver (.loop tests bodies)
  | .jump mark func args kwargs none, _, related, _ => by
    cases related
  | .jump mark func args kwargs (some cc), _, related, _ => by
    cases related
  | .capture mark [name] e, _, related, _ => by
    cases related with
    | bind seen same => exact relocate_handOver (.bind seen same)
  | .capture mark [] e, _, related, _ => by
    cases related
  | .capture mark (first :: second :: rest) e, _, related, _ => by
    cases related

theorem passLast_produces (escapes : List String) : ∀ (es : List Expr) {es' : List Expr},
    ExprsRel mode (directAll es) es' -> es ≠ [] ->
      (∀ node ∈ tailPathOfLast es, mode.HandsOver escapes node) ->
      Produces fallible (passLast escapes es') (LastRel mode .passing (directAll es))
  | [], _, _, more, _ => absurd rfl more
  | [e], _, related, _, handsOver => by
    cases related with
    | cons first others =>
      cases others
      simp only [passLast]
      exact .bind (passTails_produces escapes e first handsOver) fun e same => .pure (.one same)
  | e :: second :: rest, _, related, _, handsOver => by
    cases related with
    | cons first others =>
      have last :=
        passLast_produces escapes (second :: rest) others (List.cons_ne_nil _ _) handsOver
      cases others with
      | cons next others =>
        simp only [passLast]
        exact .bind last fun es same => .pure (.cons first same)

theorem passArms_produces (escapes : List String) :
    ∀ (arms : List (Expr × Expr)) {arms' : List (Expr × Expr)},
      ArmsRel mode (directArms arms) arms' ->
      (∀ node ∈ tailPathOfArms arms, mode.HandsOver escapes node) ->
      Produces fallible (passArms escapes arms') (TailArmsRel mode .passing (directArms arms))
  | [], _, related, _ => by
    cases related
    simp only [passArms]
    exact .pure .nil
  | (test, body) :: rest, _, related, handsOver => by
    cases related with
    | cons tests bodies others =>
      simp only [passArms]
      refine .bind (passTails_produces escapes body bodies fun node member =>
        handsOver node (List.mem_append_left _ member)) fun body bodies => ?_
      exact .bind (passArms_produces escapes rest others fun node member =>
        handsOver node (List.mem_append_right _ member)) fun arms same =>
          .pure (.cons tests bodies same)

end

end Trampoline
