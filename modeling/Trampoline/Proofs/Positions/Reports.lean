import Trampoline.Proofs.Positions.Paths
import Trampoline.Proofs.Syntax.Order
import Trampoline.Tail.Position

/-!
# What is reported of a body

The positions where a body returns are on the way to its end, one after another in the text, and
there is one if conditionals have arms. The positions where it escapes are the arguments of its
calls to escape names. No expression is both.
-/

namespace Trampoline

/-! ## Returns -/

/-- Where a body ends: at an expression on the way to its end, which is an empty block if the body
falls through there. -/
structure TailPosition.EndsOn (path : List Expr) (position : TailPosition) : Prop where
  onPath : position.expr ∈ path
  noEscape : position.isEscape = false
  empty : position.isFallThrough = true -> ∃ mark, position.expr = .seq mark []

variable {position : TailPosition} {spans others : List Span}
  {positions first second : List TailPosition} {body e : Expr}

theorem TailPosition.EndsOn.mono {path more : List Expr}
    (endsOn : position.EndsOn path) (subset : path ⊆ more) : position.EndsOn more :=
  ⟨subset endsOn.onPath, endsOn.noEscape, endsOn.empty⟩

/-- What returns in several items are the returns of the last. -/
theorem returnsOfLast_eq (es : List Expr) :
    returnsOfLast es = es.getLast?.toList.flatMap Expr.returns := by
  induction es with
  | nil => rfl
  | cons e rest ih => cases rest <;> simp_all [returnsOfLast, List.getLast?_cons_cons]

/-- What returns in arms are the returns of their bodies. -/
theorem returnsOfArms_eq (arms : List (Expr × Expr)) :
    returnsOfArms arms = (arms.map Prod.snd).flatMap Expr.returns := by
  induction arms with
  | nil => rfl
  | cons first rest ih => rw [returnsOfArms, ih, List.map_cons, List.flatMap_cons]

namespace Expr

theorem returns_cond (mark : Mark) (arms : List (Expr × Expr)) (alt : Option Expr) :
    (Expr.cond mark arms alt).returns = (Expr.cond mark arms alt).ends.flatMap returns := by
  cases alt <;> simp [returns, ends, returnsOfArms_eq]

variable {e : Expr}

/-- An expression returns where those do that the way goes on with. -/
theorem returns_of_ends (goesOn : e.ends ≠ []) : e.returns = e.ends.flatMap returns := by
  cases e with
  | seq mark items =>
    rw [returns, returnsOfLast_eq, ends]
    rintro rfl
    exact goesOn rfl
  | short mark op operands =>
    rw [returns, returnsOfLast_eq, ends]
    rintro rfl
    exact goesOn rfl
  | cond mark arms alt => exact returns_cond mark arms alt
  | _ => exact absurd rfl goesOn

/-- A conditional has an arm. -/
def HasArm : Expr -> Prop
  | .cond _ arms _ => arms ≠ []
  | _ => True

/-- What is reported of an expression that the way ends with. -/
def stop : Expr -> TailPosition
  | .seq mark [] => .fallThrough (.seq mark [])
  | e => .returns e

@[simp] theorem stop_expr (e : Expr) : e.stop.expr = e := by
  unfold stop
  split <;> rfl

/-- An expression on a path is reported as ending there. -/
theorem stop_endsOn {path : List Expr} (onPath : e ∈ path) : e.stop.EndsOn path := by
  unfold stop
  split
  · exact ⟨onPath, rfl, fun _ => ⟨_, rfl⟩⟩
  · exact ⟨onPath, rfl, nofun⟩

/-- Of an expression that the way ends with, this is all that is reported. A conditional without
arms would report nothing. -/
theorem returns_of_noEnds (noEnds : e.ends = []) :
    e.returns = [e.stop] ∨ e.returns = [] ∧ ¬ e.HasArm := by
  cases e with
  | seq mark items =>
    cases items with
    | nil => exact .inl (by rw [returns, stop])
    | cons => simp [ends] at noEnds
  | short mark op operands =>
    cases operands with
    | nil =>
      refine .inl ?_
      rw [returns, stop]
      intro _ impossible
      cases impossible
    | cons => simp [ends] at noEnds
  | cond mark arms alt =>
    obtain ⟨noArms, -⟩ := List.append_eq_nil_iff.mp noEnds
    refine .inr ⟨?_, fun arm => arm (List.map_eq_nil_iff.mp noArms)⟩
    rw [returns_cond, noEnds, List.flatMap_nil]
  | _ => exact .inl rfl

theorem returns_of_arm (arm : e.HasArm) (noEnds : e.ends = []) : e.returns = [e.stop] :=
  (returns_of_noEnds noEnds).resolve_right fun none => none.2 arm

theorem tailPath_subset {last : Expr} (member : last ∈ e.ends) : last.tailPath ⊆ e.tailPath := by
  rw [e.tailPath_eq]
  exact List.subset_cons_of_subset _ fun _ inside => List.mem_flatMap.mpr ⟨last, member, inside⟩

/-- All returns of a body end on the way to its end. -/
theorem returns_endOn (e : Expr) : ∀ position ∈ e.returns, position.EndsOn e.tailPath := by
  induction e using Expr.induct_parts with
  | whole e ih =>
    intro position member
    by_cases noEnds : e.ends = []
    · rcases returns_of_noEnds noEnds with single | ⟨none, -⟩
      · rw [single] at member
        exact List.mem_singleton.mp member ▸ stop_endsOn e.self_mem_tailPath
      · rw [none] at member
        cases member
    · rw [returns_of_ends noEnds] at member
      obtain ⟨last, isEnd, member⟩ := List.mem_flatMap.mp member
      exact (ih last (e.ends_subset_parts isEnd) position member).mono (tailPath_subset isEnd)

end Expr

/-! ## The order of returns -/

/-- The positions stand one after another in the text. -/
def PositionsInOrder (positions : List TailPosition) : Prop :=
  InOrder (positions.map (·.expr.span))

/-- Each of the positions stands in one of the spans. -/
def PositionsWithin (spans : List Span) (positions : List TailPosition) : Prop :=
  ∀ position ∈ positions, ∃ span ∈ spans, position.expr.span.Within span

theorem PositionsWithin.mono {more : List Span}
    (within : PositionsWithin spans positions) (subset : spans ⊆ more) :
    PositionsWithin more positions :=
  fun position member => (within position member).imp fun _ ⟨listed, inside⟩ =>
    ⟨subset listed, inside⟩

/-- Positions in spans that lie inside another are in that one. -/
theorem PositionsWithin.around {outer : Span}
    (within : PositionsWithin spans positions) (around : ∀ span ∈ spans, span.Within outer) :
    PositionsWithin [outer] positions := by
  intro position member
  obtain ⟨span, listed, inside⟩ := within position member
  exact ⟨outer, List.mem_singleton_self _, inside.trans (around span listed)⟩

theorem PositionsWithin.append (within : PositionsWithin spans first)
    (within' : PositionsWithin others second) :
    PositionsWithin (spans ++ others) (first ++ second) :=
  List.forall_mem_append.mpr ⟨within.mono (List.subset_append_left _ _),
    within'.mono (List.subset_append_right _ _)⟩

/-- Positions in spans that stand one after another are in order if those in each span are. -/
theorem PositionsInOrder.append (order : InOrder (spans ++ others))
    (inFirst : PositionsInOrder first) (inSecond : PositionsInOrder second)
    (within : PositionsWithin spans first) (within' : PositionsWithin others second) :
    PositionsInOrder (first ++ second) := by
  rw [PositionsInOrder, List.map_append]
  refine List.pairwise_append.mpr ⟨inFirst, inSecond, ?_⟩
  intro span member span' member'
  obtain ⟨position, listed, rfl⟩ := List.mem_map.mp member
  obtain ⟨position', listed', rfl⟩ := List.mem_map.mp member'
  obtain ⟨outer, inside, stands⟩ := within position listed
  obtain ⟨outer', inside', stands'⟩ := within' position' listed'
  have before := (List.pairwise_append.mp order).2.2 outer inside outer' inside'
  exact Nat.le_trans stands.2 (Nat.le_trans before stands'.1)

/-- The parts of each expression stand inside of it, and its branches one after another. -/
structure Expr.Placed (e : Expr) : Prop where
  around : ∀ part ∈ e.parts, part.span.Within e.span
  branches : e.BranchesInOrder

/-- A position on its own. -/
theorem inOrder_single (position : TailPosition) :
    PositionsInOrder [position] ∧ PositionsWithin [position.expr.span] [position] :=
  ⟨List.pairwise_singleton _ _, List.forall_mem_singleton.mpr
    ⟨_, List.mem_singleton_self _, .refl _⟩⟩

/-- The returns of expressions that stand one after another. -/
theorem flatMap_returns_inOrder {es : List Expr} (order : InOrder (es.map Expr.span))
    (each : ∀ e ∈ es, PositionsInOrder e.returns ∧ PositionsWithin [e.span] e.returns) :
    PositionsInOrder (es.flatMap Expr.returns) ∧
      PositionsWithin (es.map Expr.span) (es.flatMap Expr.returns) := by
  induction es with
  | nil => exact ⟨.nil, nofun⟩
  | cons e rest ih =>
    obtain ⟨⟨first, within⟩, others⟩ := List.forall_mem_cons.mp each
    obtain ⟨last, within'⟩ := ih (List.pairwise_cons.mp order).2 others
    exact ⟨first.append order last within within', within.append within'⟩

namespace Expr

variable {e last : Expr}

/-- The branches of an expression that is placed stand one after another. -/
theorem ends_inOrder (placed : e.Placed) : InOrder (e.ends.map span) := by
  have single (last : Option Expr) : InOrder (last.toList.map span) := by
    cases last with
    | none => exact .nil
    | some e => exact List.pairwise_singleton _ _
  cases e with
  | cond mark arms alt =>
    simpa [ends, BranchesInOrder, branches, Function.comp_def] using placed.branches
  | seq mark items => exact single _
  | short mark op operands => exact single _
  | _ => exact .nil

/-- The returns of a body stand inside of it, one after another. -/
theorem returns_inOrder (placed : e.All Placed) :
    PositionsInOrder e.returns ∧ PositionsWithin [e.span] e.returns := by
  induction e using Expr.induct_parts with
  | whole e ih =>
    by_cases noEnds : e.ends = []
    · rcases returns_of_noEnds noEnds with single | ⟨none, -⟩
      · rw [single]
        simpa using inOrder_single e.stop
      · rw [none]
        exact ⟨.nil, nofun⟩
    · have inside : ∀ last ∈ e.ends, last.span.Within e.span := fun last isEnd =>
        placed.self.around last (e.ends_subset_parts isEnd)
      obtain ⟨order, within⟩ := flatMap_returns_inOrder (ends_inOrder placed.self) fun last isEnd =>
        ih last (e.ends_subset_parts isEnd) (placed.part (e.ends_subset_parts isEnd))
      rw [returns_of_ends noEnds]
      exact ⟨order, within.around (List.forall_mem_map.mpr inside)⟩

/-! ## That there are returns -/

/-- Exactly the expressions that the way ends with are reported, each as what it is. -/
theorem mem_returns (arms : e.All HasArm) {position : TailPosition} :
    position ∈ e.returns ↔ ∃ last ∈ e.tailPath, last.ends = [] ∧ position = last.stop := by
  induction e using Expr.induct_parts with
  | whole e ih =>
    by_cases noEnds : e.ends = []
    · simp [returns_of_arm arms.self noEnds, e.tailPath_eq, noEnds]
    · have inside : ∀ end' ∈ e.ends, position ∈ end'.returns ↔
          ∃ last ∈ end'.tailPath, last.ends = [] ∧ position = last.stop := fun end' isEnd =>
        ih end' (e.ends_subset_parts isEnd) (arms.part (e.ends_subset_parts isEnd))
      rw [returns_of_ends noEnds, e.tailPath_eq]
      simp only [List.mem_flatMap, List.mem_cons, exists_eq_or_imp, noEnds, false_and, false_or]
      constructor
      · rintro ⟨end', isEnd, member⟩
        obtain ⟨last, onPath, stops⟩ := (inside end' isEnd).mp member
        exact ⟨last, ⟨end', isEnd, onPath⟩, stops⟩
      · rintro ⟨last, ⟨end', isEnd, onPath⟩, stops⟩
        exact ⟨end', isEnd, (inside end' isEnd).mpr ⟨last, onPath, stops⟩⟩

/-- A body in which every conditional has an arm returns somewhere. -/
theorem returns_ne_nil (arms : e.All HasArm) : e.returns ≠ [] := by
  induction e using Expr.induct_parts with
  | whole e ih =>
    by_cases noEnds : e.ends = []
    · rw [returns_of_arm arms.self noEnds]
      exact List.cons_ne_nil _ _
    · obtain ⟨last, isEnd⟩ := List.exists_mem_of_ne_nil _ noEnds
      have isPart := e.ends_subset_parts isEnd
      rw [returns_of_ends noEnds]
      intro none
      exact ih last isPart (arms.part isPart) (List.flatMap_eq_nil_iff.mp none last isEnd)

theorem returns_eq_stop : .returns e = last.stop ↔ e = last ∧ ∀ mark, e ≠ .seq mark [] := by
  unfold stop
  split <;> simp_all

theorem fallThrough_eq_stop : .fallThrough e = last.stop ↔ e = last ∧ ∃ mark, e = .seq mark [] := by
  unfold stop
  split <;> simp_all

end Expr

/-! ## Escapes -/

/-- The expressions of a body: itself and those evaluated as part of one of them. Those of the
functions in it are expressions of other bodies. -/
inductive Expr.Has (body : Expr) : Expr -> Prop
  | body : Has body body
  | child {e part : Expr} (has : Has body e) (member : part ∈ e.children) : Has body part

/-- What a part has, the whole has. -/
theorem Expr.Has.under {part : Expr} (member : part ∈ body.children) (has : part.Has e) :
    body.Has e := by
  induction has with
  | body => exact .child .body member
  | child _ inner ih => exact .child ih inner

/-- Every expression of a body is a node of it. -/
theorem Expr.Has.mem_nodes (has : body.Has e) : e ∈ body.nodes := by
  induction has with
  | body => exact body.self_mem_nodes
  | child _ member ih =>
    refine Expr.nodes_trans ih (List.mem_of_mem_tail (Expr.parts_subset _ _ ?_))
    exact Expr.children_subset_parts _ member

/-- The arguments that an expression itself hands to an escape. -/
def Expr.handed (escapes : List String) : Expr -> List Expr
  | .call _ func args _ => if func.isNameIn escapes then args else []
  | _ => []

/-- The arguments of several expressions are those of each. -/
theorem escapeArgsOfAll_eq (escapes : List String) (es : List Expr) :
    escapeArgsOfAll escapes es = es.flatMap (Expr.escapeArgs escapes) := by
  induction es with
  | nil => rfl
  | cons e rest ih => rw [escapeArgsOfAll, ih, List.flatMap_cons]

/-- The arguments of keyword arguments are those of their values. -/
theorem escapeArgsOfKwargs_eq (escapes : List String) (kwargs : List (String × Expr)) :
    escapeArgsOfKwargs escapes kwargs =
      (kwargs.map Prod.snd).flatMap (Expr.escapeArgs escapes) := by
  induction kwargs with
  | nil => rfl
  | cons first rest ih => rw [escapeArgsOfKwargs, ih, List.map_cons, List.flatMap_cons]

/-- The arguments of arms are those of their tests and bodies. -/
theorem escapeArgsOfArms_eq (escapes : List String) (arms : List (Expr × Expr)) :
    escapeArgsOfArms escapes arms =
      (arms.flatMap fun (test, body) => [test, body]).flatMap (Expr.escapeArgs escapes) := by
  induction arms with
  | nil => rfl
  | cons first rest ih => simp [escapeArgsOfArms, ih]

/-- The arguments handed to escapes by an expression are those that it hands over itself and those
that its parts do. -/
theorem Expr.escapeArgs_eq (escapes : List String) (e : Expr) : e.escapeArgs escapes =
    (e.handed escapes).map .escapes ++ e.children.flatMap (Expr.escapeArgs escapes) := by
  cases e with
  | call mark func args kwargs =>
    by_cases escape : func.isNameIn escapes = true <;>
      simp [escapeArgs, handed, children, escape, escapeArgsOfAll_eq, escapeArgsOfKwargs_eq]
  | cond mark arms alt => cases alt <;> simp [escapeArgs, handed, children, escapeArgsOfArms_eq]
  | jump mark func args kwargs cc =>
    cases cc <;> simp [escapeArgs, handed, children, escapeArgsOfAll_eq, escapeArgsOfKwargs_eq]
  | _ => simp [escapeArgs, handed, children, escapeArgsOfAll_eq]

/-- What an expression of a body hands over, the body hands over. -/
theorem Expr.Has.escapeArgs_subset (escapes : List String) (has : body.Has e) :
    e.escapeArgs escapes ⊆ body.escapeArgs escapes := by
  induction has with
  | body => exact List.Subset.refl _
  | @child e part _ member ih =>
    intro position inside
    refine ih ?_
    rw [e.escapeArgs_eq]
    exact List.mem_append_right _ (List.mem_flatMap.mpr ⟨part, member, inside⟩)

/-- Exactly what an expression of the body hands to an escape is reported so. -/
theorem Expr.mem_escapeArgs {escapes : List String} : position ∈ body.escapeArgs escapes ↔
      ∃ e, body.Has e ∧ ∃ arg ∈ e.handed escapes, position = .escapes arg := by
  constructor
  · intro member
    induction body using Expr.induct_parts with
    | whole body ih =>
      rw [body.escapeArgs_eq] at member
      rcases List.mem_append.mp member with own | inside
      · obtain ⟨arg, handed, same⟩ := List.mem_map.mp own
        exact ⟨body, .body, arg, handed, same.symm⟩
      · obtain ⟨child, listed, inside⟩ := List.mem_flatMap.mp inside
        obtain ⟨e, has, hands⟩ := ih child (body.children_subset_parts listed) inside
        exact ⟨e, .under listed has, hands⟩
  · rintro ⟨e, has, arg, handed, rfl⟩
    refine has.escapeArgs_subset escapes ?_
    rw [e.escapeArgs_eq]
    exact List.mem_append_left _ (List.mem_map_of_mem handed)

/-! ## Positions -/

section Positions

variable {escapes : List String} {body e : Expr}

theorem mem_tailPositions_returns :
    .returns e ∈ tailPositions escapes body ↔ .returns e ∈ body.returns := by
  simp [tailPositions, Expr.mem_escapeArgs]

theorem mem_tailPositions_fallThrough :
    .fallThrough e ∈ tailPositions escapes body ↔ .fallThrough e ∈ body.returns := by
  simp [tailPositions, Expr.mem_escapeArgs]

/-- The body returns at the expressions that the way to its end ends with, but for empty blocks. -/
theorem returns_mem_iff (arms : body.All Expr.HasArm) : .returns e ∈ tailPositions escapes body ↔
    e ∈ body.tailPath ∧ e.ends = [] ∧ ∀ mark, e ≠ .seq mark [] := by
  rw [mem_tailPositions_returns, Expr.mem_returns arms]
  simp only [Expr.returns_eq_stop]
  constructor
  · rintro ⟨_, onPath, noEnds, rfl, noBlock⟩
    exact ⟨onPath, noEnds, noBlock⟩
  · rintro ⟨onPath, noEnds, noBlock⟩
    exact ⟨e, onPath, noEnds, rfl, noBlock⟩

/-- The body falls through at the empty blocks on the way to its end. -/
theorem fallThrough_mem_iff (arms : body.All Expr.HasArm) :
    .fallThrough e ∈ tailPositions escapes body ↔
      e ∈ body.tailPath ∧ ∃ mark, e = .seq mark [] := by
  rw [mem_tailPositions_fallThrough, Expr.mem_returns arms]
  simp only [Expr.fallThrough_eq_stop]
  constructor
  · rintro ⟨_, onPath, -, rfl, isBlock⟩
    exact ⟨onPath, isBlock⟩
  · rintro ⟨onPath, mark, rfl⟩
    exact ⟨_, onPath, rfl, rfl, mark, rfl⟩

/-- The positions that are no escapes are those where the body returns or falls through. -/
theorem filter_tailPositions (escapes : List String) (body : Expr) :
    (tailPositions escapes body).filter (!·.isEscape) = body.returns := by
  have returns : body.returns.filter (!·.isEscape) = body.returns :=
    List.filter_eq_self.mpr fun position member => by
      rw [(body.returns_endOn position member).noEscape, Bool.not_false]
  have escapes : (body.escapeArgs escapes).filter (!·.isEscape) = [] :=
    List.filter_eq_nil_iff.mpr fun position member => by
      obtain ⟨e, -, arg, -, rfl⟩ := Expr.mem_escapeArgs.mp member
      exact Bool.false_ne_true
  rw [tailPositions, List.filter_append, returns, escapes, List.append_nil]

/-- The arguments of the calls to escape names in the body are reported as escapes, and nothing
else. -/
theorem mem_tailPositions_escapes : .escapes e ∈ tailPositions escapes body ↔
    ∃ mark func args kwargs, body.Has (.call mark func args kwargs) ∧
      func.isNameIn escapes = true ∧ e ∈ args := by
  constructor
  · intro member
    rcases List.mem_append.mp member with returns | inside
    · exact absurd (body.returns_endOn _ returns).noEscape nofun
    · obtain ⟨caller, has, arg, handed, same⟩ := Expr.mem_escapeArgs.mp inside
      cases same
      cases caller with
      | call mark func args kwargs =>
        by_cases escape : func.isNameIn escapes = true
        · rw [Expr.handed, if_pos escape] at handed
          exact ⟨mark, func, args, kwargs, has, escape, handed⟩
        · rw [Expr.handed, if_neg escape] at handed
          cases handed
      | _ => cases handed
  · rintro ⟨mark, func, args, kwargs, has, escape, member⟩
    refine List.mem_append_right _ (Expr.mem_escapeArgs.mpr ⟨_, has, e, ?_, rfl⟩)
    rw [Expr.handed, if_pos escape]
    exact member

/-- What is handed to an escape is not on the way to the end of the body. -/
theorem escapes_off_path
    (member : .escapes e ∈ tailPositions escapes body) : e ∈ nodesOfAll body.asides := by
  obtain ⟨mark, func, args, kwargs, has, -, listed⟩ := mem_tailPositions_escapes.mp member
  have isPart : e ∈ (Expr.call mark func args kwargs).parts := by
    simp [Expr.parts, Expr.children, listed]
  rcases List.mem_append.mp (body.nodes_perm_path.mem_iff.mp has.mem_nodes) with onPath | aside
  · exact mem_nodesOfAll (Expr.passed_subset_asides onPath isPart)
  · exact Expr.nodesOfAll_trans aside (List.mem_of_mem_tail (Expr.parts_subset _ _ isPart))

/-- No expression is reported both as a return and as an escape. -/
theorem returns_ne_escapes (distinct : (body.nodes.map Expr.id).Nodup) {other : Expr}
    (returned : .returns e ∈ tailPositions escapes body)
    (escaped : .escapes other ∈ tailPositions escapes body) : e.id ≠ other.id := by
  have nodes {node : Expr} := body.nodes_perm_path.mem_iff (a := node)
  have onPath := (body.returns_endOn _ (mem_tailPositions_returns.mp returned)).onPath
  have aside := escapes_off_path escaped
  intro same
  have equal : e = other := List.inj_on_of_nodup_map distinct
    (nodes.mpr (List.mem_append_left _ onPath)) (nodes.mpr (List.mem_append_right _ aside)) same
  exact Expr.path_fresh (List.Nodup.of_map _ distinct) onPath (equal ▸ aside)

end Positions

end Trampoline
