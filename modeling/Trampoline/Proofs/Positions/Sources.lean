import Mathlib.Logic.Relation
import Trampoline.Proofs.Positions.Courses

/-!
# Where the value of a body comes from

An evaluation of a body that comes to a value ends at one place on the way to the end of the body:
at a position that is reported, at a conditional without alternative none of whose tests held, or at
an operand that decided a connective before its last operand. Nothing of the body is evaluated after
that place, and no other position is evaluated at all.
-/

namespace Trampoline

open Exec

/-- The place that the value of a body comes from. -/
inductive ValueSource where
  /-- A position where the body returns. -/
  | returned (e : Expr)
  /-- An empty block where the body falls through. -/
  | fellThrough (block : Expr)
  /-- A conditional without alternative, none of whose tests held. -/
  | unmatched (conditional : Expr)
  /-- An operand before the last that decided its connective. -/
  | decided (operand : Expr)

/-- The expression at the place. -/
def ValueSource.expr : ValueSource -> Expr
  | returned e | fellThrough e | unmatched e | decided e => e

/-- The value of the expression passes through a connective on the path. -/
def Connected (path : List Expr) (e : Expr) : Prop :=
  ∃ mark op operands, Expr.short mark op operands ∈ path ∧ e ∈ nodesOfAll operands

/-- How the value of a body, with the machine it is left on, comes from the result of the
expression at the place. -/
def ValueSource.Gives (returns : List TailPosition) (path : List Expr) (visits : List Call)
    (result ended : Value × Machine) : ValueSource -> Prop
  | returned e => .returns e ∈ returns ∧ (¬ Connected path e -> ended = result) ∧
    (Connected path e -> Relation.TransGen ForcedTo result ended)
  | fellThrough block => .fallThrough block ∈ returns ∧ ended.1 = .nil
  | unmatched conditional => ended.1 = .nil ∧ ∃ mark arms, conditional = .cond mark arms none ∧
    conditional ∈ path ∧ ∀ arm ∈ arms, arm.2 ∉ visited visits
  | decided operand => ∃ mark op before after,
    .short mark op (before ++ operand :: after) ∈ path ∧ after ≠ [] ∧
      ∃ decisive, ForcedTo result decisive ∧ (decisive.1.truthy = true ↔ op = .or) ∧
        Relation.ReflTransGen ForcedTo decisive ended

/-- The value comes from the place: the expression there was evaluated once, to an end, after which
nothing else was, and there was no evaluation of another expression that is reported as a return. -/
structure ValueSource.Explains (source : ValueSource) (returns : List TailPosition)
    (path : List Expr) (visits : List Call) (ended : Value × Machine) : Prop where
  ends : ∃ before n frame m result frame',
    visits = before ++ (Task.eval source.expr frame).visits n m ∧
      source.expr ∉ visited before ∧
      source.expr ∉ (visited ((Task.eval source.expr frame).visits n m)).tail ∧
      (Task.eval source.expr frame).run n m = some (.ok (result.1, frame'), result.2) ∧
      source.Gives returns path visits result ended
  only : ∀ e, .returns e ∈ returns -> e ∈ visited visits -> source = .returned e

namespace Connected

variable {path other : List Expr} {e first : Expr}

theorem mono (connected : Connected path e) (subset : path ⊆ other) : Connected other e := by
  obtain ⟨mark, op, operands, member, inside⟩ := connected
  exact ⟨mark, op, operands, subset member, inside⟩

/-- An expression that is no connective connects nothing. -/
theorem of_cons (noShort : ∀ mark op operands, first ≠ .short mark op operands)
    (connected : Connected (first :: path) e) : Connected path e := by
  obtain ⟨mark, op, operands, member, inside⟩ := connected
  rcases List.mem_cons.mp member with same | member
  · exact absurd same.symm (noShort mark op operands)
  · exact ⟨mark, op, operands, member, inside⟩

/-- In a body where expressions are met once, the values of the expressions in one end pass through
connectives on the way to that end. -/
theorem of_end {body last : Expr} (distinct : body.nodes.Nodup) (isEnd : last ∈ body.ends)
    (inside : e ∈ last.nodes) (connected : Connected body.tailPath e) :
    Connected (body :: last.tailPath) e := by
  obtain ⟨mark, op, operands, member, within⟩ := connected
  refine ⟨mark, op, operands, ?_, within⟩
  rw [body.tailPath_eq] at member
  rcases List.mem_cons.mp member with same | member
  · exact List.mem_cons.mpr (.inl same)
  · obtain ⟨other, isEnd', onPath⟩ := List.mem_flatMap.mp member
    have shortIn : (Expr.short mark op operands).nodes ⊆ other.nodes :=
      Expr.nodes_trans (other.tailPath_subset_nodes onPath)
    have inOther : e ∈ other.nodes := shortIn (List.mem_cons_of_mem _ within)
    cases eq_of_mem_nodes (Expr.ends_nodup distinct) isEnd isEnd' inside inOther
    exact List.mem_cons_of_mem _ onPath

end Connected

theorem Expr.mem_ends_of_arm (mark : Mark) {arms : List (Expr × Expr)} (alt : Option Expr)
    {arm : Expr × Expr} (listed : arm ∈ arms) : arm.2 ∈ (Expr.cond mark arms alt).ends :=
  List.mem_append_left _ (List.mem_map_of_mem listed)

namespace ValueSource

/-! ## Places that a value comes from -/

section Existence

variable {source : ValueSource} {e last : Expr} {returns : List TailPosition} {path : List Expr}
  {visits before : List Call} {ended result : Value × Machine}

/-- The expression that explains a value was visited. -/
theorem Explains.expr_visited (explains : source.Explains returns path visits ended) :
    source.expr ∈ visited visits := by
  obtain ⟨before, n, frame, m, result, frame', rfl, -⟩ := explains.ends
  rw [visited_append, visited_eval]
  exact List.mem_append_right _ List.mem_cons_self

/-- The path may begin with an expression that is no connective. -/
theorem Explains.under (explains : source.Explains returns path visits ended)
    (noShort : ∀ mark op operands, e ≠ .short mark op operands) :
    source.Explains returns (e :: path) visits ended := by
  refine ⟨?_, explains.only⟩
  obtain ⟨before, n, frame, m, result, frame', same, once, never, ran, gives⟩ := explains.ends
  refine ⟨before, n, frame, m, result, frame', same, once, never, ran, ?_⟩
  have subset := List.subset_cons_self e path
  cases source with
  | returned e =>
    obtain ⟨reported, plain, forced⟩ := gives
    exact ⟨reported, fun free => plain fun inner => free (inner.mono subset),
      fun outer => forced (outer.of_cons noShort)⟩
  | fellThrough block => exact gives
  | unmatched conditional =>
    obtain ⟨isNil, mark, arms, same, member, missed⟩ := gives
    exact ⟨isNil, mark, arms, same, subset member, missed⟩
  | decided operand =>
    obtain ⟨mark, op, first, rest, member, others⟩ := gives
    exact ⟨mark, op, first, rest, subset member, others⟩

/-- The value of the last operand of a connective is forced. -/
theorem Explains.forced {mark : Mark} {op : Connective} {operands : List Expr}
    (explains : source.Explains returns path visits result) (forced : ForcedTo result ended)
    (inside : visited visits ⊆ nodesOfAll operands) :
    source.Explains returns (.short mark op operands :: path) visits ended := by
  have place := inside explains.expr_visited
  refine ⟨?_, explains.only⟩
  obtain ⟨before, n, frame, m, first, frame', same, once, never, ran, gives⟩ := explains.ends
  refine ⟨before, n, frame, m, first, frame', same, once, never, ran, ?_⟩
  have subset := List.subset_cons_self (Expr.short mark op operands) path
  have connected : Connected (.short mark op operands :: path) source.expr :=
    ⟨mark, op, operands, List.mem_cons_self, place⟩
  cases source with
  | returned e =>
    obtain ⟨reported, plain, forces⟩ := gives
    refine ⟨reported, fun free => absurd connected free, fun _ => ?_⟩
    by_cases inner : Connected path e
    · exact (forces inner).tail forced
    · exact plain inner ▸ .single forced
  | fellThrough block =>
    obtain ⟨reported, isNil⟩ := gives
    exact ⟨reported, forced.nil isNil⟩
  | unmatched conditional =>
    obtain ⟨isNil, mark, arms, same, member, missed⟩ := gives
    exact ⟨forced.nil isNil, mark, arms, same, subset member, missed⟩
  | decided operand =>
    obtain ⟨mark, op, first, rest, member, more, decisive, ofOperand, decides, forces⟩ := gives
    exact ⟨mark, op, first, rest, subset member, more, decisive, ofOperand, decides,
      forces.tail forced⟩

/-- The returns of an expression that the way goes on with are not passed. -/
theorem returned_not_passed (distinct : e.nodes.Nodup)
    (goesOn : e.returns = e.ends.flatMap Expr.returns) {position : TailPosition}
    (member : position ∈ e.returns) :
    ∃ last ∈ e.ends, position ∈ last.returns ∧ position.expr ∈ last.nodes ∧
      position.expr ∉ e :: nodesOfAll e.passed := by
  rw [goesOn] at member
  obtain ⟨last, isEnd, member⟩ := List.mem_flatMap.mp member
  have inside := last.tailPath_subset_nodes (last.returns_endOn _ member).onPath
  exact ⟨last, isEnd, member, inside, Expr.ends_not_passed distinct
    (Expr.nodesOfAll_trans (mem_nodesOfAll isEnd) inside)⟩

/-- The place that the value of one end comes from explains the value of the whole, if before it
nothing was evaluated but what is passed. -/
theorem Explains.of_end (distinct : e.nodes.Nodup) (isEnd : last ∈ e.ends)
    (explains : source.Explains last.returns (e :: last.tailPath) visits ended)
    (inside : visited visits ⊆ last.nodes) (passes : visited before ⊆ e :: nodesOfAll e.passed) :
    source.Explains e.returns e.tailPath (before ++ visits) ended := by
  have goesOn := Expr.returns_of_ends (List.ne_nil_of_mem isEnd)
  have onWay : last.nodes ⊆ nodesOfAll e.ends := Expr.nodesOfAll_trans (mem_nodesOfAll isEnd)
  have fresh {x : Expr} (member : x ∈ nodesOfAll e.ends) : x ∉ visited before :=
    fun early => Expr.ends_not_passed distinct member (passes early)
  have place : source.expr ∈ last.nodes := inside explains.expr_visited
  have reports : last.returns ⊆ e.returns := by
    rw [goesOn]
    exact fun _ member => List.mem_flatMap.mpr ⟨last, isEnd, member⟩
  have longer : e :: last.tailPath ⊆ e.tailPath :=
    List.cons_subset.mpr ⟨e.self_mem_tailPath, Expr.tailPath_subset isEnd⟩
  constructor
  case ends =>
    obtain ⟨earlier, n, frame, m, result, frame', same, once, never, ran, gives⟩ :=
      explains.ends
    refine ⟨before ++ earlier, n, frame, m, result, frame', ?_, ?_, never, ran, ?_⟩
    · rw [same, List.append_assoc]
    · rw [visited_append]
      exact fun member => (List.mem_append.mp member).elim (fresh (onWay place)) once
    · cases source with
      | returned x =>
        obtain ⟨reported, plain, forced⟩ := gives
        exact ⟨reports reported, fun free => plain fun inner => free (inner.mono longer),
          fun outer => forced (outer.of_end distinct isEnd place)⟩
      | fellThrough block => exact ⟨reports gives.1, gives.2⟩
      | unmatched conditional =>
        obtain ⟨isNil, mark, arms, rfl, member, missed⟩ := gives
        refine ⟨isNil, mark, arms, rfl, longer member, fun arm listed => ?_⟩
        rw [visited_append]
        refine fun evaluated => (List.mem_append.mp evaluated).elim (fresh ?_) (missed arm listed)
        have armEnds := Expr.mem_ends_of_arm mark none listed
        rcases List.mem_cons.mp member with rfl | member
        · exact mem_nodesOfAll armEnds
        · refine onWay (Expr.nodes_trans (last.tailPath_subset_nodes member) ?_)
          exact Expr.mem_nodes_of_part (Expr.ends_subset_parts _ armEnds)
      | decided operand =>
        obtain ⟨mark, op, first, rest, member, others⟩ := gives
        exact ⟨mark, op, first, rest, longer member, others⟩
  case only =>
    intro x reported evaluated
    obtain ⟨other, isEnd', member, within, notPassed⟩ :=
      returned_not_passed distinct goesOn reported
    rw [visited_append] at evaluated
    have later := (List.mem_append.mp evaluated).resolve_left fun early => notPassed (passes early)
    cases eq_of_mem_nodes (Expr.ends_nodup distinct) isEnd isEnd' (inside later) within
    exact explains.only x member later

/-- The expression of an evaluation is the place when the way does not go on from it, and none of
what is evaluated in it returns. -/
theorem explains_self (source : ValueSource) {n : Nat} {frame frame' : Frame} {m : Machine}
    (distinct : source.expr.nodes.Nodup)
    (ran : (Task.eval source.expr frame).run n m = some (.ok (ended.1, frame'), ended.2))
    (gives : source.Gives source.expr.returns source.expr.tailPath
      ((Task.eval source.expr frame).visits n m) ended ended)
    (only : ∀ e, .returns e ∈ source.expr.returns ->
      e ∈ visited ((Task.eval source.expr frame).visits n m) -> source = .returned e) :
    source.Explains source.expr.returns source.expr.tailPath
      ((Task.eval source.expr frame).visits n m) ended :=
  ⟨⟨[], n, frame, m, ended, frame', rfl, List.not_mem_nil,
    fun again => Expr.not_mem_parts distinct (Task.visited_tail_subset again), ran, gives⟩, only⟩

section Stopped

variable {mark : Mark} {arms : List (Expr × Expr)} {n : Nat} {frame frame' : Frame} {m : Machine}

/-- An expression that returns is where its value comes from. -/
theorem explains_leaf (distinct : e.nodes.Nodup)
    (ran : (Task.eval e frame).run n m = some (.ok (ended.1, frame'), ended.2))
    (noEnds : e.ends = []) (whole : e.returns = [.returns e]) :
    (returned e).Explains e.returns e.tailPath ((Task.eval e frame).visits n m) ended := by
  refine explains_self (.returned e) distinct ran ⟨?_, fun _ => rfl, ?_⟩ ?_
  · exact whole ▸ List.mem_singleton_self _
  · rintro ⟨mark, op, operands, member, inside⟩
    rw [ValueSource.expr, e.tailPath_eq, noEnds] at member
    cases List.mem_singleton.mp member
    exact absurd inside (Expr.not_mem_parts distinct)
  · intro other member _
    rw [ValueSource.expr, whole] at member
    cases List.mem_singleton.mp member
    rfl

/-- An empty block that was evaluated explains its `nil` as a fall-through. -/
theorem explains_block (distinct : (Expr.seq mark []).nodes.Nodup)
    (ran : (Task.eval (.seq mark []) frame).run n m = some (.ok (ended.1, frame'), ended.2))
    (isNil : ended.1 = .nil) : (fellThrough (.seq mark [])).Explains (Expr.seq mark []).returns
      (Expr.seq mark []).tailPath ((Task.eval (.seq mark []) frame).visits n m) ended := by
  refine explains_self (.fellThrough _) distinct ran ⟨?_, isNil⟩ ?_ <;>
    simp [ValueSource.expr, Expr.returns]

/-- A conditional whose tests were passed and nothing else is where its value comes from. -/
theorem explains_unmatched (distinct : (Expr.cond mark arms none).nodes.Nodup)
    (ran : (Task.eval (.cond mark arms none) frame).run n m =
      some (.ok (ended.1, frame'), ended.2)) (isNil : ended.1 = .nil)
    (passes : visited ((Task.eval (.cond mark arms none) frame).visits n m) ⊆
      .cond mark arms none :: nodesOfAll (arms.map Prod.fst)) :
    (unmatched (.cond mark arms none)).Explains (Expr.cond mark arms none).returns
      (Expr.cond mark arms none).tailPath
      ((Task.eval (.cond mark arms none) frame).visits n m) ended := by
  refine explains_self (.unmatched _) distinct ran ?_ fun x reported evaluated => ?_
  · refine ⟨isNil, mark, arms, rfl, Expr.self_mem_tailPath _, fun arm listed evaluated => ?_⟩
    have isEnd := mem_nodesOfAll (Expr.mem_ends_of_arm mark none listed)
    exact Expr.ends_not_passed distinct isEnd (passes evaluated)
  · obtain ⟨_, -, -, -, notPassed⟩ :=
      returned_not_passed distinct (Expr.returns_cond mark arms none) reported
    exact absurd (passes evaluated) notPassed

end Stopped

section Connective

variable {mark : Mark} {op : Connective} {passed after : List Expr} {operand : Expr} {n : Nat}
  {frame frame' : Frame} {m : Machine}

/-- The last operand of a connective is where its value comes from. -/
theorem Explains.of_last (distinct : (Expr.short mark op (passed ++ [operand])).nodes.Nodup)
    (explains : source.Explains operand.returns operand.tailPath visits result)
    (forced : ForcedTo result ended) (inside : visited visits ⊆ operand.nodes)
    (passes : visited before ⊆ .short mark op (passed ++ [operand]) :: nodesOfAll passed) :
    source.Explains (Expr.short mark op (passed ++ [operand])).returns
      (Expr.short mark op (passed ++ [operand])).tailPath (before ++ visits) ended := by
  have isPart : operand ∈ passed ++ [operand] := List.mem_append_right _ List.mem_cons_self
  have isEnd : operand ∈ (Expr.short mark op (passed ++ [operand])).ends := by
    simp [Expr.ends]
  have passedOnly : (Expr.short mark op (passed ++ [operand])).passed = passed := by
    simp [Expr.passed]
  have within : visited visits ⊆ nodesOfAll (passed ++ [operand]) :=
    List.Subset.trans inside (Expr.nodesOfAll_trans (mem_nodesOfAll isPart))
  exact (explains.forced forced within).of_end distinct isEnd inside (passedOnly.symm ▸ passes)

/-- An operand that decides before the last is where the value of a connective comes from. -/
theorem explains_decided
    (distinct : (Expr.short mark op (passed ++ operand :: after)).nodes.Nodup) (more : after ≠ [])
    (forced : ForcedTo result ended) (decides : ended.1.truthy = true ↔ op = .or)
    (ran : (Task.eval operand frame).run n m = some (.ok (result.1, frame'), result.2))
    (passes : visited before ⊆ .short mark op (passed ++ operand :: after) :: nodesOfAll passed) :
    (decided operand).Explains (Expr.short mark op (passed ++ operand :: after)).returns
      (Expr.short mark op (passed ++ operand :: after)).tailPath
      (before ++ (Task.eval operand frame).visits n m) ended := by
  have isPart : operand ∈ passed ++ operand :: after := List.mem_append_right _ List.mem_cons_self
  have operandDistinct : operand.nodes.Nodup := Expr.part_nodup distinct isPart
  have fresh : operand ∉ visited before := by
    intro early
    rcases List.mem_cons.mp (passes early) with same | inside
    · exact ne_of_mem_of_not_mem (mem_nodesOfAll isPart) (Expr.not_mem_parts distinct) same
    · have parts : (nodesOfAll (passed ++ operand :: after)).Nodup := Expr.parts_nodup distinct
      rw [nodesOfAll_append, List.nodup_append'] at parts
      exact parts.2.2 inside (mem_nodesOfAll List.mem_cons_self)
  refine ⟨⟨before, n, frame, m, result, frame', rfl, fresh,
    fun again => Expr.not_mem_parts operandDistinct (Task.visited_tail_subset again), ran,
    mark, op, passed, after, Expr.self_mem_tailPath _, more, ended, forced, decides, .refl⟩, ?_⟩
  intro x reported evaluated
  have goesOn : (Expr.short mark op (passed ++ operand :: after)).ends ≠ [] := by
    simp [Expr.ends]
  have allPassed : (Expr.short mark op (passed ++ operand :: after)).passed =
      passed ++ operand :: after.dropLast := by
    simp [Expr.passed, List.dropLast_cons_of_ne_nil more]
  obtain ⟨-, -, -, -, notPassed⟩ :=
    returned_not_passed distinct (Expr.returns_of_ends goesOn) reported
  rw [allPassed, nodesOfAll_append, nodesOfAll] at notPassed
  rw [visited_append] at evaluated
  refine absurd ?_ notPassed
  rcases List.mem_append.mp evaluated with early | inside
  · exact List.cons_subset_cons _ (List.subset_append_left _ _) (passes early)
  · refine List.mem_cons_of_mem _ (List.mem_append_right _ (List.mem_append_left _ ?_))
    exact Task.visited_eval_subset inside

end Connective

end Existence

/-- Whenever an evaluation comes to a value there is a place that the value comes from. -/
theorem exists_explains {e : Expr} (distinct : e.nodes.Nodup) {n : Nat} {frame frame' : Frame}
    {m : Machine} {ended : Value × Machine}
    (ran : (Task.eval e frame).run n m = some (.ok (ended.1, frame'), ended.2)) :
    ∃ source : ValueSource,
      source.Explains e.returns e.tailPath ((Task.eval e frame).visits n m) ended := by
  induction e using Expr.induct_parts generalizing n frame frame' m ended with
  | whole e ih =>
    obtain ⟨inner, visits, course⟩ := Task.eval_course ran
    cases course with
    | leaf noEnds whole => exact ⟨.returned e, explains_leaf distinct ran noEnds whole⟩
    | block mark isNil => exact ⟨.fellThrough _, explains_block distinct ran isNil⟩
    | @branch _ branch noShort isEnd reaches =>
      obtain ⟨before, k, inFrame, m', outFrame, rfl, passes, evaluated⟩ := reaches
      have isPart := e.ends_subset_parts isEnd
      obtain ⟨source, explains⟩ := ih branch isPart (Expr.part_nodup distinct isPart) evaluated
      refine ⟨source, ?_⟩
      rw [visits, ← List.cons_append]
      exact (explains.under noShort).of_end distinct isEnd Task.visited_eval_subset
        (List.cons_subset_cons e passes)
    | unmatched mark isNil passes =>
      refine ⟨.unmatched _, explains_unmatched distinct ran isNil ?_⟩
      rw [visits]
      exact List.cons_subset_cons _ passes
    | @operand mark op passed after operand result forced decides reaches =>
      obtain ⟨before, k, inFrame, m', outFrame, rfl, passes, evaluated⟩ := reaches
      rw [visits, ← List.cons_append]
      by_cases more : after = []
      · subst more
        have isPart : operand ∈ passed ++ [operand] := List.mem_append_right _ List.mem_cons_self
        obtain ⟨source, explains⟩ := ih operand isPart (Expr.part_nodup distinct isPart) evaluated
        exact ⟨source, explains.of_last distinct forced Task.visited_eval_subset
          (List.cons_subset_cons _ passes)⟩
      · exact ⟨.decided operand, explains_decided distinct more forced (decides more) evaluated
          (List.cons_subset_cons _ passes)⟩

end ValueSource

/-! ## One place -/

/-- The expressions that the value of a body may come from: those on the way to its end, and the
operands that may decide a connective there. -/
def Expr.IsPlace (body e : Expr) : Prop :=
  e ∈ body.tailPath ∨
    ∃ mark op operands, .short mark op operands ∈ body.tailPath ∧ e ∈ operands.dropLast

theorem mem_dropLast {α : Type} {item : α} {before after : List α} (more : after ≠ []) :
    item ∈ (before ++ item :: after).dropLast := by
  simp [List.dropLast_cons_of_ne_nil more]

/-- Of two places in one list, one is the other or comes after it. -/
theorem eq_or_mem_of_append {α : Type} {x y : α} {before before' after after' : List α}
    (same : before ++ x :: after = before' ++ y :: after') : x = y ∨ y ∈ after ∨ x ∈ after' := by
  rcases List.append_eq_append_iff.mp same with ⟨more, rfl, rest⟩ | ⟨more, rfl, rest⟩
  · cases more with
    | nil => exact .inl (List.cons.inj rest).1
    | cons =>
      obtain ⟨rfl, rfl⟩ := List.cons.inj rest
      exact .inr (.inl (List.mem_append_right _ List.mem_cons_self))
  · cases more with
    | nil => exact .inl (List.cons.inj rest).1.symm
    | cons =>
      obtain ⟨rfl, rfl⟩ := List.cons.inj rest
      exact .inr (.inr (List.mem_append_right _ List.mem_cons_self))

section Unique

variable {body e other : Expr} (distinct : body.nodes.Nodup)
include distinct

/-- What is inside of a part that is passed is no place. -/
theorem Expr.not_isPlace_of_aside (listed : other ∈ body.asides)
    (inside : e ∈ nodesOfAll other.parts) : ¬ body.IsPlace e := by
  have within : e ∈ other.nodes := by
    rw [other.nodes_parts]
    exact List.mem_cons_of_mem _ inside
  rintro (onPath | ⟨mark, op, operands, onPath, passes⟩)
  · exact Expr.path_fresh distinct onPath (Expr.nodesOfAll_trans (mem_nodesOfAll listed) within)
  · exact Expr.asides_apart distinct (Expr.passed_subset_asides onPath passes) listed inside

/-- What is inside of a test is no place. -/
theorem Expr.not_isPlace_of_test {mark : Mark} {arms : List (Expr × Expr)} {alt : Option Expr}
    (onPath : .cond mark arms alt ∈ body.tailPath) (inside : e ∈ nodesOfAll (arms.map Prod.fst)) :
    ¬ body.IsPlace e := by
  rw [nodesOfAll_eq_flatMap] at inside
  obtain ⟨test, isTest, inside⟩ := List.mem_flatMap.mp inside
  have aside : test ∈ body.asides := Expr.passed_subset_asides onPath isTest
  rw [test.nodes_parts] at inside
  rcases List.mem_cons.mp inside with rfl | inside
  · rintro (place | ⟨_, _, operands, place, passes⟩)
    · exact Expr.path_fresh distinct place (mem_nodesOfAll aside)
    · exact nomatch Expr.passed_once distinct onPath place isTest passes
  · exact Expr.not_isPlace_of_aside distinct aside inside

namespace ValueSource

variable {source source' : ValueSource} {visits : List Call} {ended : Value × Machine}

omit distinct in
/-- What explains a value stands at a place of the body. -/
theorem Explains.isPlace (explains : source.Explains body.returns body.tailPath visits ended) :
    body.IsPlace source.expr := by
  obtain ⟨before, n, frame, m, result, frame', -, -, -, -, gives⟩ := explains.ends
  cases source with
  | returned e => exact .inl (body.returns_endOn _ gives.1).onPath
  | fellThrough block => exact .inl (body.returns_endOn _ gives.1).onPath
  | unmatched conditional =>
    obtain ⟨-, -, -, -, onPath, -⟩ := gives
    exact .inl onPath
  | decided operand =>
    obtain ⟨mark, op, before, after, onPath, more, -⟩ := gives
    exact .inr ⟨mark, op, _, onPath, mem_dropLast more⟩

/-- Where a body does not return, no place is evaluated after the place of its value. -/
theorem Explains.no_later_place (explains : source.Explains body.returns body.tailPath visits ended)
    (noReturn : ∀ e, source ≠ .returned e) : ∃ earlier later,
      visited visits = earlier ++ source.expr :: later ∧ ∀ e ∈ later, ¬ body.IsPlace e := by
  obtain ⟨before, n, frame, m, result, frame', rfl, -, -, ran, gives⟩ := explains.ends
  refine ⟨visited before, _, by rw [visited_append, visited_eval], fun e member => ?_⟩
  cases source with
  | returned e => exact absurd rfl (noReturn e)
  | fellThrough block =>
    obtain ⟨mark, rfl⟩ := (body.returns_endOn _ gives.1).empty rfl
    exact absurd (Task.visited_tail_subset member) List.not_mem_nil
  | unmatched conditional =>
    obtain ⟨-, mark, arms, rfl, onPath, missed⟩ := gives
    obtain ⟨inner, same, course⟩ := Task.eval_course (e := .cond mark arms none) ran
    rw [ValueSource.expr, same] at member missed
    cases course with
    | leaf noEnds whole => simp [Expr.returns_cond, noEnds] at whole
    | branch noShort isEnd reaches =>
      simp only [Expr.ends, Option.toList_none, List.append_nil] at isEnd
      obtain ⟨arm, listed, rfl⟩ := List.mem_map.mp isEnd
      refine absurd ?_ (missed arm listed)
      rw [visited_append]
      exact List.mem_append_right _ (List.mem_cons_of_mem _ reaches.mem_visited)
    | unmatched mark isNil passes =>
      exact Expr.not_isPlace_of_test distinct onPath (passes member)
  | decided operand =>
    obtain ⟨mark, op, first, rest, onPath, more, -⟩ := gives
    have aside := Expr.passed_subset_asides onPath (mem_dropLast more)
    exact Expr.not_isPlace_of_aside distinct aside (Task.visited_tail_subset member)

/-- What stands at a place that is no return: on the way an empty block or a conditional, off it an
operand. -/
def Stands (path : List Expr) : ValueSource -> Prop
  | returned _ => False
  | fellThrough block => block ∈ path ∧ ∃ mark, block = .seq mark []
  | unmatched conditional => conditional ∈ path ∧ ∃ mark arms, conditional = .cond mark arms none
  | decided operand => operand ∉ path

/-- What explains a value and is no return stands as what it is. -/
theorem Explains.stands (explains : source.Explains body.returns body.tailPath visits ended)
    (noReturn : ∀ e, source ≠ .returned e) : source.Stands body.tailPath := by
  obtain ⟨before, n, frame, m, result, frame', -, -, -, -, gives⟩ := explains.ends
  cases source with
  | returned e => exact noReturn e rfl
  | fellThrough block =>
    have endsOn := body.returns_endOn _ gives.1
    exact ⟨endsOn.onPath, endsOn.empty rfl⟩
  | unmatched conditional =>
    obtain ⟨-, mark, arms, same, onPath, -⟩ := gives
    exact ⟨onPath, mark, arms, same⟩
  | decided operand =>
    obtain ⟨mark, op, first, rest, onPath, more, -⟩ := gives
    have aside := Expr.passed_subset_asides onPath (mem_dropLast more)
    exact fun onPath' => Expr.path_fresh distinct onPath' (mem_nodesOfAll aside)

omit distinct in
/-- At one expression only one thing other than a return can stand. -/
theorem Stands.eq_of_expr {path : List Expr} (stands : source.Stands path)
    (stands' : source'.Stands path) (same : source.expr = source'.expr) : source = source' := by
  cases source with
  | returned e => exact stands.elim
  | fellThrough block =>
    obtain ⟨onPath, mark, rfl⟩ := stands
    cases source' with
    | returned e => exact stands'.elim
    | fellThrough block' => exact congrArg _ same
    | unmatched conditional =>
      obtain ⟨-, mark', arms, rfl⟩ := stands'
      cases same
    | decided operand =>
      cases same
      exact absurd onPath stands'
  | unmatched conditional =>
    obtain ⟨onPath, mark, arms, rfl⟩ := stands
    cases source' with
    | returned e => exact stands'.elim
    | fellThrough block =>
      obtain ⟨-, mark', rfl⟩ := stands'
      cases same
    | unmatched conditional' => exact congrArg _ same
    | decided operand =>
      cases same
      exact absurd onPath stands'
  | decided operand =>
    cases source' with
    | returned e => exact stands'.elim
    | fellThrough block =>
      cases same
      exact absurd stands'.1 stands
    | unmatched conditional =>
      cases same
      exact absurd stands'.1 stands
    | decided operand' => exact congrArg _ same

/-- A value comes from one place. -/
theorem Explains.unique (explains : source.Explains body.returns body.tailPath visits ended)
    (explains' : source'.Explains body.returns body.tailPath visits ended) : source = source' := by
  by_cases returns : ∃ e, source = .returned e
  · obtain ⟨e, rfl⟩ := returns
    obtain ⟨-, -, -, -, -, -, -, -, -, -, reported, -⟩ := explains.ends
    exact (explains'.only e reported explains.expr_visited).symm
  by_cases returns' : ∃ e, source' = .returned e
  · obtain ⟨e, rfl⟩ := returns'
    obtain ⟨-, -, -, -, -, -, -, -, -, -, reported, -⟩ := explains'.ends
    exact explains.only e reported explains'.expr_visited
  have noReturn := not_exists.mp returns
  have noReturn' := not_exists.mp returns'
  obtain ⟨earlier, later, evaluated, none⟩ := explains.no_later_place distinct noReturn
  obtain ⟨earlier', later', evaluated', none'⟩ := explains'.no_later_place distinct noReturn'
  rcases eq_or_mem_of_append (evaluated.symm.trans evaluated') with same | inside | inside
  · exact (explains.stands distinct noReturn).eq_of_expr (explains'.stands distinct noReturn') same
  · exact absurd explains'.isPlace (none _ inside)
  · exact absurd explains.isPlace (none' _ inside)

end ValueSource

end Unique

end Trampoline
