import Trampoline.Proofs.Positions.Sources

/-!
# The tail positions of parsed functions

In the body of a function that is read from a text, expressions have numbers of their own and
conditionals have arms. So its tail positions are those that its values come from: every evaluation
of the body that comes to a value does so at one of them, unless it ends at a conditional without
alternative or an operand decides a connective.
-/

namespace Trampoline

/-- A node of an expression without repeated nodes has none either. -/
theorem Expr.nodup_of_mem_nodes {e node : Expr} (distinct : e.nodes.Nodup)
    (member : node ∈ e.nodes) : node.nodes.Nodup := by
  induction e using Expr.induct_parts with
  | whole e ih =>
    rw [e.nodes_parts] at member
    rcases List.mem_cons.mp member with rfl | inside
    · exact distinct
    · rw [nodesOfAll_eq_flatMap] at inside
      obtain ⟨part, isPart, inside⟩ := List.mem_flatMap.mp inside
      exact ih part isPart (Expr.part_nodup distinct isPart) inside

namespace ValueSource

variable {source : ValueSource} {returns returns' : List TailPosition} {path : List Expr}
  {visits : List Call} {ended : Value × Machine}

/-- Where a value comes from depends on what is reported as returns and falls through only. -/
theorem Explains.congr (explains : source.Explains returns path visits ended)
    (returned : ∀ e, .returns e ∈ returns' ↔ .returns e ∈ returns)
    (fellThrough : ∀ e, .fallThrough e ∈ returns' ↔ .fallThrough e ∈ returns) :
    source.Explains returns' path visits ended := by
  refine ⟨?_, fun e reported => explains.only e ((returned e).mp reported)⟩
  obtain ⟨before, n, frame, m, result, frame', same, once, never, ran, gives⟩ := explains.ends
  refine ⟨before, n, frame, m, result, frame', same, once, never, ran, ?_⟩
  cases source with
  | returned e => exact ⟨(returned e).mpr gives.1, gives.2⟩
  | fellThrough block => exact ⟨(fellThrough block).mpr gives.1, gives.2⟩
  | unmatched | decided => exact gives

/-- In a body where expressions are met once, each value comes from one place. -/
theorem existsUnique_explains {escapes : List String} {body : Expr} (distinct : body.nodes.Nodup)
    {n : Nat} {frame frame' : Frame} {m : Machine}
    (ran : (Task.eval body frame).run n m = some (.ok (ended.1, frame'), ended.2)) :
    ∃! source : ValueSource, source.Explains (tailPositions escapes body) body.tailPath
      ((Task.eval body frame).visits n m) ended := by
  obtain ⟨source, explains⟩ := exists_explains distinct ran
  refine ⟨source, explains.congr (fun _ => mem_tailPositions_returns)
    fun _ => mem_tailPositions_fallThrough, fun other explains' => ?_⟩
  refine Explains.unique distinct (explains'.congr ?_ ?_) explains
  · exact fun _ => mem_tailPositions_returns.symm
  · exact fun _ => mem_tailPositions_fallThrough.symm

end ValueSource

namespace Program

section Parsed

variable {text : String} {path : Option String} {program : Program} {function : Function}
  (parsed : Program.parse text path = .ok program)
include parsed

theorem parse_placed : ∀ node ∈ program.nodes, node.Placed := fun node member =>
  ⟨((parse_filed parsed).enclose node member).around, parse_branches parsed node member⟩

/-- In a parsed program every conditional has an arm. -/
theorem parse_hasArm : ∀ node ∈ program.nodes, node.HasArm := by
  intro node member
  obtain ⟨form, inTop, inside⟩ := List.mem_flatMap.mp member
  obtain ⟨regions, -, all⟩ := ((parse_reads parsed).2 form inTop).source
  have legible := (all node inside).legible
  cases node with
  | cond mark arms alt => exact legible.1
  | _ => trivial

/-- The expressions in the body of a parsed function have numbers of their own. -/
theorem parse_body_distinct (member : function ∈ program.functions) :
    (function.body.nodes.map Expr.id).Nodup := by
  obtain ⟨mark, inProgram⟩ := mem_functions.mp member
  have ids := (parse_filed parsed).ids.nodup_iff.mpr List.nodup_range
  have inBody : ∀ node ∈ function.body.nodes, node ∈ program.nodes :=
    all_body (fun _ member => member) inProgram
  obtain ⟨form, inTop, inside⟩ := List.mem_flatMap.mp inProgram
  have ofForm : form.expr.nodes.Nodup :=
    (List.nodup_flatMap.mp (List.Nodup.of_map _ ids)).1 form inTop
  have isPart : function.body ∈ (Expr.fn mark function.signature function.body).parts :=
    List.mem_singleton_self _
  refine List.Nodup.map_on (fun node member other member' => ?_)
    (Expr.part_nodup (Expr.nodup_of_mem_nodes ofForm inside) isPart)
  exact List.inj_on_of_nodup_map ids (inBody node member) (inBody other member')

/-- The tail positions of a parsed function are those that its values come from. Every evaluation of
its body that comes to a value explains it by one place. What is reported are the expressions that
the way to the end ends with, and there is one. No return is an escape, returns are reported in
their order in the text, and escapes are the arguments of the calls to escape names in the body. -/
theorem tailPositions_explain (member : function ∈ program.functions) (escapes : List String) :
    (∀ (n : Nat) (frame frame' : Frame) (m : Machine) (ended : Value × Machine),
      (Task.eval function.body frame).run n m = some (.ok (ended.1, frame'), ended.2) ->
        ∃! source : ValueSource, source.Explains (tailPositions escapes function.body)
          function.body.tailPath ((Task.eval function.body frame).visits n m) ended) ∧
    (∀ e, .returns e ∈ tailPositions escapes function.body ↔
      e ∈ function.body.tailPath ∧ e.ends = [] ∧ ∀ mark, e ≠ .seq mark []) ∧
    (∀ e, .fallThrough e ∈ tailPositions escapes function.body ↔
      e ∈ function.body.tailPath ∧ ∃ mark, e = .seq mark []) ∧
    tailPositions escapes function.body ≠ [] ∧
    (∀ e other, .returns e ∈ tailPositions escapes function.body ->
      .escapes other ∈ tailPositions escapes function.body -> e.id ≠ other.id) ∧
    PositionsInOrder ((tailPositions escapes function.body).filter (!·.isEscape)) ∧
    ∀ e, .escapes e ∈ tailPositions escapes function.body ↔
      ∃ mark func args kwargs, function.body.Has (.call mark func args kwargs) ∧
        func.isNameIn escapes = true ∧ e ∈ args := by
  obtain ⟨mark, inProgram⟩ := mem_functions.mp member
  have distinct := parse_body_distinct parsed member
  have arms : function.body.All Expr.HasArm := all_body (parse_hasArm parsed) inProgram
  have placed : function.body.All Expr.Placed := all_body (parse_placed parsed) inProgram
  refine ⟨fun n frame frame' m ended ran => ?_, fun e => returns_mem_iff arms,
    fun e => fallThrough_mem_iff arms, ?_, ?_, ?_, fun e => mem_tailPositions_escapes⟩
  · exact ValueSource.existsUnique_explains (List.Nodup.of_map _ distinct) ran
  · exact List.append_ne_nil_of_left_ne_nil (Expr.returns_ne_nil arms) _
  · exact fun e other => returns_ne_escapes distinct
  · rw [filter_tailPositions]
    exact (Expr.returns_inOrder placed).1

end Parsed

end Program

/-- A function whose value is that of a conditional in a connective. -/
def guardedChoice : String := "(defn choose (x) (and x (if x 2)))"

/-- A strict scope of an argument. -/
def Frame.supplied : Frame := ⟨[("x", 0)], false, none⟩

/-- A machine on which the argument is true. -/
def Machine.supplied : Machine := { Machine.start false with cells := #[.bool true] }

/-- A guarded choice is an instance: its value has exactly one source. -/
theorem guardedChoice_explained : ∃ function ∈ (Program.ofText guardedChoice).functions,
    ∃ (ended : Value × Machine) (frame' : Frame),
      (Task.eval function.body .supplied).run 10 .supplied =
        some (.ok (ended.1, frame'), ended.2) ∧
      ∃! source : ValueSource, source.Explains (tailPositions ["ec"] function.body)
        function.body.tailPath ((Task.eval function.body .supplied).visits 10 .supplied) ended := by
  have ⟨reads, ends⟩ : (Program.parse guardedChoice none).toOption.isSome = true ∧
      (Program.ofText guardedChoice).functions.any (fun function =>
        ((Task.eval function.body .supplied).run 10 .supplied).any
          (·.1.toOption.isSome)) = true := by
    rw [Program.ofText, guardedChoice, Program.parse_ofList]
    decide +kernel
  obtain ⟨function, member, ends⟩ := List.any_eq_true.mp ends
  obtain ⟨⟨result, last⟩, ran, succeeds⟩ := (Option.any_eq_true _ _).mp ends
  cases result with
  | error error => cases succeeds
  | ok answer =>
    have explain := Program.tailPositions_explain (Program.parse_ofText reads) member ["ec"]
    exact ⟨function, member, (answer.1, last), answer.2, ran, explain.1 10 _ _ _ _ ran⟩

end Trampoline
