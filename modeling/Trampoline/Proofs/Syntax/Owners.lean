import Mathlib.Data.List.Sort
import Trampoline.Proofs.Spelling.Programs
import Trampoline.Proofs.Syntax.Forest

/-!
# The owners of expressions and functions

An expression is owned by the slot that it stands in: a toplevel form, the body of a function, or a
place in another expression. A function is owned by the expression that holds it. In a forest every
expression and every function has one owner.
-/

namespace Trampoline

/-! ## Induction over parts -/

/-- What holds of every expression that it holds of the parts of, holds of all expressions. -/
theorem Expr.induct_parts {motive : Expr -> Prop}
    (whole : ∀ e, (∀ part ∈ e.parts, motive part) -> motive e) (e : Expr) : motive e := by
  induction size : e.nodes.length using Nat.strongRecOn generalizing e with
  | ind size ih =>
    subst size
    refine whole e fun part member => ih part.nodes.length ?_ part rfl
    obtain ⟨before, after, split⟩ := List.append_of_mem member
    rw [e.nodes_parts, split, nodesOfAll_append, nodesOfAll]
    simp only [List.length_cons, List.length_append]
    omega

/-! ## Slots -/

/-- The expressions in slots: those of toplevel forms, and the parts of all expressions. -/
def Program.slots (program : Program) : List Expr :=
  program.top.map Toplevel.expr ++ program.nodes.flatMap Expr.parts

/-- The nodes of expressions are these and the parts of all nodes. -/
theorem nodesOfAll_perm_slots {es : List Expr}
    (each : ∀ e ∈ es, e.nodes.Perm (e :: e.nodes.flatMap Expr.parts)) :
    (nodesOfAll es).Perm (es ++ (nodesOfAll es).flatMap Expr.parts) := by
  induction es with
  | nil => exact .nil
  | cons e rest ih =>
    obtain ⟨first, others⟩ := List.forall_mem_cons.mp each
    rw [nodesOfAll, List.flatMap_append, List.cons_append]
    refine (first.append (ih others)).trans (.cons e ?_)
    exact List.perm_append_comm_assoc _ _ _

/-- Every expression in an expression is itself or a part of one of them. -/
theorem Expr.nodes_perm_slots (e : Expr) : e.nodes.Perm (e :: e.nodes.flatMap Expr.parts) := by
  induction e using Expr.induct_parts with
  | whole e ih =>
    have inside := nodesOfAll_perm_slots ih
    rw [e.nodes_parts, List.flatMap_cons]
    exact .cons e inside

/-- The expressions of a program are those in its slots. -/
theorem Program.nodes_perm_slots (program : Program) : program.nodes.Perm program.slots := by
  rw [slots, program.nodes_eq]
  exact nodesOfAll_perm_slots fun e _ => e.nodes_perm_slots

/-! ## Functions -/

/-- The function that an expression holds. -/
def Expr.function? : Expr -> Option Function
  | .fn _ signature body => some ⟨signature, body⟩
  | _ => none

/-- The number of the function that an expression holds. -/
def Expr.functionId? (e : Expr) : Option Nat := e.function?.map (·.signature.id)

theorem functionsOfAll_append (first second : List Expr) :
    functionsOfAll (first ++ second) = functionsOfAll first ++ functionsOfAll second := by
  simp only [functionsOfAll_eq_flatMap, List.flatMap_append]

/-- The functions of keyword arguments are those of their values. -/
theorem functionsOfKwargs_eq (kwargs : List (String × Expr)) :
    functionsOfKwargs kwargs = functionsOfAll (kwargs.map Prod.snd) := by
  induction kwargs with
  | nil => rfl
  | cons first rest ih => rw [functionsOfKwargs, ih, List.map_cons, functionsOfAll]

/-- The functions of arms are those of their tests and bodies. -/
theorem functionsOfArms_eq (arms : List (Expr × Expr)) :
    functionsOfArms arms = functionsOfAll (arms.flatMap fun (test, body) => [test, body]) := by
  induction arms with
  | nil => rfl
  | cons first rest ih =>
    obtain ⟨test, body⟩ := first
    simp [functionsOfArms, ih, functionsOfAll]

/-- The functions in an expression are those in its parts, and the one that it holds. -/
theorem Expr.functions_parts (e : Expr) :
    e.functions = functionsOfAll e.parts ++ e.function?.toList := by
  cases e with
  | cond _ arms alt =>
    cases alt <;>
      simp [functions, parts, children, function?, functionsOfAll_append, functionsOfArms_eq,
        functionsOfAll]
  | jump _ func args kwargs cc =>
    cases cc <;>
      simp [functions, parts, children, function?, functionsOfAll_append, functionsOfKwargs_eq,
        functionsOfAll]
  | _ =>
    simp [functions, parts, children, function?, functionsOfAll_append, functionsOfKwargs_eq,
      functionsOfAll]

/-- The functions of expressions are those that nodes hold, in some order. -/
theorem functionsOfAll_perm {es : List Expr}
    (each : ∀ e ∈ es, e.functions.Perm (e.nodes.filterMap Expr.function?)) :
    (functionsOfAll es).Perm ((nodesOfAll es).filterMap Expr.function?) := by
  induction es with
  | nil => exact .nil
  | cons e rest ih =>
    obtain ⟨first, others⟩ := List.forall_mem_cons.mp each
    rw [functionsOfAll, nodesOfAll, List.filterMap_append]
    exact first.append (ih others)

/-- The functions of an expression are those that its nodes hold, in some order. -/
theorem Expr.functions_perm (e : Expr) :
    e.functions.Perm (e.nodes.filterMap Expr.function?) := by
  induction e using Expr.induct_parts with
  | whole e ih =>
    have inside := functionsOfAll_perm ih
    rw [e.functions_parts, e.nodes_parts, List.filterMap_cons]
    cases e.function? with
    | none => simpa using inside
    | some function => exact (List.perm_append_singleton _ _).trans (inside.cons function)

namespace Program

/-- Inserting a function by its number adds it, in some place. -/
theorem insertById_perm (function : Function) (functions : List Function) :
    (insertById function functions).Perm (function :: functions) := by
  induction functions with
  | nil => exact .refl _
  | cons first rest ih =>
    unfold insertById
    by_cases before : function.signature.id < first.signature.id
    · rw [if_pos before]
    · rw [if_neg before]
      exact (ih.cons first).trans (.swap function first rest)

/-- Functions in the order of their numbers. -/
abbrev Ordered (functions : List Function) : Prop :=
  functions.Pairwise fun first second => first.signature.id ≤ second.signature.id

/-- Inserting a function by its number keeps the order. -/
theorem Ordered.insertById {functions : List Function} (ordered : Ordered functions)
    (function : Function) : Ordered (insertById function functions) := by
  induction functions with
  | nil => exact List.pairwise_singleton _ _
  | cons first rest ih =>
    obtain ⟨least, others⟩ := List.pairwise_cons.mp ordered
    unfold Program.insertById
    by_cases before : function.signature.id < first.signature.id
    · rw [if_pos before]
      refine List.pairwise_cons.mpr ⟨List.forall_mem_cons.mpr ⟨before.le, ?_⟩, ordered⟩
      exact fun other member => before.le.trans (least other member)
    · rw [if_neg before]
      refine List.pairwise_cons.mpr ⟨fun other member => ?_, ih others⟩
      rcases mem_insertById.mp member with rfl | old
      · exact Nat.le_of_not_lt before
      · exact least other old

/-- The functions of a program are in the order of their numbers. -/
theorem functions_ordered (program : Program) : Ordered program.functions := by
  unfold functions
  induction program.top.flatMap fun top => top.expr.functions with
  | nil => exact .nil
  | cons first rest ih => exact ih.insertById first

/-- The functions of a program are those that its expressions hold. -/
theorem functions_perm (program : Program) :
    program.functions.Perm (program.nodes.filterMap Expr.function?) := by
  have sorted : ∀ functions : List Function, (functions.foldr insertById []).Perm functions := by
    intro functions
    induction functions with
    | nil => exact .nil
    | cons first rest ih => exact (insertById_perm first _).trans (ih.cons first)
  have inForms : (functionsOfAll (program.top.map Toplevel.expr)).Perm
      ((nodesOfAll (program.top.map Toplevel.expr)).filterMap Expr.function?) :=
    functionsOfAll_perm fun e _ => e.functions_perm
  rw [program.nodes_eq]
  rw [functionsOfAll_eq_flatMap, List.flatMap_map] at inForms
  exact (sorted _).trans inForms

theorem functionIds_perm (program : Program) : (program.functions.map (·.signature.id)).Perm
    (program.nodes.filterMap Expr.functionId?) := by
  have same := program.functions_perm.map (·.signature.id)
  rwa [List.map_filterMap] at same

/-- Functions whose numbers are those below a count stand in the order of their numbers. -/
theorem functionIds_eq {program : Program} {count : Nat}
    (numbers : (program.nodes.filterMap Expr.functionId?).Perm (List.range count)) :
    program.functions.map (·.signature.id) = List.range count := by
  have ordered : (program.functions.map (·.signature.id)).Pairwise (· ≤ ·) :=
    List.pairwise_map.mpr program.functions_ordered
  exact (program.functionIds_perm.trans numbers).eq_of_pairwise' ordered
    (List.pairwise_lt_range.imp Nat.le_of_lt)

end Program

/-! ## Forests -/

/-- A program whose expressions stand in one slot each, with their places recorded, and whose
functions are held by one expression each. -/
structure Program.IsForest (program : Program) : Prop where
  owned : ∀ node ∈ program.nodes, (program.slots.map Expr.id).count node.id = 1
  held : ∀ function ∈ program.functions,
    (program.nodes.filterMap Expr.functionId?).count function.signature.id = 1
  placed : ∀ node ∈ program.nodes, node.span.isDummy = false

namespace Program

variable {program : Program} {source : String} {path : Option String}

/-- A program is a forest if no two of its expressions have a number in common, and no two of its
functions do. -/
theorem IsForest.of_distinct (distinct : (program.nodes.map Expr.id).Nodup)
    (numbered : (program.nodes.filterMap Expr.functionId?).Nodup)
    (placed : ∀ node ∈ program.nodes, node.span.isDummy = false) : program.IsForest := by
  refine ⟨fun node member => ?_, fun function member => ?_, placed⟩
  · rw [← (program.nodes_perm_slots.map Expr.id).count_eq]
    exact List.count_eq_one_of_mem distinct (List.mem_map_of_mem member)
  · refine List.count_eq_one_of_mem numbered ?_
    exact program.functionIds_perm.mem_iff.mp (List.mem_map_of_mem member)

/-- The functions of a parsed program are all that were finished. -/
theorem parse_functionIds (parsed : Program.parse source path = .ok program) :
    program.functions.map (·.signature.id) = List.range program.counters.functions := by
  obtain ⟨numbers, count⟩ := (parse_reads parsed).1
  rw [functions_of_numbered ⟨numbers, count⟩, numbers, count]

/-- The reader builds a forest. -/
theorem parse_isForest (parsed : Program.parse source path = .ok program) : program.IsForest := by
  have filed := parse_filed parsed
  refine .of_distinct ?_ ?_ fun node member => (filed.enclose node member).solid.isDummy
  · exact filed.ids.nodup_iff.mpr List.nodup_range
  · rw [← program.functionIds_perm.nodup_iff, parse_functionIds parsed]
    exact List.nodup_range

end Program

end Trampoline
