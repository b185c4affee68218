import Mathlib.Algebra.Order.Group.Multiset
import Mathlib.Data.List.Pairwise
import Mathlib.Tactic.Abel
import Trampoline.Proofs.Syntax.Owners

/-!
# The way to the end of a body

The expressions in a body are those on the way to its end and those in what is passed on the way:
the items of blocks before the last, the tests of conditionals, the operands of connectives before
the last, and all parts of what the way ends with. In a forest no expression is met twice.
-/

namespace Trampoline

/-- What is evaluated as part of an expression is a part of it. -/
theorem Expr.children_subset_parts (e : Expr) : e.children ⊆ e.parts := by
  cases e with
  | fn => exact List.nil_subset _
  | _ => exact List.Subset.refl _

namespace Expr

/-- The parts of an expression that are passed on the way to its end. -/
def passed : Expr -> List Expr
  | .seq _ items => items.dropLast
  | .cond _ arms _ => arms.map Prod.fst
  | .short _ _ operands => operands.dropLast
  | e => e.parts

/-- The parts of an expression that the way to its end goes on with. -/
def ends : Expr -> List Expr
  | .seq _ items => items.getLast?.toList
  | .cond _ arms alt => arms.map Prod.snd ++ alt.toList
  | .short _ _ operands => operands.getLast?.toList
  | _ => []

/-- What is passed on the way to the end of a body. -/
def asides (e : Expr) : List Expr := e.tailPath.flatMap passed

end Expr

theorem dropLast_append_toList {α : Type} (list : List α) :
    list.dropLast ++ list.getLast?.toList = list := by
  rcases list.eq_nil_or_concat with rfl | ⟨before, item, rfl⟩ <;> simp

/-- The way through several items is the way through the last. -/
theorem tailPathOfLast_eq (es : List Expr) :
    tailPathOfLast es = es.getLast?.toList.flatMap Expr.tailPath := by
  induction es with
  | nil => rfl
  | cons e rest ih => cases rest <;> simp_all [tailPathOfLast, List.getLast?_cons_cons]

/-- The way through arms are the ways through their bodies. -/
theorem tailPathOfArms_eq (arms : List (Expr × Expr)) :
    tailPathOfArms arms = (arms.map Prod.snd).flatMap Expr.tailPath := by
  induction arms with
  | nil => rfl
  | cons first rest ih => rw [tailPathOfArms, ih, List.map_cons, List.flatMap_cons]

namespace Expr

/-- The way to the end is the expression and the ways to the ends that it goes on with. -/
theorem tailPath_eq (e : Expr) : e.tailPath = e :: e.ends.flatMap tailPath := by
  cases e with
  | cond mark arms alt => cases alt <;> simp [tailPath, ends, tailPathOfArms_eq]
  | _ => simp [tailPath, ends, tailPathOfLast_eq]

/-- Tests and bodies of arms are the tests and then the bodies, in another order. -/
theorem arms_perm (arms : List (Expr × Expr)) :
    (arms.flatMap fun (test, body) => [test, body]).Perm
      (arms.map Prod.fst ++ arms.map Prod.snd) := by
  induction arms with
  | nil => exact .nil
  | cons arm rest ih => exact .cons arm.1 ((ih.cons arm.2).trans List.perm_middle.symm)

/-- The way to the end passes the parts of an expression or goes on with them. -/
theorem parts_perm (e : Expr) : e.parts.Perm (e.passed ++ e.ends) := by
  cases e with
  | seq mark items => exact .of_eq (dropLast_append_toList items).symm
  | short mark op operands => exact .of_eq (dropLast_append_toList operands).symm
  | cond mark arms alt =>
    show List.Perm _ (arms.map Prod.fst ++ (arms.map Prod.snd ++ alt.toList))
    rw [← List.append_assoc]
    exact (arms_perm arms).append_right _
  | _ => simp [passed, ends]

theorem ends_subset_parts (e : Expr) : e.ends ⊆ e.parts :=
  fun _ member => e.parts_perm.mem_iff.mpr (List.mem_append_right _ member)

end Expr

variable {es : List Expr} {e node : Expr}

theorem nodesOfAll_perm {others : List Expr} (perm : es.Perm others) :
    (nodesOfAll es).Perm (nodesOfAll others) := by
  rw [nodesOfAll_eq_flatMap, nodesOfAll_eq_flatMap]
  exact perm.flatMap_right _

/-- The expressions in an expression are itself, those passed and those the way goes on with. -/
theorem Expr.nodes_perm_ends (e : Expr) :
    e.nodes.Perm (e :: (nodesOfAll e.passed ++ nodesOfAll e.ends)) := by
  rw [e.nodes_parts, ← nodesOfAll_append]
  exact .cons e (nodesOfAll_perm e.parts_perm)

/-- If nodes are those on the way and those aside in each expression, they are so in all. -/
theorem nodesOfAll_perm_paths (each : ∀ e ∈ es, e.nodes.Perm (e.tailPath ++ nodesOfAll e.asides)) :
    (nodesOfAll es).Perm (es.flatMap Expr.tailPath ++ nodesOfAll (es.flatMap Expr.asides)) := by
  induction es with
  | nil => exact .nil
  | cons e rest ih =>
    obtain ⟨first, others⟩ := List.forall_mem_cons.mp each
    rw [nodesOfAll, List.flatMap_cons, List.flatMap_cons, nodesOfAll_append]
    refine (first.append (ih others)).trans ?_
    simp only [← Multiset.coe_eq_coe, ← Multiset.coe_add]
    abel

/-- The expressions in a body are on the way to its end or in what is passed. -/
theorem Expr.nodes_perm_path (e : Expr) : e.nodes.Perm (e.tailPath ++ nodesOfAll e.asides) := by
  induction e using Expr.induct_parts with
  | whole e ih =>
    have inside := nodesOfAll_perm_paths fun part member => ih part (e.ends_subset_parts member)
    have asides : e.asides = e.passed ++ e.ends.flatMap asides := by
      rw [Expr.asides, e.tailPath_eq, List.flatMap_cons, List.flatMap_assoc]
      rfl
    rw [asides, e.tailPath_eq, nodesOfAll_append]
    refine e.nodes_perm_ends.trans (.cons e ?_)
    exact (inside.append_left _).trans (List.perm_append_comm_assoc _ _ _)

/-! ## Expressions that are met once -/

theorem Expr.nodes_trans (member : node ∈ e.nodes) : node.nodes ⊆ e.nodes := by
  have all : e.All (· ∈ e.nodes) := fun _ member => member
  exact fun inner inside => all.nested node member inner inside

theorem Expr.mem_nodes_of_part {part : Expr} (isPart : part ∈ e.parts) : part ∈ e.nodes :=
  List.mem_of_mem_tail (e.parts_subset _ isPart)

theorem Expr.All.part {kind : Expr -> Prop} {part : Expr} (all : e.All kind)
    (isPart : part ∈ e.parts) : part.All kind :=
  all.nested part (Expr.mem_nodes_of_part isPart)

/-- The nodes of a node of several expressions are nodes of theirs. -/
theorem Expr.nodesOfAll_trans (member : node ∈ nodesOfAll es) : node.nodes ⊆ nodesOfAll es := by
  rw [nodesOfAll_eq_flatMap] at member ⊢
  obtain ⟨e, listed, inside⟩ := List.mem_flatMap.mp member
  exact fun inner more => List.mem_flatMap.mpr ⟨e, listed, Expr.nodes_trans inside more⟩

theorem Expr.tailPath_subset_nodes (e : Expr) : e.tailPath ⊆ e.nodes :=
  fun _ onPath => e.nodes_perm_path.mem_iff.mpr (List.mem_append_left _ onPath)

/-- Expressions that share no nodes differ from each other. -/
theorem nodup_of_nodesOfAll (distinct : (nodesOfAll es).Nodup) : es.Nodup := by
  induction es with
  | nil => exact .nil
  | cons e rest ih =>
    rw [nodesOfAll, List.nodup_append'] at distinct
    obtain ⟨-, others, apart⟩ := distinct
    exact List.nodup_cons.mpr
      ⟨fun member => apart e.self_mem_nodes (mem_nodesOfAll member), ih others⟩

/-- What is met once is in one of several expressions. -/
theorem eq_of_mem_nodes (distinct : (nodesOfAll es).Nodup) {first second : Expr}
    (member : first ∈ es) (member' : second ∈ es) (inside : e ∈ first.nodes)
    (inside' : e ∈ second.nodes) : first = second := by
  rw [nodesOfAll_eq_flatMap] at distinct
  have apart := (List.nodup_flatMap.mp distinct).2
  have : Std.Symm (Function.onFun List.Disjoint Expr.nodes) := ⟨fun _ _ apart => apart.symm⟩
  by_contra different
  exact apart.forall member member' different inside inside'

/-- None of several expressions is inside of one of them. -/
theorem nodesOfAll_apart (distinct : (nodesOfAll es).Nodup) {other : Expr}
    (member : e ∈ es) (listed : other ∈ es) : e ∉ nodesOfAll other.parts := by
  have within : ∀ x : Expr, nodesOfAll x.parts ⊆ x.nodes := fun x => by
    rw [x.nodes_parts]
    exact List.subset_cons_self _ _
  induction es with
  | nil => cases member
  | cons first rest ih =>
    rw [nodesOfAll, List.nodup_append'] at distinct
    obtain ⟨own, others, apart⟩ := distinct
    cases member with
    | head =>
      cases listed with
      | head =>
        rw [e.nodes_parts] at own
        exact (List.nodup_cons.mp own).1
      | tail _ later =>
        intro inside
        exact apart e.self_mem_nodes
          (Expr.nodesOfAll_trans (mem_nodesOfAll later) (within _ inside))
    | tail _ later =>
      cases listed with
      | head => exact fun inside => apart (within _ inside) (mem_nodesOfAll later)
      | tail _ listed => exact ih others later listed

namespace Expr

section Distinct

variable {body e other : Expr} (distinct : body.nodes.Nodup)
include distinct

theorem not_mem_parts : body ∉ nodesOfAll body.parts := by
  rw [body.nodes_parts] at distinct
  exact (List.nodup_cons.mp distinct).1

theorem parts_nodup : (nodesOfAll body.parts).Nodup := by
  rw [body.nodes_parts] at distinct
  exact (List.nodup_cons.mp distinct).2

/-- A part has no node twice. -/
theorem part_nodup (isPart : e ∈ body.parts) : e.nodes.Nodup := by
  have parts := parts_nodup distinct
  rw [nodesOfAll_eq_flatMap] at parts
  exact (List.nodup_flatMap.mp parts).1 e isPart

theorem ends_nodup : (nodesOfAll body.ends).Nodup :=
  (List.nodup_append'.mp (List.nodup_cons.mp (body.nodes_perm_ends.nodup_iff.mp distinct)).2).2.1

/-- What the way goes on with is not passed. -/
theorem ends_not_passed (inside : e ∈ nodesOfAll body.ends) :
    e ∉ body :: nodesOfAll body.passed := by
  obtain ⟨own, others⟩ := List.nodup_cons.mp (body.nodes_perm_ends.nodup_iff.mp distinct)
  intro member
  rcases List.mem_cons.mp member with rfl | passes
  · exact own (List.mem_append_right _ inside)
  · exact (List.nodup_append'.mp others).2.2 passes inside

theorem path_nodup : (body.tailPath ++ nodesOfAll body.asides).Nodup :=
  body.nodes_perm_path.nodup_iff.mp distinct

/-- What is on the way to the end is in nothing that is passed. -/
theorem path_fresh (onPath : e ∈ body.tailPath) : e ∉ nodesOfAll body.asides :=
  fun inside => (List.nodup_append'.mp (path_nodup distinct)).2.2 onPath inside

theorem asides_apart (member : e ∈ body.asides) (listed : other ∈ body.asides) :
    e ∉ nodesOfAll other.parts :=
  nodesOfAll_apart (List.nodup_append'.mp (path_nodup distinct)).2.1 member listed

/-- What is passed is passed by one expression. -/
theorem passed_once {node : Expr} (onPath : e ∈ body.tailPath) (onPath' : other ∈ body.tailPath)
    (passes : node ∈ e.passed) (passes' : node ∈ other.passed) : e = other := by
  have asides : body.asides.Nodup :=
    nodup_of_nodesOfAll (List.nodup_append'.mp (path_nodup distinct)).2.1
  have apart := (List.nodup_flatMap.mp asides).2
  have : Std.Symm (Function.onFun List.Disjoint passed) := ⟨fun _ _ apart => apart.symm⟩
  by_contra different
  exact apart.forall onPath onPath' different passes passes'

end Distinct

theorem passed_subset_asides {body e : Expr} (onPath : e ∈ body.tailPath) :
    e.passed ⊆ body.asides :=
  fun _ passes => List.mem_flatMap.mpr ⟨e, onPath, passes⟩

end Expr

end Trampoline
