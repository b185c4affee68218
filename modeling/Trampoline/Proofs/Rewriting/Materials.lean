import Trampoline.Proofs.Rewriting.Closure
import Trampoline.Proofs.Spelling.Basic

/-!
# What rewritten programs are made of

Every expression of a transformed program stands where one of the program stands. What it spells on
its own is spelled in the program too, besides the name of the continuation and nil.
-/

namespace Trampoline

open Transform

/-- The expression stands at one of the places, and what it spells on its own is of a kind. -/
structure Expr.MadeOf (places : Span -> Prop) (kind : Spelling -> Prop) (e : Expr) : Prop where
  place : places e.span
  own : e.OwnOf kind

variable {places : Span -> Prop} {kind : Spelling -> Prop} {escapes : List String}
  {table : DecoratorTable} {becomes : Function -> Function -> Prop}

/-- The rewriting may spell the name of the continuation, and nil. -/
structure AllowsNew (kind : Spelling -> Prop) : Prop where
  continuation : kind (.sym continuationParam)
  nil : kind (.sym "nil")

/-! ## Bodies -/

theorem Expr.ownAtoms_withMark (e : Expr) (mark : Mark) :
    (e.withMark mark).ownAtoms = e.ownAtoms := by
  cases e <;> rfl

theorem Expr.span_withMark (e : Expr) (mark : Mark) : (e.withMark mark).span = mark.span := by
  cases e <;> rfl

variable {e : Expr} {kwargs kwargs' : List (String × Expr)}

/-- What stands where the expression stands, stands at one of the places. -/
theorem Expr.MadeOf.there (madeOf : e.MadeOf places kind) {mark : Mark}
    (same : mark.span = e.span) : places mark.span :=
  same ▸ madeOf.place

/-- What rewriting a body makes is made of what the body is made of. -/
theorem AllowsNew.closed (allows : AllowsNew kind) :
    ClosedUnderRewriting escapes True (Expr.MadeOf places kind) where
  moved {e mark} madeOf same := by
    refine ⟨?_, ?_⟩
    · rw [Expr.span_withMark, same]
      exact madeOf.place
    · rw [Expr.OwnOf, Expr.ownAtoms_withMark]
      exact madeOf.own
  block madeOf same := ⟨madeOf.there same, nofun⟩
  cond madeOf := ⟨madeOf.place, nofun⟩
  short madeOf := ⟨madeOf.place, nofun⟩
  continuation madeOf same :=
    ⟨madeOf.there same, List.forall_mem_singleton.mpr allows.continuation⟩
  nil madeOf same := ⟨madeOf.there same, List.forall_mem_singleton.mpr allows.nil⟩
  handOver madeOf same := ⟨madeOf.there same, nofun⟩
  defer _ madeOf := ⟨madeOf.place, madeOf.own⟩
  pass _ madeOf := ⟨madeOf.place, madeOf.own⟩
  passJump _ madeOf := ⟨madeOf.place, madeOf.own⟩
  cutCall capture call same := ⟨capture.there same, call.own⟩
  cutRest capture same :=
    ⟨capture.there same, List.forall_mem_append.mpr ⟨capture.own, List.forall_mem_nil _⟩⟩

/-! ## Programs -/

/-- What a function becomes is made of what it is made of. -/
def KeepMaterials (places : Span -> Prop) (kind : Spelling -> Prop)
    (becomes : Function -> Function -> Prop) : Prop :=
  ∀ mark signature body function, (Expr.fn mark signature body).All (Expr.MadeOf places kind) ->
    becomes ⟨signature, body⟩ function ->
      (Expr.fn mark function.signature function.body).All (Expr.MadeOf places kind)

/-- Rewriting bodies keeps places and spells nothing new but what is allowed. -/
theorem Rewrites.keepMaterials (allows : AllowsNew kind) :
    KeepMaterials places kind (Rewrites escapes) := by
  intro mark signature body function all rewrites
  obtain ⟨⟨place, own⟩, ofBody⟩ := Expr.all_fn.mp all
  have inside := rewrites.of (allows.closed.functionBody_all ofBody fun _ _ _ => trivial)
  refine Expr.all_fn.mpr ⟨⟨place, ?_⟩, inside⟩
  rw [rewrites.of (functionBody_params _)]
  obtain ⟨params, decorators⟩ := List.forall_mem_append.mp own
  refine List.forall_mem_append.mpr ⟨?_, decorators⟩
  unfold rewrittenParams withContinuationParam
  split_ifs
  · exact params
  · rw [List.map_append]
    exact List.forall_mem_append.mpr ⟨params, List.forall_mem_singleton.mpr allows.continuation⟩
  · exact params

/-- Giving functions their wrappers keeps places and spells nothing new. -/
theorem Dresses.keepMaterials : KeepMaterials places kind (Dresses table) := by
  intro mark signature body function all dresses
  obtain ⟨wrappers, rfl⟩ := dresses.eq
  obtain ⟨⟨place, own⟩, ofBody⟩ := Expr.all_fn.mp all
  exact Expr.all_fn.mpr ⟨⟨place, own⟩, ofBody⟩

/-- Mapped keyword arguments have the same names. -/
theorem MappingNamed.names_eq (mapping : MappingNamed becomes kwargs kwargs') :
    kwargs'.map Prod.fst = kwargs.map Prod.fst := by
  induction kwargs generalizing kwargs' with
  | nil =>
    cases mapping
    rfl
  | cons first rest ih =>
    cases mapping with
    | cons _ others => rw [List.map_cons, List.map_cons, ih others]

/-- What mapped keyword arguments spell on their own is of the kind. -/
theorem MappingNamed.ownOf (mapping : MappingNamed becomes kwargs kwargs')
    (own : ∀ atom ∈ kwargs.map (Spelling.keyword ∘ Prod.fst), kind atom) :
    ∀ atom ∈ kwargs'.map (Spelling.keyword ∘ Prod.fst), kind atom := by
  rw [← List.map_map, mapping.names_eq, List.map_map]
  exact own

/-- A mapped expression is made of what the expression is made of. -/
theorem Mapping.madeOf (keep : KeepMaterials places kind becomes) {e' : Expr}
    (mapping : Mapping becomes e e') (all : e.All (Expr.MadeOf places kind)) :
    e'.All (Expr.MadeOf places kind) := by
  refine mapping.all ?_ ?_ all
  · intro mark signature body body' function all _ ofBody self
    exact keep mark signature body' function
      (Expr.all_fn.mpr ⟨⟨all.self.place, all.self.own⟩, ofBody⟩) self
  · rintro e e' held mapping ⟨place, own⟩
    cases mapping with
    | fn => cases held
    | call _ _ kwargs | jumpNone _ _ kwargs | jumpSome _ _ kwargs _ =>
      exact ⟨place, kwargs.ownOf own⟩
    | _ => exact ⟨place, own⟩

theorem MappingAll.madeOf (keep : KeepMaterials places kind becomes) {es es' : List Expr}
    (mapping : MappingAll becomes es es') (all : AllOf (Expr.MadeOf places kind) es) :
    AllOf (Expr.MadeOf places kind) es' :=
  mapping.all (fun _ _ mapped => mapped.madeOf keep) all

/-- What is said of all expressions in forms is said of each form. -/
theorem allOf_map_expr {kind : Expr -> Prop} {top : List Toplevel} :
    AllOf kind (top.map Toplevel.expr) ↔ ∀ form ∈ top, form.expr.All kind := by
  induction top with
  | nil => exact iff_of_true nofun nofun
  | cons form rest ih => rw [List.map_cons, allOf_cons, ih, List.forall_mem_cons]

/-- A transformed program is made of what the program is made of, the name of the continuation and
nil. -/
theorem Program.transform_madeOf (allows : AllowsNew kind) {program : Program}
    {transformed : Transformed} (succeeds : program.transform table escapes = .ok transformed)
    (all : ∀ form ∈ program.top, form.expr.All (Expr.MadeOf places kind)) :
    ∀ form ∈ transformed.program.top, form.expr.All (Expr.MadeOf places kind) := by
  obtain ⟨middle, rewriting, dressing⟩ := Program.transform_mapping succeeds
  have rewritten := rewriting.madeOf (Rewrites.keepMaterials allows) (allOf_map_expr.mpr all)
  exact allOf_map_expr.mp (dressing.madeOf Dresses.keepMaterials rewritten)

end Trampoline
