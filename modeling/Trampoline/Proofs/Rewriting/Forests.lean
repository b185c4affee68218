import Trampoline.Proofs.Rewriting.Materials
import Trampoline.Proofs.Rewriting.Numbers

/-!
# Rewritten programs as forests

The transformation keeps a program a forest. What it does not rewrite stays the same node for node,
functions keep their numbers, and each capture is replaced by one new function.
-/

namespace Trampoline

open Transform

variable {escapes : List String} {table : DecoratorTable} {becomes : Function -> Function -> Prop}

/-! ## Outlines -/

/-- A function of which only the number is known. -/
def Signature.reference (id : Nat) : Signature := ⟨id, none, [], [], .none, .plain, []⟩

mutual

/-- The expression without the insides of functions, each of which is known by its number. -/
def Expr.outline : Expr -> Expr
  | .lit mark value => .lit mark value
  | .var mark name => .var mark name
  | .fn mark signature _ => .fn mark (.reference signature.id) (.lit mark .nil)
  | .call mark func args kwargs => .call mark func.outline (outlineAll args) (outlineKwargs kwargs)
  | .cond mark arms alt =>
    .cond mark (outlineArms arms)
      (match alt with
      | none => none
      | some e => some e.outline)
  | .short mark op operands => .short mark op (outlineAll operands)
  | .seq mark items => .seq mark (outlineAll items)
  | .bind mark name bindee => .bind mark name bindee.outline
  | .assign mark name bindee => .assign mark name bindee.outline
  | .loop mark test body => .loop mark test.outline body.outline
  | .jump mark func args kwargs cc =>
    .jump mark func.outline (outlineAll args) (outlineKwargs kwargs)
      (match cc with
      | none => none
      | some e => some e.outline)
  | .capture mark binders e => .capture mark binders e.outline

/-- The outlines of several expressions. -/
def outlineAll : List Expr -> List Expr
  | [] => []
  | e :: rest => e.outline :: outlineAll rest

/-- The outlines of keyword arguments. -/
def outlineKwargs : List (String × Expr) -> List (String × Expr)
  | [] => []
  | (name, e) :: rest => (name, e.outline) :: outlineKwargs rest

/-- The outlines of arms. -/
def outlineArms : List (Expr × Expr) -> List (Expr × Expr)
  | [] => []
  | (test, body) :: rest => (test.outline, body.outline) :: outlineArms rest

end

/-- A toplevel form without the insides of functions. -/
def Toplevel.outline : Toplevel -> Toplevel
  | .define name bindee => .define name bindee.outline
  | .exec e => .exec e.outline

/-- Functions keep their numbers when they become others. -/
def KeepNumbers (becomes : Function -> Function -> Prop) : Prop :=
  ∀ function other, becomes function other -> other.signature.id = function.signature.id

/-- Rewriting the body of a function keeps its number. -/
theorem Rewrites.keepNumbers : KeepNumbers (Rewrites escapes) := by
  intro function other rewrites
  obtain ⟨params, same⟩ := rewrites.of (functionBody_signature function)
  rw [same]

/-- Giving a function its wrappers keeps its number. -/
theorem Dresses.keepNumbers : KeepNumbers (Dresses table) := by
  intro function other dresses
  obtain ⟨wrappers, rfl⟩ := dresses.eq
  rfl

mutual

/-- An expression keeps its outline when its functions become others of the same numbers. -/
theorem Mapping.outline (keeps : KeepNumbers becomes) : ∀ {e e' : Expr}, Mapping becomes e e' ->
    e'.outline = e.outline
  | _, _, .lit | _, _, .var => rfl
  | _, _, .fn _ self => by
    rw [Expr.outline, Expr.outline, keeps _ _ self]
  | _, _, .call func args kwargs => by
    simp only [Expr.outline, func.outline keeps, args.outline keeps, kwargs.outline keeps]
  | _, _, .condNone arms => by simp only [Expr.outline, arms.outline keeps]
  | _, _, .condSome arms alt => by
    simp only [Expr.outline, arms.outline keeps, alt.outline keeps]
  | _, _, .short operands => by simp only [Expr.outline, operands.outline keeps]
  | _, _, .seq items => by simp only [Expr.outline, items.outline keeps]
  | _, _, .bind bindee | _, _, .assign bindee => by
    simp only [Expr.outline, bindee.outline keeps]
  | _, _, .loop test body => by simp only [Expr.outline, test.outline keeps, body.outline keeps]
  | _, _, .jumpNone func args kwargs => by
    simp only [Expr.outline, func.outline keeps, args.outline keeps, kwargs.outline keeps]
  | _, _, .jumpSome func args kwargs cc => by
    simp only [Expr.outline, func.outline keeps, args.outline keeps, kwargs.outline keeps,
      cc.outline keeps]
  | _, _, .capture call => by simp only [Expr.outline, call.outline keeps]

theorem MappingAll.outline (keeps : KeepNumbers becomes) : ∀ {es es' : List Expr},
    MappingAll becomes es es' -> outlineAll es' = outlineAll es
  | _, _, .nil => rfl
  | _, _, .cons first rest => by
    simp only [outlineAll, first.outline keeps, rest.outline keeps]

theorem MappingNamed.outline (keeps : KeepNumbers becomes) :
    ∀ {kwargs kwargs' : List (String × Expr)}, MappingNamed becomes kwargs kwargs' ->
      outlineKwargs kwargs' = outlineKwargs kwargs
  | _, _, .nil => rfl
  | _, _, .cons first rest => by
    simp only [outlineKwargs, first.outline keeps, rest.outline keeps]

theorem MappingArms.outline (keeps : KeepNumbers becomes) : ∀ {arms arms' : List (Expr × Expr)},
    MappingArms becomes arms arms' -> outlineArms arms' = outlineArms arms
  | _, _, .nil => rfl
  | _, _, .cons test body rest => by
    simp only [outlineArms, test.outline keeps, body.outline keeps, rest.outline keeps]

end

/-- Mapped toplevel forms have the outlines of the forms. -/
theorem MappingTop.outline (keeps : KeepNumbers becomes) {top top' : List Toplevel}
    (mapping : MappingTop becomes top top') :
    top'.map Toplevel.outline = top.map Toplevel.outline := by
  induction mapping with
  | nil => rfl
  | define first _ ih | exec first _ ih =>
    simp only [List.map_cons, Toplevel.outline, first.outline keeps, ih]

/-! ## Captures -/

/-- No capture occurs in the expression, in functions neither. -/
def Expr.Free (e : Expr) : Prop := e.All (·.isCapture = false)

/-- No capture occurs in the functions in the expression. -/
def Expr.Shut (e : Expr) : Prop := e.All fun node =>
  ∀ function, node.function? = some function -> function.body.Free

/-- Several expressions capture if one of them does. -/
theorem anyCapture_eq_any (es : List Expr) : anyCapture es = es.any Expr.hasCapture := by
  induction es with
  | nil => rfl
  | cons e rest ih => rw [anyCapture, ih, List.any_cons]

/-- Keyword arguments capture if their values do. -/
theorem anyCaptureInKwargs_eq (kwargs : List (String × Expr)) :
    anyCaptureInKwargs kwargs = anyCapture (kwargs.map Prod.snd) := by
  induction kwargs with
  | nil => rfl
  | cons first rest ih => rw [anyCaptureInKwargs, ih, List.map_cons, anyCapture]

/-- Arms capture if their tests or bodies do. -/
theorem anyCaptureInArms_eq (arms : List (Expr × Expr)) :
    anyCaptureInArms arms = anyCapture (arms.flatMap fun (test, body) => [test, body]) := by
  induction arms with
  | nil => rfl
  | cons first rest ih =>
    obtain ⟨test, body⟩ := first
    simp [anyCaptureInArms, anyCapture, ih, Bool.or_assoc]

theorem anyCapture_append (first second : List Expr) :
    anyCapture (first ++ second) = (anyCapture first || anyCapture second) := by
  simp only [anyCapture_eq_any, List.any_append]

/-- A capture occurs in an expression if the expression is one or one occurs in its children. -/
theorem Expr.hasCapture_eq (e : Expr) : e.hasCapture = (e.isCapture || anyCapture e.children) := by
  cases e with
  | cond _ arms alt =>
    cases alt <;>
      simp [hasCapture, isCapture, children, anyCapture_append, anyCaptureInArms_eq, anyCapture]
  | jump _ func args kwargs cc =>
    cases cc <;>
      simp [hasCapture, isCapture, children, anyCapture_append, anyCaptureInKwargs_eq, anyCapture,
        Bool.or_assoc]
  | _ =>
    simp [hasCapture, isCapture, children, anyCapture_append, anyCaptureInKwargs_eq, anyCapture,
      Bool.or_assoc]

variable {e e' : Expr} {function other : Function}

theorem Expr.free_iff : e.Free ↔ ∀ label ∈ e.labels, label.isCapture = false := by
  simp [Expr.Free, Expr.All, Expr.labels, Expr.label]

/-- Without captures, the functions have none either. -/
theorem Expr.Free.shut (free : e.Free) : e.Shut := by
  intro node inside function held
  have within := Expr.All.nested free node inside
  cases node with
  | fn mark signature body =>
    cases held
    exact (Expr.all_fn.mp within).2
  | _ => cases held

/-- Where no capture occurs, inside functions or outside, there is none. -/
theorem Expr.Shut.free (shut : e.Shut) (uncaptured : e.hasCapture = false) : e.Free := by
  induction e using Expr.induct_parts with
  | whole e ih =>
    rw [e.hasCapture_eq, Bool.or_eq_false_iff, anyCapture_eq_any, List.any_eq_false] at uncaptured
    obtain ⟨own, below⟩ := uncaptured
    obtain ⟨self, inside⟩ := Expr.all_parts.mp shut
    refine Expr.all_parts.mpr ⟨own, fun part member => ?_⟩
    cases held : e.function? with
    | some function =>
      cases e with
      | fn mark signature body =>
        cases held
        rw [List.mem_singleton.mp member]
        exact self _ rfl
      | _ => cases held
    | none =>
      refine ih part member (inside part member) ?_
      rw [Expr.parts_eq_children held] at member
      simpa using below part member

/-- A step that accounts for numbers makes no captures. -/
theorem Draws.free {step : Transform Expr} (draws : Draws e.labels step Expr.labels)
    (free : e.Free) : Produces True step Expr.Free := by
  refine (Produces.makes step).imp ?_
  rintro other ⟨_, _, ends⟩
  exact Expr.free_iff.mpr ((draws _ _ _ ends).free (Expr.free_iff.mp free))

/-! ## Bodies without captures -/

/-- No captures occur in the expressions. -/
abbrev FreeAll (es : List Expr) : Prop := AllOf (·.isCapture = false) es

/-- No captures occur in the functions in the expressions. -/
abbrev ShutAll (es : List Expr) : Prop := ∀ e ∈ es, e.Shut

/-- After cutting there are no captures left. -/
theorem cutItems_free (owner : Owner) (regions : Regions) : ∀ (items : List Expr) (span : Span),
    ShutAll items -> Produces True (cutItems escapes owner regions span items) FreeAll
  | [], span, _ => by
    refine .bind (handOverNil_produces span) ?_
    rintro _ ⟨jumpMark, ccMark, litMark, rfl⟩
    exact .pure (by simp [FreeAll, AllOf, nodesOfAll, Expr.nodes, nodesOfKwargs, Expr.isCapture])
  | item :: rest, span, shut => by
    obtain ⟨first, others⟩ := List.forall_mem_cons.mp shut
    have after := fun span => cutItems_free owner regions rest span others
    cases isCapture : item.isCapture with
    | true =>
      cases item with
      | capture mark binders captured =>
        simp only [cutItems]
        refine .bind (forbidCapture_produces _ _ fun _ => trivial) fun _ uncaptured => ?_
        have free := Expr.Shut.free (Expr.all_parts.mp first |>.2 captured List.mem_cons_self)
          uncaptured
        cases captured with
        | call callMark func args kwargs =>
          refine .bind (.any _) fun bodyMark _ => .bind (after mark.span) fun items cut => ?_
          refine .bind (.any _) fun _ _ => .bind (.any _) fun id _ => ?_
          refine .bind (.any _) fun cont _ => .bind (.any _) fun jump _ => .pure ?_
          obtain ⟨-, funcs, values, named⟩ := Expr.all_call.mp free
          refine allOf_cons.mpr ⟨Expr.all_jump_some.mpr ⟨rfl, funcs, values, named, ?_⟩,
            List.forall_mem_nil _⟩
          exact Expr.all_fn.mpr ⟨rfl, Expr.all_seq.mpr ⟨rfl, cut⟩⟩
        | _ => exact ⟨fun _ => .inr ⟨trivial, _, rfl⟩⟩
      | _ => cases isCapture
    | false =>
      cases rest with
      | nil =>
        rw [cutItems_one isCapture]
        refine .bind (forbidCapture_produces _ _ fun _ => trivial) fun _ uncaptured => ?_
        exact .bind ((passTails_draws item).free (first.free uncaptured)) fun item' free =>
          .pure (allOf_cons.mpr ⟨free, List.forall_mem_nil _⟩)
      | cons next rest =>
        rw [cutItems_cons isCapture]
        refine .bind (forbidCapture_produces _ _ fun _ => trivial) fun _ uncaptured => ?_
        exact .bind (after span) fun items cut =>
          .pure (allOf_cons.mpr ⟨first.free uncaptured, cut⟩)

/-- A new mark changes nothing in the functions. -/
theorem Expr.Shut.withMark (shut : e.Shut) (mark : Mark) : (e.withMark mark).Shut := by
  rw [Expr.Shut, Expr.all_parts] at shut ⊢
  cases e <;> exact shut

/-- A body without captures in functions has none when it is cut. -/
theorem cutBody_free (owner : Owner) (regions : Regions) {body : Expr} (shut : body.Shut) :
    Produces True (cutBody escapes owner regions body) Expr.Free := by
  cases body with
  | seq mark items =>
    refine .bind (cutItems_free owner regions items mark.span (Expr.all_parts.mp shut).2) ?_
    exact fun items cut => .pure (Expr.all_seq.mpr ⟨rfl, cut⟩)
  | _ =>
    refine .bind (.bind (.any _) fun mark _ => .pure (shut.withMark mark)) fun item shut => ?_
    refine .bind (cutItems_free owner regions [item] _ (List.forall_mem_singleton.mpr shut)) ?_
    exact fun items cut => .pure (Expr.all_seq.mpr ⟨rfl, cut⟩)

/-- No captures are left in a body that is rewritten after the functions in it. -/
theorem functionBody_free (shut : function.body.Shut) :
    Produces True (functionBody escapes function) (·.body.Free) := by
  unfold functionBody
  by_cases continuations : function.signature.regions.cont = true
  · simp only [if_pos continuations]
    refine .bind (.any _) fun _ _ => ?_
    exact .bind (cutBody_free _ _ shut) fun body free => .pure free
  · simp only [if_neg continuations]
    refine .bind (forbidCapture_produces _ _ fun _ => trivial) fun _ uncaptured => ?_
    have free := shut.free uncaptured
    by_cases deferred : function.signature.regions.tco = true
    · simp only [if_pos deferred]
      refine .bind (.any _) fun _ _ => .pure ?_
      rw [Expr.free_iff] at free ⊢
      rwa [Expr.labels_deferTails]
    · simp only [if_neg deferred]
      exact .pure free

/-! ## Captures in what expressions become -/

/-- Mapped expressions capture if the expressions do. -/
theorem MappingAll.anyCapture_eq {es es' : List Expr}
    (each : ∀ e ∈ es, ∀ {e' : Expr}, Mapping becomes e e' -> e'.hasCapture = e.hasCapture)
    (mapping : MappingAll becomes es es') : anyCapture es' = anyCapture es := by
  induction es generalizing es' with
  | nil =>
    cases mapping
    rfl
  | cons e rest ih =>
    obtain ⟨ofFirst, ofRest⟩ := List.forall_mem_cons.mp each
    cases mapping with
    | cons first others => rw [anyCapture, anyCapture, ofFirst first, ih ofRest others]

/-- What becomes of an expression captures where the expression does. -/
theorem Mapping.hasCapture (mapping : Mapping becomes e e') : e'.hasCapture = e.hasCapture := by
  induction e using Expr.induct_parts generalizing e' with
  | whole e ih =>
    rcases mapping.split with ⟨rfl, rfl, -, -⟩ | ⟨held, held', same, parts⟩
    · rfl
    · have below := parts.anyCapture_eq ih
      rw [Expr.parts_eq_children held, Expr.parts_eq_children held'] at below
      rw [e.hasCapture_eq, e'.hasCapture_eq, same, below]

/-- After the rewriting there are no captures in functions. -/
theorem Mapping.shut (mapping : Mapping (Rewrites escapes) e e') : e'.Shut := by
  induction e using Expr.induct_parts generalizing e' with
  | whole e ih =>
    rcases mapping.split with ⟨rfl, rfl, inside, self⟩ | ⟨held, held', same, parts⟩
    · have free := self.of (functionBody_free (ih _ List.mem_cons_self inside))
      refine Expr.all_parts.mpr ⟨?_, List.forall_mem_singleton.mpr free.shut⟩
      rintro _ ⟨⟩
      exact free
    · refine Expr.all_parts.mpr ⟨fun function holds => ?_, fun part' member => ?_⟩
      · rw [held'] at holds
        cases holds
      · obtain ⟨part, listed, mapped⟩ := parts.origin member
        exact ih part listed mapped

/-! ## Numbers -/

theorem count_range (count id : Nat) : (List.range count).count id = given count id := by
  rw [List.nodup_range.count, given]
  simp only [List.mem_range]

theorem count_ids (labels : List Label) (id : Nat) :
    (labels.map Label.id).count id = labels.countP (·.id = id) :=
  List.countP_map

/-- A value occurs among what is read of items as often as it is read of one. -/
theorem count_filterMap {α β : Type} [BEq β] [LawfulBEq β] [DecidableEq β] (read : α -> Option β)
    (items : List α)
    (value : β) : (items.filterMap read).count value = items.countP (read · = some value) := by
  rw [List.count_filterMap]
  congr
  funext item
  simp [beq_eq_decide]

namespace Redraws

variable {before after : Counters} {old new : List Label}

/-- If each number given out is in use once, then no number is in use twice. -/
theorem distinct (redraws : Redraws before old after new)
    (all : (old.map Label.id).Perm (List.range before.exprs)) : (new.map Label.id).Nodup := by
  rw [List.nodup_iff_count_le_one]
  intro id
  have start := all.count_eq id
  have numbers := redraws.numbers id
  have once : given after.exprs id ≤ 1 := by
    unfold given
    split <;> omega
  rw [count_range, count_ids] at start
  rw [count_ids]
  omega

/-- If the functions have the numbers given out, they still do. -/
theorem functionIds (redraws : Redraws before old after new)
    (all : (old.filterMap Label.function).Perm (List.range before.functions)) :
    (new.filterMap Label.function).Perm (List.range after.functions) := by
  rw [List.perm_iff_count]
  intro id
  have start := all.count_eq id
  have functions := redraws.functions id
  rw [count_range, count_filterMap] at start
  rw [count_range, count_filterMap]
  omega

/-- The variables of captures are those of continuation functions. -/
theorem cutNames (redraws : Redraws before old after new) :
    (new.filterMap Label.cut).Perm (old.filterMap Label.cut) := by
  rw [List.perm_iff_count]
  intro names
  rw [count_filterMap, count_filterMap]
  exact redraws.cuts names

end Redraws

/-! ## Programs -/

/-- The variables that a capture binds. -/
def Expr.captured? : Expr -> Option (List String)
  | .capture _ binders _ => some binders
  | _ => none

/-- What the captures in a program bind. -/
def Program.captured (program : Program) : List (List String) :=
  program.nodes.filterMap Expr.captured?

/-- The parameters of a continuation function. -/
def Function.cut? (function : Function) : Option (List String) :=
  match function.signature.kind with
  | .plain => none
  | .continuation => some function.signature.params

/-- A function of a program, and the same function after the transformation. -/
structure Function.Kept (function other : Function) : Prop where
  signature : ∃ wrappers, other.signature = { function.signature with
    params := rewrittenParams function.signature, wrappers := wrappers }
  /-- A function outside `tco` and `continuations` keeps its body besides the functions in it. -/
  direct : function.signature.Direct -> other.body.outline = function.body.outline

/-- A function that is kept has its number. -/
theorem Function.Kept.id_eq (kept : function.Kept other) :
    other.signature.id = function.signature.id := by
  obtain ⟨_, same⟩ := kept.signature
  rw [same]

/-- A function that is kept has its kind. -/
theorem Function.Kept.kind_eq (kept : function.Kept other) :
    other.signature.kind = function.signature.kind := by
  obtain ⟨_, same⟩ := kept.signature
  rw [same]

/-- Forms that pass the check capture nothing. -/
theorem checkTop_free : ∀ top : List Toplevel,
    Produces True (checkTop top) fun _ => ∀ form ∈ top, form.expr.hasCapture = false
  | [] => .pure fun _ member => absurd member List.not_mem_nil
  | form :: rest => by
    refine .bind (forbidCapture_produces _ _ fun _ => trivial) fun _ first => ?_
    exact (checkTop_free rest).imp fun _ others => List.forall_mem_cons.mpr ⟨first, others⟩

namespace Program

variable {program : Program} {transformed : Transformed}

/-- A transformed program has no captures. -/
theorem transform_free (succeeds : program.transform table escapes = .ok transformed) :
    ∀ node ∈ transformed.program.nodes, node.isCapture = false := by
  obtain ⟨checked, middle, rewritten, log, checks, rewrites, dresses⟩ := transform_stages succeeds
  have uncaptured := (checkTop_free program.top).of_ok checks
  have always : ∀ {kind : Expr -> Prop} (top : List Toplevel), (∀ node, kind node) ->
      ∀ form ∈ top, form.expr.All kind := fun _ each _ _ node _ => each node
  have mapping := (mapFunctionsOfTop_mapping Rewrites.stepsOn program.top
    (always _ fun _ => trivial)).of_ok rewrites
  have free : ∀ label ∈ labelsOfTop middle, label.isCapture = false := by
    suffices free : FreeAll (middle.map Toplevel.expr) from List.forall_mem_map.mpr free
    rw [FreeAll, AllOf, nodesOfAll_eq_flatMap, List.forall_mem_flatMap]
    intro e' member
    obtain ⟨e, listed, mapped⟩ := mapping.exprs.origin member
    obtain ⟨form, inTop, rfl⟩ := List.mem_map.mp listed
    exact mapped.shut.free (mapped.hasCapture.trans (uncaptured form inTop))
  have redraws := mapFunctionsOfTop_draws functionWrappers_stepDraws _
    (always _ fun _ _ _ => trivial) _ _ _ dresses
  intro node member
  rw [Program.nodes_eq] at member
  exact redraws.free free node.label (List.mem_map_of_mem member)

/-- Every function of a program is kept by the transformation. -/
theorem transform_kept
    (succeeds : program.transform table escapes = .ok transformed) {function : Function}
    (member : function ∈ program.functions) :
    ∃ other ∈ transformed.program.functions, function.Kept other := by
  obtain ⟨inside, rewritten, body, mapped, rewrites, mapped', other, listed, dresses⟩ :=
    transform_functions succeeds member
  have renamed := rewrites.of (functionBody_params _)
  obtain ⟨wrappers, rfl⟩ := dresses.eq
  refine ⟨_, listed, ⟨⟨wrappers, by rw [renamed]⟩, fun direct => ?_⟩⟩
  obtain rfl := rewrites.of (functionBody_direct direct)
  exact (mapped'.outline Dresses.keepNumbers).trans (mapped.outline Rewrites.keepNumbers)

/-- Of a source, the numbers are those given out. -/
theorem parse_labels {source : String} {path : Option String}
    (parsed : Program.parse source path = .ok program) :
    ((program.nodes.map Expr.label).map Label.id).Perm (List.range program.counters.exprs) ∧
    ((program.nodes.map Expr.label).filterMap Label.function).Perm
      (List.range program.counters.functions) ∧
    (program.nodes.map Expr.label).filterMap Label.cut = program.captured := by
  refine ⟨?_, ?_, ?_⟩
  · rw [List.map_map]
    exact (parse_filed parsed).ids
  · rw [List.filterMap_map, ← parse_functionIds parsed]
    exact program.functionIds_perm.symm
  · rw [List.filterMap_map, captured]
    refine List.filterMap_congr fun node member => ?_
    have isSource := parse_isSource parsed node member
    cases node with
    | fn mark signature body =>
      obtain ⟨plain, -⟩ := isSource
      simp [Expr.label, Expr.cut?, Expr.captured?, plain]
    | _ => rfl

variable {functions : List Function} {count : Nat}

/-- Functions whose numbers are those below a count stand at their numbers. -/
theorem id_getElem {index : Nat}
    (ids : functions.map (·.signature.id) = List.range count) (inside : index < functions.length) :
    functions[index].signature.id = index := by
  have stands := List.getElem_of_eq ids (i := index) (by rwa [List.length_map])
  simpa using stands

/-- Functions that are kept under their numbers are kept in their order. -/
theorem kept_in_order {others : List Function} {count' : Nat}
    (ids : functions.map (·.signature.id) = List.range count)
    (ids' : others.map (·.signature.id) = List.range count') (more : count ≤ count')
    (kept : ∀ function ∈ functions, ∃ other ∈ others, function.Kept other) :
    List.Forall₂ Function.Kept functions (others.take functions.length) := by
  have length := congrArg List.length ids
  have length' := congrArg List.length ids'
  simp only [List.length_map, List.length_range] at length length'
  refine List.forall₂_iff_get.mpr ⟨?_, fun index inside inside' => ?_⟩
  · rw [List.length_take]
    omega
  · obtain ⟨other, listed, same⟩ := kept functions[index] (List.getElem_mem inside)
    obtain ⟨place, within, rfl⟩ := List.getElem_of_mem listed
    have numbered : place = index := by
      rw [← id_getElem ids' within, same.id_eq, id_getElem ids inside]
    subst numbered
    simpa using same

section Forest

variable {source : String} {path : Option String}

/-- The transformed program is a forest, as the parsed one is. -/
theorem transform_isForest (parsed : Program.parse source path = .ok program)
    (succeeds : program.transform table escapes = .ok transformed) :
    transformed.program.IsForest := by
  obtain ⟨ids, functions, -⟩ := parse_labels parsed
  have redraws := transform_redraws (parse_isSource parsed) succeeds
  have distinct := redraws.distinct ids
  have numbered := (redraws.functionIds functions).nodup_iff.mpr List.nodup_range
  rw [List.map_map] at distinct
  rw [List.filterMap_map] at numbered
  refine .of_distinct distinct numbered fun node member => ?_
  have placed : ∀ form ∈ program.top, form.expr.All
      (Expr.MadeOf (·.isDummy = false) fun _ => True) := by
    intro form inTop node inside
    have filed := (parse_filed parsed).enclose node (List.mem_flatMap.mpr ⟨form, inTop, inside⟩)
    exact ⟨filed.solid.isDummy, fun _ _ => trivial⟩
  obtain ⟨form, inTop, inside⟩ := List.mem_flatMap.mp member
  exact (transform_madeOf ⟨trivial, trivial⟩ succeeds placed form inTop node inside).place

/-- The functions of the transformed program are numbered in order. -/
theorem transform_functionIds (parsed : Program.parse source path = .ok program)
    (succeeds : program.transform table escapes = .ok transformed) :
    transformed.program.functions.map (·.signature.id) =
      List.range transformed.program.counters.functions := by
  have redraws := transform_redraws (parse_isSource parsed) succeeds
  have numbered := redraws.functionIds (parse_labels parsed).2.1
  rw [List.filterMap_map] at numbered
  exact functionIds_eq numbered

/-- Functions with new numbers are continuation functions. -/
theorem transform_added (parsed : Program.parse source path = .ok program)
    (succeeds : program.transform table escapes = .ok transformed) :
    ∀ function ∈ transformed.program.functions.drop program.functions.length,
      function.signature.kind = .continuation := by
  intro dressed member
  obtain ⟨index, inside, rfl⟩ := List.mem_drop_iff_getElem.mp member
  have bounded : program.functions.length + index < transformed.program.functions.length := by omega
  have id := id_getElem (transform_functionIds parsed succeeds) bounded
  obtain ⟨function, written, rewritten, ⟨wrappers, -, same⟩, ⟨params, rfl⟩ | ⟨_, _, rfl⟩⟩ :=
    transform_origin succeeds (List.mem_of_mem_drop member)
  · -- the number would be that of a function of the program
    obtain ⟨place, within, rfl⟩ := List.getElem_of_mem written
    have old := id_getElem (parse_functionIds parsed) within
    rw [same] at id
    have clash : place = program.functions.length + index := old.symm.trans id
    omega
  · rw [same]
    rfl

/-- The functions of a source are no continuation functions, and are none when kept. -/
theorem cut_of_kept (source : program.IsSource) {others : List Function}
    (kept : List.Forall₂ Function.Kept program.functions others) :
    ∀ other ∈ others, other.cut? = none := by
  obtain ⟨same, kept⟩ := List.forall₂_iff_get.mp kept
  intro other member
  obtain ⟨index, inside, rfl⟩ := List.getElem_of_mem member
  have within : index < program.functions.length := same ▸ inside
  obtain ⟨mark, written⟩ := Program.mem_functions.mp (List.getElem_mem within)
  obtain ⟨plain, -⟩ := source _ written
  have kind := (kept index within inside).kind_eq
  simp only [List.get_eq_getElem] at kind
  rw [Function.cut?, kind, plain]

/-- Continuation functions bind what captures bound. -/
theorem transform_cutNames (parsed : Program.parse source path = .ok program)
    (succeeds : program.transform table escapes = .ok transformed) :
    (transformed.program.functions.filterMap Function.cut?).Perm program.captured := by
  have redraws := transform_redraws (parse_isSource parsed) succeeds
  have names := redraws.cutNames
  rw [(parse_labels parsed).2.2, List.filterMap_map] at names
  refine ((transformed.program.functions_perm.filterMap _).trans ?_).trans names
  rw [List.filterMap_filterMap]
  refine .of_eq (List.filterMap_congr fun node member => ?_)
  have free := transform_free succeeds node member
  cases node with
  | fn => rfl
  | capture => cases free
  | _ => rfl

/-- Parsing builds a forest of expressions that enclose their parts. The transformation keeps it a
forest: toplevel forms stay as they are besides the functions in them, functions keep their numbers,
and those outside `tco` and `continuations` their bodies besides the functions in them. After them
come the continuation functions, one for each capture, which bind what the captures bound. -/
theorem transform_forest {source : String} {path : Option String}
    (parsed : Program.parse source path = .ok program) :
    (∀ node ∈ program.nodes, node.Encloses) ∧ program.IsForest ∧
    ∀ (table : DecoratorTable) (escapes : List String) (transformed : Transformed),
      program.transform table escapes = .ok transformed ->
        transformed.program.IsForest ∧
        transformed.program.top.map Toplevel.outline = program.top.map Toplevel.outline ∧
        List.Forall₂ Function.Kept program.functions
          (transformed.program.functions.take program.functions.length) ∧
        transformed.program.functions.map (·.signature.id) =
          List.range (program.functions.length + program.captured.length) ∧
        (∀ function ∈ transformed.program.functions.drop program.functions.length,
          function.signature.kind = .continuation) ∧
        ((transformed.program.functions.drop program.functions.length).map
          (·.signature.params)).Perm program.captured := by
  refine ⟨(parse_filed parsed).enclose, parse_isForest parsed, ?_⟩
  intro table escapes transformed succeeds
  obtain ⟨middle, rewriting, dressing⟩ := transform_mappingTop succeeds
  have outlines := (dressing.outline Dresses.keepNumbers).trans
    (rewriting.outline Rewrites.keepNumbers)
  have ids := transform_functionIds parsed succeeds
  have later := (transform_redraws (parse_isSource parsed) succeeds).later
  have kept := kept_in_order (parse_functionIds parsed) ids later
    fun function member => transform_kept succeeds member
  have added := transform_added parsed succeeds
  have bound : ((transformed.program.functions.drop program.functions.length).map
      (·.signature.params)).Perm program.captured := by
    have names := transform_cutNames parsed succeeds
    have plain := cut_of_kept (parse_isSource parsed) kept
    rw [← List.take_append_drop program.functions.length transformed.program.functions,
      List.filterMap_append, List.filterMap_eq_nil_iff.mpr plain, List.nil_append] at names
    rwa [← List.filterMap_eq_map, List.filterMap_congr fun function member => ?_]
    simp [Function.cut?, added function member]
  refine ⟨transform_isForest parsed succeeds, outlines, kept, ?_, added, bound⟩
  have count := bound.length_eq
  have all := congrArg List.length ids
  have old := congrArg List.length (parse_functionIds parsed)
  simp only [List.length_map, List.length_range, List.length_drop] at count all old
  rw [ids]
  congr 1
  omega

end Forest

end Program

/-- A block with two captures, one of them in a function inside the other. -/
def nestedCaptures : String :=
  "(continuations
    (defn outer (f)
      (capture (a b) (f 1))
      (let g (fn (h) (capture (c) (h 2)) c))
      (g a)))
  (defn plain (x) (fn () x))
  (plain 3)"

/-- A program with a capture inside another function's body is an instance, with both captures
cut. -/
theorem nestedCaptures_forest : ∃ transformed,
    (Program.ofText nestedCaptures).transform .default [] = .ok transformed ∧
    transformed.program.IsForest ∧
    (Program.ofText nestedCaptures).captured = [["a", "b"], ["c"]] ∧
    transformed.program.functions.map (·.signature.id) = List.range 6 := by
  have ⟨reads, functions, captured, ends⟩ :
      (Program.parse nestedCaptures none).toOption.isSome = true ∧
      (Program.ofText nestedCaptures).functions.length = 4 ∧
      (Program.ofText nestedCaptures).captured = [["a", "b"], ["c"]] ∧
      ((Program.ofText nestedCaptures).transform .default []).toOption.isSome = true := by
    rw [Program.ofText, nestedCaptures, Program.parse_ofList]
    decide +kernel
  cases succeeds : (Program.ofText nestedCaptures).transform .default [] with
  | error error => simp [succeeds, Except.toOption] at ends
  | ok transformed =>
    obtain ⟨-, -, keeps⟩ := Program.transform_forest (Program.parse_ofText reads)
    obtain ⟨forest, -, -, ids, -⟩ := keeps .default [] transformed succeeds
    rw [functions, captured] at ids
    exact ⟨transformed, rfl, forest, captured, ids⟩

end Trampoline
