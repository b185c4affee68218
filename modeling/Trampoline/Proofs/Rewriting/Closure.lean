import Trampoline.Proofs.Rewriting.Inner
import Trampoline.Proofs.Syntax.Owners

/-!
# Kinds of expressions that rewriting keeps

The transformation makes expressions of expressions in a few ways only. A kind of expression that
each of them keeps is that of all expressions in a transformed program if it is that of all in the
program.
-/

namespace Trampoline

open Transform

variable {becomes : Function -> Function -> Prop}

/-! ## Parts -/

variable {e e' : Expr} {es es' : List Expr} {later : Expr -> Prop}

/-- An expression that holds no function owns its children. -/
theorem Expr.parts_eq_children (none : e.function? = none) : e.parts = e.children := by
  cases e with
  | fn => cases none
  | _ => rfl

theorem Expr.all_parts {kind : Expr -> Prop} :
    e.All kind ↔ kind e ∧ ∀ part ∈ e.parts, part.All kind := by
  simp only [Expr.All, e.nodes_parts, nodesOfAll_eq_flatMap, List.forall_mem_cons,
    List.forall_mem_flatMap]

theorem MappingAll.append {first first' second second' : List Expr}
    (mapping : MappingAll becomes first first') (mapping' : MappingAll becomes second second') :
    MappingAll becomes (first ++ second) (first' ++ second') := by
  induction first generalizing first' with
  | nil =>
    cases mapping
    exact mapping'
  | cons e rest ih =>
    cases mapping with
    | cons first others => exact .cons first (ih others)

/-- The values of mapped keyword arguments are mapped. -/
theorem MappingNamed.values {kwargs kwargs' : List (String × Expr)}
    (mapping : MappingNamed becomes kwargs kwargs') :
    MappingAll becomes (kwargs.map Prod.snd) (kwargs'.map Prod.snd) := by
  induction kwargs generalizing kwargs' with
  | nil =>
    cases mapping
    exact .nil
  | cons first rest ih =>
    cases mapping with
    | cons first others => exact .cons first (ih others)

/-- The tests and bodies of mapped arms are mapped. -/
theorem MappingArms.exprs {arms arms' : List (Expr × Expr)}
    (mapping : MappingArms becomes arms arms') :
    MappingAll becomes (arms.flatMap fun (test, body) => [test, body])
      (arms'.flatMap fun (test, body) => [test, body]) := by
  induction arms generalizing arms' with
  | nil =>
    cases mapping
    exact .nil
  | cons first rest ih =>
    cases mapping with
    | cons test body others => exact .cons test (.cons body (ih others))

/-- Each of the mapped expressions comes from one of the expressions. -/
theorem MappingAll.origin (mapping : MappingAll becomes es es')
    (member : e' ∈ es') : ∃ e ∈ es, Mapping becomes e e' := by
  induction es generalizing es' with
  | nil =>
    cases mapping
    exact absurd member List.not_mem_nil
  | cons e rest ih =>
    cases mapping with
    | cons first others =>
      rcases List.mem_cons.mp member with rfl | later
      · exact ⟨e, List.mem_cons_self, first⟩
      · exact (ih others later).imp fun _ found => ⟨List.mem_cons_of_mem _ found.1, found.2⟩

/-- An expression becomes another by what its function becomes, or by what its parts become. -/
inductive Mapping.Case (becomes : Function -> Function -> Prop) (e e' : Expr) : Prop where
  | function {mark signature body body' function} (whole : e = .fn mark signature body)
      (result : e' = .fn mark function.signature function.body)
      (inside : Mapping becomes body body') (self : becomes ⟨signature, body'⟩ function)
  | parts (held : e.function? = none) (held' : e'.function? = none)
      (same : e'.isCapture = e.isCapture) (parts : MappingAll becomes e.parts e'.parts)

/-- The two ways in which expressions become others. -/
theorem Mapping.split (mapping : Mapping becomes e e') : Mapping.Case becomes e e' := by
  cases mapping with
  | fn inside self => exact .function rfl rfl inside self
  | lit | var => exact .parts rfl rfl rfl .nil
  | call func args kwargs => exact .parts rfl rfl rfl (.cons func (args.append kwargs.values))
  | condNone arms => exact .parts rfl rfl rfl (arms.exprs.append .nil)
  | condSome arms alt => exact .parts rfl rfl rfl (arms.exprs.append (.cons alt .nil))
  | short operands => exact .parts rfl rfl rfl operands
  | seq items => exact .parts rfl rfl rfl items
  | bind bindee | assign bindee => exact .parts rfl rfl rfl (.cons bindee .nil)
  | loop test body => exact .parts rfl rfl rfl (.cons test (.cons body .nil))
  | jumpNone func args kwargs =>
    exact .parts rfl rfl rfl ((MappingAll.cons func (args.append kwargs.values)).append .nil)
  | jumpSome func args kwargs cc =>
    exact .parts rfl rfl rfl
      ((MappingAll.cons func (args.append kwargs.values)).append (.cons cc .nil))
  | capture call => exact .parts rfl rfl rfl (.cons call .nil)

/-! ## Ways of rewriting -/

/-- The ways in which rewriting a body makes an expression keep the kind. Jumps on the tail path of
a body, which take its continuation along, are asked about only if there can be any. -/
structure ClosedUnderRewriting (escapes : List String) (jumps : Prop) (kind : Expr -> Prop) :
    Prop where
  moved {e mark} : kind e -> mark.span = e.span -> kind (e.withMark mark)
  block {e mark items} : kind e -> mark.span = e.span -> kind (.seq mark items)
  cond {mark arms arms' alt alt'} : kind (.cond mark arms alt) -> kind (.cond mark arms' alt')
  short {mark op es es'} : kind (.short mark op es) -> kind (.short mark op es')
  continuation {e mark} : kind e -> mark.span = e.span -> kind (.var mark continuationParam)
  nil {e mark} : kind e -> mark.span = e.span -> kind (.lit mark .nil)
  handOver {e mark ccMark value} : kind e -> mark.span = e.span ->
    kind (.jump mark (.var ccMark continuationParam) [value] [] none)
  defer {mark func args kwargs} : func.isNameIn escapes = false ->
    kind (.call mark func args kwargs) -> kind (.jump mark func args kwargs none)
  pass {mark ccMark func args kwargs} : func.isNameIn escapes = false ->
    kind (.call mark func args kwargs) ->
      kind (.jump mark func args kwargs (some (.var ccMark continuationParam)))
  passJump {mark ccMark func args kwargs} : jumps -> kind (.jump mark func args kwargs none) ->
    kind (.jump mark func args kwargs (some (.var ccMark continuationParam)))
  cutCall {mark binders callMark func args kwargs jump cont regions id rest} :
    kind (.capture mark binders (.call callMark func args kwargs)) ->
    kind (.call callMark func args kwargs) -> jump.span = mark.span ->
      kind (.jump jump func args kwargs
        (some (.fn cont (continuationSignature regions id binders) rest)))
  cutRest {mark binders e cont regions id rest} : kind (.capture mark binders e) ->
    cont.span = mark.span -> kind (.fn cont (continuationSignature regions id binders) rest)

variable {escapes : List String} {jumps : Prop} {kind : Expr -> Prop}
  {table : DecoratorTable}

namespace ClosedUnderRewriting

/-! ## Small steps -/

theorem newMark_span (span : Span) : Produces True (newMark span) (·.span = span) :=
  ⟨fun _ => .inl ⟨_, _, rfl, rfl⟩⟩

theorem relocate_withMark (e : Expr) :
    Produces True (relocate e) fun item => ∃ mark, mark.span = e.span ∧ item = e.withMark mark :=
  .bind (newMark_span _) fun mark place => .pure ⟨mark, place, rfl⟩

variable {e : Expr}

/-- Jumps on the tail path stay what they are when an expression moves. -/
theorem jump_withMark (path : ∀ node ∈ e.tailPath, node.isJump = true -> jumps)
    {mark : Mark} : ∀ node ∈ (e.withMark mark).tailPath, node.isJump = true -> jumps := by
  have split : ∀ e : Expr, e.tailPath = e :: e.tailPath.tail := by
    intro e
    cases e <;> unfold Expr.tailPath <;> rfl
  have rest : (e.withMark mark).tailPath.tail = e.tailPath.tail := by
    cases e <;> unfold Expr.withMark Expr.tailPath <;> rfl
  have own : (e.withMark mark).isJump = e.isJump := by cases e <;> rfl
  rw [split] at path
  rw [split, rest]
  simpa [own] using path

theorem allOf_one (all : e.All kind) : AllOf kind [e] :=
  allOf_cons.mpr ⟨all, List.forall_mem_nil _⟩

section Steps

variable (closed : ClosedUnderRewriting escapes jumps kind)

include closed

variable {e : Expr}

/-- The variable of the continuation is of the kind. -/
theorem continuationVar (ofKind : kind e) : Produces True (continuationVar e.span) fun cc =>
      ∃ mark, cc = .var mark continuationParam ∧ cc.All kind := by
  refine .bind (newMark_span _) fun mark place => .pure ⟨mark, rfl, ?_⟩
  exact List.forall_mem_singleton.mpr (closed.continuation ofKind place)

/-- With a mark for the same place all nodes stay of the kind. -/
theorem all_moved (all : e.All kind) {mark : Mark} (place : mark.span = e.span) :
    (e.withMark mark).All kind := by
  refine Expr.all_parts.mpr ⟨closed.moved all.self place, ?_⟩
  obtain ⟨-, parts⟩ := Expr.all_parts.mp all
  cases e <;> exact parts

/-- Handing `nil` over makes nodes of the kind only. -/
theorem handOverNil (ofKind : kind e) : Produces True (handOverNil e.span) (·.All kind) := by
  refine .bind (newMark_span _) fun litMark litPlace => ?_
  refine .bind (closed.continuationVar ofKind) ?_
  rintro _ ⟨ccMark, rfl, ofCc⟩
  refine .bind (newMark_span _) fun mark place => .pure ?_
  refine Expr.all_jump_none.mpr ⟨closed.handOver ofKind place, ofCc, allOf_one ?_, nofun⟩
  exact List.forall_mem_singleton.mpr (closed.nil ofKind litPlace)

/-- Handing a value over makes nodes of the kind only. -/
theorem relocate_handOver (all : e.All kind) :
    Produces True (relocate e >>= fun value => Transform.handOver e.mark value) (·.All kind) := by
  refine .bind (relocate_withMark e) ?_
  rintro _ ⟨mark, place, rfl⟩
  refine .bind (closed.continuationVar all.self) ?_
  rintro _ ⟨ccMark, rfl, ofCc⟩
  exact .pure (Expr.all_jump_none.mpr
    ⟨closed.handOver all.self rfl, ofCc, allOf_one (closed.all_moved all place), nofun⟩)

end Steps

/-! ## Bodies -/

mutual

/-- Passing returns keeps the kind of all expressions. -/
theorem passTails_all (closed : ClosedUnderRewriting escapes jumps kind) : ∀ e : Expr, e.All kind ->
    (∀ node ∈ e.tailPath, node.isJump = true -> jumps) ->
      Produces True (passTails escapes e) (·.All kind)
  | .seq mark [], all, _ => by
    refine .bind (closed.handOverNil all.self) fun jump ofJump => .pure ?_
    exact Expr.all_seq.mpr ⟨closed.block all.self rfl, allOf_one ofJump⟩
  | .seq mark (e :: rest), all, path =>
    .bind (closed.passLast_all (e :: rest) (Expr.all_seq.mp all).2 fun node inside =>
      path node (List.mem_cons_of_mem _ inside)) fun items ofItems =>
        .pure (Expr.all_seq.mpr ⟨closed.block all.self rfl, ofItems⟩)
  | .cond mark arms none, all, path =>
    .bind (closed.passArms_all arms (Expr.all_cond_none.mp all).2 fun node inside =>
      path node (List.mem_cons_of_mem _ (List.mem_append_left _ inside))) fun arms ofArms =>
        .pure (Expr.all_cond_none.mpr ⟨closed.cond all.self, ofArms⟩)
  | .cond mark arms (some e), all, path => by
    obtain ⟨-, ofArms, ofAlt⟩ := Expr.all_cond_some.mp all
    refine .bind (closed.passArms_all arms ofArms fun node inside =>
      path node (List.mem_cons_of_mem _ (List.mem_append_left _ inside))) fun arms ofArms => ?_
    refine .bind (closed.passTails_all e ofAlt fun node inside =>
      path node (List.mem_cons_of_mem _ (List.mem_append_right _ inside))) fun alt ofAlt => ?_
    exact .pure (Expr.all_cond_some.mpr ⟨closed.cond all.self, ofArms, ofAlt⟩)
  | .short mark op [], all, _ => closed.relocate_handOver all
  | .short mark op (e :: rest), all, path =>
    .bind (closed.passLast_all (e :: rest) (Expr.all_short.mp all).2 fun node inside =>
      path node (List.mem_cons_of_mem _ inside)) fun es ofOperands =>
        .pure (Expr.all_short.mpr ⟨closed.short all.self, ofOperands⟩)
  | .call mark func args kwargs, all, _ => by
    obtain ⟨own, ofFunc, ofArgs, ofKwargs⟩ := Expr.all_call.mp all
    simp only [passTails]
    split
    · exact .pure all
    · next other =>
      refine .bind (closed.continuationVar own) ?_
      rintro _ ⟨ccMark, rfl, ofCc⟩
      exact .pure (Expr.all_jump_some.mpr
        ⟨closed.pass (Bool.eq_false_iff.mpr other) own, ofFunc, ofArgs, ofKwargs, ofCc⟩)
  | .jump mark func args kwargs none, all, path => by
    obtain ⟨own, ofFunc, ofArgs, ofKwargs⟩ := Expr.all_jump_none.mp all
    have jumps := path _ (Expr.self_mem_tailPath _) rfl
    refine .bind (closed.continuationVar own) ?_
    rintro _ ⟨ccMark, rfl, ofCc⟩
    exact .pure (Expr.all_jump_some.mpr
      ⟨closed.passJump jumps own, ofFunc, ofArgs, ofKwargs, ofCc⟩)
  | .jump mark func args kwargs (some cc), all, _ => .pure all
  | .lit .., all, _ | .var .., all, _ | .fn .., all, _ | .bind .., all, _ | .assign .., all, _
  | .loop .., all, _ | .capture .., all, _ => closed.relocate_handOver all

theorem passLast_all (closed : ClosedUnderRewriting escapes jumps kind) : ∀ es : List Expr,
    AllOf kind es ->
    (∀ node ∈ tailPathOfLast es, node.isJump = true -> jumps) ->
      Produces True (passLast escapes es) (AllOf kind)
  | [], all, _ => .pure all
  | [e], all, path =>
    .bind (closed.passTails_all e (allOf_cons.mp all).1 path) fun e ofE => .pure (allOf_one ofE)
  | e :: next :: rest, all, path => by
    obtain ⟨first, others⟩ := allOf_cons.mp all
    exact .bind (closed.passLast_all (next :: rest) others path) fun rest others =>
      .pure (allOf_cons.mpr ⟨first, others⟩)

theorem passArms_all (closed : ClosedUnderRewriting escapes jumps kind) :
    ∀ arms : List (Expr × Expr), AllOfArms kind arms ->
    (∀ node ∈ tailPathOfArms arms, node.isJump = true -> jumps) ->
      Produces True (passArms escapes arms) (AllOfArms kind)
  | [], all, _ => .pure all
  | (test, body) :: rest, all, path => by
    obtain ⟨tests, bodies, others⟩ := allOfArms_cons.mp all
    refine .bind (closed.passTails_all body bodies fun node inside =>
      path node (List.mem_append_left _ inside)) fun body bodies => ?_
    exact .bind (closed.passArms_all rest others fun node inside =>
      path node (List.mem_append_right _ inside)) fun rest others =>
        .pure (allOfArms_cons.mpr ⟨tests, bodies, others⟩)

end

mutual

/-- Deferring calls keeps the kind of all expressions. -/
theorem deferTails_all (closed : ClosedUnderRewriting escapes jumps kind) : ∀ {e : Expr},
    e.All kind -> (e.deferTails escapes).All kind
  | .seq .., all => Expr.all_seq.mpr
    ⟨closed.block all.self rfl, closed.deferLast_all (Expr.all_seq.mp all).2⟩
  | .cond _ _ none, all => Expr.all_cond_none.mpr
    ⟨closed.cond all.self, closed.deferArms_all (Expr.all_cond_none.mp all).2⟩
  | .cond _ _ (some _), all => by
    obtain ⟨-, ofArms, ofAlt⟩ := Expr.all_cond_some.mp all
    exact Expr.all_cond_some.mpr
      ⟨closed.cond all.self, closed.deferArms_all ofArms, closed.deferTails_all ofAlt⟩
  | .short .., all => Expr.all_short.mpr
    ⟨closed.short all.self, closed.deferLast_all (Expr.all_short.mp all).2⟩
  | .call .., all => by
    obtain ⟨own, ofFunc, ofArgs, ofKwargs⟩ := Expr.all_call.mp all
    simp only [Expr.deferTails]
    split
    · exact all
    · next other =>
      exact Expr.all_jump_none.mpr
        ⟨closed.defer (Bool.eq_false_iff.mpr other) own, ofFunc, ofArgs, ofKwargs⟩
  | .lit .., all | .var .., all | .fn .., all | .bind .., all | .assign .., all | .loop .., all
  | .jump .., all | .capture .., all => all

theorem deferLast_all (closed : ClosedUnderRewriting escapes jumps kind) : ∀ {es : List Expr},
    AllOf kind es -> AllOf kind (deferLast escapes es)
  | [], all => all
  | [_], all => allOf_one (closed.deferTails_all (allOf_cons.mp all).1)
  | _ :: _ :: _, all => by
    obtain ⟨first, others⟩ := allOf_cons.mp all
    exact allOf_cons.mpr ⟨first, closed.deferLast_all others⟩

theorem deferArms_all (closed : ClosedUnderRewriting escapes jumps kind) :
    ∀ {arms : List (Expr × Expr)}, AllOfArms kind arms -> AllOfArms kind (deferArms escapes arms)
  | [], all => all
  | (_, _) :: _, all => by
    obtain ⟨tests, bodies, others⟩ := allOfArms_cons.mp all
    exact allOfArms_cons.mpr ⟨tests, closed.deferTails_all bodies, closed.deferArms_all others⟩

end

/-- Cutting a block keeps the kind of all expressions. The pieces stand where the block `e` and its
captures stand. -/
theorem cutItems_all (closed : ClosedUnderRewriting escapes jumps kind) (owner : Owner)
    (regions : Regions) (items : List Expr) (ofKind : kind e) (all : AllOf kind items)
    (path : ∀ node ∈ tailPathOfLast items, node.isJump = true -> jumps) :
    Produces True (cutItems escapes owner regions e.span items) (AllOf kind) := by
  induction items generalizing e with
  | nil =>
    simp only [cutItems]
    exact .bind (closed.handOverNil ofKind) fun jump ofJump => .pure (allOf_one ofJump)
  | cons item rest after =>
    obtain ⟨ofItem, ofRest⟩ := allOf_cons.mp all
    have later : ∀ node ∈ tailPathOfLast rest, node.isJump = true -> jumps := by
      cases rest with
      | nil => simp [tailPathOfLast]
      | cons next others => exact path
    cases isCapture : item.isCapture with
    | true =>
      cases item with
      | capture mark binders captured =>
        obtain ⟨own, ofCaptured⟩ := Expr.all_capture.mp ofItem
        simp only [cutItems]
        refine .bind (.any _) fun _ _ => ?_
        cases captured with
        | call callMark func args kwargs =>
          obtain ⟨ownCall, ofFunc, ofArgs, ofKwargs⟩ := Expr.all_call.mp ofCaptured
          refine .bind (newMark_span _) fun bodyMark bodyPlace => ?_
          refine .bind (after own ofRest later) fun items cut => ?_
          refine .bind (.any _) fun _ _ => .bind (.any _) fun id _ => ?_
          refine .bind (newMark_span _) fun cont contPlace => ?_
          refine .bind (newMark_span _) fun jump jumpPlace => .pure ?_
          have body : (Expr.seq bodyMark items).All kind :=
            Expr.all_seq.mpr ⟨closed.block own bodyPlace, cut⟩
          have ownCc : kind (.fn cont (continuationSignature regions id binders)
            (.seq bodyMark items)) := closed.cutRest own contPlace
          have ofCc := Expr.all_fn.mpr ⟨ownCc, body⟩
          exact allOf_one (Expr.all_jump_some.mpr
            ⟨closed.cutCall own ownCall jumpPlace, ofFunc, ofArgs, ofKwargs, ofCc⟩)
        | _ => exact ⟨fun _ => .inr ⟨trivial, _, rfl⟩⟩
      | _ => cases isCapture
    | false =>
      cases rest with
      | nil =>
        rw [cutItems_one isCapture]
        exact .bind (.any _) fun _ _ => .bind (closed.passTails_all item ofItem path)
          fun item ofItem => .pure (allOf_one ofItem)
      | cons next rest =>
        rw [cutItems_cons isCapture]
        exact .bind (.any _) fun _ _ => .bind (after ofKind ofRest path)
          fun items cut => .pure (allOf_cons.mpr ⟨ofItem, cut⟩)

/-- Cutting a body keeps all nodes of the kind. -/
theorem cutBody_all (closed : ClosedUnderRewriting escapes jumps kind) (owner : Owner)
    (regions : Regions) {body : Expr} (all : body.All kind)
    (path : ∀ node ∈ body.tailPath, node.isJump = true -> jumps) :
    Produces True (cutBody escapes owner regions body) (·.All kind) := by
  have own := all.self
  cases body with
  | seq mark items =>
    refine .bind (closed.cutItems_all owner regions items own (Expr.all_seq.mp all).2
      fun node inside => path node (List.mem_cons_of_mem _ inside)) fun items cut => ?_
    exact .pure (Expr.all_seq.mpr ⟨closed.block own rfl, cut⟩)
  | _ =>
    refine .bind (relocate_withMark _) ?_
    rintro _ ⟨mark, place, rfl⟩
    refine .bind (closed.cutItems_all owner regions [_] own
      (allOf_one (closed.all_moved all place)) ?_) fun items cut => ?_
    · exact jump_withMark path
    · exact .pure (Expr.all_seq.mpr ⟨closed.block own rfl, cut⟩)

/-- Rewriting a body keeps the kind of all expressions in it. -/
theorem functionBody_all (closed : ClosedUnderRewriting escapes jumps kind) {function : Function}
    (all : function.body.All kind)
    (path : ∀ node ∈ function.body.tailPath, node.isJump = true -> jumps) :
    Produces True (functionBody escapes function) (·.body.All kind) := by
  unfold functionBody
  by_cases continuations : function.signature.regions.cont = true
  · simp only [if_pos continuations]
    refine .bind (.any _) fun _ _ => ?_
    exact .bind (closed.cutBody_all _ _ all path) fun body all => .pure all
  · simp only [if_neg continuations]
    refine .bind (.any _) fun _ _ => ?_
    by_cases deferred : function.signature.regions.tco = true
    · simp only [if_pos deferred]
      exact .bind (.any _) fun _ _ => .pure (closed.deferTails_all all)
    · simp only [if_neg deferred]
      exact .pure all

end ClosedUnderRewriting

/-! ## Steps on every function -/

/-- Steps on every function lead from one kind of expressions to another, if each function that
becomes another does, and each expression whose parts become others. -/
theorem Mapping.all (mapping : Mapping becomes e e')
    (function : ∀ mark signature body body' function, (Expr.fn mark signature body).All kind ->
      Mapping becomes body body' -> body'.All later -> becomes ⟨signature, body'⟩ function ->
        (Expr.fn mark function.signature function.body).All later)
    (parts : ∀ e e', e.function? = none -> Mapping becomes e e' -> kind e -> later e')
    (all : e.All kind) : e'.All later := by
  induction e using Expr.induct_parts generalizing e' with
  | whole e ih =>
    obtain ⟨own, ofParts⟩ := Expr.all_parts.mp all
    rcases mapping.split with ⟨rfl, rfl, inside, self⟩ | ⟨held, -, -, mapped⟩
    · have ofBody := ih _ List.mem_cons_self inside (ofParts _ List.mem_cons_self)
      exact function _ _ _ _ _ all inside ofBody self
    · refine Expr.all_parts.mpr ⟨parts e e' held mapping own, fun part' member => ?_⟩
      obtain ⟨part, listed, became⟩ := mapped.origin member
      exact ih part listed became (ofParts part listed)

/-- Several expressions, one by one. -/
theorem MappingAll.all (mapping : MappingAll becomes es es')
    (each : ∀ e e', Mapping becomes e e' -> e.All kind -> e'.All later) (all : AllOf kind es) :
    AllOf later es' := by
  rw [AllOf, nodesOfAll_eq_flatMap, List.forall_mem_flatMap] at all ⊢
  intro e' member
  obtain ⟨e, listed, mapped⟩ := mapping.origin member
  exact each e e' mapped (all e listed)

end Trampoline
