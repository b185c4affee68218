import Trampoline.Proofs.Escapes.Returns
import Trampoline.Proofs.Jumps.Rules

/-!
# Jumps of transformed programs

A source has no jumps. Rewriting a body puts jumps at its end, and into no function but those that
will get a trampoline; cutting it puts them at the end of each piece. The wrappers then hold the
trampolines.
-/

namespace Trampoline

open Transform

/-- No decorator of the function passes it a handle to itself. -/
def Signature.Unlooped (signature : Signature) : Prop :=
  ∀ written ∈ signature.decorators, written.1 ≠ Decorator.looped.name

namespace JumpRules

/-- Functions as a source without jumps has them. -/
def source : JumpRules where
  admits signature := signature.kind = .plain ∧ signature.Unlooped ∧
    (signature.regions.cont = true -> signature.regions.tco = true)
  loose _ := false

/-- Functions with rewritten bodies, before they get their wrappers. -/
def rewritten : JumpRules where
  admits signature := signature.kind = .plain -> signature.Unlooped
  loose signature := signature.kind = .continuation || signature.regions.tco

/-- Functions with their wrappers: a body that ends with a jump is run by a trampoline. -/
def dressed : JumpRules where
  admits signature := signature.kind = .plain -> .looped ∉ signature.wrappers
  loose signature := signature.kind = .continuation || signature.wrappers.contains .trampolined

end JumpRules

variable {rules : JumpRules} {escapes : List String} {table : DecoratorTable}

/-! ## Bodies -/

mutual

/-- Deferred calls are jumps at the end of the body. -/
theorem Expr.Obeys.deferTails :
    ∀ {e : Expr}, e.Obeys rules false -> (e.deferTails escapes).Obeys rules true
  | .seq .., obeys | .short .., obeys => by
    simp only [Expr.deferTails, Expr.Obeys] at obeys ⊢
    exact LastObeys.deferLast obeys
  | .cond _ _ none, obeys => by
    simp only [Expr.deferTails, Expr.Obeys] at obeys ⊢
    exact ⟨ArmsObey.deferArms obeys.1, trivial⟩
  | .cond _ _ (some _), obeys => by
    simp only [Expr.deferTails, Expr.Obeys] at obeys ⊢
    exact ⟨ArmsObey.deferArms obeys.1, Expr.Obeys.deferTails obeys.2⟩
  | .call .., obeys => by
    simp only [Expr.deferTails]
    split
    · exact obeys.strict
    · simp only [Expr.Obeys] at obeys ⊢
      exact ⟨trivial, obeys.1, obeys.2.1, obeys.2.2, trivial⟩
  | .lit .., obeys | .var .., obeys | .fn .., obeys | .bind .., obeys | .assign .., obeys
  | .loop .., obeys | .jump .., obeys | .capture .., obeys => obeys.strict

theorem LastObeys.deferLast : ∀ {es : List Expr}, LastObeys rules false es ->
    LastObeys rules true (Trampoline.deferLast escapes es)
  | [], _ => by simp only [Trampoline.deferLast, LastObeys]
  | [_], obeys => by
    simp only [Trampoline.deferLast, LastObeys] at obeys ⊢
    exact Expr.Obeys.deferTails obeys
  | e :: next :: rest, obeys => by
    obtain ⟨first, others⟩ := lastObeys_cons.mp obeys
    have deferred := LastObeys.deferLast others
    have same : Trampoline.deferLast escapes (e :: next :: rest) =
        e :: Trampoline.deferLast escapes (next :: rest) := by simp only [Trampoline.deferLast]
    rw [same]
    cases kept : Trampoline.deferLast escapes (next :: rest) with
    | nil => simpa only [LastObeys] using first.strict
    | cons => exact lastObeys_cons.mpr ⟨first, kept ▸ deferred⟩

theorem ArmsObey.deferArms : ∀ {arms : List (Expr × Expr)}, ArmsObey rules false arms ->
    ArmsObey rules true (Trampoline.deferArms escapes arms)
  | [], _ => by simp only [Trampoline.deferArms, ArmsObey]
  | (_, _) :: _, obeys => by
    simp only [Trampoline.deferArms, ArmsObey] at obeys ⊢
    exact ⟨obeys.1, Expr.Obeys.deferTails obeys.2.1, ArmsObey.deferArms obeys.2.2⟩

end

variable {e : Expr} {program : Program}

theorem LastObeys.cons {rest : List Expr} {jumps : Bool}
    (first : e.Obeys rules false) (others : LastObeys rules jumps rest) :
    LastObeys rules jumps (e :: rest) := by
  cases rest with
  | nil => simpa only [LastObeys] using first.strict
  | cons next rest => exact lastObeys_cons.mpr ⟨first, others⟩

theorem relocate_obeys (obeys : e.Obeys rules false) :
    Produces True (relocate e) (·.Obeys rules false) :=
  .bind (.any _) fun mark _ => .pure (obeys.withMark mark)

/-- Handing a value over to the continuation is a jump at the end. -/
theorem relocate_handOver_obeys (obeys : e.Obeys rules false) (mark : Mark) :
    Produces True (relocate e >>= fun value => handOver mark value) (·.Obeys rules true) := by
  refine .bind (relocate_obeys obeys) fun value ofValue => ?_
  refine .bind (continuationVar_produces mark.span) ?_
  rintro _ ⟨ccMark, rfl⟩
  refine .pure ?_
  simp only [Expr.Obeys, AllObey, AllNamedObey]
  exact ⟨trivial, trivial, ⟨ofValue, trivial⟩, trivial, trivial⟩

/-- Handing `nil` over to the continuation is a jump at the end. -/
theorem handOverNil_obeys (rules : JumpRules) (span : Span) :
    Produces True (handOverNil span) (·.Obeys rules true) := by
  refine (handOverNil_produces span).imp ?_
  rintro _ ⟨mark, ccMark, litMark, rfl⟩
  simp only [Expr.Obeys, AllObey, AllNamedObey, and_self]

mutual

/-- What hands over a return is a jump at the end of the body. -/
theorem passTails_obeys : ∀ {e : Expr}, e.Obeys rules false ->
    Produces True (passTails escapes e) (·.Obeys rules true)
  | .seq mark [], _ => by
    simp only [passTails]
    refine .bind (handOverNil_obeys rules mark.span) fun jump obeys => .pure ?_
    simpa only [Expr.Obeys, LastObeys] using obeys
  | .seq mark (e :: rest), obeys => by
    simp only [passTails, Expr.Obeys] at obeys ⊢
    refine .bind (passLast_obeys obeys) fun items obeys => .pure ?_
    simpa only [Expr.Obeys] using obeys
  | .cond mark arms none, obeys => by
    simp only [passTails, Expr.Obeys] at obeys ⊢
    refine .bind (passArms_obeys obeys.1) fun arms obeys => .pure ?_
    simpa only [Expr.Obeys, and_true] using obeys
  | .cond mark arms (some e), obeys => by
    simp only [passTails, Expr.Obeys] at obeys ⊢
    refine .bind (passArms_obeys obeys.1) fun arms ofArms => ?_
    refine .bind (passTails_obeys obeys.2) fun e ofAlt => .pure ?_
    simpa only [Expr.Obeys] using ⟨ofArms, ofAlt⟩
  | .short mark op [], obeys => relocate_handOver_obeys obeys mark
  | .short mark op (e :: rest), obeys => by
    simp only [passTails, Expr.Obeys] at obeys ⊢
    refine .bind (passLast_obeys obeys) fun operands obeys => .pure ?_
    simpa only [Expr.Obeys] using obeys
  | .call mark func args kwargs, obeys => by
    simp only [passTails]
    split
    · exact .pure obeys.strict
    · refine .bind (continuationVar_produces mark.span) ?_
      rintro _ ⟨ccMark, rfl⟩
      refine .pure ?_
      simp only [Expr.Obeys] at obeys ⊢
      exact ⟨trivial, obeys.1, obeys.2.1, obeys.2.2, trivial⟩
  | .jump _ _ _ _ none, obeys | .jump _ _ _ _ (some _), obeys => by
    simp only [Expr.Obeys] at obeys
    cases obeys.1
  | .lit mark value, obeys => relocate_handOver_obeys obeys mark
  | .var mark name, obeys => relocate_handOver_obeys obeys mark
  | .fn mark signature body, obeys => relocate_handOver_obeys obeys mark
  | .bind mark name e, obeys => relocate_handOver_obeys obeys mark
  | .assign mark name e, obeys => relocate_handOver_obeys obeys mark
  | .loop mark test body, obeys => relocate_handOver_obeys obeys mark
  | .capture mark binders e, obeys => relocate_handOver_obeys obeys mark

theorem passLast_obeys : ∀ {es : List Expr}, LastObeys rules false es ->
    Produces True (passLast escapes es) (LastObeys rules true)
  | [], _ => by
    simp only [passLast]
    exact .pure (by simp only [LastObeys])
  | [e], obeys => by
    simp only [passLast, LastObeys] at obeys ⊢
    refine .bind (passTails_obeys obeys) fun e obeys => .pure ?_
    simpa only [LastObeys] using obeys
  | e :: next :: rest, obeys => by
    obtain ⟨first, others⟩ := lastObeys_cons.mp obeys
    simp only [passLast]
    exact .bind (passLast_obeys others) fun rest others => .pure (.cons first others)

theorem passArms_obeys : ∀ {arms : List (Expr × Expr)}, ArmsObey rules false arms ->
    Produces True (passArms escapes arms) (ArmsObey rules true)
  | [], _ => by
    simp only [passArms]
    exact .pure (by simp only [ArmsObey])
  | (test, body) :: rest, obeys => by
    simp only [passArms, ArmsObey] at obeys ⊢
    refine .bind (passTails_obeys obeys.2.1) fun body bodies => ?_
    refine .bind (passArms_obeys obeys.2.2) fun rest others => .pure ?_
    simpa only [ArmsObey] using ⟨obeys.1, bodies, others⟩

end

/-- Each piece of a cut block ends with a jump; the rest of it is a continuation function. -/
theorem cutItems_obeys (owner : Owner) (regions : Regions) {items : List Expr} (span : Span)
    (obeys : LastObeys .rewritten false items) :
    Produces True (cutItems escapes owner regions span items) (LastObeys .rewritten true) := by
  induction items generalizing span with
  | nil =>
    simp only [cutItems]
    refine .bind (handOverNil_obeys .rewritten span) fun jump obeys => .pure ?_
    simpa only [LastObeys] using obeys
  | cons item rest after =>
    obtain ⟨ofItem, -, ofRest⟩ := obeys.first
    cases isCapture : item.isCapture with
    | true =>
      cases item with
      | capture mark binders captured =>
        simp only [cutItems, Expr.Obeys] at ofItem ⊢
        refine .bind (.any _) fun _ _ => ?_
        cases captured with
        | call callMark func args kwargs =>
          refine .bind (.any _) fun bodyMark _ => ?_
          refine .bind (after mark.span ofRest) fun items cut => ?_
          refine .bind (.any _) fun _ _ => .bind (.any _) fun id _ => ?_
          refine .bind (.any _) fun cont _ => .bind (.any _) fun jump _ => .pure ?_
          simp only [Expr.Obeys, LastObeys] at ofItem ⊢
          refine ⟨trivial, ofItem.1, ofItem.2.1, ofItem.2.2, ?_, cut⟩
          rintro ⟨⟩
        | _ => exact ⟨fun _ => .inr ⟨trivial, _, rfl⟩⟩
      | _ => cases isCapture
    | false =>
      cases rest with
      | nil =>
        rw [cutItems_one isCapture]
        refine .bind (.any _) fun _ _ => .bind (passTails_obeys ofItem) fun item obeys => .pure ?_
        simpa only [LastObeys] using obeys
      | cons next rest =>
        rw [cutItems_cons isCapture]
        exact .bind (.any _) fun _ _ => .bind (after span ofRest)
          fun items cut => .pure (.cons ofItem cut)

/-- The pieces of a body that is cut end with jumps and have none elsewhere. -/
theorem cutBody_obeys (owner : Owner) (regions : Regions) {body : Expr}
    (obeys : body.Obeys .rewritten false) :
    Produces True (cutBody escapes owner regions body) (·.Obeys .rewritten true) := by
  cases body with
  | seq mark items =>
    simp only [Expr.Obeys] at obeys
    refine .bind (cutItems_obeys owner regions mark.span obeys) fun items cut => .pure ?_
    simpa only [Expr.Obeys] using cut
  | _ =>
    refine .bind (relocate_obeys obeys) fun item ofItem => ?_
    have alone : LastObeys .rewritten false [item] := by simpa only [LastObeys] using ofItem
    refine .bind (cutItems_obeys owner regions _ alone) fun items cut => .pure ?_
    simpa only [Expr.Obeys] using cut

/-! ## Functions -/

/-- Rewriting bodies leads from the rules of sources to those of rewritten functions. -/
theorem Rewrites.leads : JumpRules.source.LeadTo .rewritten (Rewrites escapes) := by
  rintro ⟨signature, body⟩ other rewrites ⟨kind, unlooped, nested⟩ obeys
  suffices produces : Produces True (functionBody escapes ⟨signature, body⟩) fun other =>
      JumpRules.rewritten.admits other.signature ∧
        other.body.Obeys .rewritten (JumpRules.rewritten.loose other.signature) from
    rewrites.of produces
  unfold functionBody
  by_cases continuations : signature.regions.cont = true
  · have deferred : signature.regions.tco = true := nested continuations
    simp only [if_pos continuations]
    refine .bind (.any _) fun _ _ => .bind (cutBody_obeys _ _ obeys) fun body cut => .pure ?_
    exact ⟨fun _ => unlooped, cut.loosen fun _ => by simp [JumpRules.rewritten, deferred]⟩
  · simp only [if_neg continuations]
    refine .bind (.any _) fun _ _ => ?_
    by_cases deferred : signature.regions.tco = true
    · simp only [if_pos deferred]
      refine .bind (.any _) fun _ _ => .pure ⟨fun _ => unlooped, ?_⟩
      exact obeys.deferTails.loosen fun _ => by simp [JumpRules.rewritten, deferred]
    · simp only [if_neg deferred]
      exact .pure ⟨fun _ => unlooped, obeys.strict⟩

/-- Giving functions their wrappers leads on to the rules of functions with wrappers. -/
theorem Dresses.leads : JumpRules.rewritten.LeadTo .dressed (Dresses table) := by
  rintro ⟨signature, body⟩ other dresses unlooped obeys
  have resolves := dresses.of (functionWrappers_resolve _)
  obtain ⟨wrappers, rfl⟩ := dresses.eq
  refine ⟨fun kind looped => ?_, obeys.loosen fun loose => ?_⟩
  · rcases (mem_resolveWrappers resolves).mp looped with ⟨entry, written, same⟩ | inImplied
    · exact unlooped kind entry written same
    · unfold impliedWrappers at inImplied
      split at inImplied <;> simp at inImplied
  · simp only [JumpRules.rewritten, Bool.or_eq_true] at loose
    simp only [JumpRules.dressed, Bool.or_eq_true, List.contains_iff_mem]
    rcases loose with continues | deferred
    · exact .inl continues
    · cases kind : signature.kind with
      | continuation => exact .inl (by simp)
      | plain =>
        refine .inr ((mem_resolveWrappers resolves).mpr (.inr ?_))
        simp [impliedWrappers, kind, deferred]

/-! ## Programs -/

/-- The expression is no jump, and a function that it is stands in a source by the rules. -/
def Expr.Jumpless : Expr -> Prop
  | .fn _ signature _ => JumpRules.source.admits signature
  | .jump .. => False
  | _ => True

mutual

/-- An expression no part of which is a jump stands by the rules of sources. -/
theorem Expr.All.obeys : ∀ {e : Expr}, e.All Expr.Jumpless -> e.Obeys .source false
  | .lit .., _ | .var .., _ => trivial
  | .fn .., all => by
    simp only [Expr.Obeys]
    exact ⟨all.self, Expr.All.obeys (Expr.all_fn.mp all).2⟩
  | .call .., all => by
    obtain ⟨_, funcs, values, named⟩ := Expr.all_call.mp all
    simp only [Expr.Obeys]
    exact ⟨funcs.obeys, AllOf.obey values, AllOfKwargs.obey named⟩
  | .cond _ _ none, all => by
    simp only [Expr.Obeys]
    exact ⟨AllOfArms.obey (Expr.all_cond_none.mp all).2, trivial⟩
  | .cond _ _ (some _), all => by
    obtain ⟨_, ofArms, ofAlt⟩ := Expr.all_cond_some.mp all
    simp only [Expr.Obeys]
    exact ⟨AllOfArms.obey ofArms, ofAlt.obeys⟩
  | .short .., all => by
    simp only [Expr.Obeys]
    exact (AllOf.obey (Expr.all_short.mp all).2).last
  | .seq .., all => by
    simp only [Expr.Obeys]
    exact (AllOf.obey (Expr.all_seq.mp all).2).last
  | .bind .., all => by
    simp only [Expr.Obeys]
    exact Expr.All.obeys (Expr.all_bind.mp all).2
  | .assign .., all => by
    simp only [Expr.Obeys]
    exact Expr.All.obeys (Expr.all_assign.mp all).2
  | .loop .., all => by
    obtain ⟨_, tests, bodies⟩ := Expr.all_loop.mp all
    simp only [Expr.Obeys]
    exact ⟨tests.obeys, bodies.obeys⟩
  | .jump .., all => all.self.elim
  | .capture .., all => by
    simp only [Expr.Obeys]
    exact Expr.All.obeys (Expr.all_capture.mp all).2

theorem AllOf.obey : ∀ {es : List Expr}, AllOf Expr.Jumpless es -> AllObey .source es
  | [], _ => by simp only [AllObey]
  | _ :: _, all => by
    obtain ⟨first, others⟩ := allOf_cons.mp all
    simp only [AllObey]
    exact ⟨first.obeys, AllOf.obey others⟩

theorem AllOfKwargs.obey : ∀ {kwargs : List (String × Expr)},
    AllOfKwargs Expr.Jumpless kwargs -> AllNamedObey .source kwargs
  | [], _ => by simp only [AllNamedObey]
  | (_, _) :: _, all => by
    obtain ⟨first, others⟩ := allOfKwargs_cons.mp all
    simp only [AllNamedObey]
    exact ⟨first.obeys, AllOfKwargs.obey others⟩

theorem AllOfArms.obey : ∀ {arms : List (Expr × Expr)},
    AllOfArms Expr.Jumpless arms -> ArmsObey .source false arms
  | [], _ => by simp only [ArmsObey]
  | (_, _) :: _, all => by
    obtain ⟨tests, bodies, others⟩ := allOfArms_cons.mp all
    simp only [ArmsObey]
    exact ⟨tests.obeys, bodies.obeys, AllOfArms.obey others⟩

end

/-- No jump is written in the program, and none of its functions gets a handle to itself. -/
structure Program.WithoutJumps (program : Program) : Prop where
  jumps : ∀ node ∈ program.nodes, node.isJump = false
  handles : ∀ function ∈ program.functions, function.signature.Unlooped

/-- A program without jumps and loop handles has no node that the rules of sources forbid. -/
theorem Program.WithoutJumps.jumpless (without : program.WithoutJumps)
    (isSource : program.IsSource) : ∀ node ∈ program.nodes, node.Jumpless := by
  intro node member
  have noJump := without.jumps node member
  have written := isSource node member
  cases node with
  | fn mark signature body =>
    obtain ⟨kind, -, nested, -⟩ := written
    have listed : ⟨signature, body⟩ ∈ program.functions := Program.mem_functions.mpr ⟨mark, member⟩
    exact ⟨kind, without.handles _ listed, nested⟩
  | jump => cases noJump
  | _ => trivial

/-- In a transformed program jumps stand at the ends of bodies that trampolines run. -/
theorem Program.transform_obeys (without : program.WithoutJumps)
    (isSource : program.IsSource) {transformed : Transformed}
    (succeeds : program.transform table escapes = .ok transformed) :
    AllObey .dressed (transformed.program.top.map Toplevel.expr) := by
  obtain ⟨middle, rewriting, dressing⟩ := Program.transform_mapping succeeds
  have all : AllObey .source (program.top.map Toplevel.expr) := by
    refine AllOf.obey fun node member => without.jumpless isSource node ?_
    rwa [nodesOfAll_eq_flatMap, List.flatMap_map] at member
  exact dressing.obeys Dresses.leads (rewriting.obeys Rewrites.leads all)

end Trampoline
