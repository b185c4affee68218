import Trampoline.Proofs.Rewriting.Inner
import Trampoline.Proofs.Syntax.Source

/-!
# Bodies that hand over

Every end of the body of a function that takes a continuation is a jump that takes it along or goes
to it, unless the body calls an escape name there or ends in a conditional without alternative. At a
capture the body ends with a jump that takes the rest of the body along.
-/

namespace Trampoline

open Transform

/-- An expression on the way to the end of a body that leads on, or that hands over as an end: it is
a jump to the continuation, or one that takes it or the captured one along. -/
def Expr.HandsOver : Expr -> Prop
  | .seq _ items => items ≠ []
  | .cond _ _ alt => alt.isSome = true
  | .short _ _ operands => operands ≠ []
  | .jump _ _ _ _ (some (.var _ name)) => name = continuationParam
  | .jump _ _ _ _ (some (.fn _ signature _)) => signature.kind = .continuation
  | .jump _ (.var _ name) _ _ none => name = continuationParam
  | _ => False

/-- An expression on the way to the end of a function from the source that can be made to hand over
everything. -/
structure Expr.CanHandOver (escapes : List String) (e : Expr) : Prop where
  alternative : e.hasAlternative = true
  noEscape : e.isCallTo escapes = false
  ownJump : ∀ mark func args kwargs cc, e ≠ .jump mark func args kwargs (some cc)

/-- Every way to the end of a body hands over. -/
def Expr.HandsAllOver (body : Expr) : Prop := ∀ node ∈ body.tailPath, node.HandsOver

mutual

/-- The pieces of a body after the first, which are the bodies of continuation functions. -/
def Expr.laterPieces : Expr -> List Expr
  | .seq _ items => piecesAfter items
  | _ => []

/-- The pieces after the items of a block. -/
def piecesAfter : List Expr -> List Expr
  | [] => []
  | [.jump _ _ _ _ (some (.fn _ _ rest))] => rest :: rest.laterPieces
  | _ :: rest => piecesAfter rest

end

/-- The pieces that a body is cut into at its captures. -/
def Expr.pieces (body : Expr) : List Expr := body :: body.laterPieces

variable {escapes : List String}

/-! ## Rewritten returns -/

/-- A value that is handed over is at the end of a jump. -/
theorem handOver_handsOver (mark : Mark) (value : Expr) :
    Produces True (handOver mark value) Expr.HandsAllOver := by
  refine .bind (continuationVar_produces mark.span) ?_
  rintro _ ⟨ccMark, rfl⟩
  exact .pure (List.forall_mem_singleton.mpr rfl)

theorem relocate_handsOver (e : Expr) :
    Produces True (relocate e >>= fun value => handOver e.mark value) Expr.HandsAllOver :=
  .bind (.any _) fun value _ => handOver_handsOver e.mark value

mutual

/-- After rewriting its ends, a body that can hand over does so on every way. -/
theorem passTails_handsOver : ∀ e : Expr, (∀ node ∈ e.tailPath, node.CanHandOver escapes) ->
    Produces True (passTails escapes e) Expr.HandsAllOver
  | .seq mark [], _ => by
    simp only [passTails]
    refine .bind (handOverNil_produces mark.span) ?_
    rintro _ ⟨jumpMark, ccMark, litMark, rfl⟩
    refine .pure (List.forall_mem_cons.mpr ⟨List.cons_ne_nil _ _, ?_⟩)
    exact List.forall_mem_singleton.mpr rfl
  | .seq mark (e :: rest), can => by
    have last := passLast_handsOver (e :: rest) (List.cons_ne_nil e rest)
      fun node member => can node (List.mem_cons_of_mem _ member)
    simp only [passTails]
    exact .bind last fun items ⟨more, all⟩ => .pure (List.forall_mem_cons.mpr ⟨more, all⟩)
  | .cond mark arms none, can => by
    have alternative := (can _ List.mem_cons_self).alternative
    cases alternative
  | .cond mark arms (some e), can => by
    have inArms := passArms_handsOver arms fun node member =>
      can node (List.mem_cons_of_mem _ (List.mem_append_left _ member))
    have inAlt := passTails_handsOver e fun node member =>
      can node (List.mem_cons_of_mem _ (List.mem_append_right _ member))
    simp only [passTails]
    refine .bind inArms fun arms all => .bind inAlt fun alt all' => .pure ?_
    exact List.forall_mem_cons.mpr ⟨rfl, List.forall_mem_append.mpr ⟨all, all'⟩⟩
  | .short mark op [], _ => relocate_handsOver (.short mark op [])
  | .short mark op (e :: rest), can => by
    have last := passLast_handsOver (e :: rest) (List.cons_ne_nil e rest)
      fun node member => can node (List.mem_cons_of_mem _ member)
    simp only [passTails]
    exact .bind last fun operands ⟨more, all⟩ => .pure (List.forall_mem_cons.mpr ⟨more, all⟩)
  | .call mark func args kwargs, can => by
    have noEscape : func.isNameIn escapes = false := (can _ List.mem_cons_self).noEscape
    simp only [passTails, noEscape, Bool.false_eq_true, if_false]
    refine .bind (continuationVar_produces mark.span) ?_
    rintro _ ⟨ccMark, rfl⟩
    exact .pure (List.forall_mem_singleton.mpr rfl)
  | .jump mark func args kwargs none, _ => by
    simp only [passTails]
    refine .bind (continuationVar_produces mark.span) ?_
    rintro _ ⟨ccMark, rfl⟩
    exact .pure (List.forall_mem_singleton.mpr rfl)
  | .jump mark func args kwargs (some cc), can =>
    absurd rfl ((can _ List.mem_cons_self).ownJump mark func args kwargs cc)
  | .lit mark value, _ => relocate_handsOver (.lit mark value)
  | .var mark name, _ => relocate_handsOver (.var mark name)
  | .fn mark signature body, _ => relocate_handsOver (.fn mark signature body)
  | .bind mark name e, _ => relocate_handsOver (.bind mark name e)
  | .assign mark name e, _ => relocate_handsOver (.assign mark name e)
  | .loop mark test body, _ => relocate_handsOver (.loop mark test body)
  | .capture mark binders e, _ => relocate_handsOver (.capture mark binders e)

theorem passLast_handsOver : ∀ es : List Expr, es ≠ [] ->
    (∀ node ∈ tailPathOfLast es, node.CanHandOver escapes) ->
      Produces True (passLast escapes es) fun es' =>
        es' ≠ [] ∧ ∀ node ∈ tailPathOfLast es', node.HandsOver
  | [], more, _ => absurd rfl more
  | [e], _, can => by
    simp only [passLast]
    exact .bind (passTails_handsOver e can) fun e' all => .pure ⟨List.cons_ne_nil e' [], all⟩
  | e :: next :: rest, _, can => by
    simp only [passLast]
    refine .bind (passLast_handsOver (next :: rest) (List.cons_ne_nil next rest) can) ?_
    rintro (_ | ⟨first, others⟩) ⟨more, all⟩
    · exact absurd rfl more
    · exact .pure ⟨List.cons_ne_nil e _, all⟩

theorem passArms_handsOver : ∀ arms : List (Expr × Expr),
    (∀ node ∈ tailPathOfArms arms, node.CanHandOver escapes) ->
      Produces True (passArms escapes arms) fun arms' =>
        ∀ node ∈ tailPathOfArms arms', node.HandsOver
  | [], _ => .pure fun _ member => absurd member List.not_mem_nil
  | (test, body) :: rest, can => by
    have first := passTails_handsOver body fun node member =>
      can node (List.mem_append_left _ member)
    have others := passArms_handsOver rest fun node member =>
      can node (List.mem_append_right _ member)
    simp only [passArms]
    refine .bind first fun body' all => .bind others fun rest' all' => .pure ?_
    exact List.forall_mem_append.mpr ⟨all, all'⟩

end

variable {e : Expr} {items : List Expr} {table : DecoratorTable}

/-- What comes of a return takes no captured continuation along. -/
theorem passTails_piecesAfter
    (ownJump : ∀ mark func args kwargs cc, e ≠ .jump mark func args kwargs (some cc)) :
    Produces True (passTails escapes e) fun e' => piecesAfter [e'] = [] := by
  have handedOver (mark : Mark) (value : Expr) :
      Produces True (handOver mark value) fun e' => piecesAfter [e'] = [] :=
    .bind (.any _) fun cc _ => .pure rfl
  cases e with
  | seq mark items =>
    cases items with
    | nil =>
      simp only [passTails]
      exact .bind (.any _) fun _ _ => .pure rfl
    | cons first rest =>
      simp only [passTails]
      exact .bind (.any _) fun _ _ => .pure rfl
  | cond mark arms alt =>
    simp only [passTails]
    refine .bind (.any _) fun arms _ => ?_
    cases alt with
    | none => exact .pure rfl
    | some e => exact .bind (.any _) fun _ _ => .pure rfl
  | short mark op operands =>
    cases operands with
    | nil => exact .bind (.any _) fun value _ => handedOver mark value
    | cons first rest =>
      simp only [passTails]
      exact .bind (.any _) fun _ _ => .pure rfl
  | call mark func args kwargs =>
    simp only [passTails]
    split
    · exact .pure rfl
    · refine .bind (continuationVar_produces mark.span) ?_
      rintro _ ⟨ccMark, rfl⟩
      exact .pure rfl
  | jump mark func args kwargs cc =>
    cases cc with
    | none =>
      simp only [passTails]
      refine .bind (continuationVar_produces mark.span) ?_
      rintro _ ⟨ccMark, rfl⟩
      exact .pure rfl
    | some cc => exact absurd rfl (ownJump mark func args kwargs cc)
  | _ => exact .bind (.any _) fun value _ => handedOver _ value

/-! ## Cut bodies -/

/-- Items of a block that hand over at their end, as do the pieces after them. -/
structure HandOver (items : List Expr) : Prop where
  more : items ≠ []
  ends : ∀ node ∈ tailPathOfLast items, node.HandsOver
  later : ∀ piece ∈ piecesAfter items, piece.HandsAllOver

theorem HandOver.cons {item : Expr} (handOver : HandOver items) : HandOver (item :: items) := by
  obtain ⟨more, ends, later⟩ := handOver
  cases items with
  | nil => exact absurd rfl more
  | cons next rest =>
    refine ⟨List.cons_ne_nil _ _, ends, ?_⟩
    rw [piecesAfter]
    · exact later
    · nofun

theorem HandOver.pieces (handOver : HandOver items) (mark : Mark) :
    ∀ piece ∈ (Expr.seq mark items).pieces, piece.HandsAllOver :=
  List.forall_mem_cons.mpr
    ⟨List.forall_mem_cons.mpr ⟨handOver.more, handOver.ends⟩, handOver.later⟩

/-- Cutting items that can hand over makes all pieces do so. -/
theorem cutItems_handOver (owner : Owner) (regions : Regions) (items : List Expr)
    (span : Span) (can : ∀ node ∈ tailPathOfLast items, node.CanHandOver escapes) :
    Produces True (cutItems escapes owner regions span items) HandOver := by
  induction items generalizing span with
  | nil =>
    simp only [cutItems]
    refine .bind (handOverNil_produces span) ?_
    rintro _ ⟨mark, ccMark, litMark, rfl⟩
    refine .pure ⟨List.cons_ne_nil _ _, List.forall_mem_singleton.mpr rfl, ?_⟩
    exact fun _ member => absurd member List.not_mem_nil
  | cons item rest after =>
    have inner : ∀ node ∈ tailPathOfLast rest, node.CanHandOver escapes := by
      cases rest with
      | nil => exact fun _ member => absurd member List.not_mem_nil
      | cons next rest => exact can
    cases isCapture : item.isCapture with
    | true =>
      cases item with
      | capture mark binders captured =>
        simp only [cutItems]
        refine .bind (.any _) fun _ _ => ?_
        cases captured with
        | call callMark func args kwargs =>
          refine .bind (.any _) fun bodyMark _ =>
            .bind (after mark.span inner) fun items handOver => ?_
          refine .bind (.any _) fun _ _ => .bind (.any _) fun id _ => ?_
          refine .bind (.any _) fun cont _ => .bind (.any _) fun jump _ => .pure ?_
          refine ⟨List.cons_ne_nil _ _, List.forall_mem_singleton.mpr rfl, ?_⟩
          exact handOver.pieces bodyMark
        | _ => exact ⟨fun _ => .inr ⟨trivial, _, rfl⟩⟩
      | _ => cases isCapture
    | false =>
      cases rest with
      | nil =>
        rw [cutItems_one isCapture]
        have last := (passTails_handsOver item can).and
          (passTails_piecesAfter (can item item.self_mem_tailPath).ownJump)
        refine .bind (.any _) fun _ _ => .bind last fun item' => ?_
        rintro ⟨all, whole⟩
        refine .pure ?_
        refine ⟨List.cons_ne_nil _ _, all, ?_⟩
        rw [whole]
        exact fun _ member => absurd member List.not_mem_nil
      | cons next rest =>
        rw [cutItems_cons isCapture]
        exact .bind (.any _) fun _ _ => .bind (after span inner) fun items handOver =>
          .pure handOver.cons

/-- The body of a function that takes a continuation is cut into pieces that hand over. -/
theorem functionBody_handsOver {signature : Signature} {mark : Mark}
    (continuations : signature.regions.cont = true)
    (can : ∀ node ∈ (Expr.seq mark items).tailPath, node.CanHandOver escapes) :
    Produces True (functionBody escapes ⟨signature, .seq mark items⟩) fun function =>
      function.signature.id = signature.id ∧ function.signature.name = signature.name ∧
        ∀ piece ∈ function.body.pieces, piece.HandsAllOver := by
  have inside := fun node member => can node (List.mem_cons_of_mem _ member)
  unfold functionBody
  simp only [if_pos continuations, cutBody, bind_assoc, pure_bind]
  refine .bind (.any _) fun _ _ => ?_
  exact .bind (cutItems_handOver signature.owner signature.regions items mark.span inside)
    fun items' handOver => .pure ⟨rfl, rfl, handOver.pieces mark⟩

/-! ## Functions that become others -/

section Mapping

variable {becomes : Function -> Function -> Prop}

variable {e e' : Expr}

theorem Mapping.isNameIn_eq (mapping : Mapping becomes e e') (names : List String) :
    e'.isNameIn names = e.isNameIn names := by
  cases mapping <;> rfl

/-- Mapping functions leaves an expression able to hand over. -/
theorem Mapping.canHandOver (mapping : Mapping becomes e e')
    (can : e.CanHandOver escapes) : e'.CanHandOver escapes := by
  obtain ⟨alternative, noEscape, ownJump⟩ := can
  cases mapping with
  | condNone => cases alternative
  | call func => exact ⟨rfl, (func.isNameIn_eq escapes).trans noEscape, nofun⟩
  | jumpSome => exact absurd rfl (ownJump _ _ _ _ _)
  | _ => exact ⟨rfl, rfl, nofun⟩

/-- Functions keep their kinds and what their bodies become. -/
def KeepBodies (becomes : Function -> Function -> Prop) : Prop :=
  ∀ function other, becomes function other ->
    other.body = function.body ∧ other.signature.kind = function.signature.kind

/-- Mapping functions leaves an expression handing over. -/
theorem Mapping.handsOver (keeps : KeepBodies becomes)
    (mapping : Mapping becomes e e') (hands : e.HandsOver) : e'.HandsOver := by
  cases mapping with
  | condNone => cases hands
  | condSome => rfl
  | seq items =>
    cases items with
    | nil => exact absurd rfl hands
    | cons => exact List.cons_ne_nil _ _
  | short operands =>
    cases operands with
    | nil => exact absurd rfl hands
    | cons => exact List.cons_ne_nil _ _
  | jumpNone func =>
    cases func <;> exact hands
  | jumpSome func args kwargs cc =>
    cases cc with
    | fn inside self => exact (keeps _ _ self).2.trans hands
    | _ => exact hands
  | _ => exact hands.elim

/-- Mapping functions leaves every way of a body handing over. -/
theorem Mapping.handsAllOver (keeps : KeepBodies becomes)
    (mapping : Mapping becomes e e') (all : e.HandsAllOver) : e'.HandsAllOver := by
  intro node' member
  obtain ⟨node, inside, same⟩ := mapping.tailPath node' member
  exact same.handsOver keeps (all node inside)

mutual

/-- The later pieces of a mapped body are mapped ones. -/
theorem Mapping.laterPieces (keeps : KeepBodies becomes) : ∀ {e e' : Expr},
    Mapping becomes e e' -> ∀ piece' ∈ e'.laterPieces, ∃ piece ∈ e.laterPieces,
      Mapping becomes piece piece'
  | _, _, .seq items, piece', member => items.piecesAfter keeps piece' member
  | _, _, .lit, _, member | _, _, .var, _, member | _, _, .fn .., _, member
  | _, _, .call .., _, member | _, _, .condNone _, _, member | _, _, .condSome .., _, member
  | _, _, .short _, _, member | _, _, .bind _, _, member | _, _, .assign _, _, member
  | _, _, .loop .., _, member | _, _, .jumpNone .., _, member | _, _, .jumpSome .., _, member
  | _, _, .capture _, _, member => absurd member List.not_mem_nil

theorem MappingAll.piecesAfter (keeps : KeepBodies becomes) : ∀ {es es' : List Expr},
    MappingAll becomes es es' -> ∀ piece' ∈ Trampoline.piecesAfter es',
      ∃ piece ∈ Trampoline.piecesAfter es, Mapping becomes piece piece'
  | _, _, .nil, _, member => absurd member List.not_mem_nil
  | _, _, .cons first .nil, piece', member => by
    cases first with
    | jumpSome _ _ _ cc =>
      cases cc with
      | @fn _ _ body body' function inside self =>
        have same : function.body = body' := (keeps _ _ self).1
        rcases List.mem_cons.mp member with rfl | later
        · exact ⟨body, List.mem_cons_self, same ▸ inside⟩
        · obtain ⟨piece, member, same⟩ := inside.laterPieces keeps piece' (same ▸ later)
          exact ⟨piece, List.mem_cons_of_mem _ member, same⟩
      | _ => exact absurd member List.not_mem_nil
    | _ => exact absurd member List.not_mem_nil
  | _, _, .cons _ (.cons second rest), piece', member => by
    rw [Trampoline.piecesAfter] at member ⊢
    · exact (MappingAll.cons second rest).piecesAfter keeps piece' member
    · nofun
    · nofun

end

end Mapping

/-! ## Programs -/

/-- An expression from the source can hand over, if it has an alternative and calls no escape. -/
theorem Expr.IsSource.canHandOver (source : e.IsSource)
    (alternative : e.hasAlternative = true) (noEscape : e.isCallTo escapes = false) :
    e.CanHandOver escapes := by
  refine ⟨alternative, noEscape, ?_⟩
  rintro mark func args kwargs cc rfl
  cases source

/-- Giving functions their wrappers keeps their bodies. -/
theorem Dresses.keepBodies : KeepBodies (Dresses table) := by
  intro function other dresses
  obtain ⟨wrappers, rfl⟩ := dresses.eq
  exact ⟨rfl, rfl⟩

/-- A function that takes a continuation comes out of the transformation in pieces that hand over,
if each conditional at its end has an alternative and it calls no escape name there. -/
theorem Program.transform_handsOver {program : Program} (source : program.IsSource)
    {transformed : Transformed}
    (succeeds : program.transform table escapes = .ok transformed) {function : Function}
    (member : function ∈ program.functions)
    (continuations : function.signature.regions.cont = true)
    (ends : ∀ node ∈ function.body.tailPath,
      node.hasAlternative = true ∧ node.isCallTo escapes = false) :
    ∃ rewritten ∈ transformed.program.functions,
      rewritten.signature.id = function.signature.id ∧
      rewritten.signature.name = function.signature.name ∧
      ∀ piece ∈ rewritten.body.pieces, piece.HandsAllOver := by
  obtain ⟨mark, inProgram⟩ := Program.mem_functions.mp member
  obtain ⟨kind, bare, nested, bodyMark, items, isBlock⟩ := source _ inProgram
  have sources := (Program.all_body source inProgram).tailPath
  obtain ⟨inside, rewritten, body, mapping, rewrites, dressing, dressed, listed, dresses⟩ :=
    Program.transform_functions succeeds member
  have can : ∀ node ∈ inside.tailPath, node.CanHandOver escapes := by
    intro node' member'
    obtain ⟨node, inPath, same⟩ := mapping.tailPath node' member'
    obtain ⟨alternative, noEscape⟩ := ends node inPath
    exact same.canHandOver ((sources node inPath).canHandOver alternative noEscape)
  rw [isBlock] at mapping
  cases mapping with
  | seq items =>
    obtain ⟨id, name, all⟩ := rewrites.of (functionBody_handsOver continuations can)
    obtain ⟨wrappers, rfl⟩ := dresses.eq
    refine ⟨_, listed, id, name, fun piece' member' => ?_⟩
    rcases List.mem_cons.mp member' with rfl | later
    · exact dressing.handsAllOver Dresses.keepBodies (all _ List.mem_cons_self)
    · obtain ⟨piece, member, same⟩ := dressing.laterPieces Dresses.keepBodies piece' later
      exact same.handsAllOver Dresses.keepBodies (all piece (List.mem_cons_of_mem _ member))

end Trampoline
