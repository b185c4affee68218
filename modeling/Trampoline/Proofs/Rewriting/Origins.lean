import Trampoline.Proofs.Escapes.Returns

/-!
# Where functions come from

Every function of a transformed program comes of one of the program: it is what that became, or a
continuation function that cutting its body made. The blocks that it stands in are the same.
-/

namespace Trampoline

open Transform

variable {becomes : Function -> Function -> Prop} {escapes : List String} {table : DecoratorTable}

/-! ## Steps on every function -/

/-- The second function comes of the first: it is what that becomes, after the functions inside it,
or new in the body of what that becomes. -/
def ComesOf (becomes : Function -> Function -> Prop) (function other : Function) : Prop :=
  ∃ body' whole, Mapping becomes function.body body' ∧
    becomes ⟨function.signature, body'⟩ whole ∧
      (other = whole ∨ other ∈ whole.body.functions ∧ other ∉ body'.functions)

/-- Each of those functions comes of one of these. -/
def ComeFrom (becomes : Function -> Function -> Prop) (functions others : List Function) : Prop :=
  ∀ other ∈ others, ∃ function ∈ functions, ComesOf becomes function other

namespace ComeFrom

variable {functions others more further : List Function}

theorem nil : ComeFrom becomes [] [] := fun _ member => absurd member List.not_mem_nil

theorem append (come : ComeFrom becomes functions others) (come' : ComeFrom becomes more further) :
    ComeFrom becomes (functions ++ more) (others ++ further) := by
  intro other member
  rcases List.mem_append.mp member with first | second
  · obtain ⟨function, listed, comes⟩ := come other first
    exact ⟨function, List.mem_append_left _ listed, comes⟩
  · obtain ⟨function, listed, comes⟩ := come' other second
    exact ⟨function, List.mem_append_right _ listed, comes⟩

end ComeFrom

mutual

/-- The functions in what an expression becomes come of those in the expression. -/
theorem Mapping.origins : ∀ {e e' : Expr}, Mapping becomes e e' ->
    ComeFrom becomes e.functions e'.functions
  | _, _, .lit => .nil
  | _, _, .var => .nil
  | _, _, @Mapping.fn _ _ signature body body' function inside self => by
    intro other member
    rcases List.mem_append.mp member with inBody | alone
    · by_cases old : other ∈ body'.functions
      · obtain ⟨origin, listed, comes⟩ := inside.origins other old
        exact ⟨origin, List.mem_append_left _ listed, comes⟩
      · exact ⟨⟨signature, body⟩, List.mem_append_right _ List.mem_cons_self,
          body', function, inside, self, .inr ⟨inBody, old⟩⟩
    · exact ⟨⟨signature, body⟩, List.mem_append_right _ List.mem_cons_self,
        body', function, inside, self, .inl (List.mem_singleton.mp alone)⟩
  | _, _, .call func args kwargs => .append (.append func.origins args.origins) kwargs.origins
  | _, _, .condNone arms => .append arms.origins .nil
  | _, _, .condSome arms alt => .append arms.origins alt.origins
  | _, _, .short operands => operands.origins
  | _, _, .seq items => items.origins
  | _, _, .bind bindee => (bindee.origins :)
  | _, _, .assign bindee => (bindee.origins :)
  | _, _, .loop test body => .append test.origins body.origins
  | _, _, .jumpNone func args kwargs =>
    .append (.append (.append func.origins args.origins) kwargs.origins) .nil
  | _, _, .jumpSome func args kwargs cc =>
    .append (.append (.append func.origins args.origins) kwargs.origins) cc.origins
  | _, _, .capture call => (call.origins :)

theorem MappingAll.origins : ∀ {es es' : List Expr}, MappingAll becomes es es' ->
    ComeFrom becomes (functionsOfAll es) (functionsOfAll es')
  | _, _, .nil => .nil
  | _, _, .cons first rest => .append first.origins rest.origins

theorem MappingNamed.origins : ∀ {kwargs kwargs' : List (String × Expr)},
    MappingNamed becomes kwargs kwargs' ->
      ComeFrom becomes (functionsOfKwargs kwargs) (functionsOfKwargs kwargs')
  | _, _, .nil => .nil
  | _, _, .cons first rest => .append first.origins rest.origins

theorem MappingArms.origins : ∀ {arms arms' : List (Expr × Expr)}, MappingArms becomes arms arms' ->
    ComeFrom becomes (functionsOfArms arms) (functionsOfArms arms')
  | _, _, .nil => .nil
  | _, _, .cons test body rest => .append (.append test.origins body.origins) rest.origins

end

/-- If functions keep the functions inside them, then nothing is new in the body of what one
becomes. -/
theorem ComesOf.alone {function other : Function} (comes : ComesOf becomes function other)
    (keeps : ∀ body' whole, becomes ⟨function.signature, body'⟩ whole ->
      whole.body.functions ⊆ body'.functions) :
    ∃ body', Mapping becomes function.body body' ∧ becomes ⟨function.signature, body'⟩ other := by
  obtain ⟨body', whole, mapping, self, rfl | ⟨inBody, new⟩⟩ := comes
  · exact ⟨body', mapping, self⟩
  · exact absurd (keeps body' whole self inBody) new

/-- If functions of a kind keep the functions inside them and become something akin, then each
function comes of one that it is akin to, and so do the functions inside it. -/
theorem ComeFrom.akin {kind : Signature -> Prop} {akin : Signature -> Signature -> Prop}
    (keeps : ∀ function other, kind function.signature -> becomes function other ->
      akin function.signature other.signature ∧ other.body.functions ⊆ function.body.functions)
    {functions others : List Function} (come : ComeFrom becomes functions others)
    (all : ∀ function ∈ functions, kind function.signature)
    (inside : ∀ function ∈ functions, ∀ inner ∈ function.body.functions, kind inner.signature)
    {other : Function} (member : other ∈ others) :
    ∃ function ∈ functions, akin function.signature other.signature ∧
      ∀ inner' ∈ other.body.functions, ∃ inner ∈ function.body.functions,
        akin inner.signature inner'.signature := by
  obtain ⟨function, listed, comes⟩ := come other member
  have ofKind := all function listed
  obtain ⟨body', mapping, self⟩ := comes.alone fun body' _ self =>
    (keeps ⟨function.signature, body'⟩ _ ofKind self).2
  obtain ⟨same, within⟩ := keeps ⟨function.signature, body'⟩ other ofKind self
  refine ⟨function, listed, same, fun inner' member => ?_⟩
  obtain ⟨inner, inBody, comes⟩ := mapping.origins inner' (within member)
  have ofKind := inside function listed inner inBody
  obtain ⟨innerBody, -, self⟩ := comes.alone fun body' _ self =>
    (keeps ⟨inner.signature, body'⟩ _ ofKind self).2
  exact ⟨inner, inBody, (keeps ⟨inner.signature, innerBody⟩ inner' ofKind self).1⟩

/-! ## Bodies -/

/-- Each of those functions is one of these or a continuation function in the regions. -/
def AreCutFrom (regions : Regions) (functions others : List Function) : Prop :=
  ∀ other ∈ others, other ∈ functions ∨
    ∃ id binders, other.signature = continuationSignature regions id binders

namespace AreCutFrom

variable {regions : Regions} {functions others more further : List Function}

theorem refl (functions : List Function) : AreCutFrom regions functions functions :=
  fun _ member => .inl member

theorem append (cut : AreCutFrom regions functions others)
    (cut' : AreCutFrom regions more further) :
    AreCutFrom regions (functions ++ more) (others ++ further) := by
  intro other member
  rcases List.mem_append.mp member with first | second
  · exact (cut other first).imp_left (List.mem_append_left _)
  · exact (cut' other second).imp_left (List.mem_append_right _)

theorem cons {function : Function} {id : Nat} {binders : List String}
    (cut : AreCutFrom regions functions others)
    (new : function.signature = continuationSignature regions id binders) :
    AreCutFrom regions functions (others ++ [function]) := by
  intro other member
  rcases List.mem_append.mp member with first | alone
  · exact cut other first
  · exact .inr ⟨id, binders, List.mem_singleton.mp alone ▸ new⟩

end AreCutFrom

/-- Cutting a block makes continuation functions and no others. -/
theorem cutItems_origins (owner : Owner) (regions : Regions) : ∀ (items : List Expr) (span : Span),
    Produces True (cutItems escapes owner regions span items)
      fun cut => AreCutFrom regions (functionsOfAll items) (functionsOfAll cut)
  | [], span => by
    refine .bind (handOverNil_produces span) ?_
    rintro _ ⟨jumpMark, ccMark, litMark, rfl⟩
    exact .pure (.refl [])
  | item :: rest, span => by
    have after := cutItems_origins owner regions rest
    cases isCapture : item.isCapture with
    | true =>
      cases item with
      | capture mark binders captured =>
        simp only [cutItems]
        refine .bind (.any _) fun _ _ => ?_
        cases captured with
        | call callMark func args kwargs =>
          refine .bind (.any _) fun bodyMark _ => .bind (after mark.span) fun items cut => ?_
          refine .bind (.any _) fun _ _ => .bind (.any _) fun id _ => ?_
          refine .bind (.any _) fun cont _ => .bind (.any _) fun jump _ => .pure ?_
          simp only [functionsOfAll, Expr.functions, List.append_nil]
          exact (AreCutFrom.refl _).append (cut.cons rfl)
        | _ => exact ⟨fun _ => .inr ⟨trivial, _, rfl⟩⟩
      | _ => cases isCapture
    | false =>
      cases rest with
      | nil =>
        rw [cutItems_one isCapture]
        refine .bind (.any _) fun _ _ => .bind (passTails_functions item) fun item' same => .pure ?_
        simp only [functionsOfAll, same]
        exact .refl _
      | cons next rest =>
        rw [cutItems_cons isCapture]
        exact .bind (.any _) fun _ _ => .bind (after span) fun items cut =>
          .pure ((AreCutFrom.refl item.functions).append cut)

/-- Cutting a body adds continuation functions only. -/
theorem cutBody_origins (owner : Owner) (regions : Regions) (body : Expr) :
    Produces True (cutBody escapes owner regions body)
      (AreCutFrom regions body.functions ·.functions) := by
  cases body with
  | seq mark items =>
    exact .bind (cutItems_origins owner regions items mark.span) fun items' cut => .pure cut
  | _ =>
    refine .bind (relocate_functions _) fun item same => ?_
    refine .bind (cutItems_origins owner regions [item] _) fun items cut => .pure ?_
    simp only [functionsOfAll, List.append_nil, same] at cut
    exact cut

/-- Rewriting the body of a function adds continuation functions only. -/
theorem functionBody_origins (function : Function) :
    Produces True (functionBody escapes function) fun other =>
      AreCutFrom function.signature.regions function.body.functions other.body.functions := by
  unfold functionBody
  by_cases continuations : function.signature.regions.cont = true
  · simp only [if_pos continuations]
    refine .bind (.any _) fun _ _ => ?_
    exact .bind (cutBody_origins _ _ _) fun body cut => .pure cut
  · simp only [if_neg continuations]
    refine .bind (.any _) fun _ _ => ?_
    by_cases deferred : function.signature.regions.tco = true
    · simp only [if_pos deferred]
      refine .bind (.any _) fun _ _ => .pure ?_
      rw [Expr.functions_deferTails]
      exact .refl _
    · simp only [if_neg deferred]
      exact .pure (.refl _)

/-- No block asks for the body of the function to be rewritten. -/
def Signature.Direct (signature : Signature) : Prop :=
  signature.regions.tco = false ∧ signature.regions.cont = false

instance (signature : Signature) : Decidable signature.Direct :=
  inferInstanceAs (Decidable (_ ∧ _))

/-- A function that no block asks to be rewritten stays as it is. -/
theorem functionBody_direct {function : Function} (direct : function.signature.Direct) :
    Produces True (functionBody escapes function) (· = function) := by
  unfold functionBody
  simp only [direct.1, direct.2, Bool.false_eq_true, if_false]
  exact .bind (.any _) fun _ _ => .pure rfl

/-! ## Programs -/

/-- The functions inside of one of a program are functions of the program. -/
theorem Program.mem_functions_inner {program : Program} {function inner : Function}
    (member : function ∈ program.functions) (inside : inner ∈ function.body.functions) :
    inner ∈ program.functions := by
  obtain ⟨mark, inProgram⟩ := Program.mem_functions.mp member
  obtain ⟨innerMark, inBody⟩ := function.body.mem_functions.mp inside
  have within : function.body.All (· ∈ program.nodes) :=
    Program.all_body (fun _ member => member) inProgram
  exact Program.mem_functions_of_mem (within _ inBody)

/-- The second signature is the first with the wrappers of its function. -/
def Signature.Dressed (table : DecoratorTable) (signature other : Signature) : Prop :=
  ∃ wrappers, resolveWrappers table signature = .ok wrappers ∧
    other = { signature with wrappers := wrappers }

/-- Giving a function its wrappers dresses it, and it has the functions that it had. -/
theorem Dresses.akin {function other : Function} (dresses : Dresses table function other) :
    function.signature.Dressed table other.signature ∧
      other.body.functions ⊆ function.body.functions := by
  have resolves := dresses.of (functionWrappers_resolve _)
  obtain ⟨wrappers, rfl⟩ := dresses.eq
  exact ⟨⟨wrappers, resolves, rfl⟩, List.Subset.refl _⟩

/-- A dressed function comes of one that is the same before. -/
theorem ComeFrom.dressed {functions others : List Function}
    (come : ComeFrom (Dresses table) functions others) {other : Function}
    (member : other ∈ others) :
    ∃ function ∈ functions, function.signature.Dressed table other.signature ∧
      ∀ inner' ∈ other.body.functions, ∃ inner ∈ function.body.functions,
        inner.signature.Dressed table inner'.signature :=
  @ComeFrom.akin _ (fun _ => True) _ (fun _ _ _ => Dresses.akin) _ _ come (fun _ _ => trivial)
    (fun _ _ _ _ => trivial) _ member

/-- A function of a transformed program is one of the program with its wrappers, and so are the
functions inside it, unless the program asks for bodies to be rewritten. -/
theorem Program.transform_direct {program : Program} {transformed : Transformed}
    (succeeds : program.transform table escapes = .ok transformed)
    (direct : ∀ function ∈ program.functions, function.signature.Direct)
    {dressed : Function} (member : dressed ∈ transformed.program.functions) :
    ∃ function ∈ program.functions, function.signature.Dressed table dressed.signature ∧
      ∀ inner' ∈ dressed.body.functions, ∃ inner ∈ function.body.functions,
        inner.signature.Dressed table inner'.signature := by
  obtain ⟨middle, rewriting, dressing⟩ := Program.transform_mapping succeeds
  have stays : ∀ function other : Function, function.signature.Direct ->
      Rewrites escapes function other ->
        function.signature = other.signature ∧ other.body.functions ⊆ function.body.functions := by
    intro function other direct rewrites
    obtain rfl := rewrites.of (functionBody_direct direct)
    exact ⟨rfl, List.Subset.refl _⟩
  obtain ⟨rewritten, listed, same, inside⟩ :=
    dressing.origins.dressed (Program.mem_functions_iff.mp member)
  obtain ⟨function, written, eq, within⟩ := rewriting.origins.akin stays
    (fun function member => direct function (Program.mem_functions_iff.mpr member))
    (fun function member inner inside => direct inner
      (Program.mem_functions_inner (Program.mem_functions_iff.mpr member) inside)) listed
  refine ⟨function, Program.mem_functions_iff.mpr written, eq ▸ same, fun inner' member => ?_⟩
  obtain ⟨middleInner, inMiddle, same⟩ := inside inner' member
  obtain ⟨inner, inBody, eq⟩ := within middleInner inMiddle
  exact ⟨inner, inBody, eq ▸ same⟩

/-- A function of a transformed program is one of the program with its wrappers and perhaps another
parameter, or it is a continuation function in the regions of one. -/
theorem Program.transform_origin {program : Program} {transformed : Transformed}
    (succeeds : program.transform table escapes = .ok transformed) {dressed : Function}
    (member : dressed ∈ transformed.program.functions) :
    ∃ function ∈ program.functions, ∃ rewritten : Signature,
      rewritten.Dressed table dressed.signature ∧
        ((∃ params, rewritten = { function.signature with params := params }) ∨
          ∃ id binders,
            rewritten = continuationSignature function.signature.regions id binders) := by
  obtain ⟨middle, rewriting, dressing⟩ := Program.transform_mapping succeeds
  obtain ⟨rewritten, listed, same, -⟩ :=
    dressing.origins.dressed (Program.mem_functions_iff.mp member)
  obtain ⟨function, written, body', whole, -, rewrites, origin⟩ :=
    rewriting.origins rewritten listed
  refine ⟨function, Program.mem_functions_iff.mpr written, rewritten.signature, same, ?_⟩
  rcases origin with rfl | ⟨inBody, new⟩
  · exact .inl (rewrites.of (functionBody_signature _))
  · exact .inr ((rewrites.of (functionBody_origins _) rewritten inBody).resolve_left new)

end Trampoline
