import Trampoline.Proofs.Syntax.Nodes
import Trampoline.Proofs.Syntax.Steps

/-!
# Steps of the transformation

What the small steps make, and which step a block is cut by.
-/

namespace Trampoline

open Transform

variable {fallible : Prop} {escapes : List String}

/-- A new mark can always be made. -/
theorem newMark_produces (span : Span) : Produces fallible (newMark span) fun _ => True :=
  ⟨fun _ => .inl ⟨_, _, rfl, trivial⟩⟩

theorem record_produces (event : TransformEvent) : Produces fallible (record event) fun _ => True :=
  ⟨fun _ => .inl ⟨_, _, rfl, trivial⟩⟩

theorem newFunction_produces : Produces fallible newFunction fun _ => True :=
  ⟨fun _ => .inl ⟨_, _, rfl, trivial⟩⟩

/-- The variable of the continuation can always be made. -/
theorem continuationVar_produces (span : Span) :
    Produces fallible (continuationVar span) fun cc => ∃ mark, cc = .var mark continuationParam :=
  .bind (newMark_produces span) fun mark _ => .pure ⟨mark, rfl⟩

/-- Handing `nil` over makes a jump to the continuation. -/
theorem handOverNil_produces (span : Span) :
    Produces fallible (handOverNil span) fun e => ∃ mark ccMark litMark,
      e = .jump mark (.var ccMark continuationParam) [.lit litMark .nil] [] none := by
  refine .bind (newMark_produces span) fun litMark _ => ?_
  refine .bind (continuationVar_produces span) ?_
  rintro _ ⟨ccMark, rfl⟩
  exact .bind (newMark_produces span) fun mark _ => .pure ⟨mark, ccMark, litMark, rfl⟩

/-- Forbidding captures succeeds if there are none. -/
theorem forbidCapture_produces (owner : Owner) (fault : CaptureFault) {e : Expr}
    (may : e.hasCapture = true -> fallible) :
    Produces fallible (forbidCapture owner fault e) fun _ => e.hasCapture = false := by
  unfold forbidCapture
  by_cases captures : e.hasCapture = true
  · rw [if_pos captures]
    exact ⟨fun _ => .inr ⟨may captures, _, rfl⟩⟩
  · rw [if_neg captures]
    exact .pure (Bool.eq_false_iff.mpr captures)

mutual

/-- Where a capture occurs there is one among the expressions. -/
theorem Expr.exists_capture : ∀ e : Expr, e.hasCapture = true ->
    ∃ node ∈ e.nodes, node.isCapture = true
  | .lit .., captures | .var .., captures | .fn .., captures => by
    simp [Expr.hasCapture] at captures
  | .call _ func args kwargs, captures => by
    simp only [Expr.hasCapture, Bool.or_eq_true] at captures
    simp only [Expr.nodes, List.mem_cons, List.mem_append]
    rcases captures with (inFunc | inArgs) | inKwargs
    · obtain ⟨node, member, isCapture⟩ := func.exists_capture inFunc
      exact ⟨node, by simp [member], isCapture⟩
    · obtain ⟨node, member, isCapture⟩ := exists_capture_of_all args inArgs
      exact ⟨node, by simp [member], isCapture⟩
    · obtain ⟨node, member, isCapture⟩ := exists_capture_of_kwargs kwargs inKwargs
      exact ⟨node, by simp [member], isCapture⟩
  | .cond _ arms none, captures => by
    simp only [Expr.hasCapture, Bool.or_false] at captures
    obtain ⟨node, member, isCapture⟩ := exists_capture_of_arms arms captures
    exact ⟨node, by simp [Expr.nodes, member], isCapture⟩
  | .cond _ arms (some alt), captures => by
    simp only [Expr.hasCapture, Bool.or_eq_true] at captures
    rcases captures with inArms | inAlt
    · obtain ⟨node, member, isCapture⟩ := exists_capture_of_arms arms inArms
      exact ⟨node, by simp [Expr.nodes, member], isCapture⟩
    · obtain ⟨node, member, isCapture⟩ := alt.exists_capture inAlt
      exact ⟨node, by simp [Expr.nodes, member], isCapture⟩
  | .short _ _ es, captures | .seq _ es, captures => by
    obtain ⟨node, member, isCapture⟩ := exists_capture_of_all es captures
    exact ⟨node, by simp [Expr.nodes, member], isCapture⟩
  | .bind _ _ e, captures | .assign _ _ e, captures => by
    obtain ⟨node, member, isCapture⟩ := e.exists_capture captures
    exact ⟨node, by simp [Expr.nodes, member], isCapture⟩
  | .loop _ test body, captures => by
    simp only [Expr.hasCapture, Bool.or_eq_true] at captures
    rcases captures with inTest | inBody
    · obtain ⟨node, member, isCapture⟩ := test.exists_capture inTest
      exact ⟨node, by simp [Expr.nodes, member], isCapture⟩
    · obtain ⟨node, member, isCapture⟩ := body.exists_capture inBody
      exact ⟨node, by simp [Expr.nodes, member], isCapture⟩
  | .jump _ func args kwargs none, captures => by
    simp only [Expr.hasCapture, Bool.or_eq_true, Bool.or_false] at captures
    rcases captures with (inFunc | inArgs) | inKwargs
    · obtain ⟨node, member, isCapture⟩ := func.exists_capture inFunc
      exact ⟨node, by simp [Expr.nodes, member], isCapture⟩
    · obtain ⟨node, member, isCapture⟩ := exists_capture_of_all args inArgs
      exact ⟨node, by simp [Expr.nodes, member], isCapture⟩
    · obtain ⟨node, member, isCapture⟩ := exists_capture_of_kwargs kwargs inKwargs
      exact ⟨node, by simp [Expr.nodes, member], isCapture⟩
  | .jump _ func args kwargs (some cc), captures => by
    simp only [Expr.hasCapture, Bool.or_eq_true] at captures
    rcases captures with ((inFunc | inArgs) | inKwargs) | inCc
    · obtain ⟨node, member, isCapture⟩ := func.exists_capture inFunc
      exact ⟨node, by simp [Expr.nodes, member], isCapture⟩
    · obtain ⟨node, member, isCapture⟩ := exists_capture_of_all args inArgs
      exact ⟨node, by simp [Expr.nodes, member], isCapture⟩
    · obtain ⟨node, member, isCapture⟩ := exists_capture_of_kwargs kwargs inKwargs
      exact ⟨node, by simp [Expr.nodes, member], isCapture⟩
    · obtain ⟨node, member, isCapture⟩ := cc.exists_capture inCc
      exact ⟨node, by simp [Expr.nodes, member], isCapture⟩
  | .capture mark binders e, _ => ⟨.capture mark binders e, by simp [Expr.nodes], rfl⟩

theorem exists_capture_of_all : ∀ es : List Expr, anyCapture es = true ->
    ∃ node ∈ nodesOfAll es, node.isCapture = true
  | [], captures => by simp [anyCapture] at captures
  | e :: rest, captures => by
    simp only [anyCapture, Bool.or_eq_true] at captures
    rcases captures with first | others
    · obtain ⟨node, member, isCapture⟩ := e.exists_capture first
      exact ⟨node, List.mem_append_left _ member, isCapture⟩
    · obtain ⟨node, member, isCapture⟩ := exists_capture_of_all rest others
      exact ⟨node, List.mem_append_right _ member, isCapture⟩

theorem exists_capture_of_kwargs : ∀ kwargs : List (String × Expr),
    anyCaptureInKwargs kwargs = true -> ∃ node ∈ nodesOfKwargs kwargs, node.isCapture = true
  | [], captures => by simp [anyCaptureInKwargs] at captures
  | (_, e) :: rest, captures => by
    simp only [anyCaptureInKwargs, Bool.or_eq_true] at captures
    rcases captures with first | others
    · obtain ⟨node, member, isCapture⟩ := e.exists_capture first
      exact ⟨node, List.mem_append_left _ member, isCapture⟩
    · obtain ⟨node, member, isCapture⟩ := exists_capture_of_kwargs rest others
      exact ⟨node, List.mem_append_right _ member, isCapture⟩

theorem exists_capture_of_arms : ∀ arms : List (Expr × Expr), anyCaptureInArms arms = true ->
    ∃ node ∈ nodesOfArms arms, node.isCapture = true
  | [], captures => by simp [anyCaptureInArms] at captures
  | (test, body) :: rest, captures => by
    simp only [anyCaptureInArms, Bool.or_eq_true] at captures
    rcases captures with (inTest | inBody) | inRest
    · obtain ⟨node, member, isCapture⟩ := test.exists_capture inTest
      exact ⟨node, by simp [nodesOfArms, member], isCapture⟩
    · obtain ⟨node, member, isCapture⟩ := body.exists_capture inBody
      exact ⟨node, by simp [nodesOfArms, member], isCapture⟩
    · obtain ⟨node, member, isCapture⟩ := exists_capture_of_arms rest inRest
      exact ⟨node, by simp [nodesOfArms, member], isCapture⟩

end

variable {owner : Owner} {regions : Regions} {span : Span} {item : Expr}

/-- The last item of a block hands its value over. -/
theorem cutItems_one (plain : item.isCapture = false) :
    cutItems escapes owner regions span [item] = (do
      forbidCapture owner .notAStatement item
      let item ← passTails escapes item
      pure [item]) := by
  cases item <;> first | rfl | cases plain

/-- An item before others stays as it is, without captures. -/
theorem cutItems_cons {next : Expr} {rest : List Expr} (plain : item.isCapture = false) :
    cutItems escapes owner regions span (item :: next :: rest) = (do
      forbidCapture owner .notAStatement item
      let rest ← cutItems escapes owner regions span (next :: rest)
      pure (item :: rest)) := by
  cases item <;> first | rfl | cases plain

end Trampoline
