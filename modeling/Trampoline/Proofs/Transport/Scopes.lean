import Trampoline.Proofs.Transport.Steps

/-!
# Names, parameters and closures in machines that mirror each other

Names mean the same on both sides, parameters are bound to the same values in cells that stand for
each other, and function expressions come to functions that are the same.
-/

namespace Trampoline

open Exec

variable {mirror : Mirror} {reflection : Reflection} {veiled : Bool} {frame frame' : Frame}

namespace Mirror.Moves

/-! ## Names -/

variable {mark : Mark} {name : String}

theorem lookup (allows : mirror.Allows veiled (.var mark name))
    (frames : frame.Mirrors mirror reflection veiled frame') :
    mirror.Moves reflection (Body.run (Body.lookup name) frame) (Body.run (Body.lookup name) frame')
      (Value.Mirrors mirror) := by
  intro m m' machines
  have found := frames.env.lookup fun hides => allows.names hides name List.mem_cons_self
  generalize scope : frame.env.lookup name = ref at found
  generalize scope' : frame'.env.lookup name = ref' at found
  cases found with
  | @some ref ref' known =>
    have ran : Body.run (Body.lookup name) frame m = some (.ok (m.cell ref), m) := by
      simp only [Body.run, Body.lookup, scope]
    have ran' : Body.run (Body.lookup name) frame' m' = some (.ok (m'.cell ref'), m') := by
      simp only [Body.run, Body.lookup, scope']
    exact .value ran ran' (Reflection.le_refl _) (machines.cell known) machines
  | none =>
    have found := machines.globals name
    generalize global : m.global? name = value at found
    generalize global' : m'.global? name = value' at found
    cases found with
    | @some value value' same =>
      have ran : Body.run (Body.lookup name) frame m = some (.ok value, m) := by
        simp only [Body.run, Body.lookup, scope, global]
      have ran' : Body.run (Body.lookup name) frame' m' = some (.ok value', m') := by
        simp only [Body.run, Body.lookup, scope', global']
      exact .value ran ran' (Reflection.le_refl _) same machines
    | none =>
      have ran : Body.run (Body.lookup name) frame m = some (.error (.unbound name), m) := by
        simp only [Body.run, Body.lookup, scope, global]
      have ran' : Body.run (Body.lookup name) frame' m' = some (.error (.unbound name), m') := by
        simp only [Body.run, Body.lookup, scope', global']
      exact .error ran ran' (.plain rfl (by simp)) machines

theorem assign {bindee : Expr} (allows : mirror.Allows veiled (.assign mark name bindee))
    (frames : frame.Mirrors mirror reflection veiled frame') {value value' : Value}
    (same : value.Mirrors mirror reflection value') :
    mirror.Moves reflection (Body.run (Body.assign name value) frame)
      (Body.run (Body.assign name value') frame') fun _ _ _ => True := by
  intro m m' machines
  have found := frames.env.lookup fun hides => allows.names hides name List.mem_cons_self
  generalize scope : frame.env.lookup name = ref at found
  generalize scope' : frame'.env.lookup name = ref' at found
  cases found with
  | @some ref ref' known =>
    have ran : Body.run (Body.assign name value) frame m =
        some (.ok (), { m with cells := m.cells.setIfInBounds ref value }) := by
      simp only [Body.run, Body.assign, scope]
    have ran' : Body.run (Body.assign name value') frame' m' =
        some (.ok (), { m' with cells := m'.cells.setIfInBounds ref' value' }) := by
      simp only [Body.run, Body.assign, scope']
    exact .value ran ran' (Reflection.le_refl _) trivial (machines.setCell known same)
  | none =>
    have found := machines.globals name
    generalize global : m.global? name = old at found
    generalize global' : m'.global? name = old' at found
    cases found with
    | some _ =>
      have ran :
        Body.run (Body.assign name value) frame m = some (.ok (), m.define name value) := by
        simp only [Body.run, Body.assign, scope, global]
      have ran' : Body.run (Body.assign name value') frame' m' =
          some (.ok (), m'.define name value') := by
        simp only [Body.run, Body.assign, scope', global']
      exact .value ran ran' (Reflection.le_refl _) trivial
        (machines.define (mirror.assigns_none allows.node) same)
    | none =>
      have ran : Body.run (Body.assign name value) frame m = some (.error (.unbound name), m) := by
        simp only [Body.run, Body.assign, scope, global]
      have ran' : Body.run (Body.assign name value') frame' m' =
          some (.error (.unbound name), m') := by
        simp only [Body.run, Body.assign, scope', global']
      exact .error ran ran' (.plain rfl (by simp)) machines

end Mirror.Moves

/-! ## Parameters -/

/-- Parameters with what they are bound to, one by one. -/
def BoundMirror (mirror : Mirror) (reflection : Reflection) :
    List (String × Option Value) -> List (String × Option Value) -> Prop :=
  List.Forall₂ fun bound bound' => bound'.1 = bound.1 ∧
    Option.Rel (Value.Mirrors mirror reflection) bound.2 bound'.2

variable {args args' : List Value} {bound bound' : List (String × Option Value)}
  {kwargs kwargs' : Kwargs}

/-- Arguments that are the same up to numbers are bound alike to parameters. -/
theorem ValuesMirror.bindPositional (params : List String)
    (same : ValuesMirror mirror reflection args args') :
    BoundMirror mirror reflection (bindPositional params args) (bindPositional params args') := by
  induction params generalizing args args' with
  | nil => exact .nil
  | cons param params ih =>
    cases same with
    | nil => exact .cons ⟨rfl, .none⟩ (ih .nil)
    | cons first rest => exact .cons ⟨rfl, .some first⟩ (ih rest)

/-- A keyword argument is bound alike, or both calls fail. -/
theorem BoundMirror.bindKeyword (mirrors : BoundMirror mirror reflection bound bound')
    (keyword : String) {value value' : Value} (same : value.Mirrors mirror reflection value') :
    Option.Rel (BoundMirror mirror reflection) (bindKeyword keyword value bound)
      (bindKeyword keyword value' bound') := by
  induction mirrors with
  | nil => exact .none
  | @cons first first' rest rest' known others ih =>
    obtain ⟨param, old⟩ := first
    obtain ⟨param', old'⟩ := first'
    obtain ⟨rfl, known⟩ : param' = param ∧ Option.Rel (Value.Mirrors mirror reflection) old old' :=
      known
    simp only [Trampoline.bindKeyword]
    split
    · exact .some (.cons ⟨rfl, .some same⟩ others)
    · generalize Trampoline.bindKeyword keyword value rest = inside at ih
      generalize Trampoline.bindKeyword keyword value' rest' = inside' at ih
      cases ih with
      | none => exact .none
      | some ih => exact .some (.cons ⟨rfl, known⟩ ih)

theorem BoundMirror.mono {later : Reflection} (order : reflection ≤ later)
    (mirrors : BoundMirror mirror reflection bound bound') :
    BoundMirror mirror later bound bound' :=
  List.Forall₂.imp
    (fun _ _ known => ⟨known.1, optionRel_imp known.2 fun _ _ same => same.mono order⟩) mirrors

namespace Mirror.Moves

variable {kwargs kwargs' : Kwargs} {bound bound' : List (String × Option Value)} {env env' : Env}

theorem bindKeywords (func : String) (same : KwargsMirror mirror reflection kwargs kwargs')
    (mirrors : BoundMirror mirror reflection bound bound') :
    mirror.Moves reflection (bindKeywords func kwargs bound) (bindKeywords func kwargs' bound')
      (BoundMirror mirror) := by
  induction same generalizing bound bound' with
  | nil => exact .pure mirrors
  | @cons first first' rest rest' known _ ih =>
    obtain ⟨keyword, value⟩ := first
    obtain ⟨keyword', value'⟩ := first'
    obtain ⟨rfl, known⟩ : keyword' = keyword ∧ value.Mirrors mirror reflection value' := known
    have bindsTo := mirrors.bindKeyword keyword' known
    simp only [Trampoline.bindKeywords]
    generalize bindKeyword keyword' value bound = inside at bindsTo
    generalize bindKeyword keyword' value' bound' = inside' at bindsTo
    cases bindsTo with
    | none => exact .failing rfl (by simp)
    | some binds => exact ih binds

/-- Cells for parameters stand for each other. -/
theorem bindCells (func : String) (mirrors : BoundMirror mirror reflection bound bound')
    (scope : Env.Mirrors mirror reflection veiled env env') :
    mirror.Moves reflection (bindCells func bound env) (bindCells func bound' env')
      fun later env env' => Env.Mirrors mirror later veiled env env' := by
  induction bound generalizing reflection bound' env env' with
  | nil =>
    cases mirrors
    exact .pure scope
  | cons first rest ih =>
    obtain ⟨param, value⟩ := first
    cases mirrors with
    | @cons _ first' _ rest' known others =>
    obtain ⟨param', value'⟩ := first'
    obtain ⟨rfl, known⟩ : param' = param ∧
      Option.Rel (Value.Mirrors mirror reflection) value value' :=
      known
    cases known with
    | none => exact .failing rfl (by simp)
    | some same =>
      refine (newCell same).bind fun later ref ref' order pair => ?_
      exact ih (BoundMirror.mono order others) (.cons pair (scope.mono order))

theorem parameterScope (signature : Signature)
    (scope : Env.Mirrors mirror reflection veiled env env') {args args' : List Value}
    (same : ValuesMirror mirror reflection args args')
    (named : KwargsMirror mirror reflection kwargs kwargs') :
    mirror.Moves reflection (parameterScope signature env args kwargs)
      (parameterScope signature env' args' kwargs')
      fun later env env' => Env.Mirrors mirror later veiled env env' := by
  simp only [Trampoline.parameterScope, same.length_eq]
  split
  · exact .failing rfl (by simp)
  · refine (bindKeywords _ named (same.bindPositional _)).bind fun later _ _ order binds => ?_
    exact bindCells _ binds (scope.mono order)

theorem bindValues (params : List String) {values values' : List Value}
    (same : ValuesMirror mirror reflection values values')
    (scope : Env.Mirrors mirror reflection veiled env env') :
    mirror.Moves reflection (bindValues params values env) (bindValues params values' env')
      fun later env env' => Env.Mirrors mirror later veiled env env' := by
  induction params generalizing reflection values values' env env' with
  | nil => exact .pure scope
  | cons param params ih =>
    cases same with
    | nil => exact .pure scope
    | cons first rest =>
      refine (newCell first).bind fun later ref ref' order pair => ?_
      exact ih (rest.mono order) (.cons pair (scope.mono order))

end Mirror.Moves

/-- What a continuation gives its variables, or the error that it fails with. -/
theorem ValuesMirror.resumeValues (same : ValuesMirror mirror reflection args args') (count : Nat) :
    (∃ error, error.isEscape = false ∧ error ≠ .captureOutsideBlock ∧
      resumeValues count args = .error error ∧ resumeValues count args' = .error error) ∨
    ∃ values values', ValuesMirror mirror reflection values values' ∧
      resumeValues count args = .ok values ∧ resumeValues count args' = .ok values' := by
  have length := same.length_eq
  unfold Trampoline.resumeValues
  rw [length]
  by_cases none : count = 0
  · simp only [if_pos none]
    exact .inr ⟨[], [], .nil, rfl, rfl⟩
  · simp only [if_neg none]
    by_cases fits : args.length = count
    · simp only [if_pos fits]
      exact .inr ⟨args, args', same, rfl, rfl⟩
    · simp only [if_neg fits]
      cases same with
      | nil => exact .inl ⟨_, rfl, by simp, rfl, rfl⟩
      | cons first rest =>
        cases rest with
        | @cons second _ others =>
          exact .inl ⟨.continuationArity count (others.length + 2), rfl, by simp, by simp, by simp⟩
        | nil =>
          cases first with
          | @tuple items items' same =>
            simp only [same.length_eq]
            split
            · exact .inr ⟨_, _, same, rfl, rfl⟩
            · exact .inl ⟨_, rfl, by simp, rfl, rfl⟩
          | _ => exact .inl ⟨_, rfl, by simp, rfl, rfl⟩

/-- A continuation is among the keyword arguments on both sides or on neither. -/
theorem KwargsMirror.any_isCc (same : KwargsMirror mirror reflection kwargs kwargs') :
    kwargs'.any isCc = kwargs.any isCc := by
  induction same with
  | nil => rfl
  | cons first _ ih => simp only [List.any_cons, isCc, first.1, ih]

/-- Keyword arguments that are the same up to numbers have the same names. -/
theorem KwargsMirror.names_eq (same : KwargsMirror mirror reflection kwargs kwargs') :
    kwargs'.map Prod.fst = kwargs.map Prod.fst := by
  induction same with
  | nil => rfl
  | cons first _ ih => simp only [List.map_cons, first.1, ih]

theorem KwargsMirror.replaceCc (same : KwargsMirror mirror reflection kwargs kwargs')
    {cc cc' : Value} (ofCc : cc.Mirrors mirror reflection cc') :
    KwargsMirror mirror reflection (replaceCc kwargs cc) (replaceCc kwargs' cc') := by
  refine List.rel_append ?_ (.cons ⟨rfl, ofCc⟩ .nil)
  exact List.rel_filter (fun {a b} known => by simp [isCc, known.1]) same

/-! ## Closures -/

namespace Mirror.Moves

/-- Wrappers are put around callables alike. -/
theorem wrap {base base' : Callable} (same : base.Mirrors mirror reflection base')
    (wrappers : List Decorator) :
    mirror.Moves reflection (wrap base wrappers) (wrap base' wrappers)
      (Callable.Mirrors mirror) := by
  induction wrappers with
  | nil => exact .pure same
  | cons wrapper inside ih =>
    refine ih.bind fun later inner inner' order same => ?_
    cases wrapper with
    | memoize =>
      exact newCache.bind fun _ _ _ order known => .pure (.memoized (same.mono order) known)
    | trampolined =>
      simp only [same.variant]
      exact .pure (.trampolined same)
    | looped => exact .pure (.looped same)
    | callEc => exact .pure (.escapePoint same)
    | continuations => exact .pure (.contEnabled same)
    | lazy => exact .pure (.lazyFn same)

/-- The extent of a frame, made on both sides if there is none. -/
theorem captureExtent (frames : frame.Mirrors mirror reflection veiled frame') :
    mirror.Moves reflection (expose Body.captureExtent frame) (expose Body.captureExtent frame')
      (InFrame mirror veiled fun later extent extent' => later.pairs .extent extent extent') := by
  intro m m' machines
  obtain ⟨env, isLazy, extent⟩ := frame
  obtain ⟨env', isLazy', extent'⟩ := frame'
  have extents := frames.extent
  simp only at extents
  cases extents with
  | some known => exact .value rfl rfl (Reflection.le_refl _) ⟨known, frames⟩ machines
  | none =>
    have order := reflection.le_pair .extent m.extents.size m'.extents.size
    refine .value rfl rfl order ⟨Reflection.pair_self, frames.env.mono order, frames.isLazy,
      .some Reflection.pair_self⟩ (machines.gain_stack m.gains_extent m'.gains_extent ?_ ?_)
    · simp only [Machine.content, Machine.count, getD_push_size]
      exact .extent fun _ => rfl
    · intro tracked
      have before := (machines.stack tracked).mono order
      simp only [Array.toList_push]
      refine ⟨?_, ?_, ?_⟩
      · rw [List.length_append]
        exact Nat.le_add_right_of_le before.depth
      · rw [List.length_append]
        exact Nat.le_add_right_of_le before.depth'
      · rw [List.drop_append_of_le_length before.depth, List.drop_append_of_le_length before.depth']
        exact List.rel_append before.same (.cons Reflection.pair_self .nil)

/-- Function expressions come to functions that are the same. -/
theorem makeClosure {function : Function} (allows : function.body.All (mirror.Allows veiled))
    (frames : frame.Mirrors mirror reflection veiled frame') :
    mirror.Moves reflection (expose (makeClosure function) frame)
      (expose (makeClosure function) frame')
      (InFrame mirror veiled (Value.Mirrors mirror)) := by
  simp only [Trampoline.makeClosure, expose_bind, expose_frame, pure_bind]
  cases function.signature.kind with
  | plain =>
    simp only [expose_bind, expose_within, expose_pure, bind_assoc, pure_bind]
    refine newClosure.bind fun later ref ref' order known => ?_
    refine (wrap (.closure veiled known allows (frames.env.mono order)) _).bind
      fun later callable callable' order' same => ?_
    exact .pure ⟨.func same, (frames.mono order).mono order'⟩
  | continuation =>
    simp only [expose_bind, expose_within, expose_pure, bind_assoc, pure_bind]
    refine (captureExtent frames).bind fun later ended ended' order known => ?_
    refine newContinuation.bind fun later₁ ref ref' order₁ pair => ?_
    refine (tell _ _).bind fun later₂ _ _ order₂ _ => ?_
    have above := Reflection.le_trans order₁ order₂
    refine .pure ⟨.func (.trampolined (.continuation veiled (order₂.pairs pair) allows
      (frames.env.mono (Reflection.le_trans order above)) (above.pairs known.1))),
        known.2.mono above⟩

end Mirror.Moves

end Trampoline
