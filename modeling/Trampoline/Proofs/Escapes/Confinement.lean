import Trampoline.Proofs.Escapes.Points
import Trampoline.Proofs.Syntax.Loans

/-!
# Escapes that are lent

An escape is lent to the body of the function that takes it: the body can call it while its point is
running and does nothing else with it. So escapes stand in the cells of parameters and nowhere else,
and what a value can call holds no escape in the names that it mentions.
-/

namespace Trampoline

/-! ## Functions -/

/-- The function takes an escape as its first argument, and its strict body only calls it. -/
structure Function.TakesEscape (function : Function) : Prop where
  strict : function.signature.isLazy = false
  calls : ∃ name rest, function.signature.params = name :: rest ∧
    function.body.Honours (· ≠ name) (· = name)

/-- The function is one of a source, and if it is given an escape it takes it as its first
argument. -/
structure Function.Confines (function : Function) : Prop where
  kind : function.signature.kind = .plain
  takes : .callEc ∈ function.signature.wrappers -> function.TakesEscape
  inside : ∀ outer inner, function.signature.wrappers = outer ++ .callEc :: inner ->
    ∀ wrapper ∈ inner, wrapper = .continuations

/-- All functions confine their escapes. -/
def AllConfine (functions : List Function) : Prop := ∀ function ∈ functions, function.Confines

section Confine

variable {mark : Mark}

@[simp] theorem allConfine_nil : AllConfine [] := fun _ member => absurd member List.not_mem_nil

/-- Functions confine their escapes list by list. -/
@[simp] theorem allConfine_append {functions others : List Function} :
    AllConfine (functions ++ others) ↔ AllConfine functions ∧ AllConfine others :=
  List.forall_mem_append

/-- Those of a conditional are in its arms and its alternative. -/
theorem allConfine_cond {arms : List (Expr × Expr)} {alt : Option Expr} :
    AllConfine (Expr.cond mark arms alt).functions ↔
      AllConfine (functionsOfArms arms) ∧ ∀ e ∈ alt, AllConfine e.functions := by
  cases alt <;> simp [Expr.functions]

/-- Those of a jump are in its callee, its arguments and its continuation. -/
theorem allConfine_jump {func : Expr} {args : List Expr} {kwargs : List (String × Expr)}
    {cc : Option Expr} :
    AllConfine (Expr.jump mark func args kwargs cc).functions ↔
      AllConfine func.functions ∧ AllConfine (functionsOfAll args) ∧
        AllConfine (functionsOfKwargs kwargs) ∧ ∀ e ∈ cc, AllConfine e.functions := by
  cases cc <;> simp [Expr.functions]

end Confine

/-! ## Scopes -/

/-- The tag of an escape. -/
def Value.escapeTag? : Value -> Option Nat
  | .func (.escape tag) => some tag
  | _ => none

namespace Machine

/-- The name stands for no escape in the scope. -/
def Harmless (m : Machine) (env : Env) (name : String) : Prop :=
  ∀ ref, env.lookup name = some ref -> ref < m.cells.size ∧ (m.cell ref).escapeTag? = none

/-- If the name stands for an escape in the scope of a strict body, then its point is running. -/
structure Lends (m : Machine) (frame : Frame) (name : String) : Prop where
  strict : frame.isLazy = false
  running : ∀ ref, frame.env.lookup name = some ref -> ref < m.cells.size ∧
    ∀ tag, (m.cell ref).escapeTag? = some tag -> m.running tag = true

/-- No cell gets an escape or loses one. -/
structure SameTags (m m' : Machine) : Prop where
  size : m.cells.size ≤ m'.cells.size
  tags : ∀ ref < m.cells.size, (m'.cell ref).escapeTag? = (m.cell ref).escapeTag?

/-- No cell gets an escape or loses one, and the same points are running. -/
structure Upholds (m m' : Machine) : Prop extends m.SameTags m' where
  points : m.SamePoints m'

variable {m middle m' : Machine}

theorem SameTags.of_eq (cells : m'.cells = m.cells) : m.SameTags m' where
  size := Nat.le_of_eq (congrArg Array.size cells).symm
  tags ref _ := by rw [cell, cell, cells]

theorem SameTags.trans (first : m.SameTags middle) (second : middle.SameTags m') :
    m.SameTags m' where
  size := Nat.le_trans first.size second.size
  tags ref inside :=
    (second.tags ref (Nat.lt_of_lt_of_le inside first.size)).trans (first.tags ref inside)

theorem Upholds.of_eq (cells : m'.cells = m.cells) (points : m'.points = m.points) :
    m.Upholds m' := ⟨.of_eq cells, .of_eq points⟩

/-- A machine upholds itself. -/
theorem Upholds.refl (m : Machine) : m.Upholds m := .of_eq rfl rfl

theorem Upholds.trans (first : m.Upholds middle) (second : middle.Upholds m') : m.Upholds m' :=
  ⟨first.toSameTags.trans second.toSameTags, first.points.trans second.points⟩

/-- A name that stands for no escape does not come to stand for one. -/
theorem Harmless.mono {env : Env} {name : String} (harmless : m.Harmless env name)
    (same : m.SameTags m') : m'.Harmless env name := by
  intro ref known
  obtain ⟨inside, untagged⟩ := harmless ref known
  exact ⟨Nat.lt_of_lt_of_le inside same.size, (same.tags ref inside).trans untagged⟩

/-- In the empty scope no name stands for anything. -/
theorem harmless_nil (name : String) : m.Harmless [] name := by
  rintro ref ⟨⟩

end Machine

/-- A running body proceeds to the next frame: names that it bound meanwhile stand for no
escapes. -/
structure Frame.Proceeds (frame : Frame) (m : Machine) (next : Frame) : Prop where
  isLazy : next.isLazy = frame.isLazy
  names : ∀ name ref, next.env.lookup name = some ref -> frame.env.lookup name = some ref ∨
    ref < m.cells.size ∧ (m.cell ref).escapeTag? = none

namespace Frame.Proceeds

variable {frame middle next : Frame} {m m' : Machine}

/-- A frame proceeds to itself. -/
theorem refl (frame : Frame) (m : Machine) : frame.Proceeds m frame := ⟨rfl, fun _ _ => .inl⟩

theorem mono (proceeds : frame.Proceeds m next) (upholds : m.Upholds m') :
    frame.Proceeds m' next where
  isLazy := proceeds.isLazy
  names name ref known := by
    refine (proceeds.names name ref known).imp_right fun ⟨inside, untagged⟩ => ?_
    exact ⟨Nat.lt_of_lt_of_le inside upholds.size, (upholds.tags ref inside).trans untagged⟩

/-- A frame proceeds step by step. -/
theorem trans (first : frame.Proceeds m middle) (second : middle.Proceeds m next) :
    frame.Proceeds m next where
  isLazy := second.isLazy.trans first.isLazy
  names name ref known := (second.names name ref known).elim (first.names name ref) .inr

/-- A name is bound to what is no escape. -/
theorem bind (proceeds : frame.Proceeds m next) (name : String) {ref : CellRef}
    (inside : ref < m.cells.size) (untagged : (m.cell ref).escapeTag? = none) :
    frame.Proceeds m { next with env := (name, ref) :: next.env } where
  isLazy := proceeds.isLazy
  names other found known := by
    simp only [List.lookup_cons] at known
    split at known
    · obtain rfl := Option.some.inj known
      exact .inr ⟨inside, untagged⟩
    · exact proceeds.names other found known

/-- The names of a block are forgotten at its end. -/
theorem forget (proceeds : frame.Proceeds m next) :
    frame.Proceeds m { next with env := frame.env } :=
  ⟨proceeds.isLazy, fun _ _ => .inl⟩

/-- What the body may use and call stays so. -/
theorem widens (proceeds : frame.Proceeds m' next) (upholds : m.Upholds m') :
    Widens (m.Harmless frame.env) (m'.Harmless next.env) (m.Lends frame) (m'.Lends next) where
  frees name _ harmless ref known := by
    rcases proceeds.names name ref known with old | new
    · exact harmless.mono upholds.toSameTags ref old
    · exact new
  lends name _ lends := by
    refine ⟨proceeds.isLazy.trans lends.strict, fun ref known => ?_⟩
    rcases proceeds.names name ref known with old | ⟨inside, untagged⟩
    · obtain ⟨inside, running⟩ := lends.running ref old
      refine ⟨Nat.lt_of_lt_of_le inside upholds.size, fun tag tagged => ?_⟩
      rw [upholds.tags ref inside] at tagged
      exact (upholds.points tag).trans (running tag tagged)
    · refine ⟨inside, fun tag tagged => ?_⟩
      cases untagged.symm.trans tagged

end Frame.Proceeds

/-! ## Values -/

/-- The scope of a function holds no escapes that its body mentions, and the functions inside
confine theirs. -/
structure Machine.Encloses (m : Machine) (function : Function) (env : Env) : Prop where
  body : function.body.Honours (m.Harmless env) fun _ => False
  functions : AllConfine function.body.functions

namespace Callable

/-- The callable takes an escape as its first argument. -/
def TakesEscape (m : Machine) : Callable -> Prop
  | closure _ function env => function.TakesEscape ∧ m.Encloses function env
  | contEnabled inner => inner.TakesEscape m
  | native _ | identity _ | trampolined .. | memoized .. | looped _ | loopHandle .. | escapePoint _
  | escape _ | lazyFn _ | continuation .. => False

/-- The callable is no escape and cannot get at one. -/
def Free (m : Machine) : Callable -> Prop
  | closure _ function env => m.Encloses function env
  | native _ | identity _ => True
  | trampolined inner _ | memoized inner _ | looped inner | loopHandle _ inner
  | contEnabled inner | lazyFn inner => inner.Free m
  | escapePoint inner => inner.TakesEscape m
  | escape _ | continuation .. => False

end Callable

mutual

/-- The value neither is an escape nor holds one. -/
def Value.Free (m : Machine) : Value -> Prop
  | .func callable => callable.Free m
  | .tuple items => AllFree m items
  | .nil | .bool _ | .int _ | .str _ | .list _ | .jump _ | .promise _ => True

/-- None of the values is an escape or holds one. -/
def AllFree (m : Machine) : List Value -> Prop
  | [] => True
  | value :: rest => value.Free m ∧ AllFree m rest

end

/-- None of the keyword arguments is an escape or holds one. -/
def NamedFree (m : Machine) (kwargs : Kwargs) : Prop := ∀ kwarg ∈ kwargs, kwarg.2.Free m

variable {m m' : Machine}

/-- Values are free one by one. -/
theorem allFree_iff {values : List Value} : AllFree m values ↔ ∀ value ∈ values, value.Free m := by
  induction values with
  | nil => simp [AllFree]
  | cons value rest ih => simp [AllFree, ih]

@[simp] theorem namedFree_nil : NamedFree m [] := fun _ member => absurd member List.not_mem_nil

variable {value : Value} {kwargs : Kwargs}

theorem NamedFree.cons {name : String} (free : value.Free m)
    (others : NamedFree m kwargs) : NamedFree m ((name, value) :: kwargs) :=
  List.forall_mem_cons.mpr ⟨free, others⟩

theorem NamedFree.replaceCc (named : NamedFree m kwargs) {cc : Value}
    (free : cc.Free m) : NamedFree m (replaceCc kwargs cc) := by
  intro kwarg member
  rcases List.mem_append.mp member with kept | new
  · exact named kwarg (List.mem_filter.mp kept).1
  · rw [List.mem_singleton.mp new]
    exact free

/-- A literal is no escape. -/
theorem Value.free_ofLiteral (literal : Literal) : (ofLiteral literal).Free m := by
  cases literal <;> trivial

/-- A free value is no escape. -/
theorem Value.Free.untagged (free : value.Free m) : value.escapeTag? = none := by
  cases value with
  | func callable =>
    cases callable with
    | escape tag => exact free.elim
    | _ => rfl
  | _ => rfl

/-- A value with the tag of an escape is that escape. -/
theorem Value.eq_escape {tag : Nat} (tagged : value.escapeTag? = some tag) :
    value = .func (.escape tag) := by
  cases value with
  | func callable =>
    cases callable with
    | escape other =>
      cases tagged
      rfl
    | _ => cases tagged
  | _ => cases tagged

theorem Callable.Free.underTrampoline {callable : Callable} (free : callable.Free m) :
    callable.underTrampoline.Free m := by
  cases callable with
  | trampolined inner variant => exact free
  | _ => exact free

section Mono

variable (same : m.SameTags m')
include same

/-- Where cells hold the same escapes, names that were harmless are so still. -/
theorem Machine.SameTags.widens (env : Env) :
    Widens (m.Harmless env) (m'.Harmless env) (fun _ => False) fun _ => False :=
  ⟨fun _ _ harmless => harmless.mono same, fun _ _ never => never⟩

theorem Machine.Encloses.mono {function : Function} {env : Env}
    (encloses : m.Encloses function env) :
    m'.Encloses function env :=
  ⟨encloses.body.mono (same.widens env), encloses.functions⟩

variable {callable : Callable}

theorem Callable.TakesEscape.mono (takes : callable.TakesEscape m) : callable.TakesEscape m' := by
  induction callable with
  | closure => exact ⟨takes.1, takes.2.mono same⟩
  | contEnabled inner ih => exact ih takes
  | _ => exact takes.elim

theorem Callable.Free.mono (free : callable.Free m) : callable.Free m' := by
  induction callable with
  | closure => exact Machine.Encloses.mono same free
  | native | identity => trivial
  | escapePoint inner => exact Callable.TakesEscape.mono same free
  | escape | continuation => exact free.elim
  | trampolined inner _ ih | memoized inner _ ih | looped inner ih | loopHandle _ inner ih
  | contEnabled inner ih | lazyFn inner ih => exact ih free

end Mono

mutual

/-- A free value stays so while cells hold the same escapes. -/
theorem Value.Free.mono (same : m.SameTags m') : ∀ {value : Value}, value.Free m -> value.Free m'
  | .func _, free => Callable.Free.mono same free
  | .tuple _, free => AllFree.mono same free
  | .nil, _ | .bool _, _ | .int _, _ | .str _, _ | .list _, _ | .jump _, _ | .promise _, _ =>
    trivial

theorem AllFree.mono (same : m.SameTags m') :
    ∀ {values : List Value}, AllFree m values -> AllFree m' values
  | [], _ => trivial
  | _ :: _, free => ⟨Value.Free.mono same free.1, AllFree.mono same free.2⟩

end

/-- So do free keyword arguments. -/
theorem NamedFree.mono (same : m.SameTags m') (named : NamedFree m kwargs) : NamedFree m' kwargs :=
  fun kwarg member => (named kwarg member).mono same

end Trampoline
