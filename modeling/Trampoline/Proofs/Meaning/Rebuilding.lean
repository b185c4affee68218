import Trampoline.Proofs.Evaluation.Runs
import Trampoline.Proofs.Spelling.Data
import Trampoline.Proofs.Spelling.Programs
import Trampoline.Transform.Program

/-!
# Data rebuilt from its text

The text of data is a program that builds equal data, unless a string in it has a character that is
written by its code point: then the text is no program. The program is one expression of constants
and calls to `tuple` and `list`, which the transformation leaves as it is.
-/

namespace Trampoline

mutual

/-- The expression builds the datum. -/
inductive Expr.Denotes : Expr -> Datum -> Prop where
  | atom (mark : Mark) (value : Literal) : Expr.Denotes (.lit mark value) (.atom value)
  | tuple (mark mark' : Mark) {args : List Expr} {data : List Datum} (all : DenoteAll args data) :
      Expr.Denotes (.call mark (.var mark' "tuple") args []) (.tuple data)
  | list (mark mark' : Mark) {args : List Expr} {data : List Datum} (all : DenoteAll args data) :
      Expr.Denotes (.call mark (.var mark' "list") args []) (.list data)

/-- The expressions build the data. -/
inductive DenoteAll : List Expr -> List Datum -> Prop where
  | nil : DenoteAll [] []
  | cons {e : Expr} {es : List Expr} {datum : Datum} {data : List Datum}
      (first : Expr.Denotes e datum) (rest : DenoteAll es data) :
      DenoteAll (e :: es) (datum :: data)

end

/-! ## Reading -/

namespace Build

open Form

variable {table : LineTable} {regions : Regions}

/-- What finishes a node makes it with some mark, so a fact for all marks holds of it. -/
theorem finish_produces {span : Span} {make : Mark -> Expr} {post : Expr -> Prop}
    (holds : ∀ mark, post (make mark)) : Produces False (finish span make) post :=
  ⟨fun _ => .inl ⟨_, _, rfl, holds _⟩⟩

variable {form : Form}

/-- A call by name to something that is no special form. -/
theorem call_produces {word : String} {items : List Spelling} {data : List Datum}
    (noSpecial : SpecialForm.ofWord? word = none) (notNil : word ≠ "nil")
    (spells : form.spelling = .list (.sym word :: items))
    (ofArgs : ∀ forms, spellings forms = items -> Produces False (args table regions false forms)
      fun read => DenoteAll read.1 data ∧ read.2 = []) :
    Produces False (expr table regions form) fun e => ∃ mark mark' args,
      e = .call mark (.var mark' word) args [] ∧ DenoteAll args data := by
  obtain ⟨span, forms, rfl, spell⟩ := spelling_eq_list spells
  obtain ⟨head, others, rfl, isHead, ofOthers⟩ := spellings_eq_cons spell
  obtain ⟨span', rfl⟩ := spelling_eq_sym isHead
  have named : Produces False (expr table regions (.sym span' word)) fun e =>
      ∃ mark', e = .var mark' word := by
    unfold expr
    simp only [if_neg notNil]
    exact finish_produces fun mark => ⟨mark, rfl⟩
  unfold expr
  simp only [Form.symbol?, Option.bind_some, noSpecial]
  refine .bind named ?_
  rintro _ ⟨mark', rfl⟩
  refine .bind (ofArgs others ofOthers) ?_
  rintro ⟨args, _⟩ ⟨all, rfl⟩
  exact finish_produces fun mark => ⟨mark, mark', args, rfl, all⟩

mutual

/-- What a datum spells is read as an expression that builds it. -/
theorem data_produces : ∀ (datum : Datum) {form : Form}, form.spelling = datum.spelling ->
    Produces False (expr table regions form) (·.Denotes datum)
  | .atom value, form, spells => by
    cases value with
    | nil =>
      obtain ⟨span, rfl⟩ := spelling_eq_sym spells
      unfold expr
      exact finish_produces fun mark => .atom mark .nil
    | bool value | int value | str value =>
      cases form <;> cases spells
      unfold expr
      exact finish_produces fun mark => .atom mark _
  | .tuple data, form, spells => by
    refine (call_produces rfl (by decide) spells fun forms => args_produce data).imp ?_
    rintro _ ⟨mark, mark', args, rfl, all⟩
    exact .tuple mark mark' all
  | .list data, form, spells => by
    refine (call_produces rfl (by decide) spells fun forms => args_produce data).imp ?_
    rintro _ ⟨mark, mark', args, rfl, all⟩
    exact .list mark mark' all

theorem args_produce : ∀ (data : List Datum) {forms : List Form},
    spellings forms = spellingsOfData data -> Produces False (args table regions false forms)
      fun read => DenoteAll read.1 data ∧ read.2 = []
  | [], forms, spell => by
    cases spellings_eq_nil spell
    unfold args
    exact .pure ⟨.nil, rfl⟩
  | datum :: data, forms, spell => by
    obtain ⟨form, others, rfl, first, later⟩ := spellings_eq_cons spell
    have plain (span name) : form ≠ .keyword span name := by
      rintro rfl
      exact datum.spelling_ne_keyword name first.symm
    rw [args_positional others plain]
    refine .bind (data_produces datum first) fun e denotes => .bind (args_produce data later) ?_
    rintro ⟨args, _⟩ ⟨all, rfl⟩
    exact .pure ⟨.cons denotes all, rfl⟩

end

/-- The form of a datum is read as one expression that denotes it. -/
theorem toplevel_data (datum : Datum) (spells : form.spelling = datum.spelling) :
    Produces False (toplevels table .none [form]) fun top => ∃ e : Expr,
      top = [.exec e] ∧ e.Denotes datum := by
  have bare : toplevel table .none form = (do
      let e ← expr table .none form
      pure [.exec e]) := by
    refine toplevel_bare fun word starts => ?_
    obtain ⟨rest, spelled⟩ := spelling_of_head? starts
    cases datum with
    | atom value => cases value <;> cases spells.symm.trans spelled
    | tuple | list =>
      cases spells.symm.trans spelled
      exact ⟨rfl, by decide, by decide⟩
  simp only [toplevels, bare, bind_assoc, pure_bind]
  exact .bind (data_produces datum spells) fun e denotes => .pure ⟨e, rfl, denotes⟩

end Build

/-! ## Transforming -/

section Transforming

variable {step : Function -> Transform Function}

mutual

/-- An expression that denotes data has no functions to map. -/
theorem Expr.Denotes.mapFunctions : ∀ {datum : Datum} {e : Expr}, e.Denotes datum ->
    e.mapFunctions step = pure e
  | .atom _, _, .atom mark value => rfl
  | .tuple _, _, .tuple mark mark' all | .list _, _, .list mark mark' all => by
    simp [Expr.mapFunctions, mapFunctionsOfKwargs, all.mapFunctions]

theorem DenoteAll.mapFunctions : ∀ {data : List Datum} {es : List Expr}, DenoteAll es data ->
    mapFunctionsOfAll step es = pure es
  | [], _, .nil => rfl
  | _ :: _, _, .cons first rest => by
    simp [mapFunctionsOfAll, first.mapFunctions, rest.mapFunctions]

end

mutual

/-- An expression that denotes data captures nothing. -/
theorem Expr.Denotes.hasCapture : ∀ {datum : Datum} {e : Expr}, e.Denotes datum ->
    e.hasCapture = false
  | .atom _, _, .atom mark value => rfl
  | .tuple _, _, .tuple mark mark' all | .list _, _, .list mark mark' all => by
    simp [Expr.hasCapture, anyCaptureInKwargs, all.anyCapture]

theorem DenoteAll.anyCapture : ∀ {data : List Datum} {es : List Expr}, DenoteAll es data ->
    Trampoline.anyCapture es = false
  | [], _, .nil => rfl
  | _ :: _, _, .cons first rest => by
    simp [Trampoline.anyCapture, first.hasCapture, rest.anyCapture]

end

/-- A program that builds data is left as it is. -/
theorem Expr.Denotes.transform {e : Expr} {datum : Datum} (denotes : e.Denotes datum)
    (table : DecoratorTable) (escapes : List String) (counters : Counters) :
    Program.transform table escapes ⟨[.exec e], counters⟩ = .ok ⟨⟨[.exec e], counters⟩, []⟩ := by
  have same : Transform.toplevels table escapes [.exec e] = pure [.exec e] := by
    simp [Transform.toplevels, Transform.checkTop, Transform.forbidCapture, Toplevel.expr,
      denotes.hasCapture, mapFunctionsOfTop, denotes.mapFunctions]
  unfold Program.transform
  rw [same]
  rfl

end Transforming

/-! ## Running -/

namespace Machine

/-- The names that data is written with have their first values. -/
structure Collects (m : Machine) : Prop where
  tuple : m.global? "tuple" = some (.func (.native .tuple))
  list : m.global? "list" = some (.func (.native .list))

/-- The lists of a machine are in another one too. -/
def KeepsLists (m more : Machine) : Prop :=
  ∀ {ref : Nat} {items : Array Value}, m.lists[ref]? = some items -> more.lists[ref]? = some items

/-- The machine has the same globals as another and its lists. -/
structure Extends (m more : Machine) : Prop where
  globals : more.globals = m.globals
  lists : m.KeepsLists more

variable {m more last : Machine}

theorem Extends.refl (m : Machine) : m.Extends m := ⟨rfl, id⟩

theorem Extends.trans (first : m.Extends more) (second : more.Extends last) : m.Extends last :=
  ⟨second.globals.trans first.globals, fun known => second.lists (first.lists known)⟩

/-- A new list keeps the others. -/
theorem extends_push (m : Machine) (items : Array Value) :
    m.Extends { m with lists := m.lists.push items } where
  globals := rfl
  lists := by
    intro ref old known
    have less : ref < m.lists.size := (Array.getElem?_eq_some_iff.mp known).1
    rw [Array.getElem?_push_lt less, ← known, Array.getElem?_eq_getElem less]

theorem extends_unwindTo (m : Machine) (mark : Nat) : m.Extends (m.unwindTo mark) := ⟨rfl, id⟩

theorem Collects.mono (collects : m.Collects) (grown : m.Extends more) : more.Collects := by
  obtain ⟨tuple, list⟩ := collects
  constructor <;> simpa only [global?, grown.globals]

mutual

theorem Holds.mono (kept : m.KeepsLists more) : ∀ {datum : Datum} {value : Value},
    m.Holds value datum -> more.Holds value datum
  | .atom _, _, holds => holds.eq_ofLiteral ▸ holds_ofLiteral _
  | .tuple _, _, .tuple all => .tuple (all.mono kept)
  | .list _, _, .list known all => .list (kept known) (all.mono kept)

theorem HoldsAll.mono (kept : m.KeepsLists more) : ∀ {data : List Datum} {values : List Value},
    m.HoldsAll values data -> more.HoldsAll values data
  | [], _, .nil => .nil
  | _ :: _, _, .cons first rest => .cons (first.mono kept) (rest.mono kept)

end

variable {datum : Datum} {value : Value} {name : String} {op : Native}

theorem Holds.ne_promise (holds : m.Holds value datum) (ref : Nat) : value ≠ .promise ref := by
  cases holds <;> nofun

/-- The native that a name stands for comes back from it. -/
theorem full_evalForced_native (global : m.global? name = some (.func (.native op))) (mark : Mark) :
    (Task.evalForced (.var mark name) Frame.toplevel).full m =
      some (.ok (.func (.native op), Frame.toplevel), m) := by
  have found : Body.run (Body.lookup name) Frame.toplevel m =
      some (.ok (.func (.native op)), m) := by
    simp [Body.run, Body.lookup, Frame.toplevel, global]
  have named : (Task.eval (.var mark name) Frame.toplevel).full m =
      some (.ok (.func (.native op), Frame.toplevel), m) := by
    rw [Task.full_eq, Task.plan]
    exact Plan.run_lift_bind found
  rw [Task.full_eq, Task.plan, Plan.run_sub_bind named]
  exact Plan.run_sub_bind (full_force fun _ same => by cases same)

/-- A call by name to a native that takes any arguments and neither forces nor calls. -/
theorem full_eval_native
    (global : m.global? name = some (.func (.native op))) (takesAll : op.arity = none)
    {mark mark' : Mark} {args : List Expr} {values : List Value}
    (operands : (Task.operands .strict args Frame.toplevel).full m =
      some (.ok (values, Frame.toplevel), more))
    {compute : Run Value} (computes : op.compute? values = some compute)
    (ends : compute more = some (.ok value, last)) :
    (Task.eval (.call mark (.var mark' name) args []) Frame.toplevel).full m =
      some (.ok (value, Frame.toplevel), last) := by
  have keywords : (Task.keywords .strict [] Frame.toplevel).full more =
      some (.ok ([], Frame.toplevel), more) := by
    rw [Task.full_eq]
    rfl
  have applied : (Task.apply (.native op) values []).full more = some (.ok value, last) := by
    rw [Task.full_eq, Task.plan, takesAll]
    refine (Plan.run_lift_bind rfl).trans ?_
    rw [Plan.run_sub, full_compute computes, ends]
  rw [Task.full_eq, Task.plan, Plan.run_sub_bind (full_evalForced_native global mark')]
  refine (Plan.run_lift_bind rfl).trans ?_
  refine (Plan.run_sub_bind operands).trans ?_
  refine (Plan.run_sub_bind keywords).trans ?_
  exact Plan.run_sub_bind applied

mutual

/-- An expression that builds data comes to it. -/
theorem full_eval_data : ∀ {datum : Datum} {e : Expr} {m : Machine}, e.Denotes datum ->
    m.Collects -> ∃ value later, (Task.eval e Frame.toplevel).full m =
      some (.ok (value, Frame.toplevel), later) ∧ m.Extends later ∧ later.Holds value datum
  | .atom literal, _, m, .atom mark _, _ => by
    refine ⟨.ofLiteral literal, m, ?_, .refl m, holds_ofLiteral literal⟩
    rw [Task.full_eq]
    rfl
  | .tuple data, _, m, .tuple mark mark' all, collects => by
    obtain ⟨values, later, ends, grown, holds⟩ := full_operands_data all collects
    exact ⟨_, later, full_eval_native collects.tuple rfl ends rfl rfl, grown, .tuple holds⟩
  | .list data, _, m, .list mark mark' all, collects => by
    obtain ⟨values, later, ends, grown, holds⟩ := full_operands_data all collects
    have pushed := extends_push later values.toArray
    refine ⟨_, _, full_eval_native collects.list rfl ends rfl rfl, grown.trans pushed, ?_⟩
    exact .list (Array.getElem?_push_size ..) (holds.mono pushed.lists)

theorem full_operands_data : ∀ {data : List Datum} {es : List Expr} {m : Machine},
    DenoteAll es data -> m.Collects -> ∃ values later,
      (Task.operands .strict es Frame.toplevel).full m =
        some (.ok (values, Frame.toplevel), later) ∧ m.Extends later ∧ later.HoldsAll values data
  | [], _, m, .nil, _ => by
    refine ⟨[], m, ?_, .refl m, .nil⟩
    rw [Task.full_eq]
    rfl
  | datum :: data, e :: _, m, .cons first rest, collects => by
    obtain ⟨value, more, ends, grown, holds⟩ := full_eval_data first collects
    obtain ⟨values, later, others, grown', holdsAll⟩ :=
      full_operands_data rest (collects.mono grown)
    have operand : (Task.operand .strict e Frame.toplevel).full m =
        some (.ok (value, Frame.toplevel), more) := by
      rw [Task.full_eq]
      exact (congrFun (Plan.run_sub Task.full (.eval e Frame.toplevel)) m).trans ends
    refine ⟨_, later, ?_, grown.trans grown', .cons (holds.mono grown'.lists) holdsAll⟩
    rw [Task.full_eq, Task.plan, Plan.run_sub_bind operand]
    exact Plan.run_sub_bind others

end

/-- A program that builds data ends with it. -/
theorem endsOn_data {e : Expr} (denotes : e.Denotes datum) (counters : Counters)
    (collects : m.Collects) : ∃ value last,
      Program.EndsOn ⟨[.exec e], counters⟩ m (.ok value, last) ∧ m.Extends last ∧
        last.Holds value datum := by
  obtain ⟨value, later, ends, grown, holds⟩ := full_eval_data denotes collects
  have unwound := extends_unwindTo later m.stack.size
  refine ⟨value, _, ?_, grown.trans unwound, holds.mono unwound.lists⟩
  have evaluated : (Plan.toplevel e).run Task.full m =
      some (.ok value, later.unwindTo m.stack.size) := by
    have inner : (Plan.ask (.eval e Frame.toplevel) fun ended => .done ended.1).run Task.full m =
        some (.ok value, later) := Exec.bind_apply ends _
    exact Exec.bind_apply (Exec.guarded_eq_some.mpr ⟨later, inner, rfl⟩) _
  rw [Program.endsOn_iff_full, Plan.toplevels, Plan.run_bind, Exec.bind_apply evaluated]
  exact Plan.run_sub_bind (full_force (holds.mono unwound.lists).ne_promise)

/-! ## Back from the text -/

/-- A new machine beside the lists that there are. -/
def restarted (m : Machine) (closedOutput : Bool) : Machine :=
  { start closedOutput with lists := m.lists }

/-- On a new run of a machine the names of natives have their first values. -/
theorem collects_restarted (m : Machine) (closedOutput : Bool) :
    (m.restarted closedOutput).Collects := by
  constructor <;> rfl

theorem keepsLists_restarted (m : Machine) (closedOutput : Bool) :
    m.KeepsLists (m.restarted closedOutput) := id

/-- The text of data is read as an expression that builds it, unless a string in the data has a
character that is written by its code point. -/
theorem Holds.parse_repr (holds : m.Holds value datum) (path : Option String) :
    (datum.isCoded = false ∧ ∃ e counters,
      Program.parse (m.repr value) path = .ok ⟨[.exec e], counters⟩ ∧ e.Denotes datum) ∨
    (datum.isCoded = true ∧ ∃ location,
      Program.parse (m.repr value) path = .error ⟨location, .invalidEscape 'u'⟩) := by
  have parse : Program.parse (m.repr value) path = (do
      let table := LineTable.ofSource (m.repr value) path
      let forms ← Form.readTokens table (tokensFrom 0 datum.spelling.chars) [] []
      Program.ofForms table forms) := by
    rw [Program.parse, Form.ofTokens, tokenize, holds.toList_repr]
  rw [parse]
  rcases Spelling.read_alone (LineTable.ofSource (m.repr value) path) datum.fair with
    ⟨clean, form, spells, reads⟩ | ⟨unclean, location, fails⟩
  · refine .inl ⟨datum.clean_iff.mp clean, ?_⟩
    simp only [reads, bind, Except.bind, Program.ofForms]
    rcases (Build.toplevel_data datum spells).ends ⟨0, 0⟩ with
      ⟨top, counters, ends, e, rfl, denotes⟩ | ⟨never, -⟩
    · exact ⟨e, counters, by rw [ends]; rfl, denotes⟩
    · exact never.elim
  · refine .inr ⟨Bool.of_not_eq_false (mt datum.clean_iff.mpr unclean), location, ?_⟩
    simp only [fails, bind, Except.bind]

/-- The text of data is a program that the transformation leaves as it is and that builds equal
data, exactly if no string in the data has a character that is written by its code point. Else the
text has an invalid escape. -/
theorem repr_rebuilds {value : Value} {datum : Datum} (holds : m.Holds value datum)
    (path : Option String) (table : DecoratorTable) (escapes : List String) (closedOutput : Bool) :
    ((∃ program rebuilt last, Program.parse (m.repr value) path = .ok program ∧
      program.transform table escapes = .ok ⟨program, []⟩ ∧
      program.EndsOn (m.restarted closedOutput) (.ok rebuilt, last) ∧
        last.equal rebuilt value = true) ↔ datum.isCoded = false) ∧
    (datum.isCoded = true -> ∃ location,
      Program.parse (m.repr value) path = .error ⟨location, .invalidEscape 'u'⟩) := by
  rcases holds.parse_repr path with ⟨plain, e, counters, parsed, denotes⟩ | ⟨coded, location, fails⟩
  · obtain ⟨rebuilt, last, ends, kept, same⟩ :=
      endsOn_data denotes counters (collects_restarted m closedOutput)
    have before := holds.mono (keepsLists_restarted m closedOutput)
    refine ⟨iff_of_true ⟨_, rebuilt, last, parsed, denotes.transform table escapes counters, ends,
      same.equal (before.mono kept.lists)⟩ plain, fun coded => ?_⟩
    cases plain.symm.trans coded
  · rw [fails, coded]
    exact ⟨iff_of_false (fun ⟨_, _, _, read, _⟩ => nomatch read) nofun, fun _ => ⟨location, rfl⟩⟩

end Machine

/-- A machine with one list, that holds a string. -/
def oneList : Machine := { Machine.start false with lists := #[#[.str "a\"\n"]] }

/-- A tuple that holds one list twice is an instance: its text is read and rebuilds it. -/
theorem nested_rebuilds :
    oneList.repr (.tuple [.list 0, .int (-9223372036854775808), .list 0]) =
      "(tuple (list \"a\\\"\\n\") -9223372036854775808 (list \"a\\\"\\n\"))" ∧
    ∃ program rebuilt last,
      Program.parse (oneList.repr (.tuple [.list 0, .int (-9223372036854775808), .list 0])) none =
        .ok program ∧
      program.EndsOn (oneList.restarted false) (.ok rebuilt, last) ∧
        last.equal rebuilt (.tuple [.list 0, .int (-9223372036854775808), .list 0]) = true := by
  have one : oneList.Holds (.list 0) (.list [.atom (.str "a\"\n")]) :=
    .list rfl (.cons (.str _) .nil)
  have holds := Machine.Holds.tuple
    (.cons one (.cons (.int (-9223372036854775808)) (.cons one .nil)))
  obtain ⟨program, rebuilt, last, parsed, -, ends, equal⟩ :=
    (Machine.repr_rebuilds holds none .default [] false).1.mpr (by decide +kernel)
  exact ⟨by decide +kernel, program, rebuilt, last, parsed, ends, equal⟩

end Trampoline
