import Trampoline.Proofs.Syntax.Places
import Trampoline.Proofs.Syntax.Source
import Trampoline.Proofs.Syntax.Steps
import Trampoline.Proofs.Spelling.Names

/-!
# Programs as forests

What the reader builds is a forest: every number below the counter is that of one expression in it,
expressions have higher numbers than their parts, and stand around them.
-/

namespace Trampoline

/-- The expressions that an expression owns: those evaluated as part of it, and the body of a
function. -/
def Expr.parts : Expr -> List Expr
  | .fn _ _ body => [body]
  | e => e.children

/-- The name of a function. -/
def Expr.functionName? : Expr -> Option String
  | .fn _ signature _ => signature.name
  | _ => none

/-- An expression that was finished after its parts and stands around them. -/
structure Expr.Encloses (e : Expr) : Prop where
  later : ∀ part ∈ e.parts, part.id < e.id
  around : ∀ part ∈ e.parts, part.span.Within e.span
  solid : e.span.Solid

/-- The nodes of two lists are those of one after the other. -/
theorem nodesOfAll_append (first second : List Expr) :
    nodesOfAll (first ++ second) = nodesOfAll first ++ nodesOfAll second := by
  induction first with
  | nil => rfl
  | cons e rest ih => rw [List.cons_append, nodesOfAll, ih, nodesOfAll, List.append_assoc]

/-- The nodes of keyword arguments are those of their values. -/
theorem nodesOfKwargs_eq (kwargs : List (String × Expr)) :
    nodesOfKwargs kwargs = nodesOfAll (kwargs.map Prod.snd) := by
  induction kwargs with
  | nil => rfl
  | cons first rest ih => rw [nodesOfKwargs, ih, List.map_cons, nodesOfAll]

/-- The nodes of arms are those of their tests and bodies. -/
theorem nodesOfArms_eq (arms : List (Expr × Expr)) :
    nodesOfArms arms = nodesOfAll (arms.flatMap fun (test, body) => [test, body]) := by
  induction arms with
  | nil => rfl
  | cons first rest ih =>
    obtain ⟨test, body⟩ := first
    simp [nodesOfArms, ih, nodesOfAll]

/-- The expressions in an expression are itself and those in its parts. -/
theorem Expr.nodes_parts (e : Expr) : e.nodes = e :: nodesOfAll e.parts := by
  cases e with
  | cond _ arms alt =>
    cases alt <;> simp [nodes, parts, children, nodesOfAll_append, nodesOfArms_eq, nodesOfAll]
  | jump _ func args kwargs cc =>
    cases cc <;> simp [nodes, parts, children, nodesOfAll_append, nodesOfKwargs_eq, nodesOfAll]
  | _ => simp [nodes, parts, children, nodesOfAll_append, nodesOfKwargs_eq, nodesOfAll]

theorem Expr.nodes_eq (e : Expr) : e.nodes = e :: e.nodes.tail := by
  rw [e.nodes_parts, List.tail_cons]

theorem Expr.self_mem_nodes (e : Expr) : e ∈ e.nodes := by
  rw [e.nodes_parts]
  exact List.mem_cons_self

/-- Each of several expressions is one of their nodes. -/
theorem mem_nodesOfAll {e : Expr} : ∀ {es : List Expr}, e ∈ es -> e ∈ nodesOfAll es
  | first :: rest, member => by
    rcases List.mem_cons.mp member with rfl | others
    · exact List.mem_append_left _ e.self_mem_nodes
    · exact List.mem_append_right _ (mem_nodesOfAll others)

/-- The parts of an expression are among the expressions in it. -/
theorem Expr.parts_subset (e : Expr) : ∀ part ∈ e.parts, part ∈ e.nodes.tail := by
  intro part member
  rw [e.nodes_parts]
  exact mem_nodesOfAll member

namespace Build

/-! ## Expressions in order -/

/-- The expressions are all that were finished so far, and the names of the functions among them
are of a kind. -/
structure Filed (kind : Spelling -> Prop) (nodes : List Expr) (counters : Counters) : Prop where
  ids : (nodes.map Expr.id).Perm (List.range counters.exprs)
  enclose : ∀ node ∈ nodes, node.Encloses
  named : ∀ node ∈ nodes, ∀ name, node.functionName? = some name -> kind (.sym name)

variable {kind : Spelling -> Prop} {nodes prior : List Expr} {before after : Counters}
  {table : LineTable} {regions : Regions}

namespace Filed

/-- The order in which nodes are filed does not matter. -/
theorem perm {nodes' : List Expr} (filed : Filed kind nodes before) (same : nodes.Perm nodes') :
    Filed kind nodes' before where
  ids := (same.symm.map _).trans filed.ids
  enclose node member := filed.enclose node (same.mem_iff.mpr member)
  named node member := filed.named node (same.mem_iff.mpr member)

/-- One more expression, after its parts. -/
theorem add {e : Expr} (filed : Filed kind (prior ++ e.nodes.tail) before)
    (marked : e.id = before.exprs) (count : after.exprs = before.exprs + 1) (solid : e.span.Solid)
    (around : ∀ part ∈ e.parts, part.span.Within e.span)
    (named : ∀ name, e.functionName? = some name -> kind (.sym name)) :
    Filed kind (prior ++ e.nodes) after := by
  rw [e.nodes_eq]
  suffices filed : Filed kind (e :: (prior ++ e.nodes.tail)) after from
    filed.perm List.perm_middle.symm
  have later : ∀ part ∈ e.parts, part.id < e.id := by
    intro part member
    have old := List.mem_append_right prior (e.parts_subset part member)
    have numbered := filed.ids.mem_iff.mp (List.mem_map_of_mem old)
    rw [marked]
    exact List.mem_range.mp numbered
  refine ⟨?_, List.forall_mem_cons.mpr ⟨⟨later, around, solid⟩, filed.enclose⟩,
    List.forall_mem_cons.mpr ⟨named, filed.named⟩⟩
  rw [List.map_cons, marked, count, List.range_succ]
  exact (filed.ids.cons _).trans (List.perm_append_singleton _ _).symm

end Filed

variable {span : Span} {e : Expr} {form : Form} {items : List Expr}

/-- An expression is finished after its parts. -/
theorem Filed.finish {make : Mark -> Expr} (ends : (finish span make).run before = .ok (e, after))
    (marked : ∀ mark, (make mark).mark = mark)
    (filed : ∀ mark, Filed kind (prior ++ (make mark).nodes.tail) before) (solid : span.Solid)
    (around : ∀ mark, ∀ part ∈ (make mark).parts, part.span.Within span)
    (named : ∀ mark name, (make mark).functionName? = some name -> kind (.sym name)) :
    Filed kind (prior ++ e.nodes) after ∧ e.span = span := by
  cases ends
  have mark := marked ⟨before.exprs, span⟩
  have place : (make ⟨before.exprs, span⟩).span = span := congrArg Mark.span mark
  refine ⟨.add (filed _) (congrArg Mark.id mark) rfl ?_ ?_ (named _), place⟩
  · rw [place]
    exact solid
  · rw [place]
    exact around _

/-! ## Names -/

/-- Reading a name changes no numbers. -/
theorem name_symbol {owner : SpecialForm} {found : String}
    (ends : (name table owner form).run before = .ok (found, after)) :
    form.symbol? = some found ∧ after = before := by
  unfold name at ends
  split at ends
  · cases ends
    exact ⟨‹_›, rfl⟩
  · cases ends

theorem name_still (owner : SpecialForm) (form : Form) : Still (name table owner form) :=
  fun _ _ _ ends => (name_symbol ends).2

/-- Reading names is a still step. -/
theorem names_still (owner : SpecialForm) (form : Form) : Still (names table owner form) := by
  unfold names
  split
  · exact .mapM (name_still owner) _
  · exact fun _ _ _ => nofun

/-- Reading a decorator is a still step. -/
theorem decorator_still (form : Form) : Still (decorator table form) := by
  unfold decorator
  split
  · exact .pure _
  · exact fun _ _ _ => nofun

/-- Reading a header is a still step. -/
theorem header_still (params : Form) (rest : List Form) : Still (header table params rest) := by
  unfold header
  refine .bind (names_still .fn params) fun params => ?_
  split
  · split
    · exact .bind (.mapM decorator_still _) fun _ => .pure _
    · exact fun _ _ _ => nofun
  · exact .pure _

theorem Filed.still {α : Type} {step : Build α} {value : α} (filed : Filed kind prior before)
    (still : Still step) (ends : step.run before = .ok (value, after)) : Filed kind prior after :=
  still before value after ends ▸ filed

/-! ## Expressions -/

/-- Each of the expressions stands inside of one of the forms. -/
def StandIn (forms : List Form) (es : List Expr) : Prop :=
  ∀ e ∈ es, ∃ form ∈ forms, e.span.Within form.span

namespace StandIn

variable {form : Form} {forms more : List Form} {e : Expr} {es others : List Expr} {span : Span}

theorem nil : StandIn forms [] := fun _ member => absurd member List.not_mem_nil

theorem cons (place : e.span = form.span) (others : StandIn forms es) :
    StandIn (form :: forms) (e :: es) := by
  refine List.forall_mem_cons.mpr
    ⟨⟨form, List.mem_cons_self, place ▸ .refl _⟩, fun part member => ?_⟩
  obtain ⟨other, listed, within⟩ := others part member
  exact ⟨other, List.mem_cons_of_mem _ listed, within⟩

theorem append (first : StandIn forms es) (second : StandIn forms others) :
    StandIn forms (es ++ others) := List.forall_mem_append.mpr ⟨first, second⟩

theorem mono (stand : StandIn forms es) (within : forms ⊆ more) : StandIn more es := by
  intro e member
  obtain ⟨form, listed, inside⟩ := stand e member
  exact ⟨form, within listed, inside⟩

/-- What stands in forms inside of a place is inside of it. -/
theorem around (stand : StandIn forms es) (within : ∀ form ∈ forms, form.span.Within span) :
    ∀ e ∈ es, e.span.Within span := by
  intro e member
  obtain ⟨form, listed, inside⟩ := stand e member
  exact inside.trans (within form listed)

end StandIn

/-- A block is finished after its items, somewhere around them. -/
theorem finishBlock_files (solid : span.Solid)
    (filed : Filed kind (prior ++ nodesOfAll items) before)
    (around : ∀ item ∈ items, item.span.Within span)
    (ends : (finish span fun mark => .seq mark items).run before = .ok (e, after)) :
    Filed kind (prior ++ e.nodes) after ∧ e.span = span :=
  Filed.finish ends (fun _ => rfl) (fun _ => filed) solid (fun _ => around) fun _ _ => nofun

/-- A function is finished after its body, which takes the same place. -/
theorem finishFunction_files {name : Option String} {header : Header}
    (solid : span.Solid) (filed : Filed kind (prior ++ nodesOfAll items) before)
    (around : ∀ item ∈ items, item.span.Within span)
    (named : ∀ found, name = some found -> kind (.sym found))
    (ends : (finishFunction regions span name header items).run before = .ok (e, after)) :
    Filed kind (prior ++ e.nodes) after ∧ e.span = span := by
  obtain ⟨body, middle, ofBody, ends⟩ := run_bind_ok ends
  obtain ⟨filed, place⟩ := finishBlock_files solid filed around ofBody
  obtain ⟨id, last, ofId, ends⟩ := run_bind_ok ends
  cases ofId
  have filed : Filed kind (prior ++ body.nodes)
      { middle with functions := middle.functions + 1 } := ⟨filed.ids, filed.enclose, filed.named⟩
  refine Filed.finish ends (fun _ => rfl) (fun _ => filed) solid (fun _ => ?_) fun _ => named
  exact List.forall_mem_singleton.mpr (place ▸ .refl span)

theorem nodes_cond (mark : Mark) (arms : List (Expr × Expr)) (alt : Option Expr) :
    (Expr.cond mark arms alt).nodes =
      .cond mark arms alt :: (nodesOfArms arms ++ nodesOfAll alt.toList) := by
  cases alt <;> simp [Expr.nodes, nodesOfAll]

/-- What comes of an expression that is read from a form. -/
structure FilesFrom (kind : Spelling -> Prop) (form : Form) (step : Build Expr) : Prop where
  ends : ∀ {prior before e after}, Filed kind prior before -> step.run before = .ok (e, after) ->
    Filed kind (prior ++ e.nodes) after ∧ e.span = form.span

/-- What comes of arguments that are read from forms. -/
structure ArgsFileFrom (kind : Spelling -> Prop) (forms : List Form)
    (step : Build (List Expr × List (String × Expr))) : Prop where
  ends : ∀ {prior before args kwargs after}, Filed kind prior before ->
    step.run before = .ok ((args, kwargs), after) ->
      Filed kind (prior ++ (nodesOfAll args ++ nodesOfKwargs kwargs)) after ∧
        StandIn forms (args ++ kwargs.map Prod.snd)

/-- A positional argument is filed before the others. -/
theorem positional_files {rest : List Form} (plain : ∀ span name, form ≠ .keyword span name)
    (first : FilesFrom kind form (expr table regions form))
    (others : ArgsFileFrom kind rest (args table regions false rest)) :
    ArgsFileFrom kind (form :: rest) (args table regions false (form :: rest)) := by
  constructor
  intro prior before values named after filed ends
  rw [args_positional rest plain] at ends
  obtain ⟨value, middle, ofValue, ends⟩ := run_bind_ok ends
  obtain ⟨⟨args, kwargs⟩, last, ofArgs, ends⟩ := run_bind_ok ends
  cases ends
  obtain ⟨filed, place⟩ := first.ends filed ofValue
  obtain ⟨filed, places⟩ := others.ends filed ofArgs
  exact ⟨by simpa [nodesOfAll] using filed, .cons place places⟩

mutual

/-- An expression is filed with all its nodes, inside of its form. -/
theorem expr_files : ∀ form : Form, form.Nested -> form.Of kind ->
    FilesFrom kind form (expr table regions form)
  | .int span value, nested, _ => by
    constructor
    intro prior before e after filed ends
    unfold expr at ends
    exact Filed.finish ends (fun _ => rfl) (fun _ => by simpa [Expr.nodes] using filed)
      nested.solid (fun _ => nofun) fun _ _ => nofun
  | .str span value, nested, _ => by
    constructor
    intro prior before e after filed ends
    unfold expr at ends
    exact Filed.finish ends (fun _ => rfl) (fun _ => by simpa [Expr.nodes] using filed)
      nested.solid (fun _ => nofun) fun _ _ => nofun
  | .bool span value, nested, _ => by
    constructor
    intro prior before e after filed ends
    unfold expr at ends
    exact Filed.finish ends (fun _ => rfl) (fun _ => by simpa [Expr.nodes] using filed)
      nested.solid (fun _ => nofun) fun _ _ => nofun
  | .sym span name, nested, _ => by
    constructor
    intro prior before e after filed ends
    unfold expr at ends
    by_cases isNil : name = "nil"
    · simp only [if_pos isNil] at ends
      exact Filed.finish ends (fun _ => rfl) (fun _ => by simpa [Expr.nodes] using filed)
        nested.solid (fun _ => nofun) fun _ _ => nofun
    · simp only [if_neg isNil] at ends
      exact Filed.finish ends (fun _ => rfl) (fun _ => by simpa [Expr.nodes] using filed)
        nested.solid (fun _ => nofun) fun _ _ => nofun
  | .keyword .., _, _ => by
    constructor
    intro _ _ _ _ _ ends
    unfold expr at ends
    cases ends
  | .list _ [], _, _ => by
    constructor
    intro _ _ _ _ _ ends
    unfold expr at ends
    cases ends
  | .list span (head :: items), nested, ofKind => by
    constructor
    intro prior before e after filed ends
    have solid : span.Solid := nested.solid
    obtain ⟨ofHead, ofItems⟩ := List.forall_mem_cons.mp (Form.of_list.mp ofKind)
    obtain ⟨⟨inHead, nestedHead⟩, inItems⟩ := List.forall_mem_cons.mp (nested.items rfl)
    have nestedItems : ∀ item ∈ items, item.Nested := fun item member => (inItems item member).2
    have within : ∀ item ∈ items, item.span.Within span :=
      fun item member => (inItems item member).1
    unfold expr at ends
    cases special : head.symbol?.bind SpecialForm.ofWord? with
    | none =>
      simp only [special] at ends
      obtain ⟨func, middle, ofFunc, ends⟩ := run_bind_ok ends
      obtain ⟨⟨args, kwargs⟩, last, ofArgs, ends⟩ := run_bind_ok ends
      obtain ⟨filed, place⟩ := (expr_files head nestedHead ofHead).ends filed ofFunc
      obtain ⟨filed, places⟩ := (args_file false items nestedItems ofItems).ends filed ofArgs
      refine Filed.finish ends (fun _ => rfl) (fun _ => by simpa [Expr.nodes] using filed) solid
        (fun _ => ?_) fun _ _ => nofun
      exact StandIn.around (.cons place places) (List.forall_mem_cons.mpr ⟨inHead, within⟩)
    | some word =>
      simp only [special] at ends
      cases word with
      | define => cases ends
      | fn =>
        match items with
        | [] => cases ends
        | params :: rest =>
          obtain ⟨ofParams, ofRest⟩ := List.forall_mem_cons.mp ofItems
          obtain ⟨-, nestedRest⟩ := List.forall_mem_cons.mp nestedItems
          obtain ⟨-, inRest⟩ := List.forall_mem_cons.mp within
          obtain ⟨header, middle, ofHeader, ends⟩ := run_bind_ok ends
          obtain ⟨body, last, ofBody, ends⟩ := run_bind_ok ends
          have filed := filed.still (header_still params rest) ofHeader
          obtain ⟨filed, places⟩ := block_files header.skipped rest nestedRest ofRest filed ofBody
          exact finishFunction_files solid filed (places.around inRest) (by rintro _ ⟨⟩) ends
      | defn =>
        match items with
        | [] | [_] => cases ends
        | binder :: params :: rest =>
          obtain ⟨ofBinder, ofItems⟩ := List.forall_mem_cons.mp ofItems
          obtain ⟨-, ofRest⟩ := List.forall_mem_cons.mp ofItems
          have nestedRest : ∀ item ∈ rest, item.Nested :=
            fun item member => nestedItems item (by simp [member])
          have inRest : ∀ item ∈ rest, item.span.Within span :=
            fun item member => within item (by simp [member])
          obtain ⟨name, middle, ofName, ends⟩ := run_bind_ok ends
          obtain ⟨header, middle', ofHeader, ends⟩ := run_bind_ok ends
          obtain ⟨body, last, ofBody, ends⟩ := run_bind_ok ends
          obtain ⟨func, final, ofFunc, ends⟩ := run_bind_ok ends
          have symbol := (name_symbol ofName).1
          have filed := filed.still (name_still .defn binder) ofName
          have filed := filed.still (header_still params rest) ofHeader
          obtain ⟨filed, places⟩ := block_files header.skipped rest nestedRest ofRest filed ofBody
          obtain ⟨filed, place⟩ := finishFunction_files solid filed (places.around inRest)
            (fun found same => Option.some.inj same ▸ kind_symbol ofBinder symbol) ofFunc
          refine Filed.finish ends (fun _ => rfl) (fun _ => filed) solid (fun _ => ?_)
            fun _ _ => nofun
          exact List.forall_mem_singleton.mpr (place ▸ .refl span)
      | conditional =>
        match items with
        | [] | [_] | _ :: _ :: _ :: _ :: _ => cases ends
        | [test, body] =>
          obtain ⟨nestedTest, nestedBody⟩ := List.forall_mem_cons.mp nestedItems
          obtain ⟨ofTest, ofBody⟩ := List.forall_mem_cons.mp ofItems
          obtain ⟨test', middle, ranTest, ends⟩ := run_bind_ok ends
          obtain ⟨body', last, ranBody, ends⟩ := run_bind_ok ends
          obtain ⟨filed, place⟩ := (expr_files test nestedTest ofTest).ends filed ranTest
          obtain ⟨filed, place'⟩ := (expr_files body (List.forall_mem_singleton.mp nestedBody)
            (List.forall_mem_singleton.mp ofBody)).ends filed ranBody
          refine Filed.finish ends (fun _ => rfl)
            (fun _ => by simpa [Expr.nodes, nodesOfArms] using filed) solid (fun _ => ?_)
            fun _ _ => nofun
          exact StandIn.around (.cons place (.cons place' .nil)) within
        | [test, body, alt] =>
          obtain ⟨nestedTest, nestedItems⟩ := List.forall_mem_cons.mp nestedItems
          obtain ⟨nestedBody, nestedAlt⟩ := List.forall_mem_cons.mp nestedItems
          obtain ⟨ofTest, ofItems⟩ := List.forall_mem_cons.mp ofItems
          obtain ⟨ofBody, ofAlt⟩ := List.forall_mem_cons.mp ofItems
          obtain ⟨test', middle, ranTest, ends⟩ := run_bind_ok ends
          obtain ⟨body', middle', ranBody, ends⟩ := run_bind_ok ends
          obtain ⟨alt', last, ranAlt, ends⟩ := run_bind_ok ends
          obtain ⟨filed, place⟩ := (expr_files test nestedTest ofTest).ends filed ranTest
          obtain ⟨filed, place'⟩ := (expr_files body nestedBody ofBody).ends filed ranBody
          obtain ⟨filed, place''⟩ := (expr_files alt (List.forall_mem_singleton.mp nestedAlt)
            (List.forall_mem_singleton.mp ofAlt)).ends filed ranAlt
          refine Filed.finish ends (fun _ => rfl)
            (fun _ => by simpa [Expr.nodes, nodesOfArms] using filed) solid (fun _ => ?_)
            fun _ _ => nofun
          exact StandIn.around (.cons place (.cons place' (.cons place'' .nil))) within
      | cond =>
        obtain ⟨⟨arms, alt⟩, middle, ofClauses, ends⟩ := run_bind_ok ends
        obtain ⟨filed, places⟩ := clauses_file items nestedItems ofItems filed ofClauses
        by_cases empty : arms.isEmpty = true
        · simp only [if_pos empty] at ends
          cases ends
        · simp only [if_neg empty] at ends
          refine Filed.finish ends (fun _ => rfl) (fun mark => ?_) solid
            (fun _ => places.around within) fun _ _ => nofun
          rwa [nodes_cond, List.tail_cons]
      | and | or =>
        obtain ⟨operands, middle, ofOperands, ends⟩ := run_bind_ok ends
        obtain ⟨filed, places⟩ := block_files 0 items nestedItems ofItems filed ofOperands
        exact Filed.finish ends (fun _ => rfl) (fun _ => filed) solid
          (fun _ => places.around within) fun _ _ => nofun
      | begin =>
        obtain ⟨body, middle, ofBody, ends⟩ := run_bind_ok ends
        obtain ⟨filed, places⟩ := block_files 0 items nestedItems ofItems filed ofBody
        exact finishBlock_files solid filed (places.around within) ends
      | bind =>
        match items with
        | [] | [_] | _ :: _ :: _ :: _ => cases ends
        | [binder, bindee] =>
          have nestedBindee : bindee.Nested := nestedItems bindee (by simp)
          obtain ⟨name, middle, ofName, ends⟩ := run_bind_ok ends
          obtain ⟨bindee', last, ofBindee, ends⟩ := run_bind_ok ends
          have filed := filed.still (name_still .bind binder) ofName
          obtain ⟨filed, place⟩ :=
            (expr_files bindee nestedBindee (ofItems bindee (by simp))).ends filed
            ofBindee
          refine Filed.finish ends (fun _ => rfl) (fun _ => filed) solid (fun _ => ?_)
            fun _ _ => nofun
          exact List.forall_mem_singleton.mpr (place ▸ within bindee (by simp))
      | assign =>
        match items with
        | [] | [_] | _ :: _ :: _ :: _ => cases ends
        | [binder, bindee] =>
          have nestedBindee : bindee.Nested := nestedItems bindee (by simp)
          obtain ⟨name, middle, ofName, ends⟩ := run_bind_ok ends
          obtain ⟨bindee', last, ofBindee, ends⟩ := run_bind_ok ends
          have filed := filed.still (name_still .assign binder) ofName
          obtain ⟨filed, place⟩ :=
            (expr_files bindee nestedBindee (ofItems bindee (by simp))).ends filed
            ofBindee
          refine Filed.finish ends (fun _ => rfl) (fun _ => filed) solid (fun _ => ?_)
            fun _ _ => nofun
          exact List.forall_mem_singleton.mpr (place ▸ within bindee (by simp))
      | loop =>
        match items with
        | [] => cases ends
        | test :: rest =>
          obtain ⟨nestedTest, nestedRest⟩ := List.forall_mem_cons.mp nestedItems
          obtain ⟨ofTest, ofRest⟩ := List.forall_mem_cons.mp ofItems
          obtain ⟨inTest, inRest⟩ := List.forall_mem_cons.mp within
          obtain ⟨test', middle, ranTest, ends⟩ := run_bind_ok ends
          obtain ⟨items', middle', ranItems, ends⟩ := run_bind_ok ends
          obtain ⟨body', last, ranBody, ends⟩ := run_bind_ok ends
          obtain ⟨filed, place⟩ := (expr_files test nestedTest ofTest).ends filed ranTest
          obtain ⟨filed, places⟩ := block_files 0 rest nestedRest ofRest filed ranItems
          obtain ⟨filed, place'⟩ := finishBlock_files solid filed (places.around inRest) ranBody
          refine Filed.finish ends (fun _ => rfl) (fun _ => by simpa [Expr.nodes] using filed) solid
            (fun _ => ?_) fun _ _ => nofun
          exact List.forall_mem_cons.mpr
            ⟨place ▸ inTest, List.forall_mem_singleton.mpr (place' ▸ .refl span)⟩
      | jump =>
        match items with
        | [] => cases ends
        | func :: rest =>
          obtain ⟨nestedFunc, nestedRest⟩ := List.forall_mem_cons.mp nestedItems
          obtain ⟨ofFunc, ofRest⟩ := List.forall_mem_cons.mp ofItems
          obtain ⟨func', middle, ranFunc, ends⟩ := run_bind_ok ends
          obtain ⟨⟨args, kwargs⟩, last, ofArgs, ends⟩ := run_bind_ok ends
          obtain ⟨filed, place⟩ := (expr_files func nestedFunc ofFunc).ends filed ranFunc
          obtain ⟨filed, places⟩ := (args_file false rest nestedRest ofRest).ends filed ofArgs
          refine Filed.finish ends (fun _ => rfl) (fun _ => by simpa [Expr.nodes] using filed) solid
            (fun _ => ?_) fun _ _ => nofun
          simp only [Expr.parts, Expr.children, Option.toList_none, List.append_nil]
          exact StandIn.around (.cons place places) within
      | capture =>
        match items with
        | [] | [_] | _ :: _ :: _ :: _ => cases ends
        | [binders, call] =>
          have nestedCall : call.Nested := nestedItems call (by simp)
          obtain ⟨names, middle, ofNames, ends⟩ := run_bind_ok ends
          obtain ⟨call', last, ofCall, ends⟩ := run_bind_ok ends
          have filed := filed.still (names_still .capture binders) ofNames
          obtain ⟨filed, place⟩ :=
            (expr_files call nestedCall (ofItems call (by simp))).ends filed ofCall
          cases call' with
          | call =>
            refine Filed.finish ends (fun _ => rfl) (fun _ => filed) solid (fun _ => ?_)
              fun _ _ => nofun
            exact List.forall_mem_singleton.mpr (place ▸ within call (by simp))
          | _ => cases ends

theorem block_files : ∀ (skipped : Nat) (forms : List Form), (∀ form ∈ forms, form.Nested) ->
    (∀ form ∈ forms, form.Of kind) -> ∀ {prior before es after}, Filed kind prior before ->
      (block table regions skipped forms).run before = .ok (es, after) ->
        Filed kind (prior ++ nodesOfAll es) after ∧ StandIn forms es
  | _, [], _, _, prior, before, es, after, filed, ends => by
    simp only [block] at ends
    cases ends
    exact ⟨by simpa [nodesOfAll] using filed, .nil⟩
  | skipped + 1, form :: rest, nested, ofKind, prior, before, es, after, filed, ends => by
    unfold block at ends
    obtain ⟨filed, places⟩ := block_files skipped rest (List.forall_mem_cons.mp nested).2
      (List.forall_mem_cons.mp ofKind).2 filed ends
    exact ⟨filed, places.mono (List.subset_cons_self form rest)⟩
  | 0, form :: rest, nested, ofKind, prior, before, es, after, filed, ends => by
    obtain ⟨nestedForm, nestedRest⟩ := List.forall_mem_cons.mp nested
    obtain ⟨ofForm, ofRest⟩ := List.forall_mem_cons.mp ofKind
    unfold block at ends
    obtain ⟨first, middle, ofFirst, ends⟩ := run_bind_ok ends
    obtain ⟨others, last, ofOthers, ends⟩ := run_bind_ok ends
    cases ends
    obtain ⟨filed, place⟩ := (expr_files form nestedForm ofForm).ends filed ofFirst
    obtain ⟨filed, places⟩ := block_files 0 rest nestedRest ofRest filed ofOthers
    exact ⟨by simpa [nodesOfAll] using filed, .cons place places⟩

theorem args_file : ∀ (afterKeyword : Bool) (forms : List Form), (∀ form ∈ forms, form.Nested) ->
    (∀ form ∈ forms, form.Of kind) ->
      ArgsFileFrom kind forms (args table regions afterKeyword forms)
  | _, [], _, _ => by
    constructor
    intro prior before values named after filed ends
    unfold args at ends
    cases ends
    exact ⟨by simpa [nodesOfAll, nodesOfKwargs] using filed, .nil⟩
  | _, [.keyword _ name], _, _ => by
    constructor
    intro _ _ _ _ _ _ ends
    unfold args at ends
    cases ends
  | afterKeyword, .keyword span name :: value :: rest, nested, ofKind => by
    constructor
    intro prior before values named after filed ends
    have nestedValue : value.Nested := nested value (by simp)
    have nestedRest : ∀ form ∈ rest, form.Nested :=
      fun form member => nested form (by simp [member])
    have ofRest : ∀ form ∈ rest, form.Of kind := fun form member => ofKind form (by simp [member])
    unfold args at ends
    obtain ⟨value', middle, ofValue, ends⟩ := run_bind_ok ends
    obtain ⟨⟨args, kwargs⟩, last, ofArgs, ends⟩ := run_bind_ok ends
    cases ends
    obtain ⟨filed, place⟩ :=
      (expr_files value nestedValue (ofKind value (by simp))).ends filed ofValue
    obtain ⟨filed, places⟩ := (args_file true rest nestedRest ofRest).ends filed ofArgs
    refine ⟨filed.perm ?_, ?_⟩
    · rw [nodesOfKwargs, List.append_assoc, List.perm_append_left_iff]
      exact List.perm_append_comm_assoc _ _ _
    · have both := (StandIn.cons place places).mono (List.subset_cons_self (.keyword span name) _)
      exact fun e member => both e (by simpa [or_left_comm] using member)
  | true, .int .. :: _, _, _ | true, .str .. :: _, _, _ | true, .bool .. :: _, _, _
  | true, .sym .. :: _, _, _ | true, .list .. :: _, _, _ => by
    constructor
    intro _ _ _ _ _ _ ends
    unfold args at ends
    cases ends
  | false, .int span value :: rest, nested, ofKind =>
    positional_files (fun _ _ => nofun)
      (expr_files (.int span value) (nested _ (by simp)) (ofKind _ (by simp)))
      (args_file false rest (fun form member => nested form (by simp [member]))
        fun form member => ofKind form (by simp [member]))
  | false, .str span value :: rest, nested, ofKind =>
    positional_files (fun _ _ => nofun)
      (expr_files (.str span value) (nested _ (by simp)) (ofKind _ (by simp)))
      (args_file false rest (fun form member => nested form (by simp [member]))
        fun form member => ofKind form (by simp [member]))
  | false, .bool span value :: rest, nested, ofKind =>
    positional_files (fun _ _ => nofun)
      (expr_files (.bool span value) (nested _ (by simp)) (ofKind _ (by simp)))
      (args_file false rest (fun form member => nested form (by simp [member]))
        fun form member => ofKind form (by simp [member]))
  | false, .sym span name :: rest, nested, ofKind =>
    positional_files (fun _ _ => nofun)
      (expr_files (.sym span name) (nested _ (by simp)) (ofKind _ (by simp)))
      (args_file false rest (fun form member => nested form (by simp [member]))
        fun form member => ofKind form (by simp [member]))
  | false, .list span items :: rest, nested, ofKind =>
    positional_files (fun _ _ => nofun)
      (expr_files (.list span items) (nested _ (by simp)) (ofKind _ (by simp)))
      (args_file false rest (fun form member => nested form (by simp [member]))
        fun form member => ofKind form (by simp [member]))

theorem clauses_file : ∀ forms : List Form, (∀ form ∈ forms, form.Nested) ->
    (∀ form ∈ forms, form.Of kind) -> ∀ {prior before arms alt after}, Filed kind prior before ->
      (clauses table regions forms).run before = .ok ((arms, alt), after) ->
        Filed kind (prior ++ (nodesOfArms arms ++ nodesOfAll alt.toList)) after ∧
          StandIn forms (arms.flatMap (fun (test, body) => [test, body]) ++ alt.toList)
  | [], _, _, prior, before, arms, alt, after, filed, ends => by
    unfold clauses at ends
    cases ends
    exact ⟨by simpa [nodesOfArms, nodesOfAll] using filed, .nil⟩
  | .list span (test :: body) :: rest, nested, ofKind, prior, before, arms, alt, after,
      filed, ends => by
    obtain ⟨nestedClause, nestedRest⟩ := List.forall_mem_cons.mp nested
    obtain ⟨ofClause, ofRest⟩ := List.forall_mem_cons.mp ofKind
    obtain ⟨ofTest, ofBody⟩ := List.forall_mem_cons.mp (Form.of_list.mp ofClause)
    obtain ⟨⟨inTest, nestedTest⟩, inBody⟩ := List.forall_mem_cons.mp (nestedClause.items rfl)
    have nestedBody : ∀ item ∈ body, item.Nested := fun item member => (inBody item member).2
    have within : ∀ item ∈ body, item.span.Within span := fun item member => (inBody item member).1
    have solid : span.Solid := nestedClause.solid
    unfold clauses at ends
    by_cases isAlternative : isElse test = true
    · simp only [if_pos isAlternative] at ends
      by_cases isLast : rest.isEmpty = true
      · simp only [if_pos isLast] at ends
        obtain ⟨items, middle, ofItems, ends⟩ := run_bind_ok ends
        obtain ⟨alt, last, ofAlt, ends⟩ := run_bind_ok ends
        cases ends
        obtain ⟨filed, places⟩ := block_files 0 body nestedBody ofBody filed ofItems
        obtain ⟨filed, place⟩ := finishBlock_files solid filed (places.around within) ofAlt
        exact ⟨by simpa [nodesOfArms, nodesOfAll] using filed, .cons place .nil⟩
      · simp only [if_neg isLast] at ends
        cases ends
    · simp only [if_neg isAlternative] at ends
      obtain ⟨test', middle, ranTest, ends⟩ := run_bind_ok ends
      obtain ⟨items, middle', ofItems, ends⟩ := run_bind_ok ends
      obtain ⟨body', middle'', ranBody, ends⟩ := run_bind_ok ends
      obtain ⟨⟨arms, alt⟩, last, ofClauses, ends⟩ := run_bind_ok ends
      cases ends
      obtain ⟨filed, place⟩ := (expr_files test nestedTest ofTest).ends filed ranTest
      obtain ⟨filed, places⟩ := block_files 0 body nestedBody ofBody filed ofItems
      obtain ⟨filed, place'⟩ := finishBlock_files solid filed (places.around within) ranBody
      obtain ⟨filed, others⟩ := clauses_file rest nestedRest ofRest filed ofClauses
      refine ⟨by simpa [nodesOfArms] using filed, ?_⟩
      have arm : StandIn (.list span (test :: body) :: rest) [test', body'] :=
        List.forall_mem_cons.mpr ⟨⟨_, List.mem_cons_self, place ▸ inTest⟩,
          List.forall_mem_singleton.mpr ⟨_, List.mem_cons_self, place' ▸ .refl span⟩⟩
      rw [List.flatMap_cons, List.append_assoc]
      exact arm.append (others.mono (List.subset_cons_self _ _))
  | .list _ [] :: _, _, _, _, _, _, _, _, _, ends | .int .. :: _, _, _, _, _, _, _, _, _, ends
  | .str .. :: _, _, _, _, _, _, _, _, _, ends | .bool .. :: _, _, _, _, _, _, _, _, _, ends
  | .sym .. :: _, _, _, _, _, _, _, _, _, ends | .keyword .. :: _, _, _, _, _, _, _, _,
      _, ends => by
    unfold clauses at ends
    cases ends

end

/-! ## Programs -/

/-- What comes of toplevel forms. -/
structure TopFiles (kind : Spelling -> Prop) (step : Build (List Toplevel)) : Prop where
  ends : ∀ {prior before top after}, Filed kind prior before ->
    step.run before = .ok (top, after) ->
      Filed kind (prior ++ nodesOfAll (top.map Toplevel.expr)) after

/-- One toplevel form for an expression. -/
theorem single_files {step : Build Expr} {make : Expr -> Toplevel}
    (same : ∀ e, (make e).expr = e) (files : FilesFrom kind form step) :
    TopFiles kind (do
      let e ← step
      pure [make e]) := by
  constructor
  intro prior before top after filed ends
  obtain ⟨e, middle, ran, ends⟩ := run_bind_ok ends
  cases ends
  simpa [nodesOfAll, same] using (files.ends filed ran).1

mutual

/-- A toplevel form is filed with all its nodes. -/
theorem toplevel_files : ∀ (regions : Regions) (form : Form), form.Nested -> form.Of kind ->
    TopFiles kind (toplevel table regions form)
  | regions, .list span (head :: items), nested, ofKind => by
    obtain ⟨-, ofItems⟩ := List.forall_mem_cons.mp (Form.of_list.mp ofKind)
    obtain ⟨-, inItems⟩ := List.forall_mem_cons.mp (nested.items rfl)
    have nestedItems : ∀ item ∈ items, item.Nested := fun item member => (inItems item member).2
    have asExpr : TopFiles kind (do
        let e ← expr table regions (.list span (head :: items))
        pure [.exec e]) := single_files (fun _ => rfl) (expr_files _ nested ofKind)
    unfold toplevel
    cases head.symbol?.bind Block.ofWord? with
    | some block => exact toplevels_files (enter regions block) items nestedItems ofItems
    | none =>
      cases head.symbol?.bind SpecialForm.ofWord? with
      | none => exact asExpr
      | some word =>
        cases word with
        | define =>
          match items with
          | [] | [_] | _ :: _ :: _ :: _ => exact ⟨fun _ => nofun⟩
          | [binder, bindee] =>
            constructor
            intro prior before top after filed ends
            obtain ⟨name, middle, ofName, ends⟩ := run_bind_ok ends
            have filed := filed.still (name_still .define binder) ofName
            exact (single_files (fun _ => rfl) (expr_files bindee (nestedItems bindee (by simp))
              (ofItems bindee (by simp)))).ends filed ends
        | defn =>
          match items with
          | [] | [_] => exact ⟨fun _ => nofun⟩
          | binder :: params :: rest =>
            have nestedRest : ∀ item ∈ rest, item.Nested :=
              fun item member => nestedItems item (by simp [member])
            have ofRest : ∀ item ∈ rest, item.Of kind :=
              fun item member => ofItems item (by simp [member])
            have inRest : ∀ item ∈ rest, item.span.Within span :=
              fun item member => (inItems item (by simp [member])).1
            constructor
            intro prior before top after filed ends
            obtain ⟨name, middle, ofName, ends⟩ := run_bind_ok ends
            obtain ⟨header, middle', ofHeader, ends⟩ := run_bind_ok ends
            obtain ⟨body, last, ofBody, ends⟩ := run_bind_ok ends
            obtain ⟨func, final, ofFunc, ends⟩ := run_bind_ok ends
            cases ends
            have symbol := (name_symbol ofName).1
            have filed := filed.still (name_still .defn binder) ofName
            have filed := filed.still (header_still params rest) ofHeader
            obtain ⟨filed, places⟩ := block_files header.skipped rest nestedRest ofRest filed ofBody
            obtain ⟨filed, -⟩ := finishFunction_files nested.solid filed (places.around inRest)
              (fun found same =>
                Option.some.inj same ▸ kind_symbol (ofItems binder (by simp)) symbol)
              ofFunc
            simpa [nodesOfAll, Toplevel.expr] using filed
        | _ => exact asExpr
  | regions, .list _ [], nested, ofKind | regions, .int .., nested, ofKind
  | regions, .str .., nested, ofKind | regions, .bool .., nested, ofKind
  | regions, .sym .., nested, ofKind | regions, .keyword .., nested, ofKind => by
    unfold toplevel
    exact single_files (fun _ => rfl) (expr_files _ nested ofKind)

theorem toplevels_files : ∀ (regions : Regions) (forms : List Form),
    (∀ form ∈ forms, form.Nested) -> (∀ form ∈ forms, form.Of kind) ->
      TopFiles kind (toplevels table regions forms)
  | _, [], _, _ => by
    constructor
    intro prior before top after filed ends
    simp only [toplevels] at ends
    cases ends
    simpa [nodesOfAll] using filed
  | regions, form :: rest, nested, ofKind => by
    obtain ⟨nestedForm, nestedRest⟩ := List.forall_mem_cons.mp nested
    obtain ⟨ofForm, ofRest⟩ := List.forall_mem_cons.mp ofKind
    constructor
    intro prior before top after filed ends
    unfold toplevels at ends
    obtain ⟨first, middle, ofFirst, ends⟩ := run_bind_ok ends
    obtain ⟨others, last, ofOthers, ends⟩ := run_bind_ok ends
    cases ends
    have filed := (toplevel_files regions form nestedForm ofForm).ends filed ofFirst
    have filed := (toplevels_files regions rest nestedRest ofRest).ends filed ofOthers
    rwa [List.map_append, nodesOfAll_append, ← List.append_assoc]

end

end Build

/-- The expressions of a parsed program are all that were finished, each after its parts. -/
theorem Program.parse_filed {source : String} {path : Option String} {program : Program}
    (parsed : Program.parse source path = .ok program) :
    Build.Filed (·.wellNamed = true) program.nodes program.counters := by
  obtain ⟨forms, reads, built⟩ := Program.parse_eq_ok.mp parsed
  unfold Program.ofForms at built
  cases ends : (Build.toplevels (LineTable.ofSource source path) .none forms).run ⟨0, 0⟩ with
  | error error => simp [ends, Except.map] at built
  | ok result =>
    simp only [ends, Except.map, Except.ok.injEq] at built
    subst built
    have none : Build.Filed (·.wellNamed = true) [] ⟨0, 0⟩ := ⟨.nil, nofun, nofun⟩
    rw [Program.nodes_eq]
    exact (Build.toplevels_files .none forms (Form.ofTokens_nested reads)
      (Form.ofTokens_fair reads)).ends none ends

end Trampoline
