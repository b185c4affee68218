import Trampoline.Proofs.Syntax.Forest

/-!
# The order of forms and branches

The items of a list stand one after another in the text, and so do the branches of a conditional
that is read from it: the bodies of its arms and the alternative.
-/

namespace Trampoline

/-- The first span ends before the second begins. -/
def Span.Before (first second : Span) : Prop := first.stop ≤ second.start

/-- The spans stand one after another. -/
def InOrder (spans : List Span) : Prop := spans.Pairwise Span.Before

/-! ## Forms -/

/-- The items of all lists in the form stand one after another. -/
inductive Form.InOrder : Form -> Prop
  | atom {form : Form} (noList : form.items? = none) : InOrder form
  | list {span : Span} {items : List Form} (order : Trampoline.InOrder (items.map Form.span))
      (inside : ∀ item ∈ items, InOrder item) : InOrder (.list span items)

namespace Form

variable {table : LineTable}

variable {form : Form} {offset : Nat} {opened : List OpenList} {forms : List Form}

theorem InOrder.items (inOrder : form.InOrder) {items : List Form}
    (listed : form.items? = some items) :
    Trampoline.InOrder (items.map Form.span) ∧ ∀ item ∈ items, item.InOrder := by
  cases inOrder with
  | atom noList => cases noList.symm.trans listed
  | list order inside =>
    cases listed
    exact ⟨order, inside⟩

/-- The items of the open lists, which end before an offset, stand one after another. -/
def OpenInOrder : (offset : Nat) -> List OpenList -> Prop
  | _, [] => True
  | offset, inner :: outer => inner.start ≤ offset ∧
      (∀ item ∈ inner.items, item.InOrder ∧ item.span.stop ≤ offset) ∧
        Trampoline.InOrder (inner.items.reverse.map Form.span) ∧ OpenInOrder inner.start outer

theorem OpenInOrder.mono {later : Nat}
    (inOrder : OpenInOrder offset opened) (after : offset ≤ later) : OpenInOrder later opened := by
  cases opened with
  | nil => trivial
  | cons inner outer =>
    obtain ⟨start, items, order, outside⟩ := inOrder
    refine ⟨Nat.le_trans start after, fun item member => ?_, order, outside⟩
    exact (items item member).imp_right (Nat.le_trans · after)

/-- One more item of the innermost list. -/
theorem OpenInOrder.add {inner : OpenList} {outer : List OpenList}
    (inOrder : OpenInOrder offset (inner :: outer)) (formInOrder : form.InOrder)
    (after : offset ≤ form.span.start) (solid : form.span.start ≤ form.span.stop) :
    OpenInOrder form.span.stop (⟨inner.start, form :: inner.items⟩ :: outer) := by
  obtain ⟨start, items, order, outside⟩ := inOrder
  have later : offset ≤ form.span.stop := Nat.le_trans after solid
  refine ⟨Nat.le_trans start later, ?_, ?_, outside⟩
  · refine List.forall_mem_cons.mpr ⟨⟨formInOrder, Nat.le_refl _⟩, fun item member => ?_⟩
    exact (items item member).imp_right (Nat.le_trans · later)
  · simp only [List.reverse_cons, List.map_append, List.map_cons, List.map_nil]
    refine List.pairwise_append.mpr ⟨order, List.pairwise_singleton _ _, ?_⟩
    rintro _ member _ (_ | ⟨_, ⟨⟩⟩)
    obtain ⟨item, listed, rfl⟩ := List.mem_map.mp member
    exact Nat.le_trans (items item (List.mem_reverse.mp listed)).2 after

/-- Forms that are read from tokens that follow each other are in order. -/
theorem readTokens_inOrder {tokens : List Token} (follow : Follow offset tokens)
    {top : List Form} (inOrder : OpenInOrder offset opened)
    (topInOrder : ∀ form ∈ top, form.InOrder)
    (reads : readTokens table tokens opened top = .ok forms) : ∀ form ∈ forms, form.InOrder := by
  induction tokens generalizing offset opened top with
  | nil =>
    cases opened with
    | nil =>
      cases reads
      exact fun form member => topInOrder form (List.mem_reverse.mp member)
    | cons inner outer => cases reads
  | cons token tokens ih =>
    obtain ⟨start, solid, later⟩ := follow
    have goesOn {form : Form} {opened : List OpenList} {offset : Nat} (formInOrder : form.InOrder)
        (after : offset ≤ form.span.start) (solid : form.span.start ≤ form.span.stop)
        (ends : form.span.stop = token.span.stop) (inOrder : OpenInOrder offset opened)
        (reads : readOn table tokens form opened top = .ok forms) :
        ∀ form ∈ forms, form.InOrder := by
      cases opened with
      | nil =>
        exact ih later (show OpenInOrder token.span.stop [] from trivial)
          (List.forall_mem_cons.mpr ⟨formInOrder, topInOrder⟩) reads
      | cons inner outer =>
        exact ih later (ends ▸ inOrder.add formInOrder after solid) topInOrder reads
    cases atom : ofAtom token with
    | error fault =>
      rw [readTokens_fault atom] at reads
      cases reads
    | ok form =>
      cases form with
      | some form =>
        rw [readTokens_atom atom] at reads
        obtain ⟨place, noList⟩ := ofAtom_place atom
        exact goesOn (.atom noList) (place ▸ start) (place ▸ Nat.le_of_lt solid)
          (congrArg Span.stop place) inOrder reads
      | none =>
        obtain ⟨kind, text, span⟩ := token
        cases kind with
        | openParen =>
          rw [readTokens_open] at reads
          have opens : OpenInOrder span.stop (⟨span.start, []⟩ :: opened) :=
            ⟨Nat.le_of_lt solid, nofun, .nil, inOrder.mono start⟩
          exact ih later opens topInOrder reads
        | closeParen =>
          cases opened with
          | nil => cases reads
          | cons inner outer =>
            rw [readTokens_close] at reads
            obtain ⟨first, items, order, outside⟩ := inOrder
            have whole : inner.start ≤ span.stop :=
              Nat.le_trans (Nat.le_trans first start) (Nat.le_of_lt solid)
            have closed : (list ⟨inner.start, span.stop⟩ inner.items.reverse).InOrder :=
              .list order fun item member => (items item (List.mem_reverse.mp member)).1
            exact goesOn closed (Nat.le_refl _) whole rfl outside reads
        | int | str =>
          simp only [ofAtom] at atom
          split at atom <;> cases atom
        | «true» | «false» | keyword | ident | error => cases atom

/-- The forms of a source text are in order. -/
theorem ofTokens_inOrder {source : String}
    (reads : ofTokens table (tokenize source) = .ok forms) : ∀ form ∈ forms, form.InOrder :=
  readTokens_inOrder (tokensFrom_follow 0 source.toList) (show OpenInOrder 0 [] from trivial)
    (fun _ member => absurd member List.not_mem_nil) reads

end Form

/-! ## Expressions -/

/-- Where the branches of a conditional stand: the bodies of its arms and the alternative. -/
def Expr.branches : Expr -> List Span
  | .cond _ arms alt => arms.map (·.2.span) ++ alt.toList.map Expr.span
  | _ => []

/-- The branches of the expression stand one after another. -/
def Expr.BranchesInOrder (e : Expr) : Prop := InOrder e.branches

variable {e : Expr} {kind : Expr -> Prop}

theorem Expr.branches_plain (plain : e.branches = []) : e.BranchesInOrder := by
  rw [BranchesInOrder, plain]
  exact .nil

/-- What holds of an expression and of all in its parts holds of all in it. -/
theorem Expr.All.of_parts (own : kind e) (inside : AllOf kind e.parts) : e.All kind := by
  rw [Expr.All, e.nodes_parts]
  exact List.forall_mem_cons.mpr ⟨own, inside⟩

/-- All of two lists are of a kind if all of each are. -/
theorem allOf_append {first second : List Expr} :
    AllOf kind (first ++ second) ↔ AllOf kind first ∧ AllOf kind second := by
  rw [AllOf, nodesOfAll_append, List.forall_mem_append]
  rfl

theorem allOf_nil : AllOf kind [] :=
  fun _ member => absurd member List.not_mem_nil

namespace Build

variable {table : LineTable} {regions : Regions} {before after : Counters}

variable {span : Span} {e : Expr}

/-- An expression that is finished as no conditional. -/
theorem finish_branches {make : Mark -> Expr}
    (ends : (finish span make).run before = .ok (e, after))
    (place : ∀ mark, (make mark).span = mark.span) (plain : ∀ mark, (make mark).branches = [])
    (inside : ∀ mark, AllOf Expr.BranchesInOrder (make mark).parts) :
    e.span = span ∧ e.All Expr.BranchesInOrder := by
  cases ends
  exact ⟨place _, .of_parts (Expr.branches_plain (plain _)) (inside _)⟩

/-- A conditional that is finished when its branches stand one after another. -/
theorem finish_cond_branches {arms : List (Expr × Expr)} {alt : Option Expr}
    (ends : (finish span fun mark => .cond mark arms alt).run before = .ok (e, after))
    (order : InOrder (arms.map (·.2.span) ++ alt.toList.map Expr.span))
    (inArms : AllOfArms Expr.BranchesInOrder arms) (inAlt : AllOf Expr.BranchesInOrder alt.toList) :
    e.span = span ∧ e.All Expr.BranchesInOrder := by
  cases ends
  exact ⟨rfl, Expr.all_cond.mpr ⟨order, inArms, inAlt⟩⟩

/-- A function that is finished stands where its form does, with branches in order. -/
theorem finishFunction_branches {name : Option String} {header : Header} {items : List Expr}
    (ends : (finishFunction regions span name header items).run before = .ok (e, after))
    (inside : AllOf Expr.BranchesInOrder items) : e.span = span ∧ e.All Expr.BranchesInOrder := by
  obtain ⟨body, middle, ofBody, ends⟩ := run_bind_ok ends
  obtain ⟨id, last, ofId, ends⟩ := run_bind_ok ends
  have inBody := finish_branches ofBody (fun _ => rfl) (fun _ => rfl) fun _ => inside
  exact finish_branches ends (fun _ => rfl) (fun _ => rfl) fun _ =>
    allOf_cons.mpr ⟨inBody.2, allOf_nil⟩

/-- A positional argument has its branches in order if it and the others do. -/
theorem positional_branches {form : Form} {rest : List Form} {es : List Expr}
    {kwargs : List (String × Expr)}
    (ends : (args table regions false (form :: rest)).run before = .ok ((es, kwargs), after))
    (plain : ∀ span name, form ≠ .keyword span name)
    (first : ∀ {before e after}, (expr table regions form).run before = .ok (e, after) ->
      e.span = form.span ∧ e.All Expr.BranchesInOrder)
    (others : ∀ {before es kwargs after},
      (args table regions false rest).run before = .ok ((es, kwargs), after) ->
        AllOf Expr.BranchesInOrder (es ++ kwargs.map Prod.snd)) :
    AllOf Expr.BranchesInOrder (es ++ kwargs.map Prod.snd) := by
  rw [args_positional rest plain] at ends
  obtain ⟨value, middle, ofValue, ends⟩ := run_bind_ok ends
  obtain ⟨⟨values, named⟩, last, ofArgs, ends⟩ := run_bind_ok ends
  cases ends
  exact allOf_cons.mpr ⟨(first ofValue).2, others ofArgs⟩

mutual

/-- An expression stands where its form does, with branches in order. -/
theorem expr_branches : ∀ form : Form, form.InOrder -> ∀ {before e after},
    (expr table regions form).run before = .ok (e, after) ->
      e.span = form.span ∧ e.All Expr.BranchesInOrder
  | .int .., _, _, _, _, ends | .str .., _, _, _, _, ends | .bool .., _, _, _, _, ends => by
    unfold expr at ends
    exact finish_branches ends (fun _ => rfl) (fun _ => rfl) fun _ => allOf_nil
  | .sym span name, _, _, _, _, ends => by
    unfold expr at ends
    by_cases isNil : name = "nil"
    · simp only [if_pos isNil] at ends
      exact finish_branches ends (fun _ => rfl) (fun _ => rfl) fun _ => allOf_nil
    · simp only [if_neg isNil] at ends
      exact finish_branches ends (fun _ => rfl) (fun _ => rfl) fun _ => allOf_nil
  | .keyword .., _, _, _, _, ends | .list _ [], _, _, _, _, ends => by
    unfold expr at ends
    cases ends
  | .list span (head :: items), inOrder, before, e, after, ends => by
    obtain ⟨order, inside⟩ := inOrder.items rfl
    obtain ⟨ofHead, ofItems⟩ := List.forall_mem_cons.mp inside
    have order : InOrder (items.map Form.span) := (List.pairwise_cons.mp order).2
    unfold expr at ends
    cases special : head.symbol?.bind SpecialForm.ofWord? with
    | none =>
      simp only [special] at ends
      obtain ⟨func, middle, ofFunc, ends⟩ := run_bind_ok ends
      obtain ⟨⟨args, kwargs⟩, last, ofArgs, ends⟩ := run_bind_ok ends
      have inFunc := (expr_branches head ofHead ofFunc).2
      have inArgs := args_branches false items ofItems ofArgs
      exact finish_branches ends (fun _ => rfl) (fun _ => rfl) fun _ =>
        allOf_cons.mpr ⟨inFunc, inArgs⟩
    | some word =>
      simp only [special] at ends
      cases word with
      | define => cases ends
      | fn =>
        match items with
        | [] => cases ends
        | params :: rest =>
          obtain ⟨header, middle, ofHeader, ends⟩ := run_bind_ok ends
          obtain ⟨body, last, ofBody, ends⟩ := run_bind_ok ends
          exact finishFunction_branches ends
            (block_branches header.skipped rest (List.forall_mem_cons.mp ofItems).2 ofBody)
      | defn =>
        match items with
        | [] | [_] => cases ends
        | binder :: params :: rest =>
          have ofRest : ∀ item ∈ rest, item.InOrder :=
            fun item member => ofItems item (by simp [member])
          obtain ⟨name, middle, ofName, ends⟩ := run_bind_ok ends
          obtain ⟨header, middle', ofHeader, ends⟩ := run_bind_ok ends
          obtain ⟨body, last, ofBody, ends⟩ := run_bind_ok ends
          obtain ⟨func, final, ofFunc, ends⟩ := run_bind_ok ends
          have inBody := block_branches header.skipped rest ofRest ofBody
          have inFunc := (finishFunction_branches ofFunc inBody).2
          exact finish_branches ends (fun _ => rfl) (fun _ => rfl) fun _ =>
            allOf_cons.mpr ⟨inFunc, allOf_nil⟩
      | conditional =>
        match items with
        | [] | [_] | _ :: _ :: _ :: _ :: _ => cases ends
        | [test, body] =>
          obtain ⟨test', middle, ranTest, ends⟩ := run_bind_ok ends
          obtain ⟨body', last, ranBody, ends⟩ := run_bind_ok ends
          obtain ⟨-, inTest⟩ := expr_branches test (ofItems test (by simp)) ranTest
          obtain ⟨-, inBody⟩ := expr_branches body (ofItems body (by simp)) ranBody
          exact finish_cond_branches ends (List.pairwise_singleton _ _)
            (allOfArms_cons.mpr ⟨inTest, inBody, allOf_nil⟩) allOf_nil
        | [test, body, alt] =>
          obtain ⟨test', middle, ranTest, ends⟩ := run_bind_ok ends
          obtain ⟨body', middle', ranBody, ends⟩ := run_bind_ok ends
          obtain ⟨alt', last, ranAlt, ends⟩ := run_bind_ok ends
          obtain ⟨-, inTest⟩ := expr_branches test (ofItems test (by simp)) ranTest
          obtain ⟨place, inBody⟩ := expr_branches body (ofItems body (by simp)) ranBody
          obtain ⟨place', inAlt⟩ := expr_branches alt (ofItems alt (by simp)) ranAlt
          have branches : InOrder [body'.span, alt'.span] := by
            rw [place, place']
            exact (List.pairwise_cons.mp order).2
          exact finish_cond_branches ends branches
            (allOfArms_cons.mpr ⟨inTest, inBody, allOf_nil⟩) (allOf_cons.mpr ⟨inAlt, allOf_nil⟩)
      | cond =>
        obtain ⟨⟨arms, alt⟩, middle, ofClauses, ends⟩ := run_bind_ok ends
        obtain ⟨places, inArms, inAlt⟩ := clauses_branches items ofItems ofClauses
        by_cases empty : arms.isEmpty = true
        · simp only [if_pos empty] at ends
          cases ends
        · simp only [if_neg empty] at ends
          exact finish_cond_branches ends (places ▸ order) inArms inAlt
      | and | or | begin =>
        obtain ⟨operands, middle, ofOperands, ends⟩ := run_bind_ok ends
        exact finish_branches ends (fun _ => rfl) (fun _ => rfl) fun _ =>
          block_branches 0 items ofItems ofOperands
      | bind | assign =>
        match items with
        | [] | [_] | _ :: _ :: _ :: _ => cases ends
        | [binder, bindee] =>
          obtain ⟨name, middle, ofName, ends⟩ := run_bind_ok ends
          obtain ⟨bindee', last, ofBindee, ends⟩ := run_bind_ok ends
          obtain ⟨-, inBindee⟩ := expr_branches bindee (ofItems bindee (by simp)) ofBindee
          exact finish_branches ends (fun _ => rfl) (fun _ => rfl) fun _ =>
            allOf_cons.mpr ⟨inBindee, allOf_nil⟩
      | loop =>
        match items with
        | [] => cases ends
        | test :: rest =>
          obtain ⟨ofTest, ofRest⟩ := List.forall_mem_cons.mp ofItems
          obtain ⟨test', middle, ranTest, ends⟩ := run_bind_ok ends
          obtain ⟨items', middle', ranItems, ends⟩ := run_bind_ok ends
          obtain ⟨body', last, ranBody, ends⟩ := run_bind_ok ends
          obtain ⟨-, inTest⟩ := expr_branches test ofTest ranTest
          have inItems := block_branches 0 rest ofRest ranItems
          obtain ⟨-, inBody⟩ :=
            finish_branches ranBody (fun _ => rfl) (fun _ => rfl) fun _ => inItems
          exact finish_branches ends (fun _ => rfl) (fun _ => rfl) fun _ =>
            allOf_cons.mpr ⟨inTest, allOf_cons.mpr ⟨inBody, allOf_nil⟩⟩
      | jump =>
        match items with
        | [] => cases ends
        | func :: rest =>
          obtain ⟨ofFunc, ofRest⟩ := List.forall_mem_cons.mp ofItems
          obtain ⟨func', middle, ranFunc, ends⟩ := run_bind_ok ends
          obtain ⟨⟨args, kwargs⟩, last, ofArgs, ends⟩ := run_bind_ok ends
          obtain ⟨-, inFunc⟩ := expr_branches func ofFunc ranFunc
          have inArgs := args_branches false rest ofRest ofArgs
          refine finish_branches ends (fun _ => rfl) (fun _ => rfl) fun _ => ?_
          simp only [Expr.parts, Expr.children, Option.toList_none, List.append_nil]
          exact allOf_cons.mpr ⟨inFunc, inArgs⟩
      | capture =>
        match items with
        | [] | [_] | _ :: _ :: _ :: _ => cases ends
        | [binders, call] =>
          obtain ⟨names, middle, ofNames, ends⟩ := run_bind_ok ends
          obtain ⟨call', last, ofCall, ends⟩ := run_bind_ok ends
          obtain ⟨-, inCall⟩ := expr_branches call (ofItems call (by simp)) ofCall
          cases call' with
          | call =>
            exact finish_branches ends (fun _ => rfl) (fun _ => rfl) fun _ =>
              allOf_cons.mpr ⟨inCall, allOf_nil⟩
          | _ => cases ends

theorem block_branches : ∀ (skipped : Nat) (forms : List Form), (∀ form ∈ forms, form.InOrder) ->
    ∀ {before es after}, (block table regions skipped forms).run before = .ok (es, after) ->
      AllOf Expr.BranchesInOrder es
  | _, [], _, _, _, _, ends => by
    simp only [block] at ends
    cases ends
    exact allOf_nil
  | skipped + 1, form :: rest, inOrder, _, _, _, ends => by
    unfold block at ends
    exact block_branches skipped rest (List.forall_mem_cons.mp inOrder).2 ends
  | 0, form :: rest, inOrder, _, _, _, ends => by
    obtain ⟨ofForm, ofRest⟩ := List.forall_mem_cons.mp inOrder
    unfold block at ends
    obtain ⟨first, middle, ofFirst, ends⟩ := run_bind_ok ends
    obtain ⟨others, last, ofOthers, ends⟩ := run_bind_ok ends
    cases ends
    exact allOf_cons.mpr
      ⟨(expr_branches form ofForm ofFirst).2, block_branches 0 rest ofRest ofOthers⟩

theorem args_branches : ∀ (afterKeyword : Bool) (forms : List Form),
    (∀ form ∈ forms, form.InOrder) -> ∀ {before es kwargs after},
      (args table regions afterKeyword forms).run before = .ok ((es, kwargs), after) ->
        AllOf Expr.BranchesInOrder (es ++ kwargs.map Prod.snd)
  | _, [], _, _, _, _, _, ends => by
    unfold args at ends
    cases ends
    exact allOf_nil
  | _, [.keyword ..], _, _, _, _, _, ends => by
    unfold args at ends
    cases ends
  | _, .keyword _ _ :: value :: rest, inOrder, _, _, _, _, ends => by
    unfold args at ends
    obtain ⟨value', middle, ofValue, ends⟩ := run_bind_ok ends
    obtain ⟨⟨values, named⟩, last, ofArgs, ends⟩ := run_bind_ok ends
    cases ends
    obtain ⟨-, inValue⟩ := expr_branches value (inOrder value (by simp)) ofValue
    obtain ⟨inValues, inNamed⟩ := allOf_append.mp
      (args_branches true rest (fun form member => inOrder form (by simp [member])) ofArgs)
    exact allOf_append.mpr ⟨inValues, allOf_cons.mpr ⟨inValue, inNamed⟩⟩
  | true, .int .. :: _, _, _, _, _, _, ends | true, .str .. :: _, _, _, _, _, _, ends
  | true, .bool .. :: _, _, _, _, _, _, ends | true, .sym .. :: _, _, _, _, _, _, ends
  | true, .list .. :: _, _, _, _, _, _, ends => by
    unfold args at ends
    cases ends
  | false, .int .. :: rest, inOrder, _, _, _, _, ends
  | false, .str .. :: rest, inOrder, _, _, _, _, ends
  | false, .bool .. :: rest, inOrder, _, _, _, _, ends
  | false, .sym .. :: rest, inOrder, _, _, _, _, ends
  | false, .list .. :: rest, inOrder, _, _, _, _, ends =>
    positional_branches ends (fun _ _ => nofun)
      (expr_branches _ (List.forall_mem_cons.mp inOrder).1)
      (args_branches false rest (List.forall_mem_cons.mp inOrder).2)

theorem clauses_branches : ∀ forms : List Form, (∀ form ∈ forms, form.InOrder) ->
    ∀ {before arms alt after},
      (clauses table regions forms).run before = .ok ((arms, alt), after) ->
        arms.map (·.2.span) ++ alt.toList.map Expr.span = forms.map Form.span ∧
          AllOfArms Expr.BranchesInOrder arms ∧ AllOf Expr.BranchesInOrder alt.toList
  | [], _, _, _, _, _, ends => by
    unfold clauses at ends
    cases ends
    exact ⟨rfl, allOf_nil, allOf_nil⟩
  | .list span (test :: body) :: rest, inOrder, _, _, _, _, ends => by
    obtain ⟨ofClause, ofRest⟩ := List.forall_mem_cons.mp inOrder
    obtain ⟨ofTest, ofBody⟩ := List.forall_mem_cons.mp (ofClause.items rfl).2
    unfold clauses at ends
    by_cases isAlternative : isElse test = true
    · simp only [if_pos isAlternative] at ends
      by_cases isLast : rest.isEmpty = true
      · simp only [if_pos isLast] at ends
        obtain ⟨items, middle, ofItems, ends⟩ := run_bind_ok ends
        obtain ⟨alt, last, ofAlt, ends⟩ := run_bind_ok ends
        cases ends
        have inItems := block_branches 0 body ofBody ofItems
        obtain ⟨place, inAlt⟩ :=
          finish_branches ofAlt (fun _ => rfl) (fun _ => rfl) fun _ => inItems
        refine ⟨?_, allOf_nil, allOf_cons.mpr ⟨inAlt, allOf_nil⟩⟩
        simp [List.isEmpty_iff.mp isLast, place, Form.span]
      · simp only [if_neg isLast] at ends
        cases ends
    · simp only [if_neg isAlternative] at ends
      obtain ⟨test', middle, ranTest, ends⟩ := run_bind_ok ends
      obtain ⟨items, middle', ofItems, ends⟩ := run_bind_ok ends
      obtain ⟨body', middle'', ranBody, ends⟩ := run_bind_ok ends
      obtain ⟨⟨arms, alt⟩, last, ofClauses, ends⟩ := run_bind_ok ends
      cases ends
      obtain ⟨-, inTest⟩ := expr_branches test ofTest ranTest
      have inItems := block_branches 0 body ofBody ofItems
      obtain ⟨place, inBody⟩ :=
        finish_branches ranBody (fun _ => rfl) (fun _ => rfl) fun _ => inItems
      obtain ⟨places, inArms, inAlt⟩ := clauses_branches rest ofRest ofClauses
      refine ⟨?_, allOfArms_cons.mpr ⟨inTest, inBody, inArms⟩, inAlt⟩
      simp [place, places, Form.span]
  | .list _ [] :: _, _, _, _, _, _, ends | .int .. :: _, _, _, _, _, _, ends
  | .str .. :: _, _, _, _, _, _, ends | .bool .. :: _, _, _, _, _, _, ends
  | .sym .. :: _, _, _, _, _, _, ends | .keyword .. :: _, _, _, _, _, _, ends => by
    unfold clauses at ends
    cases ends

end

mutual

/-- A toplevel form has its branches in order. -/
theorem toplevel_branches : ∀ (regions : Regions) (form : Form), form.InOrder ->
    ∀ {before top after}, (toplevel table regions form).run before = .ok (top, after) ->
      AllOf Expr.BranchesInOrder (top.map Toplevel.expr)
  | regions, .list span (head :: items), inOrder, before, top, after, ends => by
    have ofItems := (List.forall_mem_cons.mp (inOrder.items rfl).2).2
    have asExpr {make : Expr -> Toplevel} (same : ∀ e, (make e).expr = e) {form : Form}
        (inOrder : form.InOrder) {before : Counters} (ends : (do
          let e ← expr table regions form
          pure [make e] : Build (List Toplevel)).run before = .ok (top, after)) :
        AllOf Expr.BranchesInOrder (top.map Toplevel.expr) := by
      obtain ⟨e, middle, ran, ends⟩ := run_bind_ok ends
      cases ends
      rw [List.map_singleton, same]
      exact allOf_cons.mpr ⟨(expr_branches form inOrder ran).2, allOf_nil⟩
    unfold toplevel at ends
    cases found : head.symbol?.bind Block.ofWord? with
    | some block =>
      simp only [found] at ends
      exact toplevels_branches (enter regions block) items ofItems ends
    | none =>
      cases special : head.symbol?.bind SpecialForm.ofWord? with
      | none =>
        simp only [found, special] at ends
        exact asExpr (fun _ => rfl) inOrder ends
      | some word =>
        simp only [found, special] at ends
        cases word with
        | define =>
          match items with
          | [] | [_] | _ :: _ :: _ :: _ => cases ends
          | [binder, bindee] =>
            obtain ⟨name, middle, ofName, ends⟩ := run_bind_ok ends
            exact asExpr (fun _ => rfl) (ofItems bindee (by simp)) ends
        | defn =>
          match items with
          | [] | [_] => cases ends
          | binder :: params :: rest =>
            have ofRest : ∀ item ∈ rest, item.InOrder :=
              fun item member => ofItems item (by simp [member])
            obtain ⟨name, middle, ofName, ends⟩ := run_bind_ok ends
            obtain ⟨header, middle', ofHeader, ends⟩ := run_bind_ok ends
            obtain ⟨body, last, ofBody, ends⟩ := run_bind_ok ends
            obtain ⟨func, final, ofFunc, ends⟩ := run_bind_ok ends
            cases ends
            have inBody := block_branches header.skipped rest ofRest ofBody
            exact allOf_cons.mpr ⟨(finishFunction_branches ofFunc inBody).2, allOf_nil⟩
        | _ => exact asExpr (fun _ => rfl) inOrder ends
  | _, .list _ [], inOrder, _, _, _, ends | _, .int .., inOrder, _, _, _, ends
  | _, .str .., inOrder, _, _, _, ends | _, .bool .., inOrder, _, _, _, ends
  | _, .sym .., inOrder, _, _, _, ends | _, .keyword .., inOrder, _, _, _, ends => by
    unfold toplevel at ends
    obtain ⟨e, middle, ran, ends⟩ := run_bind_ok ends
    cases ends
    exact allOf_cons.mpr ⟨(expr_branches _ inOrder ran).2, allOf_nil⟩

theorem toplevels_branches : ∀ (regions : Regions) (forms : List Form),
    (∀ form ∈ forms, form.InOrder) -> ∀ {before top after},
      (toplevels table regions forms).run before = .ok (top, after) ->
        AllOf Expr.BranchesInOrder (top.map Toplevel.expr)
  | _, [], _, _, _, _, ends => by
    simp only [toplevels] at ends
    cases ends
    exact allOf_nil
  | regions, form :: rest, inOrder, _, _, _, ends => by
    obtain ⟨ofForm, ofRest⟩ := List.forall_mem_cons.mp inOrder
    unfold toplevels at ends
    obtain ⟨first, middle, ofFirst, ends⟩ := run_bind_ok ends
    obtain ⟨others, last, ofOthers, ends⟩ := run_bind_ok ends
    cases ends
    rw [List.map_append]
    have inFirst := toplevel_branches regions form ofForm ofFirst
    exact allOf_append.mpr ⟨inFirst, toplevels_branches regions rest ofRest ofOthers⟩

end

end Build

/-- The branches of each conditional in a parsed program stand one after another. -/
theorem Program.parse_branches {source : String} {path : Option String} {program : Program}
    (parsed : Program.parse source path = .ok program) :
    ∀ node ∈ program.nodes, node.BranchesInOrder := by
  obtain ⟨forms, reads, built⟩ := Program.parse_eq_ok.mp parsed
  unfold Program.ofForms at built
  cases ends : (Build.toplevels (LineTable.ofSource source path) .none forms).run ⟨0, 0⟩ with
  | error error => simp [ends, Except.map] at built
  | ok result =>
    simp only [ends, Except.map, Except.ok.injEq] at built
    subst built
    rw [Program.nodes_eq]
    exact Build.toplevels_branches .none forms (Form.ofTokens_inOrder reads) ends

end Trampoline
