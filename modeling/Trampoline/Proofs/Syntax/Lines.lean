import Trampoline.Proofs.Spelling.Programs
import Trampoline.Proofs.Syntax.Shifts

/-!
# Programs line by line

A program that can be read may stand before another one in a source. What it spells stays as it is,
and behind it comes what the other one spells: no list, no region and no fault of the one reaches
the other, and only places and numbers change.
-/

namespace Trampoline

namespace Build

/-! ## Steps behind others -/

/-- Behind what took these numbers the second step makes of the first one's value what it should be
there, or both fail, and the faults are as asked. -/
structure Carries {α β : Type} (taken : Counters) (blamed : ParseError -> ParseError -> Prop)
    (make : α -> β) (step : Build α) (step' : Build β) : Prop where
  ends : ∀ before, (∃ value after, step.run before = .ok (value, after) ∧
      step'.run (taken.after before) = .ok (make value, taken.after after)) ∨
    ∃ error error', step.run before = .error error ∧
      step'.run (taken.after before) = .error error' ∧ blamed error error'

namespace Carries

variable {α β γ δ : Type} {taken : Counters} {blamed : ParseError -> ParseError -> Prop}
  {bytes : Nat} {make : α -> β} {step : Build α} {step' : Build β}

theorem pure {value : α} {value' : β} (same : value' = make value) :
    Carries taken blamed make (pure value) (pure value') :=
  ⟨fun before => .inl ⟨value, before, rfl, same ▸ rfl⟩⟩

theorem bind {make' : γ -> δ} {next : α -> Build γ} {next' : β -> Build δ}
    (first : Carries taken blamed make step step')
    (second : ∀ value, Carries taken blamed make' (next value) (next' (make value))) :
    Carries taken blamed make' (step >>= next) (step' >>= next') := by
  constructor
  intro before
  rw [StateT.run_bind, StateT.run_bind]
  rcases first.ends before with ⟨value, after, ends, ends'⟩ | ⟨error, error', fails, fails', blame⟩
  · rw [ends, ends']
    exact (second value).ends after
  · rw [fails, fails']
    exact .inr ⟨error, error', rfl, rfl, blame⟩

theorem mapM {ι : Type} {read : ι -> Build α} {read' : ι -> Build β} {move : ι -> ι}
    (each : ∀ item, Carries taken blamed make (read item) (read' (move item))) (items : List ι) :
    Carries taken blamed (List.map make) (items.mapM read) ((items.map move).mapM read') := by
  induction items with
  | nil => exact .pure rfl
  | cons item rest ih =>
    rw [List.map_cons, List.mapM_cons, List.mapM_cons]
    exact .bind (each item) fun _ => .bind ih fun _ => .pure rfl

/-- The mark of an expression is the next one behind those taken. -/
theorem finish {span : Span} {make make' : Mark -> Expr}
    (same : ∀ mark, make' (mark.shift bytes taken) = (make mark).shift bytes taken) :
    Carries taken blamed (Expr.shift bytes taken) (finish span make)
      (finish (span.shift bytes) make') := by
  constructor
  intro before
  refine .inl ⟨_, _, rfl, ?_⟩
  rw [← same]
  show Except.ok (_, (⟨_, _⟩ : Counters)) = Except.ok (_, ⟨_, _⟩)
  simp [Counters.after, Mark.shift, Nat.add_right_comm]

end Carries

/-- The header of a function so many bytes further on. -/
def Header.shift (bytes : Nat) (header : Header) : Header :=
  { header with decorators := shiftDecorators bytes header.decorators }

/-- Malformations at places of the one text and at the same places of the whole are as asked. -/
def Blames (bytes : Nat) (blamed : ParseError -> ParseError -> Prop) (table whole : LineTable) :
    Prop :=
  ∀ span malformation, blamed ⟨table.locate span, .malformed malformation⟩
    ⟨whole.locate (span.shift bytes), .malformed malformation⟩

section Steps

variable {bytes : Nat} {taken : Counters} {blamed : ParseError -> ParseError -> Prop}
  {table whole : LineTable} {regions : Regions}

/-- A malformed form is malformed further on too, with a fault as asked. -/
theorem malformed_carries {α β : Type} {make : α -> β} (blames : Blames bytes blamed table whole)
    (span : Span) (malformation : Malformation) :
    Carries taken blamed make (malformed table span malformation)
      (malformed whole (span.shift bytes) malformation) :=
  ⟨fun _ => .inr ⟨_, _, rfl, rfl, blames span malformation⟩⟩

/-! ## Headers -/

/-- A name is read the same further on. -/
theorem name_carries (blames : Blames bytes blamed table whole) (owner : SpecialForm)
    (form : Form) :
    Carries taken blamed id (name table owner form)
      (name whole owner (form.shift bytes)) := by
  unfold name
  rw [form.symbol?_shift, form.span_shift]
  cases form.symbol? with
  | none => exact malformed_carries blames ..
  | some name => exact .pure rfl

/-- Names are read the same further on. -/
theorem names_carry (blames : Blames bytes blamed table whole) (owner : SpecialForm) (form : Form) :
    Carries taken blamed id (names table owner form)
      (names whole owner (form.shift bytes)) := by
  unfold names
  rw [form.items?_shift, form.span_shift]
  cases form.items? with
  | none => exact malformed_carries blames ..
  | some items =>
    have each : Carries taken blamed (List.map id) (items.mapM (name table owner))
        ((items.map (Form.shift bytes)).mapM (name whole owner)) :=
      .mapM (name_carries blames owner) items
    rwa [List.map_id_fun] at each

/-- A decorator is read the same further on, and stands there. -/
theorem decorator_carries (blames : Blames bytes blamed table whole) (form : Form) :
    Carries taken blamed (fun decorator => (decorator.1, decorator.2.shift bytes))
      (decorator table form) (decorator whole (form.shift bytes)) := by
  unfold decorator
  rw [form.symbol?_shift, form.span_shift]
  cases form.symbol? with
  | none => exact malformed_carries blames ..
  | some name => exact .pure rfl

/-- A header is read the same further on. -/
theorem header_carries (blames : Blames bytes blamed table whole) (params : Form)
    (rest : List Form) :
    Carries taken blamed (Header.shift bytes) (header table params rest)
      (header whole (params.shift bytes) (shiftForms bytes rest)) := by
  unfold header
  refine .bind (names_carry blames .fn params) fun params => ?_
  have undecorated : Carries taken blamed (Header.shift bytes)
      (pure ⟨params, [], 0⟩) (pure ⟨params, [], 0⟩) := .pure rfl
  match rest with
  | [] | .int .. :: _ | .str .. :: _ | .bool .. :: _ | .sym .. :: _ | .list .. :: _ =>
    exact undecorated
  | [.keyword span name] =>
    simp only [shiftForms, Form.shift]
    exact undecorated
  | .keyword span name :: listed :: others =>
    simp only [shiftForms, Form.shift]
    by_cases decorators : name = "decorators"
    · subst decorators
      simp only [listed.items?_shift, listed.span_shift]
      cases listed.items? with
      | none => exact malformed_carries blames ..
      | some items => exact .bind (.mapM (decorator_carries blames) items) fun _ => .pure rfl
    · split
      · rename_i shape
        cases shape
        exact absurd rfl decorators
      · split
        · rename_i shape
          cases shape
          exact absurd rfl decorators
        · exact undecorated

/-! ## Expressions -/

/-- Arguments behind other expressions. -/
def shiftArgs (bytes : Nat) (taken : Counters) (args : List Expr × List (String × Expr)) :
    List Expr × List (String × Expr) :=
  (shiftAll bytes taken args.1, shiftKwargs bytes taken args.2)

/-- Clauses behind other expressions. -/
def shiftClauses (bytes : Nat) (taken : Counters) (clauses : List (Expr × Expr) × Option Expr) :
    List (Expr × Expr) × Option Expr :=
  (shiftArms bytes taken clauses.1, clauses.2.map (Expr.shift bytes taken))

/-- A block is finished with a number behind those taken. -/
theorem finishBlock_carries (span : Span) (items : List Expr) :
    Carries taken blamed (Expr.shift bytes taken) (finish span fun mark => .seq mark items)
      (finish (span.shift bytes) fun mark => .seq mark (shiftAll bytes taken items)) :=
  .finish fun _ => rfl

/-- A new function gets a number behind those taken. -/
theorem newFunction_carries :
    Carries taken blamed (· + taken.functions) newFunction newFunction := by
  constructor
  intro before
  refine .inl ⟨_, _, rfl, ?_⟩
  show Except.ok (_, (⟨_, _⟩ : Counters)) = Except.ok (_, ⟨_, _⟩)
  simp [Counters.after, Nat.add_right_comm]

/-- A function is finished with numbers behind those taken. -/
theorem finishFunction_carries (span : Span) (name : Option String) (header : Header)
    (items : List Expr) :
    Carries taken blamed (Expr.shift bytes taken) (finishFunction regions span name header items)
      (finishFunction regions (span.shift bytes) name (header.shift bytes)
        (shiftAll bytes taken items)) :=
  .bind (finishBlock_carries span items) fun _ => .bind newFunction_carries fun _ =>
    .finish fun _ => rfl

theorem isElse_shift (form : Form) : isElse (form.shift bytes) = isElse form := by
  rw [isElse, form.symbol?_shift, isElse]

/-- A positional argument is carried if it and the others are. -/
theorem positional_carries {form : Form} {rest : List Form}
    (plain : ∀ span name, form ≠ .keyword span name)
    (first : Carries taken blamed (Expr.shift bytes taken) (expr table regions form)
      (expr whole regions (form.shift bytes)))
    (others : Carries taken blamed (shiftArgs bytes taken) (args table regions false rest)
      (args whole regions false (shiftForms bytes rest))) :
    Carries taken blamed (shiftArgs bytes taken) (args table regions false (form :: rest))
      (args whole regions false (shiftForms bytes (form :: rest))) := by
  have plain' : ∀ span name, form.shift bytes ≠ .keyword span name := by
    cases form <;> simp_all [Form.shift]
  rw [shiftForms, args_positional rest plain, args_positional _ plain']
  exact .bind first fun _ => .bind others fun _ => .pure rfl

mutual

/-- An expression is carried, with all its numbers and places. -/
theorem expr_carries (blames : Blames bytes blamed table whole) : ∀ form : Form,
    Carries taken blamed (Expr.shift bytes taken) (expr table regions form)
      (expr whole regions (form.shift bytes))
  | .int .. | .str .. | .bool .. => by
    simp only [Form.shift, expr]
    exact .finish fun _ => rfl
  | .sym _ name => by
    simp only [Form.shift, expr]
    refine .finish fun mark => ?_
    split <;> rfl
  | .keyword .. => by
    simp only [Form.shift, expr]
    exact malformed_carries blames ..
  | .list _ [] => by
    simp only [Form.shift, shiftForms, expr]
    exact malformed_carries blames ..
  | .list span (head :: items) => by
    simp only [Form.shift, shiftForms]
    unfold expr
    rw [head.symbol?_shift]
    cases head.symbol?.bind SpecialForm.ofWord? with
    | none =>
      exact .bind (expr_carries blames head) fun _ => .bind (args_carry blames false items) fun _ =>
        .finish fun _ => rfl
    | some word =>
      cases word with
      | define => exact malformed_carries blames ..
      | fn =>
        match items with
        | [] => exact malformed_carries blames ..
        | params :: rest =>
          exact .bind (header_carries blames params rest) fun header =>
            .bind (block_carries blames header.skipped rest) fun _ => finishFunction_carries ..
      | defn =>
        match items with
        | [] | [_] => exact malformed_carries blames ..
        | binder :: params :: rest =>
          exact .bind (name_carries blames .defn binder) fun _ =>
            .bind (header_carries blames params rest) fun header =>
            .bind (block_carries blames header.skipped rest) fun _ =>
            .bind (finishFunction_carries ..) fun _ => .finish fun _ => rfl
      | conditional =>
        match items with
        | [] | [_] | _ :: _ :: _ :: _ :: _ => exact malformed_carries blames ..
        | [test, body] =>
          exact .bind (expr_carries blames test) fun _ => .bind (expr_carries blames body) fun _ =>
            .finish fun _ => rfl
        | [test, body, alt] =>
          exact .bind (expr_carries blames test) fun _ => .bind (expr_carries blames body) fun _ =>
            .bind (expr_carries blames alt) fun _ => .finish fun _ => rfl
      | cond =>
        refine .bind (clauses_carry blames items) fun (arms, alt) => ?_
        cases arms with
        | nil => exact malformed_carries blames ..
        | cons => cases alt <;> exact .finish fun _ => rfl
      | and | or | begin =>
        exact .bind (block_carries blames 0 items) fun _ => .finish fun _ => rfl
      | bind | assign =>
        match items with
        | [] | [_] | _ :: _ :: _ :: _ => exact malformed_carries blames ..
        | [binder, bindee] =>
          exact .bind (name_carries blames _ binder) fun _ =>
            .bind (expr_carries blames bindee) fun _ =>
            .finish fun _ => rfl
      | loop =>
        match items with
        | [] => exact malformed_carries blames ..
        | test :: rest =>
          exact .bind (expr_carries blames test) fun _ =>
            .bind (block_carries blames 0 rest) fun _ =>
            .bind (finishBlock_carries ..) fun _ => .finish fun _ => rfl
      | jump =>
        match items with
        | [] => exact malformed_carries blames ..
        | func :: rest =>
          exact .bind (expr_carries blames func) fun _ =>
            .bind (args_carry blames false rest) fun _ =>
            .finish fun _ => rfl
      | capture =>
        match items with
        | [] | [_] | _ :: _ :: _ :: _ => exact malformed_carries blames ..
        | [binders, call] =>
          refine .bind (names_carry blames .capture binders) fun _ =>
            .bind (expr_carries blames call) fun call => ?_
          cases call with
          | call => exact .finish fun _ => rfl
          | cond _ _ alt => cases alt <;> exact malformed_carries blames ..
          | jump _ _ _ _ cc => cases cc <;> exact malformed_carries blames ..
          | _ => exact malformed_carries blames ..

theorem block_carries (blames : Blames bytes blamed table whole) :
    ∀ (skipped : Nat) (forms : List Form),
    Carries taken blamed (shiftAll bytes taken) (block table regions skipped forms)
      (block whole regions skipped (shiftForms bytes forms))
  | _, [] => by
    simp only [shiftForms, block]
    exact .pure rfl
  | skipped + 1, _ :: rest => by
    simp only [shiftForms, block]
    exact block_carries blames skipped rest
  | 0, form :: rest => by
    simp only [shiftForms, block]
    exact .bind (expr_carries blames form) fun _ =>
      .bind (block_carries blames 0 rest) fun _ => .pure rfl

theorem args_carry (blames : Blames bytes blamed table whole) :
    ∀ (afterKeyword : Bool) (forms : List Form),
    Carries taken blamed (shiftArgs bytes taken) (args table regions afterKeyword forms)
      (args whole regions afterKeyword (shiftForms bytes forms))
  | _, [] => by
    simp only [shiftForms, args]
    exact .pure rfl
  | _, [.keyword ..] => by
    simp only [shiftForms, Form.shift, args]
    exact malformed_carries blames ..
  | _, .keyword _ _ :: value :: rest => by
    simp only [shiftForms, Form.shift, args]
    exact .bind (expr_carries blames value) fun _ =>
      .bind (args_carry blames true rest) fun _ => .pure rfl
  | true, .int .. :: _ | true, .str .. :: _ | true, .bool .. :: _ | true, .sym .. :: _
  | true, .list .. :: _ => by
    simp only [shiftForms, Form.shift, args]
    exact malformed_carries blames ..
  | false, .int span value :: rest =>
    positional_carries (fun _ _ => nofun) (expr_carries blames (.int span value))
      (args_carry blames false rest)
  | false, .str span value :: rest =>
    positional_carries (fun _ _ => nofun) (expr_carries blames (.str span value))
      (args_carry blames false rest)
  | false, .bool span value :: rest =>
    positional_carries (fun _ _ => nofun) (expr_carries blames (.bool span value))
      (args_carry blames false rest)
  | false, .sym span name :: rest =>
    positional_carries (fun _ _ => nofun) (expr_carries blames (.sym span name))
      (args_carry blames false rest)
  | false, .list span items :: rest =>
    positional_carries (fun _ _ => nofun) (expr_carries blames (.list span items))
      (args_carry blames false rest)

theorem clauses_carry (blames : Blames bytes blamed table whole) : ∀ forms : List Form,
    Carries taken blamed (shiftClauses bytes taken) (clauses table regions forms)
      (clauses whole regions (shiftForms bytes forms))
  | [] => by
    simp only [shiftForms, clauses]
    exact .pure rfl
  | .list span (test :: body) :: rest => by
    simp only [shiftForms, Form.shift, clauses, isElse_shift]
    by_cases isAlternative : isElse test = true
    · simp only [if_pos isAlternative]
      cases rest with
      | nil =>
        exact .bind (block_carries blames 0 body) fun _ =>
          .bind (finishBlock_carries ..) fun _ => .pure rfl
      | cons => exact malformed_carries blames ..
    · simp only [if_neg isAlternative]
      exact .bind (expr_carries blames test) fun _ => .bind (block_carries blames 0 body) fun _ =>
        .bind (finishBlock_carries ..) fun _ => .bind (clauses_carry blames rest) fun _ => .pure rfl
  | .list _ [] :: _ | .int .. :: _ | .str .. :: _ | .bool .. :: _ | .sym .. :: _
  | .keyword .. :: _ => by
    simp only [shiftForms, Form.shift, clauses]
    exact malformed_carries blames ..

end

/-! ## Toplevel forms -/

mutual

/-- A toplevel form is carried, with all its numbers and places. -/
theorem toplevel_carries (blames : Blames bytes blamed table whole) (regions : Regions) :
    ∀ form : Form,
    Carries taken blamed (List.map (Toplevel.shift bytes taken)) (toplevel table regions form)
      (toplevel whole regions (form.shift bytes))
  | .list span (head :: items) => by
    have exec : Carries taken blamed (Expr.shift bytes taken)
        (expr table regions (.list span (head :: items)))
        (expr whole regions (Form.shift bytes (.list span (head :: items)))) :=
      expr_carries blames _
    simp only [Form.shift, shiftForms] at exec ⊢
    unfold toplevel
    rw [head.symbol?_shift]
    cases head.symbol?.bind Block.ofWord? with
    | some block => exact toplevels_carry blames (enter regions block) items
    | none =>
      cases head.symbol?.bind SpecialForm.ofWord? with
      | none => exact .bind exec fun _ => .pure rfl
      | some word =>
        cases word with
        | define =>
          match items with
          | [] | [_] | _ :: _ :: _ :: _ => exact malformed_carries blames ..
          | [binder, bindee] =>
            exact .bind (name_carries blames _ binder) fun _ =>
              .bind (expr_carries blames bindee) fun _ => .pure rfl
        | defn =>
          match items with
          | [] | [_] => exact malformed_carries blames ..
          | binder :: params :: rest =>
            exact .bind (name_carries blames .defn binder) fun _ =>
              .bind (header_carries blames params rest) fun header =>
              .bind (block_carries blames header.skipped rest) fun _ =>
              .bind (finishFunction_carries ..) fun _ => .pure rfl
        | _ => exact .bind exec fun _ => .pure rfl
  | .list _ [] | .int .. | .str .. | .bool .. | .sym .. | .keyword .. => by
    unfold toplevel
    exact .bind (expr_carries blames _) fun _ => .pure rfl

theorem toplevels_carry (blames : Blames bytes blamed table whole) (regions : Regions) :
    ∀ forms : List Form,
    Carries taken blamed (List.map (Toplevel.shift bytes taken)) (toplevels table regions forms)
      (toplevels whole regions (shiftForms bytes forms))
  | [] => by
    simp only [shiftForms, toplevels]
    exact .pure rfl
  | form :: rest => by
    simp only [shiftForms, toplevels]
    exact .bind (toplevel_carries blames regions form) fun _ =>
      .bind (toplevels_carry blames regions rest)
      fun _ => .pure List.map_append.symm

end

end Steps

/-- The toplevel forms of the first forms come before those of the others. -/
theorem toplevels_append (table : LineTable) (regions : Regions) (first second : List Form) :
    toplevels table regions (first ++ second) = (do
      let before ← toplevels table regions first
      let after ← toplevels table regions second
      pure (before ++ after)) := by
  induction first with
  | nil => simp [toplevels]
  | cons form rest ih =>
    simp only [List.cons_append, toplevels, ih, bind_assoc, pure_bind, List.append_assoc]

/-- Numbered functions, and others behind them. -/
theorem Numbered.append {first second : List Function} {counters counters' : Counters}
    (numbered : Numbered first counters) (numbered' : Numbered second counters') (bytes : Nat) :
    Numbered (first ++ second.map (Function.shift bytes counters)) (counters.after counters') := by
  have ids : (second.map (Function.shift bytes counters)).map (·.signature.id) =
      (List.range second.length).map (first.length + ·) := by
    rw [← numbered'.1, ← numbered.2, List.map_map, List.map_map]
    exact List.map_congr_left fun function _ => Nat.add_comm ..
  refine ⟨?_, ?_⟩
  · rw [List.map_append, ids, numbered.1, List.length_append, List.length_map, List.range_add]
  · rw [List.length_append, List.length_map, Nat.add_comm, ← numbered.2, ← numbered'.2]
    rfl

end Build

namespace Program

/-- The program with another one behind it, which stands so many bytes further on. -/
def followedBy (bytes : Nat) (first second : Program) : Program :=
  ⟨first.top ++ second.top.map (Toplevel.shift bytes first.counters),
    first.counters.after second.counters⟩

variable {bytes lines : Nat} {table first whole : LineTable} {forms others : List Form}
  {program later : Program}

/-- A program is made of forms if they can be read, from the first numbers on. -/
theorem ofForms_eq_ok : ofForms table forms = .ok program ↔
    (Build.toplevels table .none forms).run ⟨0, 0⟩ = .ok (program.top, program.counters) := by
  unfold ofForms
  cases (Build.toplevels table .none forms).run ⟨0, 0⟩ with
  | error error => simp [Except.map]
  | ok result =>
    obtain ⟨top, counters⟩ := result
    simp only [Except.map, Except.ok.injEq, Prod.mk.injEq]
    exact ⟨fun same => same ▸ ⟨rfl, rfl⟩, fun ⟨top, counters⟩ => top ▸ counters ▸ rfl⟩

/-- What forms spell does not depend on where the lines end. -/
theorem ofForms_table (built : ofForms table forms = .ok program) (whole : LineTable) :
    ofForms whole forms = .ok program := by
  have carries : Build.Carries ⟨0, 0⟩ (fun _ _ => True) (List.map (Toplevel.shift 0 ⟨0, 0⟩))
      (Build.toplevels table .none forms) (Build.toplevels whole .none (shiftForms 0 forms)) :=
    Build.toplevels_carry (fun _ _ => trivial) .none forms
  rw [shiftForms_zero] at carries
  rw [ofForms_eq_ok] at built ⊢
  rcases carries.ends ⟨0, 0⟩ with ⟨top, after, ends, ends'⟩ | ⟨_, _, fails, -⟩
  · cases built.symm.trans ends
    have same : program.top.map (Toplevel.shift 0 ⟨0, 0⟩) = program.top :=
      (List.map_congr_left fun form _ => form.shift_zero).trans (List.map_id' _)
    rwa [same] at ends'
  · cases built.symm.trans fails

/-- What forms behind others spell. -/
theorem ofForms_append (built : ofForms first forms = .ok program)
    (behind : table.Behind bytes lines whole) :
    ofForms whole (forms ++ others.map (Form.shift bytes)) =
      comesBelow lines (program.followedBy bytes) (ofForms table others) := by
  have before := ofForms_eq_ok.mp (ofForms_table built whole)
  have blames : Build.Blames bytes (fun error error' => error' = error.below lines) table whole :=
    fun span _ => congrArg (ParseError.mk · _) (behind span)
  have carries : Build.Carries program.counters (fun error error' => error' = error.below lines)
      (List.map (Toplevel.shift bytes program.counters)) (Build.toplevels table .none others)
      (Build.toplevels whole .none (shiftForms bytes others)) :=
    Build.toplevels_carry blames .none others
  have start : program.counters.after ⟨0, 0⟩ = program.counters := by simp [Counters.after]
  rw [shiftForms_eq_map] at carries
  have run : (Build.toplevels whole .none (forms ++ others.map (Form.shift bytes))).run ⟨0, 0⟩ =
      (Build.toplevels whole .none (others.map (Form.shift bytes))).run program.counters >>=
        fun built => pure (program.top ++ built.1, built.2) := by
    rw [Build.toplevels_append, StateT.run_bind, before]
    rfl
  unfold ofForms
  rw [run]
  rcases carries.ends ⟨0, 0⟩ with ⟨top, after, ends, ends'⟩ | ⟨error, _, fails, fails', rfl⟩
  · rw [start] at ends'
    rw [ends, ends']
    rfl
  · rw [start] at fails'
    rw [fails, fails']
    rfl

/-- The functions of the first program stay as they are; those of the other one come behind them. -/
theorem followedBy_functions
    (numbered : Build.Numbered (Build.functionsOfTop program.top) program.counters)
    (numbered' : Build.Numbered (Build.functionsOfTop later.top) later.counters) :
    (program.followedBy bytes later).functions =
      program.functions ++ later.functions.map (Function.shift bytes program.counters) := by
  have shifted : Build.functionsOfTop (later.top.map (Toplevel.shift bytes program.counters)) =
      (Build.functionsOfTop later.top).map (Function.shift bytes program.counters) := by
    rw [Build.functionsOfTop, Build.functionsOfTop, ← functionsOfAll_shift]
    · simp only [List.map_map]
      congr 1
      exact List.map_congr_left fun form _ => by cases form <;> rfl
    · exact fun e _ => e.functions_shift bytes program.counters
  have all : Build.functionsOfTop (program.followedBy bytes later).top =
      Build.functionsOfTop program.top ++
        (Build.functionsOfTop later.top).map (Function.shift bytes program.counters) := by
    rw [followedBy, Build.functionsOfTop_append, shifted]
  have both : Build.Numbered (Build.functionsOfTop (program.followedBy bytes later).top)
      (program.followedBy bytes later).counters := by
    rw [all]
    exact numbered.append numbered' bytes
  rw [functions_of_numbered both, functions_of_numbered numbered,
    functions_of_numbered numbered', all]

theorem parse_eq_bind (source : String) (path : Option String) : parse source path =
    Form.ofSource source path >>= ofForms (LineTable.ofSource source path) := rfl

/-- Behind a text that can be read, on a line of its own, a text reads as alone. -/
theorem parse_lines (first second : String) (path : Option String) :
    (∀ forms, Form.ofSource first path = .ok forms ->
      Form.ofSource (first ++ "\n" ++ second) path = comesBelow (lineCount first)
        (fun others => forms ++ others.map (Form.shift (lineBytes first)))
        (Form.ofSource second path)) ∧
    (∀ program, parse first path = .ok program ->
      parse (first ++ "\n" ++ second) path = comesBelow (lineCount first)
        (program.followedBy (lineBytes first)) (parse second path) ∧
      program.counters.functions = program.functions.length ∧
      ∀ later, parse second path = .ok later ->
        (program.followedBy (lineBytes first) later).functions = program.functions ++
          later.functions.map (Function.shift (lineBytes first) program.counters)) := by
  have reads (forms : List Form) (ends : Form.ofSource first path = .ok forms) :=
    Form.ofSource_line ends second
  refine ⟨reads, fun program parsed => ⟨?_, ?_, fun later parsed' => ?_⟩⟩
  · obtain ⟨forms, ends, built⟩ := parse_eq_ok.mp parsed
    have append := reads forms ends
    have behind := LineTable.ofSource_behind first second path
    rw [parse_eq_bind, append, parse_eq_bind]
    cases Form.ofSource second path with
    | error error => rfl
    | ok others => exact ofForms_append built behind
  · obtain ⟨numbered, -⟩ := parse_reads parsed
    rw [functions_of_numbered numbered]
    exact numbered.2
  · exact followedBy_functions (parse_reads parsed).1 (parse_reads parsed').1

end Program

/-- A block whose comment goes to the end of its text. -/
def tailBlock : String := "(tco (defn f (x) (g x))) ; (g"

/-- A block with a comment at its end is an instance: the definition behind it stands outside. -/
theorem tailBlock_lines :
    Program.parse (tailBlock ++ "\n" ++ "(defn g (y) y)") none =
      .ok ((Program.ofText tailBlock).followedBy 30 (Program.ofText "(defn g (y) y)")) ∧
    ((Program.ofText tailBlock).followedBy 30 (Program.ofText "(defn g (y) y)")).functions.map
      (fun function => (function.signature.id, function.signature.regions)) =
        [(0, ⟨true, false, false⟩), (1, .none)] ∧
    Form.ofSource (tailBlock ++ "\n" ++ "g\n)") none = .error ⟨⟨none, ⟨3, 1⟩⟩, .unbalanced⟩ := by
  have ⟨reads, reads', bytes, lines⟩ : (Program.parse tailBlock none).toOption.isSome = true ∧
      (Program.parse "(defn g (y) y)" none).toOption.isSome = true ∧
      lineBytes tailBlock = 30 ∧ lineCount tailBlock = 1 := by
    rw [lineBytes, lineCount, tailBlock, Program.parse_ofList, Program.parse_ofList,
      String.toList_ofList]
    decide +kernel
  have fault : Form.ofSource "g\n)" none = .error ⟨⟨none, ⟨2, 1⟩⟩, .unbalanced⟩ := by
    have blamed : (Form.ofSource "g\n)" none).map (fun _ => ()) =
        .error ⟨⟨none, ⟨2, 1⟩⟩, .unbalanced⟩ := by
      rw [Form.ofSource, LineTable.ofSource, tokenize, String.toList_ofList]
      decide +kernel
    cases read : Form.ofSource "g\n)" none with
    | ok forms => simp [read, Except.map] at blamed
    | error error =>
      rw [read] at blamed
      exact congrArg _ (Except.error.inj blamed)
  obtain ⟨forms, readForms, -⟩ := Program.parse_eq_ok.mp (Program.parse_ofText reads)
  obtain ⟨whole, -, functions⟩ := (Program.parse_lines tailBlock "(defn g (y) y)" none).2 _
    (Program.parse_ofText reads)
  refine ⟨?_, ?_, ?_⟩
  · rw [whole, Program.parse_ofText reads', bytes]
    rfl
  · rw [← bytes, functions _ (Program.parse_ofText reads'), bytes, Program.ofText, Program.ofText,
      tailBlock, Program.parse_ofList, Program.parse_ofList]
    decide +kernel
  · rw [(Program.parse_lines tailBlock "g\n)" none).1 forms readForms, fault, lines]
    rfl

end Trampoline
