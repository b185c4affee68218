import Mathlib.Data.List.Forall2
import Trampoline.Surface.Build
import Trampoline.Proofs.Spelling.Basic
import Trampoline.Proofs.Syntax.Nodes

/-!
# Programs read from a source

What the reader builds: functions are plain and have no wrappers yet, their bodies are blocks,
continuations come with tail calls, and jumps take no continuation along. Every name is one of the
source, calls can be told from special forms and arms from alternatives, and functions are numbered
in the order in which they stand in the program.
-/

namespace Trampoline

/-- What the reader says about an expression. -/
def Expr.IsSource : Expr -> Prop
  | .fn _ signature body => signature.kind = .plain ∧ signature.wrappers = [] ∧
    (signature.regions.cont = true -> signature.regions.tco = true) ∧
    ∃ mark items, body = .seq mark items
  | .jump _ _ _ _ cc => cc = none
  | _ => True

/-- What the reader says about an expression that it reads in some regions. -/
def Expr.IsReadIn (regions : Regions) : Expr -> Prop
  | .fn _ signature body => signature.kind = .plain ∧ signature.wrappers = [] ∧
    signature.regions = regions ∧ ∃ mark items, body = .seq mark items
  | .jump _ _ _ _ cc => cc = none
  | _ => True

/-- Whether an expression is a call. -/
def Expr.isCall : Expr -> Bool
  | .call .. => true
  | _ => false

/-- The expression can be told from others by its form, but for a conditional with one arm, whose
test may be the name of the alternative. -/
def Expr.IsLegible : Expr -> Prop
  | .call _ func _ _ => func.symbol?.bind SpecialForm.ofWord? = none
  | .cond _ arms _ =>
    arms ≠ [] ∧ ∀ arm ∈ arms, arm.1.symbol? = some "else" -> arms.length = 1
  | .capture _ _ e => e.isCall = true
  | _ => True

/-- All that the reader says about an expression that it reads in some regions, from atoms of a
kind. -/
structure Expr.IsReadFrom (kind : Spelling -> Prop) (regions : Regions) (e : Expr) : Prop where
  atoms : e.OwnOf kind
  source : e.IsReadIn regions
  legible : e.IsLegible

/-- Continuations come with tail calls. -/
def Regions.Nested (regions : Regions) : Prop := regions.cont = true -> regions.tco = true

/-- An expression that was read in regions is one of a source. -/
theorem Expr.IsReadIn.isSource {regions : Regions} (nested : regions.Nested) {e : Expr}
    (isRead : e.IsReadIn regions) : e.IsSource := by
  cases e with
  | fn mark signature body =>
    obtain ⟨kind, bare, rfl, block⟩ := isRead
    exact ⟨kind, bare, nested, block⟩
  | jump => exact isRead
  | _ => trivial

/-- The name that a call calls. -/
def Expr.callee? : Expr -> Option String
  | .call _ func _ _ => func.symbol?
  | _ => none

/-- A toplevel form can be told from others. -/
def Toplevel.IsLegible (kind : Spelling -> Prop) : Toplevel -> Prop
  | .define name _ => kind (.sym name)
  | .exec e => ∀ name, e.callee? = some name -> Block.ofWord? name = none

/-- The name that a list starts with. -/
def Form.head? : Form -> Option String
  | .list _ (head :: _) => head.symbol?
  | _ => none

namespace Build

/-- The functions are all that were finished so far, in order. -/
def Numbered (functions : List Function) (counters : Counters) : Prop :=
  functions.map (·.signature.id) = List.range functions.length ∧
    counters.functions = functions.length

/-- After these functions were finished, the step fails, or ends with a value as asked after those
inside. -/
structure Reads {α : Type} (prior : List Function) (step : Build α) (inside : α -> List Function)
    (post : α -> Prop) : Prop where
  ends : ∀ {before value after}, Numbered prior before -> step.run before = .ok (value, after) ->
    Numbered (inside value) after ∧ post value

namespace Reads

variable {α β : Type} {prior : List Function} {step : Build α} {inside : α -> List Function}
  {post : α -> Prop}

theorem pure {value : α} (same : inside value = prior) (holds : post value) :
    Reads prior (pure value) inside post := by
  constructor
  intro before _ after numbered ends
  cases ends
  exact ⟨same ▸ numbered, holds⟩

theorem bind {next : α -> Build β} {later : β -> List Function} {post' : β -> Prop}
    (first : Reads prior step inside post)
    (second : ∀ value, post value -> Reads (inside value) (next value) later post') :
    Reads prior (step >>= next) later post' := by
  constructor
  intro before value after numbered ends
  rw [StateT.run_bind] at ends
  cases run : step.run before with
  | error error => simp [run, Bind.bind, Except.bind] at ends
  | ok result =>
    obtain ⟨numbered', holds⟩ := first.ends numbered run
    rw [run] at ends
    exact (second result.1 holds).ends numbered' ends

theorem malformed (table : LineTable) (span : Span) (malformation : Malformation) :
    Reads prior (malformed table span malformation) inside post :=
  ⟨fun _ => nofun⟩

/-- Finishing an expression finishes no function. -/
theorem finish {span : Span} {make : Mark -> Expr} {inside : Expr -> List Function}
    {post : Expr -> Prop} (same : ∀ mark, inside (make mark) = prior)
    (holds : ∀ mark, post (make mark)) : Reads prior (finish span make) inside post := by
  constructor
  intro before _ after numbered ends
  cases ends
  exact ⟨(same _).symm ▸ numbered, holds _⟩

theorem imp {post' : α -> Prop} (reads : Reads prior step inside post)
    (implies : ∀ value, post value -> post' value) : Reads prior step inside post' :=
  ⟨fun numbered ends => (reads.ends numbered ends).imp_right (implies _)⟩

/-- A step that finishes no function, repeated. -/
theorem mapM {γ : Type} {read : γ -> Build α} {items : List γ}
    (each : ∀ item ∈ items, Reads prior (read item) (fun _ => prior) post) :
    Reads prior (items.mapM read) (fun _ => prior) fun values => ∀ value ∈ values, post value := by
  induction items with
  | nil => exact .pure rfl fun _ member => absurd member List.not_mem_nil
  | cons item rest ih =>
    obtain ⟨first, others⟩ := List.forall_mem_cons.mp each
    rw [List.mapM_cons]
    refine .bind first fun value holds => .bind (ih others) fun values hold => .pure rfl ?_
    exact List.forall_mem_cons.mpr ⟨holds, hold⟩

end Reads

variable {table : LineTable} {regions : Regions} {kind : Spelling -> Prop}
  {prior : List Function}

/-! ## Names -/

variable {form : Form} {owner : SpecialForm} {rest : List Form} {span : Span} {items : List Expr}

/-- The name of a form of a kind is of the kind. -/
theorem kind_symbol (ofKind : form.Of kind) {name : String}
    (symbol : form.symbol? = some name) : kind (.sym name) := by
  cases form with
  | sym =>
    cases symbol
    exact ofKind _ (List.mem_singleton.mpr rfl)
  | _ => cases symbol

/-- The items of a form of a kind are of the kind. -/
theorem kind_items (ofKind : form.Of kind) {items : List Form}
    (listed : form.items? = some items) : ∀ item ∈ items, item.Of kind := by
  cases form with
  | list =>
    cases listed
    exact Form.of_list.mp ofKind
  | _ => cases listed

/-- Reading a name reads no functions. -/
theorem name_reads (ofKind : form.Of kind) :
    Reads prior (name table owner form) (fun _ => prior) fun name => kind (.sym name) := by
  unfold name
  split
  · exact .pure rfl (kind_symbol ofKind ‹_›)
  · exact .malformed ..

/-- Reading names reads no functions. -/
theorem names_read (ofKind : form.Of kind) :
    Reads prior (names table owner form) (fun _ => prior) fun names =>
      ∀ name ∈ names, kind (.sym name) := by
  unfold names
  split
  · exact .mapM fun item member => name_reads (kind_items ofKind ‹_› item member)
  · exact .malformed ..

/-- Reading a decorator reads no functions. -/
theorem decorator_reads (ofKind : form.Of kind) :
    Reads prior (decorator table form) (fun _ => prior) fun decorator =>
      kind (.sym decorator.1) := by
  unfold decorator
  split
  · exact .pure rfl (kind_symbol ofKind ‹_›)
  · exact .malformed ..

/-- The names in a header are of the kind. -/
def Header.Of (kind : Spelling -> Prop) (header : Header) : Prop :=
  (∀ name ∈ header.params, kind (.sym name)) ∧
    ∀ decorator ∈ header.decorators, kind (.sym decorator.1)

/-- Reading a header reads no functions. -/
theorem header_reads {params : Form} (ofParams : params.Of kind)
    (ofRest : ∀ form ∈ rest, form.Of kind) :
    Reads prior (header table params rest) (fun _ => prior) (Header.Of kind) := by
  unfold header
  refine .bind (names_read ofParams) fun params named => ?_
  split
  · rename_i listed _
    split
    · have decorators := kind_items (ofRest listed (by simp)) ‹_›
      refine .bind (.mapM fun item member => decorator_reads (decorators item member)) ?_
      exact fun _ decorated => .pure rfl ⟨named, decorated⟩
    · exact .malformed ..
  · exact .pure rfl ⟨named, fun _ member => absurd member List.not_mem_nil⟩

/-! ## Expressions -/

/-- What comes of reading a form. -/
structure Stands (kind : Spelling -> Prop) (regions : Regions) (form : Form) (e : Expr) : Prop where
  all : e.All (Expr.IsReadFrom kind regions)
  symbol : e.symbol? = form.symbol?
  callee : ∀ name, e.callee? = some name -> form.head? = some name

/-- What comes of reading the arguments of a call. -/
structure ArgsRead (kind : Spelling -> Prop) (regions : Regions) (afterKeyword : Bool)
    (read : List Expr × List (String × Expr)) : Prop where
  named : afterKeyword = true -> read.1 = []
  args : AllOf (Expr.IsReadFrom kind regions) read.1
  kwargs : AllOfKwargs (Expr.IsReadFrom kind regions) read.2
  keywords : ∀ arg ∈ read.2, kind (.keyword arg.1)

/-- What comes of reading the clauses of a conditional. -/
structure ClausesRead (kind : Spelling -> Prop) (regions : Regions)
    (read : List (Expr × Expr) × Option Expr) : Prop where
  arms : AllOfArms (Expr.IsReadFrom kind regions) read.1
  alt : ∀ alt, read.2 = some alt -> alt.All (Expr.IsReadFrom kind regions)
  tests : ∀ arm ∈ read.1, arm.1.symbol? ≠ some "else"

/-- The functions in arguments. -/
def functionsOfArgs (args : List Expr × List (String × Expr)) : List Function :=
  functionsOfAll args.1 ++ functionsOfKwargs args.2

/-- The functions in clauses. -/
def functionsOfClauses (clauses : List (Expr × Expr) × Option Expr) : List Function :=
  functionsOfArms clauses.1 ++ functionsOfAll clauses.2.toList

theorem functions_cond (mark : Mark) (arms : List (Expr × Expr)) (alt : Option Expr) :
    (Expr.cond mark arms alt).functions = functionsOfClauses (arms, alt) := by
  cases alt <;> simp [Expr.functions, functionsOfClauses, functionsOfAll]

/-- An expression without parts has only itself to be of a kind. -/
theorem all_atom {e : Expr} (nodes : e.nodes = [e]) (ofKind : e.OwnOf kind)
    (source : e.IsReadIn regions) (legible : e.IsLegible) :
    e.All (Expr.IsReadFrom kind regions) := by
  intro node member
  rw [nodes] at member
  cases List.mem_singleton.mp member
  exact ⟨ofKind, source, legible⟩

/-- A block is finished after its items. -/
theorem finishBlock_reads (all : AllOf (Expr.IsReadFrom kind regions) items) :
    Reads (prior ++ functionsOfAll items) (finish span fun mark => .seq mark items)
      (prior ++ ·.functions) (·.All (Expr.IsReadFrom kind regions)) :=
  .finish (fun _ => rfl) fun _ =>
    Expr.all_seq.mpr ⟨⟨Expr.ownOf_of_nil rfl, trivial, trivial⟩, all⟩

/-- A function is finished after those in its body. -/
theorem finishFunction_reads {name : Option String} {header : Header}
    (ofHeader : header.Of kind) (all : AllOf (Expr.IsReadFrom kind regions) items) :
    Reads (prior ++ functionsOfAll items) (finishFunction regions span name header items)
      (prior ++ ·.functions) fun e =>
        e.All (Expr.IsReadFrom kind regions) ∧ e.symbol? = none ∧ e.callee? = none := by
  constructor
  rintro before _ _ ⟨ids, count⟩ ⟨⟩
  refine ⟨?_, ?_, rfl, rfl⟩
  · simp only [Numbered, Expr.functions, ← List.append_assoc, List.map_append, List.map_cons,
      List.map_nil, List.length_append, List.length_cons, List.length_nil] at ids count ⊢
    rw [ids, count, List.range_succ]
    exact ⟨rfl, rfl⟩
  · refine Expr.all_fn.mpr ⟨⟨?_, ⟨rfl, rfl, rfl, _, items, rfl⟩, trivial⟩,
      Expr.all_seq.mpr ⟨⟨?_, trivial, trivial⟩, all⟩⟩
    · exact List.forall_mem_append.mpr
        ⟨List.forall_mem_map.mpr ofHeader.1, List.forall_mem_map.mpr ofHeader.2⟩
    · exact Expr.ownOf_of_nil rfl

/-- A positional argument is read before the others. -/
theorem args_positional (rest : List Form) (plain : ∀ span name, form ≠ .keyword span name) :
    args table regions false (form :: rest) = (do
      let first ← expr table regions form
      let (args, kwargs) ← args table regions false rest
      pure (first :: args, kwargs)) := by
  cases form with
  | keyword span name => exact absurd rfl (plain span name)
  | _ => rw [args] <;> nofun

/-- A positional argument reads its functions before those of the others. -/
theorem positional_reads (plain : ∀ span name, form ≠ .keyword span name)
    (first : Reads prior (expr table regions form) (prior ++ ·.functions)
      (Stands kind regions form))
    (others : ∀ prior, Reads prior (args table regions false rest) (prior ++ functionsOfArgs ·)
      (ArgsRead kind regions false)) :
    Reads prior (args table regions false (form :: rest)) (prior ++ functionsOfArgs ·)
      (ArgsRead kind regions false) := by
  rw [args_positional rest plain]
  refine .bind first fun first stands => .bind (others _) ?_
  rintro ⟨args, kwargs⟩ ⟨-, values, named, keywords⟩
  refine .pure ?_ ⟨nofun, allOf_cons.mpr ⟨stands.all, values⟩, named, keywords⟩
  simp [functionsOfArgs, functionsOfAll]

mutual

/-- An expression is read from its form, with the functions in it in order. -/
theorem expr_reads : ∀ (form : Form) (prior : List Function), form.Of kind ->
    Reads prior (expr table regions form) (prior ++ ·.functions) (Stands kind regions form)
  | .int _ value, _, ofKind => by
    unfold expr
    refine .finish (fun _ => List.append_nil _) fun _ =>
      ⟨all_atom rfl ?_ trivial trivial, rfl, nofun⟩
    exact ofKind
  | .str _ value, _, ofKind => by
    unfold expr
    refine .finish (fun _ => List.append_nil _) fun _ =>
      ⟨all_atom rfl ?_ trivial trivial, rfl, nofun⟩
    exact ofKind
  | .bool _ value, _, ofKind => by
    unfold expr
    refine .finish (fun _ => List.append_nil _) fun _ =>
      ⟨all_atom rfl ?_ trivial trivial, rfl, nofun⟩
    exact ofKind
  | .sym _ name, _, ofKind => by
    unfold expr
    by_cases isNil : name = "nil"
    · subst isNil
      refine .finish (fun _ => List.append_nil _)
        fun _ => ⟨all_atom rfl ?_ trivial trivial, rfl, nofun⟩
      exact ofKind
    · simp only [if_neg isNil]
      refine .finish (fun _ => List.append_nil _)
        fun _ => ⟨all_atom rfl ?_ trivial trivial, rfl, nofun⟩
      exact ofKind
  | .keyword .., _, _ => by
    unfold expr
    exact .malformed ..
  | .list _ [], _, _ => by
    unfold expr
    exact .malformed ..
  | .list span (head :: items), prior, ofKind => by
    obtain ⟨ofHead, ofItems⟩ := List.forall_mem_cons.mp (Form.of_list.mp ofKind)
    unfold expr
    cases special : head.symbol?.bind SpecialForm.ofWord? with
    | none =>
      refine .bind (expr_reads head prior ofHead) fun func stands => ?_
      refine .bind (args_read false items _ ofItems) ?_
      rintro ⟨args, kwargs⟩ ⟨-, values, named, keywords⟩
      refine .finish (fun mark => ?_) fun mark => ⟨Expr.all_call.mpr
        ⟨⟨?_, trivial, ?_⟩, stands.all, values, named⟩, rfl, fun name called => ?_⟩
      · simp [Expr.functions, functionsOfArgs]
      · exact List.forall_mem_map.mpr keywords
      · rw [Expr.IsLegible, stands.symbol, special]
      · exact stands.symbol.symm.trans called
    | some word =>
      cases word with
      | define => exact .malformed ..
      | fn =>
        match items with
        | [] => exact .malformed ..
        | params :: rest =>
          obtain ⟨ofParams, ofRest⟩ := List.forall_mem_cons.mp ofItems
          refine .bind (header_reads ofParams ofRest) fun header ofHeader => ?_
          refine .bind (block_reads header.skipped rest prior ofRest) fun items all => ?_
          refine .imp (finishFunction_reads ofHeader all) ?_
          rintro e ⟨all, symbol, callee⟩
          exact ⟨all, symbol, fun name called => by rw [callee] at called; cases called⟩
      | defn =>
        match items with
        | [] | [_] => exact .malformed ..
        | binder :: params :: rest =>
          obtain ⟨ofBinder, ofItems⟩ := List.forall_mem_cons.mp ofItems
          obtain ⟨ofParams, ofRest⟩ := List.forall_mem_cons.mp ofItems
          refine .bind (name_reads ofBinder) fun name named => ?_
          refine .bind (header_reads ofParams ofRest) fun header ofHeader => ?_
          refine .bind (block_reads header.skipped rest prior ofRest) fun items all => ?_
          refine .bind (finishFunction_reads ofHeader all) ?_
          rintro func ⟨ofFunc, -⟩
          refine .finish (fun mark => rfl) fun mark => ⟨Expr.all_bind.mpr
            ⟨⟨List.forall_mem_singleton.mpr named, trivial, trivial⟩, ofFunc⟩, rfl, nofun⟩
      | conditional =>
        match items with
        | [] | [_] | _ :: _ :: _ :: _ :: _ => exact .malformed ..
        | [test, body] =>
          obtain ⟨ofTest, ofItems⟩ := List.forall_mem_cons.mp ofItems
          refine .bind (expr_reads test prior ofTest) fun test tests => ?_
          refine .bind (expr_reads body _ (List.forall_mem_singleton.mp ofItems))
            fun body bodies => ?_
          refine .finish (fun mark => ?_) fun mark => ⟨Expr.all_cond_none.mpr ⟨⟨?_, trivial, ?_⟩,
            allOfArms_cons.mpr ⟨tests.all, bodies.all, ?_⟩⟩, rfl, nofun⟩
          · simp [Expr.functions, functionsOfArms]
          · exact Expr.ownOf_of_nil rfl
          · simp [Expr.IsLegible]
          · exact fun _ member => absurd member List.not_mem_nil
        | [test, body, alt] =>
          obtain ⟨ofTest, ofItems⟩ := List.forall_mem_cons.mp ofItems
          obtain ⟨ofBody, ofItems⟩ := List.forall_mem_cons.mp ofItems
          refine .bind (expr_reads test prior ofTest) fun test tests => ?_
          refine .bind (expr_reads body _ ofBody) fun body bodies => ?_
          refine .bind (expr_reads alt _ (List.forall_mem_singleton.mp ofItems)) fun alt alts => ?_
          refine .finish (fun mark => ?_) fun mark => ⟨Expr.all_cond_some.mpr ⟨⟨?_, trivial, ?_⟩,
            allOfArms_cons.mpr ⟨tests.all, bodies.all, ?_⟩, alts.all⟩,
            Expr.symbol?_of_list (Expr.spelling_cond ..), nofun⟩
          · simp [Expr.functions, functionsOfArms]
          · exact Expr.ownOf_of_nil rfl
          · simp [Expr.IsLegible]
          · exact fun _ member => absurd member List.not_mem_nil
      | cond =>
        refine .bind (clauses_read items prior ofItems) ?_
        rintro ⟨arms, alt⟩ ⟨ofArms, ofAlt, tests⟩
        by_cases empty : arms.isEmpty = true
        · simp only [empty, if_true]
          exact .malformed ..
        · simp only [empty, Bool.false_eq_true, if_false]
          have own (mark) : (Expr.cond mark arms alt).IsReadFrom kind regions :=
            ⟨Expr.ownOf_of_nil rfl, trivial, by simpa using empty,
              fun arm member isElse => absurd isElse (tests arm member)⟩
          cases alt with
          | none => exact .finish (fun mark => by rw [functions_cond]) fun mark =>
              ⟨Expr.all_cond_none.mpr ⟨own mark, ofArms⟩, rfl, nofun⟩
          | some alt => exact .finish (fun mark => by rw [functions_cond]) fun mark =>
              ⟨Expr.all_cond_some.mpr ⟨own mark, ofArms, ofAlt alt rfl⟩,
                Expr.symbol?_of_list (Expr.spelling_cond ..), nofun⟩
      | and | or =>
        exact .bind (block_reads 0 items prior ofItems) fun operands all =>
          .finish (fun mark => rfl) fun mark => ⟨Expr.all_short.mpr
            ⟨⟨Expr.ownOf_of_nil rfl, trivial, trivial⟩, all⟩, rfl, nofun⟩
      | begin =>
        exact .bind (block_reads 0 items prior ofItems) fun items all =>
          .finish (fun mark => rfl) fun mark => ⟨Expr.all_seq.mpr
            ⟨⟨Expr.ownOf_of_nil rfl, trivial, trivial⟩, all⟩, rfl, nofun⟩
      | bind =>
        match items with
        | [] | [_] | _ :: _ :: _ :: _ => exact .malformed ..
        | [binder, bindee] =>
          obtain ⟨ofBinder, ofItems⟩ := List.forall_mem_cons.mp ofItems
          refine .bind (name_reads ofBinder) fun name named => ?_
          refine .bind (expr_reads bindee prior (List.forall_mem_singleton.mp ofItems))
            fun e stands => ?_
          exact .finish (fun mark => rfl) fun mark => ⟨Expr.all_bind.mpr
            ⟨⟨List.forall_mem_singleton.mpr named, trivial, trivial⟩, stands.all⟩, rfl, nofun⟩
      | assign =>
        match items with
        | [] | [_] | _ :: _ :: _ :: _ => exact .malformed ..
        | [binder, bindee] =>
          obtain ⟨ofBinder, ofItems⟩ := List.forall_mem_cons.mp ofItems
          refine .bind (name_reads ofBinder) fun name named => ?_
          refine .bind (expr_reads bindee prior (List.forall_mem_singleton.mp ofItems))
            fun e stands => ?_
          exact .finish (fun mark => rfl) fun mark => ⟨Expr.all_assign.mpr
            ⟨⟨List.forall_mem_singleton.mpr named, trivial, trivial⟩, stands.all⟩, rfl, nofun⟩
      | loop =>
        match items with
        | [] => exact .malformed ..
        | test :: rest =>
          obtain ⟨ofTest, ofRest⟩ := List.forall_mem_cons.mp ofItems
          refine .bind (expr_reads test prior ofTest) fun test tests => ?_
          refine .bind (block_reads 0 rest _ ofRest) fun items all => ?_
          refine .bind (finishBlock_reads all) ?_
          intro body bodies
          exact .finish (fun mark => (List.append_assoc ..).symm) fun mark => ⟨Expr.all_loop.mpr
            ⟨⟨Expr.ownOf_of_nil rfl, trivial, trivial⟩, tests.all, bodies⟩,
            Expr.symbol?_of_list (Expr.spelling_loop ..), nofun⟩
      | jump =>
        match items with
        | [] => exact .malformed ..
        | func :: rest =>
          obtain ⟨ofFunc, ofRest⟩ := List.forall_mem_cons.mp ofItems
          refine .bind (expr_reads func prior ofFunc) fun func stands => ?_
          refine .bind (args_read false rest _ ofRest) ?_
          rintro ⟨args, kwargs⟩ ⟨-, values, named, keywords⟩
          refine .finish (fun mark => ?_) fun mark => ⟨Expr.all_jump_none.mpr
            ⟨⟨?_, rfl, trivial⟩, stands.all, values, named⟩, rfl, nofun⟩
          · simp [Expr.functions, functionsOfArgs]
          · exact List.forall_mem_map.mpr keywords
      | capture =>
        match items with
        | [] | [_] | _ :: _ :: _ :: _ => exact .malformed ..
        | [binders, call] =>
          obtain ⟨ofBinders, ofItems⟩ := List.forall_mem_cons.mp ofItems
          refine .bind (names_read ofBinders) fun binders named => ?_
          refine .bind (expr_reads call prior (List.forall_mem_singleton.mp ofItems))
            fun call stands => ?_
          cases call with
          | call => exact .finish (fun mark => rfl) fun mark => ⟨Expr.all_capture.mpr
              ⟨⟨List.forall_mem_map.mpr named, trivial, rfl⟩, stands.all⟩, rfl, nofun⟩
          | _ => exact .malformed ..

theorem block_reads : ∀ (skipped : Nat) (forms : List Form) (prior : List Function),
    (∀ form ∈ forms, form.Of kind) -> Reads prior (block table regions skipped forms)
      (prior ++ functionsOfAll ·) (AllOf (Expr.IsReadFrom kind regions))
  | _, [], prior, _ => by
    simp only [block]
    exact .pure (List.append_nil _) fun _ member => absurd member List.not_mem_nil
  | skipped + 1, _ :: rest, prior, ofKind => by
    unfold block
    exact block_reads skipped rest prior (List.forall_mem_cons.mp ofKind).2
  | 0, form :: rest, prior, ofKind => by
    obtain ⟨ofForm, ofRest⟩ := List.forall_mem_cons.mp ofKind
    unfold block
    refine .bind (expr_reads form prior ofForm) fun first stands => ?_
    refine .bind (block_reads 0 rest _ ofRest) fun others ofOthers => ?_
    exact .pure (List.append_assoc ..).symm (allOf_cons.mpr ⟨stands.all, ofOthers⟩)

theorem args_read : ∀ (afterKeyword : Bool) (forms : List Form) (prior : List Function),
    (∀ form ∈ forms, form.Of kind) -> Reads prior (args table regions afterKeyword forms)
      (prior ++ functionsOfArgs ·) (ArgsRead kind regions afterKeyword)
  | _, [], prior, _ => by
    unfold args
    exact .pure (List.append_nil _) ⟨fun _ => rfl, fun _ member => absurd member List.not_mem_nil,
      fun _ member => absurd member List.not_mem_nil, fun _ member =>
        absurd member List.not_mem_nil⟩
  | _, [.keyword _ name], _, _ => by
    unfold args
    exact .malformed ..
  | afterKeyword, .keyword _ name :: value :: rest, prior, ofKind => by
    obtain ⟨ofName, ofForms⟩ := List.forall_mem_cons.mp ofKind
    obtain ⟨ofValue, ofRest⟩ := List.forall_mem_cons.mp ofForms
    unfold args
    refine .bind (expr_reads value prior ofValue) fun value stands => ?_
    refine .bind (args_read true rest _ ofRest) ?_
    rintro ⟨args, kwargs⟩ ⟨last, values, named, keywords⟩
    cases last rfl
    refine .pure ?_ ⟨fun _ => rfl, values, allOfKwargs_cons.mpr ⟨stands.all, named⟩,
      List.forall_mem_cons.mpr ⟨ofName _ (List.mem_singleton.mpr rfl), keywords⟩⟩
    simp [functionsOfArgs, functionsOfAll, functionsOfKwargs]
  | true, .int .. :: _, _, _ | true, .str .. :: _, _, _ | true, .bool .. :: _, _, _
  | true, .sym .. :: _, _, _ | true, .list .. :: _, _, _ => by
    unfold args
    exact .malformed ..
  | false, .int span value :: rest, prior, ofKind =>
    positional_reads (fun _ _ => nofun) (expr_reads (.int span value) prior (ofKind _ (by simp)))
      fun prior => args_read false rest prior fun form member => ofKind form (by simp [member])
  | false, .str span value :: rest, prior, ofKind =>
    positional_reads (fun _ _ => nofun) (expr_reads (.str span value) prior (ofKind _ (by simp)))
      fun prior => args_read false rest prior fun form member => ofKind form (by simp [member])
  | false, .bool span value :: rest, prior, ofKind =>
    positional_reads (fun _ _ => nofun) (expr_reads (.bool span value) prior (ofKind _ (by simp)))
      fun prior => args_read false rest prior fun form member => ofKind form (by simp [member])
  | false, .sym span name :: rest, prior, ofKind =>
    positional_reads (fun _ _ => nofun) (expr_reads (.sym span name) prior (ofKind _ (by simp)))
      fun prior => args_read false rest prior fun form member => ofKind form (by simp [member])
  | false, .list span items :: rest, prior, ofKind =>
    positional_reads (fun _ _ => nofun) (expr_reads (.list span items) prior (ofKind _ (by simp)))
      fun prior => args_read false rest prior fun form member => ofKind form (by simp [member])

theorem clauses_read : ∀ (forms : List Form) (prior : List Function),
    (∀ form ∈ forms, form.Of kind) -> Reads prior (clauses table regions forms)
      (prior ++ functionsOfClauses ·) (ClausesRead kind regions)
  | [], _, _ => by
    unfold clauses
    exact .pure (List.append_nil _) ⟨fun _ member => absurd member List.not_mem_nil, fun _ => nofun,
      fun _ member => absurd member List.not_mem_nil⟩
  | .list span (test :: body) :: rest, prior, ofKind => by
    obtain ⟨ofClause, ofRest⟩ := List.forall_mem_cons.mp ofKind
    obtain ⟨ofTest, ofBody⟩ := List.forall_mem_cons.mp (Form.of_list.mp ofClause)
    unfold clauses
    by_cases isAlternative : isElse test = true
    · simp only [if_pos isAlternative]
      by_cases last : rest.isEmpty = true
      · simp only [if_pos last]
        refine .bind (block_reads 0 body prior ofBody) fun items all => ?_
        refine .bind (finishBlock_reads all) ?_
        intro alt ofAlt
        refine .pure ?_ ⟨fun _ member => absurd member List.not_mem_nil, ?_,
          fun _ member => absurd member List.not_mem_nil⟩
        · simp [functionsOfClauses, functionsOfArms, functionsOfAll]
        · rintro _ ⟨⟩
          exact ofAlt
      · simp only [if_neg last]
        exact .malformed ..
    · simp only [if_neg isAlternative]
      refine .bind (expr_reads test prior ofTest) fun test tests => ?_
      refine .bind (block_reads 0 body _ ofBody) fun items all => ?_
      refine .bind (finishBlock_reads all) ?_
      intro body bodies
      refine .bind (clauses_read rest _ ofRest) ?_
      rintro ⟨arms, alt⟩ ⟨ofArms, ofAlt, others⟩
      refine .pure ?_ ⟨allOfArms_cons.mpr ⟨tests.all, bodies, ofArms⟩, ofAlt,
        List.forall_mem_cons.mpr ⟨?_, others⟩⟩
      · simp [functionsOfClauses, functionsOfArms]
      · rw [tests.symbol]
        simpa [isElse] using isAlternative
  | .list _ [] :: _, _, _ | .int .. :: _, _, _ | .str .. :: _, _, _ | .bool .. :: _, _, _
  | .sym .. :: _, _, _ | .keyword .. :: _, _, _ => by
    unfold clauses
    exact .malformed ..

end

/-! ## Toplevel forms -/

/-- Entering a block leaves regions nested. -/
theorem enter_nested (nested : regions.Nested) (block : Block) : (enter regions block).Nested := by
  cases block with
  | tco => exact fun _ => rfl
  | continuations => exact fun _ => rfl
  | lazify => exact nested

/-- The regions inside blocks, given from the innermost to the outermost. -/
def regionsWithin (around : List Block) : Regions :=
  around.foldr (fun block regions => enter regions block) .none

/-- The regions inside of blocks are nested. -/
theorem regionsWithin_nested (around : List Block) : (regionsWithin around).Nested := by
  induction around with
  | nil => exact fun inside => inside
  | cons block around ih => exact enter_nested ih block

mutual

/-- The toplevel forms in a form, each with the blocks around it. -/
def leaves (around : List Block) : Form -> List (List Block × Form)
  | .list span (head :: items) =>
    match head.symbol?.bind Block.ofWord? with
    | some block => leavesOfAll (block :: around) items
    | none => [(around, .list span (head :: items))]
  | form => [(around, form)]

/-- The toplevel forms in several forms, each with the blocks around it. -/
def leavesOfAll (around : List Block) : List Form -> List (List Block × Form)
  | [] => []
  | form :: rest => leaves around form ++ leavesOfAll around rest

end

/-- What comes of reading a toplevel form inside blocks. -/
structure TopReadIn (kind : Spelling -> Prop) (around : List Block) (form : Toplevel) : Prop where
  legible : form.IsLegible kind
  source : form.expr.All (Expr.IsReadFrom kind (regionsWithin around))

/-- What comes of reading a toplevel form: its functions are from the same regions. -/
structure TopReadFrom (kind : Spelling -> Prop) (form : Toplevel) : Prop where
  legible : form.IsLegible kind
  source : ∃ regions : Regions, regions.Nested ∧ form.expr.All (Expr.IsReadFrom kind regions)

theorem TopReadIn.readFrom {around : List Block} {form : Toplevel}
    (read : TopReadIn kind around form) : TopReadFrom kind form :=
  ⟨read.legible, regionsWithin around, regionsWithin_nested around, read.source⟩

/-- What comes of reading toplevel forms one by one, each inside the blocks around it. -/
abbrev ReadOneByOne (kind : Spelling -> Prop) (leaves : List (List Block × Form))
    (top : List Toplevel) : Prop :=
  List.Forall₂ (fun leaf form => TopReadIn kind leaf.1 form) leaves top

/-- Of forms that were read one by one, each was read from its form. -/
theorem ReadOneByOne.each {leaves : List (List Block × Form)} {top : List Toplevel}
    (read : ReadOneByOne kind leaves top) : ∀ form ∈ top, TopReadFrom kind form := by
  induction read with
  | nil => exact fun _ member => absurd member List.not_mem_nil
  | cons first _ ih => exact List.forall_mem_cons.mpr ⟨first.readFrom, ih⟩

/-- The functions in toplevel forms. -/
def functionsOfTop (top : List Toplevel) : List Function := functionsOfAll (top.map Toplevel.expr)

theorem functionsOfTop_append (first second : List Toplevel) :
    functionsOfTop (first ++ second) = functionsOfTop first ++ functionsOfTop second := by
  simp [functionsOfTop, functionsOfAll_eq_flatMap]

theorem functionsOfTop_singleton (form : Toplevel) :
    functionsOfTop [form] = form.expr.functions := List.append_nil _

variable {around : List Block}

/-- One toplevel form for an expression. -/
theorem single_reads {before : List Function} {step : Build Expr} {make : Expr -> Toplevel}
    {post : Expr -> Prop} (form : Form) (same : ∀ e, (make e).expr = e)
    (reads : Reads before step (prior ++ ·.functions) post)
    (holds : ∀ e, post e -> TopReadIn kind around (make e)) :
    Reads before (do
      let e ← step
      pure [make e]) (prior ++ functionsOfTop ·) (ReadOneByOne kind [(around, form)]) :=
  .bind reads fun e ofStep => .pure (by rw [functionsOfTop_singleton, same])
    (.cons (holds e ofStep) .nil)

/-- A form that is no block is read as an expression to be executed. -/
theorem exec_reads (prior : List Function) (ofKind : form.Of kind)
    (noBlock : ∀ name, form.head? = some name -> Block.ofWord? name = none) :
    Reads prior (do
      let e ← expr table (regionsWithin around) form
      pure [.exec e]) (prior ++ functionsOfTop ·) (ReadOneByOne kind [(around, form)]) :=
  single_reads form (fun _ => rfl) (expr_reads form prior ofKind) fun _ stands =>
    ⟨fun name called => noBlock name (stands.callee name called), stands.all⟩

mutual

/-- A toplevel form is read one by one with what it holds in blocks. -/
theorem toplevel_reads : ∀ (around : List Block) (form : Form) (prior : List Function),
    form.Of kind -> Reads prior (toplevel table (regionsWithin around) form)
      (prior ++ functionsOfTop ·) (ReadOneByOne kind (leaves around form))
  | around, .list span (head :: items), prior, ofKind => by
    obtain ⟨ofHead, ofItems⟩ := List.forall_mem_cons.mp (Form.of_list.mp ofKind)
    unfold toplevel leaves
    cases isBlock : head.symbol?.bind Block.ofWord? with
    | some block => exact toplevels_read (block :: around) items prior ofItems
    | none =>
      have noBlock (name : String) (isHead : (Form.list span (head :: items)).head? = some name) :
          Block.ofWord? name = none := by
        have symbol : head.symbol? = some name := isHead
        rwa [symbol] at isBlock
      cases head.symbol?.bind SpecialForm.ofWord? with
      | none => exact exec_reads prior ofKind noBlock
      | some word =>
        cases word with
        | define =>
          match items with
          | [] | [_] | _ :: _ :: _ :: _ => exact .malformed ..
          | [binder, bindee] =>
            obtain ⟨ofBinder, ofItems⟩ := List.forall_mem_cons.mp ofItems
            refine .bind (name_reads ofBinder) fun name named => ?_
            exact single_reads _ (fun _ => rfl)
              (expr_reads bindee prior (List.forall_mem_singleton.mp ofItems))
              fun e stands => ⟨named, stands.all⟩
        | defn =>
          match items with
          | [] | [_] => exact .malformed ..
          | binder :: params :: rest =>
            obtain ⟨ofBinder, ofItems⟩ := List.forall_mem_cons.mp ofItems
            obtain ⟨ofParams, ofRest⟩ := List.forall_mem_cons.mp ofItems
            refine .bind (name_reads ofBinder) fun name named => ?_
            refine .bind (header_reads ofParams ofRest) fun header ofHeader => ?_
            refine .bind (block_reads header.skipped rest prior ofRest) fun items all => ?_
            exact single_reads _ (fun _ => rfl) (finishFunction_reads ofHeader all)
              fun func ofFunc => ⟨named, ofFunc.1⟩
        | _ => exact exec_reads prior ofKind noBlock
  | around, .list _ [], prior, ofKind | around, .int .., prior, ofKind
  | around, .str .., prior, ofKind | around, .bool .., prior, ofKind
  | around, .sym .., prior, ofKind | around, .keyword .., prior, ofKind => by
    unfold toplevel
    exact exec_reads prior ofKind fun _ => nofun

theorem toplevels_read : ∀ (around : List Block) (forms : List Form) (prior : List Function),
    (∀ form ∈ forms, form.Of kind) -> Reads prior (toplevels table (regionsWithin around) forms)
      (prior ++ functionsOfTop ·) (ReadOneByOne kind (leavesOfAll around forms))
  | _, [], _, _ => by
    unfold toplevels
    exact .pure (List.append_nil _) .nil
  | around, form :: rest, prior, ofKind => by
    obtain ⟨ofForm, ofRest⟩ := List.forall_mem_cons.mp ofKind
    unfold toplevels
    refine .bind (toplevel_reads around form prior ofForm) fun first ofFirst => ?_
    refine .bind (toplevels_read around rest _ ofRest) fun others ofOthers => ?_
    refine .pure ?_ (List.rel_append ofFirst ofOthers)
    rw [functionsOfTop_append, List.append_assoc]

end

end Build

variable {table : LineTable} {forms : List Form} {program : Program} {kind : Spelling -> Prop}
  {source : String} {path : Option String}

/-- The toplevel forms of a program are read from atoms of this kind, one by one, and its functions
numbered in order. -/
theorem Program.ofForms_leaves (ofKind : ∀ form ∈ forms, form.Of kind)
    (built : Program.ofForms table forms = .ok program) :
    Build.Numbered (Build.functionsOfTop program.top) program.counters ∧
      Build.ReadOneByOne kind (Build.leavesOfAll [] forms) program.top := by
  unfold Program.ofForms at built
  cases ends : (Build.toplevels table .none forms).run ⟨0, 0⟩ with
  | error error => simp [ends, Except.map] at built
  | ok result =>
    obtain ⟨top, counters⟩ := result
    simp only [ends, Except.map, Except.ok.injEq] at built
    subst built
    exact (Build.toplevels_read [] forms [] ofKind).ends ⟨rfl, rfl⟩ ends

/-- The toplevel forms of a program are read from atoms of this kind, and its functions numbered in
order. -/
theorem Program.ofForms_reads (ofKind : ∀ form ∈ forms, form.Of kind)
    (built : Program.ofForms table forms = .ok program) :
    Build.Numbered (Build.functionsOfTop program.top) program.counters ∧
      ∀ form ∈ program.top, Build.TopReadFrom kind form :=
  (Program.ofForms_leaves ofKind built).imp_right Build.ReadOneByOne.each

/-- A source is parsed if its tokens make forms and these a program. -/
theorem Program.parse_eq_ok : Program.parse source path = .ok program ↔
      ∃ forms, Form.ofTokens (LineTable.ofSource source path) (tokenize source) = .ok forms ∧
        Program.ofForms (LineTable.ofSource source path) forms = .ok program := by
  unfold Program.parse
  cases reads : Form.ofTokens (LineTable.ofSource source path) (tokenize source) <;>
    simp [reads, bind, Except.bind]

/-- The expressions in each toplevel form are from the source, and the functions in it from the same
regions. -/
def Build.TopIsSource (top : List Toplevel) : Prop :=
  ∀ form ∈ top, ∃ regions : Regions, regions.Nested ∧ form.expr.All (Expr.IsReadIn regions)

/-- What the reader builds is from the source, form by form. -/
theorem Program.parse_topIsSource (parsed : Program.parse source path = .ok program) :
    Build.TopIsSource program.top := by
  obtain ⟨forms, -, built⟩ := Program.parse_eq_ok.mp parsed
  have anyKind : ∀ form ∈ forms, form.Of fun _ => True := fun _ _ _ _ => trivial
  intro form member
  obtain ⟨-, regions, nested, all⟩ := (Program.ofForms_reads anyKind built).2 form member
  exact ⟨regions, nested, all.imp fun _ _ isRead => isRead.source⟩

/-- The expressions in a program are from the source. -/
def Program.IsSource (program : Program) : Prop := ∀ node ∈ program.nodes, node.IsSource

/-- What the reader builds is from the source. -/
theorem Program.parse_isSource (parsed : Program.parse source path = .ok program) :
    program.IsSource := by
  intro node member
  obtain ⟨form, inTop, inForm⟩ := List.mem_flatMap.mp member
  obtain ⟨regions, nested, all⟩ := Program.parse_topIsSource parsed form inTop
  exact (all node inForm).isSource nested

/-- A text is parsed by its characters. In a text that is written out they are known at once, while
to decode its bytes takes long. -/
theorem Program.parse_ofList (chars : List Char) (path : Option String) :
    Program.parse (String.ofList chars) path = (do
      let table : LineTable := ⟨newlineOffsets 0 chars, path⟩
      let forms ← Form.ofTokens table (tokensFrom 0 chars)
      Program.ofForms table forms) := by
  rw [Program.parse, tokenize, LineTable.ofSource, String.toList_ofList]

/-- The program that a text spells, or an empty one. -/
def Program.ofText (source : String) : Program :=
  (Program.parse source none).toOption.getD default

/-- A source that can be parsed is parsed as its program. -/
theorem Program.parse_ofText (reads : (Program.parse source none).toOption.isSome = true) :
    Program.parse source none = .ok (Program.ofText source) := by
  unfold Program.ofText
  cases parsed : Program.parse source none with
  | error error => simp [parsed, Except.toOption] at reads
  | ok program => rfl

end Trampoline
