import Mathlib.Data.List.DropRight
import Trampoline.Proofs.Reading.Decision
import Trampoline.Proofs.Syntax.Lines

/-!
# Places of faults

The lines and columns of a source are counted in its bytes. A line table is made from characters and
searched for the newlines before an offset; what it finds is what counting the bytes before the
offset finds, also within a character.

Each form starts where a token does: an atom at its own, a list at its opening parenthesis. Building
a program blames forms only, and reading a source tokens only, so whatever is wrong with a source is
reported at the start of one of its tokens.
-/

namespace Trampoline

/-! ## Cursors -/

/-- The bytes of a text. -/
def bytesOf (source : String) : List UInt8 := source.toByteArray.data.toList

/-- The byte that a newline is. -/
def newlineByte : UInt8 := 10

/-- The offsets of the newline bytes, of which the first would be at `offset`. -/
def newlinesFrom (offset : Nat) : List UInt8 -> List Nat
  | [] => []
  | byte :: rest =>
    if byte = newlineByte then offset :: newlinesFrom (offset + 1) rest
    else newlinesFrom (offset + 1) rest

/-- The one cursor comes before the other. -/
def Cursor.Before (cursor other : Cursor) : Prop :=
  cursor.line < other.line ∨ cursor.line = other.line ∧ cursor.column < other.column

/-- Where the line begins that comes behind the newlines. -/
def lineBehind (newlines : List Nat) : Nat :=
  match newlines.getLast? with
  | none => 0
  | some newline => newline + 1

/-- Where the line begins that the offset is on. -/
def LineTable.lineStart (table : LineTable) (offset : Nat) : Nat :=
  lineBehind (table.newlines.filter (· < offset))

/-! ### Newline bytes -/

section Newlines

variable {offset : Nat}

/-- The newlines of two parts are those of the first and, further on, those of the second. -/
theorem newlinesFrom_append (first second : List UInt8) : newlinesFrom offset (first ++ second) =
    newlinesFrom offset first ++ newlinesFrom (offset + first.length) second := by
  induction first generalizing offset with
  | nil => rfl
  | cons byte rest ih =>
    simp only [List.cons_append, newlinesFrom, ih, List.length_cons, Nat.add_assoc, Nat.add_comm 1]
    split <;> rfl

variable {bytes : List UInt8}

/-- Bytes without a newline have no offsets of newlines. -/
theorem newlinesFrom_eq_nil (other : ∀ byte ∈ bytes, byte ≠ newlineByte) :
    newlinesFrom offset bytes = [] := by
  induction bytes generalizing offset with
  | nil => rfl
  | cons byte rest ih =>
    obtain ⟨first, others⟩ := List.forall_mem_cons.mp other
    rw [newlinesFrom, if_neg first, ih others]

/-- There are as many offsets as newline bytes. -/
theorem length_newlinesFrom (bytes : List UInt8) :
    (newlinesFrom offset bytes).length = bytes.count newlineByte := by
  induction bytes generalizing offset with
  | nil => rfl
  | cons byte rest ih =>
    rw [newlinesFrom]
    by_cases newline : byte = newlineByte <;> simp [newline, ih]

/-- Newlines stand inside the bytes. -/
theorem newlinesFrom_bounds {newline : Nat} (member : newline ∈ newlinesFrom offset bytes) :
    offset ≤ newline ∧ newline < offset + bytes.length := by
  induction bytes generalizing offset with
  | nil => cases member
  | cons byte rest ih =>
    have later (inRest : newline ∈ newlinesFrom (offset + 1) rest) :
        offset ≤ newline ∧ newline < offset + (byte :: rest).length := by
      have bounds := ih inRest
      rw [List.length_cons]
      omega
    rw [newlinesFrom] at member
    split at member
    · rcases List.mem_cons.mp member with rfl | inRest
      · exact ⟨Nat.le_refl _, Nat.lt_add_of_pos_right (Nat.succ_pos _)⟩
      · exact later inRest
    · exact later member

/-- In the bytes of a character other than the newline there is no newline byte: those of longer
encodings are all above the ASCII range. -/
theorem ne_newlineByte_of_mem {c : Char} (other : c ≠ '\n') :
    ∀ byte ∈ String.utf8EncodeChar c, byte ≠ newlineByte := by
  have code : c.val.toNat ≠ 10 := fun same => other (Char.toNat_inj.mp same)
  intro byte member same
  have value : byte.toNat = 10 := congrArg UInt8.toNat same
  rw [String.utf8EncodeChar] at member
  split_ifs at member <;> simp only [List.mem_cons, List.not_mem_nil, or_false] at member
  · rw [member, UInt8.toNat_ofNat'] at value
    omega
  · rcases member with rfl | rfl <;> rw [UInt8.toNat_ofNat'] at value <;> omega
  · rcases member with rfl | rfl | rfl <;> rw [UInt8.toNat_ofNat'] at value <;> omega
  · rcases member with rfl | rfl | rfl | rfl <;> rw [UInt8.toNat_ofNat'] at value <;> omega

/-- A character has the newline byte only if it is a newline. -/
theorem newlinesFrom_char (c : Char) : newlinesFrom offset (String.utf8EncodeChar c) =
    if c = '\n' then [offset] else [] := by
  split
  · rename_i newline
    rw [newline]
    rfl
  · rename_i other
    exact newlinesFrom_eq_nil (ne_newlineByte_of_mem other)

/-- A line table knows the newline bytes. -/
theorem newlineOffsets_eq (text : List Char) :
    newlineOffsets offset text = newlinesFrom offset (text.flatMap String.utf8EncodeChar) := by
  induction text generalizing offset with
  | nil => rfl
  | cons c rest ih =>
    rw [newlineOffsets, ih, List.flatMap_cons, newlinesFrom_append, newlinesFrom_char,
      String.length_utf8EncodeChar]
    split <;> rfl

end Newlines

theorem bytesOf_eq (source : String) :
    bytesOf source = source.toList.flatMap String.utf8EncodeChar := by
  rw [bytesOf, ← String.utf8Encode_toList, List.utf8Encode, List.toList_data_toByteArray]

theorem length_bytesOf (source : String) : (bytesOf source).length = source.utf8ByteSize :=
  Array.length_toList

/-- Behind where the last line begins there are the bytes behind the last newline. -/
theorem lineBehind_add (bytes : List UInt8) :
    lineBehind (newlinesFrom 0 bytes) + (bytes.rtakeWhile (· != newlineByte)).length =
      bytes.length := by
  induction bytes using List.reverseRecOn with
  | nil => rfl
  | append_singleton bytes byte ih =>
    rw [newlinesFrom_append, List.rtakeWhile_concat]
    by_cases newline : byte = newlineByte
    · simp [newlinesFrom, newline, lineBehind]
    · simp only [newlinesFrom, newline, if_false, List.append_nil, bne_iff_ne, ne_eq,
        not_false_eq_true, if_true, List.length_append, List.length_singleton]
      omega

namespace LineTable

variable (table : LineTable)

theorem cursor_eq (offset : Nat) : table.cursor offset =
    ⟨(table.newlines.filter (· < offset)).length + 1, offset - table.lineStart offset + 1⟩ := rfl

/-- A line begins behind a newline before the offset. -/
theorem lineStart_le (offset : Nat) : table.lineStart offset ≤ offset := by
  rw [lineStart, lineBehind]
  split
  · exact Nat.zero_le _
  · rename_i newline last
    have member := List.mem_filter.mp (List.mem_of_getLast? last)
    exact Nat.succ_le_of_lt (of_decide_eq_true member.2)

variable {offset : Nat}

/-- On the way through a source cursors move on. -/
theorem cursor_before {other : Nat} (before : offset < other) :
    (table.cursor offset).Before (table.cursor other) := by
  have fewer : (table.newlines.filter (· < offset)).Sublist (table.newlines.filter (· < other)) :=
    List.monotone_filter_right _ fun newline first =>
      decide_eq_true (Nat.lt_trans (of_decide_eq_true first) before)
  rcases Nat.lt_or_eq_of_le fewer.length_le with less | same
  · exact .inl (Nat.succ_lt_succ less)
  · have start : table.lineStart offset = table.lineStart other := by
      rw [lineStart, lineStart, fewer.eq_of_length same]
    have inside := table.lineStart_le offset
    refine .inr ⟨congrArg Nat.succ same, ?_⟩
    rw [cursor_eq, cursor_eq, start]
    dsimp only
    omega

/-- Cursors are in the order of their offsets. -/
theorem cursor_before_iff (offset other : Nat) :
    (table.cursor offset).Before (table.cursor other) ↔ offset < other := by
  refine ⟨fun before => ?_, table.cursor_before⟩
  by_contra notBefore
  rcases Nat.lt_or_eq_of_le (Nat.le_of_not_lt notBefore) with after | rfl
  · have back := table.cursor_before after
    unfold Cursor.Before at before back
    omega
  · unfold Cursor.Before at before
    omega

variable (source : String) (path : Option String)

/-- The newlines of a source, parted at an offset: those in the bytes before it, and the others. -/
theorem newlines_ofSource (inside : offset ≤ source.utf8ByteSize) :
    (ofSource source path).newlines = newlinesFrom 0 ((bytesOf source).take offset) ++
      newlinesFrom offset ((bytesOf source).drop offset) := by
  have length : ((bytesOf source).take offset).length = offset := by
    rw [List.length_take, length_bytesOf, Nat.min_eq_left inside]
  have all : newlinesFrom 0 ((bytesOf source).take offset ++ (bytesOf source).drop offset) = _ :=
    newlinesFrom_append _ _
  rw [length, Nat.zero_add, List.take_append_drop] at all
  rw [← all, ofSource, newlineOffsets_eq, bytesOf_eq]

/-- The newlines before an offset are those of the bytes before it. -/
theorem filter_newlines (inside : offset ≤ source.utf8ByteSize) :
    (ofSource source path).newlines.filter (· < offset) =
      newlinesFrom 0 ((bytesOf source).take offset) := by
  have first : (newlinesFrom 0 ((bytesOf source).take offset)).filter (· < offset) =
      newlinesFrom 0 ((bytesOf source).take offset) := by
    refine List.filter_eq_self.mpr fun newline member => decide_eq_true ?_
    have bounds := newlinesFrom_bounds member
    have length := List.length_take_le offset (bytesOf source)
    omega
  have others : (newlinesFrom offset ((bytesOf source).drop offset)).filter (· < offset) = [] := by
    refine List.filter_eq_nil_iff.mpr fun newline member => ?_
    have bounds := newlinesFrom_bounds member
    simpa using bounds.1
  rw [newlines_ofSource source path inside, List.filter_append, first, others, List.append_nil]

/-- The newlines before an offset are the first ones, as the search for them takes it. -/
theorem newlines_parted (inside : offset ≤ source.utf8ByteSize) :
    ∃ later, (ofSource source path).newlines =
      (ofSource source path).newlines.filter (· < offset) ++ later ∧
        ∀ newline ∈ later, offset ≤ newline := by
  refine ⟨newlinesFrom offset ((bytesOf source).drop offset), ?_, fun newline member => ?_⟩
  · rw [filter_newlines source path inside, ← newlines_ofSource source path inside]
  · exact (newlinesFrom_bounds member).1

/-- The cursor counts the newline bytes before the offset, and the bytes behind the last of them. -/
theorem cursor_ofSource (inside : offset ≤ source.utf8ByteSize) :
    (ofSource source path).cursor offset =
      ⟨((bytesOf source).take offset).count newlineByte + 1,
        (((bytesOf source).take offset).rtakeWhile (· != newlineByte)).length + 1⟩ := by
  have length : ((bytesOf source).take offset).length = offset := by
    rw [List.length_take, length_bytesOf, Nat.min_eq_left inside]
  have start := lineBehind_add ((bytesOf source).take offset)
  rw [length] at start
  rw [cursor_eq, lineStart, filter_newlines source path inside, length_newlinesFrom,
    Cursor.mk.injEq]
  exact ⟨rfl, by omega⟩

end LineTable

/-! ## Where forms start -/

section Starts

variable {starts : Nat -> Prop}

mutual

/-- The form and all forms in it start at such offsets. -/
def Form.StartsAt (starts : Nat -> Prop) : Form -> Prop
  | .list span items => starts span.start ∧ AllStartAt starts items
  | .int span _ | .str span _ | .bool span _ | .sym span _ | .keyword span _ => starts span.start

/-- The forms and all forms in them start at such offsets. -/
def AllStartAt (starts : Nat -> Prop) : List Form -> Prop
  | [] => True
  | form :: rest => form.StartsAt starts ∧ AllStartAt starts rest

end

variable {form : Form} {forms : List Form} {tokens : List Token}

/-- A form starts where forms are said to start. -/
theorem Form.StartsAt.span (at' : form.StartsAt starts) : starts form.span.start := by
  cases form with
  | list => exact at'.1
  | _ => exact at'

theorem Form.StartsAt.items {items : List Form} (at' : form.StartsAt starts)
    (known : form.items? = some items) : AllStartAt starts items := by
  cases form with
  | list =>
    cases known
    exact at'.2
  | _ => cases known

/-- Each of the forms starts where all are said to start. -/
theorem AllStartAt.of_mem (all : AllStartAt starts forms) :
    ∀ form ∈ forms, form.StartsAt starts := by
  induction forms with
  | nil => exact fun _ member => absurd member List.not_mem_nil
  | cons form rest ih => exact List.forall_mem_cons.mpr ⟨all.1, ih all.2⟩

/-- The offset is where one of the tokens starts. -/
def IsTokenStart (tokens : List Token) (start : Nat) : Prop :=
  ∃ token ∈ tokens, token.span.start = start

mutual

/-- A form that is met in tokens starts where one of them does. -/
theorem Form.startsAt_of_met : ∀ form : Form,
    (∀ piece ∈ form.pieces, ∃ token ∈ tokens, token.IsPiece piece) ->
    form.StartsAt (IsTokenStart tokens)
  | .list span items, met => by
    rw [Form.pieces, List.forall_mem_cons, List.forall_mem_append] at met
    obtain ⟨⟨token, member, -, start⟩, inside, -⟩ := met
    exact ⟨⟨token, member, start⟩, allStartAt_of_met items inside⟩
  | .int span value, met | .str span value, met | .bool span value, met | .sym span value, met
  | .keyword span value, met => by
    obtain ⟨token, member, denotes⟩ := met _ List.mem_cons_self
    exact ⟨token, member, congrArg Span.start denotes.place.1.symm⟩

theorem allStartAt_of_met : ∀ forms : List Form,
    (∀ piece ∈ piecesOfAll forms, ∃ token ∈ tokens, token.IsPiece piece) ->
    AllStartAt (IsTokenStart tokens) forms
  | [], _ => trivial
  | form :: rest, met => by
    rw [piecesOfAll, List.forall_mem_append] at met
    exact ⟨form.startsAt_of_met met.1, allStartAt_of_met rest met.2⟩

end

/-- What tokens spell starts where they do. -/
theorem Spell.allStartAt (spell : Spell tokens forms) : AllStartAt (IsTokenStart tokens) forms := by
  refine allStartAt_of_met forms fun piece member => ?_
  obtain ⟨i, inside, rfl⟩ := List.mem_iff_getElem.mp member
  have inside' : i < tokens.length := spell.length_eq ▸ inside
  exact ⟨tokens[i], List.getElem_mem inside', spell.get inside' inside⟩

end Starts

/-! ## Where building fails -/

namespace Build

/-- Where the step fails, it reports the cursor of such an offset. -/
def FailsAt {α : Type} (table : LineTable) (starts : Nat -> Prop) (step : Build α) : Prop :=
  ∀ before error, step.run before = .error error ->
    ∃ start, starts start ∧ error.location = ⟨table.path, table.cursor start⟩

section Steps

variable {α β : Type} {table : LineTable} {starts : Nat -> Prop}

namespace FailsAt

theorem pure {value : α} : FailsAt table starts (pure value) := nofun

theorem bind {step : Build α} {next : α -> Build β} (first : FailsAt table starts step)
    (second : ∀ value, FailsAt table starts (next value)) :
    FailsAt table starts (step >>= next) := by
  intro before error fails
  rw [StateT.run_bind] at fails
  cases ends : step.run before with
  | error other =>
    rw [ends] at fails
    cases fails
    exact first before _ ends
  | ok ended =>
    rw [ends] at fails
    exact second ended.1 ended.2 error fails

theorem mapM {ι : Type} {read : ι -> Build α} {items : List ι}
    (each : ∀ item ∈ items, FailsAt table starts (read item)) :
    FailsAt table starts (items.mapM read) := by
  induction items with
  | nil => exact .pure
  | cons item rest ih =>
    obtain ⟨first, others⟩ := List.forall_mem_cons.mp each
    rw [List.mapM_cons]
    exact .bind first fun _ => .bind (ih others) fun _ => .pure

variable {span : Span}

/-- A malformed form is reported where it starts. -/
theorem malformed (at' : starts span.start) (malformation : Malformation) :
    FailsAt table starts (malformed table span malformation : Build α) := by
  rintro before error ⟨⟩
  exact ⟨span.start, at', rfl⟩

theorem finish {make : Mark -> Expr} : FailsAt table starts (finish span make) :=
  nofun

end FailsAt

/-! ### Headers -/

variable {form : Form} {rest : List Form}

/-- What is no name is reported where it starts. -/
theorem name_failsAt (at' : form.StartsAt starts) (owner : SpecialForm) :
    FailsAt table starts (name table owner form) := by
  unfold name
  cases form.symbol? with
  | some name => exact .pure
  | none => exact .malformed at'.span _

/-- What is no list of names is reported where one of the forms starts. -/
theorem names_failAt (at' : form.StartsAt starts) (owner : SpecialForm) :
    FailsAt table starts (names table owner form) := by
  unfold names
  cases known : form.items? with
  | some items =>
    have all := (at'.items known).of_mem
    exact .mapM fun item member => name_failsAt (all item member) owner
  | none => exact .malformed at'.span _

/-- What is no decorator is reported where it starts. -/
theorem decorator_failsAt (at' : form.StartsAt starts) :
    FailsAt table starts (decorator table form) := by
  unfold decorator
  cases form.symbol? with
  | some name => exact .pure
  | none => exact .malformed at'.span _

/-- A malformed header is reported where one of its forms starts. -/
theorem header_failsAt {params : Form} (at' : params.StartsAt starts)
    (all : AllStartAt starts rest) : FailsAt table starts (header table params rest) := by
  unfold header
  refine .bind (names_failAt at' .fn) fun params => ?_
  split
  · rename_i listed _
    have listedAt : listed.StartsAt starts := all.2.1
    cases known : listed.items? with
    | some items =>
      have all := (listedAt.items known).of_mem
      exact .bind (.mapM fun item member => decorator_failsAt (all item member)) fun _ => .pure
    | none => exact .malformed listedAt.span _
  · exact .pure

/-! ### Expressions -/

variable {regions : Regions}

theorem finishFunction_failsAt {span : Span} {name : Option String} {header : Header}
    {items : List Expr} : FailsAt table starts (finishFunction regions span name header items) :=
  .bind .finish fun _ => .bind (nofun : FailsAt table starts newFunction) fun _ => .finish

/-- A positional argument fails where it or the others do. -/
theorem positional_failsAt (plain : ∀ span name, form ≠ .keyword span name)
    (first : FailsAt table starts (expr table regions form))
    (others : FailsAt table starts (args table regions false rest)) :
    FailsAt table starts (args table regions false (form :: rest)) := by
  rw [args_positional rest plain]
  exact .bind first fun _ => .bind others fun _ => .pure

mutual

/-- What is no expression is reported where it or a form in it starts. -/
theorem expr_failsAt : ∀ {form : Form}, form.StartsAt starts ->
    FailsAt table starts (expr table regions form)
  | .int .., _ | .str .., _ | .bool .., _ | .sym .., _ => by
    unfold expr
    exact .finish
  | .keyword .., at' => by
    unfold expr
    exact .malformed at' _
  | .list _ [], at' => by
    unfold expr
    exact .malformed at'.1 _
  | .list span (head :: items), ⟨start, headAt, all⟩ => by
    unfold expr
    cases head.symbol?.bind SpecialForm.ofWord? with
    | none =>
      exact .bind (expr_failsAt headAt) fun _ => .bind (args_failAt false all) fun _ => .finish
    | some word =>
      cases word with
      | define => exact .malformed start _
      | fn =>
        match items, all with
        | [], _ => exact .malformed start _
        | params :: rest, ⟨paramsAt, restAt⟩ =>
          exact .bind (header_failsAt paramsAt restAt) fun header =>
            .bind (block_failsAt header.skipped restAt) fun _ => finishFunction_failsAt
      | defn =>
        match items, all with
        | [], _ | [_], _ => exact .malformed start _
        | binder :: params :: rest, ⟨binderAt, paramsAt, restAt⟩ =>
          exact .bind (name_failsAt binderAt .defn) fun _ =>
            .bind (header_failsAt paramsAt restAt) fun header =>
            .bind (block_failsAt header.skipped restAt) fun _ =>
            .bind finishFunction_failsAt fun _ => .finish
      | conditional =>
        match items, all with
        | [], _ | [_], _ | _ :: _ :: _ :: _ :: _, _ => exact .malformed start _
        | [test, body], ⟨testAt, bodyAt, _⟩ =>
          exact .bind (expr_failsAt testAt) fun _ => .bind (expr_failsAt bodyAt) fun _ => .finish
        | [test, body, alt], ⟨testAt, bodyAt, altAt, _⟩ =>
          exact .bind (expr_failsAt testAt) fun _ => .bind (expr_failsAt bodyAt) fun _ =>
            .bind (expr_failsAt altAt) fun _ => .finish
      | cond =>
        refine .bind (clauses_failAt all) fun (arms, alt) => ?_
        cases arms with
        | nil => exact .malformed start _
        | cons => exact .finish
      | and | or | begin => exact .bind (block_failsAt 0 all) fun _ => .finish
      | bind | assign =>
        match items, all with
        | [], _ | [_], _ | _ :: _ :: _ :: _, _ => exact .malformed start _
        | [binder, bindee], ⟨binderAt, bindeeAt, _⟩ =>
          exact .bind (name_failsAt binderAt _) fun _ => .bind (expr_failsAt bindeeAt) fun _ =>
            .finish
      | loop =>
        match items, all with
        | [], _ => exact .malformed start _
        | test :: rest, ⟨testAt, restAt⟩ =>
          exact .bind (expr_failsAt testAt) fun _ => .bind (block_failsAt 0 restAt) fun _ =>
            .bind .finish fun _ => .finish
      | jump =>
        match items, all with
        | [], _ => exact .malformed start _
        | func :: rest, ⟨funcAt, restAt⟩ =>
          exact .bind (expr_failsAt funcAt) fun _ => .bind (args_failAt false restAt) fun _ =>
            .finish
      | capture =>
        match items, all with
        | [], _ | [_], _ | _ :: _ :: _ :: _, _ => exact .malformed start _
        | [binders, call], ⟨bindersAt, callAt, _⟩ =>
          refine .bind (names_failAt bindersAt .capture) fun _ =>
            .bind (expr_failsAt callAt) fun call => ?_
          split
          · exact .finish
          · exact .malformed start _

theorem block_failsAt : ∀ (skipped : Nat) {forms : List Form}, AllStartAt starts forms ->
    FailsAt table starts (block table regions skipped forms)
  | _, [], _ => by
    unfold block
    exact .pure
  | skipped + 1, _ :: _, all => by
    unfold block
    exact block_failsAt skipped all.2
  | 0, _ :: _, all => by
    unfold block
    exact .bind (expr_failsAt all.1) fun _ => .bind (block_failsAt 0 all.2) fun _ => .pure

theorem args_failAt : ∀ (afterKeyword : Bool) {forms : List Form}, AllStartAt starts forms ->
    FailsAt table starts (args table regions afterKeyword forms)
  | _, [], _ => by
    simp only [args]
    exact .pure
  | _, [.keyword ..], all => by
    simp only [args]
    exact .malformed all.1 _
  | _, .keyword _ _ :: value :: rest, ⟨_, valueAt, restAt⟩ => by
    simp only [args]
    exact .bind (expr_failsAt valueAt) fun _ => .bind (args_failAt true restAt) fun _ => .pure
  | true, .int .. :: _, all | true, .str .. :: _, all | true, .bool .. :: _, all
  | true, .sym .. :: _, all | true, .list .. :: _, all => by
    simp only [args]
    exact .malformed all.1.span _
  | false, .int .. :: _, all | false, .str .. :: _, all | false, .bool .. :: _, all
  | false, .sym .. :: _, all | false, .list .. :: _, all =>
    positional_failsAt nofun (expr_failsAt all.1) (args_failAt false all.2)

theorem clauses_failAt : ∀ {forms : List Form}, AllStartAt starts forms ->
    FailsAt table starts (clauses table regions forms)
  | [], _ => by
    simp only [clauses]
    exact .pure
  | .list _ (test :: body) :: rest, ⟨⟨start, testAt, bodyAt⟩, restAt⟩ => by
    simp only [clauses]
    by_cases isAlternative : isElse test = true
    · simp only [if_pos isAlternative]
      cases rest with
      | nil => exact .bind (block_failsAt 0 bodyAt) fun _ => .bind .finish fun _ => .pure
      | cons => exact .malformed start _
    · simp only [if_neg isAlternative]
      exact .bind (expr_failsAt testAt) fun _ => .bind (block_failsAt 0 bodyAt) fun _ =>
        .bind .finish fun _ => .bind (clauses_failAt restAt) fun _ => .pure
  | .list _ [] :: _, all | .int .. :: _, all | .str .. :: _, all | .bool .. :: _, all
  | .sym .. :: _, all | .keyword .. :: _, all => by
    simp only [clauses]
    exact .malformed all.1.span _

end

/-! ### Toplevel forms -/

mutual

/-- What is no toplevel form is reported where it or a form in it starts. -/
theorem toplevel_failsAt (regions : Regions) : ∀ {form : Form}, form.StartsAt starts ->
    FailsAt table starts (toplevel table regions form)
  | .list span (head :: items), at' => by
    have exec : FailsAt table starts (expr table regions (.list span (head :: items))) :=
      expr_failsAt at'
    obtain ⟨start, headAt, all⟩ := at'
    unfold toplevel
    cases head.symbol?.bind Block.ofWord? with
    | some block => exact toplevels_failAt (enter regions block) all
    | none =>
      cases head.symbol?.bind SpecialForm.ofWord? with
      | none => exact .bind exec fun _ => .pure
      | some word =>
        cases word with
        | define =>
          match items, all with
          | [], _ | [_], _ | _ :: _ :: _ :: _, _ => exact .malformed start _
          | [binder, bindee], ⟨binderAt, bindeeAt, _⟩ =>
            exact .bind (name_failsAt binderAt _) fun _ => .bind (expr_failsAt bindeeAt) fun _ =>
              .pure
        | defn =>
          match items, all with
          | [], _ | [_], _ => exact .malformed start _
          | binder :: params :: rest, ⟨binderAt, paramsAt, restAt⟩ =>
            exact .bind (name_failsAt binderAt .defn) fun _ =>
              .bind (header_failsAt paramsAt restAt) fun header =>
              .bind (block_failsAt header.skipped restAt) fun _ =>
              .bind finishFunction_failsAt fun _ => .pure
        | _ => exact .bind exec fun _ => .pure
  | .list _ [], at' | .int .., at' | .str .., at' | .bool .., at' | .sym .., at'
  | .keyword .., at' => by
    unfold toplevel
    exact .bind (expr_failsAt at') fun _ => .pure

theorem toplevels_failAt (regions : Regions) : ∀ {forms : List Form}, AllStartAt starts forms ->
    FailsAt table starts (toplevels table regions forms)
  | [], _ => by
    simp only [toplevels]
    exact .pure
  | _ :: _, all => by
    simp only [toplevels]
    exact .bind (toplevel_failsAt regions all.1) fun _ =>
      .bind (toplevels_failAt regions all.2) fun _ => .pure

end

end Steps

end Build

/-! ## Where sources are wrong -/

namespace Program

variable {source : String} {path : Option String} {error : ParseError}

/-- What can not be read is reported at the start of a token. -/
theorem ofSource_fault (fails : Form.ofSource source path = .error error) :
    ∃ token ∈ tokenize source,
      error.location = (LineTable.ofSource source path).locate token.span := by
  have reading := Form.reading_ofSource source path
  rw [fails] at reading
  cases reading with
  | offence split => exact ⟨_, split ▸ List.mem_append_right _ List.mem_cons_self, rfl⟩
  | unclosed _ split => exact ⟨_, split ▸ List.mem_append_right _ List.mem_cons_self, rfl⟩

/-- A program fails to be made of forms with the fault of the first that is none. -/
theorem ofForms_eq_error {table : LineTable} {forms : List Form} :
    ofForms table forms = .error error ↔
      (Build.toplevels table .none forms).run ⟨0, 0⟩ = .error error := by
  unfold ofForms
  cases (Build.toplevels table .none forms).run ⟨0, 0⟩ <;> simp [Except.map]

/-- What can not be built is reported at the start of a token as well. -/
theorem parse_fault (fails : parse source path = .error error) : ∃ token ∈ tokenize source,
    error.location = (LineTable.ofSource source path).locate token.span := by
  rw [parse_eq_bind] at fails
  cases reads : Form.ofSource source path with
  | error other =>
    rw [reads] at fails
    cases fails
    exact ofSource_fault reads
  | ok forms =>
    have reading := Form.reading_ofSource source path
    rw [reads] at reading fails
    cases reading with
    | forms _ spell =>
      obtain ⟨start, ⟨token, member, rfl⟩, place⟩ := Build.toplevels_failAt .none spell.allStartAt
        ⟨0, 0⟩ error (ofForms_eq_error.mp fails)
      exact ⟨token, member, place⟩

/-- In every source, the cursor of an offset counts the newline bytes before it and the bytes since
the last of them; its line begins at the offset or before, and the newlines that the search takes
are those before the offset. Cursors are ordered as their offsets are, and whatever is wrong with
the source is reported at the cursor of the start of a token. -/
theorem cursors_exact (source : String) (path : Option String) :
    (∀ offset ≤ source.utf8ByteSize,
      (LineTable.ofSource source path).lineStart offset ≤ offset ∧
      (∃ later, (LineTable.ofSource source path).newlines =
        (LineTable.ofSource source path).newlines.filter (· < offset) ++ later ∧
          ∀ newline ∈ later, offset ≤ newline) ∧
      (LineTable.ofSource source path).cursor offset =
        ⟨((bytesOf source).take offset).count newlineByte + 1,
          (((bytesOf source).take offset).rtakeWhile (· != newlineByte)).length + 1⟩) ∧
    (∀ offset ≤ source.utf8ByteSize, ∀ other ≤ source.utf8ByteSize,
      ((LineTable.ofSource source path).cursor offset).Before
        ((LineTable.ofSource source path).cursor other) ↔ offset < other) ∧
    ∀ error, parse source path = .error error -> ∃ token ∈ tokenize source,
      error.location = ⟨path, (LineTable.ofSource source path).cursor token.span.start⟩ := by
  refine ⟨fun offset inside => ⟨?_, ?_, ?_⟩, fun offset _ other _ => ?_, fun error => parse_fault⟩
  · exact LineTable.lineStart_le _ offset
  · exact LineTable.newlines_parted source path inside
  · exact LineTable.cursor_ofSource source path inside
  · exact LineTable.cursor_before_iff _ offset other

end Program

/-- A character of two bytes in a string, and a conditional without a test on the second line. -/
def testMissing : String := "\"é\"\n (if)"

/-- A missing test on the second line is an instance, with a character of two bytes before it. -/
theorem testMissing_cursors : testMissing.utf8ByteSize = 10 ∧
    Program.parse testMissing none =
      .error ⟨⟨none, ⟨2, 2⟩⟩, .malformed (.wrongShape .conditional)⟩ ∧
    (∃ token ∈ tokenize testMissing,
      (LineTable.ofSource testMissing none).cursor token.span.start = ⟨2, 2⟩) ∧
    ((LineTable.ofSource testMissing none).cursor 2).Before
      ((LineTable.ofSource testMissing none).cursor 6) := by
  have size : testMissing.utf8ByteSize = 10 := by decide +kernel
  have fails : Program.parse testMissing none =
      .error ⟨⟨none, ⟨2, 2⟩⟩, .malformed (.wrongShape .conditional)⟩ := by
    have blamed : (Program.parse testMissing none).map (fun _ => ()) =
        .error ⟨⟨none, ⟨2, 2⟩⟩, .malformed (.wrongShape .conditional)⟩ := by
      rw [testMissing, Program.parse_ofList]
      decide +kernel
    cases parsed : Program.parse testMissing none with
    | ok program => simp [parsed, Except.map] at blamed
    | error error =>
      rw [parsed] at blamed
      exact congrArg _ (Except.error.inj blamed)
  obtain ⟨-, ordered, reported⟩ := Program.cursors_exact testMissing none
  obtain ⟨token, member, place⟩ := reported _ fails
  refine ⟨size, fails, ⟨token, member, (congrArg Location.cursor place).symm⟩, ?_⟩
  exact (ordered 2 (by omega) 6 (by omega)).mpr (by decide)

end Trampoline
