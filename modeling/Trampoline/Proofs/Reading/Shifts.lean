import Trampoline.Proofs.Reading.Decision

/-!
# Sources behind others

A source that stands on the lines behind another has the same tokens and forms as alone, each
further on by the bytes before it, and the same fault, on a line further down. What is before it
must be readable itself: no string, comment or list of it goes on.
-/

namespace Trampoline

/-! ## Places further on -/

/-- The span so many bytes further on. -/
def Span.shift (bytes : Nat) (span : Span) : Span := ⟨span.start + bytes, span.stop + bytes⟩

/-- The token so many bytes further on. -/
def Token.shift (bytes : Nat) (token : Token) : Token :=
  { token with span := token.span.shift bytes }

mutual

/-- The form so many bytes further on. -/
def Form.shift (bytes : Nat) : Form -> Form
  | .int span value => .int (span.shift bytes) value
  | .str span value => .str (span.shift bytes) value
  | .bool span value => .bool (span.shift bytes) value
  | .sym span name => .sym (span.shift bytes) name
  | .keyword span name => .keyword (span.shift bytes) name
  | .list span items => .list (span.shift bytes) (shiftForms bytes items)

/-- Several forms so many bytes further on. -/
def shiftForms (bytes : Nat) : List Form -> List Form
  | [] => []
  | form :: rest => form.shift bytes :: shiftForms bytes rest

end

/-- The place so many lines further down. -/
def Location.below (lines : Nat) (location : Location) : Location :=
  ⟨location.path, location.cursor.line + lines, location.cursor.column⟩

/-- The same fault so many lines further down. -/
def ParseError.below (lines : Nat) (error : ParseError) : ParseError :=
  ⟨error.location.below lines, error.fault⟩

/-- What comes of a text: made into something else, or its fault so many lines further down. -/
def comesBelow {α β : Type} (lines : Nat) (make : α -> β) :
    Except ParseError α -> Except ParseError β
  | .ok value => .ok (make value)
  | .error error => .error (error.below lines)

variable {bytes lines : Nat}

/-- Shifting several forms is shifting each. -/
theorem shiftForms_eq_map (forms : List Form) :
    shiftForms bytes forms = forms.map (Form.shift bytes) := by
  induction forms with
  | nil => rfl
  | cons form rest ih => rw [shiftForms, ih, List.map_cons]

namespace Form

@[simp] theorem span_shift (form : Form) : (form.shift bytes).span = form.span.shift bytes := by
  cases form <;> rfl

@[simp] theorem symbol?_shift (form : Form) : (form.shift bytes).symbol? = form.symbol? := by
  cases form <;> rfl

@[simp] theorem items?_shift (form : Form) :
    (form.shift bytes).items? = form.items?.map (List.map (Form.shift bytes)) := by
  cases form <;> simp [shift, items?, shiftForms_eq_map]

end Form

/-! ## Lines -/

/-- The bytes of a text and of the line break behind it. -/
def lineBytes (text : String) : Nat := byteLength text.toList + 1

/-- The number of lines of a text. -/
def lineCount (text : String) : Nat := text.toList.count '\n' + 1

/-- The newlines of two parts are those of the first and, further on, those of the second. -/
theorem newlineOffsets_append (offset : Nat) (first second : List Char) :
    newlineOffsets offset (first ++ second) =
      newlineOffsets offset first ++ newlineOffsets (offset + byteLength first) second := by
  induction first generalizing offset with
  | nil => rfl
  | cons c rest ih =>
    simp only [List.cons_append, newlineOffsets, ih, byteLength, Nat.add_assoc]
    split <;> rfl

/-- Newlines further on in a source are further on by as many bytes. -/
theorem newlineOffsets_shift (offset : Nat) (text : List Char) :
    newlineOffsets (offset + bytes) text = (newlineOffsets offset text).map (· + bytes) := by
  induction text generalizing offset with
  | nil => rfl
  | cons c rest ih =>
    have later : offset + bytes + c.utf8Size = offset + c.utf8Size + bytes := Nat.add_right_comm ..
    simp only [newlineOffsets, later, ih]
    split <;> rfl

/-- Newlines stand inside the text. -/
theorem newlineOffsets_lt {offset newline : Nat} {text : List Char}
    (member : newline ∈ newlineOffsets offset text) : newline < offset + byteLength text := by
  induction text generalizing offset with
  | nil => exact absurd member List.not_mem_nil
  | cons c rest ih =>
    have size := c.utf8Size_pos
    have later (inRest : newline ∈ newlineOffsets (offset + c.utf8Size) rest) :
        newline < offset + byteLength (c :: rest) := by
      simpa [byteLength, Nat.add_assoc] using ih inRest
    unfold newlineOffsets at member
    split at member
    · rcases List.mem_cons.mp member with rfl | inRest
      · simp only [byteLength]
        omega
      · exact later inRest
    · exact later member

/-- There are as many offsets as newlines. -/
theorem length_newlineOffsets (offset : Nat) (text : List Char) :
    (newlineOffsets offset text).length = text.count '\n' := by
  induction text generalizing offset with
  | nil => rfl
  | cons c rest ih =>
    unfold newlineOffsets
    by_cases newline : c = '\n' <;> simp [newline, ih]

namespace LineTable

/-- The text of the first table stands in that of the other behind so many bytes and lines. -/
def Behind (bytes lines : Nat) (table whole : LineTable) : Prop :=
  ∀ span, whole.locate (span.shift bytes) = (table.locate span).below lines

/-- The cursor goes down by the lines before the text; the column stays. -/
theorem cursor_behind {before : List Nat} {bytes : Nat}
    (inside : ∀ newline ∈ before, newline ≤ bytes)
    (newlines : List Nat) (path path' : Option String) (offset : Nat) :
    let cursor := cursor ⟨newlines, path⟩ offset
    LineTable.cursor ⟨before ++ bytes :: newlines.map (· + (bytes + 1)), path'⟩
      (offset + (bytes + 1)) =
      ⟨cursor.line + (before.length + 1), cursor.column⟩ := by
  have all : before.filter (· < offset + (bytes + 1)) = before :=
    List.filter_eq_self.mpr fun newline member =>
      decide_eq_true (Nat.lt_of_le_of_lt (inside newline member) (by omega))
  have later : (newlines.map (· + (bytes + 1))).filter (· < offset + (bytes + 1)) =
      (newlines.filter (· < offset)).map (· + (bytes + 1)) := by
    rw [List.filter_map]
    congr 1
    exact List.filter_congr fun newline _ => by simp
  have between : bytes < offset + (bytes + 1) := by omega
  have cut : (before ++ bytes :: newlines.map (· + (bytes + 1))).filter (· < offset + (bytes + 1)) =
      before ++ bytes :: (newlines.filter (· < offset)).map (· + (bytes + 1)) := by
    rw [List.filter_append, all, List.filter_cons_of_pos (by simpa using between), later]
  simp only [cursor, cut]
  cases last : (newlines.filter (· < offset)).getLast? with
  | none =>
    rw [List.getLast?_eq_none_iff] at last
    simp [last]
    omega
  | some newline =>
    simp [List.getLast?_cons, last]
    omega

/-- In a longer source the lines of the second part come behind those of the first. -/
theorem ofSource_behind (first second : String) (path : Option String) :
    Behind (lineBytes first) (lineCount first) (ofSource second path)
      (ofSource (first ++ "\n" ++ second) path) := by
  intro span
  have newlines :
    newlineOffsets 0 (first ++ "\n" ++ second).toList = newlineOffsets 0 first.toList ++
      byteLength first.toList :: (newlineOffsets 0 second.toList).map
        (· + (byteLength first.toList + 1)) := by
    rw [← newlineOffsets_shift]
    have newline : '\n'.utf8Size = 1 := rfl
    simp [newlineOffsets_append, newlineOffsets, newline]
  have inside : ∀ newline ∈ newlineOffsets 0 first.toList, newline ≤ byteLength first.toList :=
    fun newline member => by simpa using Nat.le_of_lt (newlineOffsets_lt member)
  have moved := cursor_behind inside (newlineOffsets 0 second.toList) path path span.start
  rw [length_newlineOffsets] at moved
  rw [locate, ofSource, newlines, Span.shift, lineBytes, moved]
  rfl

end LineTable

/-! ## Tokens -/

/-- Tokens that begin further on are the same tokens further on. -/
theorem tokensFrom_shift (offset : Nat) (text : List Char) :
    tokensFrom (offset + bytes) text = (tokensFrom offset text).map (Token.shift bytes) := by
  fun_induction tokensFrom offset text with
  | case1 => simp [tokensFrom]
  | case2 offset c rest lexeme text stop later between ih =>
    rw [tokensFrom, Nat.add_right_comm]
    simp only [show (lexemeAt c rest).kind = none from between]
    exact ih
  | case3 offset c rest lexeme text stop later kind cut ih =>
    rw [tokensFrom, Nat.add_right_comm]
    simp only [show (lexemeAt c rest).kind = some kind from cut]
    exact congrArg _ ih

/-- What reads as a lexeme before a line break does so before any text. -/
theorem lexemeAt_line {c : Char} {rest : List Char} (between : isBlank c = false)
    (matched : (lexemeAt c rest).kind ≠ some .error) (after : List Char) :
    lexemeAt c (rest ++ '\n' :: after) = lexemeAt c rest := by
  have stops {inClass : Char -> Bool} (none : inClass '\n' = false) (text : List Char) :
      runLength inClass (text ++ '\n' :: after) = runLength inClass text :=
    runLength_append_of_stops (by rintro _ ⟨⟩; exact none)
  by_cases word : isIdentStart c = true
  · rw [lexemeAt_identStart word, lexemeAt_identStart word, stops (by decide), stops (by decide)]
  by_cases hash : c = '#'
  · subst hash
    cases rest with
    | nil => exact absurd rfl matched
    | cons d more =>
      by_cases isTrue : d = 't'
      · rw [isTrue]
        rfl
      by_cases isFalse : d = 'f'
      · rw [isFalse]
        rfl
      · exact absurd (by simp [lexemeAt, isBlank, isTrue, isFalse]) matched
  by_cases quote : c = '"'
  · subst quote
    have cut (rest : List Char) : lexemeAt '"' rest =
        if (rest.drop (stringBodyLength rest)).head? = some '"'
        then ⟨some .str, stringBodyLength rest + 1⟩ else ⟨some .error, stringBodyLength rest⟩ := rfl
    rw [cut] at matched ⊢
    split at matched
    · rename_i closes
      -- the quote that closes the string closes it in the longer text, too
      obtain ⟨more, closed⟩ := List.head?_eq_some_iff.mp closes
      have shape : rest = rest.take (stringBodyLength rest) ++ '"' :: more := by
        rw [← closed, List.take_append_drop]
      have body := (stringBody_take rest).length_eq (more ++ '\n' :: after)
      rw [← List.cons_append, ← List.append_assoc, ← shape, List.length_take,
        Nat.min_eq_left (stringBodyLength_le rest)] at body
      rw [cut, body, List.drop_append_of_le_length (stringBodyLength_le rest), closed]
      rfl
    · exact absurd rfl matched
  unfold lexemeAt
  rw [if_neg hash, if_neg quote, if_neg hash, if_neg quote]
  split
  · cases between.symm.trans ‹_›
  split
  · rw [stops (by decide)]
  split
  · rfl
  split
  · rfl
  split
  · rename_i colon
    subst colon
    cases rest with
    | nil => exact absurd rfl matched
    | cons d more =>
      show (if isKeywordStart d = true then
        (⟨some .keyword, runLength isIdentPart (more ++ '\n' :: after) + 1⟩ : Lexeme) else _) = _
      rw [stops (by decide)]
  split
  · rw [stops (by decide)]
  · rfl

/-- Where a text has no error, none of its lexemes goes on behind the line break after it. -/
theorem tokensFrom_line (after : List Char) : ∀ (offset : Nat) (text : List Char),
    (∀ token ∈ tokensFrom offset text, token.kind ≠ .error) ->
    tokensFrom offset (text ++ '\n' :: after) =
      tokensFrom offset text ++ tokensFrom (offset + (byteLength text + 1)) after
  | offset, [], _ => by
    rw [List.nil_append, tokensFrom_blank rfl]
    simp [tokensFrom, byteLength, show '\n'.utf8Size = 1 from rfl]
  | offset, c :: rest, clean => by
    by_cases between : isBlank c = true
    · rw [tokensFrom_blank between] at clean ⊢
      rw [List.cons_append, tokensFrom_blank between,
        tokensFrom_line after _ rest clean, byteLength,
        ← Nat.add_assoc, ← Nat.add_assoc, ← Nat.add_assoc]
    have inside := (lexemeAt_sound c rest).inside
    have whole : byteLength (c :: rest) = byteLength (c :: rest.take (lexemeAt c rest).extra) +
        byteLength (rest.drop (lexemeAt c rest).extra) := by
      rw [← byteLength_append, List.cons_append, List.take_append_drop]
    have matched : (lexemeAt c rest).kind ≠ some .error := by
      intro error
      rw [tokensFrom] at clean
      simp only [error] at clean
      exact clean _ List.mem_cons_self rfl
    have later : ∀ token ∈ tokensFrom (offset + byteLength (c :: rest.take (lexemeAt c rest).extra))
        (rest.drop (lexemeAt c rest).extra), token.kind ≠ .error := by
      intro token member
      rw [tokensFrom] at clean
      cases kind : (lexemeAt c rest).kind with
      | none =>
        simp only [kind] at clean
        exact clean token member
      | some _ =>
        simp only [kind] at clean
        exact clean token (List.mem_cons_of_mem _ member)
    have ih := tokensFrom_line after _ _ later
    rw [List.cons_append, tokensFrom, tokensFrom,
      lexemeAt_line (Bool.eq_false_iff.mpr between) matched,
      List.take_append_of_le_length inside, List.drop_append_of_le_length inside]
    rw [ih, whole]
    cases (lexemeAt c rest).kind <;> simp [Nat.add_assoc]
termination_by _ text => text.length
decreasing_by
  all_goals
    simp only [List.length_drop, List.length_cons]
    omega

namespace Form

variable {table whole : LineTable} {tokens first second : List Token} {opened : List OpenList}
  {top forms : List Form}

/-! ## Forms -/

/-- A shifted token is read as the shifted atom. -/
theorem ofAtom_shift (token : Token) :
    ofAtom (token.shift bytes) = (ofAtom token).map (Option.map (Form.shift bytes)) := by
  unfold ofAtom Token.shift
  cases token.kind <;> try rfl
  · dsimp only
    cases int64? token.text <;> rfl
  · dsimp only
    cases Quoted.read token.text <;> rfl

/-- The open lists and the forms so far after one more token. -/
def advance (token : Token) (opened : List OpenList) (top : List Form) :
    Except ParseFault (List OpenList × List Form) :=
  match ofAtom token with
  | .error fault => .error fault
  | .ok (some form) => .ok (addForm form opened top)
  | .ok none =>
    if token.kind = .openParen then .ok (⟨token.span.start, []⟩ :: opened, top)
    else
      match opened with
      | [] => .error .unbalanced
      | inner :: outer =>
        .ok (addForm (list ⟨inner.start, token.span.stop⟩ inner.items.reverse) outer top)

/-- The reader takes one token and goes on with what is open then. -/
theorem readTokens_cons (token : Token) (rest : List Token) :
    readTokens table (token :: rest) opened top =
      match advance token opened top with
      | .error fault => .error ⟨table.locate token.span, fault⟩
      | .ok (opened, top) => readTokens table rest opened top := by
  cases atom : ofAtom token with
  | error fault => simp only [readTokens_fault atom, advance, atom]
  | ok form? =>
    cases form? with
    | some form =>
      simp only [readTokens_atom atom, readOn_eq, advance, atom]
    | none =>
      obtain ⟨kind, text, span⟩ := token
      cases kind with
      | openParen =>
        rw [readTokens_open]
        rfl
      | closeParen =>
        cases opened with
        | nil => simp [readTokens, advance, ofAtom]
        | cons inner outer =>
          rw [readTokens_close, readOn_eq]
          rfl
      | int | str =>
        simp only [ofAtom] at atom
        split at atom <;> cases atom
      | _ => cases atom

/-- A token that can be read is no error. -/
theorem readTokens_kind (reads : readTokens table tokens opened top = .ok forms) :
    ∀ token ∈ tokens, token.kind ≠ .error := by
  induction tokens generalizing opened top with
  | nil => exact fun _ member => absurd member List.not_mem_nil
  | cons token rest ih =>
    rw [readTokens_cons] at reads
    cases taken : advance token opened top with
    | error fault => simp [taken] at reads
    | ok next =>
      rw [taken] at reads
      refine List.forall_mem_cons.mpr ⟨fun error => ?_, ih reads⟩
      simp [advance, ofAtom, error] at taken

/-- Once all lists are closed, reading goes on as at the start. -/
theorem readTokens_append (reads : readTokens table first opened top = .ok forms) :
    readTokens whole (first ++ second) opened top = readTokens whole second [] forms.reverse := by
  induction first generalizing opened top with
  | nil =>
    cases opened with
    | nil =>
      cases reads
      rw [List.nil_append, List.reverse_reverse]
    | cons inner outer => simp [readTokens] at reads
  | cons token rest ih =>
    rw [readTokens_cons] at reads
    rw [List.cons_append, readTokens_cons]
    cases taken : advance token opened top with
    | error fault => simp [taken] at reads
    | ok next =>
      rw [taken] at reads
      exact ih reads

/-- The open list so many bytes further on. -/
def OpenList.shift (bytes : Nat) (inner : OpenList) : OpenList :=
  ⟨inner.start + bytes, inner.items.map (Form.shift bytes)⟩

/-- A shifted form is added as the form is, with all else shifted. -/
theorem addForm_shift (bytes : Nat) (form : Form) (opened : List OpenList)
    (top before : List Form) :
    addForm (form.shift bytes) (opened.map (OpenList.shift bytes))
        (top.map (Form.shift bytes) ++ before) =
      ((addForm form opened top).1.map (OpenList.shift bytes),
        (addForm form opened top).2.map (Form.shift bytes) ++ before) := by
  cases opened <;> simp [addForm, OpenList.shift]

/-- The reader does with a shifted token what it does with the token, with all else shifted. -/
theorem advance_shift (token : Token) (before : List Form) :
    advance (token.shift bytes) (opened.map (OpenList.shift bytes))
        (top.map (Form.shift bytes) ++ before) =
      (advance token opened top).map fun next =>
        (next.1.map (OpenList.shift bytes), next.2.map (Form.shift bytes) ++ before) := by
  unfold advance
  rw [ofAtom_shift]
  cases ofAtom token with
  | error fault => rfl
  | ok form? =>
    cases form? with
    | some form => exact congrArg Except.ok (addForm_shift bytes form opened top before)
    | none =>
      dsimp only [Except.map, Option.map]
      split
      · simp_all [Token.shift, Span.shift, OpenList.shift]
      · cases opened with
        | nil => simp_all [Token.shift]
        | cons inner outer =>
          rw [if_neg ‹_›]
          have closed := addForm_shift bytes
            (list ⟨inner.start, token.span.stop⟩ inner.items.reverse) outer top before
          rw [shift, shiftForms_eq_map, List.map_reverse] at closed
          exact congrArg Except.ok closed

/-- The forms of tokens that stand behind forms that were read. -/
theorem readTokens_shift (behind : table.Behind bytes lines whole) (before : List Form)
    (tokens : List Token) (opened : List OpenList) (top : List Form) :
    readTokens whole (tokens.map (Token.shift bytes)) (opened.map (OpenList.shift bytes))
        (top.map (Form.shift bytes) ++ before) =
      comesBelow lines (fun forms => before.reverse ++ forms.map (Form.shift bytes))
        (readTokens table tokens opened top) := by
  induction tokens generalizing opened top with
  | nil =>
    cases opened with
    | nil => simp [readTokens, comesBelow]
    | cons inner outer =>
      have place := behind ⟨inner.start, inner.start + 1⟩
      simp only [Span.shift, Nat.add_right_comm] at place
      simp [readTokens, comesBelow, ParseError.below, OpenList.shift, place]
  | cons token rest ih =>
    rw [List.map_cons, readTokens_cons, readTokens_cons, advance_shift]
    cases advance token opened top with
    | error fault =>
      have place := behind token.span
      simp [Except.map, comesBelow, ParseError.below, Token.shift, place]
    | ok next => exact ih ..

/-- The forms of a source that stands on the lines behind another. -/
theorem ofSource_line {first : String} {path : Option String}
    (reads : ofSource first path = .ok forms) (second : String) :
    ofSource (first ++ "\n" ++ second) path =
      comesBelow (lineCount first)
        (fun others => forms ++ others.map (Form.shift (lineBytes first)))
        (ofSource second path) := by
  have clean : ∀ token ∈ tokensFrom 0 first.toList, token.kind ≠ .error := readTokens_kind reads
  have tokens : tokenize (first ++ "\n" ++ second) = tokenize first ++
      (tokenize second).map (Token.shift (lineBytes first)) := by
    have line := tokensFrom_line second.toList 0 first.toList clean
    rw [tokensFrom_shift] at line
    simpa [tokenize, lineBytes] using line
  have behind := LineTable.ofSource_behind first second path
  unfold ofSource ofTokens at reads ⊢
  rw [tokens, readTokens_append reads]
  have rest := readTokens_shift behind forms.reverse (tokenize second) [] []
  rwa [List.reverse_reverse] at rest

end Form

end Trampoline
