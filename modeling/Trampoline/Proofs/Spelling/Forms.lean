import Trampoline.Proofs.Spelling.Basic
import Trampoline.Proofs.Spelling.Tokens

/-!
# Forms and their spelling

A form without its places is a spelling, which has one text with single blanks between the items of
a list. Reading this text gives a form with the spelling, if the names in it are names and no string
has a character that must be written by its code point; a string that has one is an invalid escape.
-/

namespace Trampoline

namespace Spelling

/-- A name or keyword of the spelling can be told from other tokens. -/
def wellNamed : Spelling -> Bool
  | sym name => isSymbolText name.toList
  | keyword name => isKeywordText name.toList
  | _ => true

/-- No character in a string of the spelling is written by its code point. -/
def readable : Spelling -> Bool
  | str value => !value.toList.any Quoted.byCode
  | _ => true

/-- All names in the spelling are names. -/
def Fair (s : Spelling) : Prop := s.Of (·.wellNamed = true)

/-- All strings in the spelling can be read. -/
def Clean (s : Spelling) : Prop := s.Of (·.readable = true)

variable {items : List Spelling}

theorem fair_list : (list items).Fair ↔ ∀ s ∈ items, s.Fair :=
  of_list

theorem clean_list : (list items).Clean ↔ ∀ s ∈ items, s.Clean :=
  of_list

instance (s : Spelling) : Decidable s.Clean := inferInstanceAs (Decidable (∀ _ ∈ _, _))

end Spelling

/-- Two parts are as long as both. -/
theorem byteLength_append (first second : List Char) :
    byteLength (first ++ second) = byteLength first + byteLength second := by
  induction first with
  | nil => simp [byteLength]
  | cons c rest ih => simp [byteLength, ih, Nat.add_assoc]

/-! ## Reading tokens -/

namespace Form

variable {table : LineTable} {token : Token} {tokens : List Token} {opened : List OpenList}
  {top : List Form}

/-- Go on reading after one more form. -/
def readOn (table : LineTable) (tokens : List Token) (form : Form) (opened : List OpenList)
    (top : List Form) : Except ParseError (List Form) :=
  match opened with
  | [] => readTokens table tokens [] (form :: top)
  | inner :: outer => readTokens table tokens (⟨inner.start, form :: inner.items⟩ :: outer) top

theorem readTokens_atom {form : Form} (atom : ofAtom token = .ok (some form)) :
    readTokens table (token :: tokens) opened top = readOn table tokens form opened top := by
  cases opened <;> simp only [readTokens, atom, readOn]

/-- The token of an atom that can not be read ends the reading with its fault. -/
theorem readTokens_fault {fault : ParseFault} (fails : ofAtom token = .error fault) :
    readTokens table (token :: tokens) opened top =
      .error ⟨table.locate token.span, fault⟩ := by
  cases opened <;> simp only [readTokens, fails]

variable {text : String} {span : Span}

theorem readTokens_open : readTokens table (⟨.openParen, text, span⟩ :: tokens) opened top =
      readTokens table tokens (⟨span.start, []⟩ :: opened) top := by
  cases opened <;> simp [readTokens, ofAtom]

/-- A closing parenthesis ends the innermost list. -/
theorem readTokens_close {inner : OpenList} {outer : List OpenList} :
    readTokens table (⟨.closeParen, text, span⟩ :: tokens) (inner :: outer) top =
      readOn table tokens (list ⟨inner.start, span.stop⟩ inner.items.reverse) outer top := by
  simp only [readTokens, ofAtom, reduceCtorEq, if_false]
  cases outer <;> rfl

end Form

/-! ## Reading spellings -/

namespace Spelling

open Form

variable {table : LineTable}

variable {rest : List Char} {s : Spelling} {items : List Spelling}

/-- Spellings after blanks end the token before them. -/
theorem delimits_charsAfter (items : List Spelling) (delimits : Delimits rest) :
    Delimits (charsAfter items ++ rest) := by
  cases items with
  | nil => exact delimits
  | cons first more => exact delimits_cons (by decide) _

theorem delimits_close (rest : List Char) : Delimits ([')'] ++ rest) :=
  delimits_cons (by decide) rest

/-- From the text of the spelling at the offset, before this rest, one form is read. -/
def Reads (table : LineTable) (offset : Nat) (s : Spelling) (rest : List Char) : Prop :=
  ∃ form : Form, form.spelling = s ∧ ∀ opened top,
    readTokens table (tokensFrom offset (s.chars ++ rest)) opened top =
      readOn table (tokensFrom (offset + byteLength s.chars) rest) form opened top

/-- An atom is scanned as one token and read as itself. -/
theorem reads_atom {kind : TokenKind} (offset : Nat) (isToken : IsToken kind s.chars rest)
    (atom : ∀ span, ∃ form : Form, ofAtom ⟨kind, String.ofList s.chars, span⟩ = .ok (some form) ∧
      form.spelling = s) : Reads table offset s rest := by
  obtain ⟨form, known, spells⟩ := atom ⟨offset, offset + byteLength s.chars⟩
  refine ⟨form, spells, fun opened top => ?_⟩
  rw [tokensFrom_token isToken, readTokens_atom known]

mutual

/-- A fair spelling whose strings can be read is read as one form. -/
theorem read_clean : ∀ (s : Spelling), s.Fair -> s.Clean -> ∀ (offset : Nat) (rest : List Char),
    Delimits rest -> Reads table offset s rest
  | .int value, _, _, offset, rest, delimits => by
    refine reads_atom offset (isToken_int value.toInt delimits) fun span =>
      ⟨.int span value, ?_, rfl⟩
    simp only [ofAtom, Spelling.chars, String.ofList_toList, int64?_toString]
  | .str value, _, clean, offset, rest, delimits => by
    have shown : value.toList.any Quoted.byCode = false := by
      simpa [readable] using (of_atom rfl).mp clean
    refine reads_atom offset (isToken_quoted value.toList) fun span => ⟨.str span value, ?_, rfl⟩
    rw [Spelling.chars, ← Quoted.write_eq]
    simp [ofAtom, Quoted.read_write, shown]
  | .bool true, _, _, offset, rest, _ =>
    reads_atom offset isToken_true fun span => ⟨.bool span true, rfl, rfl⟩
  | .bool false, _, _, offset, rest, _ =>
    reads_atom offset isToken_false fun span => ⟨.bool span false, rfl, rfl⟩
  | .sym name, fair, _, offset, rest, delimits => by
    have isSymbol : isSymbolText name.toList = true := (of_atom rfl).mp fair
    refine reads_atom offset (isToken_symbol isSymbol delimits) fun span =>
      ⟨.sym span name, ?_, rfl⟩
    simp [ofAtom, Spelling.chars]
  | .keyword name, fair, _, offset, rest, delimits => by
    have isKeyword : isKeywordText name.toList = true := (of_atom rfl).mp fair
    refine reads_atom offset (isToken_keyword isKeyword delimits)
      fun span => ⟨.keyword span name, ?_, rfl⟩
    simp [ofAtom, Spelling.chars]
  | .list [], _, _, offset, rest, _ => by
    refine ⟨.list ⟨offset, offset + byteLength ['('] + byteLength [')']⟩ [], rfl,
      fun opened top => ?_⟩
    show readTokens table (tokensFrom offset (['('] ++ ([')'] ++ rest))) opened top = _
    rw [tokensFrom_token isToken_open, readTokens_open, tokensFrom_token isToken_close,
      readTokens_close]
    rfl
  | .list (first :: more), fair, clean, offset, rest, _ => by
    obtain ⟨fairFirst, fairMore⟩ := List.forall_mem_cons.mp (fair_list.mp fair)
    obtain ⟨cleanFirst, cleanMore⟩ := List.forall_mem_cons.mp (clean_list.mp clean)
    have shape : (Spelling.list (first :: more)).chars ++ rest =
        ['('] ++ (first.chars ++ (charsAfter more ++ ([')'] ++ rest))) := by
      simp [Spelling.chars]
    obtain ⟨form, spells, reads⟩ :=
      read_clean first fairFirst cleanFirst (offset + byteLength ['('])
      (charsAfter more ++ ([')'] ++ rest)) (delimits_charsAfter more (delimits_close rest))
    obtain ⟨forms, spell, readAll⟩ := read_after more fairMore cleanMore
      (offset + byteLength ['('] + byteLength first.chars) ([')'] ++ rest) (delimits_close rest)
    refine ⟨.list ⟨offset, offset + byteLength (Spelling.list (first :: more)).chars⟩
      (form :: forms), by simp [Form.spelling, Form.spellings, spells, spell], fun opened top => ?_⟩
    rw [shape, tokensFrom_token isToken_open, readTokens_open, reads, readOn, readAll,
      tokensFrom_token isToken_close, readTokens_close]
    simp [Spelling.chars, byteLength, byteLength_append, Nat.add_assoc]

theorem read_after : ∀ (items : List Spelling), (∀ s ∈ items, s.Fair) -> (∀ s ∈ items, s.Clean) ->
    ∀ (offset : Nat) (rest : List Char), Delimits rest ->
      ∃ forms : List Form, Form.spellings forms = items ∧ ∀ inner outer top,
        readTokens table (tokensFrom offset (charsAfter items ++ rest)) (inner :: outer) top =
          readTokens table (tokensFrom (offset + byteLength (charsAfter items)) rest)
            (⟨inner.start, forms.reverse ++ inner.items⟩ :: outer) top
  | [], _, _, offset, rest, _ => ⟨[], rfl, fun _ _ _ => rfl⟩
  | first :: more, fair, clean, offset, rest, delimits => by
    obtain ⟨fairFirst, fairMore⟩ := List.forall_mem_cons.mp fair
    obtain ⟨cleanFirst, cleanMore⟩ := List.forall_mem_cons.mp clean
    obtain ⟨form, spells, reads⟩ := read_clean first fairFirst cleanFirst (offset + ' '.utf8Size)
      (charsAfter more ++ rest) (delimits_charsAfter more delimits)
    obtain ⟨forms, spell, readAll⟩ := read_after more fairMore cleanMore
      (offset + ' '.utf8Size + byteLength first.chars) rest delimits
    refine ⟨form :: forms, by simp [Form.spellings, spells, spell], fun inner outer top => ?_⟩
    rw [charsAfter, List.cons_append, List.append_assoc, tokensFrom_blank (by decide), reads,
      readOn, readAll]
    simp [byteLength, byteLength_append, Nat.add_assoc]

end

/-- From the text of the spelling at the offset, before this rest, an invalid escape is read. -/
def Spoils (table : LineTable) (offset : Nat) (s : Spelling) (rest : List Char) : Prop :=
  ∃ span, ∀ opened top, readTokens table (tokensFrom offset (s.chars ++ rest)) opened top =
    .error ⟨table.locate span, .invalidEscape 'u'⟩

mutual

/-- A fair spelling with a string that can not be read has an invalid escape. -/
theorem read_unclean : ∀ (s : Spelling), s.Fair -> ¬s.Clean -> ∀ (offset : Nat) (rest : List Char),
    Delimits rest -> Spoils table offset s rest
  | .int _, _, unclean, _, _, _ | .bool _, _, unclean, _, _, _ | .sym _, _, unclean, _, _, _
  | .keyword _, _, unclean, _, _, _ => (unclean ((of_atom rfl).mpr rfl)).elim
  | .list [], _, unclean, _, _, _ => absurd (by simp [clean_list]) unclean
  | .str value, _, unclean, offset, rest, _ => by
    have coded : value.toList.any Quoted.byCode = true := by
      simpa [Clean, Of, atoms, readable] using unclean
    have isToken : IsToken .str (Spelling.str value).chars rest := isToken_quoted value.toList
    refine ⟨⟨offset, offset + byteLength (Spelling.str value).chars⟩, fun opened top => ?_⟩
    rw [tokensFrom_token isToken, Spelling.chars]
    refine readTokens_fault ?_
    rw [← Quoted.write_eq]
    simp [ofAtom, Quoted.read_write, coded]
  | .list (first :: more), fair, unclean, offset, rest, _ => by
    obtain ⟨fairFirst, fairMore⟩ := List.forall_mem_cons.mp (fair_list.mp fair)
    have shape : (Spelling.list (first :: more)).chars ++ rest =
        ['('] ++ (first.chars ++ (charsAfter more ++ ([')'] ++ rest))) := by
      simp [Spelling.chars]
    have delimits := delimits_charsAfter more (delimits_close rest)
    by_cases cleanFirst : first.Clean
    · have uncleanMore : ¬∀ s ∈ more, s.Clean := fun cleanMore =>
        unclean (clean_list.mpr (List.forall_mem_cons.mpr ⟨cleanFirst, cleanMore⟩))
      obtain ⟨form, -, reads⟩ := read_clean first fairFirst cleanFirst
        (offset + byteLength ['(']) _ delimits
      obtain ⟨span, fails⟩ := read_after_unclean more fairMore uncleanMore
        (offset + byteLength ['('] + byteLength first.chars) _ (delimits_close rest)
      refine ⟨span, fun opened top => ?_⟩
      rw [shape, tokensFrom_token isToken_open, readTokens_open, reads]
      exact fails _ _ _
    · obtain ⟨span, fails⟩ := read_unclean first fairFirst cleanFirst (offset + byteLength ['(']) _
        delimits
      refine ⟨span, fun opened top => ?_⟩
      rw [shape, tokensFrom_token isToken_open, readTokens_open]
      exact fails _ _

theorem read_after_unclean : ∀ (items : List Spelling), (∀ s ∈ items, s.Fair) ->
    (¬∀ s ∈ items, s.Clean) -> ∀ (offset : Nat) (rest : List Char), Delimits rest ->
      ∃ span, ∀ inner outer top,
        readTokens table (tokensFrom offset (charsAfter items ++ rest)) (inner :: outer) top =
          .error ⟨table.locate span, .invalidEscape 'u'⟩
  | [], _, unclean, _, _, _ => absurd (by simp) unclean
  | first :: more, fair, unclean, offset, rest, delimits => by
    obtain ⟨fairFirst, fairMore⟩ := List.forall_mem_cons.mp fair
    have delimits' := delimits_charsAfter more delimits
    by_cases cleanFirst : first.Clean
    · have uncleanMore : ¬∀ s ∈ more, s.Clean := fun cleanMore =>
        unclean (List.forall_mem_cons.mpr ⟨cleanFirst, cleanMore⟩)
      obtain ⟨form, -, reads⟩ := read_clean first fairFirst cleanFirst
        (offset + ' '.utf8Size) _ delimits'
      obtain ⟨span, fails⟩ := read_after_unclean more fairMore uncleanMore
        (offset + ' '.utf8Size + byteLength first.chars) rest delimits
      refine ⟨span, fun inner outer top => ?_⟩
      rw [charsAfter, List.cons_append, List.append_assoc, tokensFrom_blank (by decide), reads]
      exact fails _ _ _
    · obtain ⟨span, fails⟩ := read_unclean first fairFirst cleanFirst (offset + ' '.utf8Size) _
        delimits'
      refine ⟨span, fun inner outer top => ?_⟩
      rw [charsAfter, List.cons_append, List.append_assoc, tokensFrom_blank (by decide)]
      exact fails _ _

end

/-- The text of one spelling is read as one form, or has an invalid escape. -/
theorem read_alone (table : LineTable) (fair : s.Fair) :
    (s.Clean ∧ ∃ form : Form, form.spelling = s ∧
      readTokens table (tokensFrom 0 s.chars) [] [] = .ok [form]) ∨
    (¬s.Clean ∧ ∃ location,
      readTokens table (tokensFrom 0 s.chars) [] [] = .error ⟨location, .invalidEscape 'u'⟩) := by
  by_cases clean : s.Clean
  · obtain ⟨form, spells, reads⟩ : Reads table 0 s [] := read_clean s fair clean 0 [] delimits_nil
    have alone := reads [] []
    rw [List.append_nil] at alone
    refine .inl ⟨clean, form, spells, alone.trans ?_⟩
    simp [readOn, tokensFrom, readTokens]
  · obtain ⟨span, fails⟩ : Spoils table 0 s [] := read_unclean s fair clean 0 [] delimits_nil
    have alone := fails [] []
    rw [List.append_nil] at alone
    exact .inr ⟨clean, _, alone⟩

/-! ## Lines -/

/-- The texts of several spellings, one on each line. -/
def lines : List Spelling -> List Char
  | [] => []
  | first :: rest => first.chars ++ '\n' :: lines rest

theorem delimits_lines (rest : List Char) : Delimits ('\n' :: rest) :=
  delimits_cons (by decide) rest

/-- Lines of clean spellings are read as forms that spell them. -/
theorem read_lines_clean (table : LineTable) (fair : ∀ s ∈ items, s.Fair)
    (clean : ∀ s ∈ items, s.Clean) (offset : Nat) : ∃ forms : List Form,
      Form.spellings forms = items ∧ ∀ top,
        readTokens table (tokensFrom offset (lines items)) [] top = .ok (top.reverse ++ forms) := by
  induction items generalizing offset with
  | nil => exact ⟨[], rfl, fun top => by simp [lines, tokensFrom, readTokens]⟩
  | cons first more ih =>
    obtain ⟨fairFirst, fairMore⟩ := List.forall_mem_cons.mp fair
    obtain ⟨cleanFirst, cleanMore⟩ := List.forall_mem_cons.mp clean
    obtain ⟨form, spells, reads⟩ := read_clean first fairFirst cleanFirst offset _
      (delimits_lines (lines more))
    obtain ⟨forms, spell, readAll⟩ := ih fairMore cleanMore
      (offset + byteLength first.chars + '\n'.utf8Size)
    refine ⟨form :: forms, by simp [Form.spellings, spells, spell], fun top => ?_⟩
    rw [lines, reads, tokensFrom_blank (by decide), readOn, readAll]
    simp

/-- Lines of spellings that are not all clean are not read. -/
theorem read_lines_unclean (table : LineTable) (fair : ∀ s ∈ items, s.Fair)
    (unclean : ¬∀ s ∈ items, s.Clean) (offset : Nat) : ∃ span, ∀ top,
      readTokens table (tokensFrom offset (lines items)) [] top =
        .error ⟨table.locate span, .invalidEscape 'u'⟩ := by
  induction items generalizing offset with
  | nil => exact absurd (by simp) unclean
  | cons first more ih =>
    obtain ⟨fairFirst, fairMore⟩ := List.forall_mem_cons.mp fair
    have delimits := delimits_lines (lines more)
    by_cases cleanFirst : first.Clean
    · have uncleanMore : ¬∀ s ∈ more, s.Clean := fun cleanMore =>
        unclean (List.forall_mem_cons.mpr ⟨cleanFirst, cleanMore⟩)
      obtain ⟨form, -, reads⟩ := read_clean first fairFirst cleanFirst offset _ delimits
      obtain ⟨span, fails⟩ := ih fairMore uncleanMore
        (offset + byteLength first.chars + '\n'.utf8Size)
      refine ⟨span, fun top => ?_⟩
      rw [lines, reads, tokensFrom_blank (by decide)]
      exact fails _
    · obtain ⟨span, fails⟩ := read_unclean first fairFirst cleanFirst offset _ delimits
      refine ⟨span, fun top => ?_⟩
      rw [lines]
      exact fails _ _

end Spelling

end Trampoline
