import Trampoline.Proofs.Spelling.Forms

/-!
# Names in a source

Every name that is read from a source text is one that its text spells: the scanner cuts identifiers
and keywords where they end, and never takes a number for a name.
-/

namespace Trampoline

/-! ## Tokens -/

/-- A text is a run of characters and a rest that begins with another class. -/
theorem split_run (inClass : Char -> Bool) (text : List Char) :
    ∃ rest, text = text.take (runLength inClass text) ++ rest ∧
      (text.take (runLength inClass text)).all inClass = true ∧
      ∀ c, rest.head? = some c -> inClass c = false := by
  have run : text.take (runLength inClass text) = text.takeWhile inClass :=
    (List.prefix_iff_eq_take.mp (List.takeWhile_prefix inClass)).symm
  refine ⟨text.dropWhile inClass, ?_, ?_, fun c head => ?_⟩
  · rw [run, List.takeWhile_append_dropWhile]
  · rw [run]
    exact List.all_takeWhile
  · have stops := List.head?_dropWhile_not inClass text
    rw [head] at stops
    exact stops

variable {c : Char} {rest : List Char} {extra : Nat}

/-- An identifier is a name. -/
theorem lexemeAt_ident (lexeme : lexemeAt c rest = ⟨some .ident, extra⟩) :
    isSymbolText (c :: rest.take extra) = true := by
  simp only [lexemeAt] at lexeme
  repeat' split at lexeme
  all_goals cases lexeme
  rename_i starts noInt
  obtain ⟨after, split, parts, delimits⟩ := split_run isIdentPart rest
  simp only [isSymbolText, starts, parts, Bool.true_and, Bool.not_eq_true']
  rw [← Bool.not_eq_true]
  intro signed
  simp only [Bool.and_eq_true, Bool.not_eq_true'] at signed
  obtain ⟨⟨sign, some⟩, digits⟩ := signed
  -- a sign and digits would have been an integer
  have run : runLength isDigit rest = runLength isIdentPart rest := by
    have same := runLength_append digits (Delimits.noDigit delimits)
    rw [← split] at same
    rw [same, List.length_take]
    exact Nat.min_eq_left (List.takeWhile_prefix _).length_le
  have long : 0 < runLength isIdentPart rest := by
    refine Nat.pos_of_ne_zero fun empty => ?_
    simp [empty] at some
  exact noInt (by simp only [run, long, sign, decide_true, Bool.and_self])

/-- A keyword is a name after its colon. -/
theorem lexemeAt_keyword (lexeme : lexemeAt c rest = ⟨some .keyword, extra⟩) :
    isKeywordText (rest.take extra) = true := by
  simp only [lexemeAt] at lexeme
  repeat' split at lexeme
  all_goals cases lexeme
  rename_i d more starts
  obtain ⟨-, -, parts, -⟩ := split_run isIdentPart more
  simp [isKeywordText, starts, parts]

/-- The token's name, if it has one, is a name. -/
def Token.isNamed (token : Token) : Bool :=
  match token.kind with
  | .ident => isSymbolText token.text.toList
  | .keyword => isKeywordText (token.text.toList.drop 1)
  | _ => true

/-- Tokens for names have the text of names. -/
theorem tokensFrom_named (offset : Nat) (text : List Char) :
    ∀ token ∈ tokensFrom offset text, token.isNamed = true := by
  fun_induction tokensFrom offset text with
  | case1 => simp
  | case2 offset c rest lexeme text stop later none ih => exact ih
  | case3 offset c rest lexeme text stop later kind cut ih =>
    refine List.forall_mem_cons.mpr ⟨?_, ih⟩
    have shape : lexemeAt c rest = ⟨some kind, lexeme.extra⟩ := by rw [← cut]
    unfold Token.isNamed
    split
    · rename_i same
      cases same
      simpa [text] using lexemeAt_ident shape
    · rename_i same
      cases same
      simpa [text] using lexemeAt_keyword shape
    · rfl

/-! ## Forms -/

namespace Form

variable {table : LineTable}

/-- An atom from a token can be scanned again. -/
theorem fair_ofAtom {token : Token} {form : Form} (named : token.isNamed = true)
    (atom : ofAtom token = .ok (some form)) : form.spelling.Fair := by
  obtain ⟨kind, text, span⟩ := token
  cases kind with
  | ident =>
    cases atom
    exact (Spelling.of_atom rfl).mpr named
  | keyword =>
    cases atom
    exact (Spelling.of_atom rfl).mpr (by
      simpa [Form.spelling, Spelling.wellNamed, Token.isNamed] using named)
  | «true» | «false» =>
    cases atom
    exact (Spelling.of_atom rfl).mpr rfl
  | int | str =>
    simp only [ofAtom] at atom
    split at atom
    · cases atom
      exact (Spelling.of_atom rfl).mpr rfl
    · cases atom
  | openParen | closeParen | error => cases atom

/-- All names in the forms are names. -/
def AllFair (forms : List Form) : Prop := ∀ form ∈ forms, form.spelling.Fair

theorem allFair_nil : AllFair [] := fun _ member => absurd member List.not_mem_nil

theorem allFair_cons {first : Form} {rest : List Form} :
    AllFair (first :: rest) ↔ first.spelling.Fair ∧ AllFair rest := List.forall_mem_cons

theorem fair_list {span : Span} {items : List Form} :
    (list span items).spelling.Fair ↔ AllFair items := of_list

variable {forms : List Form}

/-- What is read from well-named tokens is fair. -/
theorem readTokens_fair {tokens : List Token} (named : ∀ token ∈ tokens, token.isNamed = true)
    {opened : List OpenList} {top : List Form} (fairOpened : ∀ inner ∈ opened, AllFair inner.items)
    (fairTop : AllFair top) (reads : readTokens table tokens opened top = .ok forms) :
    AllFair forms := by
  induction tokens generalizing opened top with
  | nil =>
    cases opened with
    | nil =>
      cases reads
      exact fun form member => fairTop form (List.mem_reverse.mp member)
    | cons inner outer => cases reads
  | cons token tokens ih =>
    obtain ⟨known, others⟩ := List.forall_mem_cons.mp named
    have goesOn {form : Form} {opened : List OpenList} (fair : form.spelling.Fair)
        (fairOpened : ∀ inner ∈ opened, AllFair inner.items)
        (reads : readOn table tokens form opened top = .ok forms) : AllFair forms := by
      cases opened with
      | nil => exact ih others fairOpened (allFair_cons.mpr ⟨fair, fairTop⟩) reads
      | cons inner outer =>
        obtain ⟨fairInner, fairOuter⟩ := List.forall_mem_cons.mp fairOpened
        exact ih others (List.forall_mem_cons.mpr ⟨allFair_cons.mpr ⟨fair, fairInner⟩, fairOuter⟩)
          fairTop reads
    cases atom : ofAtom token with
    | error fault =>
      rw [readTokens_fault atom] at reads
      cases reads
    | ok form =>
      cases form with
      | some form =>
        rw [readTokens_atom atom] at reads
        exact goesOn (fair_ofAtom known atom) fairOpened reads
      | none =>
        obtain ⟨kind, text, span⟩ := token
        cases kind with
        | openParen =>
          rw [readTokens_open] at reads
          exact ih others (List.forall_mem_cons.mpr ⟨allFair_nil, fairOpened⟩) fairTop reads
        | closeParen =>
          cases opened with
          | nil => cases reads
          | cons inner outer =>
            rw [readTokens_close] at reads
            obtain ⟨fairInner, fairOuter⟩ := List.forall_mem_cons.mp fairOpened
            refine goesOn (fair_list.mpr fun form member => ?_) fairOuter reads
            exact fairInner form (List.mem_reverse.mp member)
        | int | str =>
          simp only [ofAtom] at atom
          split at atom <;> cases atom
        | «true» | «false» | keyword | ident | error => cases atom

/-- All names in the forms of a source text are names. -/
theorem ofTokens_fair {source : String}
    (reads : ofTokens table (tokenize source) = .ok forms) : AllFair forms :=
  readTokens_fair (tokensFrom_named 0 source.toList)
    (fun _ member => absurd member List.not_mem_nil)
    allFair_nil reads

end Form

end Trampoline
