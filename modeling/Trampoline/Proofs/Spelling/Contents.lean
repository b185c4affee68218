import Trampoline.Proofs.Spelling.Forms

/-!
# The tokens of spellings

The kinds and texts of the tokens that a text is cut into, wherever it stands. The text of a
spelling has the tokens that spell it, before anything that can not belong to a word.
-/

namespace Trampoline

/-- What a token is, wherever it stands. -/
def Token.content (token : Token) : TokenKind × String := (token.kind, token.text)

/-- The kinds and texts of the tokens of a text. -/
def contents (text : List Char) : List (TokenKind × String) :=
  (tokensFrom 0 text).map Token.content

/-- The contents of the tokens of a text do not depend on where it stands. -/
theorem map_content_tokensFrom (offset : Nat) (text : List Char) :
    (tokensFrom offset text).map Token.content = contents text := by
  suffices same : ∀ other, (tokensFrom offset text).map Token.content =
      (tokensFrom other text).map Token.content from same 0
  fun_induction tokensFrom offset text with
  | case1 => intro other; simp [tokensFrom]
  | case2 offset c rest lexeme text stop later none ih =>
    intro other
    rw [tokensFrom]
    simp only [lexeme] at none
    simp only [none]
    exact ih _
  | case3 offset c rest lexeme text stop later kind cut ih =>
    intro other
    rw [tokensFrom]
    simp only [lexeme] at cut
    simp only [cut, List.map_cons]
    exact congrArg _ (ih _)

theorem contents_nil : contents [] = [] := by
  simp [contents, tokensFrom]

variable {kind : TokenKind} {text : List Char} {found : List (TokenKind × String)}

/-- A token comes first and then the contents of the rest. -/
theorem contents_token {rest : List Char} (isToken : IsToken kind text rest) :
    contents (text ++ rest) = (kind, String.ofList text) :: contents rest := by
  rw [contents, tokensFrom_token isToken, List.map_cons, map_content_tokensFrom]
  rfl

/-- A blank has no tokens. -/
theorem contents_blank {c : Char} (blank : isBlank c = true) (rest : List Char) :
    contents (c :: rest) = contents rest := by
  rw [contents, tokensFrom_blank blank, map_content_tokensFrom]

/-- Blanks have no tokens. -/
theorem contents_blanks {blanks : List Char} (blank : ∀ c ∈ blanks, isBlank c = true)
    (rest : List Char) : contents (blanks ++ rest) = contents rest := by
  induction blanks with
  | nil => rfl
  | cons c blanks ih =>
    obtain ⟨first, others⟩ := List.forall_mem_cons.mp blank
    rw [List.cons_append, contents_blank first, ih others]

/-- Before what can not belong to a word, the text has these tokens. -/
def YieldsTokens (text : List Char) (found : List (TokenKind × String)) : Prop :=
  ∀ rest, Delimits rest -> contents (text ++ rest) = found ++ contents rest

theorem IsToken.yields (isToken : ∀ {rest}, Delimits rest -> IsToken kind text rest) :
    YieldsTokens text [(kind, String.ofList text)] :=
  fun _ delimits => contents_token (isToken delimits)

/-- A text after one that ends where the next begins. -/
theorem YieldsTokens.append {next : List Char} {others : List (TokenKind × String)}
    (yields : YieldsTokens text found) (yields' : YieldsTokens next others)
    (delimits : ∀ rest, Delimits rest -> Delimits (next ++ rest)) :
    YieldsTokens (text ++ next) (found ++ others) := by
  intro rest ends
  rw [List.append_assoc, yields _ (delimits rest ends), yields' rest ends, List.append_assoc]

/-! ## Spellings -/

mutual

/-- The tokens that spell it. -/
def Spelling.contents : Spelling -> List (TokenKind × String)
  | .int value => [(.int, toString value.toInt)]
  | .str value => [(.str, Quoted.write value)]
  | .bool true => [(.true, "#t")]
  | .bool false => [(.false, "#f")]
  | .sym name => [(.ident, name)]
  | .keyword name => [(.keyword, ":" ++ name)]
  | .list items => (.openParen, "(") :: (contentsOfAll items ++ [(.closeParen, ")")])

/-- The tokens that spell several. -/
def contentsOfAll : List Spelling -> List (TokenKind × String)
  | [] => []
  | first :: rest => first.contents ++ contentsOfAll rest

end

/-- The contents of two lists of spellings come one after the other. -/
theorem contentsOfAll_append (first second : List Spelling) :
    contentsOfAll (first ++ second) = contentsOfAll first ++ contentsOfAll second := by
  induction first with
  | nil => rfl
  | cons s rest ih => rw [List.cons_append, contentsOfAll, ih, contentsOfAll, List.append_assoc]

theorem contentsOfAll_singleton (s : Spelling) : contentsOfAll [s] = s.contents :=
  List.append_nil _

mutual

/-- No token that spells something is an error. -/
theorem Spelling.contents_noError : ∀ s : Spelling, ∀ content ∈ s.contents, content.1 ≠ .error
  | .int _ | .str _ | .bool true | .bool false | .sym _ | .keyword _ =>
    List.forall_mem_singleton.mpr TokenKind.noConfusion
  | .list items => List.forall_mem_cons.mpr ⟨TokenKind.noConfusion, List.forall_mem_append.mpr
      ⟨contentsOfAll_noError items, List.forall_mem_singleton.mpr TokenKind.noConfusion⟩⟩

theorem contentsOfAll_noError : ∀ items : List Spelling,
    ∀ content ∈ contentsOfAll items, content.1 ≠ .error
  | [] => fun _ member => absurd member List.not_mem_nil
  | first :: rest => List.forall_mem_append.mpr
      ⟨first.contents_noError, contentsOfAll_noError rest⟩

end

theorem contents_open (rest : List Char) :
    contents ('(' :: rest) = (.openParen, "(") :: contents rest :=
  contents_token isToken_open

theorem contents_close (rest : List Char) :
    contents (')' :: rest) = (.closeParen, ")") :: contents rest :=
  contents_token isToken_close

/-- What yields tokens yields them in parentheses too. -/
theorem YieldsTokens.parens (yields : YieldsTokens text found) :
    YieldsTokens ('(' :: (text ++ [')']))
      ((.openParen, "(") :: (found ++ [(.closeParen, ")")])) := by
  intro rest _
  rw [List.cons_append, List.append_assoc, contents_open, yields _ (Spelling.delimits_close rest),
    List.singleton_append, contents_close]
  simp

theorem YieldsTokens.nil : YieldsTokens [] [] := fun _ _ => rfl

/-- A blank before a text changes nothing about its tokens. -/
theorem YieldsTokens.afterBlank (yields : YieldsTokens text found) :
    YieldsTokens (' ' :: text) found := by
  intro rest delimits
  rw [List.cons_append, contents_blank (by decide), yields rest delimits]

namespace Spelling

mutual

/-- The text of a fair spelling has the tokens that spell it. -/
theorem yields : ∀ s : Spelling, s.Fair -> YieldsTokens s.chars s.contents
  | .int value, _ => by
    have one := IsToken.yields (isToken_int value.toInt)
    rwa [String.ofList_toList] at one
  | .str value, _ => by
    have one := IsToken.yields fun _ => isToken_quoted value.toList
    rwa [← Quoted.write_eq] at one
  | .bool true, _ => IsToken.yields fun _ => isToken_true
  | .bool false, _ => IsToken.yields fun _ => isToken_false
  | .sym name, fair => by
    have isSymbol : isSymbolText name.toList = true := (of_atom rfl).mp fair
    have one := IsToken.yields (isToken_symbol isSymbol)
    rwa [String.ofList_toList] at one
  | .keyword name, fair => by
    have isKeyword : isKeywordText name.toList = true := (of_atom rfl).mp fair
    have one := IsToken.yields (isToken_keyword isKeyword)
    have named : String.ofList (':' :: name.toList) = ":" ++ name := by
      rw [← String.toList_inj]
      simp
    rwa [named] at one
  | .list [], _ => YieldsTokens.nil.parens
  | .list (first :: more), fair => by
    obtain ⟨fairFirst, fairMore⟩ := List.forall_mem_cons.mp (fair_list.mp fair)
    have items : YieldsTokens (first.chars ++ charsAfter more) (contentsOfAll (first :: more)) :=
      (first.yields fairFirst).append (yields_after more fairMore) fun _ => delimits_charsAfter more
    have shape : (Spelling.list (first :: more)).chars =
        '(' :: (first.chars ++ charsAfter more ++ [')']) := by
      rw [Spelling.chars, List.append_assoc]
    rw [shape]
    exact items.parens

theorem yields_after : ∀ items : List Spelling, (∀ s ∈ items, s.Fair) ->
    YieldsTokens (charsAfter items) (contentsOfAll items)
  | [], _ => YieldsTokens.nil
  | first :: more, fair => by
    obtain ⟨fairFirst, fairMore⟩ := List.forall_mem_cons.mp fair
    exact ((first.yields fairFirst).append (yields_after more fairMore)
      fun _ => delimits_charsAfter more).afterBlank

end

end Spelling

end Trampoline
