import Mathlib.Data.List.Forall2
import Trampoline.Proofs.Reading.Offences
import Trampoline.Proofs.Syntax.Order

/-!
# What can be read

On the way through forms one meets the two ends of each list and the atoms in it. Forms are spelled
by tokens if these are met in the same order. As no two tokens overlap, the items of a list then
stand one after another, strictly inside of the list.

A source is read exactly if no token of it is wrong by itself and its parentheses balance, and then
its forms are spelled by its tokens. Otherwise the first token that offends is reported, or else the
innermost parenthesis that is still open at the end.
-/

namespace Trampoline

/-! ## Forms and their tokens -/

section Traversal

/-- What is met on the way through forms. -/
inductive Piece where
  /-- Where a list begins. -/
  | opening (start : Nat)
  /-- Where a list ends. -/
  | closing (stop : Nat)
  | atom (form : Form)

mutual

/-- What is met on the way through a form. -/
def Form.pieces : Form -> List Piece
  | .list span items => .opening span.start :: (piecesOfAll items ++ [.closing span.stop])
  | .int span value => [.atom (.int span value)]
  | .str span value => [.atom (.str span value)]
  | .bool span value => [.atom (.bool span value)]
  | .sym span name => [.atom (.sym span name)]
  | .keyword span name => [.atom (.keyword span name)]

/-- What is met on the way through several forms. -/
def piecesOfAll : List Form -> List Piece
  | [] => []
  | first :: rest => first.pieces ++ piecesOfAll rest

end

/-- The token is met where the piece is. -/
def Token.IsPiece (token : Token) : Piece -> Prop
  | .opening start => token.kind = .openParen ∧ token.span.start = start
  | .closing stop => token.kind = .closeParen ∧ token.span.stop = stop
  | .atom form => token.Denotes form

/-- The tokens are met on the way through the forms, in this order and no others. -/
def Spell (tokens : List Token) (forms : List Form) : Prop :=
  List.Forall₂ Token.IsPiece tokens (piecesOfAll forms)

/-- The items of each list stand one after another, strictly inside of the list. -/
inductive Form.Arranged : Form -> Prop where
  | atom {form : Form} (noList : form.items? = none) : Arranged form
  | list {span : Span} {items : List Form} (order : Trampoline.InOrder (items.map Form.span))
      (inside : ∀ item ∈ items, span.start < item.span.start ∧ item.span.stop < span.stop)
      (arranged : ∀ item ∈ items, Arranged item) : Arranged (.list span items)

/-- What is met in two lists of forms is met in one after the other. -/
theorem piecesOfAll_append (first second : List Form) :
    piecesOfAll (first ++ second) = piecesOfAll first ++ piecesOfAll second := by
  induction first with
  | nil => rfl
  | cons form rest ih => rw [List.cons_append, piecesOfAll, ih, piecesOfAll, List.append_assoc]

theorem piecesOfAll_singleton (form : Form) : piecesOfAll [form] = form.pieces :=
  List.append_nil _

variable {form : Form} {offset : Nat} {tokens : List Token}

/-- What is no list is met as itself. -/
theorem Form.pieces_atom (noList : form.items? = none) : form.pieces = [.atom form] := by
  cases form with
  | list => cases noList
  | _ => rfl

theorem Token.Denotes.place {token : Token} (denotes : token.Denotes form) :
    form.span = token.span ∧ form.items? = none := by
  cases denotes <;> exact ⟨rfl, rfl⟩

/-! ## Places -/

/-- Where the last of the tokens ends, or where they begin if there are none. -/
def reach : (offset : Nat) -> List Token -> Nat
  | offset, [] => offset
  | _, token :: rest => reach token.span.stop rest

/-- Tokens follow each other if the second part begins where the first has ended. -/
theorem Follow.append_iff {first second : List Token} :
    Follow offset (first ++ second) ↔ Follow offset first ∧ Follow (reach offset first) second := by
  induction first generalizing offset with
  | nil => simp [Follow, reach]
  | cons token rest ih => simp only [List.cons_append, Follow, ih, reach, and_assoc]

/-- Tokens that follow from a place reach at least that far. -/
theorem Follow.le_reach (follow : Follow offset tokens) : offset ≤ reach offset tokens := by
  induction tokens generalizing offset with
  | nil => exact Nat.le_refl _
  | cons token rest ih =>
    obtain ⟨start, solid, later⟩ := follow
    exact Nat.le_trans start (Nat.le_trans (Nat.le_of_lt solid) (ih later))

/-- The reach of two parts is that of the second from where the first ended. -/
theorem reach_append (offset : Nat) (first second : List Token) :
    reach offset (first ++ second) = reach (reach offset first) second := by
  induction first generalizing offset with
  | nil => rfl
  | cons token rest ih => exact ih _

/-- Tokens that are met on two ways, one after the other, can be parted. -/
theorem pieces_split {first second : List Piece}
    (met : List.Forall₂ Token.IsPiece tokens (first ++ second)) :
    ∃ front back, tokens = front ++ back ∧ List.Forall₂ Token.IsPiece front first ∧
      List.Forall₂ Token.IsPiece back second :=
  ⟨_, _, (List.take_append_drop first.length tokens).symm, List.forall₂_take_append _ _ _ met,
    List.forall₂_drop_append _ _ _ met⟩

/-- An atom stands where its token does. -/
theorem Form.atom_arranged (pieces : form.pieces = [.atom form])
    (met : List.Forall₂ Token.IsPiece tokens form.pieces) (follow : Follow offset tokens) :
    form.Arranged ∧ offset ≤ form.span.start ∧ form.span.Solid ∧
      form.span.stop = reach offset tokens := by
  rw [pieces] at met
  obtain ⟨token, rest, denotes, none, rfl⟩ := List.forall₂_cons_right_iff.mp met
  cases List.forall₂_nil_right_iff.mp none
  obtain ⟨place, noList⟩ := Token.Denotes.place denotes
  exact ⟨.atom noList, place ▸ follow.1, place ▸ follow.2.1, congrArg Span.stop place⟩

mutual

/-- A form stands where the tokens do that spell it. -/
theorem Form.arranged_of_follow : ∀ (form : Form) (tokens : List Token) (offset : Nat),
    List.Forall₂ Token.IsPiece tokens form.pieces -> Follow offset tokens ->
      form.Arranged ∧ offset ≤ form.span.start ∧ form.span.Solid ∧
        form.span.stop = reach offset tokens
  | .int .., _, _, met, follow | .str .., _, _, met, follow | .bool .., _, _, met, follow
  | .sym .., _, _, met, follow | .keyword .., _, _, met, follow => Form.atom_arranged rfl met follow
  | .list span items, tokens, offset, met, follow => by
    unfold Form.pieces at met
    obtain ⟨opening, rest, ⟨-, start⟩, metRest, rfl⟩ := List.forall₂_cons_right_iff.mp met
    obtain ⟨inner, last, rfl, metItems, metLast⟩ := pieces_split metRest
    obtain ⟨closing, _, ⟨-, stop⟩, none, rfl⟩ := List.forall₂_cons_right_iff.mp metLast
    cases List.forall₂_nil_right_iff.mp none
    obtain ⟨after, solid, later⟩ := follow
    obtain ⟨within, afterItems, solidEnd, -⟩ := Follow.append_iff.mp later
    obtain ⟨order, arranged⟩ := arrangedAll_of_follow items inner opening.span.stop metItems within
    have reaches := within.le_reach
    have whole : span.start < span.stop := by
      simp only [Span.Solid] at solid solidEnd
      omega
    refine ⟨.list order (fun item member => ?_) fun item member => (arranged item member).1,
      start ▸ after, whole, ?_⟩
    · obtain ⟨-, begins, ends⟩ := arranged item member
      simp only [Span.Solid] at solid solidEnd
      omega
    · rw [reach, reach_append]
      exact stop.symm

/-- Forms stand where the tokens do that spell them, one after another. -/
theorem arrangedAll_of_follow : ∀ (forms : List Form) (tokens : List Token) (offset : Nat),
    Spell tokens forms -> Follow offset tokens ->
      InOrder (forms.map Form.span) ∧ ∀ form ∈ forms, form.Arranged ∧
        offset ≤ form.span.start ∧ form.span.stop ≤ reach offset tokens
  | [], _, _, _, _ => ⟨.nil, nofun⟩
  | first :: rest, tokens, offset, spell, follow => by
    unfold Spell piecesOfAll at spell
    obtain ⟨front, back, rfl, met, metRest⟩ := pieces_split spell
    obtain ⟨ofFront, ofBack⟩ := Follow.append_iff.mp follow
    obtain ⟨arranged, begins, solid, ends⟩ := first.arranged_of_follow front offset met ofFront
    obtain ⟨order, others⟩ := arrangedAll_of_follow rest back _ metRest ofBack
    have reaches := ofFront.le_reach
    have reaches' := ofBack.le_reach
    refine ⟨List.pairwise_cons.mpr ⟨?_, order⟩,
      List.forall_mem_cons.mpr ⟨?_, fun form member => ?_⟩⟩
    · intro place member
      obtain ⟨form, listed, rfl⟩ := List.mem_map.mp member
      show first.span.stop ≤ form.span.start
      exact ends ▸ (others form listed).2.1
    · rw [reach_append]
      exact ⟨arranged, begins, ends ▸ reaches'⟩
    · obtain ⟨arranged', begins', ends'⟩ := others form member
      rw [reach_append]
      exact ⟨arranged', Nat.le_trans reaches begins', ends'⟩

end

end Traversal

/-! ## What can be read -/

section Decision

/-- Forms can be read from the tokens. -/
structure Readable (tokens : List Token) : Prop where
  noError : ∀ token ∈ tokens, token.kind ≠ .error
  ints : ∀ token ∈ tokens, token.kind = .int ->
    -2 ^ 63 ≤ Form.signedValue token.text ∧ Form.signedValue token.text < 2 ^ 63
  escapes : ∀ token ∈ tokens, token.kind = .str -> strayEscape? token.quoted = none
  balanced : Balanced tokens

/-- No token offends behind those before it. -/
def Inoffensive (tokens : List Token) : Prop :=
  ∀ before token after, tokens = before ++ token :: after -> token.offence? before = none

/-- What comes of reading the tokens. -/
inductive Reading (table : LineTable) (tokens : List Token) :
    Except ParseError (List Form) -> Prop where
  /-- All of them spell forms. -/
  | forms {forms : List Form} (readable : Readable tokens) (spell : Spell tokens forms)
      (order : InOrder (forms.map Form.span)) (arranged : ∀ form ∈ forms, form.Arranged) :
      Reading table tokens (.ok forms)
  /-- One offends, and it is the first. -/
  | offence {before after : List Token} {token : Token} {fault : ParseFault}
      (split : tokens = before ++ token :: after) (first : Inoffensive before)
      (offends : token.offence? before = some fault) :
      Reading table tokens (.error ⟨table.locate token.span, fault⟩)
  /-- None offends, but there are parentheses open at the end, of which this is the innermost. -/
  | unclosed {before after : List Token} {opening : Token} (inoffensive : Inoffensive tokens)
      (split : tokens = before ++ opening :: after) (isOpen : opening.kind = .openParen)
      (innermost : Balanced after) :
      Reading table tokens
        (.error ⟨table.locate opening.span, .unclosedParen (opens tokens - closes tokens)⟩)

/-! ## Offences -/

variable {tokens before : List Token} {token : Token}

/-- A token that does not offend has nothing wrong with it. -/
theorem Token.fault?_of_offence? (inoffensive : token.offence? before = none) :
    token.fault? = none := by
  unfold Token.offence? at inoffensive
  split at inoffensive
  · cases inoffensive
  · exact inoffensive

theorem Token.offence?_of_not_close (noClose : token.kind ≠ .closeParen) :
    token.offence? before = token.fault? :=
  if_neg fun close => noClose close.1

theorem Token.fault?_close (isClose : token.kind = .closeParen) : token.fault? = none := by
  simp [Token.fault?, isClose]

theorem Inoffensive.nil : Inoffensive [] := by
  intro before token after split
  cases before <;> cases split

/-- One more token that does not offend may come behind those that do not. -/
theorem Inoffensive.snoc (inoffensive : Inoffensive before)
    (last : token.offence? before = none) : Inoffensive (before ++ [token]) := by
  intro front other back split
  rcases List.eq_nil_or_concat back with rfl | ⟨more, final, rfl⟩
  · obtain ⟨rfl, same⟩ := List.append_inj' split rfl
    cases same
    exact last
  · have shape : before ++ [token] = (front ++ other :: more) ++ [final] := by simpa using split
    obtain ⟨rfl, -⟩ := List.append_inj' shape rfl
    exact inoffensive front other more rfl

/-- Tokens that do not offend and are balanced can be read. -/
theorem Inoffensive.readable (inoffensive : Inoffensive tokens) (balanced : Balanced tokens) :
    Readable tokens := by
  have faultless : ∀ token ∈ tokens, token.fault? = none := by
    intro token member
    obtain ⟨before, after, split⟩ := List.append_of_mem member
    exact Token.fault?_of_offence? (inoffensive before token after split)
  refine ⟨fun token member error => ?_, fun token member int => ?_, fun token member str => ?_,
    balanced⟩
  all_goals have none := faultless token member
  · simp [Token.fault?, error] at none
  · simpa [Token.fault?, int] using none
  · simpa [Token.fault?, str] using none

/-- Of tokens that can be read, none has anything wrong with it. -/
theorem Readable.fault? (readable : Readable tokens) (member : token ∈ tokens) :
    token.fault? = none := by
  have noError := readable.noError token member
  have int := readable.ints token member
  have str := readable.escapes token member
  unfold Token.fault?
  split
  · exact absurd (by assumption) noError
  · rename_i isInt
    exact if_pos (int isInt)
  · rename_i isStr
    rw [str isStr]
    rfl
  · rfl

/-- Where a parenthesis is closed, one is open. -/
theorem Readable.inoffensive (readable : Readable tokens) : Inoffensive tokens := by
  rintro before token after rfl
  have none : token.fault? = none := readable.fault? (by simp)
  unfold Token.offence?
  split
  · rename_i offends
    have ahead := readable.balanced.ahead (before ++ [token]) ⟨after, by simp⟩
    have isOpen : ¬token.kind = .openParen := by rw [offends.1]; nofun
    rw [opens_append, closes_append, opens_singleton, closes_singleton, if_pos offends.1,
      if_neg isOpen] at ahead
    omega
  · exact none

/-- All parentheses are closed. -/
theorem Readable.not_unclosed (readable : Readable tokens) {after : List Token}
    (split : tokens = before ++ token :: after) (isOpen : token.kind = .openParen)
    (balanced : Balanced after) : False := by
  subst split
  have total := readable.balanced.total
  have ahead := readable.balanced.ahead before (List.prefix_append _ _)
  have one : opens [token] = 1 ∧ closes [token] = 0 := by
    simp [opens_singleton, closes_singleton, isOpen]
  rw [← List.singleton_append, opens_append, closes_append, opens_append, closes_append, one.1,
    one.2, balanced.total] at total
  omega

/-! ## Reading -/

namespace Form

/-- What was met so far on the way through the toplevel forms and the open lists. -/
def piecesSoFar : List OpenList -> List Form -> List Piece
  | [], top => piecesOfAll top.reverse
  | inner :: outer, top =>
    piecesSoFar outer top ++ .opening inner.start :: piecesOfAll inner.items.reverse

/-- The open lists and the toplevel forms with one more form, in the innermost of them. -/
def addForm (form : Form) : List OpenList -> List Form -> List OpenList × List Form
  | [], top => ([], form :: top)
  | inner :: outer, top => (⟨inner.start, form :: inner.items⟩ :: outer, top)

variable {table : LineTable} {opened outer : List OpenList} {inner : OpenList} {top : List Form}

theorem readOn_eq (form : Form) (rest : List Token) : readOn table rest form opened top =
    readTokens table rest (addForm form opened top).1 (addForm form opened top).2 := by
  cases opened <;> rfl

theorem piecesSoFar_addForm (form : Form) :
    piecesSoFar (addForm form opened top).1 (addForm form opened top).2 =
      piecesSoFar opened top ++ form.pieces := by
  cases opened <;> simp [piecesSoFar, addForm, piecesOfAll_append, piecesOfAll_singleton]

variable {form : Form}

/-- A form changes nothing about which parentheses are open. -/
theorem leaveOpen_addForm (leave : LeaveOpen tokens opened) :
    LeaveOpen tokens (addForm form opened top).1 := by
  cases opened with
  | nil => exact leave
  | cons inner outer => exact leave.refill

/-- How far a reader has come. -/
structure Progress (before : List Token) (opened : List OpenList) (top : List Form) : Prop where
  inoffensive : Inoffensive before
  leave : LeaveOpen before opened
  met : List.Forall₂ Token.IsPiece before (piecesSoFar opened top)

theorem Progress.start : Progress [] [] [] := ⟨.nil, .nil, .nil⟩

/-- An atom is one more form. -/
theorem Progress.atom (progress : Progress before opened top)
    (right : token.fault? = none) (noOpen : token.kind ≠ .openParen)
    (noClose : token.kind ≠ .closeParen) (denotes : token.Denotes form)
    (noList : form.items? = none) :
    Progress (before ++ [token]) (addForm form opened top).1 (addForm form opened top).2 where
  inoffensive := progress.inoffensive.snoc ((Token.offence?_of_not_close noClose).trans right)
  leave := leaveOpen_addForm (progress.leave.append (.single noOpen noClose))
  met := by
    rw [piecesSoFar_addForm, pieces_atom noList]
    exact List.rel_append progress.met (.cons denotes .nil)

/-- An opening parenthesis begins a list. -/
theorem Progress.push (progress : Progress before opened top) (isOpen : token.kind = .openParen) :
    Progress (before ++ [token]) (⟨token.span.start, []⟩ :: opened) top where
  inoffensive := by
    refine progress.inoffensive.snoc ((Token.offence?_of_not_close (isOpen ▸ nofun)).trans ?_)
    simp [Token.fault?, isOpen]
  leave := progress.leave.push isOpen
  met := List.rel_append progress.met (.cons ⟨isOpen, rfl⟩ .nil)

/-- A closing parenthesis makes a form of the innermost list. -/
theorem Progress.pop (progress : Progress before (inner :: outer) top)
    (isClose : token.kind = .closeParen)
    (closed : form = .list ⟨inner.start, token.span.stop⟩ inner.items.reverse) :
    Progress (before ++ [token]) (addForm form outer top).1 (addForm form outer top).2 where
  inoffensive := by
    refine progress.inoffensive.snoc ?_
    have leave := progress.leave.opens_eq
    rw [List.length_cons] at leave
    rw [Token.offence?, if_neg (by omega), Token.fault?_close isClose]
  leave := leaveOpen_addForm (progress.leave.pop isClose)
  met := by
    have all := List.rel_append progress.met
      (show List.Forall₂ Token.IsPiece [token] [.closing token.span.stop] from
        .cons ⟨isClose, rfl⟩ .nil)
    rw [piecesSoFar_addForm, closed, pieces]
    simpa only [piecesSoFar, List.append_assoc, List.cons_append] using all

/-- A closing parenthesis where no list is open. -/
theorem Progress.unbalanced (progress : Progress before [] top)
    (isClose : token.kind = .closeParen) : token.offence? before = some .unbalanced := by
  have total : opens before = closes before + 0 := progress.leave.opens_eq
  exact if_pos ⟨isClose, Nat.le_of_eq total⟩

/-- After the last token. -/
theorem Progress.ends (progress : Progress tokens opened top) (follow : Follow 0 tokens) :
    Reading table tokens (readTokens table [] opened top) := by
  obtain ⟨inoffensive, leave, met⟩ := progress
  cases opened with
  | nil =>
    obtain ⟨order, arranged⟩ := arrangedAll_of_follow top.reverse tokens 0 met follow
    exact .forms (inoffensive.readable leave) met order fun form member => (arranged form member).1
  | cons inner outer =>
    have depth : outer.length + 1 = opens tokens - closes tokens := by
      rw [leave.opens_eq, List.length_cons]
      omega
    obtain ⟨before, opening, after, split, isOpen, start, balanced, -⟩ := leave
    have place : table.locate ⟨inner.start, inner.start + 1⟩ = table.locate opening.span := by
      simp only [LineTable.locate, start]
    rw [readTokens, place, depth]
    exact .unclosed inoffensive split isOpen balanced

/-- What comes of the remaining tokens, however far the reader has come. -/
theorem readTokens_reading (rest : List Token) : ∀ {before : List Token} {opened : List OpenList}
    {top : List Form}, Progress before opened top -> (∀ token ∈ rest, token.IsText) ->
      Follow 0 (before ++ rest) ->
        Reading table (before ++ rest) (readTokens table rest opened top) := by
  induction rest with
  | nil =>
    intro before opened top progress _ follow
    rw [List.append_nil] at follow ⊢
    exact progress.ends follow
  | cons token rest ih =>
    intro before opened top progress isText follow
    obtain ⟨ofToken, ofRest⟩ := List.forall_mem_cons.mp isText
    have shape : before ++ token :: rest = (before ++ [token]) ++ rest := by simp
    generalize ends : ofAtom token = result
    have reads := ends ▸ ofAtom_reads ofToken
    cases reads with
    | @fault fault wrong =>
      rw [readTokens_fault ends]
      refine .offence rfl progress.inoffensive ?_
      rw [Token.offence?_of_not_close fun isClose => ?_, wrong]
      cases wrong.symm.trans (Token.fault?_close isClose)
    | @atom form right noOpen noClose denotes noList =>
      rw [readTokens_atom ends, readOn_eq]
      rw [shape] at follow ⊢
      exact ih (progress.atom right noOpen noClose denotes noList) ofRest follow
    | paren right paren =>
      obtain ⟨kind, text, span⟩ := token
      rcases paren with isOpen | isClose
      · cases isOpen
        rw [readTokens_open]
        rw [shape] at follow ⊢
        exact ih (progress.push rfl) ofRest follow
      · cases isClose
        cases opened with
        | nil => exact .offence rfl progress.inoffensive (progress.unbalanced rfl)
        | cons inner outer =>
          rw [readTokens_close, readOn_eq]
          rw [shape] at follow ⊢
          exact ih (progress.pop rfl rfl) ofRest follow

theorem reading_ofSource (source : String) (path : Option String) :
    Reading (LineTable.ofSource source path) (tokenize source) (ofSource source path) :=
  readTokens_reading (tokenize source) .start (fun _ => Token.isText_of_mem)
    (tokensFrom_follow 0 source.toList)

/-- What comes of reading a source. It is read exactly if forms can be read from its tokens. -/
theorem ofSource_reading (source : String) (path : Option String) :
    Reading (LineTable.ofSource source path) (tokenize source) (ofSource source path) ∧
      ((∃ forms, ofSource source path = .ok forms) ↔ Readable (tokenize source)) := by
  have reading := reading_ofSource source path
  refine ⟨reading, ?_⟩
  generalize ofSource source path = result at reading
  cases reading with
  | forms readable => exact ⟨fun _ => readable, fun _ => ⟨_, rfl⟩⟩
  | offence split first offends =>
    refine ⟨nofun, fun readable => ?_⟩
    cases offends.symm.trans (readable.inoffensive _ _ _ split)
  | unclosed inoffensive split isOpen innermost =>
    exact ⟨nofun, fun readable => (readable.not_unclosed split isOpen innermost).elim⟩

end Form

end Decision

end Trampoline
