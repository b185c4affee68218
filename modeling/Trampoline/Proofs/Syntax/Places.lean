import Trampoline.Proofs.Spelling.Forms

/-!
# Where forms stand

The tokens of a text follow each other, and none is empty. So every form that they spell takes some
place, and a list stands around its items.
-/

namespace Trampoline

/-- The first span lies inside of the second. -/
def Span.Within (inner outer : Span) : Prop := outer.start ≤ inner.start ∧ inner.stop ≤ outer.stop

instance (inner outer : Span) : Decidable (inner.Within outer) :=
  inferInstanceAs (Decidable (_ ∧ _))

/-- The span takes some place. -/
def Span.Solid (span : Span) : Prop := span.start < span.stop

instance (span : Span) : Decidable span.Solid := inferInstanceAs (Decidable (_ < _))

theorem Span.Within.refl (span : Span) : span.Within span := ⟨Nat.le_refl _, Nat.le_refl _⟩

theorem Span.Within.trans {inner middle outer : Span} (within : inner.Within middle)
    (within' : middle.Within outer) : inner.Within outer :=
  ⟨Nat.le_trans within'.1 within.1, Nat.le_trans within.2 within'.2⟩

/-- A span that takes some place is recorded. -/
theorem Span.Solid.isDummy {span : Span} (solid : span.Solid) : span.isDummy = false := by
  have later : span.stop ≠ 0 := Nat.ne_of_gt (Nat.zero_lt_of_lt solid)
  simp [Span.isDummy, later]

/-! ## Tokens -/

/-- The tokens follow each other from an offset on, and none is empty. -/
def Follow : (offset : Nat) -> List Token -> Prop
  | _, [] => True
  | offset, token :: rest => offset ≤ token.span.start ∧ token.span.Solid ∧
      Follow token.span.stop rest

theorem Follow.mono {offset earlier : Nat} {tokens : List Token} (follow : Follow offset tokens)
    (before : earlier ≤ offset) : Follow earlier tokens := by
  cases tokens with
  | nil => trivial
  | cons token rest => exact ⟨Nat.le_trans before follow.1, follow.2⟩

/-- A character takes some bytes. -/
theorem byteLength_pos (c : Char) (rest : List Char) : 0 < byteLength (c :: rest) :=
  Nat.lt_of_lt_of_le c.utf8Size_pos (Nat.le_add_right _ _)

/-- The tokens of a text follow each other from its offset on. -/
theorem tokensFrom_follow (offset : Nat) (text : List Char) :
    Follow offset (tokensFrom offset text) := by
  fun_induction tokensFrom offset text with
  | case1 => trivial
  | case2 offset c rest lexeme text stop later none ih => exact ih.mono (Nat.le_add_right _ _)
  | case3 offset c rest lexeme text stop later kind cut ih =>
    exact ⟨Nat.le_refl _, Nat.lt_add_of_pos_right (byteLength_pos c _), ih⟩

/-! ## Forms -/

/-- The form takes some place, and so do those in it; a list stands around its items. -/
inductive Form.Nested : Form -> Prop where
  | atom {form : Form} (noList : form.items? = none) (solid : form.span.Solid) : Nested form
  | list {span : Span} {items : List Form} (solid : span.Solid)
      (within : ∀ item ∈ items, item.span.Within span) (nested : ∀ item ∈ items, Nested item) :
      Nested (.list span items)

namespace Form

variable {table : LineTable}

variable {form : Form} {offset : Nat} {opened : List OpenList} {forms : List Form}

/-- A nested form takes some place. -/
theorem Nested.solid (nested : form.Nested) : form.span.Solid := by
  cases nested with
  | atom _ solid | list solid => exact solid

theorem Nested.items (nested : form.Nested) {items : List Form}
    (listed : form.items? = some items) :
    ∀ item ∈ items, item.span.Within form.span ∧ item.Nested := by
  cases nested with
  | atom noList => cases noList.symm.trans listed
  | list solid within nested =>
    cases listed
    exact fun item member => ⟨within item member, nested item member⟩

/-- The open lists end before an offset, each inside of the next. -/
def OpenBefore : (offset : Nat) -> List OpenList -> Prop
  | _, [] => True
  | offset, inner :: outer => inner.start < offset ∧
      (∀ item ∈ inner.items, item.Nested ∧ item.span.Within ⟨inner.start, offset⟩) ∧
        OpenBefore inner.start outer

theorem OpenBefore.mono {later : Nat}
    (before : OpenBefore offset opened) (after : offset ≤ later) : OpenBefore later opened := by
  cases opened with
  | nil => trivial
  | cons inner outer =>
    obtain ⟨start, items, outside⟩ := before
    refine ⟨Nat.lt_of_lt_of_le start after, fun item member => ?_, outside⟩
    obtain ⟨nested, within⟩ := items item member
    exact ⟨nested, within.1, Nat.le_trans within.2 after⟩

/-- One more item of the innermost list. -/
theorem OpenBefore.add {inner : OpenList} {outer : List OpenList}
    (before : OpenBefore offset (inner :: outer)) (nested : form.Nested)
    (after : inner.start ≤ form.span.start) (later : offset ≤ form.span.stop) :
    OpenBefore form.span.stop (⟨inner.start, form :: inner.items⟩ :: outer) := by
  obtain ⟨start, items, outside⟩ := before.mono later
  exact ⟨start, List.forall_mem_cons.mpr ⟨⟨nested, after, Nat.le_refl _⟩, items⟩, outside⟩

/-- An atom stands where its token does, and has no items. -/
theorem ofAtom_place {token : Token} (atom : ofAtom token = .ok (some form)) :
    form.span = token.span ∧ form.items? = none := by
  obtain ⟨kind, text, span⟩ := token
  cases kind with
  | int | str =>
    simp only [ofAtom] at atom
    split at atom <;> cases atom
    exact ⟨rfl, rfl⟩
  | openParen | closeParen | error => cases atom
  | «true» | «false» | keyword | ident =>
    cases atom
    exact ⟨rfl, rfl⟩

/-- Forms that are read from tokens that follow each other are nested. -/
theorem readTokens_nested {tokens : List Token} (follow : Follow offset tokens)
    {top : List Form} (before : OpenBefore offset opened) (nestedTop : ∀ form ∈ top, form.Nested)
    (reads : readTokens table tokens opened top = .ok forms) : ∀ form ∈ forms, form.Nested := by
  induction tokens generalizing offset opened top with
  | nil =>
    cases opened with
    | nil =>
      cases reads
      exact fun form member => nestedTop form (List.mem_reverse.mp member)
    | cons inner outer => cases reads
  | cons token tokens ih =>
    obtain ⟨start, solid, later⟩ := follow
    have goesOn {form : Form} {opened : List OpenList} {offset : Nat} (nested : form.Nested)
        (ends : form.span.stop = token.span.stop) (before : OpenBefore offset opened)
        (after : offset ≤ form.span.stop)
        (inside : ∀ inner ∈ opened.head?, inner.start ≤ form.span.start)
        (reads : readOn table tokens form opened top = .ok forms) :
        ∀ form ∈ forms, form.Nested := by
      cases opened with
      | nil => exact ih later (ends ▸ trivial) (List.forall_mem_cons.mpr ⟨nested, nestedTop⟩) reads
      | cons inner outer =>
        refine ih later ?_ nestedTop reads
        rw [← ends]
        exact before.add nested (inside inner rfl) after
    cases atom : ofAtom token with
    | error fault =>
      rw [readTokens_fault atom] at reads
      cases reads
    | ok form =>
      cases form with
      | some form =>
        rw [readTokens_atom atom] at reads
        obtain ⟨place, noList⟩ := ofAtom_place atom
        refine goesOn (.atom noList (place ▸ solid)) (congrArg Span.stop place) before ?_ ?_ reads
        · rw [place]
          exact Nat.le_trans start (Nat.le_of_lt solid)
        · cases opened with
          | nil => nofun
          | cons inner outer =>
            rintro _ ⟨⟩
            rw [place]
            exact Nat.le_trans (Nat.le_of_lt before.1) start
      | none =>
        obtain ⟨kind, text, span⟩ := token
        cases kind with
        | openParen =>
          rw [readTokens_open] at reads
          have opens : OpenBefore span.stop (⟨span.start, []⟩ :: opened) :=
            ⟨solid, nofun, before.mono start⟩
          exact ih later opens nestedTop reads
        | closeParen =>
          cases opened with
          | nil => cases reads
          | cons inner outer =>
            rw [readTokens_close] at reads
            obtain ⟨first, items, outside⟩ := before
            have starts : inner.start < span.start := Nat.lt_of_lt_of_le first start
            have whole : (⟨inner.start, span.stop⟩ : Span).Solid := Nat.lt_trans starts solid
            refine goesOn (.list whole (fun item member => ?_) fun item member => ?_) rfl outside
              (Nat.le_of_lt whole) ?_ reads
            · obtain ⟨-, within⟩ := items item (List.mem_reverse.mp member)
              exact ⟨within.1, Nat.le_trans within.2 (Nat.le_trans start (Nat.le_of_lt solid))⟩
            · exact (items item (List.mem_reverse.mp member)).1
            · cases outer with
              | nil => nofun
              | cons next outer =>
                rintro _ ⟨⟩
                exact Nat.le_of_lt outside.1
        | int | str =>
          simp only [ofAtom] at atom
          split at atom <;> cases atom
        | «true» | «false» | keyword | ident | error => cases atom

/-- The forms of a source text are nested. -/
theorem ofTokens_nested {source : String}
    (reads : ofTokens table (tokenize source) = .ok forms) : ∀ form ∈ forms, form.Nested :=
  readTokens_nested (tokensFrom_follow 0 source.toList) (show OpenBefore 0 [] from trivial)
    (fun _ member => absurd member List.not_mem_nil) reads

end Form

end Trampoline
