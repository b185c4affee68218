import Trampoline.Proofs.Lexing.Patterns
import Trampoline.Proofs.Syntax.Places

/-!
# Tokens cover their source

Every source has a token stream, and nothing of the source is lost in it: each token stands where
its span says, as the longest match there, and between the tokens there is nothing but blanks and
comments.
-/

namespace Trampoline

/-- The piece stands in the source at the span, with `after` behind it. -/
def Stands (source : List Char) (span : Span) (piece after : List Char) : Prop :=
  ∃ before, source = before ++ (piece ++ after) ∧
    span = ⟨byteLength before, byteLength (before ++ piece)⟩

/-- Blanks and comments one after another, each as long as it can be before `after`. -/
inductive Spaced : (text after : List Char) -> Prop where
  | nil (after : List Char) : Spaced [] after
  | cons {piece more after : List Char} (blank : piece ∈ spacing)
      (longest : IsLongest piece (more ++ after)) (later : Spaced more after) :
      Spaced (piece ++ more) after

/-- What it takes to be a token of the kind with `after` behind it. -/
structure Scanned (kind : TokenKind) (piece after : List Char) : Prop where
  longest : kind ≠ .error -> piece ∈ kind.pattern ∧ IsLongest piece after
  int : piece ∈ TokenKind.int.pattern -> kind = .int
  error : kind = .error -> MatchesNowhere (piece ++ after)

/-- The spans between the tokens: before the first, between each two, and behind the last. -/
def gaps : (start : Nat) -> List Token -> (stop : Nat) -> List Span
  | start, [], stop => [⟨start, stop⟩]
  | start, token :: rest, stop => ⟨start, token.span.start⟩ :: gaps token.span.stop rest stop

/-- The tokens are those of the source, and all of it is in them or between them. -/
structure Covers (source : List Char) (tokens : List Token) : Prop where
  nonempty : ∀ token ∈ tokens, token.text ≠ ""
  ordered : tokens.Pairwise fun first second => first.span.stop ≤ second.span.start
  scanned : ∀ token ∈ tokens, ∃ after,
    Stands source token.span token.text.toList after ∧ Scanned token.kind token.text.toList after
  spaced : ∀ gap ∈ gaps 0 tokens (byteLength source), ∃ piece after,
    Stands source gap piece after ∧ Spaced piece after

/-! ## One lexeme -/

section Lexemes

variable {c : Char} {rest : List Char}

/-- A start of a text that a pattern matches is as the pattern says. -/
theorem matchesFrom_of_prefix {kind : Option TokenKind} {start : List Char}
    (matched : start ∈ pattern kind) (starts : start <+: c :: rest) :
    ∃ text, start = c :: text ∧ MatchesFrom c text kind ∧ text <+: rest := by
  cases start with
  | nil => exact absurd matched (nil_notMem_pattern kind)
  | cons d text =>
    obtain ⟨rfl, inside⟩ := List.cons_prefix_cons.mp starts
    exact ⟨text, rfl, (cons_mem_pattern kind).mp matched, inside⟩

/-- The lexeme at a place is the longest text that any pattern matches there. -/
theorem lexeme_isLongest : IsLongest (c :: rest.take (lexemeAt c rest).extra)
    (rest.drop (lexemeAt c rest).extra) := by
  intro kind start matched starts
  rw [List.cons_append, List.take_append_drop] at starts
  obtain ⟨text, rfl, matched', inside⟩ := matchesFrom_of_prefix matched starts
  rw [List.length_cons, List.length_cons, List.length_take,
    Nat.min_eq_left (lexemeAt_sound c rest).inside]
  exact Nat.succ_le_succ (lexemeAt_longest matched' inside).1

/-- The token at the start of a text is scanned there. -/
theorem lexeme_scanned {kind : TokenKind} (cut : (lexemeAt c rest).kind = some kind) :
    Scanned kind (c :: rest.take (lexemeAt c rest).extra)
      (rest.drop (lexemeAt c rest).extra) := by
  have sound := lexemeAt_sound c rest
  have nowhere (error : kind = .error) : MatchesNowhere (c :: rest) := by
    intro other start matched starts
    obtain ⟨text, -, matched', inside⟩ := matchesFrom_of_prefix matched starts
    exact (lexemeAt_longest matched' inside).2 (cut.trans (congrArg some error))
  refine ⟨fun noError => ⟨?_, lexeme_isLongest⟩, fun int => ?_, fun error => ?_⟩
  · refine (cons_mem_pattern (some kind)).mpr ?_
    rw [← cut]
    exact sound.matched fun error => noError (Option.some.inj (cut.symm.trans error))
  · have int' := lexemeAt_int ((cons_mem_pattern (some .int)).mp int)
    exact Option.some.inj (cut.symm.trans int')
  · rw [List.cons_append, List.take_append_drop]
    exact nowhere error

/-- A lexeme without a kind is what may stand between tokens. -/
theorem lexeme_spacing (between : (lexemeAt c rest).kind = none) :
    c :: rest.take (lexemeAt c rest).extra ∈ spacing := by
  refine (cons_mem_pattern none).mpr ?_
  rw [← between]
  exact (lexemeAt_sound c rest).matched (by simp [between])

end Lexemes

/-! ## All tokens -/

/-- The first gap begins where it is said to, and nothing else depends on that. -/
theorem gaps_cons (tokens : List Token) (stop : Nat) : ∃ first others, ∀ start,
    gaps start tokens stop = ⟨start, first⟩ :: others := by
  cases tokens with
  | nil => exact ⟨stop, [], fun _ => rfl⟩
  | cons token rest => exact ⟨_, _, fun _ => rfl⟩

/-- Tokens that follow each other are in order and do not overlap. -/
theorem Follow.ordered {offset : Nat} {tokens : List Token} (follow : Follow offset tokens) :
    (∀ token ∈ tokens, offset ≤ token.span.start) ∧
      tokens.Pairwise fun first second => first.span.stop ≤ second.span.start := by
  induction tokens generalizing offset with
  | nil => exact ⟨nofun, .nil⟩
  | cons token rest ih =>
    obtain ⟨start, solid, later⟩ := follow
    obtain ⟨after, pairwise⟩ := ih later
    refine ⟨List.forall_mem_cons.mpr ⟨start, fun other member => ?_⟩, .cons after pairwise⟩
    exact Nat.le_trans start (Nat.le_trans (Nat.le_of_lt solid) (after other member))

/-- Texts that end at one place in a source are the same. -/
theorem eq_of_byteLength {first second rest others : List Char}
    (source : first ++ rest = second ++ others) (length : byteLength first = byteLength second) :
    first = second ∧ rest = others := by
  induction first generalizing second with
  | nil =>
    cases second with
    | nil => exact ⟨rfl, source⟩
    | cons d second => exact absurd length (Nat.ne_of_lt (byteLength_pos d second))
  | cons c first ih =>
    cases second with
    | nil => exact absurd length.symm (Nat.ne_of_lt (byteLength_pos c first))
    | cons d second =>
      obtain ⟨rfl, others'⟩ := List.cons.inj source
      obtain ⟨rfl, rfl⟩ := ih others' (Nat.add_left_cancel length)
      exact ⟨rfl, rfl⟩

/-- What stands before a text ends where the text begins. -/
theorem byteLength_before {before text : List Char} {offset : Nat}
    (begins : byteLength before = offset) :
    byteLength (before ++ text) = offset + byteLength text := by
  rw [byteLength_append, begins]

/-- Each token of the text is not empty, stands in the source and is scanned there. -/
theorem tokensFrom_scanned (offset : Nat) (text : List Char) :
    ∀ before, byteLength before = offset -> ∀ token ∈ tokensFrom offset text,
      token.text ≠ "" ∧ ∃ after, Stands (before ++ text) token.span token.text.toList after ∧
        Scanned token.kind token.text.toList after := by
  fun_induction tokensFrom offset text with
  | case1 => exact fun _ _ _ member => absurd member List.not_mem_nil
  | case2 offset c rest lexeme text stop later none ih =>
    intro before begins
    have shape : before ++ c :: rest = (before ++ text) ++ rest.drop lexeme.extra := by
      simp [text]
    rw [shape]
    exact ih _ (byteLength_before begins)
  | case3 offset c rest lexeme text stop later kind cut ih =>
    intro before begins
    have shape : before ++ c :: rest = (before ++ text) ++ rest.drop lexeme.extra := by
      simp [text]
    refine List.forall_mem_cons.mpr ⟨⟨?_, rest.drop lexeme.extra, ?_, ?_⟩, ?_⟩
    · simp [text]
    · refine ⟨before, ?_, ?_⟩
      · rw [String.toList_ofList, shape, List.append_assoc]
      · rw [String.toList_ofList, byteLength_before begins, begins]
    · rw [String.toList_ofList]
      exact lexeme_scanned cut
    · rw [shape]
      exact ih _ (byteLength_before begins)

/-- Between the tokens of the text there is nothing but blanks and comments. -/
theorem tokensFrom_spaced (offset : Nat) (text : List Char) :
    ∀ before, byteLength before = offset ->
      ∀ gap ∈ gaps offset (tokensFrom offset text) (byteLength (before ++ text)),
        ∃ piece after, Stands (before ++ text) gap piece after ∧ Spaced piece after := by
  fun_induction tokensFrom offset text with
  | case1 offset =>
    intro before begins gap member
    rw [List.mem_singleton.mp member, List.append_nil, begins]
    refine ⟨[], [], ⟨before, by simp, by simp [begins]⟩, .nil []⟩
  | case2 offset c rest lexeme text stop later none ih =>
    intro before begins
    have shape : before ++ c :: rest = (before ++ text) ++ rest.drop lexeme.extra := by
      simp [text]
    obtain ⟨first, others, gaps⟩ := gaps_cons later (byteLength (before ++ c :: rest))
    have inner := ih _ (byteLength_before begins)
    rw [← shape, gaps] at inner
    obtain ⟨⟨piece, after, stands, spaced⟩, outer⟩ := List.forall_mem_cons.mp inner
    rw [gaps]
    refine List.forall_mem_cons.mpr ⟨?_, outer⟩
    -- the lexeme and the first gap behind it are one gap
    obtain ⟨front, source, place⟩ := stands
    obtain ⟨rfl, following⟩ := eq_of_byteLength (shape.symm.trans source)
      ((byteLength_before begins).trans (congrArg Span.start place))
    refine ⟨text ++ piece, after, ⟨before, ?_, ?_⟩, .cons (lexeme_spacing none) ?_ spaced⟩
    · rw [source, List.append_assoc, List.append_assoc]
    · rw [← List.append_assoc, begins, (Span.mk.injEq ..).mp place |>.2]
    · rw [← following]
      exact lexeme_isLongest
  | case3 offset c rest lexeme text stop later kind cut ih =>
    intro before begins
    have shape : before ++ c :: rest = (before ++ text) ++ rest.drop lexeme.extra := by
      simp [text]
    refine List.forall_mem_cons.mpr ⟨?_, ?_⟩
    · refine ⟨[], c :: rest, ⟨before, rfl, ?_⟩, .nil _⟩
      rw [List.append_nil, begins]
    · rw [shape]
      exact ih _ (byteLength_before begins)

/-- The tokens of a source cover it. -/
theorem tokenize_covers (source : String) : Covers source.toList (tokenize source) := by
  have follow := tokensFrom_follow 0 source.toList
  have scanned := tokensFrom_scanned 0 source.toList [] rfl
  refine ⟨fun token member => (scanned token member).1, follow.ordered.2,
    fun token member => (scanned token member).2, ?_⟩
  exact tokensFrom_spaced 0 source.toList [] rfl

end Trampoline
