import Mathlib.Data.List.Forall2
import Trampoline.Layout.Doc
import Trampoline.Proofs.Spelling.Contents

/-!
# The tokens of laid-out documents

A document can be laid out in many ways: each of its lines is a blank, or a newline with some
indentation. Rendering chooses one of them for a width. A document yields tokens if every way to lay
it out has these tokens, so that no choice matters.
-/

namespace Trampoline

/-! ## Layouts -/

/-- The document can be laid out as the text. -/
inductive Doc.LaidOut : Doc -> List Char -> Prop where
  | nil : LaidOut .nil []
  | text (content : String) : LaidOut (.text content) content.toList
  | blank : LaidOut .line [' ']
  | break (indent : Nat) : LaidOut .line ('\n' :: List.replicate indent ' ')
  | append {first second left right} : LaidOut first left -> LaidOut second right ->
      LaidOut (.append first second) (left ++ right)
  | nest {amount inner out} : LaidOut inner out -> LaidOut (.nest amount inner) out
  | group {inner out} : LaidOut inner out -> LaidOut (.group inner) out

namespace Doc

variable {first second inner : Doc} {out : List Char}

/-- A text is laid out as itself. -/
theorem laidOut_text {content : String} : (text content).LaidOut out ↔ out = content.toList := by
  constructor
  · rintro ⟨⟩
    rfl
  · rintro rfl
    exact .text content

/-- Documents one after the other are laid out one after the other. -/
theorem laidOut_append : (first ++ second).LaidOut out ↔
    ∃ left right, first.LaidOut left ∧ second.LaidOut right ∧ out = left ++ right := by
  constructor
  · intro laidOut
    cases laidOut with
    | append ofFirst ofSecond => exact ⟨_, _, ofFirst, ofSecond, rfl⟩
  · rintro ⟨_, _, ofFirst, ofSecond, rfl⟩
    exact .append ofFirst ofSecond

/-- Indentation says where lines may break to, and nothing about what may be laid out. -/
theorem laidOut_nest {amount : Nat} : (nest amount inner).LaidOut out ↔ inner.LaidOut out := by
  constructor
  · rintro ⟨⟩
    assumption
  · exact .nest

/-- A group only restricts which layouts are chosen. -/
theorem laidOut_group : (group inner).LaidOut out ↔ inner.LaidOut out := by
  constructor
  · rintro ⟨⟩
    assumption
  · exact .group

/-- Laying a document out on one line is a layout of it. -/
theorem flat_laidOut (doc : Doc) : doc.LaidOut doc.flat.toList := by
  induction doc with
  | nil => exact .nil
  | text content => exact .text content
  | line => exact .blank
  | append first second ofFirst ofSecond =>
    rw [flat, String.toList_append]
    exact .append ofFirst ofSecond
  | nest amount inner ih => exact .nest ih
  | group inner ih => exact .group ih

/-- Padding a text appends as many copies of the character. -/
theorem toList_pushn (text : String) (c : Char) (count : Nat) :
    (text.pushn c count).toList = text.toList ++ List.replicate count c := by
  induction count with
  | zero => simp [String.pushn, Nat.repeat]
  | succ count ih =>
    show ((text.pushn c count).push c).toList = _
    rw [String.toList_push, ih, List.replicate_succ', List.append_assoc]

/-- What rendering places is a layout of the document, for every width and position. -/
theorem place_laidOut (width : Nat) (doc : Doc) : ∀ indent next after column,
    doc.LaidOut (place width indent next after column doc).text.toList := by
  induction doc with
  | nil => exact fun _ _ _ _ => .nil
  | text content => exact fun _ _ _ _ => .text content
  | line =>
    intro _ next _ _
    have spaces : ("\n" ++ "".pushn ' ' next).toList = '\n' :: List.replicate next ' ' := by
      simp [toList_pushn]
    rw [place, spaces]
    exact .break next
  | append first second ofFirst ofSecond =>
    intro indent next after column
    rw [place, String.toList_append]
    exact .append (ofFirst ..) (ofSecond ..)
  | nest amount inner ih => exact fun _ _ _ _ => .nest (ih ..)
  | group inner ih =>
    intro indent next after column
    rw [place]
    split
    · exact .group (flat_laidOut inner)
    · exact .group (ih ..)

/-- Rendering lays a document out. -/
theorem render_laidOut (width : Nat) (doc : Doc) : doc.LaidOut (doc.render width).toList :=
  place_laidOut width doc 0 0 0 0

end Doc

/-! ## Tokens -/

namespace Doc

/-- However the document is laid out, it has these tokens. -/
def YieldsTokens (doc : Doc) (found : List (TokenKind × String)) : Prop :=
  ∀ out, doc.LaidOut out -> Trampoline.YieldsTokens out found

variable {found : List (TokenKind × String)} {out : List Char} {docs : List Doc}
  {items : List Spelling} {head : Doc}

theorem text_yields {content : String} (yields : Trampoline.YieldsTokens content.toList found) :
    (text content).YieldsTokens found := by
  rintro _ ⟨⟩
  exact yields

/-- A line is all blank. -/
theorem LaidOut.line (laidOut : Doc.line.LaidOut out) :
    ∃ c blanks, out = c :: blanks ∧ ∀ c ∈ out, isBlank c = true := by
  cases laidOut with
  | blank => exact ⟨' ', [], rfl, List.forall_mem_singleton.mpr (by decide)⟩
  | «break» indent =>
    refine ⟨'\n', List.replicate indent ' ', rfl, List.forall_mem_cons.mpr ⟨by decide, ?_⟩⟩
    intro c member
    rw [List.eq_of_mem_replicate member]
    decide

/-- However a line is laid out, it ends the token before it. -/
theorem delimits_line (laidOut : Doc.line.LaidOut out) (rest : List Char) :
    Delimits (out ++ rest) := by
  obtain ⟨c, blanks, rfl, blank⟩ := laidOut.line
  refine delimits_cons ?_ _
  rw [← Bool.not_eq_true]
  intro part
  cases (isIdentPart_wordy part).noBlank.symm.trans (blank c List.mem_cons_self)

/-- Each document yields the tokens of a spelling. -/
def YieldAll (docs : List Doc) (items : List Spelling) : Prop :=
  List.Forall₂ (fun doc s => doc.YieldsTokens s.contents) docs items

/-- Documents on lines of their own, after a line, yield what they yield each. -/
theorem YieldAll.lines (yields : YieldAll docs items)
    (some : docs ≠ []) : (line ++ lines docs).YieldsTokens (contentsOfAll items) := by
  induction yields with
  | nil => exact absurd rfl some
  | @cons doc s docs items ofFirst ofRest ih =>
    intro out laidOut rest delimits
    obtain ⟨blanks, texts, ofLine, ofLines, rfl⟩ := laidOut_append.mp laidOut
    obtain ⟨c, more, -, blank⟩ := ofLine.line
    rw [List.append_assoc, contents_blanks blank]
    cases docs with
    | nil =>
      cases ofRest
      rw [contentsOfAll_singleton]
      exact ofFirst texts ofLines rest delimits
    | cons next docs =>
      obtain ⟨left, others, ofBoth, ofOthers, rfl⟩ := laidOut_append.mp ofLines
      obtain ⟨text, blanks, ofDoc, ofNext, rfl⟩ := laidOut_append.mp ofBoth
      have after := ih (List.cons_ne_nil next docs) _ (.append ofNext ofOthers) rest delimits
      rw [List.append_assoc] at after
      rw [contentsOfAll, List.append_assoc, List.append_assoc,
        ofFirst text ofDoc _ (delimits_line ofNext _), after, List.append_assoc]

/-- In parentheses, after a head, stands what starts with a line. -/
theorem yields_between {tail : Doc} {others : List (TokenKind × String)}
    (ofHead : head.YieldsTokens found) (ofTail : tail.YieldsTokens others)
    (starts : ∀ out, tail.LaidOut out -> ∀ rest, Delimits (out ++ rest)) :
    (group (text "(" ++ head ++ nest 2 tail ++ text ")")).YieldsTokens
      ((.openParen, "(") :: (found ++ others ++ [(.closeParen, ")")])) := by
  intro out laidOut
  obtain ⟨front, last, ofFront, ofLast, rfl⟩ := laidOut_append.mp (laidOut_group.mp laidOut)
  obtain ⟨start, tailOut, ofStart, tailLaidOut, rfl⟩ := laidOut_append.mp ofFront
  obtain ⟨opens, headOut, ofOpen, headLaidOut, rfl⟩ := laidOut_append.mp ofStart
  have tailLaidOut := laidOut_nest.mp tailLaidOut
  obtain rfl := laidOut_text.mp ofOpen
  obtain rfl := laidOut_text.mp ofLast
  have inside : Trampoline.YieldsTokens (headOut ++ tailOut) (found ++ others) :=
    (ofHead _ headLaidOut).append (ofTail _ tailLaidOut) fun rest _ => starts _ tailLaidOut rest
  have shape : "(".toList ++ headOut ++ tailOut ++ ")".toList =
      '(' :: (headOut ++ tailOut ++ [')']) := by
    simp
  rw [shape]
  exact inside.parens

/-- A parenthesized group yields the tokens of its head and its items in parentheses. -/
theorem parens_yields (ofHead : head.YieldsTokens found) (ofItems : YieldAll docs items) :
    (parens head docs).YieldsTokens
      ((.openParen, "(") :: (found ++ contentsOfAll items ++ [(.closeParen, ")")])) := by
  cases docs with
  | nil =>
    cases ofItems
    have nothing : line.YieldsTokens [] := by
      intro out ofLine rest _
      obtain ⟨c, more, -, blank⟩ := ofLine.line
      exact contents_blanks blank rest
    exact yields_between ofHead nothing fun _ ofLine => delimits_line ofLine
  | cons doc docs =>
    refine yields_between ofHead
      (ofItems.lines (List.cons_ne_nil doc docs)) fun out ofTail rest => ?_
    obtain ⟨blanks, texts, ofLine, -, rfl⟩ := laidOut_append.mp ofTail
    rw [List.append_assoc]
    exact delimits_line ofLine _

end Doc

end Trampoline
