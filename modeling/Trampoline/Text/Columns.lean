import Trampoline.Text.CodePoints

/-!
# Columns of a text

How many columns a text without hidden characters takes on a line. That is the sum of the columns
of its characters, except where neighbours are drawn as one: an emoji with the modifier after it,
and some letters of three scripts. Whether a character is joined depends on what follows it, so a
text is measured from its end.
-/

namespace Trampoline

/-- What the start of a text offers to the character in front of it. -/
inductive Joint where
  | none
  /-- A modifier that sets the skin tone of an emoji. -/
  | skinTone
  /-- An Arabic alef in one of its forms. -/
  | alef
  /-- A Lisu tone letter that comes second. -/
  | secondTone
  /-- The Kirat Rai vowel sign E, which the other vowels are made with. -/
  | vowelE
  /-- The Kirat Rai vowel sign AI, or the two signs E that it is made of. -/
  | vowelAi
  deriving DecidableEq, Repr, Inhabited

/-- The forms of the Arabic letter alef. -/
def alefRanges : CodeRanges :=
  [(0x622, 0x623), (0x625, 0x625), (0x627, 0x627), (0x671, 0x673), (0x675, 0x675),
   (0x773, 0x774), (0x870, 0x882)]

/-- The forms of the Arabic letter lam. -/
def lamRanges : CodeRanges :=
  [(0x644, 0x644), (0x6B5, 0x6B8), (0x76A, 0x76A), (0x8A6, 0x8A6), (0x8C7, 0x8C7)]

/-- What a character offers by itself. -/
def Joint.ofCode (code : Nat) : Joint :=
  if 0x1F3FB ≤ code && code ≤ 0x1F3FF then .skinTone
  else if alefRanges.contains code then .alef
  else if code = 0xA4FC || code = 0xA4FD then .secondTone
  else if code = 0x16D67 then .vowelE
  else if code = 0x16D68 then .vowelAi
  else .none

/-- The number of columns that a visible character takes by itself. -/
def columnsOf (code : Nat) : Nat :=
  if code = 0x17D8 then 3
  else if narrowRanges.contains code then 0
  else if wideRanges.contains code then 2
  else 1

/-- The columns of the end of a text from some character on, and what it offers. -/
structure Measured where
  columns : Nat
  joint : Joint
  deriving DecidableEq, Repr

/-- Put a character in front that is drawn by itself. -/
def Measured.alone (code : Nat) (rest : Measured) : Measured :=
  ⟨columnsOf code + rest.columns, .ofCode code⟩

/-- Put a character in front. One that is joined to what follows takes no column of its own. -/
def Measured.cons (c : Char) (rest : Measured) : Measured :=
  let code := c.toNat
  let joined (joint : Joint) : Measured := ⟨rest.columns, joint⟩
  -- no character of the ASCII range is joined to another
  if code < 0x7F then ⟨1 + rest.columns, .none⟩
  else
    match rest.joint with
    | .none => rest.alone code
    | .skinTone => if modifiableRanges.contains code then joined .none else rest.alone code
    | .alef => if lamRanges.contains code then joined .none else rest.alone code
    | .secondTone => if 0xA4F8 ≤ code && code ≤ 0xA4FB then joined .none else rest.alone code
    | .vowelE =>
      if code = 0x16D63 || code = 0x16D69 then joined .none
      else if code = 0x16D67 then joined .vowelAi
      -- the signs AI and E are three signs E, the last two of which are joined
      else if code = 0x16D68 then ⟨1 + rest.columns, .vowelE⟩
      else rest.alone code
    | .vowelAi => if code = 0x16D63 then joined .none else rest.alone code

/-- The number of columns that a text of visible characters takes. -/
def displayWidth (text : String) : Nat :=
  (text.toList.foldr Measured.cons ⟨0, .none⟩).columns

end Trampoline
