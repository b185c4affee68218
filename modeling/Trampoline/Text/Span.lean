/-!
# Source positions

A span is a half-open range of byte offsets of a source text. A line table knows where the
newlines of a text are and turns an offset into a one-based line and column; columns count
bytes of the UTF-8 encoding.
-/

namespace Trampoline

/-- A half-open range of byte offsets in a source text. -/
structure Span where
  start : Nat
  stop : Nat
  deriving DecidableEq, Repr, Inhabited

namespace Span

/-- The span of nothing in particular. -/
def dummy : Span := ⟨0, 0⟩

/-- No token of a source is empty, so no part of a program has this span. -/
def isDummy (span : Span) : Bool :=
  span.start == 0 && span.stop == 0

/-- The least span that covers both. -/
def join (left right : Span) : Span :=
  ⟨min left.start right.start, max left.stop right.stop⟩

/-- The written form of a span, such as `3-7`. -/
def render (span : Span) : String :=
  toString span.start ++ "-" ++ toString span.stop

end Span

/-- A one-based line and column. -/
structure Cursor where
  line : Nat
  column : Nat
  deriving DecidableEq, Repr, Inhabited

/-- The written form of a cursor, such as `2:14`. -/
def Cursor.render (cursor : Cursor) : String :=
  toString cursor.line ++ ":" ++ toString cursor.column

/-- A place in a text, with the path of the text when it has one. -/
structure Location where
  path : Option String
  cursor : Cursor
  deriving DecidableEq, Repr, Inhabited

/-- The written form of a location: the cursor, after the path and a colon when there is one.
An empty path still leaves its colon. -/
def Location.render (location : Location) : String :=
  match location.path with
  | none => location.cursor.render
  | some path => path ++ ":" ++ location.cursor.render

/-- The number of bytes of a text given as characters. -/
def byteLength : List Char -> Nat
  | [] => 0
  | c :: rest => c.utf8Size + byteLength rest

/-- The byte offsets of the newlines of `text`, which itself starts at `offset`. -/
def newlineOffsets (offset : Nat) : List Char -> List Nat
  | [] => []
  | c :: rest =>
    let later := newlineOffsets (offset + c.utf8Size) rest
    if c = '\n' then offset :: later else later

/-- The offsets of the newlines of one text, in increasing order. -/
structure LineTable where
  newlines : List Nat
  path : Option String
  deriving Repr

namespace LineTable

/-- The line table of a whole source text. -/
def ofSource (source : String) (path : Option String) : LineTable :=
  ⟨newlineOffsets 0 source.toList, path⟩

/-- The cursor of a byte offset. A newline byte belongs to the line that it ends. -/
def cursor (table : LineTable) (offset : Nat) : Cursor :=
  let before := table.newlines.filter (· < offset)
  let lineStart := match before.getLast? with
    | none => 0
    | some newline => newline + 1
  ⟨before.length + 1, offset - lineStart + 1⟩

/-- The place where a span starts. -/
def locate (table : LineTable) (span : Span) : Location :=
  ⟨table.path, table.cursor span.start⟩

/-- The path of the text, empty if it has none. -/
def pathText (table : LineTable) : String :=
  table.path.getD ""

end LineTable

end Trampoline
