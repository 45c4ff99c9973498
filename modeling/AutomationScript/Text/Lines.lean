import AutomationScript.Text.Location

/-!
# Lines of a source text

Offsets into a source text count bytes of its UTF-8 form; diagnostics speak of lines and columns,
and columns count characters.  `LineTable` turns the one into the other.  Only a line feed ends a
line.  An offset past the end stands for the end of the text.
-/

namespace AutomationScript

/-- A half-open range of byte offsets. -/
structure Span where
  start : Nat
  stop : Nat
deriving DecidableEq, Repr, Inhabited

/-- The least span that covers both. -/
def Span.union (a b : Span) : Span where
  start := min a.start b.start
  stop := max a.stop b.stop

/-- The number of bytes that the characters take in UTF-8. -/
def byteSize : List Char → Nat
  | [] => 0
  | c :: rest => c.utf8Size + byteSize rest

/-- One line of a text: the offset of its first character, and its characters up to and with the
line feed that ends it. -/
structure Line where
  start : Nat
  chars : List Char
deriving Repr, Inhabited

/-- The lines of a text that starts at offset `start`.  The text after the last line feed is a
line of its own, even when it is empty. -/
def linesFrom (start : Nat) : List Char → List Line
  | [] => [⟨start, []⟩]
  | c :: rest =>
    if c = '\n' then
      ⟨start, [c]⟩ :: linesFrom (start + c.utf8Size) rest
    else
      match linesFrom (start + c.utf8Size) rest with
      | [] => [⟨start, [c]⟩]
      | line :: lines => ⟨start, c :: line.chars⟩ :: lines

/-- The lines of one source text, in order. -/
structure LineTable where
  lines : Array Line

namespace LineTable

def ofChars (chars : List Char) : LineTable :=
  ⟨(linesFrom 0 chars).toArray⟩

def ofText (text : String) : LineTable :=
  ofChars text.toList

/-- The offset at which line `index` starts. -/
def startOf (table : LineTable) (index : Nat) : Nat :=
  (table.lines[index]?.getD default).start

/-- Halves the range `low ≤ index < high` until one index is left: the last one whose line starts
at `offset` or before it, provided that line `low` does. -/
def search (table : LineTable) (offset low high : Nat) : Nat :=
  if low + 1 < high then
    let middle := (low + high) / 2
    if table.startOf middle ≤ offset then
      search table offset middle high
    else
      search table offset low middle
  else
    low
termination_by high - low

/-- The number of characters that take exactly `bytes` bytes at the front of `chars`, or all of
them if `chars` is shorter; `none` when the count of bytes ends inside a character. -/
def charsIn : (bytes : Nat) → (chars : List Char) → Option Nat
  | 0, _ => some 0
  | _ + 1, [] => some 0
  | bytes + 1, c :: rest =>
    if c.utf8Size ≤ bytes + 1 then
      (charsIn (bytes + 1 - c.utf8Size) rest).map (· + 1)
    else
      none

/-- The position of a byte offset.  An offset inside a character has no column of its own and is
shown at column one. -/
def position (table : LineTable) (offset : Nat) : Position :=
  let index := table.search offset 0 table.lines.size
  let line := table.lines[index]?.getD default
  { line := index + 1
    column := (charsIn (offset - line.start) line.chars).getD 0 + 1 }

/-- The location of a span. -/
def location (table : LineTable) (span : Span) : Location where
  start := table.position span.start
  stop := table.position span.stop

end LineTable

end AutomationScript
