import AutomationScript.Token.Scanner

/-!
# Token streams

The tokens of a source text with the ends of statements marked.  A line break becomes a `newline`
token where a statement can end: outside brackets, after some token, and not after one that asks
for more.  An operator at the start of the next line takes the mark back, and so does the end of
the text.  Closing brackets without a partner do not count.

`tokenize` gives the stream, or every fault of the text in the order of the text.
-/

namespace AutomationScript

/-- Tokens collected so far, the last one first, and the count of open brackets. -/
structure StreamState where
  depth : Nat
  collected : List Lexeme

namespace StreamState

/-- The bracket depth after a token. -/
def depthAfter (depth : Nat) : Token → Nat
  | .leftParen | .leftBracket => depth + 1
  | .rightParen | .rightBracket => depth - 1
  | _ => depth

/-- The tokens without a `newline` at the end. -/
def dropNewline : List Lexeme → List Lexeme
  | last :: before => if last.token = .newline then before else last :: before
  | [] => []

/-- Whether a line break at this point ends a statement. -/
def endsStatement (state : StreamState) : Bool :=
  match state.collected with
  | last :: _ => state.depth == 0 && !last.token.asksForMore
  | [] => false

/-- Takes in the next piece of the source. -/
def step (state : StreamState) (placed : PlacedPiece) : StreamState :=
  match placed.piece with
  | .gap | .fault _ => state
  | .lineBreak =>
    if state.endsStatement then
      { state with collected := ⟨.newline, placed.span⟩ :: state.collected }
    else
      state
  | .token token =>
    let before := if token.continuesLine then dropNewline state.collected else state.collected
    { depth := depthAfter state.depth token
      collected := ⟨token, placed.span⟩ :: before }

end StreamState

/-- The token stream of the pieces of a text of `size` bytes. -/
def streamOf (size : Nat) (placed : List PlacedPiece) : List Lexeme :=
  let final := placed.foldl StreamState.step ⟨0, []⟩
  (⟨.eof, ⟨size, size⟩⟩ :: StreamState.dropNewline final.collected).reverse

/-- The stretches of source that form no token, with the reason. -/
def faultsOf (placed : List PlacedPiece) : List (LexicalError × Span) :=
  placed.filterMap fun p =>
    match p.piece with
    | .fault error => some (error, p.span)
    | _ => none

/-- The token stream of a source text, or its faults. -/
def tokenize (source : String) : Except (List Diagnostic) (List Lexeme) :=
  let placed := pieces 0 source.toList
  match faultsOf placed with
  | [] => .ok (streamOf source.utf8ByteSize placed)
  | faults =>
    let table := LineTable.ofText source
    .error (faults.map fun (error, span) => ⟨.lexical error, some (table.location span)⟩)

end AutomationScript
