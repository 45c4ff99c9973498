import AutomationScript.Diagnostic

/-!
# Reading tokens

The state of a reader is the rest of a token stream, in which the last token is the end of the
input and is never consumed.  A reader that fails says why and where, and leaves the stream at the
token at which it failed, so that reading can go on from there.
-/

namespace AutomationScript

/-- A token and where it stands. -/
structure PlacedToken where
  token : Token
  loc : Location
deriving DecidableEq, Repr, Inhabited

/-- The tokens of a source text with their places in it. -/
def placeTokens (table : LineTable) (lexemes : List Lexeme) : List PlacedToken :=
  lexemes.map fun lexeme => ⟨lexeme.token, table.location lexeme.span⟩

/-- Reads from a token stream. -/
abbrev Reader :=
  EStateM Diagnostic (List PlacedToken)

namespace Reader

/-- The first token of a stream. -/
def headToken (tokens : List PlacedToken) : Token :=
  match tokens with
  | [] => .eof
  | first :: _ => first.token

/-- The place of the first token of a stream. -/
def headLoc (tokens : List PlacedToken) : Location :=
  (tokens.head?.getD default).loc

/-- The stream after its first token; the last token stays. -/
def after : List PlacedToken → List PlacedToken
  | _ :: next :: rest => next :: rest
  | tokens => tokens

/-- The next token. -/
def peek : Reader Token :=
  headToken <$> get

/-- The token after the next one. -/
def peekSecond : Reader Token :=
  (fun tokens => headToken (tokens.drop 1)) <$> get

/-- The place of the next token. -/
def here : Reader Location :=
  headLoc <$> get

/-- Consumes the next token and gives its place. -/
def advance : Reader Location := do
  let loc ← here
  modify after
  return loc

def fail {α : Type} (error : GrammarError) (loc : Location) : Reader α :=
  throw ⟨.grammar error, some loc⟩

/-- Fails at the next token, which fits nowhere here. -/
def unexpected {α : Type} : Reader α := do
  fail (.unexpectedToken (← peek)) (← here)

/-- Consumes the wanted token and gives its place. -/
def expect (wanted : Token) : Reader Location := do
  let found ← peek
  if found = wanted then
    advance
  else
    fail (.expectedToken wanted found) (← here)

/-- Consumes an identifier. -/
def expectIdent : Reader (String × Location) := do
  match ← peek with
  | .ident name => return (name, ← advance)
  | found => fail (.expectedIdentifier found) (← here)

def isTerminator (token : Token) : Bool :=
  token = .newline ∨ token = .semicolon

/-- Consumes line ends and semicolons. -/
def skipTerminators : Reader Unit :=
  modify fun tokens => tokens.dropWhile fun placed => isTerminator placed.token

/-- Consumes the end of a statement.  A token that closes a block, or the end of the input, ends
a statement and is left for the block. -/
def expectTerminator : Reader Unit := do
  match ← peek with
  | .newline | .semicolon => discard advance
  | .eof | .endWord | .elseWord => pure ()
  | found => fail (.expectedTerminator found) (← here)

/-- Whether recovery stops at this token in any case. -/
def isStop (token : Token) : Bool :=
  isTerminator token ∨ token = .eof

/-- Consumes tokens up to the end of the statement or one of `closers`. -/
def skipTo (closers : List Token) : Reader Unit :=
  modify fun tokens => tokens.dropWhile fun placed =>
    !(isStop placed.token || closers.contains placed.token)

/-- Goes on after a broken statement: to the next one, or to one of `closers`. -/
def recover (closers : List Token) : Reader Unit := do
  skipTo closers
  skipTerminators

/-- Goes on after a broken head of a block: after `opener` if it is on the same line. -/
def recoverHead (opener : Token) : Reader Unit := do
  skipTo [opener]
  if (← peek) = opener then
    discard advance

end Reader

end AutomationScript
