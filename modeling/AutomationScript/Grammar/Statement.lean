import AutomationScript.Grammar.Expression
import AutomationScript.Program.Stmt
import AutomationScript.Token.Stream

/-!
# The grammar of statements

A broken statement is reported and skipped, and reading goes on with the next one, so that a
script shows all its errors at once.  A block whose head is broken is still read up to its end,
and then dropped as a whole.

`parse` reads a script.  It gives the statements that could be read and the errors in the order in
which they were found.
-/

namespace AutomationScript

/-- The rest of the tokens and the errors reported so far. -/
structure Session where
  tokens : List PlacedToken
  errors : List Diagnostic

/-- Reads statements from a session. -/
abbrev Parser :=
  EStateM Diagnostic Session

namespace Parser

/-- Reads with a reader that reports no errors of its own. -/
def liftReader {α : Type} (reader : Reader α) : Parser α := fun session =>
  match reader session.tokens with
  | .ok value tokens => .ok value { session with tokens }
  | .error error tokens => .error error { session with tokens }

instance : MonadLift Reader Parser := ⟨liftReader⟩

/-- Adds an error to the report. -/
def report (error : Diagnostic) : Parser Unit :=
  modify fun session => { session with errors := session.errors ++ [error] }

/-- Reads with `parser`; a failure becomes a value, and the tokens stay where it happened. -/
def attempt {α : Type} (parser : Parser α) : Parser (Except Diagnostic α) := fun session =>
  match parser session with
  | .ok value session => .ok (.ok value) session
  | .error error session => .ok (.error error) session

/-- The number of errors reported so far. -/
def errorCount : Parser Nat :=
  (fun session => session.errors.length) <$> get

/-- Reads with `parser`; after a failure reports it and recovers, and nothing was read. -/
def orRecover {α : Type} (parser : Parser (List α)) (closers : List Token) : Parser (List α) := do
  match ← attempt parser with
  | .ok values => return values
  | .error error =>
    report error
    Reader.recover closers
    return []

end Parser

namespace Grammar

open AutomationScript.Reader AutomationScript.Parser

/-- `target = value`, with `if condition` after it if wanted. -/
def assignment : Reader Stmt := do
  let target ← target
  discard (expect .eq)
  let value ← expression
  let loc := target.loc.union value.loc
  let condition? ← (do
    if (← peek) = .ifWord then
      discard advance
      return some (← expression)
    else
      return none : Reader (Option Phrase))
  expectTerminator
  match condition? with
  | some condition =>
    return .assign target.expr value.expr (some condition.expr)
      (.located (loc.union condition.loc))
  | none => return .assign target.expr value.expr none (.located loc)

/-- `kind id`, with a count in parentheses after it if wanted. -/
def triggerArgument : Reader (TriggerArg × Location) := do
  let (kind, kindLoc) ← expectIdent
  let (id, idLoc) ← expectIdent
  let loc := kindLoc.union idLoc
  let argument (count : Option Expr) (loc : Location) : TriggerArg × Location :=
    (⟨⟨kind, some kindLoc⟩, ⟨id, some idLoc⟩, count, some loc⟩, loc)
  if (← peek) = .leftParen then
    discard advance
    match ← peek with
    | .number value =>
      let countLoc ← advance
      let closing ← expect .rightParen
      return argument (some (.number value (some countLoc))) (loc.union closing)
    | found => fail (.expectedNumber found) (← here)
  else
    return argument none loc

/-- `action when condition`. -/
def inlineTrigger : Reader Stmt := do
  let (action, actionLoc) ← triggerArgument
  discard (expect .whenWord)
  let (condition, conditionLoc) ← triggerArgument
  expectTerminator
  return .trigger condition [action] (.located (actionLoc.union conditionLoc))

/-- `use name`. -/
def useStatement : Reader Stmt := do
  let start ← advance
  let (name, loc) ← expectIdent
  expectTerminator
  return .use ⟨name, some loc⟩ (.located (start.union loc))

/-- The rest of a block whose head is broken, which is read and dropped. -/
def brokenBlock (body : Parser (List Stmt)) : Parser (List Stmt) := do
  discard body
  if (← peek) = .elseWord then
    discard (advance : Reader Location)
    discard body
  discard (expect .endWord : Reader Location)
  expectTerminator
  return []

/-- The part of a block after `else`: the first part is closed, and the negated condition opens
the second. -/
def elsePart (body : Parser (List Stmt)) (condition : Expr) : Parser (List Stmt) := do
  if (← peek) = .elseWord then
    let loc ← (advance : Reader Location)
    let negated := Expr.compound .not [condition] condition.loc
    let statements ← body
    return .closeBlock (.located loc) :: .openBlock negated (.located loc) :: statements
  else
    return []

/-- `if condition then statements else statements end`, where the `else` part may be missing. -/
def conditionBlock (body : Parser (List Stmt)) : Parser (List Stmt) := do
  let start ← (advance : Reader Location)
  let head ← attempt (do
    let condition ← expression
    discard (expect .thenWord)
    return condition : Reader Phrase)
  match head with
  | .error error =>
    report error
    recoverHead .thenWord
    brokenBlock body
  | .ok condition =>
    let opening := Stmt.openBlock condition.expr (.located (start.union condition.loc))
    let statements ← body
    let otherwise ← elsePart body condition.expr
    let loc ← (expect .endWord : Reader Location)
    expectTerminator
    return opening :: statements ++ otherwise ++ [.closeBlock (.located loc)]

/-- `def name = expression` or `def name do statements end`. -/
def definition (body : Parser (List Stmt)) : Parser Stmt := do
  let start ← (advance : Reader Location)
  let (name, nameLoc) ← (expectIdent : Reader (String × Location))
  let ident : Ident := ⟨name, some nameLoc⟩
  match ← (peek : Reader Token) with
  | .eq =>
    discard (advance : Reader Location)
    let value ← (expression : Reader Phrase)
    expectTerminator
    return .defineExpr ident value.expr (.located (start.union value.loc))
  | .doWord =>
    discard (advance : Reader Location)
    let statements ← body
    let closing ← (expect .endWord : Reader Location)
    expectTerminator
    return .defineBlock ident statements (.located (start.union closing))
  | found =>
    let loc ← (here : Reader Location)
    (fail (.expectedBody found) (nameLoc.union loc) : Reader Stmt)

/-- The actions of a trigger block, up to its end. -/
def triggerActions : (fuel : Nat) → Parser (List TriggerArg)
  | 0 => pure []
  | fuel + 1 => do
    skipTerminators
    match ← (peek : Reader Token) with
    | .endWord | .eof => return []
    | _ =>
      let action ← orRecover (do
        let (action, _) ← triggerArgument
        expectTerminator
        return [action] : Reader (List TriggerArg)) [.endWord]
      return action ++ (← triggerActions fuel)

/-- `when condition do actions end`.  A block with an error in it is dropped. -/
def triggerBlock : Parser (List Stmt) := do
  let before ← errorCount
  let start ← (advance : Reader Location)
  let head ← attempt (do
    let (condition, _) ← triggerArgument
    return (condition, ← expect .doWord) : Reader (TriggerArg × Location))
  match head with
  | .error error =>
    report error
    recoverHead .doWord
  | .ok _ => pure ()
  let actions ← triggerActions (← get).tokens.length
  let closing ← (expect .endWord : Reader Location)
  match head with
  | .error _ =>
    expectTerminator
    return []
  | .ok (condition, opening) =>
    if before < (← errorCount) then
      expectTerminator
      return []
    else if actions.isEmpty then
      (fail .noActions (opening.union closing) : Reader (List Stmt))
    else
      expectTerminator
      return [.trigger condition actions (.located (start.union closing))]

/-- A statement, which may stand for several.  Inside a block, read by `body`, a definition is
refused once it is read. -/
def statement (body : Parser (List Stmt)) (topLevel : Bool) : Parser (List Stmt) := do
  match ← (peek : Reader Token) with
  | .ifWord => conditionBlock body
  | .whenWord => triggerBlock
  | .defWord =>
    let start ← (here : Reader Location)
    let stmt ← definition body
    if topLevel then
      return [stmt]
    else
      (fail .nestedDefinition start : Reader (List Stmt))
  | .useWord => return [← (useStatement : Reader Stmt)]
  | .ident _ =>
    match ← (peekSecond : Reader Token) with
    | .ident _ => return [← (inlineTrigger : Reader Stmt)]
    | _ => return [← (assignment : Reader Stmt)]
  | _ => (unexpected : Reader (List Stmt))

/-- Whether a block ends before this token. -/
def closesBlock (token : Token) : Bool :=
  token = .endWord ∨ token = .elseWord ∨ token = .eof

/-- The statements of a block, up to the token that closes it. -/
def blockBody : (fuel : Nat) → Parser (List Stmt)
  | 0 => pure []
  | fuel + 1 => do
    skipTerminators
    if closesBlock (← (peek : Reader Token)) then
      return []
    else
      let first ← orRecover (statement (blockBody fuel) false) [.endWord, .elseWord]
      return first ++ (← blockBody fuel)

/-- The statements of a script, up to the end of the input. -/
def programBody (block : Parser (List Stmt)) : (fuel : Nat) → Parser (List Stmt)
  | 0 => pure []
  | fuel + 1 => do
    skipTerminators
    if (← (peek : Reader Token)) = .eof then
      return []
    else
      let first ← orRecover (statement block true) []
      return first ++ (← programBody block fuel)

/-- The statements of a token stream. -/
def program : Parser (List Stmt) := do
  let fuel := (← get).tokens.length
  programBody (blockBody fuel) fuel

end Grammar

/-- The statements and the errors of a token stream. -/
def parseTokens (tokens : List PlacedToken) : List Stmt × List Diagnostic :=
  match Grammar.program ⟨tokens, []⟩ with
  | .ok statements session => (statements, session.errors)
  | .error error session => ([], session.errors ++ [error])

/-- The statements and the errors of a script.  A script with faults in its characters has no
statements. -/
def parse (source : String) : List Stmt × List Diagnostic :=
  match tokenize source with
  | .error errors => ([], errors)
  | .ok lexemes => parseTokens (placeTokens (LineTable.ofText source) lexemes)

end AutomationScript
