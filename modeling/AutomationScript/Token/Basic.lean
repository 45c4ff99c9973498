import AutomationScript.Number.Text
import AutomationScript.Text.Lines

/-!
# Tokens

The tokens of a script and how diagnostics name them.  A line break ends a statement only where
the line is complete: not after a token that asks for more, and not before an operator that can
only continue what stands before it.
-/

namespace AutomationScript

inductive Token where
  | number (value : Number)
  | string (value : String)
  | on
  | off
  /-- An expression for the runtime, written in braces and kept as text without blanks around. -/
  | eval (text : String)
  | ident (name : String)
  | ifWord
  | thenWord
  | elseWord
  | endWord
  | andWord
  | orWord
  | notWord
  | whenWord
  | doWord
  | defWord
  | useWord
  | leftParen
  | rightParen
  | leftBracket
  | rightBracket
  | comma
  | dot
  | ellipsis
  | star
  | plus
  | minus
  | slash
  | lt
  | gt
  | le
  | ge
  | eqEq
  | ne
  | eq
  | newline
  | semicolon
  | eof
deriving DecidableEq, Repr, Inhabited

namespace Token

/-- How the token reads in a diagnostic. -/
def describe : Token → String
  | .number value => value.text
  | .string value => "\"" ++ value ++ "\""
  | .on => "ON"
  | .off => "OFF"
  | .eval text => "\x7b\x7b" ++ text ++ "\x7d\x7d"
  | .ident name => "'" ++ name ++ "'"
  | .ifWord => "'if'"
  | .thenWord => "'then'"
  | .elseWord => "'else'"
  | .endWord => "'end'"
  | .andWord => "'and'"
  | .orWord => "'or'"
  | .notWord => "'not'"
  | .whenWord => "'when'"
  | .doWord => "'do'"
  | .defWord => "'def'"
  | .useWord => "'use'"
  | .leftParen => "'('"
  | .rightParen => "')'"
  | .leftBracket => "'['"
  | .rightBracket => "']'"
  | .comma => "','"
  | .dot => "'.'"
  | .ellipsis => "'...'"
  | .star => "'*'"
  | .plus => "'+'"
  | .minus => "'-'"
  | .slash => "'/'"
  | .lt => "'<'"
  | .gt => "'>'"
  | .le => "'<='"
  | .ge => "'>='"
  | .eqEq => "'=='"
  | .ne => "'!='"
  | .eq => "'='"
  | .newline => "end of line"
  | .semicolon => "';'"
  | .eof => "end of input"

/-- Whether a line break after this token is no end of a statement: the token asks for more, or a
statement has just ended. -/
def asksForMore : Token → Bool
  | .plus | .minus | .star | .slash | .lt | .gt | .le | .ge | .eqEq | .ne | .andWord | .orWord
  | .notWord | .eq | .comma | .dot | .newline | .semicolon => true
  | _ => false

/-- Whether this token, at the start of a line, continues the line before.  A minus does not,
since it may be the sign of a number. -/
def continuesLine : Token → Bool
  | .plus | .star | .slash | .lt | .gt | .le | .ge | .eqEq | .ne | .andWord | .orWord => true
  | _ => false

/-- The keyword or switch that a word is, or else an identifier.  Keywords may be in any case;
the two switches are in capitals. -/
def ofWord (word : List Char) : Token :=
  match String.ofList word with
  | "ON" => .on
  | "OFF" => .off
  | name =>
    match String.ofList (word.map Char.toLower) with
    | "if" => .ifWord
    | "then" => .thenWord
    | "else" => .elseWord
    | "end" => .endWord
    | "and" => .andWord
    | "or" => .orWord
    | "not" => .notWord
    | "when" => .whenWord
    | "do" => .doWord
    | "def" => .defWord
    | "use" => .useWord
    | _ => .ident name

end Token

/-- A token and the bytes of the source that it was read from. -/
structure Lexeme where
  token : Token
  span : Span
deriving DecidableEq, Repr, Inhabited

end AutomationScript
