import AutomationScript.Operator
import AutomationScript.Text.Location
import AutomationScript.Token.Basic

/-!
# Diagnostics

Everything a script can be refused for, each with its message and the place it is about.  The
first three types list the causes: characters that form no token, tokens that form no statement,
and statements that mean nothing with the registry at hand.
-/

namespace AutomationScript

/-- Why characters form no token. -/
inductive LexicalError where
  | loneBang
  | unterminatedEval
  | unterminatedString
  | unexpectedCharacter (c : Char)
deriving DecidableEq, Repr

def LexicalError.message : LexicalError → String
  | .loneBang => "Expected '!=' (use 'not' for negation)"
  | .unterminatedEval => "Unterminated inline expression"
  | .unterminatedString => "Unterminated string literal"
  | .unexpectedCharacter c => "Unexpected character: '" ++ c.toString ++ "'"

/-- Why tokens form no statement. -/
inductive GrammarError where
  | unexpectedToken (found : Token)
  | expectedToken (wanted found : Token)
  | expectedIdentifier (found : Token)
  | expectedTerminator (found : Token)
  | expectedNumber (found : Token)
  | expectedBody (found : Token)
  | emptyList
  | mixedSeparators
  | nestedDefinition
  | noActions
deriving DecidableEq, Repr

def GrammarError.message : GrammarError → String
  | .unexpectedToken found => "Unexpected token " ++ found.describe
  | .expectedToken wanted found => "Expected " ++ wanted.describe ++ ", got " ++ found.describe
  | .expectedIdentifier found => "Expected identifier, got " ++ found.describe
  | .expectedTerminator found => "Expected end of statement, got " ++ found.describe
  | .expectedNumber found => "Expected number, got " ++ found.describe
  | .expectedBody found => "Expected '=' or 'do' after macro name, got " ++ found.describe
  | .emptyList => "Empty list"
  | .mixedSeparators => "Cannot mix 'and' and 'or' in one list"
  | .nestedDefinition => "Macros can only be defined at the top level"
  | .noActions => "Trigger block has no actions"

/-- Why statements mean nothing with the registry at hand. -/
inductive SemanticError where
  | alreadyDefined (name : String)
  | shadowsBuiltin (name : String)
  | circularUse (name : String)
  | unknownDefinition (name : String)
  | usedAsStatement (name : String)
  | usedAsExpression (name : String)
  | wildcardWithoutFamily
  | severalFolds
  | listOutsideKey
  | ambiguousFold
  | emptyFold
  | invalidSettingElement
  | mixedSettingTypes
  | placeholderWithoutKey
  | unexpectedIdentifier (name : String)
  | unknownIdentifier
  | identifierExpected
  | invalidValue (name noun : String)
  | invalidSetting (name : String)
  | invalidFamily (name : String)
  | invalidMember (member noun family : String)
  | triggerInBlock
  | typeMismatch (expected actual : String)
  | unknownCondition (kind : String)
  | unknownAction (kind : String)
  | unknownTriggerId (noun id : String)
  | fractionalCount
  | countOutOfRange
deriving DecidableEq, Repr

private def quoted (name : String) : String :=
  "'" ++ name ++ "'"

def SemanticError.message : SemanticError → String
  | .alreadyDefined name => "Macro " ++ quoted name ++ " is already defined"
  | .shadowsBuiltin name => "Macro " ++ quoted name ++ " shadows a built-in identifier"
  | .circularUse name => "Circular use of macro " ++ quoted name
  | .unknownDefinition name => "Unknown macro " ++ quoted name
  | .usedAsStatement name => quoted name ++ " is an expression macro"
  | .usedAsExpression name => quoted name ++ " is a statement macro"
  | .wildcardWithoutFamily => "Wildcards are only supported for setting prefixes"
  | .severalFolds => "Only one fold subexpression is allowed"
  | .listOutsideKey => "Lists are only allowed as subscript keys"
  | .ambiguousFold => "Ambiguous fold expression: use 'and' or 'or' instead of the last comma"
  | .emptyFold => "Empty list"
  | .invalidSettingElement => "Invalid setting"
  | .mixedSettingTypes => "Only settings of the same type are allowed to be in the same list"
  | .placeholderWithoutKey => "Placeholder used without the context to resolve it"
  | .unexpectedIdentifier name => "Unexpected identifier " ++ quoted name
  | .unknownIdentifier => "Unknown identifier"
  | .identifierExpected => "Identifier expected"
  | .invalidValue name noun => quoted name ++ " is not a valid " ++ noun
  | .invalidSetting name => quoted name ++ " is not a valid setting"
  | .invalidFamily name => quoted name ++ " is not a valid setting prefix"
  | .invalidMember member noun family =>
    quoted member ++ " is not a valid " ++ noun ++ " for " ++ family
  | .triggerInBlock => "Triggers are not allowed inside condition blocks"
  | .typeMismatch expected actual => "Expected " ++ expected ++ ", got " ++ actual
  | .unknownCondition kind => "Unknown trigger condition " ++ quoted kind
  | .unknownAction kind => "Unknown trigger action " ++ quoted kind
  | .unknownTriggerId noun id => "Unknown " ++ noun ++ " " ++ quoted id
  | .fractionalCount => "Expected integer, got float"
  | .countOutOfRange => "Count is out of range"

/-- The cause of a diagnostic, by the part of the compiler that finds it. -/
inductive Cause where
  | lexical (error : LexicalError)
  | grammar (error : GrammarError)
  | semantic (error : SemanticError)
deriving DecidableEq, Repr

namespace Cause

def message : Cause → String
  | .lexical error => error.message
  | .grammar error => error.message
  | .semantic error => error.message

/-- The name under which diagnostics of this sort are shown. -/
def kind : Cause → String
  | .lexical _ => "lexer"
  | .grammar _ => "parser"
  | .semantic _ => "semantic"

/-- Whether the script could not even be read. -/
def isSyntactic : Cause → Bool
  | .semantic _ => false
  | _ => true

end Cause

/-- A reason to refuse a script, and where in the script it is found. -/
structure Diagnostic where
  cause : Cause
  location : Option Location
deriving DecidableEq, Repr

namespace Diagnostic

def message (d : Diagnostic) : String :=
  d.cause.message

/-- The diagnostic on one line, with the position at which it starts. -/
def render (d : Diagnostic) : String :=
  let tag := "[" ++ d.cause.kind ++ "] "
  match d.location with
  | some location =>
    tag ++ "line " ++ integerText location.start.line ++ ":" ++
      integerText location.start.column ++ ": " ++ d.message
  | none => tag ++ d.message

end Diagnostic

end AutomationScript
