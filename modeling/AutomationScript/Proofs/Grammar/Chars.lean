import AutomationScript.Grammar.Statement
import AutomationScript.Proofs.Text.Positions

/-!
# Scripts as lists of characters

Parsing looks at the characters of a script only.
-/

namespace AutomationScript

def parseChars (chars : List Char) : List Stmt × List Diagnostic :=
  let table := LineTable.ofChars chars
  let placed := pieces 0 chars
  match faultsOf placed with
  | [] => parseTokens (placeTokens table (streamOf (byteSize chars) placed))
  | faults => ([], faults.map fun (error, span) => ⟨.lexical error, some (table.location span)⟩)

theorem parse_eq_parseChars (source : String) : parse source = parseChars source.toList := by
  simp only [parse, tokenize, parseChars, LineTable.ofText, utf8ByteSize_eq]
  cases faultsOf (pieces 0 source.toList) <;> rfl

end AutomationScript
