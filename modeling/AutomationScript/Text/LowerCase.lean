import AutomationScript.Text.CaseData

/-!
# Lower case

The lower-case form of a text by the rules of Unicode: character by character, except that a
capital I with a dot becomes two characters, and that a capital sigma at the end of a word becomes
a final sigma.
-/

namespace AutomationScript

/-- The lower-case form of a single character, where that is a single character. -/
def lowerCaseChar (c : Char) : Char :=
  let code := c.toNat
  let range? := lowerCaseRanges.find? fun (first, last, step, _) =>
    first ≤ code && code ≤ last && (code - first) % step == 0
  match range? with
  | some (_, _, _, shift) => Char.ofNat ((code : Int) + shift).toNat
  | none => c

private def inRanges (ranges : List (Nat × Nat)) (c : Char) : Bool :=
  ranges.any fun (first, last) => first ≤ c.toNat && c.toNat ≤ last

/-- Whether a character has case and is not skipped next to a sigma. -/
def isCased (c : Char) : Bool :=
  inRanges casedRanges c

/-- Whether a character is skipped next to a sigma. -/
def isCaseIgnorable (c : Char) : Bool :=
  inRanges caseIgnorableRanges c

/-- Whether the first character that is not skipped has case. -/
def startsCased (chars : List Char) : Bool :=
  match chars.dropWhile isCaseIgnorable with
  | c :: _ => isCased c
  | [] => false

/-- The lower-case form of `chars`, where `before` are the characters before them, the nearest
first. -/
def lowerCaseAfter (before : List Char) : List Char → List Char
  | [] => []
  | c :: rest =>
    let lower :=
      if c = 'Σ' then
        if startsCased before && !startsCased rest then ['ς'] else ['σ']
      else if c = 'İ' then
        ['i', '̇']
      else
        [lowerCaseChar c]
    lower ++ lowerCaseAfter (c :: before) rest

/-- The text in lower case. -/
def lowerCase (text : String) : String :=
  String.ofList (lowerCaseAfter [] text.toList)

end AutomationScript
