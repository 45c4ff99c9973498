import AutomationScript.Grammar.Cursor
import AutomationScript.Proofs.Number.Sign
import AutomationScript.Token.Stream

/-!
# Identifiers and numbers in token streams

Every identifier token of a script carries a name that the scanner reads as one word and as no
keyword, and every number token a number without a sign.
-/

namespace AutomationScript

open List

/-- Whether a name is read as one identifier. -/
def isIdentifier (name : String) : Bool :=
  match name.toList with
  | [] => false
  | c :: rest =>
    Scanner.isWordStart c && (Scanner.splitWord (c :: rest)).2.isEmpty &&
      Token.ofWord (c :: rest) == .ident name

/-- An identifier token carries an identifier, and a number token a number without a sign. -/
def Token.Named : Token → Prop
  | .ident name => isIdentifier name = true
  | .number value => value.isNegative = false
  | _ => True

def Piece.Named : Piece → Prop
  | .token read => read.Named
  | _ => True

namespace Scanner

theorem splitWord_of_isAlpha {c : Char} (alpha : c.isAlpha = true) (rest : List Char) :
    splitWord (c :: rest) = (c :: (splitWord rest).1, (splitWord rest).2) := by
  have alphanum : c.isAlphanum = true := by
    simp [Char.isAlphanum, alpha]
  rw [splitWord]
  simp [alphanum]

theorem splitWord_of_isWordStart {c : Char} (start : isWordStart c = true) (rest : List Char) :
    splitWord (c :: rest) = (c :: (splitWord rest).1, (splitWord rest).2) := by
  rcases Bool.or_eq_true_iff.mp start with alpha | underscore
  · exact splitWord_of_isAlpha alpha rest
  · rw [splitWord]
    simp [beq_iff_eq.mp underscore]

/-- The other text begins as this one does, up to its first line break. -/
def BrokenOff (text other : List Char) : Prop :=
  ∀ word : List Char, (∀ c ∈ word, isLineBreak c = false) → word <+: other → word <+: text

theorem BrokenOff.refl (text : List Char) : BrokenOff text text :=
  fun _ _ begins => begins

theorem BrokenOff.nil (text : List Char) : BrokenOff text [] := by
  intro word _ begins
  rw [prefix_nil.mp begins]
  exact nil_prefix

theorem isLineBreak_eq_false (test : Char → Bool)
    (excluded : test '\n' = false ∧ test '\r' = false) {c : Char} (holds : test c = true) :
    isLineBreak c = false := by
  rw [isLineBreak, Bool.or_eq_false_iff, beq_eq_false_iff_ne, beq_eq_false_iff_ne]
  constructor
  · rintro rfl
    rw [excluded.1] at holds
    cases holds
  · rintro rfl
    rw [excluded.2] at holds
    cases holds

theorem splitWord_of_brokenOff {text other : List Char} (broken : BrokenOff text other)
    (none : (splitWord text).1 = []) : splitWord other = ([], other) := by
  cases other with
  | nil => rfl
  | cons c rest =>
    rw [splitWord, if_neg]
    rw [Bool.or_eq_true, Bool.and_eq_true, beq_iff_eq]
    rintro (belongs | ⟨rfl, follows⟩)
    · have oneLine := isLineBreak_eq_false (fun c => c.isAlphanum || c == '_') (by decide) belongs
      obtain ⟨more, rfl⟩ :=
        broken [c] (forall_mem_singleton.mpr oneLine) (prefix_append [c] rest)
      simp [splitWord, belongs] at none
    · cases rest with
      | nil => cases follows
      | cons letter rest =>
        have isAlpha : letter.isAlpha = true := follows
        have oneLine := isLineBreak_eq_false Char.isAlpha (by decide) isAlpha
        have bothOnLine : ∀ d ∈ ['-', letter], isLineBreak d = false :=
          forall_mem_cons.mpr ⟨rfl, forall_mem_singleton.mpr oneLine⟩
        obtain ⟨more, rfl⟩ :=
          broken ['-', letter] bothOnLine (prefix_append ['-', letter] rest)
        simp [splitWord, isAlpha] at none

theorem splitWord_again (chars : List Char) {other : List Char}
    (broken : BrokenOff (splitWord chars).2 other) :
    splitWord ((splitWord chars).1 ++ other) = ((splitWord chars).1, other) := by
  induction chars with
  | nil => exact splitWord_of_brokenOff broken rfl
  | cons c rest ih =>
    by_cases belongs : (c.isAlphanum || c == '_' ||
        (c == '-' && (rest.head?.map Char.isAlpha).getD false)) = true
    · have opened : splitWord (c :: rest) = (c :: (splitWord rest).1, (splitWord rest).2) := by
        rw [splitWord, if_pos belongs]
      rw [opened] at broken ⊢
      have belongsAgain : (c.isAlphanum || c == '_' ||
          (c == '-' && (((splitWord rest).1 ++ other).head?.map Char.isAlpha).getD false)) =
            true := by
        rw [Bool.or_eq_true, Bool.and_eq_true] at belongs ⊢
        refine belongs.imp id (And.imp id fun follows => ?_)
        cases rest with
        | nil => cases follows
        | cons letter more =>
          have isAlpha : letter.isAlpha = true := follows
          rw [splitWord_of_isAlpha isAlpha]
          exact isAlpha
      rw [cons_append, splitWord, if_pos belongsAgain, ih broken]
    · have stopped : splitWord (c :: rest) = ([], c :: rest) := by
        rw [splitWord, if_neg belongs]
      rw [stopped] at broken ⊢
      exact splitWord_of_brokenOff broken (congrArg Prod.fst stopped)

theorem oneLine_splitWord (chars : List Char) : '\n' ∉ (splitWord chars).1 := by
  induction chars with
  | nil => exact not_mem_nil
  | cons c rest ih =>
    unfold splitWord
    split
    next belongs =>
      refine not_mem_cons_of_ne_of_not_mem ?_ ih
      rintro rfl
      cases belongs
    next => exact not_mem_nil

theorem eq_ofList_of_ofWord {word : List Char} {name : String}
    (read : Token.ofWord word = .ident name) : name = String.ofList word := by
  unfold Token.ofWord at read
  split at read
  · cases read
  · cases read
  · split at read
    all_goals cases read
    rfl

theorem ofWord_ne_number (word : List Char) (value : Number) :
    Token.ofWord word ≠ .number value := by
  intro read
  unfold Token.ofWord at read
  split at read
  · cases read
  · cases read
  · split at read <;> cases read

theorem isIdentifier_word {c : Char} {rest : List Char} {name : String}
    (start : isWordStart c = true) (read : Token.ofWord (splitWord (c :: rest)).1 = .ident name) :
    isIdentifier name = true := by
  have chars : name.toList = (splitWord (c :: rest)).1 := by
    rw [eq_ofList_of_ofWord read, String.toList_ofList]
  have whole := splitWord_again (c :: rest) (.nil _)
  rw [append_nil, splitWord_of_isWordStart start] at whole
  rw [splitWord_of_isWordStart start] at chars read
  simp only [isIdentifier, chars, start, whole, read, isEmpty_nil, Bool.and_self,
    beq_self_eq_true]

end Scanner

end AutomationScript
